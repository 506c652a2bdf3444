import Mylldb.Random
import Mylldb.Lib.Lehmer

namespace Mylldb.Random

open Lib.Lehmer

theorem product_toNat (r : Random) : r.product.toNat = r.seed.toNat * 16807 := by
  have hlt := r.seed.isLt
  have hwide : (r.seed.setWidth 64).toNat = r.seed.toNat :=
    BitVec.toNat_setWidth_of_le (by decide)
  have hA : A.toNat = 16807 := rfl
  rw [product, BitVec.toNat_mul, hwide, hA]
  exact Nat.mod_eq_of_lt (by omega)

theorem folded_toNat (r : Random) : r.folded.toNat = fold 31 (r.seed.toNat * 16807) := by
  have hlt := r.seed.isLt
  have hM : (M.setWidth 64).toNat = 2 ^ 31 - 1 := rfl
  rw [folded, BitVec.toNat_add, BitVec.toNat_ushiftRight, BitVec.toNat_and, hM,
    Nat.and_two_pow_sub_one_eq_mod, Nat.shiftRight_eq_div_pow, product_toNat, fold]
  exact Nat.mod_eq_of_lt (by omega)

-- Whatever the seed is, nothing is cut off by the cast.
theorem folded_lt (r : Random) : r.folded.toNat < 2 ^ 32 := by
  have hlt := r.seed.isLt
  rw [folded_toNat, fold]
  omega

theorem next_toNat (r : Random) :
    r.next.1.toNat = reduce 31 (r.seed.toNat * 16807) := by
  have hcast : (r.folded.setWidth 32).toNat = fold 31 (r.seed.toNat * 16807) := by
    rw [BitVec.toNat_setWidth, Nat.mod_eq_of_lt r.folded_lt, folded_toNat]
  have hM : M.toNat = 2 ^ 31 - 1 := rfl
  unfold next reduce
  dsimp only
  have hcompare : r.folded.setWidth 32 > M ↔ fold 31 (r.seed.toNat * 16807) > 2 ^ 31 - 1 := by
    rw [← hcast, ← hM]
    exact Iff.rfl
  by_cases habove : r.folded.setWidth 32 > M
  · rw [if_pos habove, if_pos (hcompare.mp habove), BitVec.toNat_sub_of_le (BitVec.le_of_lt habove),
      hcast, hM]
  · rw [if_neg habove, if_neg (mt hcompare.mpr habove), hcast]

-- A generator that comes to one of these two seeds stays there.
theorem absorbed (r : Random) (h : r.seed = 0 ∨ r.seed = M) : r.next.2 = r := by
  obtain ⟨seed⟩ := r
  rcases h with rfl | rfl <;> rfl

-- The seeds between the two.
def InRange (r : Random) : Prop := 1 ≤ r.seed.toNat ∧ r.seed.toNat ≤ 2 ^ 31 - 2

theorem new_inRange (s : BitVec 32) : (new s).InRange := by
  have hand : (s &&& 0x7fffffff).toNat = s.toNat % 2 ^ 31 :=
    Nat.and_two_pow_sub_one_eq_mod s.toNat 31
  unfold new InRange
  dsimp only
  by_cases hbad : s &&& 0x7fffffff = 0 ∨ s &&& 0x7fffffff = 2147483647
  · rw [if_pos hbad]
    decide
  · rw [if_neg hbad]
    obtain ⟨hzero, hM⟩ := not_or.mp hbad
    have hzero' : (s &&& 0x7fffffff).toNat ≠ 0 := fun h => hzero (BitVec.eq_of_toNat_eq h)
    have hM' : (s &&& 0x7fffffff).toNat ≠ 2147483647 := fun h => hM (BitVec.eq_of_toNat_eq h)
    have hlt : (s &&& 0x7fffffff).toNat < 2 ^ 31 := by
      rw [hand]
      exact Nat.mod_lt _ (Nat.two_pow_pos 31)
    dsimp only
    omega

theorem coprime_factor : Nat.Coprime (2 ^ 31 - 1) 16807 := by decide

-- A seed in between is never taken to a multiple of the modulus, the only numbers that
-- the fold does not reduce.
theorem next_multiplies :
    Multiplies (2 ^ 31 - 1) 16807 (fun r : Random => r.seed.toNat) fun r => r.next.2 where
  coprime := coprime_factor
  step_eq r hpos hlt := by
    have hnext : r.next.2.seed.toNat = r.next.1.toNat := rfl
    rw [hnext, next_toNat]
    exact reduce_eq_mod 31 _ (by omega) (not_dvd_mul coprime_factor hpos hlt)

theorem after_zero (r : Random) : r.after 0 = r := rfl

theorem after_succ (r : Random) (n : Nat) : r.after (n + 1) = (r.after n).next.2 :=
  Function.iterate_succ_apply' _ n r

theorem after_add (r : Random) (m n : Nat) : (r.after m).after n = r.after (m + n) := by
  rw [Nat.add_comm]
  exact (Function.iterate_add_apply _ n m r).symm

theorem after_eq (r : Random) (hr : r.InRange) (n : Nat) : (r.after n).InRange ∧
    (r.after n).seed.toNat = r.seed.toNat * 16807 ^ n % (2 ^ 31 - 1) := by
  obtain ⟨hpos, hle⟩ := hr
  obtain ⟨hpos', hlt', heq⟩ := next_multiplies.iterate r hpos (by omega) n
  exact ⟨⟨hpos', Nat.le_sub_one_of_lt hlt'⟩, heq⟩

-- The call after `n` others returns the next power.
theorem next_after (r : Random) (hr : r.InRange) (n : Nat) :
    (r.after n).next.1.toNat = r.seed.toNat * 16807 ^ (n + 1) % (2 ^ 31 - 1) := by
  have heq := (r.after_eq hr (n + 1)).2
  rwa [after_succ] at heq

theorem uniform_lt (r : Random) (n : BitVec 32) (hn : n ≠ 0) :
    ∃ value, r.uniform n = some (value, r.next.2) ∧ value.toNat < n.toNat := by
  have hpos : 0 < n.toNat := Nat.pos_of_ne_zero fun hzero => hn (BitVec.eq_of_toNat_eq hzero)
  refine ⟨r.next.1 % n, by rw [uniform, if_neg hn], ?_⟩
  rw [BitVec.toNat_umod]
  exact Nat.mod_lt _ hpos

-- The range is drawn first, then the number.
theorem skewed_lt (r : Random) (maxLog : BitVec 32) (hle : maxLog.toNat ≤ 30) :
    ∃ value, r.skewed maxLog = some (value, r.after 2) ∧ value.toNat < 2 ^ maxLog.toNat := by
  have hsum : (maxLog + 1).toNat = maxLog.toNat + 1 := by
    have hone : (1 : BitVec 32).toNat = 1 := rfl
    rw [BitVec.toNat_add, hone]
    exact Nat.mod_eq_of_lt (by omega)
  have hmax : maxLog ≠ 0x7fffffff := by
    rintro rfl
    exact absurd hle (by decide)
  have hne : maxLog + 1 ≠ 0 := fun hzero => by
    rw [hzero] at hsum
    cases hsum
  obtain ⟨log, hlog, hlt⟩ := r.uniform_lt (maxLog + 1) hne
  rw [hsum] at hlt
  have hpower : (1#32 <<< log).toNat = 2 ^ log.toNat := by
    rw [BitVec.shiftLeft_eq', BitVec.toNat_shiftLeft, Nat.shiftLeft_eq]
    have hpow : 2 ^ log.toNat < 2 ^ 32 := Nat.pow_lt_pow_right (by decide) (by omega)
    have hone : (1#32).toNat = 1 := rfl
    rw [hone, Nat.one_mul, Nat.mod_eq_of_lt hpow]
  have hshift : 1#32 <<< log ≠ 0 := fun hzero => by
    rw [hzero] at hpower
    exact absurd hpower (Nat.ne_of_lt (Nat.two_pow_pos _))
  obtain ⟨value, hvalue, hbound⟩ := r.next.2.uniform_lt _ hshift
  rw [hpower] at hbound
  refine ⟨value, ?_, Nat.lt_of_lt_of_le hbound (Nat.pow_le_pow_right (by decide) (by omega))⟩
  have hbits : log < 31 := by
    have hthirtyOne : (31 : BitVec 32).toNat = 31 := rfl
    rw [BitVec.lt_def, hthirtyOne]
    omega
  rw [skewed, if_neg hmax, hlog]
  simp only [Option.bind_eq_bind, Option.bind_some, if_pos hbits, hvalue]
  rfl

end Mylldb.Random

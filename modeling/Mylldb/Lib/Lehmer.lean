import Mathlib.Data.Int.CardIntervalMod
import Mathlib.NumberTheory.LucasLehmer

namespace Lib.Lehmer

-- The bits from `k` on are added to the bits below.
def fold (k x : Nat) : Nat := x / 2 ^ k + x % 2 ^ k

-- A fold and one subtraction, modulo `2 ^ k - 1`.
def reduce (k x : Nat) : Nat :=
  if fold k x > 2 ^ k - 1 then fold k x - (2 ^ k - 1) else fold k x

theorem fold_modEq (k x : Nat) : fold k x ≡ x [MOD 2 ^ k - 1] := (modEq_mersenne k x).symm

theorem fold_lt (k x : Nat) (hx : x < 2 ^ k * (2 ^ k - 1)) : fold k x < 2 * (2 ^ k - 1) := by
  have hhigh : x / 2 ^ k < 2 ^ k - 1 := Nat.div_lt_of_lt_mul hx
  have hlow : x % 2 ^ k < 2 ^ k := Nat.mod_lt x (Nat.two_pow_pos k)
  unfold fold
  omega

-- The modulus itself is left where it is, but only its multiples fold to it.
theorem reduce_eq_mod (k x : Nat) (hx : x < 2 ^ k * (2 ^ k - 1)) (hdvd : ¬2 ^ k - 1 ∣ x) :
    reduce k x = x % (2 ^ k - 1) := by
  have hmod : fold k x % (2 ^ k - 1) = x % (2 ^ k - 1) := fold_modEq k x
  have hlt := fold_lt k x hx
  have hne : fold k x ≠ 2 ^ k - 1 := by
    intro heq
    rw [heq, Nat.mod_self] at hmod
    exact hdvd (Nat.dvd_of_mod_eq_zero hmod.symm)
  rw [reduce, ← hmod]
  by_cases habove : fold k x > 2 ^ k - 1
  · rw [if_pos habove, Nat.mod_eq_sub_mod habove.le, Nat.mod_eq_of_lt (by omega)]
  · rw [if_neg habove, Nat.mod_eq_of_lt (by omega)]

-- A factor without a common divisor with the modulus takes no residue to zero.
theorem not_dvd_mul {m a x : Nat} (ha : Nat.Coprime m a) (hpos : 0 < x) (hlt : x < m) :
    ¬m ∣ x * a := by
  intro hdvd
  exact Nat.not_dvd_of_pos_of_lt hpos hlt (ha.dvd_of_dvd_mul_right hdvd)

theorem mul_mod_pos {m a x : Nat} (ha : Nat.Coprime m a) (hpos : 0 < x) (hlt : x < m) :
    0 < x * a % m :=
  Nat.pos_of_ne_zero fun hzero => not_dvd_mul ha hpos hlt (Nat.dvd_of_mod_eq_zero hzero)

-- A generator that multiplies its residue in every step.
structure Multiplies {σ : Type} (m a : Nat) (residue : σ → Nat) (step : σ → σ) : Prop where
  coprime : Nat.Coprime m a
  step_eq : ∀ s, 0 < residue s → residue s < m → residue (step s) = residue s * a % m

namespace Multiplies

variable {σ : Type} {m a : Nat} {residue : σ → Nat} {step : σ → σ}

theorem inRange (h : Multiplies m a residue step) (s : σ) (hpos : 0 < residue s)
    (hlt : residue s < m) : 0 < residue (step s) ∧ residue (step s) < m := by
  rw [h.step_eq s hpos hlt]
  exact ⟨mul_mod_pos h.coprime hpos hlt, Nat.mod_lt _ (Nat.zero_lt_of_lt hlt)⟩

theorem iterate (h : Multiplies m a residue step) (s : σ) (hpos : 0 < residue s)
    (hlt : residue s < m) (n : Nat) : 0 < residue (step^[n] s) ∧ residue (step^[n] s) < m ∧
      residue (step^[n] s) = residue s * a ^ n % m := by
  induction n with
  | zero =>
      refine ⟨hpos, hlt, ?_⟩
      rw [Function.iterate_zero_apply, Nat.pow_zero, Nat.mul_one, Nat.mod_eq_of_lt hlt]
  | succ n ih =>
      obtain ⟨hpos', hlt', heq⟩ := ih
      obtain ⟨hnext, hbound⟩ := h.inRange _ hpos' hlt'
      rw [Function.iterate_succ_apply']
      refine ⟨hnext, hbound, ?_⟩
      rw [h.step_eq _ hpos' hlt', heq, Nat.mod_mul_mod, Nat.pow_succ, Nat.mul_assoc]

section Period

variable [Fact m.Prime]

theorem cast_iterate (h : Multiplies m a residue step) (s : σ) (hpos : 0 < residue s)
    (hlt : residue s < m) (n : Nat) :
    (residue (step^[n] s) : ZMod m) = residue s * (a : ZMod m) ^ n := by
  obtain ⟨-, -, heq⟩ := h.iterate s hpos hlt n
  rw [heq, ZMod.natCast_mod, Nat.cast_mul, Nat.cast_pow]

-- A primitive factor brings the generator back after `m - 1` steps, not earlier.
theorem iterate_period (h : Multiplies m a residue step)
    (hprimitive : orderOf (a : ZMod m) = m - 1) (s : σ) (hpos : 0 < residue s)
    (hlt : residue s < m) : residue (step^[m - 1] s) = residue s := by
  have hcast := h.cast_iterate s hpos hlt (m - 1)
  rw [← hprimitive, pow_orderOf_eq_one, mul_one, hprimitive] at hcast
  have hmod := (ZMod.natCast_eq_natCast_iff' _ _ m).mp hcast
  rwa [Nat.mod_eq_of_lt (h.iterate s hpos hlt (m - 1)).2.1, Nat.mod_eq_of_lt hlt] at hmod

theorem iterate_injOn (h : Multiplies m a residue step)
    (hprimitive : orderOf (a : ZMod m) = m - 1) (s : σ) (hpos : 0 < residue s)
    (hlt : residue s < m) :
    Set.InjOn (fun k => residue (step^[k] s)) (Finset.range (m - 1)) := by
  intro i hi j hj heq
  have hunit : (residue s : ZMod m) ≠ 0 := by
    rw [Ne, ZMod.natCast_eq_zero_iff]
    exact Nat.not_dvd_of_pos_of_lt hpos hlt
  have hcast : (residue (step^[i] s) : ZMod m) = residue (step^[j] s) := congrArg _ heq
  rw [h.cast_iterate s hpos hlt, h.cast_iterate s hpos hlt] at hcast
  have hpow := mul_left_cancel₀ hunit hcast
  rw [Finset.coe_range, ← hprimitive] at hi hj
  exact pow_injOn_Iio_orderOf hi hj hpow

-- So it runs through all residues.
theorem iterate_image (h : Multiplies m a residue step)
    (hprimitive : orderOf (a : ZMod m) = m - 1) (s : σ) (hpos : 0 < residue s)
    (hlt : residue s < m) :
    (Finset.range (m - 1)).image (fun k => residue (step^[k] s)) = Finset.Ico 1 m := by
  apply Finset.eq_of_subset_of_card_le
  · intro x hx
    obtain ⟨k, -, rfl⟩ := Finset.mem_image.mp hx
    obtain ⟨hpos', hlt', -⟩ := h.iterate s hpos hlt k
    exact Finset.mem_Ico.mpr ⟨hpos', hlt'⟩
  · rw [Finset.card_image_of_injOn (h.iterate_injOn hprimitive s hpos hlt), Nat.card_Ico,
      Finset.card_range]

theorem iterate_hits (h : Multiplies m a residue step)
    (hprimitive : orderOf (a : ZMod m) = m - 1) (s : σ) (hpos : 0 < residue s)
    (hlt : residue s < m) (v : Nat) (hv : 1 ≤ v) (hvm : v < m) :
    ∃! k, k < m - 1 ∧ residue (step^[k] s) = v := by
  have hmem : v ∈ (Finset.range (m - 1)).image fun k => residue (step^[k] s) := by
    rw [h.iterate_image hprimitive s hpos hlt]
    exact Finset.mem_Ico.mpr ⟨hv, hvm⟩
  obtain ⟨k, hk, rfl⟩ := Finset.mem_image.mp hmem
  refine ⟨k, ⟨Finset.mem_range.mp hk, rfl⟩, fun j ⟨hj, heq⟩ => ?_⟩
  exact h.iterate_injOn hprimitive s hpos hlt (Finset.mem_coe.mpr (Finset.mem_range.mpr hj))
    (Finset.mem_coe.mpr hk) heq

-- What is counted over a period is counted over the residues.
theorem card_period (h : Multiplies m a residue step)
    (hprimitive : orderOf (a : ZMod m) = m - 1) (s : σ) (hpos : 0 < residue s)
    (hlt : residue s < m) (p : Nat → Prop) [DecidablePred p] :
    ((Finset.range (m - 1)).filter fun k => p (residue (step^[k] s))).card =
      ((Finset.Ico 1 m).filter p).card := by
  rw [← h.iterate_image hprimitive s hpos hlt, Finset.filter_image, Finset.card_image_of_injOn]
  exact (h.iterate_injOn hprimitive s hpos hlt).mono
    (Finset.coe_subset.mpr (Finset.filter_subset _ _))

end Period

end Multiplies

-- Every remainder comes up as often as every other, or once more, and zero as often as
-- a whole divisor fits in.
theorem card_remainder (m n v : Nat) (hm : 0 < m) (hv : v < n) :
    (m - 1) / n ≤ ((Finset.Ico 1 m).filter fun x => x % n = v).card ∧
      ((Finset.Ico 1 m).filter fun x => x % n = v).card ≤ (m - 1) / n + 1 ∧
      (v = 0 → ((Finset.Ico 1 m).filter fun x => x % n = v).card = (m - 1) / n) := by
  have hcount := Nat.count_modEq_card m (Nat.zero_lt_of_lt hv) v
  have hfilter : ((Finset.range m).filter fun x => x ≡ v [MOD n]) =
      if v = 0 then insert 0 ((Finset.Ico 1 m).filter fun x => x % n = v)
        else (Finset.Ico 1 m).filter fun x => x % n = v := by
    have hrange : Finset.range m = insert 0 (Finset.Ico 1 m) := by
      ext x
      rw [Finset.mem_range, Finset.mem_insert, Finset.mem_Ico]
      omega
    rw [hrange, Finset.filter_insert]
    simp only [Nat.ModEq, Nat.mod_eq_of_lt hv, Nat.zero_mod, eq_comm (a := 0)]
  have hdiv : m / n = (m - 1) / n + if n ∣ m then 1 else 0 := by
    have hsucc : (m - 1 + 1) / n = (m - 1) / n + if n ∣ m - 1 + 1 then 1 else 0 := Nat.succ_div
    rwa [Nat.sub_add_cancel hm] at hsucc
  have hdvd : n ∣ m ↔ m % n = 0 := Nat.dvd_iff_mod_eq_zero
  rw [Nat.count_eq_card_filter_range, hfilter, Nat.mod_eq_of_lt hv] at hcount
  by_cases hzero : v = 0
  · rw [if_pos hzero, Finset.card_insert_of_notMem (by simp)] at hcount
    split_ifs at hcount hdiv <;> omega
  · rw [if_neg hzero] at hcount
    split_ifs at hcount hdiv <;> omega

end Lib.Lehmer

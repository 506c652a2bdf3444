import Mylldb.Coding
import Mathlib.Tactic.Ring

namespace Mylldb

open Lib.Base128 Lib.Run

theorem ofNat_or_128 (v : Nat) : (UInt8.ofNat (v ||| 128)).toNat = v % 128 + 128 := by
  rw [UInt8.toNat_ofNat', or_128_mod]

theorem ofNat_group (v : Nat) : UInt8.ofNat ((v &&& 127) ||| 128) = UInt8.ofNat (v ||| 128) := by
  apply UInt8.toNat_inj.mp
  rw [ofNat_or_128, ofNat_or_128, and_127, Nat.mod_mod]

theorem single_group (v : Nat) (hv : v < 128) :
    Terminated [UInt8.ofNat v] ∧ value [UInt8.ofNat v] = v := by
  have hn : (UInt8.ofNat v).toNat = v := by
    rw [UInt8.toNat_ofNat']
    omega
  refine ⟨?_, ?_⟩
  · change (UInt8.ofNat v).toNat < 128
    omega
  · simp only [value, hn]
    omega

theorem encodeVarint64_loop (fuel v : Nat) (hv : v < 128 ^ (fuel + 1)) :
    Terminated (encodeVarint64.loop fuel v) ∧ value (encodeVarint64.loop fuel v) = v ∧
      (encodeVarint64.loop fuel v).length = varintLength.loop fuel v := by
  induction fuel generalizing v with
  | zero =>
      obtain ⟨hterm, hvalue⟩ := single_group v (by simpa using hv)
      exact ⟨hterm, hvalue, rfl⟩
  | succ fuel ih =>
      simp only [encodeVarint64.loop, varintLength.loop]
      split
      · have hdiv : v >>> 7 = v / 128 := Nat.shiftRight_eq_div_pow v 7
        have hlt : v / 128 < 128 ^ (fuel + 1) := by
          rw [Nat.div_lt_iff_lt_mul (by omega)]
          rwa [Nat.pow_succ] at hv
        obtain ⟨hterm, hvalue, hlen⟩ := ih (v / 128) hlt
        rw [hdiv, ofNat_group]
        refine ⟨terminated_cons _ _ (by rw [ofNat_or_128]; omega) hterm, ?_, by simp [hlen]⟩
        simp only [value, hvalue, ofNat_or_128]
        omega
      · obtain ⟨hterm, hvalue⟩ := single_group v (by omega)
        exact ⟨hterm, hvalue, rfl⟩

theorem encodeVarint64_spec (v : Nat) (hv : v < 2 ^ 64) :
    Terminated (encodeVarint64 v) ∧ value (encodeVarint64 v) = v ∧
      (encodeVarint64 v).length = varintLength v :=
  encodeVarint64_loop 9 v (hv.trans (by decide))

-- The unrolled encoder writes the bytes of the loop.
theorem encodeVarint32_eq (v : Nat) (hv : v < 2 ^ 32) : encodeVarint32 v = encodeVarint64 v := by
  have h7 : v >>> 7 = v / 128 := Nat.shiftRight_eq_div_pow v 7
  have h14 : v >>> 14 = v / 128 / 128 := by
    rw [Nat.shiftRight_eq_div_pow, Nat.div_div_eq_div_mul]
  have h21 : v >>> 21 = v / 128 / 128 / 128 := by
    rw [Nat.shiftRight_eq_div_pow, Nat.div_div_eq_div_mul, Nat.div_div_eq_div_mul]
  have h28 : v >>> 28 = v / 128 / 128 / 128 / 128 := by
    rw [Nat.shiftRight_eq_div_pow, Nat.div_div_eq_div_mul, Nat.div_div_eq_div_mul,
      Nat.div_div_eq_div_mul]
  have hshift : ∀ n : Nat, n >>> 7 = n / 128 := fun n => Nat.shiftRight_eq_div_pow n 7
  simp only [encodeVarint32, encodeVarint64, encodeVarint64.loop, ofNat_group, hshift, h14, h21, h28]
  simp only [show 1 <<< 7 = 128 from rfl, show 1 <<< 14 = 16384 from rfl,
    show 1 <<< 21 = 2097152 from rfl, show 1 <<< 28 = 268435456 from rfl]
  by_cases c7 : v < 128
  · simp [c7, Nat.not_le.mpr c7]
  by_cases c14 : v < 16384
  · simp [c7, c14, show 128 ≤ v by omega, show ¬128 ≤ v / 128 by omega]
  by_cases c21 : v < 2097152
  · simp [c7, c14, c21, show 128 ≤ v by omega, show 128 ≤ v / 128 by omega,
      show ¬128 ≤ v / 128 / 128 by omega]
  by_cases c28 : v < 268435456
  · simp [c7, c14, c21, c28, show 128 ≤ v by omega, show 128 ≤ v / 128 by omega,
      show 128 ≤ v / 128 / 128 by omega, show ¬128 ≤ v / 128 / 128 / 128 by omega]
  · simp [c7, c14, c21, c28, show 128 ≤ v by omega, show 128 ≤ v / 128 by omega,
      show 128 ≤ v / 128 / 128 by omega, show 128 ≤ v / 128 / 128 / 128 by omega,
      show ¬128 ≤ v / 128 / 128 / 128 / 128 by omega]

theorem varintLength_loop_le (fuel v : Nat) : varintLength.loop fuel v ≤ fuel + 1 := by
  induction fuel generalizing v with
  | zero => exact Nat.le_refl 1
  | succ fuel ih =>
      have := ih (v >>> 7)
      simp only [varintLength.loop]
      split <;> omega

theorem encodeVarint32_spec (v : Nat) (hv : v < 2 ^ 32) :
    Terminated (encodeVarint32 v) ∧ value (encodeVarint32 v) = v ∧
      (encodeVarint32 v).length = varintLength v ∧ (encodeVarint32 v).length ≤ 5 := by
  obtain ⟨hterm, hvalue, hlen⟩ := encodeVarint64_spec v (hv.trans (by decide))
  refine ⟨?_, ?_, ?_, ?_⟩
  · rwa [encodeVarint32_eq v hv]
  · rwa [encodeVarint32_eq v hv]
  · rwa [encodeVarint32_eq v hv]
  · unfold encodeVarint32
    split_ifs <;> simp

theorem encodeVarint32_length_pos (v : Nat) : 1 ≤ (encodeVarint32 v).length := by
  unfold encodeVarint32
  split_ifs <;> simp

-- A number can be told from what follows it.
theorem encodeVarint32_append_inj {v w : Nat} {rest rest' : Bytes} (hv : v < 2 ^ 32)
    (hw : w < 2 ^ 32) (h : encodeVarint32 v ++ rest = encodeVarint32 w ++ rest') :
    v = w ∧ rest = rest' := by
  obtain ⟨hterm, hvalue, -⟩ := encodeVarint32_spec v hv
  obtain ⟨hterm', hvalue', -⟩ := encodeVarint32_spec w hw
  have hdecode := congrArg decode h
  rw [decode_append _ _ hterm, decode_append _ _ hterm', hvalue, hvalue'] at hdecode
  exact Prod.mk.inj (Option.some.inj hdecode)

-- The loop gathers a terminated group sequence on top of the bits below `shift`.
theorem fallback_loop (data : Bytes) (limit : Nat) (bs : Bytes) (turns shift p result : Nat)
    (hat : StandsAt data p bs) (hterm : Terminated bs) (hlen : bs.length ≤ turns)
    (hlimit : p + bs.length ≤ limit) (hshift : shift + 7 * turns = 35) (hresult : result < 2 ^ shift) :
    getVarint32PtrFallback.loop data limit turns shift p result =
      .ok (some (p + bs.length, (result + value bs * 2 ^ shift) % 2 ^ 32)) := by
  induction bs generalizing turns shift p result with
  | nil => exact hterm.elim
  | cons b bs ih =>
      have hb := b.toNat_lt
      rw [List.length_cons] at hlen hlimit
      obtain ⟨turns, rfl⟩ : ∃ n, turns = n + 1 := ⟨turns - 1, by omega⟩
      have hp : p < limit := by omega
      simp only [getVarint32PtrFallback.loop, hp, ite_true, hat.readByte_eq, ok_bind, and_127]
      cases bs with
      | nil =>
          have hlt : b.toNat < 128 := hterm
          have hvalue : value [b] = b.toNat := by
            simp only [value]
            omega
          simp only [(and_128 _ hb).mpr hlt, ne_eq, not_true, ite_false, pure_eq, hvalue,
            or_shiftLeft result b.toNat shift hresult (by omega), List.length_singleton]
      | cons c bs =>
          obtain ⟨hge, hterm⟩ := hterm
          have hne : b.toNat &&& 128 ≠ 0 := fun h => by
            have := (and_128 _ hb).mp h
            omega
          have hshift' : shift ≤ 21 := by
            simp only [List.length_cons] at hlen
            omega
          have hgroup : result + b.toNat % 128 * 2 ^ shift < 2 ^ (shift + 7) := by
            have hmod : b.toNat % 128 ≤ 127 := by omega
            have hmul := Nat.mul_le_mul_right (2 ^ shift) hmod
            rw [Nat.pow_add]
            omega
          have hword : result + b.toNat % 128 * 2 ^ shift < 2 ^ 32 :=
            hgroup.trans_le (Nat.pow_le_pow_right (by omega) (by omega))
          rw [if_pos hne, or_shiftLeft result _ shift hresult (by omega), Nat.mod_eq_of_lt hword,
            ih turns (shift + 7) (p + 1) _ hat.tail hterm (by omega) (by omega) (by omega) hgroup]
          simp only [value, List.length_cons, Nat.pow_add, Except.ok.injEq, Option.some.injEq,
            Prod.mk.injEq]
          refine ⟨by omega, congrArg (· % 2 ^ 32) ?_⟩
          ring

theorem getVarint32Ptr_eq (data : Bytes) (p limit : Nat) (bs : Bytes) (hat : StandsAt data p bs)
    (hterm : Terminated bs) (hlen : bs.length ≤ 5) (hlimit : p + bs.length ≤ limit) :
    getVarint32Ptr data p limit = .ok (some (p + bs.length, value bs % 2 ^ 32)) := by
  have hfallback : getVarint32PtrFallback data p limit =
      .ok (some (p + bs.length, value bs % 2 ^ 32)) := by
    have h := fallback_loop data limit bs 5 0 p 0 hat hterm hlen hlimit rfl (by decide)
    rw [getVarint32PtrFallback, h]
    simp only [Nat.zero_add, Nat.pow_zero, Nat.mul_one]
  cases bs with
  | nil => exact hterm.elim
  | cons b bs =>
      have hp : p < limit := by
        simp only [List.length_cons] at hlimit
        omega
      have hb := b.toNat_lt
      simp only [getVarint32Ptr, hp, ite_true, hat.readByte_eq, ok_bind, hfallback]
      by_cases hlt : b.toNat &&& 128 = 0
      · have hlt' := (and_128 _ hb).mp hlt
        -- the first byte ends the encoding, so it is the only one
        cases bs with
        | nil =>
            have hvalue : value [b] % 2 ^ 32 = b.toNat := by
              simp only [value]
              omega
            simp only [hlt, ite_true, pure_eq, hvalue, List.length_singleton]
        | cons c bs =>
            have := hterm.1
            omega
      · rw [if_neg hlt]

theorem getVarint32Ptr_encode (data : Bytes) (p limit v : Nat) (hv : v < 2 ^ 32)
    (hat : StandsAt data p (encodeVarint32 v)) (hlimit : p + (encodeVarint32 v).length ≤ limit) :
    getVarint32Ptr data p limit = .ok (some (p + (encodeVarint32 v).length, v)) := by
  obtain ⟨hterm, hvalue, -, hlen⟩ := encodeVarint32_spec v hv
  rw [getVarint32Ptr_eq data p limit _ hat hterm hlen hlimit, hvalue, Nat.mod_eq_of_lt hv]

@[simp] theorem encodeFixed32_length (v : Nat) : (encodeFixed32 v).length = 4 :=
  Lib.LittleEndian.bytes_length 4 v

@[simp] theorem encodeFixed64_length (v : Nat) : (encodeFixed64 v).length = 8 :=
  Lib.LittleEndian.bytes_length 8 v

theorem decodeFixed32_eq (data : Bytes) (p v : Nat) (hv : v < 2 ^ 32)
    (hat : StandsAt data p (encodeFixed32 v)) (hp : p ≤ data.length) :
    decodeFixed32 data p = .ok v := by
  have hread := hat.readRange_eq hp
  rw [encodeFixed32_length] at hread
  simp only [decodeFixed32, hread, ok_bind, pure_eq, encodeFixed32]
  rw [Lib.LittleEndian.value_bytes_of_lt 4 v (hv.trans_eq (by decide))]

theorem decodeFixed32_fits (data : Bytes) (p : Nat) (hp : p + 4 ≤ data.length) :
    ∃ v < 2 ^ 32, decodeFixed32 data p = .ok v := by
  refine ⟨Lib.LittleEndian.value ((data.drop p).take 4), ?_, ?_⟩
  · apply (Lib.LittleEndian.value_lt _).trans_le
    exact Nat.pow_le_pow_right (by omega) (List.length_take_le _ _)
  · rw [decodeFixed32, readRange_total data p 4 hp]
    rfl

theorem decodeFixed32_past (data : Bytes) (p : Nat) (hp : data.length < p + 4) :
    decodeFixed32 data p = .error .outOfBounds := by
  rw [decodeFixed32, readRange_past data p 4 hp, error_bind]

theorem decodeFixed32_onlyFails (data : Bytes) (p : Nat) :
    OnlyFails .outOfBounds (decodeFixed32 data p) fun _ => True := by
  unfold decodeFixed32
  exact (readRange_onlyFails data p 4).bind fun _ _ _ => .ok trivial

theorem decodeFixed64_eq (data : Bytes) (p v : Nat) (hv : v < 2 ^ 64)
    (hat : StandsAt data p (encodeFixed64 v)) (hp : p ≤ data.length) :
    decodeFixed64 data p = .ok v := by
  have hread := hat.readRange_eq hp
  rw [encodeFixed64_length] at hread
  simp only [decodeFixed64, hread, ok_bind, pure_eq, encodeFixed64]
  rw [Lib.LittleEndian.value_bytes_of_lt 8 v (hv.trans_eq (by decide))]

end Mylldb

import Mathlib.Data.Nat.Bitwise

namespace Lib.Base128

-- The number whose 7-bit groups, lowest first, are the low bits of the bytes.
def value : List UInt8 → Nat
  | [] => 0
  | b :: bs => b.toNat % 128 + 128 * value bs

-- The top bit is clear on the last byte and set on every other one.
def Terminated : List UInt8 → Prop
  | [] => False
  | [b] => b.toNat < 128
  | b :: bs => 128 ≤ b.toNat ∧ Terminated bs

theorem terminated_cons (b : UInt8) (bs : List UInt8) (hb : 128 ≤ b.toNat) (h : Terminated bs) :
    Terminated (b :: bs) := by
  cases bs with
  | nil => exact h.elim
  | cons c bs => exact ⟨hb, h⟩

-- The byte is the last one of a number.
def ends (b : UInt8) : Bool := b.toNat < 128

theorem not_ends_iff (b : UInt8) : ends b = false ↔ 128 ≤ b.toNat := by
  rw [ends, decide_eq_false_iff_not, Nat.not_lt]

-- Whatever precedes the last byte does not end the number.
theorem Terminated.not_ends (before after : List UInt8) (h : Terminated (before ++ after))
    (hafter : after ≠ []) : ∀ b ∈ before, ends b = false := by
  induction before with
  | nil => simp
  | cons c before ih =>
      obtain ⟨d, rest, hd⟩ := List.exists_cons_of_ne_nil (List.append_ne_nil_of_right_ne_nil before hafter)
      rw [List.cons_append, hd] at h
      rw [hd] at ih
      intro b hb
      rcases List.mem_cons.mp hb with rfl | hb
      · exact (not_ends_iff b).mpr h.1
      · exact ih h.2 b hb

-- The bytes through the first one that ends a number are a number.
theorem terminated_take (bs : List UInt8) (i : Nat) (hi : bs.findIdx? ends = some i) :
    Terminated (bs.take (i + 1)) := by
  induction bs generalizing i with
  | nil => cases hi
  | cons b bs ih =>
      rw [List.findIdx?_cons] at hi
      split at hi
      · rename_i hb
        obtain rfl := Option.some.inj hi
        have hlt : b.toNat < 128 := of_decide_eq_true hb
        exact hlt
      · rename_i hb
        obtain ⟨j, hj, rfl⟩ := Option.map_eq_some_iff.mp hi
        rw [List.take_succ_cons]
        exact terminated_cons _ _ ((not_ends_iff b).mp (Bool.eq_false_iff.mpr hb)) (ih j hj)

-- The first number of the input and what follows it.
def decode : List UInt8 → Option (Nat × List UInt8)
  | [] => none
  | b :: bs =>
      if b.toNat < 128 then some (b.toNat, bs)
      else (decode bs).map fun d => (b.toNat % 128 + 128 * d.1, d.2)

theorem decode_append (bs rest : List UInt8) (h : Terminated bs) :
    decode (bs ++ rest) = some (value bs, rest) := by
  induction bs with
  | nil => exact h.elim
  | cons b bs ih =>
      cases bs with
      | nil =>
          have hb : b.toNat < 128 := h
          simp only [List.singleton_append, decode, if_pos hb, value]
          rw [Nat.mod_eq_of_lt hb, Nat.mul_zero, Nat.add_zero]
      | cons c bs =>
          obtain ⟨hb, hrest⟩ := h
          rw [List.cons_append, decode, if_neg (by omega), ih hrest]
          rfl

theorem value_lt (bs : List UInt8) : value bs < 128 ^ bs.length := by
  induction bs with
  | nil => simp [value]
  | cons b bs ih =>
      have hb := Nat.mod_lt b.toNat (y := 128) (by omega)
      simp only [value, List.length_cons, Nat.pow_succ']
      omega

theorem and_128 (n : Nat) (hn : n < 256) : n &&& 128 = 0 ↔ n < 128 := by
  have h : ∀ n < 256, n &&& 128 = 0 ↔ n < 128 := by decide +kernel
  exact h n hn

theorem and_127 (n : Nat) : n &&& 127 = n % 128 := Nat.and_two_pow_sub_one_eq_mod n 7

theorem or_128_mod (n : Nat) : (n ||| 128) % 256 = n % 128 + 128 := by
  have h : ∀ n < 256, n ||| 128 = n % 128 + 128 := by decide +kernel
  have hmod := Nat.or_mod_two_pow (a := n) (b := 128) (n := 8)
  have hn := h (n % 256) (Nat.mod_lt _ (by omega))
  change (n ||| 128) % 256 = n % 256 ||| 128 at hmod
  omega

-- Shifting a group above the bits gathered so far adds it at that place.
theorem or_shiftLeft (result group shift : Nat) (hresult : result < 2 ^ shift) (hs : shift ≤ 32) :
    result ||| ((group <<< shift) % 2 ^ 32) = (result + group * 2 ^ shift) % 2 ^ 32 := by
  have hpow : 2 ^ 32 = 2 ^ (32 - shift) * 2 ^ shift := by
    rw [← Nat.pow_add, Nat.sub_add_cancel hs]
  have hor : result ||| ((group <<< shift) % 2 ^ 32) = result + (group * 2 ^ shift) % 2 ^ 32 := by
    rw [Nat.shiftLeft_eq, hpow, Nat.mul_mod_mul_right, Nat.or_comm,
      Nat.mul_comm (group % _) (2 ^ shift), ← Nat.two_pow_add_eq_or_of_lt hresult, Nat.add_comm]
  have hlt : result ||| ((group <<< shift) % 2 ^ 32) < 2 ^ 32 :=
    Nat.or_lt_two_pow (hresult.trans_le (Nat.pow_le_pow_right (by omega) hs))
      (Nat.mod_lt _ (by decide))
  rw [hor] at hlt
  rw [hor, ← Nat.add_mod_mod, Nat.mod_eq_of_lt hlt]

end Lib.Base128

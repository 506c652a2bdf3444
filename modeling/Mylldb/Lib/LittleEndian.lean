import Mathlib.Data.Nat.ModEq

namespace Lib.LittleEndian

def bytes : Nat → Nat → List UInt8
  | 0, _ => []
  | width + 1, v => UInt8.ofNat v :: bytes width (v / 256)

def value : List UInt8 → Nat
  | [] => 0
  | b :: bs => b.toNat + 256 * value bs

@[simp] theorem bytes_length (width v : Nat) : (bytes width v).length = width := by
  induction width generalizing v with
  | zero => rfl
  | succ width ih => simp [bytes, ih]

theorem value_bytes (width v : Nat) : value (bytes width v) = v % 256 ^ width := by
  induction width generalizing v with
  | zero => simp [bytes, value, Nat.mod_one]
  | succ width ih =>
      have hmod := Nat.mod_mul (x := v) (a := 256) (b := 256 ^ width)
      simp only [bytes, value, ih, UInt8.toNat_ofNat', Nat.pow_succ']
      omega

theorem value_bytes_of_lt (width v : Nat) (hv : v < 256 ^ width) : value (bytes width v) = v := by
  rw [value_bytes, Nat.mod_eq_of_lt hv]

theorem value_lt (bs : List UInt8) : value bs < 256 ^ bs.length := by
  induction bs with
  | nil => simp [value]
  | cons b bs ih =>
      have hb := b.toNat_lt
      simp only [value, List.length_cons, Nat.pow_succ']
      omega

theorem value_append (bs bs' : List UInt8) :
    value (bs ++ bs') = value bs + 256 ^ bs.length * value bs' := by
  induction bs with
  | nil => simp [value]
  | cons b bs ih =>
      rw [List.cons_append, value, value, ih, List.length_cons, Nat.pow_succ', Nat.mul_add,
        Nat.add_assoc, Nat.mul_assoc]

-- The bytes of a number are determined by it.
theorem bytes_value (bs : List UInt8) : bytes bs.length (value bs) = bs := by
  induction bs with
  | nil => rfl
  | cons b bs ih =>
      have hb := b.toNat_lt
      have hlow : UInt8.ofNat (b.toNat + 256 * value bs) = b := by
        apply UInt8.toNat_inj.mp
        rw [UInt8.toNat_ofNat']
        omega
      have hhigh : (b.toNat + 256 * value bs) / 256 = value bs := by omega
      rw [List.length_cons, value, bytes, hlow, hhigh, ih]

end Lib.LittleEndian

import Mathlib.Data.List.Basic
import Mathlib.Logic.Function.Iterate
import Mylldb.Lib.LittleEndian

namespace Lib.Crc

variable {w : Nat}

-- One turn of a reflected CRC register: a bit falls out on the right, and a one
-- brings the polynomial in.
def bitStep (poly x : BitVec w) : BitVec w :=
  (x >>> 1) ^^^ (if x.getLsbD 0 then poly else 0#w)

-- The register after `n` zero bits.
def advance (poly : BitVec w) (n : Nat) (x : BitVec w) : BitVec w := (bitStep poly)^[n] x

-- A byte enters at the low end.
def feed (poly x : BitVec w) (b : UInt8) : BitVec w := advance poly 8 (x ^^^ BitVec.ofNat w b.toNat)

def feedAll (poly x : BitVec w) (bs : List UInt8) : BitVec w := bs.foldl (feed poly) x

-- The bytes as one little-endian word.
def word (w : Nat) (bs : List UInt8) : BitVec w := BitVec.ofNat w (LittleEndian.value bs)

def low (n : Nat) (x : BitVec w) : BitVec w := (x.setWidth n).setWidth w

variable (poly : BitVec w)

theorem bitStep_xor (x y : BitVec w) :
    bitStep poly (x ^^^ y) = bitStep poly x ^^^ bitStep poly y := by
  unfold bitStep
  rw [BitVec.ushiftRight_xor_distrib, BitVec.getLsbD_xor]
  cases x.getLsbD 0 <;> cases y.getLsbD 0 <;> simp
  · ac_rfl
  · ac_rfl
  · rw [show x >>> 1 ^^^ poly ^^^ (y >>> 1 ^^^ poly) =
      x >>> 1 ^^^ y >>> 1 ^^^ (poly ^^^ poly) by ac_rfl, BitVec.xor_self, BitVec.xor_zero]

@[simp] theorem advance_zero (x : BitVec w) : advance poly 0 x = x := rfl

theorem advance_succ (n : Nat) (x : BitVec w) :
    advance poly (n + 1) x = advance poly n (bitStep poly x) := rfl

theorem advance_add (m n : Nat) (x : BitVec w) :
    advance poly (m + n) x = advance poly m (advance poly n x) :=
  Function.iterate_add_apply (bitStep poly) m n x

theorem advance_xor (n : Nat) (x y : BitVec w) :
    advance poly n (x ^^^ y) = advance poly n x ^^^ advance poly n y := by
  induction n generalizing x y with
  | zero => rfl
  | succ n ih => rw [advance_succ, advance_succ, advance_succ, bitStep_xor, ih]

-- Zeros at the low end are shifted out without a reduction.
theorem advance_of_low_zero (n : Nat) (x : BitVec w) (hx : ∀ i < n, x.getLsbD i = false) :
    advance poly n x = x >>> n := by
  induction n generalizing x with
  | zero => simp
  | succ n ih =>
      have hbit : bitStep poly x = x >>> 1 := by
        simp [bitStep, hx 0 (by omega)]
      have hrest : ∀ i < n, (x >>> 1).getLsbD i = false := by
        intro i hi
        rw [BitVec.getLsbD_ushiftRight]
        exact hx (1 + i) (by omega)
      rw [advance_succ, hbit, ih _ hrest, ← BitVec.shiftRight_add, Nat.add_comm]

-- Only the low bits have to be reduced; the rest is shifted down.
theorem advance_eq (n : Nat) (x : BitVec w) :
    advance poly n x = advance poly n (low n x) ^^^ x >>> n := by
  have hlow (i : Nat) : (low n x).getLsbD i = (decide (i < n) && x.getLsbD i) := by
    simp only [low, BitVec.getLsbD_setWidth]
    by_cases hi : i < w
    · simp [hi]
    · simp [hi, BitVec.getLsbD_of_ge x i (by omega)]
  have hzero : ∀ i < n, (low n x ^^^ x).getLsbD i = false := by
    intro i hi
    rw [BitVec.getLsbD_xor, hlow, decide_eq_true hi, Bool.true_and, Bool.xor_self]
  have hshift : (low n x) >>> n = 0#w := by
    apply BitVec.eq_of_getLsbD_eq
    intro i _
    rw [BitVec.getLsbD_ushiftRight, hlow]
    simp
  have hsplit : x = low n x ^^^ (low n x ^^^ x) := by
    rw [← BitVec.xor_assoc, BitVec.xor_self, BitVec.zero_xor]
  calc advance poly n x = advance poly n (low n x ^^^ (low n x ^^^ x)) := by rw [← hsplit]
    _ = advance poly n (low n x) ^^^ (low n x ^^^ x) >>> n := by
        rw [advance_xor, advance_of_low_zero poly n _ hzero]
    _ = advance poly n (low n x) ^^^ x >>> n := by
        rw [BitVec.ushiftRight_xor_distrib, hshift, BitVec.zero_xor]

theorem word_cons (b : UInt8) (bs : List UInt8) :
    word w (b :: bs) = BitVec.ofNat w b.toNat ^^^ word w bs <<< 8 := by
  apply BitVec.eq_of_getLsbD_eq
  intro i hi
  have hb : b.toNat < 2 ^ 8 := b.toNat_lt
  have hvalue : LittleEndian.value (b :: bs) = 2 ^ 8 * LittleEndian.value bs + b.toNat := by
    rw [LittleEndian.value]
    omega
  simp only [word, BitVec.getLsbD_xor, BitVec.getLsbD_shiftLeft, BitVec.getLsbD_ofNat, hvalue,
    Nat.testBit_two_pow_mul_add _ hb, hi, decide_true, Bool.true_and]
  by_cases h8 : i < 8
  · simp [h8]
  · have htest : b.toNat.testBit i = false :=
      Nat.testBit_lt_two_pow (lt_of_lt_of_le hb (Nat.pow_le_pow_right (by omega) (by omega)))
    simp [h8, htest, show i - 8 < w by omega]

-- The bytes of a word may enter one after the other or all at once.
theorem feedAll_eq (x : BitVec w) (bs : List UInt8) (hbs : 8 * bs.length ≤ w) :
    feedAll poly x bs = advance poly (8 * bs.length) (x ^^^ word w bs) := by
  induction bs generalizing x with
  | nil => simp [feedAll, word, LittleEndian.value]
  | cons b bs ih =>
      rw [List.length_cons] at hbs
      have hlt : LittleEndian.value bs < 2 ^ (8 * bs.length) := by
        rw [Nat.pow_mul]
        exact LittleEndian.value_lt bs
      have hzero : ∀ i < 8, (word w bs <<< 8).getLsbD i = false := by
        intro i hi
        simp [BitVec.getLsbD_shiftLeft, hi]
      -- the word has room for eight more bits
      have hback : word w bs <<< 8 >>> 8 = word w bs := by
        apply BitVec.eq_of_getLsbD_eq
        intro i hi
        simp only [word, BitVec.getLsbD_ushiftRight, BitVec.getLsbD_shiftLeft,
          BitVec.getLsbD_ofNat, hi, decide_true, Bool.true_and]
        by_cases h8 : 8 + i < w
        · simp [h8, hi]
        · have htest : (LittleEndian.value bs).testBit i = false :=
            Nat.testBit_lt_two_pow
              (lt_of_lt_of_le hlt (Nat.pow_le_pow_right (by omega) (by omega)))
          simp [htest]
      have hfeed : feedAll poly x (b :: bs) = feedAll poly (feed poly x b) bs := rfl
      rw [hfeed, ih _ (by omega), feed, List.length_cons, Nat.mul_succ, advance_add, word_cons,
        ← BitVec.xor_assoc, advance_xor poly 8 (x ^^^ BitVec.ofNat w b.toNat),
        advance_of_low_zero poly 8 _ hzero, hback]

theorem feedAll_append (x : BitVec w) (bs bs' : List UInt8) :
    feedAll poly x (bs ++ bs') = feedAll poly (feedAll poly x bs) bs' :=
  List.foldl_append

-- With the top bit of the polynomial set, no bit of the register is lost.
theorem bitStep_eq_zero (hpoly : poly.msb = true) (x : BitVec w) (hx : bitStep poly x = 0#w) :
    x = 0#w := by
  have hlow : x.getLsbD 0 = false := by
    by_contra hset
    have htop : (bitStep poly x).msb = true := by
      rw [Bool.not_eq_false] at hset
      simp [bitStep, hset, BitVec.msb_xor, BitVec.msb_ushiftRight, hpoly]
    rw [hx, BitVec.msb_zero] at htop
    exact Bool.false_ne_true htop
  have hshift : x >>> 1 = 0#w := by
    rwa [bitStep, hlow, if_neg Bool.false_ne_true, BitVec.xor_zero] at hx
  apply BitVec.eq_of_getLsbD_eq
  intro i hi
  rw [BitVec.getLsbD_zero]
  cases i with
  | zero => exact hlow
  | succ i =>
      have hbit := congrArg (fun y => y.getLsbD i) hshift
      simp only [BitVec.getLsbD_ushiftRight, BitVec.getLsbD_zero] at hbit
      rwa [Nat.add_comm] at hbit

theorem bitStep_injective (hpoly : poly.msb = true) : Function.Injective (bitStep poly) := by
  intro x y hxy
  have hzero : bitStep poly (x ^^^ y) = 0#w := by
    rw [bitStep_xor, hxy, BitVec.xor_self]
  exact BitVec.xor_eq_zero_iff.mp (bitStep_eq_zero poly hpoly _ hzero)

theorem advance_injective (hpoly : poly.msb = true) (n : Nat) :
    Function.Injective (advance poly n) :=
  (bitStep_injective poly hpoly).iterate n

-- Two registers stay apart whatever is fed to both of them.
theorem feedAll_injective (hpoly : poly.msb = true) (bs : List UInt8) :
    Function.Injective fun x => feedAll poly x bs := by
  induction bs with
  | nil => exact fun x y h => h
  | cons b bs ih =>
      intro x y hxy
      have hfeed : feed poly x b = feed poly y b := ih hxy
      apply (BitVec.xor_left_inj _).mp
      exact advance_injective poly hpoly 8 hfeed

theorem word_inj (bs bs' : List UInt8) (hlen : bs.length = bs'.length) (hw : 8 * bs.length ≤ w)
    (h : word w bs = word w bs') : bs = bs' := by
  have hfits : 256 ^ bs.length ≤ 2 ^ w := by
    rw [show 256 = 2 ^ 8 from rfl, ← Nat.pow_mul]
    exact Nat.pow_le_pow_right (by omega) hw
  have hlt : LittleEndian.value bs < 2 ^ w := (LittleEndian.value_lt bs).trans_le hfits
  have hlt' : LittleEndian.value bs' < 2 ^ w :=
    (LittleEndian.value_lt bs').trans_le (hlen ▸ hfits)
  have hvalue := congrArg BitVec.toNat h
  rw [word, word, BitVec.toNat_ofNat, BitVec.toNat_ofNat, Nat.mod_eq_of_lt hlt,
    Nat.mod_eq_of_lt hlt'] at hvalue
  rw [← LittleEndian.bytes_value bs, hvalue, hlen, LittleEndian.bytes_value]

-- As many bytes as fit into the register are determined by what they make of it.
theorem feedAll_short_inj (hpoly : poly.msb = true) (x : BitVec w) (bs bs' : List UInt8)
    (hlen : bs.length = bs'.length) (hw : 8 * bs.length ≤ w)
    (h : feedAll poly x bs = feedAll poly x bs') : bs = bs' := by
  rw [feedAll_eq poly x bs hw, feedAll_eq poly x bs' (by rwa [← hlen]), ← hlen] at h
  have hword := advance_injective poly hpoly _ h
  exact word_inj bs bs' hlen hw ((BitVec.xor_right_inj _).mp hword)

section Window

variable {α : Type} {as bs : List α} {p k : Nat}

-- Lists that differ only within a window have the rest in common.
theorem take_eq_of_window (hwindow : ∀ i, as[i]? ≠ bs[i]? → p ≤ i ∧ i < p + k) :
    as.take p = bs.take p := by
  apply List.ext_getElem?
  intro i
  by_cases hi : i < p
  · rw [List.getElem?_take_of_lt hi, List.getElem?_take_of_lt hi]
    by_contra hne
    have := (hwindow i hne).1
    omega
  · rw [List.getElem?_take_eq_none (by omega), List.getElem?_take_eq_none (by omega)]

theorem drop_eq_of_window (hwindow : ∀ i, as[i]? ≠ bs[i]? → p ≤ i ∧ i < p + k) :
    as.drop (p + k) = bs.drop (p + k) := by
  apply List.ext_getElem?
  intro i
  rw [List.getElem?_drop, List.getElem?_drop]
  by_contra hne
  have := (hwindow _ hne).2
  omega

theorem split_at_window (as : List α) (p k : Nat) :
    as = as.take p ++ (as.drop p).take k ++ as.drop (p + k) := by
  rw [List.append_assoc, ← List.drop_drop, List.take_append_drop, List.take_append_drop]

end Window

-- A change within a window that fits into the register is seen behind any bytes that
-- follow.
theorem feedAll_window (hpoly : poly.msb = true) (x : BitVec w) {as bs : List UInt8} {p k : Nat}
    (hlen : as.length = bs.length) (hk : 8 * k ≤ w)
    (hwindow : ∀ i, as[i]? ≠ bs[i]? → p ≤ i ∧ i < p + k)
    (h : feedAll poly x as = feedAll poly x bs) : as = bs := by
  have hbefore := take_eq_of_window hwindow
  have hafter := drop_eq_of_window hwindow
  have hfits : 8 * ((as.drop p).take k).length ≤ w := by
    have := List.length_take_le k (as.drop p)
    omega
  rw [split_at_window as p k, split_at_window bs p k, hbefore, hafter] at h
  simp only [feedAll_append] at h
  have hmiddle := feedAll_short_inj poly hpoly _ _ _ (by simp [hlen]) hfits
    (feedAll_injective poly hpoly _ h)
  rw [split_at_window as p k, hbefore, hafter, hmiddle, ← split_at_window bs p k]

-- Turning by `a` and by the rest of the width is turning round.
theorem turn_back (x : BitVec w) (a b : Nat) (hab : a + b = w) :
    (x >>> a ||| x <<< b) >>> b ||| (x >>> a ||| x <<< b) <<< a = x := by
  apply BitVec.eq_of_getLsbD_eq
  intro i hi
  simp only [BitVec.getLsbD_or, BitVec.getLsbD_ushiftRight, BitVec.getLsbD_shiftLeft, hi,
    decide_true, Bool.true_and]
  by_cases ha : i < a
  · simp [ha, show b + i < w by omega, show ¬b + i < b by omega,
      BitVec.getLsbD_of_ge x (a + (b + i)) (by omega)]
  · simp [ha, show i - a < w by omega, show i - a < b by omega, show a + (i - a) = i by omega,
      BitVec.getLsbD_of_ge x (a + (b + i)) (by omega), show ¬b + i < w by omega]

-- All sums of the generators, in the order of a lookup table: each generator
-- doubles the table.
def span (gens : List (BitVec w)) : List (BitVec w) :=
  gens.foldl (fun t g => t ++ t.map (g ^^^ ·)) [0#w]

-- A linear map of the sums is given by its values at the generators.
theorem span_map (f : BitVec w → BitVec w) (hf : ∀ x y, f (x ^^^ y) = f x ^^^ f y)
    (gens : List (BitVec w)) : span (gens.map f) = (span gens).map f := by
  have hzero : f 0#w = 0#w := by
    have h := hf 0#w 0#w
    rwa [BitVec.xor_self, BitVec.xor_self] at h
  have hfold : ∀ t : List (BitVec w),
      (gens.map f).foldl (fun t g => t ++ t.map (g ^^^ ·)) (t.map f) =
        (gens.foldl (fun t g => t ++ t.map (g ^^^ ·)) t).map f := by
    induction gens with
    | nil => exact fun t => rfl
    | cons g gens ih =>
        intro t
        rw [List.map_cons, List.foldl_cons, List.foldl_cons, ← ih, List.map_append, List.map_map,
          List.map_map]
        congr 2
        exact List.map_congr_left fun x _ => (hf g x).symm
  unfold span
  rw [← hfold, List.map_singleton, hzero]

end Lib.Crc

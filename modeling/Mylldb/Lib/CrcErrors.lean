import Mathlib.Algebra.Group.Even
import Mathlib.Data.Nat.Prime.Basic
import Mathlib.Dynamics.PeriodicPts.Defs
import Mylldb.Lib.Crc

namespace Lib.Crc

variable {w : Nat} (poly : BitVec w)

def flipByte (b : UInt8) (j : Nat) : UInt8 := b ^^^ UInt8.ofNat (2 ^ j)

-- The bits of each byte are counted from the low end.
def flip (bs : List UInt8) (k : Nat) : List UInt8 := bs.modify (k / 8) (flipByte · (k % 8))

def flips (bs : List UInt8) (ks : List Nat) : List UInt8 := ks.foldl flip bs

theorem flip_length (bs : List UInt8) (k : Nat) : (flip bs k).length = bs.length := by simp [flip]

theorem flips_length (bs : List UInt8) (ks : List Nat) : (flips bs ks).length = bs.length := by
  induction ks generalizing bs with
  | nil => rfl
  | cons k ks ih => rw [flips, List.foldl_cons, ← flips, ih, flip_length]

theorem flip_append (as bs : List UInt8) {k : Nat} (hk : k < 8 * as.length) :
    flip (as ++ bs) k = flip as k ++ bs := by
  apply List.ext_getElem?
  intro i
  rw [flip, flip, List.getElem?_modify, List.getElem?_append, List.getElem?_append, List.getElem?_modify,
    List.length_modify]
  by_cases hi : i < as.length
  · rw [if_pos hi, if_pos hi]
  · have hne : k / 8 ≠ i := by omega
    simp [hi, hne]

theorem flips_append (as bs : List UInt8) (ks : List Nat) (hks : ∀ k ∈ ks, k < 8 * as.length) :
    flips (as ++ bs) ks = flips as ks ++ bs := by
  induction ks generalizing as with
  | nil => rfl
  | cons k ks ih =>
      rw [flips, List.foldl_cons, ← flips, flip_append as bs (hks k (by simp)), ih]
      · rfl
      · intro k' hk'
        rw [flip_length]
        exact hks k' (List.mem_cons_of_mem _ hk')

section Syndrome

-- What is added to the register goes through all that follows.
theorem feedAll_xor (x y : BitVec w) (bs : List UInt8) :
    feedAll poly (x ^^^ y) bs = feedAll poly x bs ^^^ advance poly (8 * bs.length) y := by
  induction bs generalizing x y with
  | nil => rfl
  | cons b bs ih =>
      have hfeed : feed poly (x ^^^ y) b = feed poly x b ^^^ advance poly 8 y := by
        rw [feed, feed, ← advance_xor]
        congr 1
        ac_rfl
      rw [feedAll, feedAll, List.foldl_cons, List.foldl_cons, ← feedAll, ← feedAll, hfeed, ih,
        List.length_cons, Nat.mul_succ, advance_add]

theorem feed_flipByte (x : BitVec w) (b : UInt8) {j : Nat} (hj : j < 8) (hw : 8 ≤ w) :
    feed poly x (flipByte b j) = feed poly x b ^^^ advance poly (8 - j) 1#w := by
  have hbit : (flipByte b j).toNat = b.toNat ^^^ 2 ^ j := by
    have hlt : 2 ^ j < 2 ^ 8 := Nat.pow_lt_pow_right (by omega) hj
    rw [flipByte, UInt8.toNat_xor, UInt8.toNat_ofNat', Nat.mod_eq_of_lt hlt]
  -- the bits below it are shifted out
  have hshift : advance poly j (BitVec.ofNat w (2 ^ j)) = 1#w := by
    have htwo : BitVec.ofNat w (2 ^ j) = BitVec.twoPow w j := by
      apply BitVec.eq_of_toNat_eq
      rw [BitVec.toNat_ofNat, BitVec.toNat_twoPow]
    rw [htwo, advance_of_low_zero poly j]
    · apply BitVec.eq_of_getLsbD_eq
      intro i hi
      rw [BitVec.getLsbD_ushiftRight, BitVec.getLsbD_twoPow, BitVec.getLsbD_one]
      by_cases h : i = 0
      · simp [h]
        omega
      · simp [h]
    · intro i hi
      rw [BitVec.getLsbD_twoPow]
      simp
      omega
  have hsplit : advance poly 8 (BitVec.ofNat w (2 ^ j)) = advance poly (8 - j) 1#w := by
    rw [← hshift, ← advance_add, Nat.sub_add_cancel (by omega)]
  rw [feed, hbit, BitVec.ofNat_xor, ← BitVec.xor_assoc, advance_xor, hsplit, feed]

theorem feedAll_flip (x : BitVec w) (bs : List UInt8) {k : Nat} (hw : 8 ≤ w) (hk : k < 8 * bs.length) :
    feedAll poly x (flip bs k) = feedAll poly x bs ^^^ advance poly (8 * bs.length - k) 1#w := by
  induction bs generalizing x k with
  | nil => exact absurd hk (Nat.not_lt_zero k)
  | cons b bs ih =>
      rw [List.length_cons] at hk
      by_cases hfirst : k < 8
      · have hflip : flip (b :: bs) k = flipByte b k :: bs := by
          rw [flip, Nat.div_eq_of_lt hfirst, Nat.mod_eq_of_lt hfirst]
          rfl
        rw [hflip, feedAll, feedAll, List.foldl_cons, List.foldl_cons, ← feedAll, ← feedAll,
          feed_flipByte poly x b hfirst hw, feedAll_xor, ← advance_add, List.length_cons]
        congr 2
        omega
      · have hflip : flip (b :: bs) k = b :: flip bs (k - 8) := by
          have hdiv : k / 8 = (k - 8) / 8 + 1 := by omega
          have hmod : k % 8 = (k - 8) % 8 := by omega
          rw [flip, hdiv, hmod]
          rfl
        have hnext := ih (feed poly x b) (k := k - 8) (by omega)
        rw [hflip, feedAll, feedAll, List.foldl_cons, List.foldl_cons, ← feedAll, ← feedAll, hnext,
          List.length_cons]
        congr 2
        omega

-- What the flipped bits of `n` bytes add to the register.
def syndrome (n : Nat) (ks : List Nat) : BitVec w :=
  ks.foldr (fun k x => advance poly (8 * n - k) 1#w ^^^ x) 0#w

theorem feedAll_flips (x : BitVec w) (bs : List UInt8) (ks : List Nat) (hw : 8 ≤ w)
    (hks : ∀ k ∈ ks, k < 8 * bs.length) :
    feedAll poly x (flips bs ks) = feedAll poly x bs ^^^ syndrome poly bs.length ks := by
  induction ks generalizing bs with
  | nil => simp [flips, syndrome]
  | cons k ks ih =>
      have hrest := ih (flip bs k) fun k' hk' => by
        rw [flip_length]
        exact hks k' (List.mem_cons_of_mem _ hk')
      rw [flip_length] at hrest
      rw [flips, List.foldl_cons, ← flips, hrest, feedAll_flip poly x bs hw (hks k (by simp)),
        BitVec.xor_assoc]
      rfl

end Syndrome

section Parity

-- Whether the number of ones among the first bits is odd.
def parityTo (x : BitVec w) : Nat → Bool
  | 0 => false
  | n + 1 => parityTo x n ^^ x.getLsbD n

def parity (x : BitVec w) : Bool := parityTo x w

theorem parityTo_xor (x y : BitVec w) (n : Nat) :
    parityTo (x ^^^ y) n = (parityTo x n ^^ parityTo y n) := by
  induction n with
  | zero => rfl
  | succ n ih =>
      rw [parityTo, parityTo, parityTo, ih, BitVec.getLsbD_xor]
      simp [Bool.xor_left_comm]

theorem parityTo_zero (n : Nat) : parityTo (0#w) n = false := by
  induction n with
  | zero => rfl
  | succ n ih => rw [parityTo, ih, BitVec.getLsbD_zero]; rfl

theorem parityTo_shift (x : BitVec w) (n : Nat) :
    parityTo (x >>> 1) n = (parityTo x (n + 1) ^^ x.getLsbD 0) := by
  induction n with
  | zero => simp [parityTo]
  | succ n ih =>
      have hlast : parityTo x (n + 1 + 1) = (parityTo x (n + 1) ^^ x.getLsbD (n + 1)) := rfl
      rw [parityTo, ih, hlast, BitVec.getLsbD_ushiftRight, Nat.add_comm 1 n, Bool.xor_assoc,
        Bool.xor_assoc, Bool.xor_comm (x.getLsbD 0)]

theorem parity_xor (x y : BitVec w) : parity (x ^^^ y) = (parity x ^^ parity y) := parityTo_xor x y w

-- A polynomial with an odd number of ones brings back the one that falls out.
theorem parity_bitStep (hodd : parity poly = true) (x : BitVec w) :
    parity (bitStep poly x) = parity x := by
  have htop : parityTo x (w + 1) = parity x := by
    rw [parityTo, BitVec.getLsbD_of_ge x w (Nat.le_refl w), Bool.xor_false, parity]
  rw [bitStep, parity_xor]
  rw [parity, parityTo_shift, htop]
  cases hlow : x.getLsbD 0 with
  | false => simp [parity, parityTo_zero]
  | true => simp [hodd]

theorem parity_advance (hodd : parity poly = true) (n : Nat) (x : BitVec w) :
    parity (advance poly n x) = parity x := by
  induction n generalizing x with
  | zero => rfl
  | succ n ih => rw [advance_succ, ih, parity_bitStep poly hodd]

theorem parity_one (hw : 0 < w) : parity (1#w) = true := by
  have hfrom : ∀ n, 0 < n → parityTo (1#w) n = true := by
    intro n hn
    induction n with
    | zero => cases hn
    | succ n ih =>
        rw [parityTo, BitVec.getLsbD_one]
        rcases Nat.eq_zero_or_pos n with rfl | hpos
        · simp [parityTo, hw]
        · rw [ih hpos]
          simp
          omega
  exact hfrom w hw

theorem parity_syndrome (hodd : parity poly = true) (hw : 0 < w) (n : Nat) (ks : List Nat) :
    parity (syndrome poly n ks) = decide (Odd ks.length) := by
  induction ks with
  | nil => simp [syndrome, parity, parityTo_zero]
  | cons k ks ih =>
      have hcons : syndrome poly n (k :: ks) = advance poly (8 * n - k) 1#w ^^^ syndrome poly n ks := rfl
      rw [hcons, parity_xor, ih, parity_advance poly hodd, parity_one hw, List.length_cons]
      by_cases h : Odd ks.length
      · simp [h, Nat.odd_add_one]
      · simp [h, Nat.odd_add_one]

-- An odd number of flipped bits is seen.
theorem syndrome_ne_of_odd (hodd : parity poly = true) (hw : 0 < w) (n : Nat) {ks : List Nat}
    (hks : Odd ks.length) : syndrome poly n ks ≠ 0#w := by
  intro hzero
  have hparity := parity_syndrome poly hodd hw n ks
  rw [hzero, decide_eq_true hks, parity, parityTo_zero] at hparity
  cases hparity

end Parity

section Period

-- The register with its top bit only, from which all the others come.
def top (w : Nat) : BitVec w := BitVec.twoPow w (w - 1)

-- The register that `g` becomes where the top bit becomes `u`.
def mulBy (g u : BitVec w) : BitVec w :=
  (List.range w).foldl (fun x i => bitStep poly x ^^^ if u.getLsbD i then g else 0#w) 0#w

theorem mulBy_top (hw : 0 < w) (u : BitVec w) : mulBy poly (top w) u = u := by
  have hprefix : ∀ n ≤ w, (List.range n).foldl
      (fun x i => bitStep poly x ^^^ if u.getLsbD i then top w else 0#w) 0#w = u <<< (w - n) := by
    intro n
    induction n with
    | zero => simp
    | succ n ih =>
        intro hn
        rw [List.range_succ, List.foldl_append, ih (by omega), List.foldl_cons, List.foldl_nil]
        have hlow : (u <<< (w - n)).getLsbD 0 = false := by
          rw [BitVec.getLsbD_shiftLeft]
          simp
          omega
        rw [bitStep, hlow, if_neg Bool.false_ne_true, BitVec.xor_zero]
        apply BitVec.eq_of_getLsbD_eq
        intro i hi
        rw [BitVec.getLsbD_xor, BitVec.getLsbD_ushiftRight, BitVec.getLsbD_shiftLeft,
          BitVec.getLsbD_shiftLeft]
        by_cases htop : i = w - 1
        · have hn' : i - (w - (n + 1)) = n := by omega
          have hpast : ¬1 + i < w := by omega
          have hin : ¬i < w - (n + 1) := by omega
          rw [hn']
          cases hbit : u.getLsbD n with
          | false => simp [hpast]
          | true => simp [top, hi, hpast, hin, htop.symm]
        · have hne : (if u.getLsbD n then top w else 0#w).getLsbD i = false := by
            split
            · rw [top, BitVec.getLsbD_twoPow]
              simp
              omega
            · exact BitVec.getLsbD_zero
          rw [hne, Bool.xor_false]
          by_cases hlt : i < w - (n + 1)
          · simp [hlt, show 1 + i < w - n by omega]
          · have hsame : 1 + i - (w - n) = i - (w - (n + 1)) := by omega
            simp [hsame, hi, show ¬1 + i < w - n by omega, hlt, show 1 + i < w by omega]
  have hall := hprefix w (Nat.le_refl w)
  rwa [Nat.sub_self, BitVec.shiftLeft_zero] at hall

theorem advance_zero_eq (n : Nat) : advance poly n 0#w = 0#w := by
  have hsum := advance_xor poly n 0#w 0#w
  rwa [BitVec.xor_self, BitVec.xor_self] at hsum

theorem bitStep_advance (n : Nat) (x : BitVec w) :
    bitStep poly (advance poly n x) = advance poly n (bitStep poly x) :=
  (Function.Commute.iterate_right (Function.Commute.refl (bitStep poly)) n).eq x

theorem mulBy_advance (n : Nat) (g u : BitVec w) :
    mulBy poly (advance poly n g) u = advance poly n (mulBy poly g u) := by
  have hfold : ∀ (l : List Nat) (x : BitVec w),
      l.foldl (fun x i => bitStep poly x ^^^ if u.getLsbD i then advance poly n g else 0#w)
          (advance poly n x) =
        advance poly n (l.foldl (fun x i => bitStep poly x ^^^ if u.getLsbD i then g else 0#w) x) := by
    intro l
    induction l with
    | nil => exact fun x => rfl
    | cons i l ih =>
        intro x
        rw [List.foldl_cons, List.foldl_cons, ← ih, advance_xor, bitStep_advance]
        congr 2
        split
        · rfl
        · exact (advance_zero_eq poly n).symm
  rw [mulBy, mulBy, ← hfold, advance_zero_eq]

-- Twice as many zero bits: the register for the top bit determines all the others.
theorem advance_double (hw : 0 < w) (n : Nat) :
    advance poly (n + n) (top w) = mulBy poly (advance poly n (top w)) (advance poly n (top w)) := by
  rw [mulBy_advance, mulBy_top poly hw, ← advance_add]

theorem advance_two_pow (hw : 0 < w) (k : Nat) :
    advance poly (2 ^ k) (top w) = (fun g => mulBy poly g g)^[k] (bitStep poly (top w)) := by
  induction k with
  | zero => rfl
  | succ k ih =>
      rw [Function.iterate_succ_apply', ← ih, ← advance_double poly hw]
      congr 1
      omega

theorem advance_top : advance poly (w - 1) (top w) = 1#w := by
  rw [advance_of_low_zero]
  · apply BitVec.eq_of_getLsbD_eq
    intro i hi
    rw [BitVec.getLsbD_ushiftRight, top, BitVec.getLsbD_twoPow, BitVec.getLsbD_one]
    by_cases h : i = 0
    · simp [h]
    · simp [h]
  · intro i hi
    rw [top, BitVec.getLsbD_twoPow]
    simp
    omega

open Function in
-- When the top bit comes back after a prime number of steps, and not before the first of
-- them, two flipped bits that are less far from each other are seen.
theorem advance_one_ne (hpoly : poly.msb = true) {period : Nat} (hprime : period.Prime)
    (hreturns : advance poly period 1#w = 1#w) (hmoves : bitStep poly 1#w ≠ 1#w) {m n : Nat}
    (hlt : m < n) (hnear : n - m < period) : advance poly m 1#w ≠ advance poly n 1#w := by
  intro heq
  have hsplit : advance poly n 1#w = advance poly m (advance poly (n - m) 1#w) := by
    rw [← advance_add, Nat.add_sub_cancel' (Nat.le_of_lt hlt)]
  have hback : IsPeriodicPt (bitStep poly) (n - m) 1#w :=
    (advance_injective poly hpoly m (heq.trans hsplit)).symm
  have hcoprime : Nat.gcd period (n - m) = 1 :=
    (Nat.Prime.coprime_iff_not_dvd hprime).mpr fun hdvd =>
      absurd (Nat.le_of_dvd (by omega) hdvd) (Nat.not_le_of_lt hnear)
  have hone := IsPeriodicPt.gcd hreturns hback
  rw [hcoprime] at hone
  exact hmoves hone

theorem syndrome_two_ne (hpoly : poly.msb = true) {period : Nat} (hprime : period.Prime)
    (hreturns : advance poly period 1#w = 1#w) (hmoves : bitStep poly 1#w ≠ 1#w) {n i j : Nat}
    (hij : i ≠ j) (hi : i < 8 * n) (hj : j < 8 * n) (hshort : 8 * n ≤ period) :
    syndrome poly n [i, j] ≠ 0#w := by
  have hpair : syndrome poly n [i, j] = advance poly (8 * n - i) 1#w ^^^ advance poly (8 * n - j) 1#w := by
    simp [syndrome]
  rw [hpair]
  intro hzero
  have heq := BitVec.xor_eq_zero_iff.mp hzero
  rcases Nat.lt_or_gt_of_ne hij with hlt | hgt
  · exact advance_one_ne poly hpoly hprime hreturns hmoves (by omega) (by omega) heq.symm
  · exact advance_one_ne poly hpoly hprime hreturns hmoves (by omega) (by omega) heq

end Period

end Lib.Crc

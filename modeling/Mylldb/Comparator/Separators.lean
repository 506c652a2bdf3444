import Mylldb.Comparator.Theorems

namespace Mylldb

open Lib.ThreeWay

-- The first byte that differs decides, as a number from 0 to 255, and a proper prefix
-- comes first.
theorem Slice.compare_neg_iff (a b : Bytes) :
    Slice.compare a b < 0 ↔ List.Lex (fun x y : UInt8 => x.toNat < y.toNat) a b := by
  induction a generalizing b with
  | nil =>
      cases b with
      | nil => simp [compare, memcmp]
      | cons y b => simp [compare_nil_cons]
  | cons x a ih =>
      cases b with
      | nil => simp [compare_cons_nil]
      | cons y b =>
          rw [compare_cons_cons, List.cons_lex_cons_iff]
          by_cases hxy : x = y
          · subst hxy
            simpa using ih b
          · rw [if_neg hxy]
            simp only [hxy, false_and, or_false]
            omega

-- A run of 0xffs is left alone; otherwise the key ends with the raised byte.
theorem shortSuccessor_cases (key : Bytes) :
    ((∀ b ∈ key, b = 0xff) ∧ shortSuccessor key = key) ∨
      ∃ n byte rest, byte ≠ 0xff ∧ key = List.replicate n 0xff ++ byte :: rest ∧
        shortSuccessor key = List.replicate n 0xff ++ [byte + 1] := by
  induction key with
  | nil => exact .inl ⟨by simp, rfl⟩
  | cons b key ih =>
      by_cases hb : b = 0xff
      · have hskip : shortSuccessor (b :: key) = b :: shortSuccessor key := by
          rw [shortSuccessor, if_neg (not_not.mpr hb)]
        rcases ih with ⟨hall, hsame⟩ | ⟨n, byte, rest, hne, hkey, hraised⟩
        · refine .inl ⟨?_, by rw [hskip, hsame]⟩
          intro c hc
          rcases List.mem_cons.mp hc with rfl | hc
          · exact hb
          · exact hall c hc
        · refine .inr ⟨n + 1, byte, rest, hne, ?_, ?_⟩
          · rw [hkey, hb, List.replicate_succ, List.cons_append]
          · rw [hskip, hraised, hb, List.replicate_succ, List.cons_append]
      · exact .inr ⟨0, b, key, hb, rfl, by rw [shortSuccessor, if_pos hb]; rfl⟩

theorem shortSuccessor_length_le (key : Bytes) : (shortSuccessor key).length ≤ key.length := by
  rcases shortSuccessor_cases key with ⟨-, hsame⟩ | ⟨n, byte, rest, -, hkey, hraised⟩
  · exact Nat.le_of_eq (congrArg List.length hsame)
  · rw [hraised, hkey, List.length_append, List.length_append, List.length_singleton,
      List.length_cons]
    omega

-- A raised byte comes after the one that was there.
theorem compare_shortSuccessor (n : Nat) (byte : UInt8) (rest : Bytes) (hne : byte ≠ 0xff) :
    Slice.compare (List.replicate n 0xff ++ byte :: rest) (List.replicate n 0xff ++ [byte + 1]) <
      0 := by
  have hlt := byte.toNat_lt
  have h255 : byte.toNat ≠ 255 := fun h => hne (UInt8.toNat_inj.mp h)
  have hraised := BytewiseComparatorImpl.toNat_raised byte (by omega)
  rw [Slice.compare_append]
  exact BytewiseComparatorImpl.compare_lt_of_byte_lt _ _ _ _ (by omega)

theorem le_shortSuccessor (key : Bytes) : 0 ≤ Slice.compare (shortSuccessor key) key := by
  rw [Slice.compare_totalOrder.nonneg_iff]
  rcases shortSuccessor_cases key with ⟨-, hsame⟩ | ⟨n, byte, rest, hne, hkey, hraised⟩
  · rw [hsame]
    exact Int.le_of_eq (Slice.compare_totalOrder.refl key)
  · rw [hraised, hkey]
    exact Int.le_of_lt (compare_shortSuccessor n byte rest hne)

theorem shortSuccessor_changes_iff (key : Bytes) :
    shortSuccessor key ≠ key ↔ ∃ b ∈ key, b ≠ 0xff := by
  rcases shortSuccessor_cases key with ⟨hall, hsame⟩ | ⟨n, byte, rest, hne, hkey, hraised⟩
  · rw [hsame]
    constructor
    · intro h
      exact absurd rfl h
    · rintro ⟨b, hb, hff⟩
      exact absurd (hall b hb) hff
  · have hless := compare_shortSuccessor n byte rest hne
    constructor
    · intro _
      exact ⟨byte, by rw [hkey]; simp, hne⟩
    · intro _ hsame
      rw [← hraised, ← hkey, hsame, Slice.compare_totalOrder.refl] at hless
      exact absurd hless (by decide)

namespace BytewiseComparatorImpl

-- A separator of keys in order is in between and no longer than the first; keys out of
-- order are left alone.
theorem separator_between (start limit : Bytes) :
    ∃ separator, findShortestSeparator start limit = .ok separator ∧
      separator.length ≤ start.length ∧
      (Slice.compare start limit < 0 →
        Slice.compare start separator ≤ 0 ∧ Slice.compare separator limit < 0) ∧
      (0 ≤ Slice.compare start limit → separator = start) := by
  obtain ⟨separator, hrun, hlen, hcases⟩ := findShortestSeparator_cases start limit
  refine ⟨separator, hrun, hlen, ?_, ?_⟩
  · intro hlt
    rcases hcases with rfl | ⟨hleft, hright⟩
    · exact ⟨Int.le_of_eq (Slice.compare_totalOrder.refl separator), hlt⟩
    · exact ⟨Int.le_of_lt hleft, hright⟩
  · intro hge
    rcases hcases with hsame | ⟨hleft, hright⟩
    · exact hsame
    · have hlt := Slice.compare_totalOrder.lt_trans start separator limit hleft hright
      omega

-- What both methods of the bytewise comparator leave, and the order they refer to.
theorem separators_shorten :
    (∀ start limit, ∃ separator, findShortestSeparator start limit = .ok separator ∧
      separator.length ≤ start.length ∧
      (Slice.compare start limit < 0 →
        Slice.compare start separator ≤ 0 ∧ Slice.compare separator limit < 0) ∧
      (0 ≤ Slice.compare start limit → separator = start)) ∧
    (∀ key, 0 ≤ Slice.compare (findShortSuccessor key) key ∧
      (findShortSuccessor key).length ≤ key.length ∧
      (findShortSuccessor key ≠ key ↔ ∃ b ∈ key, b ≠ 0xff)) ∧
    TotalOrder Slice.compare ∧
    (∀ a b, Slice.compare a b < 0 ↔ List.Lex (fun x y : UInt8 => x.toNat < y.toNat) a b) ∧
    ∀ a b, Slice.compare a b = 0 ↔ a = b := by
  refine ⟨separator_between, ?_, Slice.compare_totalOrder, Slice.compare_neg_iff, ?_⟩
  · intro key
    exact ⟨le_shortSuccessor key, shortSuccessor_length_le key, shortSuccessor_changes_iff key⟩
  · intro a b
    constructor
    · exact Slice.compare_totalOrder.eq_of_zero a b
    · rintro rfl
      exact Slice.compare_totalOrder.refl a

-- Raised to "ac", left alone out of order, and a byte that changes its sign.
theorem separators_shorten_sample :
    (∃ separator, findShortestSeparator [97, 98, 99] [97, 101] = .ok separator ∧
      Slice.compare [97, 98, 99] separator ≤ 0 ∧ Slice.compare separator [97, 101] < 0) ∧
    (∃ separator, findShortestSeparator [98] [97] = .ok separator ∧ separator = [98]) ∧
    findShortSuccessor [0xff, 0x7f, 1] ≠ [0xff, 0x7f, 1] := by
  obtain ⟨hseparator, hsuccessor, -⟩ := separators_shorten
  refine ⟨?_, ?_, (hsuccessor [0xff, 0x7f, 1]).2.2.mpr ⟨0x7f, by decide, by decide⟩⟩
  · obtain ⟨separator, hrun, -, hbetween, -⟩ := hseparator [97, 98, 99] [97, 101]
    exact ⟨separator, hrun, hbetween (by decide)⟩
  · obtain ⟨separator, hrun, -, -, hsame⟩ := hseparator [98] [97]
    exact ⟨separator, hrun, hsame (by decide)⟩

end BytewiseComparatorImpl

end Mylldb

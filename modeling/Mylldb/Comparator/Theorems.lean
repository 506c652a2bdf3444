import Mylldb.Comparator
import Mylldb.Lib.ThreeWay

namespace Mylldb

namespace Slice

theorem compare_nil_cons (b : UInt8) (bs : Bytes) : compare [] (b :: bs) = -1 := by
  simp [compare, memcmp]

theorem compare_cons_nil (a : UInt8) (as : Bytes) : compare (a :: as) [] = 1 := by
  simp [compare, memcmp]

theorem compare_cons_cons (a b : UInt8) (as bs : Bytes) :
    compare (a :: as) (b :: bs) = if a = b then compare as bs else (a.toNat : Int) - b.toNat := by
  have hmin : (if as.length + 1 < bs.length + 1 then as.length + 1 else bs.length + 1) =
      (if as.length < bs.length then as.length else bs.length) + 1 := by
    split_ifs <;> omega
  simp only [compare, List.length_cons, hmin, memcmp]
  split
  · simp only [Nat.add_lt_add_iff_right, gt_iff_lt]
  · rename_i hne
    have hne' : a.toNat ≠ b.toNat := fun h => hne (UInt8.toNat_inj.mp h)
    rw [if_neg (by omega)]

-- A common start does not matter.
theorem compare_append (before as bs : Bytes) :
    compare (before ++ as) (before ++ bs) = compare as bs := by
  induction before with
  | nil => rfl
  | cons b before ih => rw [List.cons_append, List.cons_append, compare_cons_cons, if_pos rfl, ih]

theorem compare_totalOrder : Lib.ThreeWay.TotalOrder compare where
  swap a b := by
    induction a generalizing b with
    | nil =>
        cases b with
        | nil => simp [compare, memcmp]
        | cons y b => simp [compare_nil_cons, compare_cons_nil]
    | cons x a ih =>
        cases b with
        | nil => simp [compare_nil_cons, compare_cons_nil]
        | cons y b =>
            rw [compare_cons_cons, compare_cons_cons]
            by_cases hxy : x = y
            · simpa [hxy] using ih b
            · rw [if_neg hxy, if_neg (Ne.symm hxy)]
              omega
  trans a b c hab hbc := by
    induction a generalizing b c with
    | nil => cases c <;> simp [compare, memcmp]
    | cons x a ih =>
        cases b with
        | nil => simp [compare_cons_nil] at hab
        | cons y b =>
            cases c with
            | nil => simp [compare_cons_nil] at hbc
            | cons z c =>
                simp only [compare_cons_cons, ← UInt8.toNat_inj] at hab hbc ⊢
                split_ifs at hab hbc ⊢ <;> try omega
                exact ih b c hab hbc
  eq_of_zero a b hab := by
    induction a generalizing b with
    | nil =>
        cases b with
        | nil => rfl
        | cons y b => simp [compare_nil_cons] at hab
    | cons x a ih =>
        cases b with
        | nil => simp [compare_cons_nil] at hab
        | cons y b =>
            rw [compare_cons_cons] at hab
            split at hab
            · rename_i hxy
              rw [hxy, ih b hab]
            · rename_i hne
              have hne' : x.toNat ≠ y.toNat := fun h => hne (UInt8.toNat_inj.mp h)
              omega

end Slice

-- What the header promises of `FindShortestSeparator`.
def Comparator.Separates (cmp : Comparator) : Prop :=
  ∀ start limit, cmp.compare start limit < 0 →
    cmp.compare start (cmp.findShortestSeparator start limit) ≤ 0 ∧
      cmp.compare (cmp.findShortestSeparator start limit) limit < 0

namespace BytewiseComparatorImpl

theorem compare_lt_of_byte_lt (x y : UInt8) (xs ys : Bytes) (h : x.toNat < y.toNat) :
    Slice.compare (x :: xs) (y :: ys) < 0 := by
  have hne : x ≠ y := by
    rintro rfl
    exact Nat.lt_irrefl _ h
  rw [Slice.compare_cons_cons, if_neg hne]
  omega

theorem toNat_raised (b : UInt8) (hb : b.toNat < 255) : (b + 1).toNat = b.toNat + 1 := by
  rw [UInt8.toNat_add]
  exact Nat.mod_eq_of_lt (by simpa using by omega)

-- The first byte that differs may be raised as long as it stays below that of the
-- limit.
theorem raised_between (start limit : Bytes) (x y : UInt8)
    (hx : start[diffIndex start limit]? = some x) (hy : limit[diffIndex start limit]? = some y)
    (hxy : x.toNat + 1 < y.toNat) :
    Slice.compare start (start.take (diffIndex start limit) ++ [x + 1]) < 0 ∧
      Slice.compare (start.take (diffIndex start limit) ++ [x + 1]) limit < 0 := by
  induction start generalizing limit with
  | nil => simp at hx
  | cons a start ih =>
      cases limit with
      | nil => simp at hy
      | cons b limit =>
          by_cases hab : a = b
          · have hd : diffIndex (a :: start) (b :: limit) = diffIndex start limit + 1 := by
              rw [diffIndex, if_pos hab]
            rw [hd, List.getElem?_cons_succ] at hx hy
            obtain ⟨hleft, hright⟩ := ih limit hx hy
            rw [hd, List.take_succ_cons, List.cons_append, Slice.compare_cons_cons,
              Slice.compare_cons_cons, if_pos rfl, if_pos hab]
            exact ⟨hleft, hright⟩
          · have hd : diffIndex (a :: start) (b :: limit) = 0 := by
              rw [diffIndex, if_neg hab]
            rw [hd, List.getElem?_cons_zero] at hx hy
            obtain rfl := Option.some.inj hx
            obtain rfl := Option.some.inj hy
            have hb := b.toNat_lt
            have hraised := toNat_raised a (by omega)
            rw [hd, List.take_zero, List.nil_append]
            exact ⟨compare_lt_of_byte_lt _ _ _ _ (by omega),
              compare_lt_of_byte_lt _ _ _ _ (by omega)⟩

-- The assertion holds for all strings. What is not `start` lies in between.
theorem findShortestSeparator_cases (start limit : Bytes) :
    ∃ separator, findShortestSeparator start limit = .ok separator ∧
      separator.length ≤ start.length ∧ (separator = start ∨
        Slice.compare start separator < 0 ∧ Slice.compare separator limit < 0) := by
  unfold findShortestSeparator
  dsimp only
  split
  · rename_i x y hx hy
    split
    · rename_i hxy
      have hbetween := raised_between start limit x y hx hy hxy.2
      obtain ⟨hlt, -⟩ := List.getElem?_eq_some_iff.mp hx
      refine ⟨_, by rw [assertThat_pos hbetween.2]; rfl, ?_, .inr hbetween⟩
      rw [List.length_append, List.length_take, List.length_singleton]
      omega
    · exact ⟨start, rfl, Nat.le_refl _, .inl rfl⟩
  · exact ⟨start, rfl, Nat.le_refl _, .inl rfl⟩

end BytewiseComparatorImpl

-- A separator of the bytewise comparator is `start` or strictly between the two.
theorem bytewiseComparator_between (start limit : Bytes) :
    bytewiseComparator.findShortestSeparator start limit = start ∨
      Slice.compare start (bytewiseComparator.findShortestSeparator start limit) < 0 ∧
        Slice.compare (bytewiseComparator.findShortestSeparator start limit) limit < 0 := by
  obtain ⟨separator, hseparator, -, hcases⟩ :=
    BytewiseComparatorImpl.findShortestSeparator_cases start limit
  have heq : bytewiseComparator.findShortestSeparator start limit = separator := by
    simp [bytewiseComparator, hseparator]
  rwa [heq]

theorem bytewiseComparator_separates : bytewiseComparator.Separates := by
  intro start limit h
  have hrefl := Slice.compare_totalOrder.refl start
  rcases bytewiseComparator_between start limit with heq | ⟨hleft, hright⟩
  · rw [heq]
    exact ⟨Int.le_of_eq hrefl, h⟩
  · exact ⟨Int.le_of_lt hleft, hright⟩

end Mylldb

import Mylldb.Lib.ThreeWay

namespace Lib.SparseIndex

open Lib.ThreeWay

-- Groups of entries, each with a separator that stands for it in an index: no key
-- of the group is after the separator, and every key of a later group is.
structure Leads {α β ε : Type} (compare : α → α → Int) (key : ε → α) (entries : β → List ε)
    (separator : β → α) (groups : List β) : Prop where
  covers : ∀ g ∈ groups, ∀ e ∈ entries g, compare (key e) (separator g) ≤ 0
  apart : groups.Pairwise fun g g' => ∀ e ∈ entries g', compare (separator g) (key e) < 0

namespace Leads

variable {α β ε : Type} {compare : α → α → Int} {key : ε → α} {entries : β → List ε}
  {separator : β → α} {groups : List β}

theorem nil : Leads compare key entries separator [] :=
  ⟨by simp, List.Pairwise.nil⟩

-- A new group comes last, with keys after all the separators so far.
theorem concat (h : Leads compare key entries separator groups) (g : β)
    (hcovers : ∀ e ∈ entries g, compare (key e) (separator g) ≤ 0)
    (hapart : ∀ g' ∈ groups, ∀ e ∈ entries g, compare (separator g') (key e) < 0) :
    Leads compare key entries separator (groups ++ [g]) where
  covers := by
    intro g' hg'
    rcases List.mem_append.mp hg' with hg' | hg'
    · exact h.covers g' hg'
    · rw [List.mem_singleton.mp hg']
      exact hcovers
  apart := by
    apply List.pairwise_append.mpr
    refine ⟨h.apart, List.pairwise_singleton _ _, ?_⟩
    intro g' hg' g'' hg''
    rw [List.mem_singleton.mp hg'']
    exact hapart g' hg'

-- The first separator that is not before a key leads to the group of that key.
theorem find (h : Leads compare key entries separator groups)
    (hc : TotalPreorder compare) (g : β) (hg : g ∈ groups) (e : ε) (he : e ∈ entries g) :
    groups.find? (fun g => decide (0 ≤ compare (separator g) (key e))) = some g := by
  induction groups with
  | nil => simp at hg
  | cons first groups ih =>
      obtain ⟨hfirst, hrest⟩ := List.pairwise_cons.mp h.apart
      rcases List.mem_cons.mp hg with rfl | hg
      · have hcovers := h.covers g (by simp) e he
        rw [List.find?_cons_of_pos]
        exact decide_eq_true ((hc.nonneg_iff _ _).mpr hcovers)
      · have hlt := hfirst g hg e he
        rw [List.find?_cons_of_neg]
        · exact ih ⟨fun g hg => h.covers g (List.mem_cons_of_mem _ hg), hrest⟩ hg
        · rw [decide_eq_true_iff]
          omega

-- The entry with a key is in the group that the first separator leads to, or nowhere.
theorem lookup (h : Leads compare key entries separator groups) (hc : TotalPreorder compare)
    (k : α) : (groups.flatMap entries).find? (fun e => decide (compare (key e) k = 0)) =
      (groups.find? fun g => decide (0 ≤ compare (separator g) k)).bind fun g =>
        (entries g).find? fun e => decide (compare (key e) k = 0) := by
  induction groups with
  | nil => rfl
  | cons first groups ih =>
      obtain ⟨hfirst, hrest⟩ := List.pairwise_cons.mp h.apart
      rw [List.flatMap_cons, List.find?_append]
      by_cases hreaches : 0 ≤ compare (separator first) k
      · have hlater : (groups.flatMap entries).find? (fun e => decide (compare (key e) k = 0)) =
            none := by
          apply List.find?_eq_none.mpr
          intro e he
          obtain ⟨g, hg, he⟩ := List.mem_flatMap.mp he
          have hlt := hc.lt_of_le_of_lt _ _ _ ((hc.nonneg_iff _ _).mp hreaches) (hfirst g hg e he)
          have hpos := (hc.swap k (key e)).mp hlt
          rw [decide_eq_true_iff]
          omega
        rw [hlater, Option.or_none, List.find?_cons_of_pos (by simpa using hreaches)]
        rfl
      · have hearlier : (entries first).find? (fun e => decide (compare (key e) k = 0)) = none := by
          apply List.find?_eq_none.mpr
          intro e he
          have hlt := hc.lt_of_le_of_lt _ _ _ (h.covers first (by simp) e he)
            (Int.lt_of_not_ge hreaches)
          rw [decide_eq_true_iff]
          omega
        rw [hearlier, Option.none_or, List.find?_cons_of_neg (by simpa using hreaches)]
        exact ih ⟨fun g hg => h.covers g (List.mem_cons_of_mem _ hg), hrest⟩

theorem separators_increase (h : Leads compare key entries separator groups)
    (hc : TotalPreorder compare) (hne : ∀ g ∈ groups, entries g ≠ []) :
    (groups.map separator).Pairwise (compare · · < 0) := by
  apply List.pairwise_map.mpr
  apply List.Pairwise.imp_of_mem _ h.apart
  intro g g' _ hg' hlt
  obtain ⟨e, he⟩ := List.exists_mem_of_ne_nil _ (hne g' hg')
  exact hc.lt_of_lt_of_le _ _ _ (hlt e he) (h.covers g' hg' e he)

end Leads

-- In a sorted list the entry with a key is the first one that is not before it.
theorem find_exact {α ε : Type} {compare : α → α → Int} (hc : TotalPreorder compare)
    {key : ε → α} {l : List ε} (hsorted : l.Pairwise fun a b => compare (key a) (key b) ≤ 0)
    (k : α) : l.find? (fun e => decide (compare (key e) k = 0)) =
      (l.find? fun e => decide (0 ≤ compare (key e) k)).filter
        fun e => decide (compare (key e) k = 0) := by
  induction l with
  | nil => rfl
  | cons a l ih =>
      obtain ⟨ha, hrest⟩ := List.pairwise_cons.mp hsorted
      rcases Int.lt_trichotomy (compare (key a) k) 0 with hlt | heq | hgt
      · rw [List.find?_cons_of_neg (by simp; omega), List.find?_cons_of_neg (by simp; omega)]
        exact ih hrest
      · rw [List.find?_cons_of_pos (by simpa using heq),
          List.find?_cons_of_pos (by simp; omega), Option.filter_some_pos (by simpa using heq)]
      · rw [List.find?_cons_of_neg (by simp; omega),
          List.find?_cons_of_pos (by simp; omega),
          Option.filter_some_neg (by simp; omega)]
        apply List.find?_eq_none.mpr
        intro e he
        have hlt := hc.lt_of_lt_of_le _ _ _ ((hc.swap _ _).mpr hgt) (ha e he)
        have hpos := (hc.swap _ _).mp hlt
        rw [decide_eq_true_iff]
        omega

-- Where the keys increase, every entry is found under its own key.
theorem find_self {α ε : Type} {compare : α → α → Int} (hc : TotalPreorder compare)
    {key : ε → α} {l : List ε} (hsorted : l.Pairwise fun a b => compare (key a) (key b) < 0)
    {e : ε} (he : e ∈ l) :
    l.find? (fun a => decide (compare (key a) (key e) = 0)) = some e := by
  obtain ⟨before, after, rfl⟩ := List.append_of_mem he
  have hbefore := (List.pairwise_append.mp hsorted).2.2
  rw [List.find?_append, List.find?_eq_none.mpr, Option.none_or, List.find?_cons_of_pos]
  · exact decide_eq_true (hc.refl (key e))
  · intro a ha
    have hlt := hbefore a ha e (List.mem_cons_self ..)
    rw [decide_eq_true_iff]
    omega

end Lib.SparseIndex

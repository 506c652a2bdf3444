import Mathlib.Data.List.Basic

namespace Lib.ThreeWay

variable {α : Type}

-- A three-way comparison is negative, zero or positive as its first argument
-- sorts before, with or after its second.
structure TotalPreorder (compare : α → α → Int) : Prop where
  swap : ∀ a b, compare a b < 0 ↔ 0 < compare b a
  trans : ∀ a b c, compare a b ≤ 0 → compare b c ≤ 0 → compare a c ≤ 0

structure TotalOrder (compare : α → α → Int) : Prop extends TotalPreorder compare where
  eq_of_zero : ∀ a b, compare a b = 0 → a = b

namespace TotalPreorder

variable {compare : α → α → Int} (h : TotalPreorder compare)
include h

theorem refl (a : α) : compare a a = 0 := by
  have hs := h.swap a a
  omega

theorem nonneg_iff (a b : α) : 0 ≤ compare a b ↔ compare b a ≤ 0 := by
  have hs := h.swap a b
  omega

theorem zero_comm (a b : α) : compare a b = 0 ↔ compare b a = 0 := by
  have hab := h.swap a b
  have hba := h.swap b a
  omega

theorem sign_swap (a b : α) : (compare a b).sign = -(compare b a).sign := by
  have hab := h.swap a b
  have hba := h.swap b a
  rcases Int.lt_trichotomy (compare a b) 0 with hneg | hzero | hpos
  · rw [Int.sign_eq_neg_one_of_neg hneg, Int.sign_eq_one_of_pos (hab.mp hneg)]
  · rw [hzero, (h.zero_comm a b).mp hzero]
    rfl
  · rw [Int.sign_eq_one_of_pos hpos, Int.sign_eq_neg_one_of_neg (hba.mpr hpos)]
    rfl

theorem total (a b : α) : compare a b ≤ 0 ∨ compare b a ≤ 0 := by
  have hs := h.swap a b
  omega

theorem lt_of_lt_of_le (a b c : α) (hab : compare a b < 0) (hbc : compare b c ≤ 0) :
    compare a c < 0 := by
  by_contra hn
  have hca : compare c a ≤ 0 := (h.nonneg_iff a c).mp (by omega)
  have hba := h.trans b c a hbc hca
  have hs := h.swap a b
  omega

theorem lt_of_le_of_lt (a b c : α) (hab : compare a b ≤ 0) (hbc : compare b c < 0) :
    compare a c < 0 := by
  by_contra hn
  have hca : compare c a ≤ 0 := (h.nonneg_iff a c).mp (by omega)
  have hcb := h.trans c a b hca hab
  have hs := h.swap b c
  omega

theorem lt_trans (a b c : α) (hab : compare a b < 0) (hbc : compare b c < 0) :
    compare a c < 0 :=
  h.lt_of_lt_of_le a b c hab (by omega)

theorem zero_trans (a b c : α) (hab : compare a b = 0) (hbc : compare b c = 0) :
    compare a c = 0 := by
  have hac := h.trans a b c (by omega) (by omega)
  have hcb := (h.zero_comm b c).mp hbc
  have hba := (h.zero_comm a b).mp hab
  have hca := h.trans c b a (by omega) (by omega)
  have hn := (h.nonneg_iff a c).mpr hca
  omega

-- Comparing through a function is again a preorder.
theorem comap {β : Type} (f : β → α) : TotalPreorder fun a b => compare (f a) (f b) where
  swap a b := h.swap (f a) (f b)
  trans a b c := h.trans (f a) (f b) (f c)

end TotalPreorder

-- The second comparison decides where the first one finds no difference.
def lex (c d : α → α → Int) (a b : α) : Int := if c a b = 0 then d a b else c a b

theorem TotalPreorder.lex {c d : α → α → Int} (hc : TotalPreorder c) (hd : TotalPreorder d) :
    TotalPreorder (lex c d) where
  swap x y := by
    have hzero := hc.zero_comm x y
    by_cases h : c x y = 0
    · simpa only [ThreeWay.lex, if_pos h, if_pos (hzero.mp h)] using hd.swap x y
    · simpa only [ThreeWay.lex, if_neg h, if_neg (mt hzero.mpr h)] using hc.swap x y
  trans x y z hxy hyz := by
    unfold ThreeWay.lex at hxy hyz ⊢
    by_cases hcxy : c x y = 0
    · by_cases hcyz : c y z = 0
      · rw [if_pos hcxy] at hxy
        rw [if_pos hcyz] at hyz
        rw [if_pos (hc.zero_trans x y z hcxy hcyz)]
        exact hd.trans x y z hxy hyz
      · rw [if_neg hcyz] at hyz
        have hlt := hc.lt_of_le_of_lt x y z (by omega) (by omega)
        rw [if_neg (by omega)]
        omega
    · rw [if_neg hcxy] at hxy
      have hcyz : c y z ≤ 0 := by
        split at hyz <;> omega
      have hlt := hc.lt_of_lt_of_le x y z (by omega) hcyz
      rw [if_neg (by omega)]
      omega

-- In a sorted list the elements that pass a downward closed test come first.
theorem filter_append_filter_not {r : α → α → Prop} (p : α → Bool) (l : List α)
    (hl : l.Pairwise r) (hp : ∀ a ∈ l, ∀ b ∈ l, r a b → p b = true → p a = true) :
    l.filter p ++ l.filter (fun a => !p a) = l := by
  induction l with
  | nil => rfl
  | cons a l ih =>
      obtain ⟨ha, hl⟩ := List.pairwise_cons.mp hl
      have hi := ih hl fun b hb c hc =>
        hp b (List.mem_cons_of_mem _ hb) c (List.mem_cons_of_mem _ hc)
      by_cases h : p a = true
      · simpa [h] using hi
      · have hnone : l.filter p = [] := by
          apply List.filter_eq_nil_iff.mpr
          intro b hb hpb
          exact h (hp a (by simp) b (List.mem_cons_of_mem _ hb) (ha b hb) hpb)
        simpa [h, hnone] using hi

-- The first element that passes a test comes before the others that pass it.
theorem head_filter_rel {r : α → α → Prop} (p : α → Bool) (l : List α) (hl : l.Pairwise r)
    (a : α) (ha : (l.filter p).head? = some a) (b : α) (hb : b ∈ l) (hp : p b = true) :
    b = a ∨ r a b := by
  obtain ⟨t, ht⟩ := List.head?_eq_some_iff.mp ha
  have hmem : b ∈ l.filter p := List.mem_filter.mpr ⟨hb, hp⟩
  have hsorted := hl.filter p
  rw [ht] at hmem hsorted
  rcases List.mem_cons.mp hmem with hba | hbt
  · exact .inl hba
  · exact .inr (List.rel_of_pairwise_cons hsorted hbt)

end Lib.ThreeWay

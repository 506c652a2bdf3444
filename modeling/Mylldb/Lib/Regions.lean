import Mathlib.Algebra.GroupWithZero.Nat
import Mathlib.Order.Interval.Finset.Nat

namespace Lib.Regions

structure Region where
  start : Nat
  size : Nat
  deriving DecidableEq, Repr

namespace Region

def stop (r : Region) : Nat := r.start + r.size

def Inside (r b : Region) : Prop := b.start ≤ r.start ∧ r.stop ≤ b.stop

def Apart (r r' : Region) : Prop := r.stop ≤ r'.start ∨ r'.stop ≤ r.start

instance (r r' : Region) : Decidable (Apart r r') := inferInstanceAs (Decidable (_ ∨ _))

variable {r r' b b' : Region}

theorem Apart.symm (h : Apart r r') : Apart r' r := Or.symm h

theorem Inside.refl (r : Region) : Inside r r := ⟨Nat.le_refl _, Nat.le_refl _⟩

theorem Inside.trans (h : Inside r r') (h' : Inside r' b) : Inside r b :=
  ⟨h'.1.trans h.1, h.2.trans h'.2⟩

theorem Apart.inside (h : Apart b b') (hr : Inside r b) (hr' : Inside r' b') : Apart r r' := by
  rcases h with h | h
  · exact .inl (hr.2.trans (h.trans hr'.1))
  · exact .inr (hr'.2.trans (h.trans hr.1))

end Region

open Region

theorem apart_concat {l : List Region} (hl : l.Pairwise Apart) {r : Region}
    (hr : ∀ r' ∈ l, Apart r' r) : (l ++ [r]).Pairwise Apart := by
  apply List.pairwise_append.mpr
  refine ⟨hl, List.pairwise_singleton _ _, fun r' hr' r'' hr'' => ?_⟩
  rw [List.mem_singleton.mp hr'']
  exact hr r' hr'

section Size

-- The addresses in a list of regions.
def cells (l : List Region) : Finset Nat :=
  l.foldr (fun r s => Finset.Ico r.start r.stop ∪ s) ∅

theorem mem_cells {l : List Region} {x : Nat} :
    x ∈ cells l ↔ ∃ r ∈ l, r.start ≤ x ∧ x < r.stop := by
  induction l with
  | nil => simp [cells]
  | cons r l ih =>
      rw [cells, List.foldr_cons, Finset.mem_union, Finset.mem_Ico, ← cells, ih]
      simp

theorem card_cells {l : List Region} (hl : l.Pairwise Apart) :
    (cells l).card = (l.map Region.size).sum := by
  induction l with
  | nil => rfl
  | cons r l ih =>
      obtain ⟨hr, hl⟩ := List.pairwise_cons.mp hl
      have hdisjoint : Disjoint (Finset.Ico r.start r.stop) (cells l) := by
        apply Finset.disjoint_left.mpr
        intro x hx hx'
        obtain ⟨hle, hlt⟩ := Finset.mem_Ico.mp hx
        obtain ⟨r', hr', hle', hlt'⟩ := mem_cells.mp hx'
        rcases hr r' hr' with h | h <;> omega
      rw [cells, List.foldr_cons, ← cells, Finset.card_union_of_disjoint hdisjoint, ih hl,
        Nat.card_Ico, List.map_cons, List.sum_cons, stop, Nat.add_sub_cancel_left]

-- Regions that are apart take no more room than there is.
theorem sum_size_le {l : List Region} (hl : l.Pairwise Apart) (top : Nat)
    (htop : ∀ r ∈ l, r.stop ≤ top) : (l.map Region.size).sum ≤ top := by
  have hsubset : cells l ⊆ Finset.range top := by
    intro x hx
    obtain ⟨r, hr, -, hlt⟩ := mem_cells.mp hx
    exact Finset.mem_range.mpr (hlt.trans_le (htop r hr))
  have hcard := Finset.card_le_card hsubset
  rwa [card_cells hl, Finset.card_range] at hcard

theorem length_mul_le {l : List Region} (n : Nat) (hn : ∀ r ∈ l, n ≤ r.size) :
    l.length * n ≤ (l.map Region.size).sum := by
  induction l with
  | nil => simp
  | cons r l ih =>
      have hr := hn r (by simp)
      have hl := ih fun r' hr' => hn r' (List.mem_cons_of_mem _ hr')
      rw [List.length_cons, List.map_cons, List.sum_cons, Nat.succ_mul]
      omega

end Size

-- Blocks from which ranges were cut, and the rest of the last block, if there is one.
structure Carved (blocks ranges : List Region) (rest : Region) : Prop where
  blocks_apart : blocks.Pairwise Apart
  owned : ∀ r ∈ ranges, ∃ b ∈ blocks, Inside r b
  apart : ranges.Pairwise Apart
  home : (∃ b ∈ blocks, Inside rest b) ∨ rest = ⟨0, 0⟩
  unused : ∀ r ∈ ranges, Apart r rest

namespace Carved

variable {blocks ranges : List Region} {rest : Region}

theorem nil : Carved [] [] ⟨0, 0⟩ :=
  ⟨List.Pairwise.nil, by simp, List.Pairwise.nil, .inr rfl, by simp⟩

-- The next range is cut from the rest.
theorem cut (h : Carved blocks ranges rest) {r rest' : Region} (hpos : 0 < r.size)
    (hr : Inside r rest) (hrest : Inside rest' rest) (hapart : Apart r rest') :
    Carved blocks (ranges ++ [r]) rest' := by
  have hhome : ∃ b ∈ blocks, Inside rest b := by
    rcases h.home with hhome | rfl
    · exact hhome
    · have hstop := hr.2
      simp only [stop] at hstop
      omega
  obtain ⟨b, hb, hin⟩ := hhome
  refine ⟨h.blocks_apart, fun r' hr' => ?_, apart_concat h.apart fun r' hr' => ?_,
    .inl ⟨b, hb, hrest.trans hin⟩, fun r' hr' => ?_⟩
  · rcases List.mem_append.mp hr' with hr' | hr'
    · exact h.owned r' hr'
    · rw [List.mem_singleton.mp hr']
      exact ⟨b, hb, hr.trans hin⟩
  · exact (h.unused r' hr').inside (.refl r') hr
  · rcases List.mem_append.mp hr' with hr' | hr'
    · exact (h.unused r' hr').inside (.refl r') hrest
    · rw [List.mem_singleton.mp hr']
      exact hapart

-- The next range starts behind some bytes that are left out.
theorem cut_front {p n : Nat} (h : Carved blocks ranges ⟨p, n⟩) (slop bytes : Nat)
    (hpos : 0 < bytes) (hfits : slop + bytes ≤ n) :
    Carved blocks (ranges ++ [⟨p + slop, bytes⟩])
      ⟨p + (slop + bytes), n - (slop + bytes)⟩ := by
  apply h.cut hpos
  · simp only [Inside, stop]
    omega
  · simp only [Inside, stop]
    omega
  · simp only [Apart, stop]
    omega

-- Another block, which nothing was cut from so far.
theorem more (h : Carved blocks ranges rest) {b : Region} (hfresh : ∀ b' ∈ blocks, Apart b' b) :
    Carved (blocks ++ [b]) ranges rest ∧ (∀ r ∈ ranges, Apart r b) ∧ Apart rest b := by
  have hlarger : ∀ b' ∈ blocks, b' ∈ blocks ++ [b] := fun b' hb' => List.mem_append_left _ hb'
  refine ⟨⟨apart_concat h.blocks_apart hfresh, fun r hr => ?_, h.apart, ?_, h.unused⟩,
    fun r hr => ?_, ?_⟩
  · obtain ⟨b', hb', hin⟩ := h.owned r hr
    exact ⟨b', hlarger b' hb', hin⟩
  · rcases h.home with ⟨b', hb', hin⟩ | hnone
    · exact .inl ⟨b', hlarger b' hb', hin⟩
    · exact .inr hnone
  · obtain ⟨b', hb', hin⟩ := h.owned r hr
    exact (hfresh b' hb').inside hin (.refl b)
  · rcases h.home with ⟨b', hb', hin⟩ | rfl
    · exact (hfresh b' hb').inside hin (.refl b)
    · exact .inl (Nat.zero_le _)

-- A block that is a range as a whole.
theorem whole (h : Carved blocks ranges rest) {b : Region} (hfresh : ∀ b' ∈ blocks, Apart b' b) :
    Carved (blocks ++ [b]) (ranges ++ [b]) rest := by
  obtain ⟨hmore, hranges, hrest⟩ := h.more hfresh
  refine ⟨hmore.blocks_apart, fun r hr => ?_, apart_concat h.apart hranges, hmore.home,
    fun r hr => ?_⟩
  · rcases List.mem_append.mp hr with hr | hr
    · exact hmore.owned r hr
    · rw [List.mem_singleton.mp hr]
      exact ⟨b, by simp, .refl b⟩
  · rcases List.mem_append.mp hr with hr | hr
    · exact h.unused r hr
    · rw [List.mem_singleton.mp hr]
      exact hrest.symm

-- A block that takes the place of the rest.
theorem renew (h : Carved blocks ranges rest) {b : Region} (hfresh : ∀ b' ∈ blocks, Apart b' b) :
    Carved (blocks ++ [b]) ranges b := by
  obtain ⟨hmore, hranges, -⟩ := h.more hfresh
  exact ⟨hmore.blocks_apart, hmore.owned, hmore.apart, .inl ⟨b, by simp, .refl b⟩, hranges⟩

end Carved

end Lib.Regions

import Mylldb.SkipList.Insert

namespace Mylldb.SkipList

open Lib.LinkedChain Lib.Run Lib.ThreeWay

variable {Key : Type} [Inhabited Key]

theorem empty_represents (cmp : Key → Key → Int) : Represents cmp (empty : SkipList Key) [] where
  head_height := rfl
  maxHeight_pos := Nat.le_refl 1
  maxHeight_le := by
    change 1 ≤ 12
    omega
  perm := List.Perm.refl _
  height_pos := by simp
  height_le := by simp
  chain level hlevel := by
    change (empty : SkipList Key).next (some 0) level = .ok none
    simp [next, deref, empty, readSlot, hlevel, Slot.read]
  sorted := List.Pairwise.nil

-- Node `i + 1` belongs to the `i`-th insertion.
structure History (inserts : List (Nat × Key)) (l : SkipList Key) : Prop where
  length : l.nodes.length = inserts.length + 1
  maxHeight : l.maxHeight = (inserts.map (·.1)).foldl max 1
  keyOf : ∀ i p, inserts[i]? = some p → l.keyOf (i + 1) = p.2
  height : ∀ i p, inserts[i]? = some p → l.height (i + 1) = p.1

theorem History.insert {inserts : List (Nat × Key)} {l l' : SkipList Key} {p : Nat × Key}
    (h : History inserts l) (hlen : l'.nodes.length = l.nodes.length + 1)
    (hmax : l'.maxHeight = max l.maxHeight p.1)
    (hheight : ∀ x, l'.height x = if x = l.nodes.length then p.1 else l.height x)
    (hkey : ∀ x, l'.keyOf x = if x = l.nodes.length then p.2 else l.keyOf x) :
    History (inserts ++ [p]) l' where
  length := by simp [hlen, h.length]
  maxHeight := by simp [hmax, h.maxHeight]
  keyOf i q hq := by
    rw [hkey, h.length]
    by_cases hi : i < inserts.length
    · rw [List.getElem?_append_left hi] at hq
      rw [if_neg (by omega), h.keyOf i q hq]
    · obtain ⟨hlt, rfl⟩ := List.getElem?_eq_some_iff.mp hq
      simp only [List.length_append, List.length_singleton] at hlt
      obtain rfl : i = inserts.length := by omega
      simp
  height i q hq := by
    rw [hheight, h.length]
    by_cases hi : i < inserts.length
    · rw [List.getElem?_append_left hi] at hq
      rw [if_neg (by omega), h.height i q hq]
    · obtain ⟨hlt, rfl⟩ := List.getElem?_eq_some_iff.mp hq
      simp only [List.length_append, List.length_singleton] at hlt
      obtain rfl : i = inserts.length := by omega
      simp

-- One node for each insertion.
theorem Represents.perm_inserts {cmp : Key → Key → Int} {l : SkipList Key} {order : List Nat}
    (h : Represents cmp l order) {inserts : List (Nat × Key)} (hhist : History inserts l) :
    order.Perm (List.range' 1 inserts.length) := by
  have hperm := h.perm
  rwa [hhist.length, Nat.add_sub_cancel] at hperm

-- Every run of insertions whose comparisons succeed reaches a represented list.
theorem insertAll_represents (compare : Key → Key → Exec Int) (cmp : Key → Key → Int)
    (hc : TotalPreorder cmp) (inserts : List (Nat × Key))
    (hheights : ∀ p ∈ inserts, 1 ≤ p.1 ∧ p.1 ≤ kMaxHeight)
    (hcompare : ∀ p ∈ inserts, ∀ q ∈ inserts, compare p.2 q.2 = .ok (cmp p.2 q.2)) :
    ∃ l, insertAll compare inserts = .ok l ∧ History inserts l ∧
      ∃ order, Represents cmp l order := by
  have hrun := foldlM_history (fun l p => l.insert compare p.1 p.2)
    (fun done l => (∀ p ∈ done, p ∈ inserts) ∧ History done l ∧ ∃ order, Represents cmp l order)
    inserts (by
      rintro done l ⟨hdone, hhist, order, hrep⟩ p hp
      have ha : Agrees compare cmp l order p.2 := by
        intro x hx
        obtain ⟨hpos, hlt⟩ := hrep.lt_length x hx
        rw [hhist.length] at hlt
        have hget : done[x - 1]? = some done[x - 1] := List.getElem?_eq_getElem (by omega)
        have hk := hhist.keyOf (x - 1) _ hget
        rw [Nat.sub_add_cancel hpos] at hk
        rw [hk]
        exact hcompare _ (hdone _ (List.getElem_mem _)) p hp
      obtain ⟨hpos, hle⟩ := hheights p hp
      obtain ⟨l', hl', hrep', hlen, hmax, hheight, hkey⟩ :=
        hrep.insert hc p.2 p.1 hpos hle ha
      refine ⟨l', hl', fun q hq => ?_, hhist.insert hlen hmax hheight hkey, _, hrep'⟩
      rcases List.mem_append.mp hq with hq | hq
      · exact hdone q hq
      · exact List.mem_singleton.mp hq ▸ hp)
    [] empty ⟨by simp, ⟨rfl, rfl, by simp, by simp⟩, [], empty_represents cmp⟩
  obtain ⟨l, hl, -, hhist, hrep⟩ := hrun
  exact ⟨l, hl, by simpa using hhist, hrep⟩

-- What a list holds after a run of insertions. `order` lists the nodes along
-- level 0; node `i + 1` is the node of the `i`-th insertion.
structure WellFormed (cmp : Key → Key → Int) (inserts : List (Nat × Key)) (l : SkipList Key)
    (order : List Nat) : Prop where
  -- one node for each insertion, so the chain is finite and visits no node twice
  perm : order.Perm (List.range' 1 inserts.length)
  history : History inserts l
  bottom : Chain (l.link 0) 0 order
  sorted : order.Pairwise fun x y => cmp (l.keyOf x) (l.keyOf y) < 0 ∨
    cmp (l.keyOf x) (l.keyOf y) = 0 ∧ y < x
  levels : ∀ level < kMaxHeight,
    Chain (l.link level) 0 (order.filter fun x => decide (level < l.height x))
  maxHeight : l.maxHeight = (inserts.map (·.1)).foldl max 1
  above : ∀ level, l.maxHeight ≤ level → level < kMaxHeight → l.next (some 0) level = .ok none
  -- a further insertion reads only entries of `prev` that hold a node
  prev : ∀ height key, height ≤ kMaxHeight →
    ∃ prev, l.fillPrev (fun a b => .ok (cmp a b)) height key = .ok prev ∧
      ∀ i < height, ∃ x, prev[i]? = some (.node x)

theorem insertAll_wellFormed (cmp : Key → Key → Int) (hc : TotalPreorder cmp)
    (inserts : List (Nat × Key)) (hheights : ∀ p ∈ inserts, 1 ≤ p.1 ∧ p.1 ≤ kMaxHeight) :
    ∃ l order, insertAll (fun a b => .ok (cmp a b)) inserts = .ok l ∧
      WellFormed cmp inserts l order := by
  obtain ⟨l, hl, hhist, order, hrep⟩ := insertAll_represents (fun a b => .ok (cmp a b)) cmp hc
    inserts hheights fun _ _ _ _ => rfl
  refine ⟨l, order, hl, ?_, hhist, ?_, hrep.sorted, hrep.chain, hhist.maxHeight, ?_, ?_⟩
  · exact hrep.perm_inserts hhist
  · have hchain := hrep.chain 0 (by decide)
    rwa [tower_zero l order hrep.height_pos] at hchain
  · intro level hlevel hlt
    have hchain := hrep.chain level hlt
    rwa [hrep.tower_eq_nil level hlevel order (List.Subset.refl _)] at hchain
  · intro height key hle
    obtain ⟨prev, hprev, hslots⟩ :=
      hrep.fillPrev_eq hc key height hle (agrees_ok cmp l order key)
    exact ⟨prev, hprev, fun i hi => ⟨_, hslots i hi⟩⟩

theorem subtract_totalPreorder : TotalPreorder fun a b : Int => a - b where
  swap a b := by omega
  trans a b c hab hbc := by omega

theorem insertAll_wellFormed_duplicates :
    ∃ l order, insertAll (fun a b : Int => .ok (a - b)) [(1, 5), (3, 2), (12, 5)] = .ok l ∧
      WellFormed (fun a b => a - b) [(1, 5), (3, 2), (12, 5)] l order :=
  insertAll_wellFormed _ subtract_totalPreorder _ (by decide)

end Mylldb.SkipList

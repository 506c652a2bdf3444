import Mylldb.SkipList.Search
import Mathlib.Data.List.Range

namespace Mylldb.SkipList

open Lib.LinkedChain Lib.Run Lib.ThreeWay

variable {Key : Type} [Inhabited Key]

-- `order` lists the nodes as the links of level 0 visit them. On every level
-- the links visit exactly the nodes that are tall enough, in the same order.
structure Represents (cmp : Key → Key → Int) (l : SkipList Key) (order : List Nat) : Prop where
  head_height : l.height 0 = kMaxHeight
  maxHeight_pos : 1 ≤ l.maxHeight
  maxHeight_le : l.maxHeight ≤ kMaxHeight
  perm : order.Perm (List.range' 1 (l.nodes.length - 1))
  height_pos : ∀ x ∈ order, 1 ≤ l.height x
  height_le : ∀ x ∈ order, l.height x ≤ l.maxHeight
  chain : ∀ level < kMaxHeight, Chain (l.link level) 0 (l.tower level order)
  sorted : order.Pairwise fun x y => cmp (l.keyOf x) (l.keyOf y) < 0 ∨
    cmp (l.keyOf x) (l.keyOf y) = 0 ∧ y < x

section Cut

variable {compare : Key → Key → Exec Int} {cmp : Key → Key → Int} {l : SkipList Key}
  {order : List Nat}

def lessThan (cmp : Key → Key → Int) (l : SkipList Key) (key : Key) (x : Nat) : Bool :=
  decide (cmp (l.keyOf x) key < 0)

-- The comparison of the code returns what `cmp` says on the nodes of the list.
def Agrees (compare : Key → Key → Exec Int) (cmp : Key → Key → Int) (l : SkipList Key)
    (order : List Nat) (key : Key) : Prop :=
  ∀ x ∈ order, compare (l.keyOf x) key = .ok (cmp (l.keyOf x) key)

theorem agrees_ok (cmp : Key → Key → Int) (l : SkipList Key) (order : List Nat) (key : Key) :
    Agrees (fun a b => .ok (cmp a b)) cmp l order key :=
  fun _ _ => rfl

theorem Represents.lt_length (h : Represents cmp l order) (x : Nat) (hx : x ∈ order) :
    1 ≤ x ∧ x < l.nodes.length := by
  have hm := h.perm.mem_iff.mp hx
  rw [List.mem_range'_1] at hm
  omega

theorem Represents.nodup (h : Represents cmp l order) : (0 :: order).Nodup := by
  refine List.nodup_cons.mpr ⟨fun hm => ?_, h.perm.nodup_iff.mpr List.nodup_range'⟩
  have := h.lt_length 0 hm
  omega

theorem Represents.length_pos (h : Represents cmp l order) : 0 < l.nodes.length := by
  have hh := h.head_height
  by_contra hn
  have : l.nodes = [] := List.length_eq_zero_iff.mp (by omega)
  simp [height, this, kMaxHeight] at hh

theorem Represents.length_order (h : Represents cmp l order) :
    order.length + 1 = l.nodes.length := by
  have hl := h.perm.length_eq
  have hp := h.length_pos
  simp only [List.length_range'] at hl
  omega

theorem Represents.split (h : Represents cmp l order) (hc : TotalPreorder cmp) (key : Key) :
    order.filter (l.lessThan cmp key) ++ order.filter (fun x => !l.lessThan cmp key x) = order := by
  refine filter_append_filter_not _ order h.sorted fun x _ y _ hxy hy => ?_
  simp only [lessThan, decide_eq_true_eq] at hy ⊢
  exact hc.lt_of_le_of_lt _ _ _ (by omega) hy

omit [Inhabited Key] in
theorem deref_eq (l : SkipList Key) (x : Nat) (hx : x < l.nodes.length) :
    l.deref (some x) = .ok l.nodes[x] := by
  simp [deref, hx]

theorem keyOf_eq (l : SkipList Key) (x : Nat) (hx : x < l.nodes.length) :
    l.keyOf x = l.nodes[x].key := by
  simp [keyOf, hx]

theorem keyIsAfterNode_eq (l : SkipList Key) (key : Key) (x : Nat) (hx : x < l.nodes.length)
    (ha : compare (l.keyOf x) key = .ok (cmp (l.keyOf x) key)) :
    l.keyIsAfterNode compare key (some x) = .ok (l.lessThan cmp key x) := by
  rw [keyOf_eq l x hx] at ha
  simp [keyIsAfterNode, deref_eq l x hx, ha, lessThan, keyOf_eq l x hx]

theorem Represents.cut (h : Represents cmp l order) (hc : TotalPreorder cmp) (key : Key)
    (ha : Agrees compare cmp l order key) :
    Cut l (l.keyIsAfterNode compare key) (order.filter (l.lessThan cmp key))
      (order.filter fun x => !l.lessThan cmp key x) where
  chain := by simpa only [h.split hc key] using h.chain
  pos := by simpa only [h.split hc key] using h.height_pos
  pass x hx := by
    obtain ⟨hm, hlt⟩ := List.mem_filter.mp hx
    rw [keyIsAfterNode_eq l key x (h.lt_length x hm).2 (ha x hm), hlt]
  stop x hx := by
    obtain ⟨hm, hlt⟩ := List.mem_filter.mp hx
    rw [keyIsAfterNode_eq l key x (h.lt_length x hm).2 (ha x hm)]
    simpa using hlt
  stop_null := rfl

-- The search starts on the head, at the top level in use, with enough fuel.
theorem Represents.descend_top (h : Represents cmp l order) (advance : Option Nat → Exec Bool)
    (before after : List Nat) (hsplit : before ++ after = order)
    (hcut : Cut l advance before after) (prev : Option (List Slot))
    (hprev : ∀ slots ∈ prev, slots.length = kMaxHeight) :
    ∃ prev', l.descend advance l.searchFuel (some 0) (l.maxHeight - 1) prev =
        .ok (some (before.getLastD 0), after.head?, prev') ∧
      l.WrittenPrev before (l.maxHeight - 1) prev prev' := by
  have hpos := h.maxHeight_pos
  have hle := h.maxHeight_le
  have hlen := h.length_order
  have hsum := congrArg List.length hsplit
  rw [List.length_append] at hsum
  refine descend_spec l advance before after hcut l.searchFuel (l.maxHeight - 1) [] before prev rfl
    (by simp) (by omega) (by unfold searchFuel; omega) fun slots hs => ?_
  rw [hprev slots hs]
  omega

theorem Represents.findGreaterOrEqual_eq (h : Represents cmp l order) (hc : TotalPreorder cmp)
    (key : Key) (ha : Agrees compare cmp l order key) (prev : Option (List Slot))
    (hprev : ∀ slots ∈ prev, slots.length = kMaxHeight) :
    ∃ prev', l.findGreaterOrEqual compare key prev =
        .ok ((order.filter fun x => !l.lessThan cmp key x).head?, prev') ∧
      l.WrittenPrev (order.filter (l.lessThan cmp key)) (l.maxHeight - 1) prev prev' := by
  obtain ⟨prev', hrun, hwritten⟩ :=
    h.descend_top _ _ _ (h.split hc key) (h.cut hc key ha) prev hprev
  exact ⟨prev', by simp [findGreaterOrEqual, hrun], hwritten⟩

omit [Inhabited Key] in
-- `FindLessThan` goes right under the same condition as `FindGreaterOrEqual`.
theorem not_endsBefore (l : SkipList Key) (key : Key) :
    (fun next => not <$> l.endsBefore compare key next) = l.keyIsAfterNode compare key := by
  funext next
  cases next with
  | none => rfl
  | some x =>
      simp only [endsBefore, keyIsAfterNode]
      cases l.deref (some x) with
      | error e => rfl
      | ok node =>
          cases hc : compare node.key key with
          | error e => simp [hc]
          | ok c =>
              have hnot : (!decide (0 ≤ c)) = decide (c < 0) := by
                rw [← decide_not, decide_eq_decide]
                omega
              simp [hc, hnot]

theorem Represents.findLessThan_eq (h : Represents cmp l order) (hc : TotalPreorder cmp)
    (key : Key) (ha : Agrees compare cmp l order key) :
    l.findLessThan compare key =
      .ok (some ((order.filter (l.lessThan cmp key)).getLastD 0)) := by
  obtain ⟨prev', hrun, -⟩ := 
    h.descend_top _ _ _ (h.split hc key) (h.cut hc key ha) none (by simp)
  simp only [findLessThan, not_endsBefore, hrun, ok_bind, pure_eq]

theorem Represents.findLast_eq (h : Represents cmp l order) :
    l.findLast = .ok (some (order.getLastD 0)) := by
  have hcut : Cut l (fun next => (pure next.isSome : Exec Bool)) order [] :=
    { chain := by simpa using h.chain
      pos := by simpa using h.height_pos
      pass := fun x _ => rfl
      stop := by simp
      stop_null := rfl }
  obtain ⟨prev', hrun, -⟩ := h.descend_top _ order [] (by simp) hcut none (by simp)
  rw [findLast, hrun]
  rfl

end Cut

end Mylldb.SkipList

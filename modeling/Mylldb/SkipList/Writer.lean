import Mylldb.SkipList.Readers

namespace Mylldb.SkipList

open Lib.History Lib.LinkedChain Lib.Run Lib.ThreeWay

variable {Key : Type} [Inhabited Key]

section Stores

variable {l₀ l : SkipList Key} {x i : Nat} {before after : List Nat}

-- A store into a link of the new node that no chain runs through yet.
theorem Splicing.aim (h : Splicing l₀ x before after i l) (o : Option Nat)
    (hx : i < l₀.height x) (hnew : x ∉ 0 :: (before ++ after)) :
    ∃ l', l.setNext (some x) i o = .ok l' ∧ Splicing l₀ x before after i l' ∧
      l'.next (some x) i = .ok o := by
  obtain ⟨l', hrun, hshape, hlink, hother⟩ := setNext_spec l x i o (by rwa [h.shape.height])
  refine ⟨l', hrun, ⟨h.shape.trans hshape, fun level hlevel hdone => ?_,
    fun level hlevel hrest => ?_⟩, hlink⟩
  · refine (h.done level hlevel hdone).congr fun y _ o ho => ?_
    exact (hother y level (.inr (by omega))).trans ho
  · refine (h.rest level hlevel hrest).congr fun y hy o ho => ?_
    have hyx : y ≠ x := by
      rintro rfl
      rw [← tower_append] at hy
      exact hnew ((List.filter_sublist.cons_cons 0).subset hy)
    exact (hother y level (.inl hyx)).trans ho

-- The store that takes the chain of a level through the new node.
theorem Splicing.lead (h : Splicing l₀ x before after i l) (hi : i < kMaxHeight)
    (hhead : l₀.height 0 = kMaxHeight) (hnodup : (0 :: (before ++ after)).Nodup)
    (hnew : x ∉ 0 :: (before ++ after))
    (haimed : l.next (some x) i = .ok (l₀.tower i after).head?) :
    ∃ l', l.setNext (some ((l₀.tower i before).getLastD 0)) i (some x) = .ok l' ∧
      Splicing l₀ x before after (i + 1) l' := by
  have hchain := h.rest i hi (Nat.le_refl i)
  have hsub : (0 :: (l₀.tower i before ++ l₀.tower i after)).Sublist (0 :: (before ++ after)) := by
    rw [← tower_append]
    exact List.filter_sublist.cons_cons 0
  have hlast : (l₀.tower i before).getLastD 0 ∈ 0 :: l₀.tower i before := List.getLastD_mem_cons
  have hp : i < l₀.height ((l₀.tower i before).getLastD 0) := by
    rcases List.mem_cons.mp hlast with he | hm
    · rwa [he, hhead]
    · exact of_decide_eq_true (List.mem_filter.mp hm).2
  obtain ⟨l', hrun, hshape, hlink, hother⟩ :=
    setNext_spec l ((l₀.tower i before).getLastD 0) i (some x) (by rwa [h.shape.height])
  refine ⟨l', hrun, h.shape.trans hshape, fun level hlevel hdone => ?_,
    fun level hlevel hrest => ?_⟩
  · by_cases he : level = i
    · subst he
      refine hchain.splice (hnodup.sublist hsub) (fun o ho => ?_) hlink fun y hy hyp o ho => ?_
      · have hne : x ≠ (l₀.tower level before).getLastD 0 := by
          intro he
          rw [← he] at hlast
          exact hnew (hsub.subset ((List.sublist_append_left _ _).cons_cons 0 |>.subset hlast))
        rw [link, hother x level (.inl hne), haimed,
          ← link_unique l level _ _ _ hchain.suffix.head ho]
      · exact (hother y level (.inl hyp)).trans ho
    · refine (h.done level hlevel (by omega)).congr fun y _ o ho => ?_
      exact (hother y level (.inr he)).trans ho
  · refine (h.rest level hlevel (by omega)).congr fun y _ o ho => ?_
    exact (hother y level (.inr (by omega))).trans ho

-- The nodes that a level visits while the new node is linked below level `i`.
def splicedLane (l₀ : SkipList Key) (x : Nat) (before after : List Nat) (i level : Nat) :
    List Nat :=
  if level < i then l₀.tower level before ++ x :: l₀.tower level after
  else l₀.tower level before ++ l₀.tower level after

-- The order of the list before and behind the store on level 0.
def splicedOrder (x : Nat) (before after : List Nat) (i : Nat) : List Nat :=
  if 0 < i then before ++ x :: after else before ++ after

omit [Inhabited Key] in
theorem tower_nested (l : SkipList Key) (level : Nat) (xs : List Nat) :
    (l.tower (level + 1) xs).Sublist (l.tower level xs) := by
  apply List.monotone_filter_right
  intro x hx
  rw [decide_eq_true_eq] at hx ⊢
  omega

omit [Inhabited Key] in
theorem append_cons_sublist {xs xs' ys ys' : List Nat} (x : Nat) (h : xs.Sublist xs')
    (h' : ys.Sublist ys') : (xs ++ ys).Sublist (xs' ++ x :: ys') :=
  h.append (h'.cons x)

theorem Splicing.lanes (h : Splicing l₀ x before after i l)
    (hpos : ∀ y ∈ before ++ after, 1 ≤ l₀.height y) (hnodup : (0 :: (before ++ after)).Nodup)
    (hnew : x ∉ 0 :: (before ++ after)) :
    Lanes l.link 0 kMaxHeight (splicedOrder x before after i)
      (splicedLane l₀ x before after i) where
  nodup := by
    unfold splicedOrder
    split
    · rw [← List.cons_append]
      exact List.nodup_middle.mpr (List.nodup_cons.mpr ⟨hnew, hnodup⟩)
    · exact hnodup
  bottom := by
    have hbefore := tower_zero l₀ before fun y hy => hpos y (List.mem_append_left after hy)
    have hafter := tower_zero l₀ after fun y hy => hpos y (List.mem_append_right before hy)
    rw [splicedLane, splicedOrder, hbefore, hafter]
  nested level := by
    unfold splicedLane
    have hb := tower_nested l₀ level before
    have ha := tower_nested l₀ level after
    by_cases hup : level + 1 < i
    · rw [if_pos hup, if_pos (by omega)]
      exact hb.append (ha.cons_cons x)
    · rw [if_neg hup]
      split
      · exact append_cons_sublist x hb ha
      · exact hb.append ha
  chain level hlevel := by
    unfold splicedLane
    split
    · rename_i hdone
      exact h.done level hlevel hdone
    · rename_i hrest
      exact h.rest level hlevel (Nat.le_of_not_lt hrest)

end Stores

section Writer

variable {cmp : Key → Key → Int} {good : Key → Prop} {l l₀ l' : SkipList Key} {w w' : Writer Key}
  {order order' before after : List Nat} {lane lane' : Nat → List Nat} {height i : Nat} {key : Key}
  {prev : List Slot}

theorem Represents.raise (h : Represents cmp l order) {maxHeight : Nat}
    (hlow : l.maxHeight ≤ maxHeight) (hhigh : maxHeight ≤ kMaxHeight) :
    Represents cmp { l with maxHeight } order where
  head_height := h.head_height
  maxHeight_pos := h.maxHeight_pos.trans hlow
  maxHeight_le := hhigh
  perm := h.perm
  height_pos := h.height_pos
  height_le x hx := (h.height_le x hx).trans hlow
  chain := h.chain
  sorted := h.sorted

theorem Represents.shared (h : Represents cmp l order) (hgood : ∀ x ∈ order, good (l.keyOf x)) :
    Shared cmp good l order fun level => l.tower level order where
  nodup := h.nodup
  bottom := tower_zero l order h.height_pos
  nested level := tower_nested l level order
  chain := h.chain
  maxHeight_pos := h.maxHeight_pos
  maxHeight_le := h.maxHeight_le
  lt_length x hx := (h.lt_length x hx).2
  good := hgood
  sorted := h.sorted.imp fun hxy => by omega

-- A new node in the order is a new element on the sheet.
theorem Represents.entries_insertOrder (h : Represents cmp l order)
    (hkey : ∀ x, l'.keyOf x = if x = l.nodes.length then key else l.keyOf x) :
    entries l' (insertOrder cmp l order key) =
      Sheet.insert cmp (entries l order) (order.length + 1) key := by
  have hsame : ∀ ys ⊆ order, entries l' ys = entries l ys := fun ys hys =>
    List.map_congr_left fun y hy => by
      rw [hkey, if_neg (Nat.ne_of_lt (h.lt_length y (hys hy)).2)]
  have hnew : l'.keyOf l.nodes.length = key := by rw [hkey, if_pos rfl]
  rw [Sheet.insert, entries_filter, entries_filter_not, h.length_order, insertOrder,
    ← hsame _ List.filter_sublist.subset, ← hsame _ List.filter_sublist.subset]
  simp only [entries, List.map_append, List.map_cons, hnew]

-- What the writer knows when it allocates the node: where the node belongs on each of
-- its levels.
structure Pending (cmp : Key → Key → Int) (good : Key → Prop) (l : SkipList Key)
    (before : List Nat) (height : Nat) (key : Key) (prev : List Slot) : Prop where
  height_pos : 1 ≤ height
  raised : height ≤ l.maxHeight
  good : good key
  prev : ∀ i < height, prev[i]? = some (.node ((l.tower i before).getLastD 0))

-- The nodes before and behind the place of a key.
structure Cuts (cmp : Key → Key → Int) (l : SkipList Key) (order : List Nat) (key : Key)
    (before after : List Nat) : Prop where
  before_eq : before = order.filter (l.lessThan cmp key)
  after_eq : after = order.filter fun x => !l.lessThan cmp key x
  split : before ++ after = order

-- The writer between two stores, and the list that the readers see.
inductive Writes (cmp : Key → Key → Int) (good : Key → Prop) (l : SkipList Key) :
    Writer Key → List Nat → (Nat → List Nat) → Prop
  | idle (order : List Nat) : Represents cmp l order → (∀ x ∈ order, good (l.keyOf x)) →
      Writes cmp good l .idle order fun level => l.tower level order
  | allocating (order before after : List Nat) (height : Nat) (key : Key) (prev : List Slot) :
      Represents cmp l order → (∀ x ∈ order, good (l.keyOf x)) →
      Cuts cmp l order key before after → Pending cmp good l before height key prev →
      Writes cmp good l (.allocating height key prev) order fun level => l.tower level order
  | linking (l₀ : SkipList Key) (order before after : List Nat) (height : Nat) (key : Key)
      (prev : List Slot) (i : Nat) (aimed : Bool) :
      Represents cmp l₀ order → (∀ x ∈ order, good (l₀.keyOf x)) →
      Cuts cmp l₀ order key before after → Pending cmp good l₀ before height key prev →
      Splicing (l₀.allocated height key) l₀.nodes.length before after i l → i ≤ height →
      (aimed = true → i < height ∧
        l.next (some l₀.nodes.length) i = .ok (l₀.tower i after).head?) →
      Writes cmp good l (.linking height key prev l₀.nodes.length i aimed)
        (splicedOrder l₀.nodes.length before after i)
        (splicedLane (l₀.allocated height key) l₀.nodes.length before after i)

theorem Splicing.keyOf_eq {x : Nat}
    (h : Splicing (l₀.allocated height key) x before after i l) (y : Nat) :
    l.keyOf y = if y = l₀.nodes.length then key else l₀.keyOf y :=
  (h.shape.keyOf y).trans (allocated_keyOf l₀ height key y)

theorem Splicing.height_eq {x : Nat}
    (h : Splicing (l₀.allocated height key) x before after i l) (y : Nat) :
    l.height y = if y = l₀.nodes.length then height else l₀.height y :=
  (h.shape.height y).trans (allocated_height l₀ height key y)

-- The readers see a list in order while the node is linked level by level.
theorem Represents.splicing_shared (h : Represents cmp l₀ order) (hc : TotalPreorder cmp)
    (hgood : ∀ x ∈ order, good (l₀.keyOf x)) (hcuts : Cuts cmp l₀ order key before after)
    (hpending : Pending cmp good l₀ before height key prev)
    (hs : Splicing (l₀.allocated height key) l₀.nodes.length before after i l) :
    Shared cmp good l (splicedOrder l₀.nodes.length before after i)
      (splicedLane (l₀.allocated height key) l₀.nodes.length before after i) := by
  have hsplit := hcuts.split
  have hnew : l₀.nodes.length ∉ 0 :: (before ++ after) := by
    rw [hsplit]
    exact h.new_notMem
  have hold : ∀ y ∈ order, y < l₀.nodes.length := fun y hy => (h.lt_length y hy).2
  have hkey : ∀ y ∈ order, l.keyOf y = l₀.keyOf y := fun y hy => by
    rw [hs.keyOf_eq, if_neg (Nat.ne_of_lt (hold y hy))]
  have hmem : ∀ y ∈ splicedOrder l₀.nodes.length before after i,
      y = l₀.nodes.length ∨ y ∈ order := by
    intro y hy
    rw [← hsplit]
    unfold splicedOrder at hy
    split at hy
    · simp only [List.mem_append, List.mem_cons] at hy ⊢
      exact or_left_comm.mp hy
    · exact .inr hy
  have hlength : l.nodes.length = l₀.nodes.length + 1 := by
    rw [hs.shape.length]
    simp [allocated, newNode]
  have hmax : l.maxHeight = max l₀.maxHeight height := hs.shape.maxHeight
  have hraised := hpending.raised
  have hpos := h.maxHeight_pos
  have hle := h.maxHeight_le
  refine ⟨hs.lanes ?_ ?_ hnew, by omega, by omega, ?_, ?_, ?_⟩
  · intro y hy
    rw [hsplit] at hy
    rw [allocated_height, if_neg (Nat.ne_of_lt (hold y hy))]
    exact h.height_pos y hy
  · rw [hsplit]
    exact h.nodup
  · intro y hy
    rcases hmem y hy with rfl | hy
    · omega
    · have hlt := hold y hy
      omega
  · intro y hy
    rcases hmem y hy with rfl | hy
    · rw [hs.keyOf_eq, if_pos rfl]
      exact hpending.good
    · rw [hkey y hy]
      exact hgood y hy
  · unfold splicedOrder
    split
    · rw [hcuts.before_eq, hcuts.after_eq]
      exact (h.insertOrder_sorted hc key l hs.keyOf_eq).imp fun hxy => by omega
    · rw [hsplit]
      refine h.sorted.imp_of_mem fun {y z} hy hz hyz => ?_
      rw [hkey y hy, hkey z hz]
      omega

theorem Writes.shared (h : Writes cmp good l w order lane) (hc : TotalPreorder cmp) :
    Shared cmp good l order lane := by
  cases h with
  | idle order hrep hgood => exact hrep.shared hgood
  | allocating order before after height key prev hrep hgood _ _ => exact hrep.shared hgood
  | linking l₀ order before after height key prev i aimed hrep hgood hcuts hpending hs _ _ =>
      exact hrep.splicing_shared hc hgood hcuts hpending hs

-- The insertion in progress, and whether its node is in the list.
def Writer.call : Writer Key → Option (Key × Bool)
  | .idle => none
  | .allocating _ key _ => some (key, false)
  | .linking _ key _ _ i _ => some (key, decide (0 < i))

-- What a store tells of the insertion.
inductive Notes (cmp : Key → Key → Int) (l : SkipList Key) (w : Writer Key) (order : List Nat)
    (l' : SkipList Key) (w' : Writer Key) (order' : List Nat) : List (Record Key) → Prop
  | nothing : order' = order → w'.call = w.call → Notes cmp l w order l' w' order' []
  | inserted (key : Key) : w.call = some (key, false) → w'.call = some (key, true) →
      entries l' order' = Sheet.insert cmp (entries l order) (order.length + 1) key →
      Notes cmp l w order l' w' order' [.inserted (order.length + 1) key]
  | returned (key : Key) : order' = order → w.call = some (key, true) → w'.call = none →
      Notes cmp l w order l' w' order' [.insertReturned]

-- What every store of the writer keeps.
structure Stored (cmp : Key → Key → Int) (good : Key → Prop) (l : SkipList Key) (w : Writer Key)
    (order : List Nat) (lane : Nat → List Nat) (l' : SkipList Key) (w' : Writer Key)
    (new : List (Record Key)) (order' : List Nat) (lane' : Nat → List Nat) : Prop where
  writes : Writes cmp good l' w' order' lane'
  grows : Grows l order lane l' order' lane'
  notes : Notes cmp l w order l' w' order' new

theorem Grows.refl (l : SkipList Key) (order : List Nat) (lane : Nat → List Nat) :
    Grows l order lane l order lane :=
  ⟨List.Sublist.refl _, fun _ => List.Sublist.refl _, fun _ _ => rfl⟩

omit [Inhabited Key] in
theorem allocated_eq (hraised : height ≤ l.maxHeight) :
    l.allocated height key = (l.newNode key height).1 := by
  rw [allocated, Nat.max_eq_left hraised]

theorem Represents.allocated_lane (h : Represents cmp l order) (hcuts : Cuts cmp l order key before after)
    (height level : Nat) :
    splicedLane (l.allocated height key) l.nodes.length before after 0 level =
      l.tower level order := by
  rw [splicedLane, if_neg (Nat.not_lt_zero level), ← tower_append, hcuts.split,
    h.allocated_tower height key level order (List.Subset.refl _)]

-- No link leads to the node yet.
theorem Represents.store_allocating (h : Represents cmp l order)
    (hgood : ∀ x ∈ order, good (l.keyOf x)) (hcuts : Cuts cmp l order key before after)
    (hpending : Pending cmp good l before height key prev) :
    ∃ l' w' new order' lane', Writer.store l (.allocating height key prev) = .ok (l', w', new) ∧
      Stored cmp good l (.allocating height key prev) order (fun level => l.tower level order)
        l' w' new order' lane' := by
  have hlane := h.allocated_lane hcuts height
  have horder : splicedOrder l.nodes.length before after 0 = order := by
    rw [splicedOrder, if_neg (Nat.lt_irrefl 0), hcuts.split]
  refine ⟨l.allocated height key, .linking height key prev l.nodes.length 0 false, [],
    splicedOrder l.nodes.length before after 0,
    splicedLane (l.allocated height key) l.nodes.length before after 0, ?_, ?_, ?_, ?_⟩
  · rw [Writer.store, allocated_eq hpending.raised]
    rfl
  · exact .linking l order before after height key prev 0 false h hgood hcuts hpending
      (h.allocated_splicing height key before after hcuts.split) (Nat.zero_le _) (by simp)
  · refine ⟨by rw [horder], fun level => by rw [hlane], fun x hx => ?_⟩
    rw [allocated_keyOf, if_neg (Nat.ne_of_lt (h.lt_length x hx).2)]
  · exact .nothing horder rfl

section Linking

variable (h : Represents cmp l₀ order) (hgood : ∀ x ∈ order, good (l₀.keyOf x))
  (hcuts : Cuts cmp l₀ order key before after) (hpending : Pending cmp good l₀ before height key prev)
  (hs : Splicing (l₀.allocated height key) l₀.nodes.length before after i l)
include h hgood hcuts hpending hs

omit hgood hpending hs in
theorem new_notMem_cuts : l₀.nodes.length ∉ 0 :: (before ++ after) := by
  rw [hcuts.split]
  exact h.new_notMem

omit hgood hpending hs in
theorem cuts_nodup : (0 :: (before ++ after)).Nodup := by
  rw [hcuts.split]
  exact h.nodup

omit hgood hpending hs in
theorem allocated_tower_cuts (height level : Nat) :
    (l₀.allocated height key).tower level before = l₀.tower level before ∧
      (l₀.allocated height key).tower level after = l₀.tower level after := by
  have hsub : before ⊆ order ∧ after ⊆ order := by
    rw [← hcuts.split]
    exact ⟨List.subset_append_left _ _, List.subset_append_right _ _⟩
  exact ⟨h.allocated_tower height key level before hsub.1,
    h.allocated_tower height key level after hsub.2⟩

-- The node gets its own link of a level.
theorem store_aim (hi : i < height) :
    ∃ l' w' new order' lane',
      Writer.store l (.linking height key prev l₀.nodes.length i false) = .ok (l', w', new) ∧
      Stored cmp good l (.linking height key prev l₀.nodes.length i false)
        (splicedOrder l₀.nodes.length before after i)
        (splicedLane (l₀.allocated height key) l₀.nodes.length before after i) l' w' new
        order' lane' := by
  have hmax : i < kMaxHeight := by
    have hraised := hpending.raised
    have hle := h.maxHeight_le
    omega
  obtain ⟨hbefore, hafter⟩ := allocated_tower_cuts h hcuts height i
  have hlink := (hs.rest i hmax (Nat.le_refl i)).suffix.head
  rw [hbefore, hafter] at hlink
  have hnext : l.next (some ((l₀.tower i before).getLastD 0)) i = .ok (l₀.tower i after).head? :=
    hlink
  obtain ⟨l', hrun, hs', haimed⟩ := hs.aim (l₀.tower i after).head?
    (by rwa [allocated_height, if_pos rfl]) (new_notMem_cuts h hcuts)
  refine ⟨l', .linking height key prev l₀.nodes.length i true, [], _, _, ?_,
    .linking l₀ order before after height key prev i true h hgood hcuts hpending hs' hi.le
      (fun _ => ⟨hi, haimed⟩),
    ⟨List.Sublist.refl _, fun _ => List.Sublist.refl _, fun x _ => ?_⟩, .nothing rfl rfl⟩
  · rw [Writer.store, if_pos hi, readSlot, hpending.prev i hi]
    simp only [Slot.read, ok_bind, Bool.false_eq_true, ite_false, hnext, hrun, pure_eq]
  · rw [hs.keyOf_eq, hs'.keyOf_eq]

omit hgood hpending in
-- The first of these stores puts the node into the list.
theorem notes_lead (hs' : Splicing (l₀.allocated height key) l₀.nodes.length before after (i + 1) l') :
    Notes cmp l (.linking height key prev l₀.nodes.length i true)
      (splicedOrder l₀.nodes.length before after i) l'
      (.linking height key prev l₀.nodes.length (i + 1) false)
      (splicedOrder l₀.nodes.length before after (i + 1))
      (if i = 0 then [.inserted l₀.nodes.length key] else []) := by
  by_cases hzero : i = 0
  · subst hzero
    have horder : splicedOrder l₀.nodes.length before after 0 = order := by
      rw [splicedOrder, if_neg (Nat.lt_irrefl 0), hcuts.split]
    have horder' : splicedOrder l₀.nodes.length before after (0 + 1) =
        insertOrder cmp l₀ order key := by
      rw [splicedOrder, if_pos (Nat.succ_pos 0), hcuts.before_eq, hcuts.after_eq]
      rfl
    have hold : entries l order = entries l₀ order := List.map_congr_left fun y hy => by
      rw [hs.keyOf_eq, if_neg (Nat.ne_of_lt (h.lt_length y hy).2)]
    rw [if_pos rfl, horder, horder', ← h.length_order]
    refine .inserted key rfl rfl ?_
    rw [h.entries_insertOrder hs'.keyOf_eq, hold]
  · rw [if_neg hzero]
    have hpos := Nat.pos_of_ne_zero hzero
    refine .nothing ?_ ?_
    · rw [splicedOrder, splicedOrder, if_pos (Nat.succ_pos i), if_pos hpos]
    · simp [Writer.call, hpos]

-- The chain of a level is led through the node.
theorem store_lead (hi : i < height)
    (haimed : l.next (some l₀.nodes.length) i = .ok (l₀.tower i after).head?) :
    ∃ l' w' new order' lane',
      Writer.store l (.linking height key prev l₀.nodes.length i true) = .ok (l', w', new) ∧
      Stored cmp good l (.linking height key prev l₀.nodes.length i true)
        (splicedOrder l₀.nodes.length before after i)
        (splicedLane (l₀.allocated height key) l₀.nodes.length before after i) l' w' new
        order' lane' := by
  have hmax : i < kMaxHeight := by
    have hraised := hpending.raised
    have hle := h.maxHeight_le
    omega
  obtain ⟨hbefore, hafter⟩ := allocated_tower_cuts h hcuts height i
  have hhead : (l₀.allocated height key).height 0 = kMaxHeight := by
    have hpos := h.length_pos
    rw [allocated_height, if_neg (by omega), h.head_height]
  obtain ⟨l', hrun, hs'⟩ := hs.lead hmax hhead (cuts_nodup h hcuts) (new_notMem_cuts h hcuts)
    (by rwa [hafter])
  rw [hbefore] at hrun
  refine ⟨l', .linking height key prev l₀.nodes.length (i + 1) false, _, _, _, ?_,
    .linking l₀ order before after height key prev (i + 1) false h hgood hcuts hpending hs' hi
      (by simp),
    ⟨?_, fun level => ?_, fun x _ => ?_⟩, notes_lead h hcuts hs hs'⟩
  · rw [Writer.store, if_pos hi, readSlot, hpending.prev i hi]
    simp only [Slot.read, ok_bind, ite_true, hrun, pure_eq]
  · unfold splicedOrder
    rw [if_pos (Nat.succ_pos i)]
    split
    · exact List.Sublist.refl _
    · exact append_cons_sublist _ (List.Sublist.refl _) (List.Sublist.refl _)
  · unfold splicedLane
    by_cases hlow : level < i
    · rw [if_pos hlow, if_pos (by omega)]
    · rw [if_neg hlow]
      split
      · exact append_cons_sublist _ (List.Sublist.refl _) (List.Sublist.refl _)
      · exact List.Sublist.refl _
  · rw [hs.keyOf_eq, hs'.keyOf_eq]

-- All levels of the node are linked.
theorem store_done (hc : TotalPreorder cmp) (hi : i = height) (aimed : Bool) :
    ∃ l' w' new order' lane',
      Writer.store l (.linking height key prev l₀.nodes.length i aimed) = .ok (l', w', new) ∧
      Stored cmp good l (.linking height key prev l₀.nodes.length i aimed)
        (splicedOrder l₀.nodes.length before after i)
        (splicedLane (l₀.allocated height key) l₀.nodes.length before after i) l' w' new
        order' lane' := by
  have hpos := hpending.height_pos
  have hle := hpending.raised.trans h.maxHeight_le
  have hshared := h.splicing_shared hc hgood hcuts hpending hs
  have horder : splicedOrder l₀.nodes.length before after i = insertOrder cmp l₀ order key := by
    rw [splicedOrder, if_pos (by omega), hcuts.before_eq, hcuts.after_eq]
    rfl
  have hrep : Represents cmp l (splicedOrder l₀.nodes.length before after i) := by
    rw [horder]
    refine h.spliced hc key height hpos hle l ?_ hs.height_eq hs.keyOf_eq
    rw [← hcuts.before_eq, ← hcuts.after_eq]
    rwa [hi] at hs
  have hcall : (Writer.linking height key prev l₀.nodes.length i aimed).call = some (key, true) := by
    rw [Writer.call, decide_eq_true (show 0 < i by omega)]
  refine ⟨l, .idle, [.insertReturned], _, _, ?_, .idle _ hrep hshared.good,
    ⟨List.Sublist.refl _, fun level => ?_, fun _ _ => rfl⟩, .returned key rfl hcall rfl⟩
  · rw [Writer.store, if_neg (by omega)]
    rfl
  · have hnew : (l₀.allocated height key).tower level [l₀.nodes.length] =
        if level < i then [l₀.nodes.length] else [] := by
      simp [tower, allocated_height, hi, List.filter_cons]
    rw [splicedOrder, if_pos (by omega), hs.shape.tower, ← List.singleton_append, tower_append,
      tower_append, hnew, splicedLane]
    split
    · exact List.Sublist.refl _
    · exact List.Sublist.refl _

end Linking

theorem Writes.store (h : Writes cmp good l w order lane) (hc : TotalPreorder cmp) :
    ∃ l' w' new order' lane', w.store l = .ok (l', w', new) ∧
      Stored cmp good l w order lane l' w' new order' lane' := by
  cases h with
  | idle order hrep hgood =>
      exact ⟨l, .idle, [], _, _, rfl, .idle _ hrep hgood, .refl _ _ _, .nothing rfl rfl⟩
  | allocating order before after height key prev hrep hgood hcuts hpending =>
      exact hrep.store_allocating hgood hcuts hpending
  | linking l₀ order before after height key prev i aimed hrep hgood hcuts hpending hs hle haimed =>
      rcases Nat.lt_or_eq_of_le hle with hlt | heq
      · cases aimed with
        | false => exact store_aim hrep hgood hcuts hpending hs hlt
        | true => exact store_lead hrep hgood hcuts hpending hs hlt (haimed rfl).2
      · exact store_done hrep hgood hcuts hpending hs hc heq aimed

-- `Insert` begins: the search has filled `prev`, and `max_height_` is stored.
theorem Writes.insert {compare : Key → Key → Exec Int} (h : Writes cmp good l .idle order lane)
    (hc : TotalPreorder cmp) (hcompare : ∀ a b, good a → good b → compare a b = .ok (cmp a b))
    (height : Nat) (key : Key) (hpos : 1 ≤ height) (hle : height ≤ kMaxHeight) (hkey : good key) :
    ∃ prev l', l.fillPrev compare height key = .ok prev ∧
      l' = (if height > l.maxHeight then { l with maxHeight := height } else l) ∧
      Writes cmp good l' (.allocating height key prev) order lane ∧
      Grows l order lane l' order lane := by
  cases h with
  | idle order hrep hgood =>
      have ha : Agrees compare cmp l order key := fun x hx => hcompare _ _ (hgood x hx) hkey
      obtain ⟨prev, hprev, hslots⟩ := hrep.fillPrev_eq hc key height hle ha
      have hraise : (if height > l.maxHeight then { l with maxHeight := height } else l) =
          { l with maxHeight := max l.maxHeight height } := by
        split
        · rw [Nat.max_eq_right (by omega)]
        · rw [Nat.max_eq_left (by omega)]
      refine ⟨prev, _, hprev, rfl, ?_, ?_⟩
      · rw [hraise]
        exact .allocating order _ _ height key prev
          (hrep.raise (Nat.le_max_left _ _) (Nat.max_le.mpr ⟨hrep.maxHeight_le, hle⟩)) hgood
          ⟨rfl, rfl, hrep.split hc key⟩ ⟨hpos, Nat.le_max_right _ _, hkey, hslots⟩
      · rw [hraise]
        exact ⟨List.Sublist.refl _, fun _ => List.Sublist.refl _, fun _ _ => rfl⟩

end Writer

end Mylldb.SkipList

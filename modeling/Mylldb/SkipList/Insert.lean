import Mylldb.SkipList.Represents

namespace Mylldb.SkipList

open Lib.LinkedChain Lib.Run Lib.ThreeWay

variable {Key : Type} [Inhabited Key]

-- Two lists that differ in their links only.
structure SameShape (l l' : SkipList Key) : Prop where
  length : l'.nodes.length = l.nodes.length
  maxHeight : l'.maxHeight = l.maxHeight
  height : ∀ x, l'.height x = l.height x
  keyOf : ∀ x, l'.keyOf x = l.keyOf x

theorem SameShape.refl (l : SkipList Key) : SameShape l l := ⟨rfl, rfl, fun _ => rfl, fun _ => rfl⟩

theorem SameShape.trans {l l₁ l₂ : SkipList Key} (h₁ : SameShape l l₁) (h₂ : SameShape l₁ l₂) :
    SameShape l l₂ :=
  ⟨h₂.length.trans h₁.length, h₂.maxHeight.trans h₁.maxHeight,
    fun x => (h₂.height x).trans (h₁.height x), fun x => (h₂.keyOf x).trans (h₁.keyOf x)⟩

theorem SameShape.tower {l l' : SkipList Key} (h : SameShape l l') (level : Nat) (xs : List Nat) :
    l'.tower level xs = l.tower level xs := by
  simp only [SkipList.tower, h.height]

theorem read_ofPointer (o : Option Nat) : Slot.read (Slot.ofPointer o) = .ok o := by
  cases o <;> rfl

omit [Inhabited Key] in
theorem height_eq (l : SkipList Key) (x : Nat) (hx : x < l.nodes.length) :
    l.height x = l.nodes[x].next.length := by
  simp [height, hx]

omit [Inhabited Key] in
theorem lt_length_of_height (l : SkipList Key) (x n : Nat) (hn : n < l.height x) :
    x < l.nodes.length := by
  by_contra hx
  simp [height, List.getElem?_eq_none (Nat.le_of_not_lt hx)] at hn

-- One store into a link that exists changes that link and nothing else.
theorem setNext_spec (l : SkipList Key) (x n : Nat) (o : Option Nat) (hn : n < l.height x) :
    ∃ l', l.setNext (some x) n o = .ok l' ∧ SameShape l l' ∧
      l'.next (some x) n = .ok o ∧
      ∀ y m, (y ≠ x ∨ m ≠ n) → l'.next (some y) m = l.next (some y) m := by
  have hx := lt_length_of_height l x n hn
  rw [height_eq l x hx] at hn
  refine ⟨{ l with nodes := l.nodes.set x ⟨l.nodes[x].key,
    l.nodes[x].next.set n (Slot.ofPointer o)⟩ }, ?_, ?_, ?_, ?_⟩
  · simp [setNext, deref_eq l x hx, writeSlot, hn]
  · refine ⟨by simp, rfl, fun y => ?_, fun y => ?_⟩
    · by_cases hy : y = x
      · subst hy
        simp [height, hx]
      · simp [height, List.getElem?_set_ne (Ne.symm hy)]
    · by_cases hy : y = x
      · subst hy
        simp [SkipList.keyOf, hx]
      · simp [SkipList.keyOf, List.getElem?_set_ne (Ne.symm hy)]
  · simp [SkipList.next, deref, hx, readSlot, hn, read_ofPointer]
  · intro y m hne
    by_cases hy : y = x
    · subst hy
      have hm : m ≠ n := hne.resolve_left (fun h => h rfl)
      simp [SkipList.next, deref, hx, readSlot, List.getElem?_set_ne (Ne.symm hm)]
    · simp [SkipList.next, deref, List.getElem?_set_ne (Ne.symm hy)]

theorem raiseHeight_spec (maxHeight height : Nat) (slots : List Slot)
    (hlen : slots.length = kMaxHeight) (hle : height ≤ kMaxHeight) :
    ∃ slots', raiseHeight maxHeight height slots = .ok slots' ∧ slots'.length = kMaxHeight ∧
      (∀ i, i < maxHeight → slots'[i]? = slots[i]?) ∧
      ∀ i, maxHeight ≤ i → i < height → slots'[i]? = some (.node 0) := by
  obtain ⟨slots', hrun, hl, hlow, hhigh⟩ := foldlM_range
    (fun slots i => writeSlot slots (maxHeight + i) (some 0))
    (fun n slots' => slots'.length = kMaxHeight ∧ (∀ i, i < maxHeight → slots'[i]? = slots[i]?) ∧
      ∀ i, maxHeight ≤ i → i < maxHeight + n → slots'[i]? = some (.node 0))
    (height - maxHeight) (by
      intro i hi s ⟨hl, hlow, hhigh⟩
      refine ⟨_, if_pos (by omega), by simpa using hl, fun j hj => ?_, fun j hj hj' => ?_⟩
      · rw [List.getElem?_set_ne (by omega), hlow j hj]
      · by_cases he : j = maxHeight + i
        · subst he
          exact List.getElem?_set_self (by omega)
        · rw [List.getElem?_set_ne (by omega), hhigh j hj (by omega)])
    slots ⟨hlen, fun _ _ => rfl, fun i hi hi' => by omega⟩
  exact ⟨slots', hrun, hl, hlow, fun i hi hi' => hhigh i hi (by omega)⟩

omit [Inhabited Key] in
theorem newNode_height (l : SkipList Key) (key : Key) (height x : Nat) :
    (l.newNode key height).1.height x = if x = l.nodes.length then height else l.height x := by
  by_cases hx : x = l.nodes.length
  · subst hx
    simp [newNode, SkipList.height]
  · simp only [newNode, SkipList.height, hx, ite_false]
    by_cases hlt : x < l.nodes.length
    · rw [List.getElem?_append_left hlt]
    · rw [List.getElem?_eq_none (by simp; omega), List.getElem?_eq_none (by omega)]

theorem newNode_keyOf (l : SkipList Key) (key : Key) (height x : Nat) :
    (l.newNode key height).1.keyOf x = if x = l.nodes.length then key else l.keyOf x := by
  by_cases hx : x = l.nodes.length
  · subst hx
    simp [newNode, keyOf]
  · simp only [newNode, keyOf, hx, ite_false]
    by_cases hlt : x < l.nodes.length
    · rw [List.getElem?_append_left hlt]
    · rw [List.getElem?_eq_none (by simp; omega), List.getElem?_eq_none (by omega)]

omit [Inhabited Key] in
theorem newNode_next (l : SkipList Key) (key : Key) (height x n : Nat) (hx : x < l.nodes.length) :
    (l.newNode key height).1.next (some x) n = l.next (some x) n := by
  simp [newNode, next, deref, List.getElem?_append_left hx]

theorem spliceLevel_spec (l : SkipList Key) (x p i : Nat) (slots : List Slot) (o : Option Nat)
    (hslot : slots[i]? = some (.node p)) (ho : l.next (some p) i = .ok o)
    (hx : i < l.height x) (hp : i < l.height p) (hne : p ≠ x) :
    ∃ l', spliceLevel x slots l i = .ok l' ∧ SameShape l l' ∧
      l'.next (some x) i = .ok o ∧ l'.next (some p) i = .ok (some x) ∧
      ∀ y m, (m ≠ i ∨ y ≠ x ∧ y ≠ p) → l'.next (some y) m = l.next (some y) m := by
  obtain ⟨l₁, h₁, hs₁, hx₁, hother₁⟩ := setNext_spec l x i o hx
  obtain ⟨l₂, h₂, hs₂, hp₂, hother₂⟩ := setNext_spec l₁ p i (some x) (by rwa [hs₁.height])
  refine ⟨l₂, ?_, hs₁.trans hs₂, ?_, hp₂, fun y m hy => ?_⟩
  · simp [spliceLevel, readSlot, hslot, Slot.read, ho, h₁, h₂]
  · rw [hother₂ x i (Or.inl (Ne.symm hne)), hx₁]
  · rw [hother₂ y m (by omega), hother₁ y m (by omega)]

-- The levels below `i` already run through the new node `x`, the others not yet.
structure Splicing (l₀ : SkipList Key) (x : Nat) (before after : List Nat) (i : Nat)
    (l : SkipList Key) : Prop where
  shape : SameShape l₀ l
  done : ∀ level < kMaxHeight, level < i →
    Chain (l.link level) 0 (l₀.tower level before ++ x :: l₀.tower level after)
  rest : ∀ level < kMaxHeight, i ≤ level →
    Chain (l.link level) 0 (l₀.tower level before ++ l₀.tower level after)

theorem Splicing.step {l₀ l : SkipList Key} {x i : Nat} {before after : List Nat}
    (h : Splicing l₀ x before after i l) (slots : List Slot) (hi : i < kMaxHeight)
    (hslot : slots[i]? = some (.node ((l₀.tower i before).getLastD 0)))
    (hhead : l₀.height 0 = kMaxHeight) (hx : i < l₀.height x)
    (hnodup : (0 :: (before ++ after)).Nodup) (hnew : x ∉ 0 :: (before ++ after)) :
    ∃ l', spliceLevel x slots l i = .ok l' ∧ Splicing l₀ x before after (i + 1) l' := by
  have hchain := h.rest i hi (Nat.le_refl i)
  have hsub : (0 :: (l₀.tower i before ++ l₀.tower i after)).Sublist (0 :: (before ++ after)) := by
    rw [← tower_append]
    exact List.filter_sublist.cons_cons 0
  have hlast : (l₀.tower i before).getLastD 0 ∈ 0 :: l₀.tower i before := List.getLastD_mem_cons
  have hp : i < l₀.height ((l₀.tower i before).getLastD 0) := by
    rcases List.mem_cons.mp hlast with he | hm
    · rw [he, hhead]
      exact hi
    · exact of_decide_eq_true (List.mem_filter.mp hm).2
  have hne : (l₀.tower i before).getLastD 0 ≠ x := by
    intro he
    rw [he] at hlast
    exact hnew (hsub.subset ((List.sublist_append_left _ _).cons_cons 0 |>.subset hlast))
  obtain ⟨l', hrun, hshape, hx', hp', hother⟩ := spliceLevel_spec l x _ i slots _ hslot
    hchain.suffix.head (by rwa [h.shape.height]) (by rwa [h.shape.height]) hne
  refine ⟨l', hrun, h.shape.trans hshape, fun level hlevel hdone => ?_, fun level hlevel hrest => ?_⟩
  · by_cases he : level = i
    · subst he
      refine hchain.splice (hnodup.sublist hsub) (fun o ho => ?_) hp' fun y hy hyp o ho => ?_
      · rw [link, hx', ← link_unique l level _ _ _ hchain.suffix.head ho]
      · have hyx : y ≠ x := by
          rintro rfl
          exact hnew (hsub.subset hy)
        exact (hother y level (Or.inr ⟨hyx, hyp⟩)).trans ho
    · refine (h.done level hlevel (by omega)).congr fun y _ o ho => ?_
      exact (hother y level (Or.inl he)).trans ho
  · refine (h.rest level hlevel (by omega)).congr fun y _ o ho => ?_
    exact (hother y level (Or.inl (by omega))).trans ho

section Insert

variable {compare : Key → Key → Exec Int} {cmp : Key → Key → Int} {l : SkipList Key}
  {order : List Nat}

theorem Represents.tower_eq_nil (h : Represents cmp l order) (level : Nat)
    (hlevel : l.maxHeight ≤ level) (xs : List Nat) (hxs : xs ⊆ order) : l.tower level xs = [] := by
  apply List.filter_eq_nil_iff.mpr
  intro x hx
  have := h.height_le x (hxs hx)
  simp only [decide_eq_true_eq]
  omega

-- Every entry of `prev` below the drawn height has been written: the search
-- wrote the levels in use and the loop for a tall node wrote the others.
theorem Represents.fillPrev_eq (h : Represents cmp l order) (hc : TotalPreorder cmp) (key : Key)
    (height : Nat) (hle : height ≤ kMaxHeight) (ha : Agrees compare cmp l order key) :
    ∃ prev, l.fillPrev compare height key = .ok prev ∧ ∀ i < height,
      prev[i]? = some (.node ((l.tower i (order.filter (l.lessThan cmp key))).getLastD 0)) := by
  have hpos := h.maxHeight_pos
  obtain ⟨prev', hrun, hwritten⟩ := h.findGreaterOrEqual_eq hc key ha
    (some (List.replicate kMaxHeight .garbage)) (by simp)
  cases prev' with
  | none => exact hwritten.elim
  | some slots =>
      obtain ⟨hlen, hat, -⟩ := hwritten
      simp only [List.length_replicate] at hlen
      by_cases hh : height > l.maxHeight
      · obtain ⟨slots', hraise, -, hlow, hhigh⟩ :=
          raiseHeight_spec l.maxHeight height slots hlen hle
        refine ⟨slots', by simp [fillPrev, hrun, hh, hraise], fun i hi => ?_⟩
        by_cases hlevel : i < l.maxHeight
        · rw [hlow i hlevel, hat i (by omega)]
        · rw [hhigh i (by omega) hi, h.tower_eq_nil i (by omega) _ List.filter_sublist.subset]
          rfl
      · exact ⟨slots, by simp [fillPrev, hrun, hh], fun i hi => hat i (by omega)⟩

-- The node is placed behind the keys that sort before it and before its equals.
def insertOrder (cmp : Key → Key → Int) (l : SkipList Key) (order : List Nat) (key : Key) :
    List Nat :=
  order.filter (l.lessThan cmp key) ++ l.nodes.length ::
    order.filter fun x => !l.lessThan cmp key x

-- The state before the splices: the new node is allocated, no link leads to it.
def allocated (l : SkipList Key) (height : Nat) (key : Key) : SkipList Key :=
  ({ l with maxHeight := max l.maxHeight height }.newNode key height).1

omit [Inhabited Key] in
theorem allocated_height (l : SkipList Key) (height : Nat) (key : Key) (x : Nat) :
    (l.allocated height key).height x = if x = l.nodes.length then height else l.height x :=
  newNode_height { l with maxHeight := max l.maxHeight height } key height x

theorem allocated_keyOf (l : SkipList Key) (height : Nat) (key : Key) (x : Nat) :
    (l.allocated height key).keyOf x = if x = l.nodes.length then key else l.keyOf x :=
  newNode_keyOf { l with maxHeight := max l.maxHeight height } key height x

theorem Represents.allocated_tower (h : Represents cmp l order) (height : Nat) (key : Key)
    (level : Nat) (xs : List Nat) (hxs : xs ⊆ order) :
    (l.allocated height key).tower level xs = l.tower level xs := by
  apply List.filter_congr
  intro x hx
  have hne : x ≠ l.nodes.length := by
    have := (h.lt_length x (hxs hx)).2
    omega
  rw [allocated_height, if_neg hne]

theorem Represents.new_notMem (h : Represents cmp l order) : l.nodes.length ∉ 0 :: order := by
  intro hm
  have hlen := h.length_pos
  rcases List.mem_cons.mp hm with he | hm
  · omega
  · have hlt := (h.lt_length _ hm).2
    omega

theorem Represents.allocated_splicing (h : Represents cmp l order) (height : Nat) (key : Key)
    (before after : List Nat) (hsplit : before ++ after = order) :
    Splicing (l.allocated height key) l.nodes.length before after 0 (l.allocated height key) where
  shape := SameShape.refl _
  done level _ hlevel := by omega
  rest level hlevel _ := by
    rw [← tower_append, hsplit, h.allocated_tower height key level order (List.Subset.refl _)]
    refine (h.chain level hlevel).congr fun x hx o ho => ?_
    have hlt : x < l.nodes.length := by
      rcases List.mem_cons.mp hx with rfl | hm
      · exact h.length_pos
      · exact (h.lt_length x (List.mem_of_mem_filter hm)).2
    exact (newNode_next { l with maxHeight := max l.maxHeight height } key height x level hlt).trans ho

theorem Represents.insertOrder_perm (h : Represents cmp l order) (hc : TotalPreorder cmp)
    (key : Key) : (insertOrder cmp l order key).Perm (List.range' 1 l.nodes.length) := by
  have hrange : List.range' 1 l.nodes.length =
      List.range' 1 (l.nodes.length - 1) ++ [l.nodes.length] := by
    obtain ⟨n, hn⟩ := Nat.exists_eq_add_of_lt h.length_pos
    rw [hn]
    simp [List.range'_concat, Nat.add_comm]
  have hcons : (insertOrder cmp l order key).Perm (l.nodes.length :: order) := by
    have hmiddle : (insertOrder cmp l order key).Perm (l.nodes.length ::
        (order.filter (l.lessThan cmp key) ++ order.filter fun x => !l.lessThan cmp key x)) :=
      List.perm_middle
    rwa [h.split hc key] at hmiddle
  rw [hrange]
  exact (hcons.trans (h.perm.cons _)).trans (List.perm_append_singleton _ _).symm

theorem Represents.mem_insertOrder (h : Represents cmp l order) (hc : TotalPreorder cmp)
    (key : Key) (x : Nat) :
    x ∈ insertOrder cmp l order key ↔ x = l.nodes.length ∨ x ∈ order := by
  have hm := congrArg (x ∈ ·) (h.split hc key)
  simp only [List.mem_append, eq_iff_iff] at hm
  simp only [insertOrder, List.mem_append, List.mem_cons, ← hm]
  exact or_left_comm

-- The new key sorts behind the keys before it and not behind the keys after it.
-- Nodes are numbered in the order of insertion, so among equal keys it is first.
theorem Represents.insertOrder_sorted (h : Represents cmp l order) (hc : TotalPreorder cmp)
    (key : Key) (l' : SkipList Key)
    (hkey : ∀ x, l'.keyOf x = if x = l.nodes.length then key else l.keyOf x) :
    (insertOrder cmp l order key).Pairwise fun x y => cmp (l'.keyOf x) (l'.keyOf y) < 0 ∨
      cmp (l'.keyOf x) (l'.keyOf y) = 0 ∧ y < x := by
  have hlt : ∀ x ∈ order, x < l.nodes.length := fun x hx => (h.lt_length x hx).2
  have hold : ∀ x ∈ order, l'.keyOf x = l.keyOf x := fun x hx => by
    rw [hkey, if_neg (Nat.ne_of_lt (hlt x hx))]
  have hnew : l'.keyOf l.nodes.length = key := by rw [hkey, if_pos rfl]
  have hsorted : order.Pairwise fun x y => cmp (l'.keyOf x) (l'.keyOf y) < 0 ∨
      cmp (l'.keyOf x) (l'.keyOf y) = 0 ∧ y < x :=
    h.sorted.imp_of_mem fun {x y} hx hy hxy => by rwa [hold x hx, hold y hy]
  have hparts := hsorted
  rw [← h.split hc key, List.pairwise_append] at hparts
  refine List.pairwise_append.mpr ⟨hparts.1, List.pairwise_cons.mpr ⟨fun y hy => ?_, hparts.2.1⟩,
    fun x hx y hy => ?_⟩
  · obtain ⟨hm, hge⟩ := List.mem_filter.mp hy
    simp only [lessThan, Bool.not_eq_true', decide_eq_false_iff_not] at hge
    have hle := (hc.nonneg_iff (l.keyOf y) key).mp (by omega)
    have hlty := hlt y hm
    rw [hnew, hold y hm]
    omega
  · rcases List.mem_cons.mp hy with rfl | hy
    · obtain ⟨hm, hlt⟩ := List.mem_filter.mp hx
      rw [hnew, hold x hm]
      exact Or.inl (of_decide_eq_true hlt)
    · exact hparts.2.2 x hx y hy

theorem Represents.spliced (h : Represents cmp l order) (hc : TotalPreorder cmp) (key : Key)
    (height : Nat) (hpos : 1 ≤ height) (hle : height ≤ kMaxHeight) (l' : SkipList Key)
    (hl' : Splicing (l.allocated height key) l.nodes.length (order.filter (l.lessThan cmp key))
      (order.filter fun x => !l.lessThan cmp key x) height l')
    (hheight : ∀ x, l'.height x = if x = l.nodes.length then height else l.height x)
    (hkey : ∀ x, l'.keyOf x = if x = l.nodes.length then key else l.keyOf x) :
    Represents cmp l' (insertOrder cmp l order key) where
  head_height := by
    have := h.length_pos
    rw [hheight, if_neg (by omega), h.head_height]
  maxHeight_pos := by
    have := h.maxHeight_pos
    rw [hl'.shape.maxHeight]
    exact this.trans (Nat.le_max_left _ _)
  maxHeight_le := by
    rw [hl'.shape.maxHeight]
    exact Nat.max_le.mpr ⟨h.maxHeight_le, hle⟩
  perm := by
    rw [hl'.shape.length]
    simpa [allocated, newNode] using h.insertOrder_perm hc key
  height_pos x hx := by
    rw [hheight]
    rcases (h.mem_insertOrder hc key x).mp hx with rfl | hx
    · simpa using hpos
    · split
      · exact hpos
      · exact h.height_pos x hx
  height_le x hx := by
    rw [hheight, hl'.shape.maxHeight]
    change _ ≤ max l.maxHeight height
    rcases (h.mem_insertOrder hc key x).mp hx with rfl | hx
    · rw [if_pos rfl]
      exact Nat.le_max_right _ _
    · have := h.height_le x hx
      split <;> omega
  chain level hlevel := by
    have htower : l'.tower level [l.nodes.length] = if level < height then [l.nodes.length] else [] := by
      simp [tower, hheight, List.filter_cons]
    have happend : l'.tower level (insertOrder cmp l order key) =
        (l.allocated height key).tower level (order.filter (l.lessThan cmp key)) ++
          (l'.tower level [l.nodes.length] ++ (l.allocated height key).tower level
            (order.filter fun x => !l.lessThan cmp key x)) := by
      rw [insertOrder, ← List.singleton_append, tower_append, tower_append, hl'.shape.tower,
        hl'.shape.tower, hl'.shape.tower]
    rw [happend, htower]
    by_cases hlt : level < height
    · simpa [hlt] using hl'.done level hlevel hlt
    · simpa [hlt] using hl'.rest level hlevel (by omega)
  sorted := h.insertOrder_sorted hc key l' hkey

theorem Represents.insert (h : Represents cmp l order) (hc : TotalPreorder cmp) (key : Key)
    (height : Nat) (hpos : 1 ≤ height) (hle : height ≤ kMaxHeight)
    (ha : Agrees compare cmp l order key) :
    ∃ l', l.insert compare height key = .ok l' ∧
      Represents cmp l' (insertOrder cmp l order key) ∧
      l'.nodes.length = l.nodes.length + 1 ∧ l'.maxHeight = max l.maxHeight height ∧
      (∀ x, l'.height x = if x = l.nodes.length then height else l.height x) ∧
      ∀ x, l'.keyOf x = if x = l.nodes.length then key else l.keyOf x := by
  obtain ⟨prev, hprev, hslots⟩ := h.fillPrev_eq hc key height hle ha
  have hsplit := h.split hc key
  have hbefore : order.filter (l.lessThan cmp key) ⊆ order := List.filter_sublist.subset
  have hhead : (l.allocated height key).height 0 = kMaxHeight := by
    have hlen := h.length_pos
    rw [allocated_height, if_neg (by omega), h.head_height]
  obtain ⟨l', hrun, hl'⟩ := foldlM_range (spliceLevel l.nodes.length prev)
    (Splicing (l.allocated height key) l.nodes.length (order.filter (l.lessThan cmp key))
      (order.filter fun x => !l.lessThan cmp key x)) height
    (fun i hi s hs => by
      refine hs.step prev (by omega) ?_ hhead (by rwa [allocated_height, if_pos rfl]) ?_ ?_
      · rw [hslots i hi, h.allocated_tower height key i _ hbefore]
      · rw [hsplit]
        exact h.nodup
      · rw [hsplit]
        exact h.new_notMem)
    _ (h.allocated_splicing height key _ _ hsplit)
  have hraise : (if height > l.maxHeight then { l with maxHeight := height } else l) =
      { l with maxHeight := max l.maxHeight height } := by
    split
    · rw [Nat.max_eq_right (by omega)]
    · rw [Nat.max_eq_left (by omega)]
  have hinsert : l.insert compare height key = .ok l' := by
    simp only [SkipList.insert, hprev, ok_bind, hraise]
    exact hrun
  have hheight' : ∀ x, l'.height x = if x = l.nodes.length then height else l.height x :=
    fun x => (hl'.shape.height x).trans (allocated_height l height key x)
  have hkey' : ∀ x, l'.keyOf x = if x = l.nodes.length then key else l.keyOf x :=
    fun x => (hl'.shape.keyOf x).trans (allocated_keyOf l height key x)
  refine ⟨l', hinsert, h.spliced hc key height hpos hle l' hl' hheight' hkey', ?_,
    hl'.shape.maxHeight, hheight', hkey'⟩
  rw [hl'.shape.length]
  simp [allocated, newNode]

end Insert

end Mylldb.SkipList

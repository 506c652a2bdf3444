import Mylldb.SkipList.Traversal

namespace Mylldb.SkipList

open Lib.LinkedChain Lib.Run Lib.ThreeWay

variable {Key : Type} [Inhabited Key] {cmp : Key → Key → Int} {l : SkipList Key}
  {order : List Nat}

-- A scan of the nodes `xs` for the first one whose key is not less than the target.
def firstAtLeast (cmp : Key → Key → Int) (l : SkipList Key) (key : Key) (xs : List Nat) :
    Option Nat :=
  xs.find? fun x => decide (0 ≤ cmp (l.keyOf x) key)

-- A scan for the last one whose key is less, or the head.
def lastLess (cmp : Key → Key → Int) (l : SkipList Key) (key : Key) (xs : List Nat) : Nat :=
  (xs.filter (l.lessThan cmp key)).getLastD 0

-- What the searches answer is what scans of the levels find. Node `i + 1` is the node
-- of the `i`-th key.
structure Scans (cmp : Key → Key → Int) (keys : List Key) (l : SkipList Key)
    (order : List Nat) : Prop where
  keyOf : ∀ i key, keys[i]? = some key → l.keyOf (i + 1) = key
  bottom : Chain (l.link 0) 0 order
  levels : ∀ level < kMaxHeight,
    Chain (l.link level) 0 (order.filter fun x => decide (level < l.height x))
  findGreaterOrEqual : ∀ key, l.findGreaterOrEqual (fun a b => .ok (cmp a b)) key none =
    .ok (firstAtLeast cmp l key order, none)
  findGreaterOrEqual_prev : ∀ key slots, slots.length = kMaxHeight →
    ∃ slots', l.findGreaterOrEqual (fun a b => .ok (cmp a b)) key (some slots) =
      .ok (firstAtLeast cmp l key order, some slots') ∧
      ∀ level < l.maxHeight, slots'[level]? =
        some (.node (lastLess cmp l key (order.filter fun x => decide (level < l.height x))))
  findLessThan : ∀ key, l.findLessThan (fun a b => .ok (cmp a b)) key =
    .ok (some (lastLess cmp l key order))
  findLast : l.findLast = .ok (some (order.getLastD 0))
  contains : ∀ key, ∃ found, l.contains (fun a b => .ok (cmp a b)) key = .ok found ∧
    (found = true ↔ ∃ k ∈ keys, cmp k key = 0)

theorem firstAtLeast_eq (l : SkipList Key) (key : Key) (xs : List Nat) :
    (xs.filter fun x => !l.lessThan cmp key x).head? = firstAtLeast cmp l key xs := by
  rw [List.head?_filter, firstAtLeast]
  congr 1
  funext x
  rw [lessThan, ← decide_not, decide_eq_decide]
  omega

omit [Inhabited Key] in
-- The cut of a level is the level of the cut.
theorem tower_filter (l : SkipList Key) (level : Nat) (p : Nat → Bool) (xs : List Nat) :
    l.tower level (xs.filter p) = (l.tower level xs).filter p := by
  rw [tower, tower, List.filter_filter, List.filter_filter]
  congr 1
  funext x
  exact Bool.and_comm _ _

theorem Represents.findGreaterOrEqual_null (h : Represents cmp l order) (hc : TotalPreorder cmp)
    (key : Key) : l.findGreaterOrEqual (fun a b => .ok (cmp a b)) key none =
      .ok (firstAtLeast cmp l key order, none) := by
  obtain ⟨prev', hrun, hwritten⟩ :=
    h.findGreaterOrEqual_eq hc key (agrees_ok cmp l order key) none (by simp)
  cases prev' with
  | none => rw [hrun, firstAtLeast_eq]
  | some slots => exact hwritten.elim

theorem Represents.findGreaterOrEqual_prev (h : Represents cmp l order) (hc : TotalPreorder cmp)
    (key : Key) (slots : List Slot) (hslots : slots.length = kMaxHeight) :
    ∃ slots', l.findGreaterOrEqual (fun a b => .ok (cmp a b)) key (some slots) =
      .ok (firstAtLeast cmp l key order, some slots') ∧
      ∀ level < l.maxHeight, slots'[level]? =
        some (.node (lastLess cmp l key (l.tower level order))) := by
  obtain ⟨prev', hrun, hwritten⟩ :=
    h.findGreaterOrEqual_eq hc key (agrees_ok cmp l order key) (some slots) (by
      intro slots' hmem
      rw [← Option.some.inj hmem, hslots])
  cases prev' with
  | none => exact hwritten.elim
  | some slots' =>
      refine ⟨slots', by rw [hrun, firstAtLeast_eq], ?_⟩
      intro level hlevel
      rw [hwritten.2.1 level (by omega), tower_filter]
      rfl

-- Where a key compares equal to the target, so does the first one that is not less.
theorem Represents.first_equal (h : Represents cmp l order) (hc : TotalPreorder cmp) (key : Key)
    (x y : Nat) (hx : firstAtLeast cmp l key order = some x) (hy : y ∈ order)
    (hequal : cmp (l.keyOf y) key = 0) : cmp (l.keyOf x) key = 0 := by
  have hge : 0 ≤ cmp (l.keyOf x) key := by
    have hfound := List.find?_some hx
    exact of_decide_eq_true hfound
  rw [firstAtLeast, ← List.head?_filter] at hx
  have hle : cmp (l.keyOf x) (l.keyOf y) ≤ 0 := by
    rcases head_filter_rel _ order h.sorted x hx y hy (by
      rw [hequal]
      rfl) with rfl | hxy
    · exact Int.le_of_eq (hc.refl _)
    · omega
  have hbound := hc.trans _ _ key hle (Int.le_of_eq hequal)
  omega

theorem Represents.contains_eq (h : Represents cmp l order) (hc : TotalPreorder cmp) (key : Key) :
    ∃ found, l.contains (fun a b => .ok (cmp a b)) key = .ok found ∧
      (found = true ↔ ∃ x ∈ order, cmp (l.keyOf x) key = 0) := by
  rw [contains, h.findGreaterOrEqual_null hc key, ok_bind]
  cases hx : firstAtLeast cmp l key order with
  | none =>
      refine ⟨false, rfl, ?_⟩
      constructor
      · intro hfalse
        cases hfalse
      · rintro ⟨y, hy, hequal⟩
        have hless := List.find?_eq_none.mp hx y hy
        rw [hequal] at hless
        exact absurd rfl hless
  | some x =>
      have hmem := List.mem_of_find?_eq_some hx
      have hlt := (h.lt_length x hmem).2
      refine ⟨decide (cmp key (l.keyOf x) = 0), ?_, ?_⟩
      · dsimp only
        rw [deref_eq l x hlt, ok_bind, equal, ok_bind, pure_eq, keyOf_eq l x hlt]
      · rw [decide_eq_true_eq, hc.zero_comm]
        constructor
        · intro hequal
          exact ⟨x, hmem, hequal⟩
        · rintro ⟨y, hy, hequal⟩
          exact h.first_equal hc key x y hx hy hequal

-- The nodes hold the inserted keys.
theorem Represents.exists_node_iff (h : Represents cmp l order) {inserts : List (Nat × Key)}
    (hhist : History inserts l) (p : Key → Prop) :
    (∃ x ∈ order, p (l.keyOf x)) ↔ ∃ k ∈ inserts.map (·.2), p k := by
  have hperm := h.perm_inserts hhist
  rw [← hhist.keys_eq]
  constructor
  · rintro ⟨x, hx, hp⟩
    exact ⟨_, List.mem_map_of_mem (hperm.mem_iff.mp hx), hp⟩
  · rintro ⟨_, hk, hp⟩
    obtain ⟨x, hx, rfl⟩ := List.mem_map.mp hk
    exact ⟨x, hperm.mem_iff.mpr hx, hp⟩

theorem Represents.scans (h : Represents cmp l order) (hc : TotalPreorder cmp)
    {inserts : List (Nat × Key)} (hhist : History inserts l) :
    Scans cmp (inserts.map (·.2)) l order where
  keyOf := by
    intro i key hkey
    rw [List.getElem?_map, Option.map_eq_some_iff] at hkey
    obtain ⟨p, hp, rfl⟩ := hkey
    exact hhist.keyOf i p hp
  bottom := h.bottom
  levels := h.chain
  findGreaterOrEqual := h.findGreaterOrEqual_null hc
  findGreaterOrEqual_prev := h.findGreaterOrEqual_prev hc
  findLessThan key := h.findLessThan_eq hc key (agrees_ok cmp l order key)
  findLast := h.findLast_eq
  contains := by
    intro key
    obtain ⟨found, hrun, hfound⟩ := h.contains_eq hc key
    exact ⟨found, hrun, hfound.trans (h.exists_node_iff hhist fun k => cmp k key = 0)⟩

-- The keys, in the order of insertion, determine the bottom level.
theorem Represents.order_unique {l' : SkipList Key} {order' : List Nat}
    (h : Represents cmp l order) (h' : Represents cmp l' order') (hc : TotalPreorder cmp)
    {inserts inserts' : List (Nat × Key)} (hhist : History inserts l)
    (hhist' : History inserts' l') (hkeys : inserts.map (·.2) = inserts'.map (·.2)) :
    order = order' := by
  have hlen : inserts.length = inserts'.length := by simpa using congrArg List.length hkeys
  have hperm := h.perm_inserts hhist
  have hperm' := h'.perm_inserts hhist'
  rw [← hlen] at hperm'
  have hsame : ∀ x ∈ order', l'.keyOf x = l.keyOf x := by
    intro x hx
    have hmaps := hhist'.keys_eq
    rw [← hkeys, ← hhist.keys_eq, ← hlen] at hmaps
    exact List.map_inj_left.mp hmaps x (hperm'.mem_iff.mp hx)
  have hsorted' : order'.Pairwise fun x y => cmp (l.keyOf x) (l.keyOf y) < 0 ∨
      cmp (l.keyOf x) (l.keyOf y) = 0 ∧ y < x :=
    h'.sorted.imp_of_mem fun {x y} hx hy hxy => by rwa [hsame x hx, hsame y hy] at hxy
  refine List.Perm.eq_of_pairwise ?_ h.sorted hsorted' (hperm.trans hperm'.symm)
  intro x y _ _ hxy hyx
  have hswap := hc.swap (l.keyOf x) (l.keyOf y)
  have hzero := hc.zero_comm (l.keyOf x) (l.keyOf y)
  omega

-- The scans are told by the keys alone: every choice of heights gives the same order of
-- the nodes and so the same answers.
theorem searches_scan (cmp : Key → Key → Int) (hc : TotalPreorder cmp) (keys : List Key) :
    ∃ order : List Nat, order.Perm (List.range' 1 keys.length) ∧
      ∀ inserts : List (Nat × Key), inserts.map (·.2) = keys →
        (∀ p ∈ inserts, 1 ≤ p.1 ∧ p.1 ≤ kMaxHeight) →
          ∃ l, insertAll (fun a b => .ok (cmp a b)) inserts = .ok l ∧ Scans cmp keys l order := by
  have hlow : ∀ p ∈ keys.map fun k => (1, k), 1 ≤ p.1 ∧ p.1 ≤ kMaxHeight := by
    intro p hp
    obtain ⟨k, -, rfl⟩ := List.mem_map.mp hp
    have hone : 1 ≤ kMaxHeight := by decide
    exact ⟨Nat.le_refl 1, hone⟩
  obtain ⟨l₀, -, hhist₀, order, hrep₀⟩ := insertAll_represents (fun a b => .ok (cmp a b)) cmp hc
    (keys.map fun k => (1, k)) hlow fun _ _ _ _ => rfl
  refine ⟨order, ?_, ?_⟩
  · have hperm := hrep₀.perm_inserts hhist₀
    rwa [List.length_map] at hperm
  · intro inserts hkeys hheights
    obtain ⟨l, hl, hhist, order', hrep⟩ := insertAll_represents (fun a b => .ok (cmp a b)) cmp hc
      inserts hheights fun _ _ _ _ => rfl
    have hsame : order' = order := by
      apply hrep.order_unique hrep₀ hc hhist hhist₀
      rw [hkeys, List.map_map]
      exact (List.map_id keys).symm
    subst hsame
    refine ⟨l, hl, ?_⟩
    rw [← hkeys]
    exact hrep.scans hc hhist

theorem searches_scan_sample : ∃ order l l',
    insertAll (fun a b : Int => .ok (a - b)) [(1, 5), (3, 2), (12, 5)] = .ok l ∧
      insertAll (fun a b : Int => .ok (a - b)) [(2, 5), (1, 2), (1, 5)] = .ok l' ∧
      Scans (fun a b => a - b) [5, 2, 5] l order ∧ Scans (fun a b => a - b) [5, 2, 5] l' order := by
  obtain ⟨order, -, hall⟩ := searches_scan _ subtract_totalPreorder [5, 2, 5]
  obtain ⟨l, hl, hscans⟩ := hall [(1, 5), (3, 2), (12, 5)] rfl (by decide)
  obtain ⟨l', hl', hscans'⟩ := hall [(2, 5), (1, 2), (1, 5)] rfl (by decide)
  exact ⟨order, l, l', hl, hl', hscans, hscans'⟩

end Mylldb.SkipList

import Mylldb.SkipList.Iterator

namespace Mylldb.SkipList

open Lib.LinkedChain Lib.Run Lib.ThreeWay

variable {Key : Type}

-- The nodes that an iterator stands on, from its position until it is not valid.
def visit (step : Iterator → Exec Iterator) : Nat → Iterator → Exec (List Nat)
  | 0, _ => .error .diverges
  | fuel + 1, it =>
      match it.node with
      | none => pure []
      | some x => do
          let it ← step it
          let rest ← visit step fuel it
          pure (x :: rest)

theorem visit_some (step : Iterator → Exec Iterator) (fuel x : Nat) (it : Iterator)
    (rest : List Nat) (hstep : step ⟨some x⟩ = .ok it) (hrest : visit step fuel it = .ok rest) :
    visit step (fuel + 1) ⟨some x⟩ = .ok (x :: rest) := by
  simp [visit, hstep, hrest]

-- `for (; it.Valid(); it.Next())`. No node is visited twice.
def walk (l : SkipList Key) (it : Iterator) : Exec (List Nat) :=
  visit (Iterator.next l) l.nodes.length it

def forward (l : SkipList Key) : Exec (List Nat) := do
  let it ← Iterator.seekToFirst l
  l.walk it

def backward (compare : Key → Key → Exec Int) (l : SkipList Key) : Exec (List Nat) := do
  let it ← Iterator.seekToLast l
  visit (Iterator.prev compare l) l.nodes.length it

section Represents

variable [Inhabited Key] {compare : Key → Key → Exec Int} {cmp : Key → Key → Int}
  {l : SkipList Key} {order : List Nat}

theorem Represents.visit_next (h : Represents cmp l order) (before after : List Nat)
    (horder : before ++ after = order) (fuel : Nat) (hfuel : after.length < fuel) :
    visit (Iterator.next l) fuel ⟨after.head?⟩ = .ok after := by
  induction after generalizing before fuel with
  | nil =>
      obtain ⟨fuel, rfl⟩ : ∃ n, fuel = n + 1 := ⟨fuel - 1, by omega⟩
      rfl
  | cons x after ih =>
      obtain ⟨fuel, rfl⟩ : ∃ n, fuel = n + 1 := ⟨fuel - 1, by omega⟩
      rw [List.length_cons] at hfuel
      have hnext := h.iterator_next_eq before after x horder
      have hrest := ih (before ++ [x]) (by simpa using horder) fuel (by omega)
      exact visit_some _ fuel x _ after hnext hrest

-- From any place, `Next` visits the rest of the order.
theorem Represents.walk_eq (h : Represents cmp l order) (before after : List Nat)
    (horder : before ++ after = order) : l.walk ⟨after.head?⟩ = .ok after := by
  apply h.visit_next before after horder
  have hlen := h.length_order
  rw [← horder, List.length_append] at hlen
  omega

theorem Represents.forward_eq (h : Represents cmp l order) : l.forward = .ok order := by
  have hwalk := h.walk_eq [] order rfl
  simp [forward, h.seekToFirst_eq, hwalk]

-- The head stands for no position.
theorem Represents.position_eq (h : Represents cmp l order) (before : List Nat)
    (hbefore : before ⊆ order) :
    (if some (before.getLastD 0) = some 0 then none else some (before.getLastD 0)) =
      before.getLast? := by
  cases hlast : before.getLast? with
  | none =>
      rw [List.getLast?_eq_none_iff.mp hlast]
      rfl
  | some x =>
      have hx := (h.lt_length x (hbefore (List.mem_of_getLast? hlast))).1
      have hget : before.getLastD 0 = x := by
        rw [List.getLastD_eq_getLast?, hlast, Option.getD_some]
      rw [hget, if_neg]
      intro heq
      have := Option.some.inj heq
      omega

theorem Represents.seekToLast_eq (h : Represents cmp l order) :
    Iterator.seekToLast l = .ok ⟨order.getLast?⟩ := by
  rw [Iterator.seekToLast, h.findLast_eq, ok_bind, pure_eq,
    h.position_eq order (List.Subset.refl _)]

-- `Prev` goes to the last node before the current one whose key is less.
theorem Represents.iterator_prev_eq (h : Represents cmp l order) (hc : TotalPreorder cmp)
    (before after : List Nat) (x : Nat) (horder : before ++ x :: after = order)
    (ha : Agrees compare cmp l order (l.keyOf x)) :
    Iterator.prev compare l ⟨some x⟩ =
      .ok ⟨(before.filter (l.lessThan cmp (l.keyOf x))).getLast?⟩ := by
  have hx : x ∈ order := by simp [← horder]
  have hlt := (h.lt_length x hx).2
  have hsorted := h.sorted
  rw [← horder] at hsorted
  have hafter : (x :: after).filter (l.lessThan cmp (l.keyOf x)) = [] := by
    apply List.filter_eq_nil_iff.mpr
    intro y hy hless
    have hless : cmp (l.keyOf y) (l.keyOf x) < 0 := of_decide_eq_true hless
    have hle : cmp (l.keyOf x) (l.keyOf y) ≤ 0 := by
      rcases List.mem_cons.mp hy with rfl | hy
      · exact Int.le_of_eq (hc.refl _)
      · have hxy := List.rel_of_pairwise_cons (List.pairwise_append.mp hsorted).2.1 hy
        omega
    have hswap := (hc.swap _ _).mp hless
    omega
  have hfilter : order.filter (l.lessThan cmp (l.keyOf x)) =
      before.filter (l.lessThan cmp (l.keyOf x)) := by
    rw [← horder, List.filter_append, hafter, List.append_nil]
  have hsubset : before.filter (l.lessThan cmp (l.keyOf x)) ⊆ order := by
    rw [← hfilter]
    exact List.filter_sublist.subset
  have hfind := h.findLessThan_eq hc (l.keyOf x) ha
  rw [hfilter, keyOf_eq l x hlt] at hfind
  have hvalid : Iterator.valid ⟨some x⟩ = true := rfl
  rw [Iterator.prev, assertThat_pos hvalid, ok_bind, deref_eq l x hlt, ok_bind, hfind,
    ok_bind, pure_eq, ← keyOf_eq l x hlt, h.position_eq _ hsubset]

-- The nodes of a prefix whose keys sort strictly before a node behind it are a prefix.
theorem Represents.filter_prefix (h : Represents cmp l order) (hc : TotalPreorder cmp)
    (before after : List Nat) (horder : before ++ after = order) (key : Key) :
    before.filter (l.lessThan cmp key) <+: before := by
  have hsorted := h.sorted
  rw [← horder] at hsorted
  have hsplit := filter_append_filter_not (l.lessThan cmp key) before
    (List.pairwise_append.mp hsorted).1 fun x _ y _ hxy hy => by
      simp only [lessThan, decide_eq_true_eq] at hy ⊢
      exact hc.lt_of_le_of_lt _ _ _ (by omega) hy
  exact ⟨_, hsplit⟩

-- Keys that strictly ascend along the order.
def Ascends (cmp : Key → Key → Int) (l : SkipList Key) (xs : List Nat) : Prop :=
  xs.Pairwise fun x y => cmp (l.keyOf x) (l.keyOf y) < 0

-- `Prev` passes over the nodes whose key compares equal to that of the current one.
-- What it visits ascends, read backwards, and is everything where the order does.
theorem Represents.visit_prev (h : Represents cmp l order) (hc : TotalPreorder cmp)
    (ha : ∀ x ∈ order, Agrees compare cmp l order (l.keyOf x)) (fuel : Nat)
    (before after : List Nat) (horder : before ++ after = order) (hfuel : before.length < fuel) :
    ∃ back, visit (Iterator.prev compare l) fuel ⟨before.getLast?⟩ = .ok back ∧
      back ⊆ before ∧ Ascends cmp l back.reverse ∧
      (Ascends cmp l before → back = before.reverse) := by
  induction fuel generalizing before after with
  | zero => omega
  | succ fuel ih =>
      cases before using List.reverseRecOn with
      | nil => exact ⟨[], rfl, List.Subset.refl _, List.Pairwise.nil, fun _ => rfl⟩
      | append_singleton before x _ =>
          rw [List.append_assoc, List.singleton_append] at horder
          have hx : x ∈ order := by simp [← horder]
          have hprev := h.iterator_prev_eq hc before after x horder (ha x hx)
          obtain ⟨skipped, hskipped⟩ := h.filter_prefix hc before (x :: after) horder (l.keyOf x)
          have hshort := congrArg List.length hskipped
          rw [List.length_append] at hshort
          rw [List.length_append, List.length_singleton] at hfuel
          obtain ⟨back, hback, hsubset, hascends, hall⟩ :=
            ih (before.filter (l.lessThan cmp (l.keyOf x))) (skipped ++ x :: after)
              (by rw [← List.append_assoc, hskipped, horder]) (by omega)
          refine ⟨x :: back, ?_, ?_, ?_, ?_⟩
          · rw [List.getLast?_concat]
            exact visit_some _ fuel x _ back hprev hback
          · intro y hy
            rcases List.mem_cons.mp hy with rfl | hy
            · simp
            · exact List.mem_append_left _ (List.mem_of_mem_filter (hsubset hy))
          · rw [Ascends, List.reverse_cons, List.pairwise_append]
            refine ⟨hascends, List.pairwise_singleton _ _, ?_⟩
            intro y hy z hz
            rw [List.mem_singleton.mp hz]
            have hless := (List.mem_filter.mp (hsubset (List.mem_reverse.mp hy))).2
            exact of_decide_eq_true hless
          · intro hstrict
            obtain ⟨hbefore, -, hlast⟩ := List.pairwise_append.mp hstrict
            have hnone : before.filter (l.lessThan cmp (l.keyOf x)) = before := by
              apply List.filter_eq_self.mpr
              intro y hy
              exact decide_eq_true (hlast y hy x (by simp))
            rw [hnone] at hall
            rw [hall hbefore, List.reverse_append, List.reverse_singleton, List.singleton_append]

theorem Represents.backward_iff (h : Represents cmp l order) (hc : TotalPreorder cmp)
    (ha : ∀ x ∈ order, Agrees compare cmp l order (l.keyOf x)) :
    ∃ back, l.backward compare = .ok back ∧ (back = order.reverse ↔ Ascends cmp l order) := by
  have hlen := h.length_order
  obtain ⟨back, hback, -, hascends, hall⟩ :=
    h.visit_prev hc ha l.nodes.length order [] (List.append_nil _) (by omega)
  refine ⟨back, ?_, ?_⟩
  · rw [backward, h.seekToLast_eq, ok_bind, hback]
  · constructor
    · rintro rfl
      rwa [List.reverse_reverse] at hascends
    · exact hall

-- The keys of the nodes, in the order of insertion.
theorem History.keys_eq {inserts : List (Nat × Key)} (h : History inserts l) :
    (List.range' 1 inserts.length).map l.keyOf = inserts.map (·.2) := by
  apply List.ext_getElem
  · simp
  · intro i hi hi'
    have hlt : i < inserts.length := by simpa using hi
    have hkey := h.keyOf i inserts[i] (List.getElem?_eq_getElem hlt)
    rw [List.getElem_map, List.getElem_map, List.getElem_range', Nat.one_mul, Nat.add_comm, hkey]

-- Along the order the keys strictly ascend if and only if no two of them are equal.
theorem Represents.ascends_iff (h : Represents cmp l order) (hc : TotalPreorder cmp)
    {inserts : List (Nat × Key)} (hhist : History inserts l) :
    Ascends cmp l order ↔ inserts.Pairwise fun p q => cmp p.2 q.2 ≠ 0 := by
  have hperm := h.perm_inserts hhist
  have hsymm : ∀ {x y : Nat}, cmp (l.keyOf x) (l.keyOf y) ≠ 0 → cmp (l.keyOf y) (l.keyOf x) ≠ 0 :=
    fun {x y} hne hzero => hne ((hc.zero_comm _ _).mp hzero)
  have hmap : (inserts.map (·.2)).Pairwise (fun a b => cmp a b ≠ 0) ↔
      order.Pairwise fun x y => cmp (l.keyOf x) (l.keyOf y) ≠ 0 := by
    rw [← hhist.keys_eq, List.pairwise_map, hperm.pairwise_iff hsymm]
  rw [← List.pairwise_map (f := fun p : Nat × Key => p.2) (R := fun a b => cmp a b ≠ 0), hmap]
  constructor
  · intro hstrict
    exact hstrict.imp fun hlt => Int.ne_of_lt hlt
  · intro hne
    apply (h.sorted.and hne).imp
    intro x y hxy
    omega

end Represents

-- `Prev` searches by key, so that equal keys are visited in one direction only.
theorem backward_reverses_iff [Inhabited Key] (cmp : Key → Key → Int) (hc : TotalPreorder cmp)
    (inserts : List (Nat × Key)) (hheights : ∀ p ∈ inserts, 1 ≤ p.1 ∧ p.1 ≤ kMaxHeight) :
    ∃ l there back, insertAll (fun a b => .ok (cmp a b)) inserts = .ok l ∧
      l.forward = .ok there ∧ l.backward (fun a b => .ok (cmp a b)) = .ok back ∧
      (back = there.reverse ↔ inserts.Pairwise fun p q => cmp p.2 q.2 ≠ 0) := by
  obtain ⟨l, hl, hhist, order, hrep⟩ := insertAll_represents (fun a b => .ok (cmp a b)) cmp hc
    inserts hheights fun _ _ _ _ => rfl
  obtain ⟨back, hback, hiff⟩ := hrep.backward_iff hc fun x _ => agrees_ok cmp l order (l.keyOf x)
  exact ⟨l, order, back, hl, hrep.forward_eq, hback, hiff.trans (hrep.ascends_iff hc hhist)⟩

theorem backward_reverses_iff_sample :
    ∃ l there back, insertAll (fun a b : Int => .ok (a - b)) [(1, 5), (3, 2), (12, 7)] = .ok l ∧
      l.forward = .ok there ∧ l.backward (fun a b => .ok (a - b)) = .ok back ∧
      back = there.reverse := by
  obtain ⟨l, there, back, hl, hthere, hback, hiff⟩ := backward_reverses_iff _ subtract_totalPreorder
    [(1, 5), (3, 2), (12, 7)] (by decide)
  exact ⟨l, there, back, hl, hthere, hback, hiff.mpr (by decide)⟩

-- Of two nodes with one key, `Prev` visits only the last.
theorem backward_skips : ∃ l there back,
    insertAll (fun a b : Int => .ok (a - b)) [(1, 5), (1, 5)] = .ok l ∧
      l.forward = .ok there ∧ l.backward (fun a b => .ok (a - b)) = .ok back ∧
      there = [2, 1] ∧ back = [1] ∧ back ≠ there.reverse :=
  ⟨_, _, _, rfl, rfl, rfl, rfl, rfl, by decide⟩

end Mylldb.SkipList

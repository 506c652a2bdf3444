import Mylldb.SkipList.Traversal

namespace Mylldb.SkipList

open Lib.LinkedChain Lib.Run Lib.ThreeWay

variable {Key : Type}

inductive Start (Key : Type) where
  | first
  | seek (target : Key)

inductive Event (Key : Type) where
  | insert (height : Nat) (key : Key)
  | next

-- A list with one iterator: the nodes that the iterator has yielded, with their keys,
-- and the nodes that it is due to yield.
structure Watch (Key : Type) where
  list : SkipList Key
  it : Iterator
  yielded : List Nat
  keys : List Key
  due : List Nat

namespace Watch

variable (compare : Key → Key → Exec Int)

-- The iterator comes to stand on a node, and the client reads its key.
def arrive (w : Watch Key) (it : Iterator) : Exec (Watch Key) :=
  match it.node with
  | none => pure { w with it }
  | some x => do
      let key ← Iterator.key w.list it
      pure { w with it, yielded := w.yielded ++ [x], keys := w.keys ++ [key] }

def position (l : SkipList Key) : Start Key → Exec Iterator
  | .first => Iterator.seekToFirst l
  | .seek target => Iterator.seek compare l target

-- Due is what lies at or behind the position that was sought.
def begin (l : SkipList Key) (start : Start Key) : Exec (Watch Key) := do
  let it ← position compare l start
  let due ← l.walk it
  arrive ⟨l, it, [], [], due⟩ it

-- A new node becomes due when the links lead to it from where the iterator stands.
-- `Next` is called while the iterator is valid.
def step (w : Watch Key) : Event Key → Exec (Watch Key)
  | .insert height key => do
      let list ← w.list.insert compare height key
      let new := w.list.nodes.length
      let ahead ← list.walk w.it
      pure { w with list, due := if new ∈ ahead then w.due ++ [new] else w.due }
  | .next =>
      if w.it.valid then do
        let it ← Iterator.next w.list w.it
        arrive w it
      else pure w

end Watch

section Follows

variable [Inhabited Key] {compare : Key → Key → Exec Int} {cmp : Key → Key → Int}
  {w : Watch Key} {passed ahead : List Nat}

-- The iterator stands in front of `ahead`, on its first node, and has yielded nodes up
-- to there. What is due and not yielded lies behind the current node.
structure Follows (cmp : Key → Key → Int) (w : Watch Key) (passed ahead : List Nat) : Prop where
  represents : Represents cmp w.list (passed ++ ahead)
  it_eq : w.it = ⟨ahead.head?⟩
  keys_eq : w.keys = w.yielded.map w.list.keyOf
  yielded : w.yielded.Sublist (passed ++ ahead.take 1)
  due : ∀ x, x ∈ w.due ↔ x ∈ w.yielded ∨ x ∈ ahead.tail

-- The iterator moves to the first node of `ahead`, which has not been yielded.
theorem arrive_follows (w : Watch Key) (passed ahead : List Nat)
    (hrep : Represents cmp w.list (passed ++ ahead)) (hkeys : w.keys = w.yielded.map w.list.keyOf)
    (hyielded : w.yielded.Sublist passed)
    (hdue : ∀ x, x ∈ w.due ↔ x ∈ w.yielded ∨ x ∈ ahead) :
    ∃ w', w.arrive ⟨ahead.head?⟩ = .ok w' ∧ Follows cmp w' passed ahead ∧
      w'.list = w.list ∧ w'.due = w.due := by
  cases ahead with
  | nil =>
      refine ⟨{ w with it := ⟨none⟩ }, rfl, ⟨hrep, rfl, hkeys, ?_, hdue⟩, rfl, rfl⟩
      simpa using hyielded
  | cons x ahead =>
      have hkey := hrep.iterator_key_eq x (by simp)
      have harrive : w.arrive ⟨(x :: ahead).head?⟩ = .ok { w with
          it := ⟨some x⟩
          yielded := w.yielded ++ [x]
          keys := w.keys ++ [w.list.keyOf x] } := by
        simp [Watch.arrive, hkey]
      refine ⟨_, harrive, ⟨hrep, rfl, ?_, ?_, ?_⟩, rfl, rfl⟩
      · dsimp only
        rw [hkeys, List.map_append, List.map_singleton]
      · exact hyielded.append (List.Sublist.refl [x])
      · intro y
        dsimp only
        rw [hdue y]
        simp only [List.mem_append, List.mem_cons, List.not_mem_nil, or_false, List.tail_cons,
          or_assoc]

theorem Follows.next (h : Follows cmp w passed ahead) :
    ∃ w' passed' ahead', w.step compare .next = .ok w' ∧ Follows cmp w' passed' ahead' := by
  cases ahead with
  | nil =>
      refine ⟨w, passed, [], ?_, h⟩
      simp [Watch.step, h.it_eq, Iterator.valid]
  | cons x ahead =>
      have hnext := h.represents.iterator_next_eq passed ahead x rfl
      have hrep := h.represents
      rw [List.append_cons] at hrep
      obtain ⟨w', harrive, hfollows, -, -⟩ :=
        arrive_follows w (passed ++ [x]) ahead hrep h.keys_eq h.yielded h.due
      refine ⟨w', passed ++ [x], ahead, ?_, hfollows⟩
      have hit : w.it = ⟨some x⟩ := h.it_eq
      simp only [Watch.step, hit, Iterator.valid, Option.isSome_some, ite_true, hnext, ok_bind]
      exact harrive

-- The node that comes next into the list is new to the chain.
theorem Follows.new_notMem (h : Follows cmp w passed ahead) :
    w.list.nodes.length ∉ passed ++ ahead :=
  fun hmem => h.represents.new_notMem (List.mem_cons_of_mem _ hmem)

theorem Follows.yielded_sublist (h : Follows cmp w passed ahead) :
    w.yielded.Sublist (passed ++ ahead) :=
  h.yielded.trans ((List.Sublist.refl passed).append (List.take_sublist 1 ahead))

-- No link change hides a node from the iterator or leads it back to one.
theorem Follows.insert (h : Follows cmp w passed ahead) (hc : TotalPreorder cmp) (height : Nat)
    (key : Key) (hpos : 1 ≤ height) (hle : height ≤ kMaxHeight)
    (ha : Agrees compare cmp w.list (passed ++ ahead) key) :
    ∃ w' passed' ahead', w.step compare (.insert height key) = .ok w' ∧
      Follows cmp w' passed' ahead' := by
  obtain ⟨l', hinsert, hrep, -, -, -, hkey⟩ := h.represents.insert hc key height hpos hle ha
  obtain ⟨passed', ahead', horder, hpassed, hhead, htail⟩ := insert_beside w.list.nodes.length _ _
    passed ahead (h.represents.split hc key) fun hmem =>
      h.new_notMem (List.mem_append_right passed hmem)
  have hrep' : Represents cmp l' (passed' ++ ahead') := horder ▸ hrep
  have hhead? : ahead'.head? = ahead.head? := by
    have htake := congrArg List.head? hhead
    rwa [List.head?_take, List.head?_take] at htake
  have hwalk := hrep'.walk_eq passed' ahead' rfl
  have hold : ∀ x ∈ w.yielded, l'.keyOf x = w.list.keyOf x := by
    intro x hx
    rw [hkey, if_neg]
    rintro rfl
    exact h.new_notMem (h.yielded_sublist.subset hx)
  refine ⟨{ w with
      list := l'
      due := if w.list.nodes.length ∈ ahead' then w.due ++ [w.list.nodes.length] else w.due },
    passed', ahead', ?_, ⟨hrep', ?_, ?_, ?_, ?_⟩⟩
  · simp only [Watch.step, hinsert, ok_bind, h.it_eq, ← hhead?, hwalk, pure_eq]
  · exact h.it_eq.trans (by rw [hhead?])
  · exact h.keys_eq.trans (List.map_congr_left fun x hx => (hold x hx).symm)
  · rw [hhead]
    exact h.yielded.trans (hpassed.append (List.Sublist.refl _))
  · intro x
    dsimp only
    rw [htail x, ← or_assoc, ← h.due x]
    by_cases hahead : w.list.nodes.length ∈ ahead'
    · simp [hahead]
    · simp [hahead]

-- The keys that a start of the iterator covers.
def Start.Covers (cmp : Key → Key → Int) : Start Key → Key → Prop
  | .first, _ => True
  | .seek target, key => 0 ≤ cmp key target

-- The nodes at or behind the position that a start finds.
def reached (cmp : Key → Key → Int) (l : SkipList Key) (start : Start Key) (order : List Nat) :
    List Nat :=
  order.filter fun x =>
    match start with
    | .first => true
    | .seek target => !l.lessThan cmp target x

theorem begin_follows {l : SkipList Key} {order : List Nat} (h : Represents cmp l order)
    (hc : TotalPreorder cmp) (start : Start Key)
    (ha : ∀ key, Agrees compare cmp l order key) :
    ∃ w passed ahead, Watch.begin compare l start = .ok w ∧ Follows cmp w passed ahead ∧
      w.due = reached cmp l start order := by
  obtain ⟨passed, ahead, horder, hposition, hahead⟩ : ∃ passed ahead, passed ++ ahead = order ∧
      Watch.position compare l start = .ok ⟨ahead.head?⟩ ∧
        ahead = reached cmp l start order := by
    cases start with
    | first => exact ⟨[], order, rfl, h.seekToFirst_eq, by simp [reached]⟩
    | seek target => exact ⟨_, _, h.split hc target, h.seek_eq hc target (ha target), rfl⟩
  subst horder
  have hwalk := h.walk_eq passed ahead rfl
  obtain ⟨w, harrive, hfollows, -, hdue⟩ := arrive_follows
    ⟨l, ⟨ahead.head?⟩, [], [], ahead⟩ passed ahead h rfl (List.nil_sublist _) (by simp)
  refine ⟨w, passed, ahead, ?_, hfollows, hdue.trans hahead⟩
  rw [Watch.begin, hposition, ok_bind, hwalk, ok_bind, harrive]

theorem reached_iff {l : SkipList Key} {order : List Nat} (h : Represents cmp l order)
    {inserts : List (Nat × Key)} (hhist : History inserts l) (start : Start Key) (x : Nat) :
    x ∈ reached cmp l start order ↔
      ∃ i p, x = i + 1 ∧ inserts[i]? = some p ∧ start.Covers cmp p.2 := by
  have hcovers : x ∈ reached cmp l start order ↔ x ∈ order ∧ start.Covers cmp (l.keyOf x) := by
    rw [reached, List.mem_filter]
    cases start with
    | first => simp [Start.Covers]
    | seek target =>
        simp only [lessThan, Start.Covers, Bool.not_eq_true', decide_eq_false_iff_not, Int.not_lt]
  rw [hcovers]
  constructor
  · rintro ⟨hx, hcover⟩
    obtain ⟨hpos, hlt⟩ := h.lt_length x hx
    rw [hhist.length] at hlt
    have hp : inserts[x - 1]? = some inserts[x - 1] := List.getElem?_eq_getElem (by omega)
    have hkey := hhist.keyOf (x - 1) _ hp
    rw [Nat.sub_add_cancel hpos] at hkey
    exact ⟨x - 1, _, (Nat.sub_add_cancel hpos).symm, hp, hkey ▸ hcover⟩
  · rintro ⟨i, p, rfl, hp, hcover⟩
    obtain ⟨hi, -⟩ := List.getElem?_eq_some_iff.mp hp
    refine ⟨?_, (hhist.keyOf i p hp).symm ▸ hcover⟩
    apply (h.perm_inserts hhist).mem_iff.mpr
    rw [List.mem_range'_1]
    omega

-- Whatever is inserted while the iterator is on its way.
theorem Follows.run (h : Follows cmp w passed ahead) (hc : TotalPreorder cmp)
    (events : List (Event Key))
    (hheights : ∀ height key, .insert height key ∈ events → 1 ≤ height ∧ height ≤ kMaxHeight) :
    ∃ w' passed' ahead', events.foldlM (Watch.step fun a b => .ok (cmp a b)) w = .ok w' ∧
      Follows cmp w' passed' ahead' := by
  obtain ⟨w', hrun, passed', ahead', hfollows⟩ := foldlM_history
    (Watch.step fun a b => .ok (cmp a b)) (fun _ w => ∃ passed ahead, Follows cmp w passed ahead)
    events (by
      rintro done w ⟨passed, ahead, hw⟩ event hevent
      cases event with
      | next =>
          obtain ⟨w', passed', ahead', hstep, hw'⟩ := hw.next
          exact ⟨w', hstep, passed', ahead', hw'⟩
      | insert height key =>
          obtain ⟨hpos, hle⟩ := hheights height key hevent
          obtain ⟨w', passed', ahead', hstep, hw'⟩ :=
            hw.insert hc height key hpos hle (agrees_ok cmp w.list (passed ++ ahead) key)
          exact ⟨w', hstep, passed', ahead', hw'⟩)
    [] w ⟨passed, ahead, h⟩
  exact ⟨w', passed', ahead', hrun, hfollows⟩

theorem Follows.nondecreasing (h : Follows cmp w passed ahead) :
    w.keys.Pairwise fun a b => cmp a b ≤ 0 := by
  rw [h.keys_eq, List.pairwise_map]
  apply (h.represents.sorted.sublist h.yielded_sublist).imp
  intro x y hxy
  omega

theorem Follows.nodup (h : Follows cmp w passed ahead) : w.yielded.Nodup :=
  (List.nodup_cons.mp h.represents.nodup).2.sublist h.yielded_sublist

theorem Follows.complete (h : Follows cmp w passed ahead) (hinvalid : w.it.valid = false)
    (x : Nat) : x ∈ w.yielded ↔ x ∈ w.due := by
  have hnone : ahead.head? = none := by
    rw [h.it_eq] at hinvalid
    exact Option.not_isSome_iff_eq_none.mp (by
      rw [Iterator.valid] at hinvalid
      simp [hinvalid])
  rw [h.due x, List.head?_eq_none_iff.mp hnone]
  simp

end Follows

-- At every moment of every run the iterator has yielded each node once at most, in
-- order, and when it is done it has yielded what it was due to.
theorem iterator_survives [Inhabited Key] (cmp : Key → Key → Int) (hc : TotalPreorder cmp)
    (inserts : List (Nat × Key)) (hheights : ∀ p ∈ inserts, 1 ≤ p.1 ∧ p.1 ≤ kMaxHeight)
    (start : Start Key) (events : List (Event Key))
    (hevents : ∀ height key, .insert height key ∈ events → 1 ≤ height ∧ height ≤ kMaxHeight) :
    ∃ l w₀ w, insertAll (fun a b => .ok (cmp a b)) inserts = .ok l ∧
      Watch.begin (fun a b => .ok (cmp a b)) l start = .ok w₀ ∧
      events.foldlM (Watch.step fun a b => .ok (cmp a b)) w₀ = .ok w ∧
      (∀ x, x ∈ w₀.due ↔ ∃ i p, x = i + 1 ∧ inserts[i]? = some p ∧ start.Covers cmp p.2) ∧
      w.keys = w.yielded.map w.list.keyOf ∧
      (w.keys.Pairwise fun a b => cmp a b ≤ 0) ∧ w.yielded.Nodup ∧
      (w.it.valid = false → ∀ x, x ∈ w.yielded ↔ x ∈ w.due) := by
  obtain ⟨l, hl, hhist, order, hrep⟩ := insertAll_represents (fun a b => .ok (cmp a b)) cmp hc
    inserts hheights fun _ _ _ _ => rfl
  obtain ⟨w₀, passed₀, ahead₀, hbegin, hfollows₀, hdue⟩ :=
    begin_follows hrep hc start (agrees_ok cmp l order)
  obtain ⟨w, passed, ahead, hrun, hfollows⟩ := hfollows₀.run hc events hevents
  refine ⟨l, w₀, w, hl, hbegin, hrun, ?_, hfollows.keys_eq, hfollows.nondecreasing,
    hfollows.nodup, hfollows.complete⟩
  intro x
  rw [hdue]
  exact reached_iff hrep hhist start x

-- Keys on both sides of the current node and equal to its key come in on the way.
theorem iterator_survives_sample : ∃ l w₀ w,
    insertAll (fun a b : Int => .ok (a - b)) [(1, 5), (2, 3)] = .ok l ∧
      Watch.begin (fun a b => .ok (a - b)) l (.seek 3) = .ok w₀ ∧
      [Event.insert 3 3, .insert 12 4, .next, .insert 1 4, .next].foldlM
        (Watch.step fun a b => .ok (a - b)) w₀ = .ok w ∧ w.yielded.Nodup := by
  obtain ⟨l, w₀, w, hl, hbegin, hrun, -, -, -, hnodup, -⟩ :=
    iterator_survives (fun a b : Int => a - b) subtract_totalPreorder [(1, 5), (2, 3)] (by decide)
      (.seek 3) [.insert 3 3, .insert 12 4, .next, .insert 1 4, .next] (by
        intro height key hevent
        simp only [List.mem_cons, Event.insert.injEq, reduceCtorEq, List.not_mem_nil, or_false,
          false_or] at hevent
        have hmax : kMaxHeight = 12 := rfl
        omega)
  exact ⟨l, w₀, w, hl, hbegin, hrun, hnodup⟩

end Mylldb.SkipList

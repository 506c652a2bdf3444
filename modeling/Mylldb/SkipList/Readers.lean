import Mylldb.SkipList.Concurrent

namespace Mylldb.SkipList

open Lib.History Lib.LinkedChain Lib.Run Lib.ThreeWay

variable {Key : Type} [Inhabited Key]

-- What a reader may rely on at every moment. `lane` lists the nodes that each level visits.
structure Shared (cmp : Key → Key → Int) (good : Key → Prop) (l : SkipList Key) (order : List Nat)
    (lane : Nat → List Nat) : Prop extends Lanes l.link 0 kMaxHeight order lane where
  maxHeight_pos : 1 ≤ l.maxHeight
  maxHeight_le : l.maxHeight ≤ kMaxHeight
  lt_length : ∀ x ∈ order, x < l.nodes.length
  good : ∀ x ∈ order, good (l.keyOf x)
  sorted : order.Pairwise fun x y => cmp (l.keyOf x) (l.keyOf y) ≤ 0

-- A list that holds more than it did.
structure Grows (l : SkipList Key) (order : List Nat) (lane : Nat → List Nat) (l' : SkipList Key)
    (order' : List Nat) (lane' : Nat → List Nat) : Prop where
  order_le : order.Sublist order'
  lane_le : ∀ level, (lane level).Sublist (lane' level)
  keyOf : ∀ x ∈ order, l'.keyOf x = l.keyOf x

def entries (l : SkipList Key) (order : List Nat) : List (Nat × Key) :=
  order.map fun x => (x, l.keyOf x)

section Readers

variable {compare : Key → Key → Exec Int} {cmp : Key → Key → Int} {good sought : Key → Prop}
  {l l' : SkipList Key} {order order' : List Nat} {lane lane' : Nat → List Nat}
  {q : Query Key} {op : Op Key} {place : Option Nat} {x level loads : Nat} {search : Search Key}

namespace Query

-- The nodes that the loop passes.
def goes (cmp : Key → Key → Int) (l : SkipList Key) : Query Key → Nat → Bool
  | .greaterOrEqual key => l.lessThan cmp key
  | .lessThan key => l.lessThan cmp key
  | .last => fun _ => true

def Good (sought : Key → Prop) : Query Key → Prop
  | .greaterOrEqual key => sought key
  | .lessThan key => sought key
  | .last => True

-- The first node that the loop does not pass, or the last one that it passes.
def outcome (cmp : Key → Key → Int) (l : SkipList Key) (order : List Nat) :
    Query Key → Option Nat
  | .greaterOrEqual key => (order.filter fun x => !l.lessThan cmp key x).head?
  | .lessThan key => (order.filter (l.lessThan cmp key)).getLast?
  | .last => order.getLast?

omit [Inhabited Key] in
theorem advance_null (q : Query Key) : q.advance compare l none = .ok false := by
  cases q <;> rfl

theorem advance_eq (hcompare : ∀ a b, good a → sought b → compare a b = .ok (cmp a b))
    (hshared : Shared cmp good l order lane) (hq : q.Good sought) (hx : x ∈ order) :
    q.advance compare l (some x) = .ok (q.goes cmp l x) := by
  have hlt := hshared.lt_length x hx
  have hgood := hshared.good x hx
  cases q with
  | greaterOrEqual key => exact keyIsAfterNode_eq l key x hlt (hcompare _ _ hgood hq)
  | lessThan key =>
      rw [advance, not_endsBefore]
      exact keyIsAfterNode_eq l key x hlt (hcompare _ _ hgood hq)
  | last => rfl

-- The loop passes a node when it passes a later one.
theorem goes_down (hc : TotalPreorder cmp) (hshared : Shared cmp good l order lane) (q : Query Key) :
    order.Pairwise fun x y => q.goes cmp l y = true → q.goes cmp l x = true := by
  apply hshared.sorted.imp
  intro x y hle hy
  cases q with
  | greaterOrEqual key => exact decide_eq_true (hc.lt_of_le_of_lt _ _ _ hle (of_decide_eq_true hy))
  | lessThan key => exact decide_eq_true (hc.lt_of_le_of_lt _ _ _ hle (of_decide_eq_true hy))
  | last => rfl

end Query

-- A loop stands on a node of its level that it has passed, after no more loads than there
-- are nodes up to it and levels above.
structure Descends (cmp : Key → Key → Int) (sought : Key → Prop) (l : SkipList Key)
    (order : List Nat) (lane : Nat → List Nat) (q : Query Key) (x level loads : Nat) : Prop where
  level_lt : level < kMaxHeight
  mem : x ∈ 0 :: lane level
  reaches : Reaches 0 order x (loads + level + 1 - kMaxHeight)
  passed : x = 0 ∨ q.goes cmp l x = true
  sought : q.Good sought

-- What one load of a loop comes to.
inductive Loaded (cmp : Key → Key → Int) (sought : Key → Prop) (l : SkipList Key)
    (order : List Nat) (lane : Nat → List Nat) (q : Query Key) :
    Search Key ⊕ Option Nat × Nat → Prop
  | on (x level loads : Nat) : Descends cmp sought l order lane q x level loads →
      Loaded cmp sought l order lane q (.inl (.descend q (some x) level loads))
  | done (loads : Nat) : loads ≤ order.length + kMaxHeight →
      Loaded cmp sought l order lane q (.inr (q.outcome cmp l order, loads))

theorem Shared.start (hshared : Shared cmp good l order lane) (hq : q.Good sought) :
    Descends cmp sought l order lane q 0 (l.maxHeight - 1) 0 where
  level_lt := by
    have hpos := hshared.maxHeight_pos
    have hle := hshared.maxHeight_le
    omega
  mem := List.mem_cons_self ..
  reaches := by
    have hpos := hshared.maxHeight_pos
    have hle := hshared.maxHeight_le
    have hzero : 0 + (l.maxHeight - 1) + 1 - kMaxHeight = 0 := by omega
    rw [hzero]
    exact .head_zero 0 order
  passed := .inl rfl
  sought := hq

-- Where the loop ends, all nodes up to its own have been passed and no later one is.
theorem Shared.result_eq (hshared : Shared cmp good l order lane) (hc : TotalPreorder cmp)
    (passed ahead : List Nat) (horder : order = passed ++ ahead)
    (hpassed : passed.getLastD 0 = 0 ∨ q.goes cmp l (passed.getLastD 0) = true)
    (hahead : ∀ y ∈ ahead.head?, q.goes cmp l y = false) :
    q.result (some (passed.getLastD 0)) ahead.head? = q.outcome cmp l order := by
  have hnodup := hshared.nodup
  have hdown := q.goes_down hc hshared
  subst horder
  have hlast : ∀ y ∈ passed.getLast?, q.goes cmp l y = true := by
    intro y hy
    rw [List.getLastD_eq_getLast?, hy, Option.getD_some] at hpassed
    rcases hpassed with rfl | hgoes
    · have hmem := List.mem_append_left ahead (List.mem_of_getLast? hy)
      exact absurd hmem (List.nodup_cons.mp hnodup).1
    · exact hgoes
  have hposition : (if some (passed.getLastD 0) = some 0 then none
      else some (passed.getLastD 0)) = passed.getLast? := by
    cases hget : passed.getLast? with
    | none => rw [List.getLastD_eq_getLast?, hget, Option.getD_none, if_pos rfl]
    | some y =>
        have hne : y ≠ 0 := by
          rintro rfl
          have hmem := List.mem_append_left ahead (List.mem_of_getLast? hget)
          exact (List.nodup_cons.mp hnodup).1 hmem
        rw [List.getLastD_eq_getLast?, hget, Option.getD_some, if_neg (by simpa using hne)]
  obtain ⟨hbefore, hafter⟩ := filter_cut hdown hlast hahead
  cases q with
  | greaterOrEqual key => exact congrArg List.head? hafter.symm
  | lessThan key => exact hposition.trans (congrArg List.getLast? hbefore.symm)
  | last =>
      have hnone : ahead = [] := by
        cases ahead with
        | nil => rfl
        | cons y ahead => cases hahead y rfl
      rw [Query.outcome, hnone, List.append_nil]
      exact hposition

theorem Descends.load (h : Descends cmp sought l order lane q x level loads)
    (hshared : Shared cmp good l order lane) (hc : TotalPreorder cmp)
    (hcompare : ∀ a b, good a → sought b → compare a b = .ok (cmp a b)) :
    ∃ o, Search.load compare l (.descend q (some x) level loads) = .ok o ∧
      Loaded cmp sought l order lane q o := by
  obtain ⟨next, hlink, hlater⟩ := hshared.next h.level_lt h.mem h.reaches
  have hnext : l.next (some x) level = .ok next := hlink
  obtain ⟨more, hadvance, hmore⟩ : ∃ more, q.advance compare l next = .ok more ∧
      ∀ y ∈ next, q.goes cmp l y = more := by
    cases next with
    | none => exact ⟨false, q.advance_null, by simp⟩
    | some y =>
        have hmem := (hshared.sublist level).subset (hlater y rfl).1
        refine ⟨_, q.advance_eq hcompare hshared h.sought hmem, fun z hz => ?_⟩
        rw [Option.some.inj hz]
  rw [Search.load, hnext, ok_bind, hadvance, ok_bind]
  cases more with
  | true =>
      -- right: to a later node of the level
      cases next with
      | none =>
          rw [q.advance_null] at hadvance
          cases hadvance
      | some y =>
          obtain ⟨hmem, hreaches⟩ := hlater y rfl
          refine ⟨_, rfl, .on y level (loads + 1) ⟨h.level_lt, List.mem_cons_of_mem 0 hmem, ?_,
            .inr (hmore y rfl), h.sought⟩⟩
          exact hreaches.weaken (by omega)
  | false =>
      by_cases hzero : level = 0
      · subst hzero
        obtain ⟨passed, ahead, horder, hlast, hlink'⟩ :=
          (hshared.chain 0 h.level_lt).next_of_mem h.mem
        obtain rfl : next = ahead.head? := link_unique l 0 x _ _ hlink hlink'
        rw [hshared.bottom] at horder
        have hpassed := h.passed
        rw [← hlast] at hpassed ⊢
        refine ⟨_, rfl, ?_⟩
        rw [hshared.result_eq hc passed ahead horder hpassed hmore]
        have hbound := h.reaches.le_length
        exact .done _ (by omega)
      · -- down: the node lies on the level below too
        refine ⟨.inl (.descend q (some x) (level - 1) (loads + 1)), ?_, .on x _ _
          ⟨by have := h.level_lt; omega, ?_, ?_, h.passed, h.sought⟩⟩
        · simp [hzero]
        · have hnested := hshared.nested (level - 1)
          rw [Nat.sub_add_cancel (Nat.pos_of_ne_zero hzero)] at hnested
          exact (hnested.cons_cons 0).subset h.mem
        · exact h.reaches.weaken (by omega)

-- The loop that a method runs.
def Op.asks (l : SkipList Key) (place : Option Nat) : Op Key → Option (Query Key)
  | .seekToLast => some .last
  | .seek target => some (.greaterOrEqual target)
  | .prev => place.map fun x => .lessThan (l.keyOf x)
  | _ => none

-- How far a method is.
inductive Reading (cmp : Key → Key → Int) (sought : Key → Prop) (l : SkipList Key)
    (order : List Nat) (lane : Nat → List Nat) (place : Option Nat) : Op Key → Search Key → Prop
  | first : Reading cmp sought l order lane place .seekToFirst (.follow (some 0))
  | next (x : Nat) : place = some x → Reading cmp sought l order lane place .next (.follow (some x))
  | loop (op : Op Key) (q : Query Key) (x level loads : Nat) : op.asks l place = some q →
      Descends cmp sought l order lane q x level loads →
      Reading cmp sought l order lane place op (.descend q (some x) level loads)

theorem Descends.grow (h : Descends cmp sought l order lane q x level loads)
    (hg : Grows l order lane l' order' lane') (hshared : Shared cmp good l order lane) :
    Descends cmp sought l' order' lane' q x level loads where
  level_lt := h.level_lt
  mem := ((hg.lane_le level).cons_cons 0).subset h.mem
  reaches := h.reaches.mono hg.order_le
  passed := by
    rcases List.mem_cons.mp h.mem with rfl | hmem
    · exact .inl rfl
    · refine h.passed.imp id fun hgoes => ?_
      have hkey := hg.keyOf x ((hshared.sublist level).subset hmem)
      cases q with
      | greaterOrEqual key => rwa [Query.goes, lessThan, hkey]
      | lessThan key => rwa [Query.goes, lessThan, hkey]
      | last => rfl
  sought := h.sought

-- Whatever the writer does between two loads.
theorem Reading.grow (h : Reading cmp sought l order lane place op search)
    (hg : Grows l order lane l' order' lane') (hshared : Shared cmp good l order lane)
    (hplace : ∀ x ∈ place, x ∈ order) : Reading cmp sought l' order' lane' place op search := by
  cases h with
  | first => exact .first
  | next x hx => exact .next x hx
  | loop _ q x level loads hasks hdescends =>
      refine .loop op q x level loads ?_ (hdescends.grow hg hshared)
      rw [← hasks]
      cases op with
      | prev =>
          cases place with
          | none => rfl
          | some y => simp only [Op.asks, Option.map_some, hg.keyOf y (hplace y rfl)]
      | seekToFirst => rfl
      | seekToLast => rfl
      | seek target => rfl
      | next => rfl

section Answers

-- The filters of the sheet are those of the list.
theorem entries_filter (l : SkipList Key) (order : List Nat) (key : Key) :
    ((entries l order).filter fun e => decide (cmp e.2 key < 0)) =
      entries l (order.filter (l.lessThan cmp key)) :=
  List.filter_map

theorem entries_filter_not (l : SkipList Key) (order : List Nat) (key : Key) :
    ((entries l order).filter fun e => !decide (cmp e.2 key < 0)) =
      entries l (order.filter fun x => !l.lessThan cmp key x) :=
  List.filter_map

theorem entries_find (l : SkipList Key) (order : List Nat) (x : Nat) (hx : x ∈ order) :
    ((entries l order).find? fun e => decide (e.1 = x)) = some (x, l.keyOf x) := by
  rw [entries, List.find?_map]
  have hfind : order.find? ((fun e : Nat × Key => decide (e.1 = x)) ∘ fun y => (y, l.keyOf y)) =
      some x := by
    obtain ⟨as, bs, rfl, has⟩ := List.eq_append_cons_of_mem hx
    rw [List.find?_append, List.find?_eq_none.mpr, Option.none_or, List.find?_cons_of_pos]
    · simp
    · intro y hy
      have hne : y ≠ x := by
        rintro rfl
        exact has hy
      simpa using hne
  rw [hfind]
  rfl

-- A loop ends where the sheet has the answer.
theorem answer_asks (hasks : op.asks l place = some q) (hplace : ∀ x ∈ place, x ∈ order) :
    Sheet.answer cmp (entries l order) place op =
      (q.outcome cmp l order).map fun x => (x, l.keyOf x) := by
  cases op with
  | seekToFirst => cases hasks
  | next => cases hasks
  | seekToLast =>
      obtain rfl := Option.some.inj hasks
      exact List.getLast?_map
  | seek target =>
      obtain rfl := Option.some.inj hasks
      rw [Sheet.answer, ← List.head?_filter, entries_filter_not, entries, List.head?_map]
      rfl
  | prev =>
      cases place with
      | none => cases hasks
      | some y =>
          obtain rfl := Option.some.inj hasks
          rw [Sheet.answer, Option.bind_some, entries_find l order y (hplace y rfl),
            Option.bind_some, entries_filter, entries, List.getLast?_map]
          rfl

theorem answer_next (hnodup : order.Nodup) (passed ahead : List Nat) (x : Nat)
    (horder : order = passed ++ x :: ahead) :
    Sheet.answer cmp (entries l order) (some x) .next =
      ahead.head?.map fun x => (x, l.keyOf x) := by
  subst horder
  have hnot : x ∉ passed := fun hx => by
    have hdisjoint := (List.nodup_append.mp hnodup).2.2 x hx x (List.mem_cons_self ..)
    exact hdisjoint rfl
  have hdrop : ((entries l (passed ++ x :: ahead)).dropWhile fun e => decide (e.1 ≠ x)) =
      entries l (x :: ahead) := by
    rw [entries, List.map_append, List.dropWhile_append_of_pos]
    · simp [entries]
    · intro e he
      obtain ⟨y, hy, rfl⟩ := List.mem_map.mp he
      refine decide_eq_true ?_
      rintro rfl
      exact hnot hy
  rw [Sheet.answer, Option.bind_some, hdrop, entries, List.map_cons, List.tail_cons,
    List.head?_map]

end Answers

theorem outcome_mem (y : Nat) (hy : y ∈ q.outcome cmp l order) : y ∈ order := by
  cases q with
  | greaterOrEqual key => exact List.mem_of_mem_filter (List.mem_of_head? hy)
  | lessThan key => exact List.mem_of_mem_filter (List.mem_of_getLast? hy)
  | last => exact List.mem_of_getLast? hy

-- What one load of a method comes to. Its last load finds the answer of that moment.
inductive Reads (cmp : Key → Key → Int) (sought : Key → Prop) (l : SkipList Key)
    (order : List Nat) (lane : Nat → List Nat) (place : Option Nat) (op : Op Key) :
    Search Key ⊕ Option Nat × Nat → Prop
  | on (search : Search Key) : Reading cmp sought l order lane place op search →
      Reads cmp sought l order lane place op (.inl search)
  | done (found : Option Nat) (loads : Nat) : loads ≤ order.length + kMaxHeight →
      Sheet.answer cmp (entries l order) place op = found.map (fun x => (x, l.keyOf x)) →
      (∀ x ∈ found, x ∈ order) → Reads cmp sought l order lane place op (.inr (found, loads))

theorem Reading.load (h : Reading cmp sought l order lane place op search)
    (hshared : Shared cmp good l order lane) (hc : TotalPreorder cmp)
    (hcompare : ∀ a b, good a → sought b → compare a b = .ok (cmp a b))
    (hplace : ∀ x ∈ place, x ∈ order) :
    ∃ o, search.load compare l = .ok o ∧ Reads cmp sought l order lane place op o := by
  have hone : 1 ≤ order.length + kMaxHeight := by
    unfold kMaxHeight
    omega
  have hbottom := hshared.chain 0 (by decide)
  rw [hshared.bottom] at hbottom
  cases h with
  | first =>
      have hnext : l.next (some 0) 0 = .ok order.head? := hbottom.head
      refine ⟨.inr (order.head?, 1), by rw [Search.load, hnext]; rfl, .done _ _ hone ?_ ?_⟩
      · rw [Sheet.answer, entries, List.head?_map]
      · exact fun x hx => List.mem_of_head? hx
  | next x hx =>
      subst hx
      obtain ⟨passed, ahead, rfl⟩ := List.append_of_mem (hplace x rfl)
      have hnodup := (List.nodup_cons.mp hshared.nodup).2
      have hlast : (passed ++ [x]).getLastD 0 = x := List.getLastD_concat
      have hlink := hbottom
      rw [List.append_cons] at hlink
      have hnext := hlink.suffix.head
      rw [hlast] at hnext
      have hload : l.next (some x) 0 = .ok ahead.head? := hnext
      refine ⟨.inr (ahead.head?, 1), by rw [Search.load, hload]; rfl, .done _ _ hone ?_ ?_⟩
      · exact answer_next hnodup passed ahead x rfl
      · exact fun y hy => List.mem_append_right _ (List.mem_cons_of_mem _ (List.mem_of_head? hy))
  | loop _ q x level loads hasks hdescends =>
      obtain ⟨o, hload, hloaded⟩ := hdescends.load hshared hc hcompare
      refine ⟨o, hload, ?_⟩
      cases hloaded with
      | on x level loads hon => exact .on _ (.loop op q x level loads hasks hon)
      | done loads hle => exact .done _ loads hle (answer_asks hasks hplace) fun y hy => outcome_mem y hy

theorem readPlace_eq (hshared : Shared cmp good l order lane) (found : Option Nat)
    (hfound : ∀ x ∈ found, x ∈ order) :
    readPlace l found = .ok (found.map fun x => (x, l.keyOf x)) := by
  cases found with
  | none => rfl
  | some x =>
      have hlt := hshared.lt_length x (hfound x rfl)
      rw [readPlace, deref_eq l x hlt, ok_bind, pure_eq, Option.map_some, keyOf_eq l x hlt]

def Op.Good (sought : Key → Prop) : Op Key → Prop
  | .seek target => sought target
  | _ => True

theorem start_reading (hshared : Shared cmp good l order lane) (hsub : ∀ k, good k → sought k) (hop : op.Good sought)
    (hplace : ∀ x ∈ place, x ∈ order) :
    ∃ o, op.start l place = .ok o ∧
      ∀ search ∈ o, Reading cmp sought l order lane place op search := by
  have hstarts (q : Query Key) (hq : q.Good sought) (hasks : op.asks l place = some q) :
      ∀ search ∈ (some (.descend q (some 0) (l.maxHeight - 1) 0) : Option (Search Key)),
        Reading cmp sought l order lane place op search := by
    intro search hsearch
    rw [← Option.some.inj hsearch]
    exact .loop op q 0 _ 0 hasks (hshared.start hq)
  cases op with
  | seekToFirst =>
      refine ⟨_, rfl, fun search hsearch => ?_⟩
      rw [← Option.some.inj hsearch]
      exact .first
  | seekToLast => exact ⟨_, rfl, hstarts _ trivial rfl⟩
  | seek target => exact ⟨_, rfl, hstarts _ hop rfl⟩
  | next =>
      refine ⟨_, rfl, fun search hsearch => ?_⟩
      obtain ⟨x, hx, rfl⟩ := Option.map_eq_some_iff.mp hsearch
      exact .next x hx
  | prev =>
      cases place with
      | none => exact ⟨none, rfl, by simp⟩
      | some x =>
          have hmem := hplace x rfl
          have hlt := hshared.lt_length x hmem
          refine ⟨_, ?_, hstarts (.lessThan (l.keyOf x)) (hsub _ (hshared.good x hmem)) rfl⟩
          rw [Op.start, deref_eq l x hlt, ok_bind, pure_eq, keyOf_eq l x hlt]

end Readers

end Mylldb.SkipList

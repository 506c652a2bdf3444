import Mylldb.Lib.History
import Mylldb.SkipList.Theorems

namespace Mylldb.SkipList

open Lib.History Lib.LinkedChain Lib.Run Lib.ThreeWay

variable {Key : Type}

-- How far a writer is in `Insert`. Its search reads links that it alone changes, so the
-- search and the store of `max_height_` are one step. From there on every store into a
-- node is a step of its own: the node is `aimed` when its own link of level `i` is set and
-- no link of that level leads to it yet.
inductive Writer (Key : Type) where
  | idle
  | allocating (height : Nat) (key : Key) (prev : List Slot)
  | linking (height : Nat) (key : Key) (prev : List Slot) (x i : Nat) (aimed : Bool)

-- The three loops that search the list.
inductive Query (Key : Type) where
  | greaterOrEqual (key : Key)
  | lessThan (key : Key)
  | last

-- A reader is about to load the link of `x`: a single link, or the next one of its loop.
-- `loads` counts the links that the loop has loaded.
inductive Search (Key : Type) where
  | follow (x : Option Nat)
  | descend (q : Query Key) (x : Option Nat) (level loads : Nat)

-- The methods of the iterator.
inductive Op (Key : Type) where
  | seekToFirst
  | seekToLast
  | seek (target : Key)
  | next
  | prev

-- A reader owns an iterator, with its `node_`, and may be in one of its methods.
structure Reader (Key : Type) where
  place : Option Nat
  search : Option (Op Key × Search Key)

-- What can be seen of the calls. An insertion is called, its node comes into the list, and
-- it returns; a method is called, and returns with its iterator on a node or on none.
inductive Record (Key : Type) where
  | insertCalled (key : Key)
  | inserted (x : Nat) (key : Key)
  | insertReturned
  | called (r : Nat) (op : Op Key)
  | returned (r : Nat) (op : Op Key) (found : Option (Nat × Key)) (loads : Nat)

structure System (Key : Type) where
  list : SkipList Key
  writer : Writer Key
  readers : Nat → Reader Key
  history : List (Record Key)

-- A step of the writer or of a reader: a call begins, or goes on by one store or load.
inductive Act (Key : Type) where
  | insert (height : Nat) (key : Key)
  | store
  | call (r : Nat) (op : Op Key)
  | load (r : Nat)

-- The node is in the list from the store that leads level 0 to it.
def Writer.store (l : SkipList Key) :
    Writer Key → Exec (SkipList Key × Writer Key × List (Record Key))
  | .idle => pure (l, .idle, [])
  | .allocating height key prev =>
      pure ((l.newNode key height).1, .linking height key prev (l.newNode key height).2 0 false, [])
  | .linking height key prev x i aimed =>
      if i < height then do
        let before ← readSlot prev i
        if aimed then do
          let l ← l.setNext before i (some x)
          pure (l, .linking height key prev x (i + 1) false,
            if i = 0 then [.inserted x key] else [])
        else do
          let after ← l.next before i
          let l ← l.setNext (some x) i after
          pure (l, .linking height key prev x i true, [])
      else pure (l, .idle, [.insertReturned])

namespace Query

variable (compare : Key → Key → Exec Int)

-- Whether the loop goes on to the next node on its level.
def advance (l : SkipList Key) : Query Key → Option Nat → Exec Bool
  | .greaterOrEqual key => l.keyIsAfterNode compare key
  | .lessThan key => fun next => not <$> l.endsBefore compare key next
  | .last => fun next => pure next.isSome

-- Where the loop leaves the iterator. The head stands for no position.
def result : Query Key → Option Nat → Option Nat → Option Nat
  | .greaterOrEqual _, _, next => next
  | _, x, _ => if x = some 0 then none else x

end Query

-- One load: the search goes on, or ends on a node after so many loads.
def Search.load (compare : Key → Key → Exec Int) (l : SkipList Key) :
    Search Key → Exec (Search Key ⊕ Option Nat × Nat)
  | .follow x => do
      let next ← l.next x 0
      pure (.inr (next, 1))
  | .descend q x level loads => do
      let next ← l.next x level
      if ← q.advance compare l next then pure (.inl (.descend q next level (loads + 1)))
      else if level = 0 then pure (.inr (q.result x next, loads + 1))
      else pure (.inl (.descend q x (level - 1) (loads + 1)))

-- The first step of a method, which loads `max_height_`. `Next` and `Prev` are called on
-- a valid iterator only.
def Op.start (l : SkipList Key) (place : Option Nat) : Op Key → Exec (Option (Search Key))
  | .seekToFirst => pure (some (.follow (some 0)))
  | .seekToLast => pure (some (.descend .last (some 0) (l.maxHeight - 1) 0))
  | .seek target => pure (some (.descend (.greaterOrEqual target) (some 0) (l.maxHeight - 1) 0))
  | .next => pure (place.map fun x => .follow (some x))
  | .prev =>
      match place with
      | none => pure none
      | some x => do
          let node ← l.deref (some x)
          pure (some (.descend (.lessThan node.key) (some 0) (l.maxHeight - 1) 0))

-- A client reads the key of the node where its iterator stands.
def readPlace (l : SkipList Key) : Option Nat → Exec (Option (Nat × Key))
  | none => pure none
  | some x => do
      let node ← l.deref (some x)
      pure (some (x, node.key))

namespace System

variable (compare : Key → Key → Exec Int)

def setReader (s : System Key) (r : Nat) (reader : Reader Key) : System Key :=
  { s with readers := Function.update s.readers r reader }

-- A writer begins an insertion when it is done with the last one, and a reader a method.
def act (s : System Key) : Act Key → Exec (System Key)
  | .insert height key =>
      match s.writer with
      | .idle => do
          let prev ← s.list.fillPrev compare height key
          let l := if height > s.list.maxHeight then { s.list with maxHeight := height } else s.list
          pure { s with
            list := l
            writer := .allocating height key prev
            history := s.history ++ [.insertCalled key] }
      | _ => pure s
  | .store => do
      let (list, writer, new) ← s.writer.store s.list
      pure { s with list, writer, history := s.history ++ new }
  | .call r op =>
      match (s.readers r).search with
      | some _ => pure s
      | none => do
          match ← op.start s.list (s.readers r).place with
          | none => pure s
          | some search =>
              pure { s.setReader r { s.readers r with search := some (op, search) } with
                history := s.history ++ [.called r op] }
  | .load r =>
      match (s.readers r).search with
      | none => pure s
      | some (op, search) => do
          match ← search.load compare s.list with
          | .inl search => pure (s.setReader r { s.readers r with search := some (op, search) })
          | .inr (x, loads) => do
              let found ← readPlace s.list x
              pure { s.setReader r ⟨x, none⟩ with
                history := s.history ++ [.returned r op found loads] }

def initial [Inhabited Key] : System Key := ⟨empty, .idle, fun _ => ⟨none, none⟩, []⟩

def run [Inhabited Key] (acts : List (Act Key)) : Exec (System Key) :=
  acts.foldlM (act compare) initial

end System

-- What the list is for: the elements in order, each under the number of its insertion, and
-- the iterators on them. `writing` is the insertion that was called, and whether its
-- element is in; `asked` is the method that a reader called.
structure Sheet (Key : Type) where
  entries : List (Nat × Key)
  places : Nat → Option Nat
  writing : Option (Key × Bool)
  asked : Nat → Option (Op Key)

namespace Sheet

def initial : Sheet Key := ⟨[], fun _ => none, none, fun _ => none⟩

variable (cmp : Key → Key → Int)

-- The new element comes behind those with smaller keys.
def insert (entries : List (Nat × Key)) (x : Nat) (key : Key) : List (Nat × Key) :=
  (entries.filter fun e => decide (cmp e.2 key < 0)) ++
    (x, key) :: entries.filter fun e => !decide (cmp e.2 key < 0)

-- `Prev` searches for the last smaller key, so that it passes over the entries whose key is
-- equal to that of the current one.
def answer (entries : List (Nat × Key)) (place : Option Nat) : Op Key → Option (Nat × Key)
  | .seekToFirst => entries.head?
  | .seekToLast => entries.getLast?
  | .seek target => entries.find? fun e => !decide (cmp e.2 target < 0)
  | .next => place.bind fun x => (entries.dropWhile fun e => decide (e.1 ≠ x)).tail.head?
  | .prev => place.bind fun x => (entries.find? fun e => decide (e.1 = x)).bind fun current =>
      (entries.filter fun e => decide (cmp e.2 current.2 < 0)).getLast?

-- Between its call and its return an insertion puts its element in, in one step, and a
-- method finds its answer in one step. A method loads no more links than there are
-- elements and levels.
inductive Step (s : Sheet Key) : Record Key → Sheet Key → Prop
  | insertCalled (key : Key) : s.writing = none →
      Step s (.insertCalled key) { s with writing := some (key, false) }
  | inserted (key : Key) : s.writing = some (key, false) →
      Step s (.inserted (s.entries.length + 1) key) { s with
        entries := insert cmp s.entries (s.entries.length + 1) key
        writing := some (key, true) }
  | insertReturned (key : Key) : s.writing = some (key, true) →
      Step s .insertReturned { s with writing := none }
  | called (r : Nat) (op : Op Key) : s.asked r = none →
      Step s (.called r op) { s with asked := Function.update s.asked r (some op) }
  | returned (r : Nat) (op : Op Key) (loads : Nat) : s.asked r = some op →
      loads ≤ s.entries.length + kMaxHeight →
      Step s (.returned r op (answer cmp s.entries (s.places r) op) loads) { s with
        places := Function.update s.places r
          ((answer cmp s.entries (s.places r) op).map fun e => e.1)
        asked := Function.update s.asked r none }

end Sheet

section Alone

variable {compare : Key → Key → Exec Int} {l l' : SkipList Key} {s : System Key}

-- Two stores are one turn of the loop that links the node.
theorem splice_stores (compare : Key → Key → Exec Int) {height x i : Nat} {key : Key}
    {prev : List Slot} (hi : i < height)
    (hwriter : s.writer = .linking height key prev x i false)
    (hsplice : spliceLevel x prev s.list i = .ok l') :
    [Act.store, .store].foldlM (System.act compare) s = .ok { s with
      list := l'
      writer := .linking height key prev x (i + 1) false
      history := s.history ++ if i = 0 then [.inserted x key] else [] } := by
  obtain ⟨before, hbefore, hrest⟩ := bind_eq_ok.mp hsplice
  obtain ⟨after, hafter, hrest⟩ := bind_eq_ok.mp hrest
  obtain ⟨l₁, haim, hlead⟩ := bind_eq_ok.mp hrest
  simp [System.act, hwriter, Writer.store, hi, hbefore, hafter, haim, hlead]

-- The loop of `Insert` from level `i` on.
theorem splices_store {height x : Nat} {key : Key} {prev : List Slot} (n i : Nat) (s : System Key)
    (hn : i + n = height) (hwriter : s.writer = .linking height key prev x i false)
    (hsplices : (List.range' i n).foldlM (spliceLevel x prev) s.list = .ok l') :
    (List.replicate (2 * n) Act.store).foldlM (System.act compare) s = .ok { s with
      list := l'
      writer := .linking height key prev x height false
      history := s.history ++ if i = 0 ∧ 0 < n then [.inserted x key] else [] } := by
  induction n generalizing i s with
  | zero =>
      obtain rfl : s.list = l' := Except.ok.inj hsplices
      obtain rfl : i = height := by omega
      simp [← hwriter]
  | succ n ih =>
      rw [List.range'_succ, List.foldlM_cons] at hsplices
      obtain ⟨l₁, hsplice, hrest⟩ := bind_eq_ok.mp hsplices
      have htwo := splice_stores compare (show i < height by omega) hwriter hsplice
      have hstores : List.replicate (2 * (n + 1)) (Act.store : Act Key) =
          [.store, .store] ++ List.replicate (2 * n) .store := by
        rw [Nat.mul_succ, Nat.add_comm, List.replicate_add]
        rfl
      rw [hstores, List.foldlM_append, htwo, ok_bind,
        ih (i + 1) _ (by omega) rfl hrest]
      simp

-- The stores of `Insert`, when nothing comes between them.
theorem insert_stores {height : Nat} {key : Key} (hheight : 1 ≤ height) (hidle : s.writer = .idle)
    (hinsert : s.list.insert compare height key = .ok l') :
    (Act.insert height key :: List.replicate (2 * height + 2) .store).foldlM (System.act compare) s =
      .ok { s with
        list := l'
        history := s.history ++
          [.insertCalled key, .inserted s.list.nodes.length key, .insertReturned] } := by
  obtain ⟨prev, hprev, hsplices⟩ := bind_eq_ok.mp hinsert
  rw [List.range_eq_range'] at hsplices
  have hacts : Act.insert height key :: List.replicate (2 * height + 2) .store =
      [.insert height key, .store] ++ (List.replicate (2 * height) .store ++ [.store]) := by
    rw [List.replicate_succ, List.replicate_succ']
    rfl
  have hlength : ((if height > s.list.maxHeight then { s.list with maxHeight := height }
      else s.list).newNode key height).2 = s.list.nodes.length := by
    split <;> rfl
  have hlinks : (List.range' 0 height).foldlM (spliceLevel s.list.nodes.length prev)
      ((if height > s.list.maxHeight then { s.list with maxHeight := height }
        else s.list).newNode key height).1 = .ok l' := by
    rw [← hlength]
    exact hsplices
  have htwo : [Act.insert height key, .store].foldlM (System.act compare) s = .ok { s with
      list := ((if height > s.list.maxHeight then { s.list with maxHeight := height }
        else s.list).newNode key height).1
      writer := .linking height key prev s.list.nodes.length 0 false
      history := s.history ++ [.insertCalled key] } := by
    simp [System.act, hidle, hprev, Writer.store, hlength]
  rw [hacts, List.foldlM_append, htwo, ok_bind, List.foldlM_append,
    splices_store height 0 _ (Nat.zero_add _) rfl hlinks, ok_bind]
  simp [System.act, Writer.store, Nat.lt_of_lt_of_le Nat.zero_lt_one hheight, hidle]

-- The loads of a search, when nothing comes between them.
theorem descend_loads (q : Query Key) (op : Op Key) (r fuel level loads : Nat)
    (x x' found : Option Nat) (s : System Key)
    (hsearch : (s.readers r).search = some (op, .descend q x level loads))
    (hdescend : s.list.descend (q.advance compare s.list) fuel x level none = .ok (x', found, none))
    (e : Option (Nat × Key)) (hread : readPlace s.list (q.result x' found) = .ok e) :
    ∃ n ≤ fuel, (List.replicate n (Act.load r)).foldlM (System.act compare) s =
      .ok { s.setReader r ⟨q.result x' found, none⟩ with
        history := s.history ++ [.returned r op e (loads + n)] } := by
  induction fuel generalizing level loads x s with
  | zero => cases hdescend
  | succ fuel ih =>
      rw [descend] at hdescend
      obtain ⟨next, hnext, hrest⟩ := bind_eq_ok.mp hdescend
      obtain ⟨more, hmore, hrest⟩ := bind_eq_ok.mp hrest
      have hgoes (search : Search Key)
          (hload : Search.load compare s.list (.descend q x level loads) = .ok (.inl search)) :
          s.act compare (.load r) =
            .ok (s.setReader r { s.readers r with search := some (op, search) }) := by
        simp [System.act, hsearch, hload]
      cases more with
      | true =>
          have hload : Search.load compare s.list (.descend q x level loads) =
              .ok (.inl (.descend q next level (loads + 1))) := by
            simp [Search.load, hnext, hmore]
          obtain ⟨n, hn, hrun⟩ := ih level (loads + 1) next
            (s.setReader r { s.readers r with search := some (op, .descend q next level (loads + 1)) })
            (by simp [System.setReader]) hrest hread
          refine ⟨n + 1, Nat.succ_le_succ hn, ?_⟩
          rw [List.replicate_succ, List.foldlM_cons, hgoes _ hload, ok_bind, hrun]
          simp [System.setReader, Nat.add_assoc, Nat.add_comm 1 n]
      | false =>
          simp only [Bool.false_eq_true, ite_false, recordPrev, pure_eq, ok_bind] at hrest
          by_cases hzero : level = 0
          · -- the last load
            subst hzero
            rw [if_pos rfl] at hrest
            obtain ⟨rfl, rfl⟩ : x = x' ∧ next = found := by simpa using hrest
            have hload : Search.load compare s.list (.descend q x 0 loads) =
                .ok (.inr (q.result x next, loads + 1)) := by
              simp [Search.load, hnext, hmore]
            refine ⟨1, Nat.succ_le_succ (Nat.zero_le fuel), ?_⟩
            simp [System.act, hsearch, hload, hread]
          · rw [if_neg hzero] at hrest
            have hload : Search.load compare s.list (.descend q x level loads) =
                .ok (.inl (.descend q x (level - 1) (loads + 1))) := by
              simp [Search.load, hnext, hmore, hzero]
            obtain ⟨n, hn, hrun⟩ := ih (level - 1) (loads + 1) x
              (s.setReader r { s.readers r with
                search := some (op, .descend q x (level - 1) (loads + 1)) })
              (by simp [System.setReader]) hrest hread
            refine ⟨n + 1, Nat.succ_le_succ hn, ?_⟩
            rw [List.replicate_succ, List.foldlM_cons, hgoes _ hload, ok_bind, hrun]
            simp [System.setReader, Nat.add_assoc, Nat.add_comm 1 n]

end Alone

end Mylldb.SkipList

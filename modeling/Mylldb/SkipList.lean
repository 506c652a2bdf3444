import Mylldb.Exec

namespace Mylldb

-- What a `Node*` variable holds. A node is named by its place in the order of
-- allocation, so the head is node 0.
inductive Slot where
  | garbage
  | null
  | node (x : Nat)
  deriving DecidableEq, Repr

structure Node (Key : Type) where
  key : Key
  next : List Slot

structure SkipList (Key : Type) where
  nodes : List (Node Key)
  maxHeight : Nat

namespace SkipList

def kMaxHeight : Nat := 12

def Slot.read : Slot → Exec (Option Nat)
  | .garbage => .error .uninitialised
  | .null => .ok none
  | .node x => .ok (some x)

def Slot.ofPointer : Option Nat → Slot
  | none => .null
  | some x => .node x

-- An array of pointers on the stack, or the array `next_` of a node.
def readSlot (slots : List Slot) (i : Nat) : Exec (Option Nat) :=
  match slots[i]? with
  | none => .error .outOfBounds
  | some slot => Slot.read slot

def writeSlot (slots : List Slot) (i : Nat) (pointer : Option Nat) : Exec (List Slot) :=
  if i < slots.length then .ok (slots.set i (Slot.ofPointer pointer)) else .error .outOfBounds

variable {Key : Type}

-- Following a null pointer is a read outside of every object.
def deref (l : SkipList Key) : Option Nat → Exec (Node Key)
  | none => .error .outOfBounds
  | some x =>
      match l.nodes[x]? with
      | none => .error .outOfBounds
      | some node => .ok node

def next (l : SkipList Key) (pointer : Option Nat) (n : Nat) : Exec (Option Nat) := do
  let node ← l.deref pointer
  readSlot node.next n

def setNext (l : SkipList Key) (pointer : Option Nat) (n : Nat) (target : Option Nat) :
    Exec (SkipList Key) := do
  let node ← l.deref pointer
  let slots ← writeSlot node.next n target
  match pointer with
  | none => .error .outOfBounds
  | some x => pure { l with nodes := l.nodes.set x { node with next := slots } }

-- The body of `next_` stays uninitialised.
def newNode (l : SkipList Key) (key : Key) (height : Nat) : SkipList Key × Nat :=
  ({ l with nodes := l.nodes ++ [⟨key, List.replicate height .garbage⟩] }, l.nodes.length)

-- The head carries the key 0, which no comparison ever reads.
def empty [Inhabited Key] : SkipList Key :=
  ⟨[⟨default, List.replicate kMaxHeight .null⟩], 1⟩

-- `if (prev != NULL) prev[level] = x;`
def recordPrev (prev : Option (List Slot)) (level : Nat) (x : Option Nat) :
    Exec (Option (List Slot)) :=
  match prev with
  | none => pure none
  | some slots => do
      let slots ← writeSlot slots level x
      pure (some slots)

-- The common loop of the three searches. `advance` decides whether the search
-- goes on to `next` on the same level.
def descend (l : SkipList Key) (advance : Option Nat → Exec Bool) :
    Nat → Option Nat → Nat → Option (List Slot) →
      Exec (Option Nat × Option Nat × Option (List Slot))
  | 0, _, _, _ => .error .diverges
  | fuel + 1, x, level, prev => do
      let next ← l.next x level
      if ← advance next then
        descend l advance fuel next level prev
      else
        let prev ← recordPrev prev level x
        if level = 0 then pure (x, next, prev)
        else descend l advance fuel x (level - 1) prev

-- Every turn of the loop moves to a later node or one level down.
def searchFuel (l : SkipList Key) : Nat := l.nodes.length + l.maxHeight

section Search

variable (compare : Key → Key → Exec Int)

def keyIsAfterNode (l : SkipList Key) (key : Key) : Option Nat → Exec Bool
  | none => pure false
  | some x => do
      let node ← l.deref (some x)
      let c ← compare node.key key
      pure (decide (c < 0))

def findGreaterOrEqual (l : SkipList Key) (key : Key) (prev : Option (List Slot)) :
    Exec (Option Nat × Option (List Slot)) := do
  let (_, next, prev) ← l.descend (l.keyIsAfterNode compare key) l.searchFuel (some 0)
    (l.maxHeight - 1) prev
  pure (next, prev)

-- `next == NULL || compare_(next->key, key) >= 0`
def endsBefore (l : SkipList Key) (key : Key) : Option Nat → Exec Bool
  | none => pure true
  | some x => do
      let node ← l.deref (some x)
      let c ← compare node.key key
      pure (decide (0 ≤ c))

def findLessThan (l : SkipList Key) (key : Key) : Exec (Option Nat) := do
  let (x, _, _) ← l.descend (fun next => not <$> l.endsBefore compare key next) l.searchFuel
    (some 0) (l.maxHeight - 1) none
  pure x

def findLast (l : SkipList Key) : Exec (Option Nat) := do
  let (x, _, _) ← l.descend (fun next => pure next.isSome) l.searchFuel (some 0)
    (l.maxHeight - 1) none
  pure x

def equal (a b : Key) : Exec Bool := do
  let c ← compare a b
  pure (decide (c = 0))

def contains (l : SkipList Key) (key : Key) : Exec Bool := do
  let (x, _) ← l.findGreaterOrEqual compare key none
  match x with
  | none => pure false
  | some x => do
      let node ← l.deref (some x)
      equal compare key node.key

-- The loop that fills `prev` with the head for the levels a tall node opens.
def raiseHeight (maxHeight height : Nat) (prev : List Slot) : Exec (List Slot) :=
  (List.range (height - maxHeight)).foldlM
    (fun prev i => writeSlot prev (maxHeight + i) (some 0)) prev

def spliceLevel (x : Nat) (prev : List Slot) (l : SkipList Key) (i : Nat) :
    Exec (SkipList Key) := do
  let before ← readSlot prev i
  let after ← l.next before i
  let l ← l.setNext (some x) i after
  l.setNext before i (some x)

-- The array `prev` as `Insert` reads it: first the search fills the levels in
-- use, then the loop for a tall node fills the levels above them.
def fillPrev (l : SkipList Key) (height : Nat) (key : Key) : Exec (List Slot) := do
  let (_, prev) ← l.findGreaterOrEqual compare key (some (List.replicate kMaxHeight .garbage))
  if height > l.maxHeight then raiseHeight l.maxHeight height (prev.getD [])
  else pure (prev.getD [])

-- `height` is what `RandomHeight` draws.
def insert (l : SkipList Key) (height : Nat) (key : Key) : Exec (SkipList Key) := do
  let prev ← l.fillPrev compare height key
  let l := if height > l.maxHeight then { l with maxHeight := height } else l
  let (l, x) := l.newNode key height
  (List.range height).foldlM (spliceLevel x prev) l

-- A run of `Insert` calls on a new list, each with the height it draws.
def insertAll [Inhabited Key] (inserts : List (Nat × Key)) : Exec (SkipList Key) :=
  inserts.foldlM (fun l p => l.insert compare p.1 p.2) empty

end Search

-- An iterator of the list holds the node it stands on.
structure Iterator where
  node : Option Nat
  deriving DecidableEq

namespace Iterator

def valid (it : Iterator) : Bool := it.node.isSome

def key (l : SkipList Key) (it : Iterator) : Exec Key := do
  assertThat it.valid
  let node ← l.deref it.node
  pure node.key

def next (l : SkipList Key) (it : Iterator) : Exec Iterator := do
  assertThat it.valid
  let node ← l.next it.node 0
  pure ⟨node⟩

def prev (compare : Key → Key → Exec Int) (l : SkipList Key) (it : Iterator) :
    Exec Iterator := do
  assertThat it.valid
  let node ← l.deref it.node
  let x ← l.findLessThan compare node.key
  pure ⟨if x = some 0 then none else x⟩

def seek (compare : Key → Key → Exec Int) (l : SkipList Key) (target : Key) :
    Exec Iterator := do
  let (node, _) ← l.findGreaterOrEqual compare target none
  pure ⟨node⟩

def seekToFirst (l : SkipList Key) : Exec Iterator := do
  let node ← l.next (some 0) 0
  pure ⟨node⟩

def seekToLast (l : SkipList Key) : Exec Iterator := do
  let x ← l.findLast
  pure ⟨if x = some 0 then none else x⟩

end Iterator

end SkipList

end Mylldb

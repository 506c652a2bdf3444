import Mylldb.Coding
import Mylldb.Comparator
import Mylldb.Lib.Cursor
import Mylldb.Status

namespace Mylldb

-- `size` is 0 when the contents were found bad; then `restart_offset_` was never
-- written.
structure Block where
  data : Bytes
  size : Nat
  restartOffset : Option Nat
  deriving DecidableEq, Repr

namespace Block

def numRestarts (b : Block) : Exec Nat := do
  assertThat (b.size ≥ 4)
  decodeFixed32 b.data (b.size - 4)

def new (contents : Bytes) : Exec Block :=
  let size := contents.length
  if size < 4 then pure ⟨contents, 0, none⟩
  else do
    let maxRestartsAllowed := (size - 4) / 4
    let numRestarts ← numRestarts ⟨contents, size, none⟩
    if numRestarts > maxRestartsAllowed then pure ⟨contents, 0, none⟩
    else pure ⟨contents, size, some ((size - (1 + numRestarts) % 2 ^ 32 * 4) % 2 ^ 32)⟩

-- The lengths of an entry and the place behind them.
structure EntryHeader where
  next : Nat
  shared : Nat
  nonShared : Nat
  valueLength : Nat
  deriving DecidableEq, Repr

-- The last test of `DecodeEntry`, in `uint32_t` arithmetic.
def checkEntry (limit : Nat) (e : EntryHeader) : Option EntryHeader :=
  if (limit - e.next) % 2 ^ 32 < (e.nonShared + e.valueLength) % 2 ^ 32 then none else some e

def decodeLengths (data : Bytes) (p limit : Nat) : Exec (Option EntryHeader) := do
  match ← getVarint32Ptr data p limit with
  | none => pure none
  | some (p, shared) =>
      match ← getVarint32Ptr data p limit with
      | none => pure none
      | some (p, nonShared) =>
          match ← getVarint32Ptr data p limit with
          | none => pure none
          | some (p, valueLength) => pure (some ⟨p, shared, nonShared, valueLength⟩)

def decodeEntry (data : Bytes) (p limit : Nat) : Exec (Option EntryHeader) :=
  if limit - p < 3 then pure none
  else do
    let shared ← readByte data p
    let nonShared ← readByte data (p + 1)
    let valueLength ← readByte data (p + 2)
    if shared.toNat ||| nonShared.toNat ||| valueLength.toNat < 128 then
      pure (checkEntry limit ⟨p + 3, shared.toNat, nonShared.toNat, valueLength.toNat⟩)
    else do
      let header ← decodeLengths data p limit
      pure (header.bind (checkEntry limit))

-- `value` is the offset and the length of a slice of `data`, or nothing for a
-- slice elsewhere.
structure Iter where
  data : Bytes
  restarts : Nat
  numRestarts : Nat
  current : Nat
  restartIndex : Nat
  key : Bytes
  value : Option (Nat × Nat)
  status : Status
  deriving DecidableEq, Repr

namespace Iter

def new (data : Bytes) (restarts numRestarts : Nat) : Exec Iter := do
  assertThat (numRestarts > 0)
  pure ⟨data, restarts, numRestarts, restarts, numRestarts, [], none, .ok⟩

def valid (it : Iter) : Bool := it.current < it.restarts

-- The distance to the end of the value, as a `uint32_t`.
def nextEntryOffset (it : Iter) : Exec Nat :=
  match it.value with
  | none => .error .outOfBounds
  | some (p, length) => pure ((p + length) % 2 ^ 32)

def getRestartPoint (it : Iter) (index : Nat) : Exec Nat := do
  assertThat (index < it.numRestarts)
  decodeFixed32 it.data (it.restarts + index * 4)

def seekToRestartPoint (it : Iter) (index : Nat) : Exec Iter := do
  let offset ← it.getRestartPoint index
  pure { it with key := [], restartIndex := index, value := some (offset, 0) }

def getKey (it : Iter) : Exec Bytes := do
  assertThat it.valid
  pure it.key

-- The bytes of the slice that `value` returns.
def getValue (it : Iter) : Exec Bytes := do
  assertThat it.valid
  match it.value with
  | none => .error .outOfBounds
  | some (p, length) => readRange it.data p length

def corruptionError (it : Iter) : Iter :=
  { it with
    current := it.restarts
    restartIndex := it.numRestarts
    status := Status.corruption "bad entry in block" ""
    key := []
    value := none }

def advanceRestartIndex : Nat → Iter → Exec Iter
  | 0, _ => .error .diverges
  | fuel + 1, it =>
      if it.restartIndex + 1 < it.numRestarts then do
        let offset ← it.getRestartPoint (it.restartIndex + 1)
        if offset < it.current then
          advanceRestartIndex fuel { it with restartIndex := it.restartIndex + 1 }
        else pure it
      else pure it

def parseNextKey (it : Iter) : Exec (Iter × Bool) := do
  let current ← it.nextEntryOffset
  let it := { it with current := current }
  if current ≥ it.restarts then
    pure ({ it with current := it.restarts, restartIndex := it.numRestarts }, false)
  else
    match ← decodeEntry it.data current it.restarts with
    | none => pure (it.corruptionError, false)
    | some e =>
        if it.key.length < e.shared then pure (it.corruptionError, false)
        else do
          let rest ← readRange it.data e.next e.nonShared
          let it ← advanceRestartIndex (it.numRestarts + 1)
            { it with
              key := it.key.take e.shared ++ rest
              value := some (e.next + e.nonShared, e.valueLength) }
          pure (it, true)

def next (it : Iter) : Exec Iter := do
  let (it, _) ← it.parseNextKey
  pure it

-- `do {} while (ParseNextKey() && NextEntryOffset() < stop)`
def scan (stop : Nat) : Nat → Iter → Exec Iter
  | 0, _ => .error .diverges
  | fuel + 1, it => do
      let (it, more) ← it.parseNextKey
      if more then do
        let offset ← it.nextEntryOffset
        if offset < stop then scan stop fuel it else pure it
      else pure it

-- Every turn of a scan starts at a later entry.
def scanFuel (it : Iter) : Nat := it.restarts + 1

-- The first loop of `Prev`; the flag says whether the method goes on.
def retreatRestartIndex : Nat → Iter → Exec (Iter × Bool)
  | 0, _ => .error .diverges
  | fuel + 1, it => do
      let offset ← it.getRestartPoint it.restartIndex
      if offset ≥ it.current then
        if it.restartIndex = 0 then
          pure ({ it with current := it.restarts, restartIndex := it.numRestarts }, false)
        else retreatRestartIndex fuel { it with restartIndex := it.restartIndex - 1 }
      else pure (it, true)

def prev (it : Iter) : Exec Iter := do
  assertThat it.valid
  let original := it.current
  let (it, more) ← retreatRestartIndex (it.numRestarts + 1) it
  if more then do
    let it ← it.seekToRestartPoint it.restartIndex
    scan original it.scanFuel it
  else pure it

-- The binary search of `Seek`, or nothing after a corruption error.
def searchRestarts (cmp : Comparator) (it : Iter) (target : Bytes) :
    Nat → Nat → Nat → Exec (Option Nat)
  | 0, _, _ => .error .diverges
  | fuel + 1, left, right =>
      if left < right then do
        let mid := (left + right + 1) % 2 ^ 32 / 2
        let regionOffset ← it.getRestartPoint mid
        match ← decodeEntry it.data regionOffset it.restarts with
        | none => pure none
        | some e =>
            if e.shared ≠ 0 then pure none
            else do
              let midKey ← readRange it.data e.next e.nonShared
              if cmp.compare midKey target < 0 then searchRestarts cmp it target fuel mid right
              else searchRestarts cmp it target fuel left (mid - 1)
      else pure (some left)

-- The linear search of `Seek`.
def scanKeys (cmp : Comparator) (target : Bytes) : Nat → Iter → Exec Iter
  | 0, _ => .error .diverges
  | fuel + 1, it => do
      let (it, more) ← it.parseNextKey
      if more then
        if cmp.compare it.key target ≥ 0 then pure it else scanKeys cmp target fuel it
      else pure it

def seek (cmp : Comparator) (it : Iter) (target : Bytes) : Exec Iter := do
  match ← searchRestarts cmp it target it.numRestarts 0 (sub32 it.numRestarts 1) with
  | none => pure it.corruptionError
  | some left => do
      let it ← it.seekToRestartPoint left
      scanKeys cmp target it.scanFuel it

def seekToFirst (it : Iter) : Exec Iter := do
  let it ← it.seekToRestartPoint 0
  it.next

def seekToLast (it : Iter) : Exec Iter := do
  let it ← it.seekToRestartPoint (sub32 it.numRestarts 1)
  scan it.restarts it.scanFuel it

end Iter

-- What `NewIterator` returns: an `EmptyIterator` with its status, or an `Iter`.
inductive BlockIterator where
  | empty (status : Status)
  | iter (it : Iter)
  deriving DecidableEq, Repr

def newIterator (b : Block) : Exec BlockIterator :=
  if b.size < 4 then pure (.empty (Status.corruption "bad block contents" ""))
  else do
    let numRestarts ← b.numRestarts
    if numRestarts = 0 then pure (.empty .ok)
    else
      match b.restartOffset with
      | none => .error .uninitialised
      | some restartOffset => do
          let it ← Iter.new b.data restartOffset numRestarts
          pure (.iter it)

namespace BlockIterator

def valid : BlockIterator → Bool
  | .empty _ => false
  | .iter it => it.valid

def status : BlockIterator → Status
  | .empty status => status
  | .iter it => it.status

def key : BlockIterator → Exec Bytes
  | .empty _ => .error .assertion
  | .iter it => it.getKey

def value : BlockIterator → Exec Bytes
  | .empty _ => .error .assertion
  | .iter it => it.getValue

-- The positioning methods do nothing on an `EmptyIterator`, and `Next` and
-- `Prev` fail there.
def position (f : Iter → Exec Iter) : BlockIterator → Exec BlockIterator
  | .empty status => pure (.empty status)
  | .iter it => do
      let it ← f it
      pure (.iter it)

def step (f : Iter → Exec Iter) : BlockIterator → Exec BlockIterator
  | .empty _ => .error .assertion
  | .iter it => do
      let it ← f it
      pure (.iter it)

-- The methods of the iterator, with a search of any kind.
def machine {τ : Type} (seek : Iter → τ → Exec Iter) :
    Lib.Cursor.Machine Fault BlockIterator τ where
  valid := valid
  toFirst := position Iter.seekToFirst
  toLast := position Iter.seekToLast
  seek it target := position (fun it => seek it target) it
  next := step Iter.next
  prev := step Iter.prev

end BlockIterator

end Block

end Mylldb

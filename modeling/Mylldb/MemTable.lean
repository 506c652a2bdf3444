import Mylldb.DbFormat
import Mylldb.SkipList
import Mylldb.Status

namespace Mylldb

-- The offset and the length of the slice. A null pointer here is a slice whose
-- length was never written.
def getLengthPrefixedSlice (data : Bytes) (p : Nat) : Exec (Nat × Nat) := do
  match ← getVarint32Ptr data p (p + 5) with
  | none => throw .uninitialised
  | some (q, len) => pure (q, len)

def encodeKey (target : Bytes) : Bytes := putVarint32 [] target.length ++ target

-- The skip list holds pointers to entries. Each entry is a block of its own, so
-- the pointer stands for the bytes of that block.
structure MemTable where
  table : SkipList Bytes

namespace MemTable

def empty : MemTable := ⟨SkipList.empty⟩

-- The block that `Add` fills.
def encodeEntry (s : Nat) (t : ValueType) (key value : Bytes) : Exec Bytes := do
  let keySize := key.length
  let valSize := value.length
  let internalKeySize := keySize + 8
  let encodedLen := varintLength internalKeySize + internalKeySize + varintLength valSize + valSize
  let buf := encodeVarint32 (internalKeySize % 2 ^ 32) ++ key ++
    encodeFixed64 ((s <<< 8 ||| t.toNat) % 2 ^ 64) ++ encodeVarint32 (valSize % 2 ^ 32) ++ value
  if buf.length ≤ encodedLen then do
    assertThat (buf.length = encodedLen)
    pure buf
  else .error .outOfBounds

section

variable (user : Comparator)

def keyComparator (aptr bptr : Bytes) : Exec Int := do
  let (ap, alen) ← getLengthPrefixedSlice aptr 0
  let (bp, blen) ← getLengthPrefixedSlice bptr 0
  let a ← readRange aptr ap alen
  let b ← readRange bptr bp blen
  internalCompare user a b

-- `height` is what `RandomHeight` draws.
def add (m : MemTable) (height s : Nat) (t : ValueType) (key value : Bytes) :
    Exec MemTable := do
  let buf ← encodeEntry s t key value
  let table ← m.table.insert (keyComparator user) height buf
  pure ⟨table⟩

-- The result, and what the call leaves in `*value` and `*s`.
def get (m : MemTable) (key : LookupKey) (value : Bytes) (s : Status) :
    Exec (Bool × Bytes × Status) := do
  let memkey := key.memtableKey
  let it ← SkipList.Iterator.seek (keyComparator user) m.table memkey
  if it.valid then do
    let entry ← it.key m.table
    match ← getVarint32Ptr entry 0 5 with
    | none => throw .uninitialised
    | some (keyPtr, keyLength) => do
        let entryKey ← readRange entry keyPtr (sub32 keyLength 8)
        if user.compare entryKey key.userKey = 0 then do
          let tag ← decodeFixed64 entry (keyPtr + keyLength - 8)
          if tag &&& 0xff = ValueType.kTypeValue.toNat then do
            let (vp, vlen) ← getLengthPrefixedSlice entry (keyPtr + keyLength)
            let v ← readRange entry vp vlen
            pure (true, v, s)
          else if tag &&& 0xff = ValueType.kTypeDeletion.toNat then
            pure (true, value, Status.notFound "" "")
          else pure (false, value, s)
        else pure (false, value, s)
  else pure (false, value, s)

end

end MemTable

-- `iter_` of a `MemTableIterator`.
structure MemTableIterator where
  iter : SkipList.Iterator
  deriving DecidableEq

namespace MemTableIterator

def valid (it : MemTableIterator) : Bool := it.iter.valid

def seekToFirst (m : MemTable) : Exec MemTableIterator := do
  let iter ← SkipList.Iterator.seekToFirst m.table
  pure ⟨iter⟩

def seekToLast (m : MemTable) : Exec MemTableIterator := do
  let iter ← SkipList.Iterator.seekToLast m.table
  pure ⟨iter⟩

def seek (user : Comparator) (m : MemTable) (target : Bytes) : Exec MemTableIterator := do
  let iter ← SkipList.Iterator.seek (MemTable.keyComparator user) m.table (encodeKey target)
  pure ⟨iter⟩

def next (m : MemTable) (it : MemTableIterator) : Exec MemTableIterator := do
  let iter ← it.iter.next m.table
  pure ⟨iter⟩

def prev (user : Comparator) (m : MemTable) (it : MemTableIterator) :
    Exec MemTableIterator := do
  let iter ← it.iter.prev (MemTable.keyComparator user) m.table
  pure ⟨iter⟩

def key (m : MemTable) (it : MemTableIterator) : Exec Bytes := do
  let entry ← it.iter.key m.table
  let (p, len) ← getLengthPrefixedSlice entry 0
  readRange entry p len

def value (m : MemTable) (it : MemTableIterator) : Exec Bytes := do
  let entry ← it.iter.key m.table
  let (p, len) ← getLengthPrefixedSlice entry 0
  let (vp, vlen) ← getLengthPrefixedSlice entry (p + len)
  readRange entry vp vlen

def status : Status := .ok

-- `for (; it->Valid(); it->Next())`, collecting what the iterator shows.
def enumerate (m : MemTable) : Nat → MemTableIterator → Exec (List (Bytes × Bytes))
  | 0, _ => .error .diverges
  | fuel + 1, it =>
      if it.valid then do
        let key ← it.key m
        let value ← it.value m
        let it ← it.next m
        let rest ← enumerate m fuel it
        pure ((key, value) :: rest)
      else pure []

end MemTableIterator

end Mylldb

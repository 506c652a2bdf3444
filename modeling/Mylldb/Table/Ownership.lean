import Mylldb.Lib.Ownership
import Mylldb.Table

namespace Mylldb

open Lib.Ownership Lib.Run

-- The objects that reading a table makes, with the pointers for which they answer, but for
-- strings and the states of `Status` values. A buffer is marked with the handle of the block
-- that was to be read into it.
inductive Object where
  | chars (handle : BlockHandle)
  | block (data : Option Nat) (owned : Bool)
  | bytewiseComparatorImpl
  | iterator
  | filterBlockBuilder
  | rep (filter filterData indexBlock : Option Nat)
  | table (rep : Nat)
  deriving DecidableEq, Repr

abbrev Objects := Heap Object

-- A run goes wrong by what it computes or by what it does to its objects.
abbrev Owning (α : Type) := Except (Fault ⊕ Misuse) α

namespace Owning

def run {α : Type} (x : Exec α) : Owning α := x.mapError .inl

def touch {α : Type} (x : Except Misuse α) : Owning α := x.mapError .inr

end Owning

open Owning

-- `~Block`, and the memory of the block itself.
def deleteBlock (heap : Objects) (p : Nat) : Owning Objects := do
  match ← touch (heap.load p) with
  | .block data owned => do
      let heap ← touch (if owned then heap.release data else .ok heap)
      touch (heap.delete p)
  | _ => .error (.inr .dangling)

section

variable (place : Placement Object)

-- `ReadBlock`: with the status and the contents, the buffer in which the data lies when
-- it does not lie in the memory of the file.
def readBlockIn (heap : Objects) (file : RandomAccessFile) (options : ReadOptions)
    (handle : BlockHandle) : Owning (Objects × Status × BlockContents × Option Nat) := do
  let n := handle.size
  let (heap, buf) := heap.new place (.chars handle)
  let s := file.read handle.offset ((n + kBlockTrailerSize) % 2 ^ 64)
  if s.status ≠ .ok then do
    let heap ← touch (heap.delete buf)
    pure (heap, s.status, emptyContents, none)
  else if s.contents.length ≠ (n + kBlockTrailerSize) % 2 ^ 64 then do
    let heap ← touch (heap.delete buf)
    pure (heap, Status.corruption "truncated block read" "", emptyContents, none)
  else do
    let intact ← run (checkBlock options s.contents s.address n)
    if intact then do
      let type ← run (readByte s.contents n)
      if type = CompressionType.kNoCompression.toByte then
        if s.inScratch then pure (heap, .ok, ⟨s.contents.take n, true, true⟩, some buf)
        else do
          let heap ← touch (heap.delete buf)
          pure (heap, .ok, ⟨s.contents.take n, false, false⟩, none)
      else if type = CompressionType.kSnappyCompression.toByte then
        pure (heap, .ok, emptyContents, none)
      else do
        let heap ← touch (heap.delete buf)
        pure (heap, Status.corruption "bad block type" "", emptyContents, none)
    else do
      let heap ← touch (heap.delete buf)
      pure (heap, Status.corruption "block checksum mismatch" "", emptyContents, none)

variable (env : Environment)

namespace Table

def readFilterIn (heap : Objects) (rep : Nat) (t : Table) (policy : Nat) (filterHandleValue : Bytes) :
    Owning (Objects × Table) := do
  let (s, filterHandle, _) := env.blockHandle.decodeFrom env.getVarint64 filterHandleValue
  if s ≠ .ok then pure (heap, t)
  else do
    let (heap, s, block, data) ←
      readBlockIn place heap t.file (readOptions t.options) filterHandle
    if s ≠ .ok then pure (heap, t)
    else
      match ← touch (heap.load rep) with
      | .rep _ filterData indexBlock => do
          let filterData := if block.heapAllocated then data else filterData
          let (heap, filter) := heap.new place .filterBlockBuilder
          let heap ← touch (heap.store rep (.rep (some filter) filterData indexBlock))
          pure (heap, { t with
            filterData := if block.heapAllocated then some block.data else t.filterData
            filter := some (policy, block.data) })
      | _ => .error (.inr .dangling)

-- What `ReadMeta` does when the search in the metaindex block is over.
def readFoundIn (heap : Objects) (rep : Nat) (t : Table) (policy : Nat) (key : Bytes)
    (iter : Block.BlockIterator) : Owning (Objects × Table) :=
  if iter.valid then do
    let found ← run iter.key
    if found = key then do
      let filterHandleValue ← run iter.value
      t.readFilterIn place env heap rep policy filterHandleValue
    else pure (heap, t)
  else pure (heap, t)

-- `BytewiseComparator` makes an object at every call and keeps its address in a variable, from
-- which nobody deletes it.
def readMetaIn (heap : Objects) (rep : Nat) (t : Table) (footer : Footer) :
    Owning (Objects × Table) :=
  match t.options.filterPolicy with
  | none => pure (heap, t)
  | some policy => do
      let (heap, s, contents, data) ←
        readBlockIn place heap t.file (readOptions t.options) footer.metaindexHandle
      if s ≠ .ok then pure (heap, t)
      else do
        let metaBlock ← run (Block.new contents.data)
        let (heap, metaPtr) := heap.new place (.block data contents.heapAllocated)
        let (heap, _) := heap.new place .bytewiseComparatorImpl
        let iter ← run metaBlock.newIterator
        let (heap, iterPtr) := heap.new place .iterator
        let key := TableBuilder.filterKey (env.policyName policy)
        let iter ← run (iter.position (fun it => it.seek bytewiseComparator key))
        let (heap, t) ← t.readFoundIn place env heap rep policy key iter
        let heap ← touch (heap.delete iterPtr)
        let heap ← deleteBlock heap metaPtr
        pure (heap, t)

-- `Table::Open`: the status, and the table with its address or NULL.
def openIn (heap : Objects) (options : Options) (file : RandomAccessFile) (size : Nat) :
    Owning (Objects × Status × Option (Table × Nat)) :=
  if size < Footer.kEncodedLength then
    pure (heap, Status.corruption "file is too short to be an sstable" "", none)
  else
    let footerInput := file.read (size - Footer.kEncodedLength) Footer.kEncodedLength
    if footerInput.status ≠ .ok then pure (heap, footerInput.status, none)
    else do
      let (s, footer, _) ← run (Footer.decodeFrom env.getVarint64 ⟨env.blockHandle, env.blockHandle⟩
        footerInput.contents)
      if s ≠ .ok then pure (heap, s, none)
      else do
        let (heap, s, contents, data) ←
          readBlockIn place heap file (readOptions options) footer.indexHandle
        if s = .ok then do
          let indexBlock ← run (Block.new contents.data)
          let (heap, indexPtr) := heap.new place (.block data contents.heapAllocated)
          let (heap, rep) := heap.new place (.rep none none (some indexPtr))
          let t : Table := {
            options
            file
            cacheId := match options.blockCache with
              | none => 0
              | some cache => env.newId cache
            filter := none
            filterData := none
            metaindexHandle := footer.metaindexHandle
            indexBlock }
          let (heap, table) := heap.new place (.table rep)
          let (heap, t) ← t.readMetaIn place env heap rep footer
          pure (heap, s, some (t, table))
        else pure (heap, s, none)

end Table

end

namespace Table

-- `~Rep`, and the memory of it.
def deleteRep (heap : Objects) (p : Nat) : Owning Objects := do
  match ← touch (heap.load p) with
  | .rep filter filterData indexBlock => do
      let heap ← touch (heap.release filter)
      let heap ← touch (heap.release filterData)
      let heap ←
        match indexBlock with
        | none => pure heap
        | some block => deleteBlock heap block
      touch (heap.delete p)
  | _ => .error (.inr .dangling)

-- `~Table`, and the memory of it.
def delete (heap : Objects) (p : Nat) : Owning Objects := do
  match ← touch (heap.load p) with
  | .table rep => do
      let heap ← deleteRep heap rep
      touch (heap.delete p)
  | _ => .error (.inr .dangling)

end Table

end Mylldb

import Mylldb.Block
import Mylldb.TableBuilder

namespace Mylldb

-- The `Rep` of a table. The filter is made from a policy and the data of its
-- block.
structure Table where
  options : Options
  file : RandomAccessFile
  cacheId : Nat
  filter : Option (Nat × Bytes)
  filterData : Option Bytes
  metaindexHandle : BlockHandle
  indexBlock : Block

namespace Table

variable (env : Environment)

def readOptions (options : Options) : ReadOptions :=
  { ReadOptions.default with
    verifyChecksums := options.paranoidChecks || ReadOptions.default.verifyChecksums }

def readFilter (t : Table) (policy : Nat) (filterHandleValue : Bytes) : Exec Table := do
  let (s, filterHandle, _) := env.blockHandle.decodeFrom env.getVarint64 filterHandleValue
  if s ≠ .ok then pure t
  else do
    let (s, block) ← readBlock t.file (readOptions t.options) filterHandle
    if s ≠ .ok then pure t
    else
      pure { t with
        filterData := if block.heapAllocated then some block.data else t.filterData
        filter := some (policy, block.data) }

def readMeta (t : Table) (footer : Footer) : Exec Table :=
  match t.options.filterPolicy with
  | none => pure t
  | some policy => do
      let (s, contents) ← readBlock t.file (readOptions t.options) footer.metaindexHandle
      if s ≠ .ok then pure t
      else do
        let metaBlock ← Block.new contents.data
        let iter ← metaBlock.newIterator
        let key := TableBuilder.filterKey (env.policyName policy)
        let iter ← iter.position (fun it => it.seek bytewiseComparator key)
        if iter.valid then do
          let found ← iter.key
          if found = key then do
            let filterHandleValue ← iter.value
            t.readFilter env policy filterHandleValue
          else pure t
        else pure t

-- `Table::Open`: the status, and the table or NULL.
def openTable (options : Options) (file : RandomAccessFile) (size : Nat) :
    Exec (Status × Option Table) :=
  if size < Footer.kEncodedLength then
    pure (Status.corruption "file is too short to be an sstable" "", none)
  else
    let footerInput := file.read (size - Footer.kEncodedLength) Footer.kEncodedLength
    if footerInput.status ≠ .ok then pure (footerInput.status, none)
    else do
      let (s, footer, _) ← Footer.decodeFrom env.getVarint64 ⟨env.blockHandle, env.blockHandle⟩
        footerInput.contents
      if s ≠ .ok then pure (s, none)
      else do
        let (s, contents) ← readBlock file (readOptions options) footer.indexHandle
        if s = .ok then do
          let indexBlock ← Block.new contents.data
          let table : Table := {
            options
            file
            cacheId := match options.blockCache with
              | none => 0
              | some cache => env.newId cache
            filter := none
            filterData := none
            metaindexHandle := footer.metaindexHandle
            indexBlock }
          let table ← table.readMeta env footer
          pure (s, some table)
        else pure (s, none)

end Table

end Mylldb

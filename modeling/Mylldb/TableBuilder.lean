import Mylldb.BlockBuilder
import Mylldb.Comparator
import Mylldb.Format

namespace Mylldb

-- The class is declared and not defined, so that a builder is the policy it was
-- made with and the calls it has seen.
inductive FilterCall where
  | startBlock (blockOffset : Nat)
  | addKey (key : Bytes)
  deriving DecidableEq, Repr

structure FilterBlockBuilder where
  policy : Nat
  calls : List FilterCall
  deriving DecidableEq, Repr

namespace FilterBlockBuilder

def startBlock (f : FilterBlockBuilder) (blockOffset : Nat) : FilterBlockBuilder :=
  { f with calls := f.calls ++ [.startBlock blockOffset] }

def addKey (f : FilterBlockBuilder) (key : Bytes) : FilterBlockBuilder :=
  { f with calls := f.calls ++ [.addKey key] }

end FilterBlockBuilder

-- What a table needs from elsewhere: the client's objects by address, what is
-- called and not defined here (`findShortestSeparator` is the call with one
-- argument, `blockHandle` the default constructor), and where the bytes lie that
-- a checksum is computed over.
structure Environment where
  comparator : Nat → Comparator
  findShortestSeparator : Nat → Bytes → Bytes
  policyName : Nat → Bytes
  finishFilter : FilterBlockBuilder → Bytes
  getVarint64 : VarintDecoder
  blockHandle : BlockHandle
  newId : Nat → Nat
  blockAddress : FileLog → Nat
  trailerAddress : FileLog → Nat

-- The `Rep` of a builder. `log` lists the calls that reached the file.
structure TableBuilder where
  options : Options
  indexBlockOptions : Options
  log : FileLog
  offset : Nat
  status : Status
  dataBlock : BlockBuilder
  indexBlock : BlockBuilder
  lastKey : Bytes
  numEntries : Nat
  closed : Bool
  filterBlock : Option FilterBlockBuilder
  pendingIndexEntry : Bool
  pendingHandle : BlockHandle
  deriving DecidableEq, Repr

-- The type byte and the masked checksum of the contents and the type byte.
def blockTrailer (env : Environment) (log : FileLog) (data : Bytes) (type : CompressionType) :
    Exec Bytes := do
  let crc ← Crc32c.value (env.blockAddress log) data
  let crc ← Crc32c.extend crc (env.trailerAddress log) [type.toByte]
  pure (type.toByte :: encodeFixed32 (Crc32c.mask crc).toNat)

namespace TableBuilder

variable (env : Environment) (file : WritableFile)

-- Both blocks are constructed before the interval of the index block is set.
def new (options : Options) : Exec TableBuilder := do
  let dataBlock ← BlockBuilder.new options.blockRestartInterval
  let indexBlock ← BlockBuilder.new options.blockRestartInterval
  pure {
    options
    indexBlockOptions := { options with blockRestartInterval := 1 }
    log := []
    offset := 0
    status := .ok
    dataBlock
    indexBlock
    lastKey := []
    numEntries := 0
    closed := false
    filterBlock := options.filterPolicy.map fun policy =>
      FilterBlockBuilder.startBlock ⟨policy, []⟩ 0
    pendingIndexEntry := false
    pendingHandle := env.blockHandle }

-- Comparators are compared by address.
def changeOptions (r : TableBuilder) (options : Options) : TableBuilder × Status :=
  if options.comparator ≠ r.options.comparator then
    (r, Status.invalidArgument "changing comparator while building table" "")
  else
    ({ r with options, indexBlockOptions := { options with blockRestartInterval := 1 } }, .ok)

-- `r->status = r->file->Append(data)`
def appendFile (r : TableBuilder) (data : Bytes) : TableBuilder :=
  let (log, status) := file.call r.log (.append data)
  { r with log, status }

-- `r->status = r->file->Flush()`
def flushFile (r : TableBuilder) : TableBuilder :=
  let (log, status) := file.call r.log .flush
  { r with log, status }

def writeRawBlock (r : TableBuilder) (data : Bytes) (type : CompressionType) :
    Exec (TableBuilder × BlockHandle) :=
  let handle : BlockHandle := ⟨r.offset, data.length⟩
  let r := r.appendFile file data
  if r.status = .ok then do
    let trailer ← blockTrailer env r.log data type
    let r := r.appendFile file trailer
    if r.status = .ok then
      pure ({ r with offset := (r.offset + (data.length + kBlockTrailerSize)) % 2 ^ 64 }, handle)
    else pure (r, handle)
  else pure (r, handle)

-- The builder, the block after its reset and the handle of what was written.
-- No branch of the source compresses.
def writeBlock (r : TableBuilder) (block : BlockBuilder) :
    Exec (TableBuilder × BlockBuilder × BlockHandle) := do
  assertThat (r.status = .ok)
  let (block, raw) := block.finish
  let type := r.options.compression
  let blockContents := match type with
    | .kNoCompression => raw
    | .kSnappyCompression => raw
  let (r, handle) ← r.writeRawBlock env file blockContents type
  pure (r, block.reset, handle)

def startFilterBlock (r : TableBuilder) : TableBuilder :=
  { r with filterBlock := r.filterBlock.map (·.startBlock r.offset) }

def flush (r : TableBuilder) : Exec TableBuilder := do
  assertThat (r.closed = false)
  if r.status ≠ .ok then pure r
  else if r.dataBlock.empty then pure r
  else do
    assertThat (r.pendingIndexEntry = false)
    let (r, dataBlock, pendingHandle) ← r.writeBlock env file r.dataBlock
    let r := { r with dataBlock, pendingHandle }
    if r.status = .ok then
      pure (({ r with pendingIndexEntry := true }).flushFile file).startFilterBlock
    else pure r.startFilterBlock

-- The pending entry of the index block, under a separator that also becomes the
-- last key.
def addIndexEntry (r : TableBuilder) (separator : Bytes) : Exec TableBuilder := do
  let handleEncoding ← r.pendingHandle.encodeTo []
  let indexBlock ←
    r.indexBlock.add r.indexBlockOptions.blockRestartInterval separator handleEncoding
  pure { r with lastKey := separator, indexBlock, pendingIndexEntry := false }

-- Keys come in increasing order.
def checkOrder (r : TableBuilder) (key : Bytes) : Exec Unit :=
  if r.numEntries > 0 then
    assertThat ((env.comparator r.options.comparator).compare key r.lastKey > 0)
  else pure ()

-- The index entry of the block before, once the first key of the next one is known.
def addPendingEntry (r : TableBuilder) (key : Bytes) : Exec TableBuilder :=
  if r.pendingIndexEntry then do
    assertThat (r.dataBlock.empty = true)
    r.addIndexEntry ((env.comparator r.options.comparator).findShortestSeparator r.lastKey key)
  else pure r

def add (r : TableBuilder) (key value : Bytes) : Exec TableBuilder := do
  assertThat (r.closed = false)
  r.checkOrder env key
  let r ← r.addPendingEntry env key
  let r : TableBuilder := {
    r with
    filterBlock := r.filterBlock.map (·.addKey key)
    lastKey := key
    numEntries := (r.numEntries + 1) % 2 ^ 64 }
  let dataBlock ← r.dataBlock.add r.options.blockRestartInterval key value
  let r : TableBuilder := { r with dataBlock }
  if r.dataBlock.currentSizeEstimate ≥ r.options.blockSize then r.flush env file else pure r

def writeFilterBlock (r : TableBuilder) : Exec (TableBuilder × BlockHandle) :=
  match r.filterBlock with
  | none => pure (r, env.blockHandle)
  | some filter =>
      if r.status = .ok then r.writeRawBlock env file (env.finishFilter filter) .kNoCompression
      else pure (r, env.blockHandle)

-- The name of the policy in the options, through a pointer that may be NULL.
def policyName (r : TableBuilder) : Exec Bytes :=
  match r.options.filterPolicy with
  | none => .error .outOfBounds
  | some policy => pure (env.policyName policy)

def filterKey (name : Bytes) : Bytes := "filter.".toList.map (fun c => UInt8.ofNat c.toNat) ++ name

def addFilterEntry (r : TableBuilder) (block : BlockBuilder) (filterHandle : BlockHandle) :
    Exec BlockBuilder :=
  if r.filterBlock.isSome then do
    let name ← r.policyName env
    let handleEncoding ← filterHandle.encodeTo []
    block.add r.options.blockRestartInterval (filterKey name) handleEncoding
  else pure block

def writeMetaindexBlock (r : TableBuilder) (filterHandle : BlockHandle) : Exec TableBuilder := do
  let metaIndexBlock ← BlockBuilder.new r.options.blockRestartInterval
  let metaIndexBlock ← r.addFilterEntry env metaIndexBlock filterHandle
  let (r, _, _) ← r.writeBlock env file metaIndexBlock
  pure r

-- The index entry of the last block.
def addLastEntry (r : TableBuilder) : Exec TableBuilder :=
  if r.pendingIndexEntry then
    r.addIndexEntry (env.findShortestSeparator r.options.comparator r.lastKey)
  else pure r

def writeIndexBlock (r : TableBuilder) : Exec TableBuilder := do
  let r ← r.addLastEntry env
  let (r, indexBlock, _) ← r.writeBlock env file r.indexBlock
  pure { r with indexBlock }

-- The `if (ok())` around a part of `Finish`.
def ifOk (r : TableBuilder) (part : TableBuilder → Exec TableBuilder) : Exec TableBuilder :=
  if r.status = .ok then part r else pure r

-- The body has no `return`, so there is never a status to hand back.
def finish (r : TableBuilder) : Exec (TableBuilder × Option Status) := do
  let r ← r.flush env file
  assertThat (r.closed = false)
  let r : TableBuilder := { r with closed := true }
  let (r, filterHandle) ← r.writeFilterBlock env file
  let r ← r.ifOk (·.writeMetaindexBlock env file filterHandle)
  let r ← r.ifOk (·.writeIndexBlock env file)
  pure (r, none)

def abandon (r : TableBuilder) : Exec TableBuilder := do
  assertThat (r.closed = false)
  pure { r with closed := true }

def fileSize (r : TableBuilder) : Nat := r.offset

-- The destructor, which asks for `Finish` or `Abandon` before it.
def destroy (r : TableBuilder) : Exec Unit := assertThat (r.closed = true)

-- A call of a method by a client.
inductive Call where
  | add (key value : Bytes)
  | flush
  | changeOptions (options : Options)
  | finish
  | abandon
  deriving DecidableEq, Repr

def step (r : TableBuilder) : Call → Exec TableBuilder
  | .add key value => r.add env file key value
  | .flush => r.flush env file
  | .changeOptions options => pure (r.changeOptions options).1
  | .finish => do
      let (r, _) ← r.finish env file
      pure r
  | .abandon => r.abandon

def run (r : TableBuilder) (calls : List Call) : Exec TableBuilder :=
  calls.foldlM (step env file) r

-- The states between the calls of a run, from the first to the last.
def history (r : TableBuilder) : List Call → Exec (List TableBuilder)
  | [] => pure [r]
  | c :: calls => do
      let next ← r.step env file c
      let later ← next.history calls
      pure (r :: later)

end TableBuilder

end Mylldb

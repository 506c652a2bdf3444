import Mylldb.Coding
import Mylldb.Crc32c
import Mylldb.Env
import Mylldb.Options

namespace Mylldb

def kTableMagicNumber : Nat := 0xdb4775248b80fb57

-- 1-byte type + 32-bit crc
def kBlockTrailerSize : Nat := 5

structure BlockContents where
  data : Bytes
  cachable : Bool
  heapAllocated : Bool
  deriving DecidableEq, Repr

-- Both fields are `uint64_t`, and `ReadBlock` takes the size to a `size_t` of 64 bits.
structure BlockHandle where
  offset : Nat
  size : Nat
  deriving DecidableEq, Repr

-- `GetVarint64` has no definition here: the value that it finds and the rest of
-- the input, or nothing with the input as it was.
abbrev VarintDecoder := Bytes → Option (Nat × Bytes)

-- The decoder undoes `PutVarint64`.
def VarintDecoder.Decodes (getVarint64 : VarintDecoder) : Prop :=
  ∀ v rest, v < 2 ^ 64 → getVarint64 (putVarint64 [] v ++ rest) = some (v, rest)

namespace BlockHandle

def kMaxEncodedLength : Nat := 10 + 10

def encodeTo (h : BlockHandle) (dst : Bytes) : Exec Bytes := do
  assertThat (h.offset ≠ 2 ^ 64 - 1)
  assertThat (h.size ≠ 2 ^ 64 - 1)
  pure (putVarint64 (putVarint64 dst h.offset) h.size)

-- The status, the handle and the rest of the input.
def decodeFrom (getVarint64 : VarintDecoder) (h : BlockHandle) (input : Bytes) :
    Status × BlockHandle × Bytes :=
  match getVarint64 input with
  | none => (Status.corruption "bad block handle" "", h, input)
  | some (offset, input) =>
      match getVarint64 input with
      | none => (Status.corruption "bad block handle" "", { h with offset }, input)
      | some (size, input) => (.ok, ⟨offset, size⟩, input)

end BlockHandle

structure Footer where
  metaindexHandle : BlockHandle
  indexHandle : BlockHandle
  deriving DecidableEq, Repr

-- `std::string::resize`
def resize (s : Bytes) (n : Nat) : Bytes := s.take n ++ List.replicate (n - s.length) 0

namespace Footer

def kEncodedLength : Nat := 2 * BlockHandle.kMaxEncodedLength + 8

def encodeTo (f : Footer) (dst : Bytes) : Exec Bytes := do
  let originalSize := dst.length
  let dst ← f.metaindexHandle.encodeTo dst
  let dst ← f.indexHandle.encodeTo dst
  let dst := resize dst (2 * BlockHandle.kMaxEncodedLength)
  let dst := putFixed32 dst (kTableMagicNumber &&& 0xffffffff)
  let dst := putFixed32 dst (kTableMagicNumber >>> 32)
  assertThat (dst.length = originalSize + kEncodedLength)
  pure dst

-- The magic number is looked for at a fixed distance from the start of the
-- input; what follows it is the rest of the input.
def decodeFrom (getVarint64 : VarintDecoder) (f : Footer) (input : Bytes) :
    Exec (Status × Footer × Bytes) := do
  let magicPtr := kEncodedLength - 8
  let magicLo ← decodeFixed32 input magicPtr
  let magicHi ← decodeFixed32 input (magicPtr + 4)
  let magic := magicHi <<< 32 ||| magicLo
  if magic ≠ kTableMagicNumber then
    pure (Status.corruption "not an sstable (bad magic number)" "", f, input)
  else
    let (result, metaindexHandle, rest) := f.metaindexHandle.decodeFrom getVarint64 input
    if result.isOk then
      let (result, indexHandle, rest) := f.indexHandle.decodeFrom getVarint64 rest
      if result.isOk then
        pure (result, ⟨metaindexHandle, indexHandle⟩, input.drop (magicPtr + 8))
      else pure (result, ⟨metaindexHandle, indexHandle⟩, rest)
    else pure (result, ⟨metaindexHandle, f.indexHandle⟩, rest)

end Footer

-- Compares the stored checksum with that of the contents and the type. `data + n + 1` is
-- a sum of 64 bits like `n + 1`: for the largest `n` it is `data` again.
def checksumMatches (data : Bytes) (address n : Nat) : Exec Bool := do
  let stored ← decodeFixed32 data ((n + 1) % 2 ^ 64)
  let crc := Crc32c.unmask (BitVec.ofNat 32 stored)
  let checked ← readRange data 0 ((n + 1) % 2 ^ 64)
  let actual ← Crc32c.value address checked
  pure (actual == crc)

def checkBlock (options : ReadOptions) (data : Bytes) (address n : Nat) : Exec Bool :=
  if options.verifyChecksums then checksumMatches data address n else pure true

def emptyContents : BlockContents := ⟨[], false, false⟩

-- The `switch` over the type byte. A slice in the scratch buffer is handed on with
-- the buffer.
def typedContents (s : ReadResult) (n : Nat) : Exec (Status × BlockContents) := do
  let type ← readByte s.contents n
  if type = CompressionType.kNoCompression.toByte then
    pure (.ok, ⟨s.contents.take n, s.inScratch, s.inScratch⟩)
  else if type = CompressionType.kSnappyCompression.toByte then pure (.ok, emptyContents)
  else pure (Status.corruption "bad block type" "", emptyContents)

def readBlock (file : RandomAccessFile) (options : ReadOptions) (handle : BlockHandle) :
    Exec (Status × BlockContents) := do
  let n := handle.size
  let s := file.read handle.offset ((n + kBlockTrailerSize) % 2 ^ 64)
  if s.status ≠ .ok then pure (s.status, emptyContents)
  else if s.contents.length ≠ (n + kBlockTrailerSize) % 2 ^ 64 then
    pure (Status.corruption "truncated block read" "", emptyContents)
  else do
    let intact ← checkBlock options s.contents s.address n
    if intact then typedContents s n
    else pure (Status.corruption "block checksum mismatch" "", emptyContents)

end Mylldb

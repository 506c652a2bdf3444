import Mylldb.Exec
import Mylldb.Lib.Base128
import Mylldb.Lib.LittleEndian

namespace Mylldb

-- The loops of this file run over `uint64_t` values, which have at most ten
-- groups of seven bits: nine turns and the last group.
def varintLength (v : Nat) : Nat := loop 9 v
where
  loop : Nat → Nat → Nat
    | 0, _ => 1
    | fuel + 1, v => if v ≥ 128 then loop fuel (v >>> 7) + 1 else 1

-- A store through `unsigned char*` keeps the low eight bits.
def encodeVarint32 (v : Nat) : Bytes :=
  if v < 1 <<< 7 then
    [UInt8.ofNat v]
  else if v < 1 <<< 14 then
    [UInt8.ofNat (v ||| 128), UInt8.ofNat (v >>> 7)]
  else if v < 1 <<< 21 then
    [UInt8.ofNat (v ||| 128), UInt8.ofNat (v >>> 7 ||| 128), UInt8.ofNat (v >>> 14)]
  else if v < 1 <<< 28 then
    [UInt8.ofNat (v ||| 128), UInt8.ofNat (v >>> 7 ||| 128), UInt8.ofNat (v >>> 14 ||| 128),
      UInt8.ofNat (v >>> 21)]
  else
    [UInt8.ofNat (v ||| 128), UInt8.ofNat (v >>> 7 ||| 128), UInt8.ofNat (v >>> 14 ||| 128),
      UInt8.ofNat (v >>> 21 ||| 128), UInt8.ofNat (v >>> 28)]

def encodeVarint64 (v : Nat) : Bytes := loop 9 v
where
  loop : Nat → Nat → Bytes
    | 0, v => [UInt8.ofNat v]
    | fuel + 1, v =>
        if v ≥ 128 then UInt8.ofNat ((v &&& 127) ||| 128) :: loop fuel (v >>> 7)
        else [UInt8.ofNat v]

-- A `size_t` argument is cut to the `uint32_t` parameter.
def putVarint32 (dst : Bytes) (v : Nat) : Bytes := dst ++ encodeVarint32 (v % 2 ^ 32)

def putVarint64 (dst : Bytes) (v : Nat) : Bytes := dst ++ encodeVarint64 (v % 2 ^ 64)

-- `memcpy` of an integer on a little-endian host.
def encodeFixed32 (v : Nat) : Bytes := Lib.LittleEndian.bytes 4 v

def encodeFixed64 (v : Nat) : Bytes := Lib.LittleEndian.bytes 8 v

def putFixed32 (dst : Bytes) (v : Nat) : Bytes := dst ++ encodeFixed32 v

def putFixed64 (dst : Bytes) (v : Nat) : Bytes := dst ++ encodeFixed64 v

def decodeFixed32 (data : Bytes) (p : Nat) : Exec Nat := do
  let bs ← readRange data p 4
  pure (Lib.LittleEndian.value bs)

def decodeFixed64 (data : Bytes) (p : Nat) : Exec Nat := do
  let bs ← readRange data p 8
  pure (Lib.LittleEndian.value bs)

-- The result is the new pointer and the value, or nothing for NULL. The shifts
-- 0, 7, 14, 21 and 28 are five turns of the loop.
def getVarint32PtrFallback (data : Bytes) (p limit : Nat) : Exec (Option (Nat × Nat)) :=
  loop 5 0 p 0
where
  loop : Nat → Nat → Nat → Nat → Exec (Option (Nat × Nat))
    | 0, _, _, _ => pure none
    | turns + 1, shift, p, result =>
        if p < limit then do
          let byte ← readByte data p
          if byte.toNat &&& 128 ≠ 0 then
            loop turns (shift + 7) (p + 1) (result ||| (((byte.toNat &&& 127) <<< shift) % 2 ^ 32))
          else
            pure (some (p + 1, result ||| ((byte.toNat <<< shift) % 2 ^ 32)))
        else pure none

def getVarint32Ptr (data : Bytes) (p limit : Nat) : Exec (Option (Nat × Nat)) :=
  if p < limit then do
    let byte ← readByte data p
    if byte.toNat &&& 128 = 0 then pure (some (p + 1, byte.toNat))
    else getVarint32PtrFallback data p limit
  else getVarint32PtrFallback data p limit

-- The value and the rest of the input, or nothing with the input unchanged.
def getVarint32 (input : Bytes) : Exec (Option (Nat × Bytes)) := do
  match ← getVarint32Ptr input 0 input.length with
  | none => pure none
  | some (q, v) => pure (some (v, input.drop q))

end Mylldb

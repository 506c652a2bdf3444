import Mylldb.Coding
import Mylldb.Comparator

namespace Mylldb

inductive ValueType where
  | kTypeDeletion
  | kTypeValue
  deriving DecidableEq, Repr

def ValueType.toNat : ValueType → Nat
  | .kTypeDeletion => 0x0
  | .kTypeValue => 0x1

def kValueTypeForSeek : ValueType := .kTypeValue

def kMaxSequenceNumber : Nat := (0x1 <<< 56) - 1

def extractUserKey (internalKey : Bytes) : Exec Bytes := do
  assertThat (internalKey.length ≥ 8)
  pure (internalKey.take (internalKey.length - 8))

-- `InternalKeyComparator::Compare` over a user comparator.
def internalCompare (user : Comparator) (a b : Bytes) : Exec Int := do
  let userA ← extractUserKey a
  let userB ← extractUserKey b
  let r := user.compare userA userB
  if r = 0 then do
    let anum ← decodeFixed64 a (a.length - 8)
    let bnum ← decodeFixed64 b (b.length - 8)
    if anum > bnum then pure (-1)
    else if anum < bnum then pure 1
    else pure r
  else pure r

def packSequenceAndType (seq : Nat) (t : ValueType) : Exec Nat := do
  assertThat (seq ≤ kMaxSequenceNumber)
  assertThat (t.toNat ≤ kValueTypeForSeek.toNat)
  pure ((seq <<< 8 ||| t.toNat) % 2 ^ 64)

namespace InternalKeyComparator

-- The user key is shortened, and the earliest possible number makes it an internal
-- key again.
def findShortestSeparator (user : Comparator) (start limit : Bytes) : Exec Bytes := do
  let userStart ← extractUserKey start
  let userLimit ← extractUserKey limit
  let tmp := user.findShortestSeparator userStart userLimit
  if tmp.length < userStart.length ∧ user.compare userStart tmp < 0 then do
    let tag ← packSequenceAndType kMaxSequenceNumber kValueTypeForSeek
    let tmp := putFixed64 tmp tag
    let r ← internalCompare user start tmp
    assertThat (r < 0)
    let r ← internalCompare user tmp limit
    assertThat (r < 0)
    pure tmp
  else pure start

-- The whole internal key is looked at, and the user comparator is not asked.
def findShortSuccessor (key : Bytes) : Bytes := shortSuccessor key

end InternalKeyComparator

-- `space` holds the bytes from `start_` to `end_`, and `kstart` is the offset
-- of `kstart_` in them.
structure LookupKey where
  space : Bytes
  kstart : Nat
  deriving DecidableEq, Repr

namespace LookupKey

def spaceSize : Nat := 200

-- The key is written to the inline array, or to a heap block when it could not
-- fit there.
def new (userKey : Bytes) (s : Nat) : Exec LookupKey := do
  let usize := userKey.length
  let needed := usize + 8 + 5
  let capacity := if needed ≤ spaceSize then spaceSize else needed
  let start := encodeVarint32 ((usize + 8) % 2 ^ 32)
  let tag ← packSequenceAndType s kValueTypeForSeek
  let space := start ++ userKey ++ encodeFixed64 tag
  if space.length ≤ capacity then pure ⟨space, start.length⟩ else .error .outOfBounds

def memtableKey (key : LookupKey) : Bytes := key.space

def internalKey (key : LookupKey) : Bytes := key.space.drop key.kstart

def userKey (key : LookupKey) : Bytes :=
  (key.space.drop key.kstart).take (key.space.length - key.kstart - 8)

end LookupKey

end Mylldb

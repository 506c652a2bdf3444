import Mylldb.Exec

namespace Mylldb

-- `memcmp` on the first `n` bytes. Only the sign of the result is specified;
-- the difference of the first bytes that differ has that sign.
def memcmp : Bytes → Bytes → Nat → Int
  | a :: as, b :: bs, n + 1 => if a = b then memcmp as bs n else (a.toNat : Int) - b.toNat
  | _, _, _ => 0

namespace Slice

def compare (a b : Bytes) : Int :=
  let minLen := if a.length < b.length then a.length else b.length
  let r := memcmp a b minLen
  if r = 0 then
    if a.length < b.length then -1 else if a.length > b.length then 1 else r
  else r

end Slice

-- The methods of a `Comparator` that the code calls. `findShortestSeparator`
-- returns what it leaves in `*start`.
structure Comparator where
  compare : Bytes → Bytes → Int
  findShortestSeparator : Bytes → Bytes → Bytes

-- The loop of the `FindShortSuccessor` methods: the first byte that can be
-- incremented is, and the string ends with it. A run of 0xffs is left alone.
def shortSuccessor : Bytes → Bytes
  | [] => []
  | byte :: key => if byte ≠ 0xff then [byte + 1] else byte :: shortSuccessor key

namespace BytewiseComparatorImpl

-- The index of the first byte that differs, or the length of the shorter string.
def diffIndex : Bytes → Bytes → Nat
  | a :: as, b :: bs => if a = b then diffIndex as bs + 1 else 0
  | _, _ => 0

def findShortestSeparator (start limit : Bytes) : Exec Bytes :=
  let diffIndex := diffIndex start limit
  match start[diffIndex]?, limit[diffIndex]? with
  | some diffByte, some limitByte =>
      if diffByte.toNat < 0xff ∧ diffByte.toNat + 1 < limitByte.toNat then do
        let start := start.take diffIndex ++ [diffByte + 1]
        assertThat (Slice.compare start limit < 0)
        pure start
      else pure start
  -- one string is a prefix of the other
  | _, _ => pure start

def findShortSuccessor (key : Bytes) : Bytes := shortSuccessor key

end BytewiseComparatorImpl

-- A run that fails leaves `*start` alone.
def bytewiseComparator : Comparator where
  compare := Slice.compare
  findShortestSeparator start limit :=
    match BytewiseComparatorImpl.findShortestSeparator start limit with
    | .ok separator => separator
    | .error _ => start

end Mylldb

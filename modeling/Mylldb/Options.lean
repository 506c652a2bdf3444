import Mylldb.Exec

namespace Mylldb

inductive CompressionType where
  | kNoCompression
  | kSnappyCompression
  deriving DecidableEq, Repr

-- The value on disk.
def CompressionType.toByte : CompressionType → UInt8
  | .kNoCompression => 0x0
  | .kSnappyCompression => 0x1

-- Comparators, filter policies and caches are objects of the client: the options
-- hold their addresses, and `none` is NULL.
structure Options where
  comparator : Nat
  blockRestartInterval : Int
  filterPolicy : Option Nat
  blockSize : Nat
  compression : CompressionType
  paranoidChecks : Bool
  blockCache : Option Nat
  deriving DecidableEq, Repr

structure ReadOptions where
  verifyChecksums : Bool
  deriving DecidableEq, Repr

def ReadOptions.default : ReadOptions := ⟨false⟩

end Mylldb

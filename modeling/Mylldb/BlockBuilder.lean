import Mylldb.Coding

namespace Mylldb

structure BlockBuilder where
  buffer : Bytes
  restarts : List Nat
  counter : Nat
  finished : Bool
  lastKey : Bytes
  deriving DecidableEq, Repr

-- The length of the common prefix of two strings.
def sharedLength : Bytes → Bytes → Nat
  | a :: as, b :: bs => if a = b then sharedLength as bs + 1 else 0
  | _, _ => 0

namespace BlockBuilder

-- The state of a new builder and of one that was reset.
def initial : BlockBuilder := ⟨[], [0], 0, false, []⟩

def new (blockRestartInterval : Int) : Exec BlockBuilder := do
  assertThat (blockRestartInterval ≥ 1)
  pure initial

def reset (_ : BlockBuilder) : BlockBuilder := initial

def empty (b : BlockBuilder) : Bool := b.buffer.isEmpty

-- The restart interval is read from the options at each call.
def add (b : BlockBuilder) (blockRestartInterval : Int) (key value : Bytes) :
    Exec BlockBuilder := do
  let (shared, restarts, counter) :=
    if (b.counter : Int) < blockRestartInterval then
      (sharedLength b.lastKey key, b.restarts, b.counter)
    else (0, b.restarts ++ [b.buffer.length % 2 ^ 32], 0)
  let nonShared := key.length - shared
  let buffer := putVarint32 (putVarint32 (putVarint32 b.buffer shared) nonShared) value.length
  let buffer := buffer ++ (key.drop shared).take nonShared ++ value
  let lastKey := b.lastKey.take shared ++ (key.drop shared).take nonShared
  assertThat (lastKey = key)
  pure ⟨buffer, restarts, counter + 1, b.finished, lastKey⟩

def finish (b : BlockBuilder) : BlockBuilder × Bytes :=
  let buffer := b.restarts.foldl putFixed32 b.buffer
  let buffer := putFixed32 buffer (b.restarts.length % 2 ^ 32)
  ({ b with buffer := buffer, finished := true }, buffer)

def currentSizeEstimate (b : BlockBuilder) : Nat :=
  b.buffer.length + b.restarts.length * 4 + 4

end BlockBuilder

end Mylldb

import Mylldb.Exec
import Mylldb.Lib.Regions

namespace Mylldb

open Lib.Regions

-- `operator new`: the address of a block of the given size, by the blocks that it
-- has handed out. They are never given back before the program is done with them.
structure Allocator where
  address : List Region → Nat → Nat
  aligned : ∀ blocks n, 8 ∣ address blocks n
  positive : ∀ blocks n, 0 < address blocks n
  fresh : ∀ blocks n, ∀ b ∈ blocks, Region.Apart b ⟨address blocks n, n⟩

namespace Allocator

-- The end of all the blocks.
def top : List Region → Nat
  | [] => 0
  | b :: blocks => max b.stop (top blocks)

theorem stop_le_top {blocks : List Region} {b : Region} (hb : b ∈ blocks) :
    b.stop ≤ top blocks := by
  induction blocks with
  | nil => cases hb
  | cons b' blocks ih =>
      rcases List.mem_cons.mp hb with rfl | hb
      · exact Nat.le_max_left _ _
      · exact (ih hb).trans (Nat.le_max_right _ _)

-- Every block comes behind the ones before it.
def stacked : Allocator where
  address blocks _ := (top blocks / 8 + 1) * 8
  aligned blocks n := Nat.dvd_mul_left _ _
  positive blocks n := by omega
  fresh blocks n b hb := by
    have hle := stop_le_top hb
    exact .inl (by dsimp only; omega)

end Allocator

-- `allocPtr` is 0 for NULL. The model keeps the size of a block with its address.
structure Arena where
  allocPtr : Nat
  allocBytesRemaining : Nat
  blocks : List Region
  memoryUsage : Nat
  deriving DecidableEq, Repr

namespace Arena

def kBlockSize : Nat := 4096

-- `AllocateAligned` takes the larger of 8 and the size of a pointer.
def align : Nat := 8

def empty : Arena := ⟨0, 0, [], 0⟩

section

variable (heap : Allocator)

def allocateNewBlock (a : Arena) (blockBytes : Nat) : Arena × Nat :=
  let result := heap.address a.blocks blockBytes
  ({ a with
      blocks := a.blocks ++ [⟨result, blockBytes⟩]
      memoryUsage := (a.memoryUsage + blockBytes + 8) % 2 ^ 64 }, result)

def allocateFallback (a : Arena) (bytes : Nat) : Arena × Nat :=
  if bytes > kBlockSize / 4 then a.allocateNewBlock heap bytes
  else
    let (a, result) := a.allocateNewBlock heap kBlockSize
    ({ a with allocPtr := result + bytes, allocBytesRemaining := kBlockSize - bytes }, result)

def allocate (a : Arena) (bytes : Nat) : Exec (Arena × Nat) := do
  assertThat (bytes > 0)
  if bytes ≤ a.allocBytesRemaining then
    pure ({ a with
      allocPtr := a.allocPtr + bytes
      allocBytesRemaining := a.allocBytesRemaining - bytes }, a.allocPtr)
  else pure (a.allocateFallback heap bytes)

-- The bytes that `AllocateAligned` leaves out.
def slop (a : Arena) : Nat :=
  let currentMod := a.allocPtr &&& (align - 1)
  if currentMod = 0 then 0 else align - currentMod

def allocateAligned (a : Arena) (bytes : Nat) : Exec (Arena × Nat) := do
  assertThat (align &&& (align - 1) = 0)
  let needed := (bytes + a.slop) % 2 ^ 64
  let (a, result) :=
    if needed ≤ a.allocBytesRemaining then
      ({ a with
        allocPtr := a.allocPtr + needed
        allocBytesRemaining := a.allocBytesRemaining - needed }, a.allocPtr + a.slop)
    else a.allocateFallback heap bytes
  assertThat (result &&& (align - 1) = 0)
  pure (a, result)

-- A call of a client, for so many bytes.
inductive Request where
  | plain (bytes : Nat)
  | aligned (bytes : Nat)
  deriving DecidableEq, Repr

namespace Request

def bytes : Request → Nat
  | .plain bytes => bytes
  | .aligned bytes => bytes

-- More than nothing, and so little that it can be rounded up.
structure Fits (q : Request) : Prop where
  positive : 0 < q.bytes
  bounded : q.bytes + 7 < 2 ^ 64

end Request

def serve (a : Arena) : Request → Exec (Arena × Nat)
  | .plain bytes => a.allocate heap bytes
  | .aligned bytes => a.allocateAligned heap bytes

-- A run on a new arena, with all the ranges that the calls returned.
def run (requests : List Request) : Exec (Arena × List Region) :=
  requests.foldlM (fun (a, ranges) q => do
    let (a, p) ← a.serve heap q
    pure (a, ranges ++ [⟨p, q.bytes⟩])) (empty, [])

end

end Arena

end Mylldb

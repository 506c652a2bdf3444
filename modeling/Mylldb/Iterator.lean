import Mylldb.Lib.Ownership
import Mathlib.Logic.Function.Basic

namespace Mylldb.Iterator

open Lib.Ownership

-- A `CleanupFunction` with its two arguments. `RegisterCleanup` asserts that the function
-- is not NULL.
structure Call (φ : Type) where
  function : φ
  arg1 : Nat
  arg2 : Nat
  deriving DecidableEq, Repr

-- A `Cleanup`. Without a call, its function is NULL or was never set.
structure Cleanup (φ : Type) where
  call : Option (Call φ)
  next : Option Nat
  deriving DecidableEq, Repr

section

variable {φ : Type}

-- `cleanup_` of a new iterator, which is a part of the iterator.
def empty : Cleanup φ := ⟨none, none⟩

def registerCleanup (place : Placement (Cleanup φ)) (heap : Heap (Cleanup φ)) (cleanup : Cleanup φ)
    (call : Call φ) : Except Misuse (Heap (Cleanup φ) × Cleanup φ) :=
  match cleanup.call with
  | none => pure (heap, { cleanup with call := some call })
  | some _ => do
      let (heap, c) := heap.new place empty
      let heap ← heap.store c ⟨none, cleanup.next⟩
      let cleanup := { cleanup with next := some c }
      let node ← heap.load c
      let heap ← heap.store c { node with call := some call }
      pure (heap, cleanup)

-- The loop of `~Iterator`, with the calls that it makes. It deletes a node each time, so
-- it is over when there are no more nodes.
def destroyLoop : Nat → Heap (Cleanup φ) → Option Nat → Except Misuse (Heap (Cleanup φ) × List (Call φ))
  | _, heap, none => pure (heap, [])
  | 0, _, some _ => .error .dangling
  | fuel + 1, heap, some c => do
      let node ← heap.load c
      match node.call with
      | none => .error .uninitialised
      | some call => do
          let node ← heap.load c
          let heap ← heap.delete c
          let (heap, calls) ← destroyLoop fuel heap node.next
          pure (heap, call :: calls)

def destroy (heap : Heap (Cleanup φ)) (cleanup : Cleanup φ) :
    Except Misuse (Heap (Cleanup φ) × List (Call φ)) :=
  match cleanup.call with
  | none => pure (heap, [])
  | some call => do
      let (heap, calls) ← destroyLoop heap.size heap cleanup.next
      pure (heap, call :: calls)

-- What is done with iterators.
inductive Act (φ : Type) where
  | made (x : Nat)
  | register (x : Nat) (call : Call φ)
  | destroyed (x : Nat)
  deriving DecidableEq, Repr

-- The iterators that there are, and the calls that their destructors made.
structure Program (φ : Type) where
  heap : Heap (Cleanup φ)
  iters : Nat → Option (Cleanup φ)
  called : List (Nat × Call φ)

namespace Program

def start : Program φ := ⟨.empty, fun _ => none, []⟩

def act (place : Placement (Cleanup φ)) (program : Program φ) : Act φ → Except Misuse (Program φ)
  | .made x =>
      match program.iters x with
      | some _ => .error .dangling
      | none => pure { program with iters := Function.update program.iters x (some empty) }
  | .register x call =>
      match program.iters x with
      | none => .error .dangling
      | some cleanup => do
          let (heap, cleanup) ← registerCleanup place program.heap cleanup call
          pure { program with heap, iters := Function.update program.iters x (some cleanup) }
  | .destroyed x =>
      match program.iters x with
      | none => .error .dangling
      | some cleanup => do
          let (heap, calls) ← destroy program.heap cleanup
          pure ⟨heap, Function.update program.iters x none, program.called ++ calls.map (x, ·)⟩

def run (place : Placement (Cleanup φ)) (acts : List (Act φ)) : Except Misuse (Program φ) :=
  acts.foldlM (act place) start

end Program

end

end Mylldb.Iterator

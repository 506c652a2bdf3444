import Mathlib.Logic.Function.Iterate

namespace Mylldb

-- `seed` is the `uint32_t` seed_.
structure Random where
  seed : BitVec 32
  deriving DecidableEq, Repr

namespace Random

def M : BitVec 32 := 2147483647

def A : BitVec 64 := 16807

-- The two bad seeds are replaced.
def new (s : BitVec 32) : Random :=
  let seed := s &&& 0x7fffffff
  if seed = 0 ∨ seed = 2147483647 then ⟨1⟩ else ⟨seed⟩

def product (r : Random) : BitVec 64 := r.seed.setWidth 64 * A

-- The sum that `Next` casts to 32 bits.
def folded (r : Random) : BitVec 64 := (r.product >>> 31) + (r.product &&& M.setWidth 64)

def next (r : Random) : BitVec 32 × Random :=
  let seed := r.folded.setWidth 32
  let seed := if seed > M then seed - M else seed
  (seed, ⟨seed⟩)

-- An `int` argument is converted to 32 bits without a sign. There is no remainder by zero.
def uniform (r : Random) (n : BitVec 32) : Option (BitVec 32 × Random) :=
  if n = 0 then none
  else
    let (value, r) := r.next
    some (value % n, r)

def oneIn (r : Random) (n : BitVec 32) : Option (Bool × Random) :=
  if n = 0 then none
  else
    let (value, r) := r.next
    some (decide (value % n = 0), r)

-- The sum may overflow an `int`, and the shift its bits.
def skewed (r : Random) (maxLog : BitVec 32) : Option (BitVec 32 × Random) := do
  if maxLog = 0x7fffffff then none
  else
    let (log, r) ← r.uniform (maxLog + 1)
    if log < 31 then r.uniform (1#32 <<< log) else none

-- The generator after `n` calls of `Next`.
def after (r : Random) (n : Nat) : Random := (fun r => r.next.2)^[n] r

end Random

end Mylldb

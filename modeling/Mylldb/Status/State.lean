import Mylldb.Coding
import Mylldb.Lib.Ownership
import Mylldb.Status

namespace Mylldb

-- The characters of a text of the source, all of them ASCII.
def chars (text : String) : Bytes := text.toList.map fun c => UInt8.ofNat c.toNat

namespace Code

def number : Code → UInt8
  | .kNotFound => 1
  | .kCorruption => 2
  | .kNotSupported => 3
  | .kInvalidArgument => 4
  | .kIOError => 5

def kOk : Int := 0

end Code

namespace Status.State

open Lib.Ownership

abbrev Memory := Heap Buffer

-- `state_`, where `none` is NULL.
abbrev Pointer := Option Nat

section

variable (place : Placement Buffer)

-- `Status(code, msg, msg2)`. All the lengths are `uint32_t`, those in `5 + len1` and
-- `size + 5` as well; `result + 7 + len1` is a pointer.
def construct (memory : Memory) (code : Code) (msg msg2 : Bytes) :
    Except Misuse (Memory × Pointer) := do
  let len1 := msg.length % 2 ^ 32
  let len2 := msg2.length % 2 ^ 32
  let size := (len1 + if len2 ≠ 0 then 2 + len2 else 0) % 2 ^ 32
  let (memory, result) := memory.new place (.blank ((size + 5) % 2 ^ 32))
  let memory ← memory.writeAt result 0 (encodeFixed32 size)
  let memory ← memory.writeAt result 4 [code.number]
  let memory ← memory.writeAt result 5 (msg.take len1)
  if len2 ≠ 0 then do
    let memory ← memory.writeAt result ((5 + len1) % 2 ^ 32) (chars ":")
    let memory ← memory.writeAt result ((6 + len1) % 2 ^ 32) (chars " ")
    let memory ← memory.writeAt result (7 + len1) (msg2.take len2)
    pure (memory, some result)
  else pure (memory, some result)

def copyState (memory : Memory) (state : Nat) : Except Misuse (Memory × Nat) := do
  let size ← memory.readAt state 0 4
  let size := Lib.LittleEndian.value size
  let (memory, result) := memory.new place (.blank ((size + 5) % 2 ^ 32))
  let bytes ← memory.readAt state 0 ((size + 5) % 2 ^ 32)
  let memory ← memory.writeAt result 0 bytes
  pure (memory, result)

-- `Status(const Status& s)`
def copy (memory : Memory) (s : Pointer) : Except Misuse (Memory × Pointer) :=
  match s with
  | none => pure (memory, none)
  | some state => do
      let (memory, result) ← copyState place memory state
      pure (memory, some result)

-- `operator=`, where the two statuses may be one.
def assign (memory : Memory) (this s : Pointer) : Except Misuse (Memory × Pointer) :=
  if this ≠ s then do
    let memory ← memory.release this
    copy place memory s
  else pure (memory, this)

end

-- A `char` has a sign.
def code (memory : Memory) (s : Pointer) : Except Misuse Int :=
  match s with
  | none => pure Code.kOk
  | some state => do
      let bytes ← memory.readAt state 4 1
      pure ((Lib.LittleEndian.value bytes : Int).bmod 256)

-- The texts of `ToString`.
def typeText (code : Int) : Bytes :=
  if code = Code.kOk then chars "OK"
  else if code = 1 then chars "NotFound: "
  else if code = 2 then chars "Corruption: "
  else if code = 3 then chars "Not implemented: "
  else if code = 4 then chars "Invalid argument: "
  else if code = 5 then chars "IO error: "
  else chars ("Unknown code(" ++ toString code ++ "): ")

def toText (memory : Memory) (s : Pointer) : Except Misuse Bytes :=
  match s with
  | none => pure (chars "OK")
  | some state => do
      let code ← code memory s
      let length ← memory.readAt state 0 4
      let message ← memory.readAt state 5 (Lib.LittleEndian.value length)
      pure (typeText code ++ message)

-- What a program does with variables of this type.
inductive Act where
  | success (x : Nat)
  | failure (x : Nat) (code : Code) (msg msg2 : Bytes)
  | copied (x y : Nat)
  | assigned (x y : Nat)
  | destroyed (x : Nat)
  deriving DecidableEq, Repr

-- `vars x` is `state_` of the variable `x` in its lifetime.
structure Program where
  memory : Memory
  vars : Nat → Option Pointer

namespace Program

def start : Program := ⟨.empty, fun _ => none⟩

def set (program : Program) (x : Nat) (result : Memory × Pointer) : Program :=
  ⟨result.1, Function.update program.vars x (some result.2)⟩

-- A variable is made once, and used and destroyed in its lifetime only.
def act (place : Placement Buffer) (program : Program) : Act → Except Misuse Program
  | .success x =>
      match program.vars x with
      | some _ => .error .dangling
      | none => pure (program.set x (program.memory, none))
  | .failure x code msg msg2 =>
      match program.vars x with
      | some _ => .error .dangling
      | none => do
          let result ← construct place program.memory code msg msg2
          pure (program.set x result)
  | .copied x y =>
      match program.vars x, program.vars y with
      | none, some s => do
          let result ← copy place program.memory s
          pure (program.set x result)
      | _, _ => .error .dangling
  | .assigned x y =>
      match program.vars x, program.vars y with
      | some this, some s => do
          let result ← assign place program.memory this s
          pure (program.set x result)
      | _, _ => .error .dangling
  | .destroyed x =>
      match program.vars x with
      | none => .error .dangling
      | some this => do
          let memory ← program.memory.release this
          pure ⟨memory, Function.update program.vars x none⟩

def run (place : Placement Buffer) (acts : List Act) : Except Misuse Program :=
  acts.foldlM (act place) start

end Program

end Status.State

end Mylldb

import Mylldb.Status.State

namespace Mylldb.Status

open Lib.Ownership Lib.Run

-- What a status says: that all is well, or what failed, with a message.
abbrev Value := Option (Code × Bytes)

-- Two messages, when there is a second one.
def joined (msg msg2 : Bytes) : Bytes := if msg2 = [] then msg else msg ++ chars ": " ++ msg2

namespace Value

def make (code : Code) (msg msg2 : Bytes) : Value := some (code, joined msg msg2)

def title : Code → String
  | .kNotFound => "NotFound: "
  | .kCorruption => "Corruption: "
  | .kNotSupported => "Not implemented: "
  | .kInvalidArgument => "Invalid argument: "
  | .kIOError => "IO error: "

def text : Value → Bytes
  | none => chars "OK"
  | some (code, message) => chars (title code) ++ message

def number : Value → Int
  | none => Code.kOk
  | some (code, _) => code.number.toNat

end Value

theorem chars_append (text text' : String) : chars (text ++ text') = chars text ++ chars text' := by
  simp [chars]

theorem chars_eq_nil {text : String} : chars text = [] ↔ text.length = 0 := by
  simp [chars]

-- What a status of the other modules says.
def value : Status → Value
  | .ok => none
  | .failed code message => some (code, chars message)

theorem value_make (code : Code) (msg msg2 : String) :
    (Status.make code msg msg2).value = Value.make code (chars msg) (chars msg2) := by
  rw [Status.make, value, Value.make, joined]
  by_cases h : msg2.length = 0
  · rw [if_neg (not_not_intro h), if_pos (chars_eq_nil.mpr h)]
  · rw [if_pos h, if_neg (mt chars_eq_nil.mp h), chars_append, chars_append]

namespace State

variable {memory : Memory} {code : Code} {msg msg2 message : Bytes} {p : Nat} {s : Pointer}
  {v : Value}

-- The array that `state_` points to: the length of the message, the code, the message.
def layout (code : Code) (message : Bytes) : Bytes :=
  encodeFixed32 message.length ++ [code.number] ++ message

theorem layout_length (code : Code) (message : Bytes) :
    (layout code message).length = message.length + 5 := by
  simp [layout, encodeFixed32]
  omega

-- The lengths of an array can be counted in a `uint32_t`.
def Fits (message : Bytes) : Prop := message.length + 5 < 2 ^ 32

instance (message : Bytes) : Decidable (Fits message) := inferInstanceAs (Decidable (_ < _))

-- The pointer of a variable that says `v`.
def Says (memory : Memory) : Value → Pointer → Prop
  | none, s => s = none
  | some (code, message), s => Fits message ∧
      ∃ p, s = some p ∧ memory.find p = some ((layout code message).map some)

theorem filled_all (bs : Bytes) : Buffer.filled bs bs.length = bs.map some := by
  simp [Buffer.filled, Buffer.blank]

section Construct

theorem joined_length (msg msg2 : Bytes) :
    (joined msg msg2).length = msg.length + if msg2.length ≠ 0 then 2 + msg2.length else 0 := by
  unfold joined
  by_cases h : msg2 = []
  · simp [h]
  · rw [if_neg h, if_pos (mt List.length_eq_zero_iff.mp h)]
    simp [chars]
    omega

-- The next characters are written behind those that are there.
theorem writeAt_next (bs more : Bytes) {i n : Nat} (hi : i = bs.length)
    (h : bs.length + more.length ≤ n) :
    (memory.made p (.filled bs n)).writeAt p i more = .ok (memory.made p (.filled (bs ++ more) n)) := by
  rw [hi]
  exact Heap.writeAt_made memory p bs more n h

theorem construct_eq (place : Placement Buffer) (code : Code) (hfits : Fits (joined msg msg2)) :
    ∃ address, memory.find address = none ∧ construct place memory code msg msg2 =
      .ok (memory.made address ((layout code (joined msg msg2)).map some), some address) := by
  have hlength := joined_length msg msg2
  have hlayout := layout_length code (joined msg msg2)
  unfold Fits at hfits
  have hlen1 : msg.length % 2 ^ 32 = msg.length := Nat.mod_eq_of_lt (by omega)
  have hlen2 : msg2.length % 2 ^ 32 = msg2.length := by
    apply Nat.mod_eq_of_lt
    split at hlength <;> omega
  have hsize : (joined msg msg2).length % 2 ^ 32 = (joined msg msg2).length :=
    Nat.mod_eq_of_lt (by omega)
  have hn : ((joined msg msg2).length + 5) % 2 ^ 32 = (layout code (joined msg msg2)).length := by
    rw [hlayout, Nat.mod_eq_of_lt hfits]
  refine ⟨_, Heap.find_address place memory (.filled [] (layout code (joined msg msg2)).length), ?_⟩
  have hblank (n : Nat) : Buffer.blank n = .filled [] n := rfl
  rw [construct, hlen1, hlen2, ← hlength, hsize, hn, hblank, Heap.new]
  generalize place.address memory (.filled [] (layout code (joined msg msg2)).length) = address
  dsimp only
  generalize hall : (layout code (joined msg msg2)).length = n at hlayout ⊢
  rw [writeAt_next [] (encodeFixed32 _) (by rfl) (by simp [encodeFixed32]; omega), ok_bind,
    writeAt_next _ [code.number] (by simp [encodeFixed32]) (by simp [encodeFixed32]; omega), ok_bind,
    List.take_length, writeAt_next _ msg (by simp [encodeFixed32]) (by simp [encodeFixed32]; omega),
    ok_bind]
  by_cases hmsg2 : msg2 = []
  · rw [if_neg (by simp [hmsg2]), pure_eq, ← hall, ← filled_all, layout]
    simp [joined, hmsg2]
  · have hne : msg2.length ≠ 0 := mt List.length_eq_zero_iff.mp hmsg2
    rw [if_pos hne] at hlength
    rw [if_pos hne, Nat.mod_eq_of_lt (by omega), Nat.mod_eq_of_lt (by omega), List.take_length,
      writeAt_next _ (chars ":") (by simp [encodeFixed32]; omega) (by simp [encodeFixed32, chars]; omega),
      ok_bind, writeAt_next _ (chars " ") (by simp [encodeFixed32, chars]; omega)
        (by simp [encodeFixed32, chars]; omega),
      ok_bind, writeAt_next _ msg2 (by simp [encodeFixed32, chars]; omega)
        (by simp [encodeFixed32, chars]; omega),
      ok_bind, pure_eq, ← hall, ← filled_all, layout]
    simp [joined, hmsg2, chars]

theorem writeAt_onlyFails (memory : Memory) (p : Nat) (buffer : Buffer) (i : Nat) (bs : Bytes) :
    OnlyFails .outOfBounds ((memory.made p buffer).writeAt p i bs) fun memory' =>
      i + bs.length ≤ buffer.length ∧
        ∃ buffer' : Buffer, buffer'.length = buffer.length ∧ memory' = memory.made p buffer' := by
  rw [Heap.writeAt, Heap.load_eq (Heap.find_made _ _ _), ok_bind, Buffer.write]
  by_cases h : i + bs.length ≤ buffer.length
  · rw [if_pos h, ok_bind, Heap.store_eq (Heap.find_made _ _ _), Heap.made_put]
    refine .ok ⟨h, _, ?_, rfl⟩
    simp
    omega
  · rw [if_neg h]
    exact .inl rfl

-- A message that is too long is written past the end of the array, because the length of
-- the array wraps around.
theorem construct_overruns (place : Placement Buffer) (memory : Memory) (code : Code)
    (hmsg : msg.length < 2 ^ 32) (hmsg2 : msg2.length < 2 ^ 32) (hlong : ¬Fits (joined msg msg2)) :
    construct place memory code msg msg2 = .error .outOfBounds := by
  have hlength := joined_length msg msg2
  unfold Fits at hlong
  have hfails : OnlyFails .outOfBounds (construct place memory code msg msg2) fun _ => False := by
    rw [construct, Nat.mod_eq_of_lt hmsg, Nat.mod_eq_of_lt hmsg2, ← hlength, Heap.new]
    generalize hn : ((joined msg msg2).length % 2 ^ 32 + 5) % 2 ^ 32 = n
    have hblank : (Buffer.blank n).length = n := List.length_replicate
    dsimp only
    refine (writeAt_onlyFails _ _ _ _ _).bind ?_
    rintro _ - ⟨-, buffer₁, h₁, rfl⟩
    refine (writeAt_onlyFails _ _ _ _ _).bind ?_
    rintro _ - ⟨-, buffer₂, h₂, rfl⟩
    refine (writeAt_onlyFails _ _ _ _ _).bind ?_
    rintro _ - ⟨hfirst, buffer₃, h₃, rfl⟩
    rw [List.take_length] at hfirst
    by_cases hsecond : msg2.length ≠ 0
    · rw [if_pos hsecond] at hlength ⊢
      refine (writeAt_onlyFails _ _ _ _ _).bind ?_
      rintro _ - ⟨-, buffer₄, h₄, rfl⟩
      refine (writeAt_onlyFails _ _ _ _ _).bind ?_
      rintro _ - ⟨-, buffer₅, h₅, rfl⟩
      refine (writeAt_onlyFails _ _ _ _ _).bind ?_
      rintro _ - ⟨hlast, -⟩
      rw [List.take_length] at hlast
      omega
    · rw [if_neg hsecond] at hlength
      omega
  rcases hfails with hfails | ⟨_, -, hfalse⟩
  · exact hfails
  · exact hfalse.elim

end Construct

theorem layout_read (code : Code) (message : Bytes) (hp : memory.find p = some ((layout code message).map some))
    (hfits : Fits message) :
    (∃ bs, memory.readAt p 0 4 = .ok bs ∧ Lib.LittleEndian.value bs = message.length) ∧
      memory.readAt p 4 1 = .ok [code.number] ∧
      memory.readAt p 5 message.length = .ok message ∧
      memory.readAt p 0 (message.length + 5) = .ok (layout code message) := by
  have hlength := layout_length code message
  have henc : (encodeFixed32 message.length).length = 4 := by simp [encodeFixed32]
  have hread (i n : Nat) (h : i + n ≤ message.length + 5) := Heap.readAt_eq hp i n (by omega)
  refine ⟨⟨encodeFixed32 message.length, ?_, ?_⟩, ?_, ?_, ?_⟩
  · rw [hread 0 4 (by omega), layout, List.append_assoc, List.drop_zero, List.take_left' henc]
  · unfold Fits at hfits
    exact Lib.LittleEndian.value_bytes_of_lt 4 _ (by omega)
  · rw [hread 4 1 (by omega), layout, List.append_assoc, List.drop_left' henc]
    rfl
  · rw [hread 5 _ (by omega), layout, List.drop_left' (by simp [henc]), List.take_length]
  · rw [hread 0 _ (by omega), List.drop_zero, ← hlength, List.take_length]

theorem copyState_eq (place : Placement Buffer)
    (hp : memory.find p = some ((layout code message).map some))
    (hfits : Fits message) : ∃ address, memory.find address = none ∧
      copyState place memory p =
        .ok (memory.made address ((layout code message).map some), address) := by
  obtain ⟨⟨size, hsize, hvalue⟩, -, -, hwhole⟩ := layout_read code message hp hfits
  have hlength := layout_length code message
  refine ⟨_, Heap.find_address place memory (.filled [] (layout code message).length), ?_⟩
  have hblank (n : Nat) : Buffer.blank n = .filled [] n := rfl
  have hold := Heap.ne_of_find hp
    (Heap.find_address place memory (.filled [] (layout code message).length))
  rw [copyState, hsize, ok_bind]
  dsimp only
  rw [hvalue, Nat.mod_eq_of_lt hfits, ← hlength, hblank, Heap.new]
  generalize place.address memory (.filled [] (layout code message).length) = address at hold ⊢
  dsimp only
  rw [Heap.readAt, Heap.load, Heap.find_made_ne memory _ hold, ← Heap.load, ← Heap.readAt, hlength,
    hwhole, ok_bind, ← hlength, writeAt_next [] _ (by rfl) (by simp), ok_bind, List.nil_append, filled_all]
  rfl

theorem code_eq (hvalue : Says memory v s) : State.code memory s = .ok v.number := by
  cases v with
  | none =>
      obtain rfl := hvalue
      rfl
  | some report =>
      obtain ⟨code, message⟩ := report
      obtain ⟨hfits, p, rfl, hp⟩ := hvalue
      obtain ⟨-, hcode, -, -⟩ := layout_read code message hp hfits
      have hsigned : (Lib.LittleEndian.value [code.number] : Int).bmod 256 = code.number.toNat := by
        cases code <;> decide
      rw [State.code, hcode, ok_bind, hsigned]
      rfl

theorem toText_eq (hvalue : Says memory v s) : toText memory s = .ok v.text := by
  cases v with
  | none =>
      obtain rfl := hvalue
      rfl
  | some report =>
      have hcode := code_eq hvalue
      obtain ⟨code, message⟩ := report
      obtain ⟨hfits, p, rfl, hp⟩ := hvalue
      obtain ⟨⟨size, hsize, hvalue⟩, -, hmessage, -⟩ := layout_read code message hp hfits
      have htitle : typeText (Value.number (some (code, message))) = chars (Value.title code) := by
        cases code <;> rfl
      rw [toText, hcode, ok_bind, hsize, ok_bind, hvalue, hmessage, ok_bind, htitle]
      rfl

-- What the variables of a program say, by the values alone.
abbrev Values := Nat → Option Value

def valueAct (vals : Values) : Act → Option Values
  | .success x =>
      match vals x with
      | some _ => none
      | none => some (Function.update vals x (some none))
  | .failure x code msg msg2 =>
      match vals x with
      | some _ => none
      | none => some (Function.update vals x (some (Value.make code msg msg2)))
  | .copied x y =>
      match vals x, vals y with
      | none, some v => some (Function.update vals x (some v))
      | _, _ => none
  | .assigned x y =>
      match vals x, vals y with
      | some _, some v => some (Function.update vals x (some v))
      | _, _ => none
  | .destroyed x =>
      match vals x with
      | none => none
      | some _ => some (Function.update vals x none)

-- The array that a variable owns.
def owns (vars : Nat → Option Pointer) (x : Nat) : Set Nat := {p | vars x = some (some p)}

theorem mem_owns {vars : Nat → Option Pointer} {x : Nat} : p ∈ owns vars x ↔ vars x = some (some p) :=
  Iff.rfl

-- Every variable says its value, and has the array of its own for it.
structure Holds (program : Program) (vals : Values) : Prop where
  values : ∀ x, Option.Rel (Says program.memory) (vals x) (program.vars x)
  owned : Owned program.memory (owns program.vars)

end State

end Mylldb.Status

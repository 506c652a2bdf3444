import Mathlib.Algebra.Group.Nat.Defs
import Mylldb.Lib.Run

-- The program is modelled for a target whose `size_t` and pointers have 64 bits.
namespace Mylldb

open Lib.Run

-- The ways a run of the C++ code can go wrong. `diverges` is a loop that is
-- still running when its fuel is used up.
inductive Fault where
  | outOfBounds
  | uninitialised
  | assertion
  | diverges
  deriving DecidableEq, Repr

abbrev Exec (α : Type) := Except Fault α

abbrev Bytes := List UInt8

def assertThat (p : Prop) [Decidable p] : Exec Unit :=
  if p then .ok () else .error .assertion

@[simp] theorem assertThat_pos {p : Prop} [Decidable p] (h : p) : assertThat p = .ok () :=
  if_pos h

@[simp] theorem assertThat_neg {p : Prop} [Decidable p] (h : ¬p) :
    assertThat p = .error .assertion :=
  if_neg h

-- Subtraction of `uint32_t` values.
def sub32 (a b : Nat) : Nat := if b ≤ a then a - b else a + 2 ^ 32 - b

theorem sub32_of_le {a b : Nat} (hb : b ≤ a) : sub32 a b = a - b := if_pos hb

def readByte (data : Bytes) (p : Nat) : Exec UInt8 :=
  match data[p]? with
  | none => .error .outOfBounds
  | some b => .ok b

def readRange (data : Bytes) (p n : Nat) : Exec Bytes :=
  if p + n ≤ data.length then .ok ((data.drop p).take n) else .error .outOfBounds

theorem readByte_total (data : Bytes) (p : Nat) (hp : p < data.length) :
    ∃ b, readByte data p = .ok b := by
  refine ⟨data[p], ?_⟩
  rw [readByte, List.getElem?_eq_getElem hp]

theorem readByte_past (data : Bytes) (p : Nat) (hp : data.length ≤ p) :
    readByte data p = .error .outOfBounds := by
  rw [readByte, List.getElem?_eq_none hp]

theorem readRange_total (data : Bytes) (p n : Nat) (hp : p + n ≤ data.length) :
    readRange data p n = .ok ((data.drop p).take n) :=
  if_pos hp

theorem readRange_past (data : Bytes) (p n : Nat) (hp : data.length < p + n) :
    readRange data p n = .error .outOfBounds :=
  if_neg (Nat.not_le_of_lt hp)

theorem readRange_onlyFails (data : Bytes) (p n : Nat) :
    OnlyFails .outOfBounds (readRange data p n) fun _ => True := by
  by_cases hp : p + n ≤ data.length
  · rw [readRange_total data p n hp]
    exact .ok trivial
  · exact .inl (readRange_past data p n (Nat.lt_of_not_le hp))

-- The bytes `bs` stand at offset `p` of `data`.
def StandsAt (data : Bytes) (p : Nat) (bs : Bytes) : Prop := bs <+: data.drop p

namespace StandsAt

variable {data bs bs' : Bytes} {p : Nat}

theorem intro (before after : Bytes) : StandsAt (before ++ bs ++ after) before.length bs := by
  simp [StandsAt]

theorem last (before bs : Bytes) : StandsAt (before ++ bs) before.length bs := by
  simp [StandsAt]

theorem le_length (h : StandsAt data p bs) (hp : p ≤ data.length) :
    p + bs.length ≤ data.length := by
  have hl := h.length_le
  rw [List.length_drop] at hl
  omega

theorem append_iff : StandsAt data p (bs ++ bs') ↔
    StandsAt data p bs ∧ StandsAt data (p + bs.length) bs' := by
  unfold StandsAt
  rw [← List.drop_drop]
  constructor
  · rintro ⟨t, ht⟩
    rw [← ht, List.append_assoc]
    simp
  · rintro ⟨⟨t, ht⟩, ht'⟩
    rw [← ht] at ht' ⊢
    rw [List.drop_left] at ht'
    exact List.prefix_append_right_inj bs |>.mpr ht'

theorem left (h : StandsAt data p (bs ++ bs')) : StandsAt data p bs := (append_iff.mp h).1

theorem right (h : StandsAt data p (bs ++ bs')) : StandsAt data (p + bs.length) bs' :=
  (append_iff.mp h).2

theorem readByte_eq {b : UInt8} (h : StandsAt data p (b :: bs)) : readByte data p = .ok b := by
  obtain ⟨t, ht⟩ := h
  have hget : (data.drop p)[0]? = some b := by rw [← ht]; rfl
  rw [List.getElem?_drop, Nat.add_zero] at hget
  simp [readByte, hget]

theorem tail {b : UInt8} (h : StandsAt data p (b :: bs)) : StandsAt data (p + 1) bs := by
  rw [← List.singleton_append] at h
  exact h.right

theorem readRange_eq (h : StandsAt data p bs) (hp : p ≤ data.length) :
    readRange data p bs.length = .ok bs := by
  rw [readRange, if_pos (h.le_length hp), List.prefix_iff_eq_take.mp h]
  simp

-- A piece of a sequence of encodings stands behind the pieces before it.
theorem flatMap {α : Type} {f : α → Bytes} {l : List α} (h : StandsAt data p (l.flatMap f))
    (i : Nat) (a : α) (ha : l[i]? = some a) :
    StandsAt data (p + ((l.take i).flatMap f).length) (f a) := by
  obtain ⟨hlt, rfl⟩ := List.getElem?_eq_some_iff.mp ha
  rw [← List.take_append_drop i l, List.drop_eq_getElem_cons hlt, List.flatMap_append,
    List.flatMap_cons] at h
  exact h.right.left

end StandsAt

end Mylldb

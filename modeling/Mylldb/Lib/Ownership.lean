import Mylldb.Lib.Run
import Mathlib.Data.List.AList
import Mathlib.Data.Set.Insert

namespace Lib.Ownership

open Lib.Run

variable {β ι : Type}

-- The ways a program can misuse its memory: an address where nothing is, a place behind the
-- end of an object, a value that was never written.
inductive Misuse where
  | dangling
  | outOfBounds
  | uninitialised
  deriving DecidableEq, Repr

-- What is there, by address, and how many objects were made so far.
structure Heap (β : Type) where
  cells : AList fun _ : Nat => β
  births : Nat

-- Where the next object goes: nowhere that is taken. It may depend on all that was done
-- before, and an address may come back once its object is gone.
structure Placement (β : Type) where
  address : Heap β → β → Nat
  fresh : ∀ heap b, address heap b ∉ heap.cells

-- Behind everything that is there.
def Placement.above (β : Type) : Placement β where
  address heap _ := heap.cells.keys.foldr max 0 + 1
  fresh heap _ hmem := by
    have hle : ∀ (l : List Nat), ∀ p ∈ l, p ≤ l.foldr max 0 := by
      intro l
      induction l with
      | nil => exact nofun
      | cons q l ih =>
          intro p hp
          rcases List.mem_cons.mp hp with rfl | hp
          · exact Nat.le_max_left _ _
          · exact (ih p hp).trans (Nat.le_max_right _ _)
    have hself := hle _ _ (AList.mem_keys.mp hmem)
    omega

namespace Heap

variable {heap : Heap β} {p q : Nat} {b b' : β}

def empty : Heap β := ⟨∅, 0⟩

def find (heap : Heap β) (p : Nat) : Option β := heap.cells.lookup p

def made (heap : Heap β) (p : Nat) (b : β) : Heap β := ⟨heap.cells.insert p b, heap.births + 1⟩

def put (heap : Heap β) (p : Nat) (b : β) : Heap β := ⟨heap.cells.insert p b, heap.births⟩

def gone (heap : Heap β) (p : Nat) : Heap β := ⟨heap.cells.erase p, heap.births⟩

-- `new`: the heap with the object, and its address.
def new (place : Placement β) (heap : Heap β) (b : β) : Heap β × Nat :=
  (heap.made (place.address heap b) b, place.address heap b)

def load (heap : Heap β) (p : Nat) : Except Misuse β :=
  match heap.find p with
  | none => .error .dangling
  | some b => .ok b

def store (heap : Heap β) (p : Nat) (b : β) : Except Misuse (Heap β) :=
  match heap.find p with
  | none => .error .dangling
  | some _ => .ok (heap.put p b)

def delete (heap : Heap β) (p : Nat) : Except Misuse (Heap β) :=
  match heap.find p with
  | none => .error .dangling
  | some _ => .ok (heap.gone p)

-- `delete` of a pointer that may be NULL.
def release (heap : Heap β) : Option Nat → Except Misuse (Heap β)
  | none => .ok heap
  | some p => heap.delete p

@[simp] theorem find_empty (p : Nat) : (empty : Heap β).find p = none := rfl

theorem find_made (heap : Heap β) (p : Nat) (b : β) : (heap.made p b).find p = some b :=
  AList.lookup_insert _

theorem find_made_ne (heap : Heap β) (b : β) (hne : q ≠ p) : (heap.made p b).find q = heap.find q :=
  AList.lookup_insert_ne hne

theorem find_put (heap : Heap β) (p : Nat) (b : β) : (heap.put p b).find p = some b :=
  AList.lookup_insert _

theorem find_put_ne (heap : Heap β) (b : β) (hne : q ≠ p) : (heap.put p b).find q = heap.find q :=
  AList.lookup_insert_ne hne

theorem find_gone (heap : Heap β) (p : Nat) : (heap.gone p).find p = none :=
  AList.lookup_erase _ _

theorem find_gone_ne (heap : Heap β) (hne : q ≠ p) : (heap.gone p).find q = heap.find q :=
  AList.lookup_erase_ne hne

theorem made_put (heap : Heap β) (p : Nat) (b b' : β) : (heap.made p b).put p b' = heap.made p b' := by
  simp [put, made, AList.insert_insert]

theorem find_address (place : Placement β) (heap : Heap β) (b : β) :
    heap.find (place.address heap b) = none :=
  AList.lookup_eq_none.mpr (place.fresh heap b)

theorem load_eq (h : heap.find p = some b) : heap.load p = .ok b := by simp [load, h]

theorem store_eq (h : heap.find p = some b) : heap.store p b' = .ok (heap.put p b') := by
  simp [store, h]

theorem delete_eq (h : heap.find p = some b) : heap.delete p = .ok (heap.gone p) := by
  simp [delete, h]

theorem ne_of_find (hp : heap.find p = some b) (hq : heap.find q = none) : p ≠ q := by
  rintro rfl
  rw [hp] at hq
  cases hq

-- How many objects there are.
def size (heap : Heap β) : Nat := heap.cells.keys.length

theorem length_le_size {l : List Nat} (hl : l.Nodup) (hlive : ∀ p ∈ l, ∃ b, heap.find p = some b) :
    l.length ≤ heap.size := by
  refine List.Nodup.length_le_of_subset hl fun p hp => ?_
  obtain ⟨b, hb⟩ := hlive p hp
  exact AList.mem_keys.mp (AList.lookup_isSome.mp (Option.isSome_iff_exists.mpr ⟨b, hb⟩))

theorem cells_eq_empty (h : ∀ p, heap.find p = none) : heap.cells = ∅ := by
  apply AList.ext
  rw [AList.empty_entries, List.eq_nil_iff_forall_not_mem]
  rintro ⟨p, b⟩ hmem
  exact AList.lookup_eq_none.mp (h p) (AList.mem_keys.mpr (List.mem_keys_of_mem hmem))

end Heap

-- Every object has one owner, and what has an owner is there.
structure Owned (heap : Heap β) (owner : ι → Set Nat) : Prop where
  live : ∀ i, ∀ p ∈ owner i, ∃ b, heap.find p = some b
  once : ∀ i j, ∀ p ∈ owner i, p ∈ owner j → i = j
  all : ∀ p b, heap.find p = some b → ∃ i, p ∈ owner i

namespace Owned

variable {heap : Heap β} {owner owner' : ι → Set Nat} {p : Nat} {i : ι}

theorem empty : Owned (Heap.empty : Heap β) fun _ : ι => ∅ :=
  ⟨fun _ _ h => h.elim, fun _ _ _ h => h.elim, fun p b h => by simp at h⟩

theorem congr (h : Owned heap owner) (heq : ∀ j q, q ∈ owner' j ↔ q ∈ owner j) :
    Owned heap owner' := by
  obtain rfl : owner' = owner := funext fun j => Set.ext (heq j)
  exact h

theorem made (h : Owned heap owner) (hfresh : heap.find p = none) (b : β)
    (howner : ∀ j q, q ∈ owner' j ↔ q ∈ owner j ∨ j = i ∧ q = p) :
    Owned (heap.made p b) owner' := by
  have hne {j : ι} {q : Nat} (hq : q ∈ owner j) : q ≠ p := by
    obtain ⟨b', hb'⟩ := h.live j q hq
    exact Heap.ne_of_find hb' hfresh
  refine ⟨fun j q hq => ?_, fun j k q hj hk => ?_, fun q b' hq => ?_⟩
  · rcases (howner j q).mp hq with hq | ⟨-, rfl⟩
    · rw [Heap.find_made_ne heap b (hne hq)]
      exact h.live j q hq
    · exact ⟨b, Heap.find_made heap q b⟩
  · rcases (howner j q).mp hj with hj | ⟨rfl, rfl⟩ <;>
      rcases (howner k q).mp hk with hk | ⟨rfl, hk⟩
    · exact h.once j k q hj hk
    · exact absurd hk (hne hj)
    · exact absurd rfl (hne hk)
    · rfl
  · by_cases hqp : q = p
    · exact ⟨i, (howner i q).mpr (.inr ⟨rfl, hqp⟩)⟩
    · rw [Heap.find_made_ne heap b hqp] at hq
      obtain ⟨j, hj⟩ := h.all q b' hq
      exact ⟨j, (howner j q).mpr (.inl hj)⟩

-- Some objects go away, with their owners' hold on them.
theorem cut (h : Owned heap owner) {heap' : Heap β} (lost : Set Nat)
    (hlost : ∀ p ∈ lost, heap'.find p = none) (hkept : ∀ p ∉ lost, heap'.find p = heap.find p)
    (howner : ∀ j q, q ∈ owner' j ↔ q ∈ owner j ∧ q ∉ lost) : Owned heap' owner' := by
  refine ⟨fun j q hq => ?_, fun j k q hj hk => ?_, fun q b hq => ?_⟩
  · obtain ⟨hq, hne⟩ := (howner j q).mp hq
    rw [hkept q hne]
    exact h.live j q hq
  · exact h.once j k q ((howner j q).mp hj).1 ((howner k q).mp hk).1
  · by_cases hqp : q ∈ lost
    · rw [hlost q hqp] at hq
      cases hq
    · rw [hkept q hqp] at hq
      obtain ⟨j, hj⟩ := h.all q b hq
      exact ⟨j, (howner j q).mpr ⟨hj, hqp⟩⟩

theorem gone (h : Owned heap owner) (howner : ∀ j q, q ∈ owner' j ↔ q ∈ owner j ∧ q ≠ p) :
    Owned (heap.gone p) owner' := by
  refine h.cut {p} (fun q hq => ?_) (fun q hq => Heap.find_gone_ne heap hq) howner
  rw [Set.mem_singleton_iff.mp hq, Heap.find_gone]

-- Nothing is left when nobody owns anything.
theorem cells_eq_empty (h : Owned heap owner) (hnone : ∀ i, owner i = ∅) : heap.cells = ∅ := by
  apply Heap.cells_eq_empty
  intro p
  rw [Option.eq_none_iff_forall_ne_some]
  intro b hb
  obtain ⟨i, hi⟩ := h.all p b hb
  rw [hnone i] at hi
  exact hi

end Owned

-- What was there before, and besides it the objects in `more`.
structure Extends (before heap : Heap β) (more : List (Nat × β)) : Prop where
  nodup : (more.map Prod.fst).Nodup
  added : ∀ o ∈ more, before.find o.1 = none ∧ heap.find o.1 = some o.2
  kept : ∀ p ∉ more.map Prod.fst, heap.find p = before.find p

namespace Extends

variable {before heap : Heap β} {more more' : List (Nat × β)} {p : Nat} {b b' : β}

theorem refl (heap : Heap β) : Extends heap heap [] := ⟨List.nodup_nil, nofun, fun _ _ => rfl⟩

theorem perm (h : Extends before heap more) (hperm : more.Perm more') : Extends before heap more' :=
  ⟨(hperm.map _).nodup_iff.mp h.nodup, fun o ho => h.added o (hperm.mem_iff.mpr ho),
    fun p hp => h.kept p (mt (hperm.map _).mem_iff.mp hp)⟩

theorem find (h : Extends before heap more) (hp : (p, b) ∈ more) : heap.find p = some b :=
  (h.added _ hp).2

theorem made (h : Extends before heap more) (hp : heap.find p = none) (b : β) :
    Extends before (heap.made p b) ((p, b) :: more) := by
  have hnot : p ∉ more.map Prod.fst := by
    intro hmem
    obtain ⟨⟨q, c⟩, hq, rfl⟩ := List.mem_map.mp hmem
    exact Heap.ne_of_find (h.find hq) hp rfl
  refine ⟨List.nodup_cons.mpr ⟨hnot, h.nodup⟩, fun o ho => ?_, fun q hq => ?_⟩
  · rcases List.mem_cons.mp ho with rfl | ho
    · exact ⟨(h.kept p hnot).symm.trans hp, Heap.find_made _ _ _⟩
    · have hne : o.1 ≠ p := Heap.ne_of_find (h.added o ho).2 hp
      exact ⟨(h.added o ho).1, (Heap.find_made_ne heap b hne).trans (h.added o ho).2⟩
  · obtain ⟨hne, hq⟩ := not_or.mp (mt List.mem_cons.mpr hq)
    exact (Heap.find_made_ne heap b hne).trans (h.kept q hq)

theorem put (h : Extends before heap ((p, b) :: more)) (b' : β) :
    Extends before (heap.put p b') ((p, b') :: more) := by
  refine ⟨h.nodup, fun o ho => ?_, fun q hq => ?_⟩
  · rcases List.mem_cons.mp ho with rfl | ho
    · exact ⟨(h.added (p, b) List.mem_cons_self).1, Heap.find_put _ _ _⟩
    · have hne : o.1 ≠ p := fun heq =>
        (List.nodup_cons.mp h.nodup).1 (heq ▸ List.mem_map.mpr ⟨o, ho, rfl⟩)
      have hold := h.added o (List.mem_cons_of_mem _ ho)
      exact ⟨hold.1, (Heap.find_put_ne heap b' hne).trans hold.2⟩
  · have hne : q ≠ p := fun heq => hq (by simp [heq])
    exact (Heap.find_put_ne heap b' hne).trans (h.kept q hq)

theorem gone (h : Extends before heap ((p, b) :: more)) : Extends before (heap.gone p) more := by
  obtain ⟨hnot, hnodup⟩ := List.nodup_cons.mp h.nodup
  refine ⟨hnodup, fun o ho => ?_, fun q hq => ?_⟩
  · have hne : o.1 ≠ p := fun heq => hnot (heq ▸ List.mem_map.mpr ⟨o, ho, rfl⟩)
    have hold := h.added o (List.mem_cons_of_mem _ ho)
    exact ⟨hold.1, (Heap.find_gone_ne heap hne).trans hold.2⟩
  · by_cases hqp : q = p
    · rw [hqp, Heap.find_gone, (h.added (p, b) List.mem_cons_self).1]
    · rw [Heap.find_gone_ne heap hqp]
      exact h.kept q (by simpa using ⟨hqp, by simpa using hq⟩)

theorem new (place : Placement β) (h : Extends before heap more) (b : β) :
    Extends before (heap.new place b).1 (((heap.new place b).2, b) :: more) :=
  h.made (Heap.find_address place heap b) b

theorem load (h : Extends before heap ((p, b) :: more)) : heap.load p = .ok b :=
  Heap.load_eq (h.find List.mem_cons_self)

theorem store (h : Extends before heap ((p, b) :: more)) (b' : β) :
    ∃ heap', heap.store p b' = .ok heap' ∧ Extends before heap' ((p, b') :: more) :=
  ⟨_, Heap.store_eq (h.find List.mem_cons_self), h.put b'⟩

theorem delete (h : Extends before heap ((p, b) :: more)) :
    ∃ heap', heap.delete p = .ok heap' ∧ Extends before heap' more :=
  ⟨_, Heap.delete_eq (h.find List.mem_cons_self), h.gone⟩

end Extends

-- Memory for characters. What was not written yet is `none`.
abbrev Buffer := List (Option UInt8)

namespace Buffer

-- `new char[n]`
def blank (n : Nat) : Buffer := List.replicate n none

def write (buffer : Buffer) (p : Nat) (bs : List UInt8) : Except Misuse Buffer :=
  if p + bs.length ≤ buffer.length then
    .ok (buffer.take p ++ bs.map some ++ buffer.drop (p + bs.length))
  else .error .outOfBounds

def read (buffer : Buffer) (p n : Nat) : Except Misuse (List UInt8) :=
  if p + n ≤ buffer.length then
    match ((buffer.drop p).take n).mapM id with
    | none => .error .uninitialised
    | some bs => .ok bs
  else .error .outOfBounds

-- A buffer of `n` characters of which the first ones are written.
def filled (bs : List UInt8) (n : Nat) : Buffer := bs.map some ++ blank (n - bs.length)

theorem filled_length {bs : List UInt8} {n : Nat} (h : bs.length ≤ n) :
    (filled bs n).length = n := by
  simp [filled, blank]
  omega

theorem write_filled (bs more : List UInt8) (n : Nat) (h : bs.length + more.length ≤ n) :
    (filled bs n).write bs.length more = .ok (filled (bs ++ more) n) := by
  have htake : (filled bs n).take bs.length = bs.map some := by
    rw [filled, List.take_left' (List.length_map some)]
  have hdrop : (filled bs n).drop (bs.length + more.length) = blank (n - (bs ++ more).length) := by
    rw [filled, ← List.drop_drop, List.drop_left' (List.length_map some), blank, List.drop_replicate,
      List.length_append, Nat.sub_sub, blank]
  rw [write, if_pos (by rw [filled_length (by omega)]; exact h), htake, hdrop, filled, List.map_append]

theorem mapM_some (bs : List UInt8) : (bs.map some).mapM id = some bs := by
  induction bs with
  | nil => rfl
  | cons b bs ih => simp [List.mapM_cons, ih]

theorem read_written (bs : List UInt8) (p n : Nat) (h : p + n ≤ bs.length) :
    read (bs.map some) p n = .ok ((bs.drop p).take n) := by
  rw [read, if_pos (by simpa using h), ← List.map_drop, ← List.map_take, mapM_some]

end Buffer

namespace Heap

def writeAt (heap : Heap Buffer) (p i : Nat) (bs : List UInt8) : Except Misuse (Heap Buffer) := do
  let buffer ← heap.load p
  let buffer ← buffer.write i bs
  heap.store p buffer

def readAt (heap : Heap Buffer) (p i n : Nat) : Except Misuse (List UInt8) := do
  let buffer ← heap.load p
  buffer.read i n

variable {heap : Heap Buffer}

theorem writeAt_made (heap : Heap Buffer) (p : Nat) (bs more : List UInt8) (n : Nat)
    (h : bs.length + more.length ≤ n) :
    (heap.made p (.filled bs n)).writeAt p bs.length more =
      .ok (heap.made p (.filled (bs ++ more) n)) := by
  rw [writeAt, load_eq (find_made _ _ _), ok_bind, Buffer.write_filled bs more n h, ok_bind,
    store_eq (find_made _ _ _), made_put]

theorem readAt_eq {p : Nat} {bs : List UInt8} (hp : heap.find p = some (bs.map some)) (i n : Nat)
    (h : i + n ≤ bs.length) : heap.readAt p i n = .ok ((bs.drop i).take n) := by
  rw [readAt, load_eq hp, ok_bind, Buffer.read_written bs i n h]

end Heap

end Lib.Ownership

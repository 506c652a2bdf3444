import Mylldb.Arena
import Mylldb.TableBuilder

namespace Mylldb

open Lib.Regions

-- The state of a once flag. The port never looks at it.
abbrev OnceType := Nat

def onceInit : OnceType := 0

def initOnce {σ : Type} (_once : OnceType) (initializer : σ → σ) (s : σ) : σ := initializer s

-- The variables of `comparator.cpp`, and the objects that the initializer made.
structure Statics where
  once : OnceType
  bytewise : Option Nat
  objects : List Region
  deriving DecidableEq, Repr

namespace Statics

def initial : Statics := ⟨onceInit, none, []⟩

section

variable (heap : Allocator)

-- The object holds the pointer to its methods and nothing else.
def initModule (s : Statics) : Statics :=
  { s with
    bytewise := some (heap.address s.objects 8)
    objects := s.objects ++ [⟨heap.address s.objects 8, 8⟩] }

def bytewiseComparator (s : Statics) : Statics × Option Nat :=
  let s := initOnce s.once (initModule heap) s
  (s, s.bytewise)

-- So many calls, with what they returned.
def calls : Nat → Statics × List (Option Nat)
  | 0 => (initial, [])
  | n + 1 =>
      let (s, pointers) := calls n
      let (s, pointer) := s.bytewiseComparator heap
      (s, pointers ++ [pointer])

end

-- After so many calls there is one object, and a builder whose options took it from one
-- call accepts options that take it from a later call.
structure OneObject (heap : Allocator) (n : Nat) : Prop where
  once : n ≠ 0 → (calls heap n).1.objects.length = 1
  same : ∀ p ∈ (calls heap n).2, ∀ q ∈ (calls heap n).2, p = q
  accepted : ∀ (i j : Nat) (r : TableBuilder) (options : Options), i < j →
    (calls heap n).2[i]? = some (some r.options.comparator) →
      (calls heap n).2[j]? = some (some options.comparator) →
        (r.changeOptions options).2 = .ok

variable {heap : Allocator}

-- Every call makes an object, and returns the address of the newest one.
theorem calls_eq (heap : Allocator) (n : Nat) : (calls heap n).1.objects.length = n ∧
    (calls heap n).2 = (calls heap n).1.objects.map fun b => some b.start := by
  induction n with
  | zero => exact ⟨rfl, rfl⟩
  | succ n ih =>
      obtain ⟨hlength, hpointers⟩ := ih
      simp [calls, bytewiseComparator, initOnce, initModule, hlength, hpointers]

theorem objects_apart (heap : Allocator) (n : Nat) :
    (calls heap n).1.objects.Pairwise Region.Apart ∧
      ∀ b ∈ (calls heap n).1.objects, b.size = 8 := by
  induction n with
  | zero => exact ⟨List.Pairwise.nil, by simp [calls, initial]⟩
  | succ n ih =>
      obtain ⟨hapart, hsize⟩ := ih
      refine ⟨apart_concat hapart (heap.fresh _ 8), fun b hb => ?_⟩
      rcases List.mem_append.mp hb with hb | hb
      · exact hsize b hb
      · rw [List.mem_singleton.mp hb]

-- Two calls return two pointers.
theorem pointers_differ (heap : Allocator) (n i j p q : Nat) (hij : i < j)
    (hp : (calls heap n).2[i]? = some (some p)) (hq : (calls heap n).2[j]? = some (some q)) :
    p ≠ q := by
  obtain ⟨-, hpointers⟩ := calls_eq heap n
  obtain ⟨hapart, hsize⟩ := objects_apart heap n
  rw [hpointers, List.getElem?_map, Option.map_eq_some_iff] at hp hq
  obtain ⟨b, hb, hp⟩ := hp
  obtain ⟨b', hb', hq⟩ := hq
  obtain ⟨hi, rfl⟩ := List.getElem?_eq_some_iff.mp hb
  obtain ⟨hj, rfl⟩ := List.getElem?_eq_some_iff.mp hb'
  have hne := List.pairwise_iff_getElem.mp hapart i j hi hj hij
  have hsizeᵢ := hsize _ (List.getElem_mem hi)
  have hsizeⱼ := hsize _ (List.getElem_mem hj)
  unfold Region.Apart Region.stop at hne
  obtain rfl := Option.some.inj hp
  obtain rfl := Option.some.inj hq
  omega

-- Options with the pointer of a later call are refused.
theorem changeOptions_refused (heap : Allocator) (n i j : Nat) (r : TableBuilder)
    (options : Options) (hij : i < j)
    (hi : (calls heap n).2[i]? = some (some r.options.comparator))
    (hj : (calls heap n).2[j]? = some (some options.comparator)) :
    r.changeOptions options =
      (r, Status.invalidArgument "changing comparator while building table" "") := by
  have hne := pointers_differ heap n i j _ _ hij hi hj
  rw [TableBuilder.changeOptions, if_pos (Ne.symm hne)]

theorem oneObject_iff (heap : Allocator) (n : Nat) : OneObject heap n ↔ n ≤ 1 := by
  obtain ⟨hlength, hpointers⟩ := calls_eq heap n
  have hcount : (calls heap n).2.length = n := by rw [hpointers, List.length_map, hlength]
  constructor
  · intro h
    by_cases hzero : n = 0
    · omega
    · have hone := h.once hzero
      omega
  · intro hn
    refine ⟨fun hzero => by omega, fun p hp q hq => ?_, fun i j r options hij _ hj => ?_⟩
    · obtain ⟨i, hi, rfl⟩ := List.getElem_of_mem hp
      obtain ⟨j, hj, rfl⟩ := List.getElem_of_mem hq
      obtain rfl : i = j := by omega
      rfl
    · -- a single call has no later one
      have hlt := (List.getElem?_eq_some_iff.mp hj).1
      omega

-- Two calls, with two objects.
theorem twoObjects : ¬OneObject .stacked 2 := by
  intro h
  have hsame := h.same (some 8) (by decide) (some 24) (by decide)
  cases hsame

end Statics

end Mylldb

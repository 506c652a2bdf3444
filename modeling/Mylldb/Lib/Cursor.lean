import Mylldb.Lib.Run

namespace Lib.Cursor

open Lib.Run

variable {ε σ τ : Type}

-- A cursor over `n` elements stands on one of them or on none.
abbrev Position := Option Nat

inductive Move (τ : Type) where
  | toFirst
  | toLast
  | seek (target : τ)
  | next
  | prev
  deriving Repr

def first (n : Nat) : Position := if n = 0 then none else some 0

def last (n : Nat) : Position := if n = 0 then none else some (n - 1)

def after (n i : Nat) : Position := if i + 1 < n then some (i + 1) else none

def before (i : Nat) : Position := if i = 0 then none else some (i - 1)

-- The moves `next` and `prev` are allowed only while the cursor stands on an
-- element. `find` says where a search ends.
def move (n : Nat) (find : τ → Position) : Position → Move τ → Option Position
  | _, .toFirst => some (first n)
  | _, .toLast => some (last n)
  | _, .seek target => some (find target)
  | none, .next => none
  | none, .prev => none
  | some i, .next => some (after n i)
  | some i, .prev => some (before i)

def run (n : Nat) (find : τ → Position) : Position → List (Move τ) → Option Position
  | p, [] => some p
  | p, a :: moves => (move n find p a).bind fun q => run n find q moves

-- The operations of an iterator that may fail.
structure Machine (ε σ τ : Type) where
  valid : σ → Bool
  toFirst : σ → Except ε σ
  toLast : σ → Except ε σ
  seek : σ → τ → Except ε σ
  next : σ → Except ε σ
  prev : σ → Except ε σ

namespace Machine

variable (m : Machine ε σ τ)

-- The result is empty when the iterator does not allow the move.
def move (s : σ) : Move τ → Except ε (Option σ)
  | .toFirst => some <$> m.toFirst s
  | .toLast => some <$> m.toLast s
  | .seek target => some <$> m.seek s target
  | .next => if m.valid s then some <$> m.next s else .ok none
  | .prev => if m.valid s then some <$> m.prev s else .ok none

def run (s : σ) : List (Move τ) → Except ε (Option σ)
  | [] => .ok (some s)
  | a :: moves => do
      match ← m.move s a with
      | none => pure none
      | some s => run s moves

-- Every step of a run meets a condition on the state before it.
def Meets (condition : σ → Move τ → Prop) : σ → List (Move τ) → Prop
  | _, [] => True
  | s, a :: moves => condition s a ∧ ∀ s', m.move s a = .ok (some s') → Meets condition s' moves

variable {m}

-- A run keeps an invariant that every step keeps when its condition is met.
theorem run_invariant (condition : σ → Move τ → Prop) (inv : σ → Prop)
    (hstep : ∀ s a, inv s → condition s a → ∃ o, m.move s a = .ok o ∧ ∀ s' ∈ o, inv s')
    (moves : List (Move τ)) (s : σ) (hs : inv s) (hmeets : m.Meets condition s moves) :
    ∃ o, m.run s moves = .ok o ∧ ∀ s' ∈ o, inv s' := by
  induction moves generalizing s with
  | nil =>
      refine ⟨some s, rfl, fun s' hs' => ?_⟩
      obtain rfl := Option.some.inj hs'
      exact hs
  | cons a moves ih =>
      obtain ⟨o, ho, hinv⟩ := hstep s a hs hmeets.1
      cases o with
      | none => exact ⟨none, by simp [run, ho], by simp⟩
      | some s₁ =>
          obtain ⟨o, hrun, hlast⟩ := ih s₁ (hinv s₁ rfl) (hmeets.2 s₁ ho)
          exact ⟨o, by simpa [run, ho] using hrun, hlast⟩

-- The same when a step may fail with `e` instead.
theorem run_onlyFails (e : ε) (inv : σ → Prop)
    (hstep : ∀ s a, inv s → OnlyFails e (m.move s a) fun o => ∀ s' ∈ o, inv s')
    (moves : List (Move τ)) (s : σ) (hs : inv s) :
    OnlyFails e (m.run s moves) fun o => ∀ s' ∈ o, inv s' := by
  induction moves generalizing s with
  | nil =>
      refine .ok fun s' hs' => ?_
      obtain rfl := Option.some.inj hs'
      exact hs
  | cons a moves ih =>
      apply (hstep s a hs).bind
      intro o _ hinv
      cases o with
      | none => exact .ok (by simp)
      | some s₁ => exact ih s₁ (hinv s₁ rfl)

end Machine

-- A machine implements a cursor when every operation keeps the relation between
-- its state and the position.
structure Implements (m : Machine ε σ τ) (n : Nat) (find : τ → Position)
    (shows : σ → Position → Prop) : Prop where
  valid : ∀ s p, shows s p → m.valid s = p.isSome
  toFirst : ∀ s p, shows s p → ∃ s', m.toFirst s = .ok s' ∧ shows s' (first n)
  toLast : ∀ s p, shows s p → ∃ s', m.toLast s = .ok s' ∧ shows s' (last n)
  seek : ∀ s p target, shows s p → ∃ s', m.seek s target = .ok s' ∧ shows s' (find target)
  next : ∀ s i, shows s (some i) → ∃ s', m.next s = .ok s' ∧ shows s' (after n i)
  prev : ∀ s i, shows s (some i) → ∃ s', m.prev s = .ok s' ∧ shows s' (before i)

-- The outcome of a run agrees with the outcome of the cursor's run.
def Agrees (shows : σ → Position → Prop) : Option σ → Option Position → Prop
  | none, none => True
  | some s, some p => shows s p
  | _, _ => False

theorem Agrees.imp {shows shows' : σ → Position → Prop} {o : Option σ} {p : Option Position}
    (h : Agrees shows o p) (himp : ∀ s q, shows s q → shows' s q) : Agrees shows' o p := by
  cases o with
  | none =>
      cases p with
      | none => trivial
      | some q => exact h
  | some s =>
      cases p with
      | none => exact h
      | some q => exact himp s q h

namespace Implements

variable {m : Machine ε σ τ} {n : Nat} {find : τ → Position} {shows : σ → Position → Prop}

theorem move_agrees (h : Implements m n find shows) (s : σ) (p : Position) (hs : shows s p)
    (a : Move τ) : ∃ o, m.move s a = .ok o ∧ Agrees shows o (move n find p a) := by
  have hvalid := h.valid s p hs
  cases a with
  | toFirst =>
      obtain ⟨s', hs', hshows⟩ := h.toFirst s p hs
      exact ⟨some s', by simp [Machine.move, hs'], hshows⟩
  | toLast =>
      obtain ⟨s', hs', hshows⟩ := h.toLast s p hs
      exact ⟨some s', by simp [Machine.move, hs'], hshows⟩
  | seek target =>
      obtain ⟨s', hs', hshows⟩ := h.seek s p target hs
      exact ⟨some s', by simp [Machine.move, hs'], hshows⟩
  | next =>
      cases p with
      | none => exact ⟨none, by simp [Machine.move, hvalid], trivial⟩
      | some i =>
          obtain ⟨s', hs', hshows⟩ := h.next s i hs
          exact ⟨some s', by simp [Machine.move, hvalid, hs'], hshows⟩
  | prev =>
      cases p with
      | none => exact ⟨none, by simp [Machine.move, hvalid], trivial⟩
      | some i =>
          obtain ⟨s', hs', hshows⟩ := h.prev s i hs
          exact ⟨some s', by simp [Machine.move, hvalid, hs'], hshows⟩

theorem run_agrees (h : Implements m n find shows) (moves : List (Move τ)) (s : σ) (p : Position)
    (hs : shows s p) : ∃ o, m.run s moves = .ok o ∧ Agrees shows o (run n find p moves) := by
  induction moves generalizing s p with
  | nil => exact ⟨some s, rfl, hs⟩
  | cons a moves ih =>
      obtain ⟨o, ho, hagrees⟩ := h.move_agrees s p hs a
      cases hmove : move n find p a with
      | none =>
          rw [hmove] at hagrees
          cases o with
          | none => exact ⟨none, by simp [Machine.run, ho], by simp [run, hmove, Agrees]⟩
          | some s' => exact hagrees.elim
      | some q =>
          rw [hmove] at hagrees
          cases o with
          | none => exact hagrees.elim
          | some s' =>
              obtain ⟨o, hrun, hlast⟩ := ih s' q hagrees
              exact ⟨o, by simpa [Machine.run, ho] using hrun, by simpa [run, hmove] using hlast⟩

end Implements

-- A search for the first of the elements behind a place ends there.
theorem findIdx?_split {α : Type} {p : α → Bool} {before after : List α}
    (hbefore : ∀ a ∈ before, p a = false) (hafter : ∀ a ∈ after, p a = true) :
    (before ++ after).findIdx? p = if after = [] then none else some before.length := by
  rw [List.findIdx?_append, List.findIdx?_eq_none_iff.mpr hbefore, Option.none_or]
  cases after with
  | nil => rfl
  | cons a after =>
      rw [List.findIdx?_cons, hafter a (List.mem_cons_self ..)]
      simp

section Walk

variable {α : Type}

-- What a client's loop collects: it reads where the iterator stands and moves on, until
-- the iterator is no longer valid. `stuck` is the error of a loop that does not end.
def Machine.walk (m : Machine ε σ τ) (stuck : ε) (read : σ → Except ε α)
    (step : σ → Except ε σ) : Nat → σ → Except ε (List α)
  | 0, _ => .error stuck
  | fuel + 1, s =>
      if m.valid s then do
        let a ← read s
        let s ← step s
        let rest ← m.walk stuck read step fuel s
        pure (a :: rest)
      else pure []

def Machine.forward (m : Machine ε σ τ) (stuck : ε) (read : σ → Except ε α) (fuel : Nat) (s : σ) :
    Except ε (List α) := do
  let s ← m.toFirst s
  m.walk stuck read m.next fuel s

def Machine.backward (m : Machine ε σ τ) (stuck : ε) (read : σ → Except ε α) (fuel : Nat)
    (s : σ) : Except ε (List α) := do
  let s ← m.toLast s
  m.walk stuck read m.prev fuel s

-- What lies at a position and after it, and what lies there and before it, nearest first.
def ahead (elems : List α) : Position → List α
  | none => []
  | some i => elems.drop i

def behind (elems : List α) : Position → List α
  | none => []
  | some i => (elems.take (i + 1)).reverse

theorem ahead_first (elems : List α) : ahead elems (first elems.length) = elems := by
  cases elems <;> rfl

theorem behind_last (elems : List α) : behind elems (last elems.length) = elems.reverse := by
  cases elems with
  | nil => rfl
  | cons a elems => simp [behind, last]

theorem ahead_after (elems : List α) {i : Nat} (hi : i < elems.length) :
    ahead elems (some i) = elems[i] :: ahead elems (after elems.length i) := by
  have hdrop : ahead elems (some i) = elems[i] :: elems.drop (i + 1) :=
    List.drop_eq_getElem_cons hi
  rw [hdrop, after]
  by_cases hlast : i + 1 < elems.length
  · rw [if_pos hlast]
    rfl
  · rw [if_neg hlast, List.drop_eq_nil_iff.mpr (Nat.le_of_not_lt hlast)]
    rfl

theorem behind_before (elems : List α) {i : Nat} (hi : i < elems.length) :
    behind elems (some i) = elems[i] :: behind elems (before i) := by
  have htake : behind elems (some i) = elems[i] :: (elems.take i).reverse := by
    rw [behind, List.take_succ_eq_append_getElem hi, List.reverse_append, List.reverse_singleton,
      List.singleton_append]
  rw [htake]
  cases i with
  | zero => rfl
  | succ i => rfl

variable {m : Machine ε σ τ} {elems : List α} {find : τ → Position} {shows : σ → Position → Prop}
  {read : σ → Except ε α}

-- The loop over `Next` collects what lies ahead. The induction is on the fuel, which the
-- elements ahead bound.
theorem Implements.walk_next (h : Implements m elems.length find shows) (stuck : ε)
    (hread : ∀ s i, shows s (some i) → ∃ a, elems[i]? = some a ∧ read s = .ok a) (fuel : Nat)
    (s : σ) (p : Position) (hs : shows s p) (hfuel : (ahead elems p).length < fuel) :
    m.walk stuck read m.next fuel s = .ok (ahead elems p) := by
  induction fuel generalizing s p with
  | zero => omega
  | succ fuel ih =>
      have hvalid := h.valid s p hs
      rw [Machine.walk, hvalid]
      cases p with
      | none => rfl
      | some i =>
          obtain ⟨a, ha, hreads⟩ := hread s i hs
          obtain ⟨hi, rfl⟩ := List.getElem?_eq_some_iff.mp ha
          obtain ⟨s', hnext, hs'⟩ := h.next s i hs
          rw [ahead_after elems hi] at hfuel ⊢
          rw [Option.isSome_some, if_pos rfl, hreads, ok_bind, hnext, ok_bind,
            ih s' _ hs' (Nat.lt_of_succ_lt_succ hfuel)]
          rfl

theorem Implements.walk_prev (h : Implements m elems.length find shows) (stuck : ε)
    (hread : ∀ s i, shows s (some i) → ∃ a, elems[i]? = some a ∧ read s = .ok a) (fuel : Nat)
    (s : σ) (p : Position) (hs : shows s p) (hfuel : (behind elems p).length < fuel) :
    m.walk stuck read m.prev fuel s = .ok (behind elems p) := by
  induction fuel generalizing s p with
  | zero => omega
  | succ fuel ih =>
      have hvalid := h.valid s p hs
      rw [Machine.walk, hvalid]
      cases p with
      | none => rfl
      | some i =>
          obtain ⟨a, ha, hreads⟩ := hread s i hs
          obtain ⟨hi, rfl⟩ := List.getElem?_eq_some_iff.mp ha
          obtain ⟨s', hprev, hs'⟩ := h.prev s i hs
          rw [behind_before elems hi] at hfuel ⊢
          rw [Option.isSome_some, if_pos rfl, hreads, ok_bind, hprev, ok_bind,
            ih s' _ hs' (Nat.lt_of_succ_lt_succ hfuel)]
          rfl

variable (h : Implements m elems.length find shows) (stuck : ε)
  (hread : ∀ s i, shows s (some i) → ∃ a, elems[i]? = some a ∧ read s = .ok a)
  {fuel : Nat} {s : σ} {p : Position}
include h hread

theorem Implements.forward_eq (hs : shows s p) (hfuel : elems.length < fuel) :
    m.forward stuck read fuel s = .ok elems := by
  obtain ⟨s', hs', hshows⟩ := h.toFirst s p hs
  rw [Machine.forward, hs', ok_bind, h.walk_next stuck hread fuel s' _ hshows
    (by rwa [ahead_first]), ahead_first]

theorem Implements.backward_eq (hs : shows s p) (hfuel : elems.length < fuel) :
    m.backward stuck read fuel s = .ok elems.reverse := by
  obtain ⟨s', hs', hshows⟩ := h.toLast s p hs
  rw [Machine.backward, hs', ok_bind, h.walk_prev stuck hread fuel s' _ hshows
    (by rwa [behind_last, List.length_reverse]), behind_last]

end Walk

end Lib.Cursor

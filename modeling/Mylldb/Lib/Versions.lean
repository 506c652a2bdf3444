import Mathlib.Data.List.Induction
import Mathlib.Data.List.Pairwise
import Mathlib.Logic.Function.Basic

namespace Lib.Versions

variable {α κ : Type} (rank : α → Nat)

-- The better of two versions. The later one wins a tie.
def newer (best : Option α) (e : α) : Option α :=
  match best with
  | none => some e
  | some b => if rank b ≤ rank e then some e else some b

-- The version with the greatest rank, and the last one of several.
def latest (l : List α) : Option α := l.foldl (newer rank) none

theorem latest_concat (l : List α) (a : α) :
    latest rank (l ++ [a]) = newer rank (latest rank l) a := by
  rw [latest, List.foldl_append]
  rfl

-- No version before it is above it, and every version after it is below it.
theorem latest_split (l : List α) (hne : l ≠ []) :
    ∃ before e after, l = before ++ e :: after ∧ latest rank l = some e ∧
      (∀ f ∈ before, rank f ≤ rank e) ∧ ∀ f ∈ after, rank f < rank e := by
  induction l using List.reverseRecOn with
  | nil => exact absurd rfl hne
  | append_singleton l a ih =>
      rw [latest_concat]
      by_cases hnil : l = []
      · subst hnil
        exact ⟨[], a, [], rfl, rfl, by simp, by simp⟩
      · obtain ⟨before, e, after, hl, hlatest, hbefore, hafter⟩ := ih hnil
        rw [hlatest, newer]
        by_cases hle : rank e ≤ rank a
        · rw [if_pos hle]
          refine ⟨l, a, [], rfl, rfl, fun f hf => ?_, by simp⟩
          rw [hl] at hf
          rcases List.mem_append.mp hf with hf | hf
          · exact Nat.le_trans (hbefore f hf) hle
          · rcases List.mem_cons.mp hf with rfl | hf
            · exact hle
            · exact Nat.le_trans (Nat.le_of_lt (hafter f hf)) hle
        · rw [if_neg hle]
          refine ⟨before, e, after ++ [a], by rw [hl]; simp, rfl, hbefore, fun f hf => ?_⟩
          rcases List.mem_append.mp hf with hf | hf
          · exact hafter f hf
          · rw [List.mem_singleton.mp hf]
            exact Nat.lt_of_not_le hle

-- What the ranks do not see may be left out before the search or after it.
theorem latest_map {β : Type} (f : α → β) (rank : β → Nat) (l : List α) :
    latest rank (l.map f) = (latest (rank ∘ f) l).map f := by
  induction l using List.reverseRecOn with
  | nil => rfl
  | append_singleton l a ih =>
      rw [List.map_append, List.map_singleton, latest_concat, latest_concat, ih]
      cases latest (rank ∘ f) l with
      | none => rfl
      | some b => exact (apply_ite (Option.map f) (rank (f b) ≤ rank (f a)) (some a) (some b)).symm

variable {rank}

theorem latest_nil_iff {l : List α} : latest rank l = none ↔ l = [] := by
  constructor
  · intro hnone
    by_contra hne
    obtain ⟨before, e, after, -, hlatest, -⟩ := latest_split rank l hne
    rw [hlatest] at hnone
    cases hnone
  · rintro rfl
    rfl

theorem latest_greatest {l : List α} {e : α} (h : latest rank l = some e) :
    e ∈ l ∧ ∀ f ∈ l, rank f ≤ rank e := by
  have hne : l ≠ [] := by
    rintro rfl
    cases h
  obtain ⟨before, e', after, rfl, hlatest, hbefore, hafter⟩ := latest_split rank l hne
  obtain rfl := Option.some.inj (hlatest.symm.trans h)
  refine ⟨by simp, fun f hf => ?_⟩
  rcases List.mem_append.mp hf with hf | hf
  · exact hbefore f hf
  · rcases List.mem_cons.mp hf with rfl | hf
    · exact Nat.le_refl _
    · exact Nat.le_of_lt (hafter f hf)

-- A version that stands as `latest_split` says is the latest.
theorem latest_eq_some {before after : List α} {e : α} (hbefore : ∀ f ∈ before, rank f ≤ rank e)
    (hafter : ∀ f ∈ after, rank f < rank e) : latest rank (before ++ e :: after) = some e := by
  induction after using List.reverseRecOn with
  | nil =>
      rw [latest_concat]
      cases hlatest : latest rank before with
      | none => rfl
      | some b => exact if_pos (hbefore b (latest_greatest hlatest).1)
  | append_singleton after a ih =>
      rw [← List.cons_append, ← List.append_assoc, latest_concat,
        ih fun f hf => hafter f (List.mem_append_left _ hf)]
      exact if_neg (Nat.not_le_of_lt (hafter a (by simp)))

-- Versions of different ranks may come in any order.
theorem latest_perm {l l' : List α} (hperm : l.Perm l')
    (hdistinct : l.Pairwise fun a b => rank a ≠ rank b) : latest rank l = latest rank l' := by
  cases hlatest : latest rank l with
  | none =>
      rw [latest_nil_iff.mp hlatest] at hperm
      exact (latest_nil_iff.mpr hperm.nil_eq.symm).symm
  | some e =>
      obtain ⟨hmem, hle⟩ := latest_greatest hlatest
      cases hlatest' : latest rank l' with
      | none =>
          rw [latest_nil_iff.mp hlatest'] at hperm
          rw [hperm.eq_nil] at hmem
          cases hmem
      | some e' =>
          obtain ⟨hmem', hle'⟩ := latest_greatest hlatest'
          have heq : rank e = rank e' :=
            Nat.le_antisymm (hle' e (hperm.mem_iff.mp hmem)) (hle e' (hperm.mem_iff.mpr hmem'))
          by_contra hne
          have : Std.Symm fun a b : α => rank a ≠ rank b := ⟨fun _ _ h => h.symm⟩
          exact hdistinct.forall hmem (hperm.mem_iff.mpr hmem') (fun h => hne (congrArg some h)) heq

-- Of versions with ascending ranks the last one is the latest.
theorem latest_sorted {l : List α} (hsorted : l.Pairwise fun a b => rank a < rank b) :
    latest rank l = l.getLast? := by
  induction l using List.reverseRecOn with
  | nil => rfl
  | append_singleton l a ih =>
      have hbelow := (List.pairwise_append.mp hsorted).2.2
      rw [List.getLast?_concat]
      exact latest_eq_some (fun f hf => Nat.le_of_lt (hbelow f hf a (by simp))) (by simp)

-- With ascending ranks the versions up to a bound come first.
theorem filter_eq_takeWhile {l : List α} (hsorted : l.Pairwise fun a b => rank a < rank b)
    (n : Nat) : (l.filter fun e => decide (rank e ≤ n)) =
      l.takeWhile fun e => decide (rank e ≤ n) := by
  induction l with
  | nil => rfl
  | cons a l ih =>
      obtain ⟨ha, hrest⟩ := List.pairwise_cons.mp hsorted
      by_cases hle : rank a ≤ n
      · rw [List.filter_cons_of_pos (by simpa using hle),
          List.takeWhile_cons_of_pos (by simpa using hle), ih hrest]
      · rw [List.filter_cons_of_neg (by simpa using hle),
          List.takeWhile_cons_of_neg (by simpa using hle), List.filter_eq_nil_iff]
        intro e he
        have hlt := ha e he
        rw [decide_eq_true_iff]
        omega

section Replay

variable [DecidableEq κ] (key : α → κ)

-- A map that takes the versions one after the other.
def replay (l : List α) : κ → Option α :=
  l.foldl (fun state e => Function.update state (key e) (some e)) fun _ => none

-- What it holds for a key is the last version with that key.
theorem replay_eq (l : List α) (k : κ) :
    replay key l k = (l.filter fun e => decide (key e = k)).getLast? := by
  induction l using List.reverseRecOn with
  | nil => rfl
  | append_singleton l a ih =>
      rw [replay, List.foldl_append, List.filter_append]
      change Function.update (replay key l) (key a) (some a) k = _
      by_cases hk : key a = k
      · rw [← hk, Function.update_self, List.filter_cons_of_pos (by simp), List.filter_nil,
          List.getLast?_concat]
      · rw [Function.update_of_ne (Ne.symm hk), ih, List.filter_cons_of_neg (by simpa using hk),
          List.filter_nil, List.append_nil]

end Replay

end Lib.Versions

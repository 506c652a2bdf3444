import Mylldb.Lib.Run
import Mathlib.Data.List.Induction

namespace Lib.History

open Lib.Run

variable {ε σ α γ ρ : Type}

-- `Replays step s records t`: an object that takes the recorded steps one after another
-- comes from `s` to `t`.
inductive Replays (step : σ → ρ → σ → Prop) (s : σ) : List ρ → σ → Prop
  | nil : Replays step s [] s
  | snoc {records : List ρ} {t u : σ} {r : ρ} : Replays step s records t → step t r u →
      Replays step s (records ++ [r]) u

namespace Replays

variable {step : σ → ρ → σ → Prop} {s t u : σ} {records more : List ρ}

theorem one {r : ρ} (h : step s r t) : Replays step s [r] t := .snoc .nil h

theorem append (h : Replays step s records t) (h' : Replays step t more u) :
    Replays step s (records ++ more) u := by
  induction h' with
  | nil => rwa [List.append_nil]
  | snoc _ hstep ih =>
      rw [← List.append_assoc]
      exact .snoc ih hstep

theorem concat {r : ρ} (h : Replays step s (records ++ [r]) u) :
    ∃ t, Replays step s records t ∧ step t r u := by
  generalize hall : records ++ [r] = all at h
  cases h with
  | nil => simp at hall
  | snoc hrecords hstep =>
      obtain ⟨rfl, hr⟩ := List.append_inj' hall rfl
      obtain rfl := List.singleton_inj.mp hr
      exact ⟨_, hrecords, hstep⟩

-- Every record of a history is a step from where the records before it lead.
theorem split {r : ρ} (h : Replays step s (records ++ r :: more) u) :
    ∃ t t', Replays step s records t ∧ step t r t' ∧ Replays step t' more u := by
  induction more using List.reverseRecOn generalizing u with
  | nil =>
      obtain ⟨t, hrecords, hstep⟩ := h.concat
      exact ⟨t, u, hrecords, hstep, .nil⟩
  | append_singleton more r' ih =>
      rw [← List.cons_append, ← List.append_assoc] at h
      obtain ⟨v, hrecords, hstep⟩ := h.concat
      obtain ⟨t, t', hbefore, hr, hafter⟩ := ih hrecords
      exact ⟨t, t', hbefore, hr, .snoc hafter hstep⟩

end Replays

-- A run whose acts append records to a history. When every act keeps a relation to an
-- object that replays what the act recorded, the whole history can be replayed.
theorem foldlM_replays (act : γ → α → Except ε γ) (history : γ → List ρ)
    (step : σ → ρ → σ → Prop) (inv : γ → σ → Prop) (acts : List α)
    (hact : ∀ c s, inv c s → ∀ a ∈ acts, ∃ c' s' new, act c a = .ok c' ∧
      history c' = history c ++ new ∧ Replays step s new s' ∧ inv c' s')
    (c : γ) (s : σ) (hc : inv c s) (hempty : history c = []) :
    ∃ c' s', acts.foldlM act c = .ok c' ∧ Replays step s (history c') s' ∧ inv c' s' := by
  obtain ⟨c', hrun, s', hreplays, hinv⟩ := foldlM_history act
    (fun _ c' => ∃ s', Replays step s (history c') s' ∧ inv c' s') acts (by
      rintro done c₁ ⟨s₁, hreplays, hinv⟩ a ha
      obtain ⟨c₂, s₂, new, hrun, hhistory, hnew, hinv'⟩ := hact c₁ s₁ hinv a ha
      refine ⟨c₂, hrun, s₂, ?_, hinv'⟩
      rw [hhistory]
      exact hreplays.append hnew)
    [] c ⟨s, by rw [hempty]; exact .nil, hc⟩
  exact ⟨c', s', hrun, hreplays, hinv⟩

end Lib.History

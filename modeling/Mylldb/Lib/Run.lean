import Mathlib.Data.List.Basic

namespace Lib.Run

variable {ε σ α β : Type}

@[simp] theorem ok_bind (a : α) (f : α → Except ε β) : (Except.ok a >>= f) = f a := rfl

@[simp] theorem error_bind (e : ε) (f : α → Except ε β) :
    ((Except.error e : Except ε α) >>= f) = .error e := rfl

@[simp] theorem pure_eq (a : α) : (pure a : Except ε α) = .ok a := rfl

theorem bind_eq_ok {x : Except ε α} {f : α → Except ε β} {b : β} :
    (x >>= f) = .ok b ↔ ∃ a, x = .ok a ∧ f a = .ok b := by
  cases x <;> simp

-- A computation that fails with `e` only, and whose result satisfies `post`.
def OnlyFails (e : ε) (x : Except ε α) (post : α → Prop) : Prop :=
  x = .error e ∨ ∃ a, x = .ok a ∧ post a

namespace OnlyFails

variable {e : ε} {x : Except ε α} {post : α → Prop} {post' : β → Prop}

theorem ok {a : α} (h : post a) : OnlyFails e (.ok a) post := .inr ⟨a, rfl, h⟩

theorem imp {post' : α → Prop} (h : OnlyFails e x post) (himp : ∀ a, post a → post' a) :
    OnlyFails e x post' := by
  rcases h with rfl | ⟨a, rfl, ha⟩
  · exact .inl rfl
  · exact .ok (himp a ha)

theorem bind {f : α → Except ε β} (h : OnlyFails e x post)
    (hf : ∀ a, x = .ok a → post a → OnlyFails e (f a) post') : OnlyFails e (x >>= f) post' := by
  rcases h with rfl | ⟨a, rfl, ha⟩
  · exact .inl rfl
  · exact hf a rfl ha

theorem map {f : α → β} (h : OnlyFails e x fun a => post' (f a)) :
    OnlyFails e (f <$> x) post' := by
  rcases h with rfl | ⟨a, rfl, ha⟩
  · exact .inl rfl
  · exact .inr ⟨f a, rfl, ha⟩

end OnlyFails

section Follows

variable {δ α' β' : Type}

-- `y` does what `x` does and fails as it does; it has no failure of its own.
def Follows (x : Except ε α) (y : Except (ε ⊕ δ) α') (post : α → α' → Prop) : Prop :=
  match x with
  | .error e => y = .error (.inl e)
  | .ok a => ∃ a', y = .ok a' ∧ post a a'

namespace Follows

variable {x : Except ε α} {y : Except (ε ⊕ δ) α'} {post : α → α' → Prop}

theorem ok {a : α} {a' : α'} (h : post a a') :
    Follows (.ok a : Except ε α) (.ok a' : Except (ε ⊕ δ) α') post :=
  ⟨a', rfl, h⟩

theorem lift (x : Except ε α) :
    Follows x (x.mapError .inl : Except (ε ⊕ δ) α) fun a a' => x = .ok a ∧ a' = a := by
  cases x with
  | error e => exact rfl
  | ok a => exact ⟨a, rfl, rfl, rfl⟩

-- What is related to a result is related to the result of `x`.
theorem self (h : Follows x y post) : Follows x y fun a a' => x = .ok a ∧ post a a' := by
  cases x with
  | error e => exact h
  | ok a =>
      obtain ⟨a', hy, hpost⟩ := h
      exact ⟨a', hy, rfl, hpost⟩

theorem bind {post' : β → β' → Prop} {f : α → Except ε β} {g : α' → Except (ε ⊕ δ) β'}
    (h : Follows x y post) (hnext : ∀ a a', post a a' → Follows (f a) (g a') post') :
    Follows (x >>= f) (y >>= g) post' := by
  cases x with
  | error e =>
      have hy : y = .error (.inl e) := h
      rw [hy]
      exact rfl
  | ok a =>
      obtain ⟨a', rfl, hpost⟩ := h
      exact hnext a a' hpost

-- A computation that `x` and `y` share.
theorem bind_lift {post' : β → β' → Prop} {f : α → Except ε β} {g : α → Except (ε ⊕ δ) β'}
    (hnext : ∀ a, x = .ok a → Follows (f a) (g a) post') :
    Follows (x >>= f) (x.mapError .inl >>= g) post' :=
  (lift x).bind fun a _ h => h.2 ▸ hnext a h.1

-- What `y` does on top of it succeeds.
theorem after {post' : α → β' → Prop} {g : α' → Except (ε ⊕ δ) β'} (h : Follows x y post)
    (hafter : ∀ a a', post a a' → ∃ b', g a' = .ok b' ∧ post' a b') : Follows x (y >>= g) post' := by
  cases x with
  | error e =>
      have hy : y = .error (.inl e) := h
      rw [hy]
      exact rfl
  | ok a =>
      obtain ⟨a', rfl, hpost⟩ := h
      exact hafter a a' hpost

end Follows

end Follows

-- A run of steps keeps an invariant that may speak of the steps already done.
-- Every step succeeds from a state that satisfies it.
theorem foldlM_history (step : σ → α → Except ε σ) (inv : List α → σ → Prop) (l : List α)
    (hstep : ∀ done s, inv done s → ∀ a ∈ l, ∃ s', step s a = .ok s' ∧ inv (done ++ [a]) s')
    (done : List α) (s : σ) (hs : inv done s) :
    ∃ s', l.foldlM step s = .ok s' ∧ inv (done ++ l) s' := by
  induction l generalizing done s with
  | nil => exact ⟨s, rfl, by simpa using hs⟩
  | cons a l ih =>
      obtain ⟨s₁, h₁, hi₁⟩ := hstep done s hs a (by simp)
      obtain ⟨s₂, h₂, hi₂⟩ := ih (fun d t ht b hb => hstep d t ht b (List.mem_cons_of_mem _ hb))
        (done ++ [a]) s₁ hi₁
      exact ⟨s₂, by simpa [h₁] using h₂, by simpa using hi₂⟩

-- A run follows the run of a specification that allows each of its steps.
theorem foldlM_refines {τ : Type} (step : σ → α → Except ε σ) (spec : τ → α → Option τ)
    (rel : σ → τ → Prop) (l : List α)
    (hstep : ∀ s t, rel s t → ∀ a ∈ l, ∀ t', spec t a = some t' →
      ∃ s', step s a = .ok s' ∧ rel s' t')
    {s : σ} {t t' : τ} (hs : rel s t) (ht : l.foldlM spec t = some t') :
    ∃ s', l.foldlM step s = .ok s' ∧ rel s' t' := by
  induction l generalizing s t with
  | nil =>
      obtain rfl := Option.some.inj ht
      exact ⟨s, rfl, hs⟩
  | cons a l ih =>
      obtain ⟨t₁, h₁, ht⟩ := Option.bind_eq_some_iff.mp ht
      obtain ⟨s₁, hs₁, hrel⟩ := hstep s t hs a (by simp) t₁ h₁
      obtain ⟨s', hs', hrel'⟩ :=
        ih (fun s t h b hb => hstep s t h b (List.mem_cons_of_mem _ hb)) hrel ht
      exact ⟨s', by simpa [hs₁] using hs', hrel'⟩

-- A loop `for (i = 0; i < n; i++)` keeps an invariant indexed by its counter.
theorem foldlM_range (step : σ → Nat → Except ε σ) (inv : Nat → σ → Prop) (n : Nat)
    (hstep : ∀ i < n, ∀ s, inv i s → ∃ s', step s i = .ok s' ∧ inv (i + 1) s')
    (s : σ) (hs : inv 0 s) : ∃ s', (List.range n).foldlM step s = .ok s' ∧ inv n s' := by
  induction n with
  | zero => exact ⟨s, rfl, hs⟩
  | succ n ih =>
      obtain ⟨s₁, h₁, hi₁⟩ := ih fun i hi => hstep i (by omega)
      obtain ⟨s₂, h₂, hi₂⟩ := hstep n (by omega) s₁ hi₁
      refine ⟨s₂, ?_, hi₂⟩
      rw [List.range_succ, List.foldlM_append, h₁]
      simp [h₂]

end Lib.Run

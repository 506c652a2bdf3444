import Mathlib.Data.List.Basic

namespace Lib.Batches

-- Items are taken one by one: the batches so far, and the items that are in none yet.
structure Batched (α : Type) where
  closed : List (List α)
  rest : List α
  deriving Repr

namespace Batched

variable {α : Type} {Low High : List α → Prop} [DecidablePred High] {cuts : Nat} {b : Batched α}

def empty : Batched α := ⟨[], []⟩

-- What is in no batch becomes one, unless it is nothing.
def cut (b : Batched α) : Batched α :=
  if b.rest.isEmpty then b else ⟨b.closed ++ [b.rest], []⟩

-- A batch ends with the item that makes it full.
def push (full : List α → Bool) (b : Batched α) (a : α) : Batched α :=
  if full (b.rest ++ [a]) then ⟨b.closed ++ [b.rest ++ [a]], []⟩ else ⟨b.closed, b.rest ++ [a]⟩

theorem cut_of_nil (h : b.rest = []) : b.cut = b := by
  rw [cut, h]
  rfl

theorem cut_of_ne (h : b.rest ≠ []) : b.cut = ⟨b.closed ++ [b.rest], []⟩ := by
  rw [cut, if_neg (by simpa using h)]

-- A batch is one that the items of its last push filled, or one that was cut.
theorem push_eq_cut (full : List α → Bool) (a : α) : b.push full a =
    if full (b.rest ++ [a]) then cut ⟨b.closed, b.rest ++ [a]⟩ else ⟨b.closed, b.rest ++ [a]⟩ := by
  rw [push, cut_of_ne (by simp)]

-- A batch is low before its last item. Those that are not high were cut short, and there
-- are no more of them than cuts.
structure Graded (Low High : List α → Prop) [DecidablePred High] (cuts : Nat)
    (b : Batched α) : Prop where
  nonempty : ∀ x ∈ b.closed, x ≠ []
  low : ∀ x ∈ b.closed, x.dropLast = [] ∨ Low x.dropLast
  before_low : b.rest.dropLast = [] ∨ Low b.rest.dropLast
  rest_low : b.rest = [] ∨ Low b.rest
  few : b.closed.countP (fun x => ¬ High x) ≤ cuts

namespace Graded

theorem empty : Graded Low High 0 (empty : Batched α) :=
  ⟨by simp [Batched.empty], by simp [Batched.empty], .inl rfl, .inl rfl, by simp [Batched.empty]⟩

-- A batch that is closed counts as cut short only when it is not high.
theorem close {x : List α} (h : Graded Low High cuts b) (hne : x ≠ [])
    (hlow : x.dropLast = [] ∨ Low x.dropLast) :
    Graded Low High (cuts + if High x then 0 else 1) ⟨b.closed ++ [x], []⟩ where
  nonempty := by
    intro y hy
    rcases List.mem_append.mp hy with hy | hy
    · exact h.nonempty y hy
    · rwa [List.mem_singleton.mp hy]
  low := by
    intro y hy
    rcases List.mem_append.mp hy with hy | hy
    · exact h.low y hy
    · rwa [List.mem_singleton.mp hy]
  before_low := .inl rfl
  rest_low := .inl rfl
  few := by
    have hfew := h.few
    rw [List.countP_append, List.countP_singleton]
    by_cases hx : High x
    · simpa only [hx, not_true_eq_false, decide_false, Bool.false_eq_true, if_false, if_true,
        Nat.add_zero] using hfew
    · simp only [hx, not_false_eq_true, decide_true, if_true, if_false]
      omega

theorem mono {more : Nat} (h : Graded Low High cuts b) (hle : cuts ≤ more) :
    Graded Low High more b :=
  ⟨h.nonempty, h.low, h.before_low, h.rest_low, Nat.le_trans h.few hle⟩

theorem cut (h : Graded Low High cuts b) : Graded Low High (cuts + 1) b.cut := by
  by_cases hrest : b.rest = []
  · rw [cut_of_nil hrest]
    exact h.mono (Nat.le_succ cuts)
  · rw [cut_of_ne hrest]
    apply (h.close hrest h.before_low).mono
    split <;> omega

theorem push (h : Graded Low High cuts b) {full : List α → Bool}
    (hfull : ∀ x, full x = true → High x) (hnot : ∀ x, full x = false → Low x) (a : α) :
    Graded Low High cuts (b.push full a) := by
  have hlast : (b.rest ++ [a]).dropLast = [] ∨ Low (b.rest ++ [a]).dropLast := by
    rw [List.dropLast_concat]
    exact h.rest_low
  unfold Batched.push
  cases hx : full (b.rest ++ [a]) with
  | true =>
      have hclosed := h.close (x := b.rest ++ [a]) (by simp) hlast
      rwa [if_pos (hfull _ hx)] at hclosed
  | false => exact ⟨h.nonempty, h.low, hlast, .inr (hnot _ hx), h.few⟩

end Graded

end Batched

end Lib.Batches

import Mathlib.Data.List.Nodup
import Mathlib.Data.List.Induction

namespace Lib.LinkedChain

variable {ι : Type}

-- `Chain link x l`: following the links from `x` visits the nodes of `l` in
-- order and then ends. `link x none` says that the link of `x` ends the chain.
def Chain (link : ι → Option ι → Prop) : ι → List ι → Prop
  | x, [] => link x none
  | x, y :: l => link x (some y) ∧ Chain link y l

theorem Chain.congr {link link' : ι → Option ι → Prop} {x : ι} {l : List ι}
    (h : Chain link x l) (hl : ∀ y ∈ x :: l, ∀ o, link y o → link' y o) : Chain link' x l := by
  induction l generalizing x with
  | nil => exact hl x (by simp) none h
  | cons y l ih =>
      exact ⟨hl x (by simp) _ h.1, ih h.2 (fun z hz => hl z (List.mem_cons_of_mem _ hz))⟩

-- A node inside a chain starts the rest of it.
theorem Chain.suffix {link : ι → Option ι → Prop} {x : ι} {l₁ l₂ : List ι}
    (h : Chain link x (l₁ ++ l₂)) : Chain link (l₁.getLastD x) l₂ := by
  induction l₁ generalizing x with
  | nil => exact h
  | cons y l ih => simpa only [List.getLastD_cons] using ih h.2

theorem Chain.head {link : ι → Option ι → Prop} {x : ι} {l : List ι}
    (h : Chain link x l) : link x l.head? := by
  cases l with
  | nil => exact h
  | cons y l => exact h.1

-- Linking a fresh node behind the last node of `l₁` splices it into the chain.
theorem Chain.splice {link link' : ι → Option ι → Prop} {x new : ι} {l₁ l₂ : List ι}
    (h : Chain link x (l₁ ++ l₂)) (hnodup : (x :: (l₁ ++ l₂)).Nodup)
    (hnew : ∀ o, link (l₁.getLastD x) o → link' new o)
    (hlast : link' (l₁.getLastD x) (some new))
    (hother : ∀ y ∈ x :: (l₁ ++ l₂), y ≠ l₁.getLastD x → ∀ o, link y o → link' y o) :
    Chain link' x (l₁ ++ new :: l₂) := by
  induction l₁ generalizing x with
  | nil =>
      refine ⟨hlast, ?_⟩
      cases l₂ with
      | nil => exact hnew _ h
      | cons y l =>
          refine ⟨hnew _ h.1, h.2.congr fun z hz o ho => ?_⟩
          refine hother z (List.mem_cons_of_mem _ hz) ?_ o ho
          rintro rfl
          exact (List.nodup_cons.mp hnodup).1 hz
  | cons y l ih =>
      simp only [List.getLastD_cons] at hnew hlast hother
      obtain ⟨hx, hnodup⟩ := List.nodup_cons.mp hnodup
      have hne : x ≠ l.getLastD y := by
        intro he
        have hm : l.getLastD y ∈ y :: l := List.getLastD_mem_cons
        rw [← he] at hm
        exact hx (by simpa only [List.cons_append] using List.mem_append_left l₂ hm)
      refine ⟨hother x (by simp) hne _ h.1, ih h.2 hnodup hnew hlast fun z hz => ?_⟩
      exact hother z (List.mem_cons_of_mem _ hz)

-- A node of the chain, with the nodes up to it and the nodes behind it.
theorem Chain.next_of_mem {link : ι → Option ι → Prop} {head x : ι} {l : List ι}
    (h : Chain link head l) (hx : x ∈ head :: l) :
    ∃ l₁ l₂, l = l₁ ++ l₂ ∧ l₁.getLastD head = x ∧ link x l₂.head? := by
  rcases List.mem_cons.mp hx with rfl | hx
  · exact ⟨[], l, rfl, rfl, h.head⟩
  · obtain ⟨as, bs, rfl⟩ := List.append_of_mem hx
    rw [List.append_cons] at h
    have hlast : (as ++ [x]).getLastD head = x := List.getLastD_concat
    have hlink := h.suffix.head
    rw [hlast] at hlink
    exact ⟨as ++ [x], bs, List.append_cons as x bs, hlast, hlink⟩

-- `x` is the head or lies in `order`, with `n` nodes or more up to it.
def Reaches (head : ι) (order : List ι) (x : ι) (n : Nat) : Prop :=
  ∃ passed ahead, order = passed ++ ahead ∧ passed.getLastD head = x ∧ n ≤ passed.length

namespace Reaches

variable {head x y : ι} {order order' : List ι} {n : Nat}

theorem head_zero (head : ι) (order : List ι) : Reaches head order head 0 :=
  ⟨[], order, rfl, rfl, Nat.le_refl 0⟩

theorem weaken {m : Nat} (h : Reaches head order x n) (hle : m ≤ n) : Reaches head order x m := by
  obtain ⟨passed, ahead, horder, hlast, hn⟩ := h
  exact ⟨passed, ahead, horder, hlast, Nat.le_trans hle hn⟩

theorem le_length (h : Reaches head order x n) : n ≤ order.length := by
  obtain ⟨passed, ahead, rfl, -, hn⟩ := h
  rw [List.length_append]
  omega

-- More nodes come up to it when the order grows.
theorem mono (h : Reaches head order x n) (hsub : order.Sublist order') :
    Reaches head order' x n := by
  obtain ⟨passed, ahead, rfl, hlast, hn⟩ := h
  induction passed using List.reverseRecOn with
  | nil => exact ⟨[], order', rfl, hlast, hn⟩
  | append_singleton passed z _ =>
      obtain rfl : z = x := by
        rw [← hlast]
        exact List.getLastD_concat.symm
      rw [List.append_assoc] at hsub
      obtain ⟨r₁, r₂, rfl, hpassed, hrest⟩ := List.append_sublist_iff.mp hsub
      obtain ⟨r₃, r₄, rfl, hz, -⟩ := List.cons_sublist_iff.mp hrest
      obtain ⟨as, bs, rfl⟩ := List.append_of_mem hz
      refine ⟨r₁ ++ as ++ [z], bs ++ r₄, by simp, List.getLastD_concat, ?_⟩
      have hle := hpassed.length_le
      simp only [List.length_append, List.length_singleton] at hn ⊢
      omega

-- One node more comes up to a later one.
theorem later (h : Reaches head order x n) (hnodup : (head :: order).Nodup)
    (hlater : [x, y].Sublist (head :: order)) : Reaches head order y (n + 1) := by
  obtain ⟨passed, ahead, rfl, hlast, hn⟩ := h
  obtain ⟨as, has⟩ : ∃ as, head :: passed = as ++ [x] := by
    rw [← hlast]
    induction passed using List.reverseRecOn with
    | nil => exact ⟨[], rfl⟩
    | append_singleton passed z _ => exact ⟨head :: passed, by simp⟩
  have hwhole : head :: (passed ++ ahead) = as ++ x :: ahead := by
    rw [← List.cons_append, has, List.append_assoc, List.singleton_append]
  rw [hwhole] at hnodup hlater
  obtain ⟨r₁, r₂, hsplit, hx, hy⟩ := List.cons_sublist_iff.mp hlater
  obtain ⟨bs, cs, rfl⟩ := List.append_of_mem hx
  rw [List.append_assoc, List.cons_append] at hsplit
  -- there is one place only where `x` stands
  have hother := (List.nodup_cons.mp (List.nodup_middle.mp hnodup)).1
  rw [List.mem_append, not_or] at hother
  obtain ⟨-, -, hahead⟩ := (List.append_cons_inj_of_notMem hother.1 hother.2).mp hsplit
  have hmem : y ∈ ahead := by
    rw [hahead]
    exact List.mem_append_right cs (List.singleton_sublist.mp hy)
  obtain ⟨ds, es, rfl⟩ := List.append_of_mem hmem
  refine ⟨passed ++ ds ++ [y], es, by simp, List.getLastD_concat, ?_⟩
  simp only [List.length_append, List.length_singleton]
  omega

end Reaches

-- Chains of links over one order, level by level, each visiting some of the nodes that
-- the level below it visits.
structure Lanes (link : Nat → ι → Option ι → Prop) (head : ι) (top : Nat) (order : List ι)
    (lane : Nat → List ι) : Prop where
  nodup : (head :: order).Nodup
  bottom : lane 0 = order
  nested : ∀ level, (lane (level + 1)).Sublist (lane level)
  chain : ∀ level < top, Chain (link level) head (lane level)

namespace Lanes

variable {link : Nat → ι → Option ι → Prop} {head x : ι} {top level n : Nat} {order : List ι}
  {lane : Nat → List ι}

theorem sublist (h : Lanes link head top order lane) (level : Nat) :
    (lane level).Sublist order := by
  induction level with
  | zero => rw [h.bottom]
  | succ level ih => exact (h.nested level).trans ih

-- A link leads to a later node of its level, or ends the level.
theorem next (h : Lanes link head top order lane) (hlevel : level < top)
    (hx : x ∈ head :: lane level) (hreaches : Reaches head order x n) :
    ∃ o, link level x o ∧ ∀ y ∈ o, y ∈ lane level ∧ Reaches head order y (n + 1) := by
  obtain ⟨passed, ahead, hlane, hlast, hlink⟩ := (h.chain level hlevel).next_of_mem hx
  refine ⟨ahead.head?, hlink, fun y hy => ?_⟩
  obtain ⟨rest, rfl⟩ := List.head?_eq_some_iff.mp hy
  refine ⟨by simp [hlane], hreaches.later h.nodup ?_⟩
  have hstep : [x, y].Sublist (head :: lane level) := by
    rw [hlane, ← hlast]
    induction passed using List.reverseRecOn with
    | nil => simp
    | append_singleton passed z _ =>
        rw [List.getLastD_concat, List.append_assoc]
        exact ((by simp : [z, y].Sublist ([z] ++ y :: rest)).trans
          (List.sublist_append_right passed _)).cons head
  exact hstep.trans ((h.sublist level).cons_cons head)

end Lanes

-- A list cut behind the last element that passes a downward closed test.
theorem filter_cut {p : ι → Bool} {passed ahead : List ι}
    (hdown : (passed ++ ahead).Pairwise fun a b => p b = true → p a = true)
    (hlast : ∀ a ∈ passed.getLast?, p a = true) (hhead : ∀ a ∈ ahead.head?, p a = false) :
    (passed ++ ahead).filter p = passed ∧ ((passed ++ ahead).filter fun a => !p a) = ahead := by
  obtain ⟨hpassed, hahead, -⟩ := List.pairwise_append.mp hdown
  have hyes : ∀ a ∈ passed, p a = true := by
    induction passed using List.reverseRecOn with
    | nil => simp
    | append_singleton passed z _ =>
        have hz : p z = true := hlast z (by simp)
        intro a ha
        rcases List.mem_append.mp ha with ha | ha
        · exact (List.pairwise_append.mp hpassed).2.2 a ha z (List.mem_singleton_self z) hz
        · rwa [List.mem_singleton.mp ha]
  have hno : ∀ a ∈ ahead, p a = false := by
    cases ahead with
    | nil => simp
    | cons z ahead =>
        have hz : p z = false := hhead z rfl
        intro a ha
        rcases List.mem_cons.mp ha with rfl | ha
        · exact hz
        · rw [Bool.eq_false_iff]
          intro hpa
          have hpz := List.rel_of_pairwise_cons hahead ha hpa
          rw [hz] at hpz
          cases hpz
  constructor
  · rw [List.filter_append, List.filter_eq_self.mpr hyes, List.filter_eq_nil_iff.mpr,
      List.append_nil]
    intro a ha
    simp [hno a ha]
  · rw [List.filter_append, List.filter_eq_nil_iff.mpr, List.nil_append, List.filter_eq_self.mpr]
    · intro a ha
      simp [hno a ha]
    · intro a ha
      simp [hyes a ha]

-- A list with one more element, cut where another list with the same ends is cut. The
-- element comes to lie in front of the cut or behind the first element there.
theorem insert_beside (new : ι) (front back passed ahead : List ι)
    (h : front ++ back = passed ++ ahead) (hnew : new ∉ ahead) :
    ∃ passed' ahead', front ++ new :: back = passed' ++ ahead' ∧ passed.Sublist passed' ∧
      ahead'.take 1 = ahead.take 1 ∧
      ∀ x, x ∈ ahead'.tail ↔ x ∈ ahead.tail ∨ x = new ∧ new ∈ ahead' := by
  rcases List.append_eq_append_iff.mp h with ⟨between, rfl, rfl⟩ | ⟨between, rfl, rfl⟩
  · -- the element lies among what has been passed
    refine ⟨front ++ new :: between, ahead, by simp, ?_, rfl, ?_⟩
    · exact (List.Sublist.refl front).append (List.sublist_cons_self new between)
    · intro x
      simp [hnew]
  · cases between with
    | nil =>
        refine ⟨passed ++ [new], back, by simp, List.sublist_append_left _ _, by simp, ?_⟩
        intro x
        have hback : new ∉ back := by simpa using hnew
        simp [hback]
    | cons y between =>
        refine ⟨passed, y :: (between ++ new :: back), by simp, List.Sublist.refl _, rfl, ?_⟩
        intro x
        simp only [List.tail_cons, List.cons_append, List.mem_append, List.mem_cons, true_or,
          or_true, and_true]
        exact or_left_comm.trans or_comm

end Lib.LinkedChain

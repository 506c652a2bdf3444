import Mylldb.SkipList
import Mylldb.Lib.LinkedChain
import Mylldb.Lib.ThreeWay
import Mathlib.Data.List.Induction

namespace Mylldb.SkipList

open Lib.LinkedChain Lib.Run Lib.ThreeWay

variable {Key : Type}

def height (l : SkipList Key) (x : Nat) : Nat := (l.nodes[x]?.map (·.next.length)).getD 0

def keyOf [Inhabited Key] (l : SkipList Key) (x : Nat) : Key :=
  (l.nodes[x]?.map (·.key)).getD default

def link (l : SkipList Key) (level x : Nat) (o : Option Nat) : Prop :=
  l.next (some x) level = .ok o

-- The nodes of `xs` that have a link on `level`.
def tower (l : SkipList Key) (level : Nat) (xs : List Nat) : List Nat :=
  xs.filter fun x => decide (level < l.height x)

theorem link_unique (l : SkipList Key) (level x : Nat) (o o' : Option Nat)
    (h : l.link level x o) (h' : l.link level x o') : o = o' :=
  Except.ok.inj (h.symm.trans h')

theorem tower_append (l : SkipList Key) (level : Nat) (xs ys : List Nat) :
    l.tower level (xs ++ ys) = l.tower level xs ++ l.tower level ys :=
  List.filter_append xs ys

theorem tower_zero (l : SkipList Key) (xs : List Nat) (hxs : ∀ x ∈ xs, 1 ≤ l.height x) :
    l.tower 0 xs = xs :=
  List.filter_eq_self.mpr fun x hx => decide_eq_true (hxs x hx)

-- A nonempty tower splits its list at its first node.
theorem tower_cons_split (l : SkipList Key) (level : Nat) (xs : List Nat) (y : Nat)
    (ys : List Nat) (h : l.tower level xs = y :: ys) :
    ∃ as bs, xs = as ++ y :: bs ∧ l.tower level as = [] ∧ l.tower level bs = ys ∧
      level < l.height y := by
  obtain ⟨as, bs, rfl, has, hy, hbs⟩ := List.filter_eq_cons_iff.mp h
  refine ⟨as, bs, rfl, ?_, hbs, by simpa using hy⟩
  exact List.filter_eq_nil_iff.mpr has

-- If the last node of a list has a link on `level` it also ends the tower.
theorem tower_getLastD (l : SkipList Key) (level : Nat) (xs : List Nat)
    (hlast : ∀ y ∈ xs.getLast?, level < l.height y) :
    (l.tower level xs).getLastD 0 = xs.getLastD 0 := by
  induction xs using List.reverseRecOn with
  | nil => rfl
  | append_singleton xs y _ =>
      have hy : level < l.height y := hlast y (by simp)
      simp [tower, hy]

-- What the searches leave in `prev`: the last node before the cut on each level
-- from 0 to `level`, and the old contents above.
def WrittenPrev (l : SkipList Key) (before : List Nat) (level : Nat) :
    Option (List Slot) → Option (List Slot) → Prop
  | none, none => True
  | some slots, some slots' =>
      slots'.length = slots.length ∧
      (∀ i ≤ level, slots'[i]? = some (.node ((l.tower i before).getLastD 0))) ∧
      ∀ i, level < i → slots'[i]? = slots[i]?
  | _, _ => False

theorem recordPrev_eq (prev : Option (List Slot)) (level x : Nat)
    (hprev : ∀ slots ∈ prev, level < slots.length) :
    recordPrev prev level (some x) = .ok (prev.map (·.set level (.node x))) := by
  cases prev with
  | none => rfl
  | some slots => simp [recordPrev, writeSlot, hprev slots rfl, Slot.ofPointer]

theorem WrittenPrev.zero (l : SkipList Key) (before : List Nat) (x : Nat)
    (prev : Option (List Slot)) (hprev : ∀ slots ∈ prev, 0 < slots.length)
    (hx : (l.tower 0 before).getLastD 0 = x) :
    l.WrittenPrev before 0 prev (prev.map (·.set 0 (.node x))) := by
  cases prev with
  | none => trivial
  | some slots =>
      refine ⟨List.length_set, fun i hi => ?_, fun i hi => List.getElem?_set_ne (by omega)⟩
      obtain rfl : i = 0 := by omega
      rw [hx, List.getElem?_set_self (hprev slots rfl)]

theorem WrittenPrev.succ (l : SkipList Key) (before : List Nat) (level x : Nat)
    (prev prev' : Option (List Slot)) (hprev : ∀ slots ∈ prev, level + 1 < slots.length)
    (hx : (l.tower (level + 1) before).getLastD 0 = x)
    (h : l.WrittenPrev before level (prev.map (·.set (level + 1) (.node x))) prev') :
    l.WrittenPrev before (level + 1) prev prev' := by
  cases prev with
  | none => cases prev' <;> exact h
  | some slots =>
      cases prev' with
      | none => exact h
      | some slots' =>
          obtain ⟨hlen, hat, hother⟩ := h
          refine ⟨by simpa using hlen, fun i hi => ?_, fun i hi => ?_⟩
          · by_cases he : i ≤ level
            · exact hat i he
            · obtain rfl : i = level + 1 := by omega
              rw [hother _ (by omega), hx, List.getElem?_set_self (hprev slots rfl)]
          · rw [hother i (by omega), List.getElem?_set_ne (by omega)]

-- The cut between the nodes the search passes and the nodes it stops at.
structure Cut (l : SkipList Key) (advance : Option Nat → Exec Bool)
    (before after : List Nat) : Prop where
  chain : ∀ level < kMaxHeight, Chain (l.link level) 0 (l.tower level (before ++ after))
  pos : ∀ x ∈ before ++ after, 1 ≤ l.height x
  pass : ∀ x ∈ before, advance (some x) = .ok true
  stop : ∀ x ∈ after, advance (some x) = .ok false
  stop_null : advance none = .ok false

-- The search on `level` sees the next node of that tower, before or behind the cut.
theorem Cut.next_eq {l : SkipList Key} {advance : Option Nat → Exec Bool}
    {before after : List Nat} (hcut : Cut l advance before after) (level : Nat)
    (passed rest : List Nat) (hsplit : before = passed ++ rest)
    (hlast : ∀ y ∈ passed.getLast?, level < l.height y) (hlevel : level < kMaxHeight) :
    l.next (some (passed.getLastD 0)) level = .ok (l.tower level (rest ++ after)).head? := by
  have hchain := hcut.chain level hlevel
  rw [hsplit, List.append_assoc, tower_append] at hchain
  have hlink := hchain.suffix.head
  rwa [tower_getLastD l level passed hlast] at hlink

theorem Cut.stop_head {l : SkipList Key} {advance : Option Nat → Exec Bool}
    {before after : List Nat} (hcut : Cut l advance before after) (level : Nat) :
    advance ((l.tower level after).head?) = .ok false := by
  cases hhead : (l.tower level after).head? with
  | none => exact hcut.stop_null
  | some y =>
      have hy : y ∈ l.tower level after := List.mem_of_head? hhead
      exact hcut.stop y (List.mem_of_mem_filter hy)

-- The search stands on the last node of `passed`. Each turn of the loop either
-- shortens `rest` or goes down one level, which bounds the turns by the fuel.
theorem descend_spec (l : SkipList Key) (advance : Option Nat → Exec Bool)
    (before after : List Nat) (hcut : Cut l advance before after)
    (fuel level : Nat) (passed rest : List Nat) (prev : Option (List Slot))
    (hsplit : before = passed ++ rest) (hlast : ∀ y ∈ passed.getLast?, level < l.height y)
    (hlevel : level < kMaxHeight) (hfuel : rest.length + level + 1 ≤ fuel)
    (hprev : ∀ slots ∈ prev, level < slots.length) :
    ∃ prev', l.descend advance fuel (some (passed.getLastD 0)) level prev =
        .ok (some (before.getLastD 0), after.head?, prev') ∧
      WrittenPrev l before level prev prev' := by
  induction fuel generalizing level passed rest prev with
  | zero => omega
  | succ fuel ih =>
      have hnext := hcut.next_eq level passed rest hsplit hlast hlevel
      simp only [descend, hnext, ok_bind]
      rw [tower_append]
      cases htower : l.tower level rest with
      | cons y ys =>
          -- the next node on this level lies before the cut
          obtain ⟨as, bs, rfl, _, _, hy⟩ := tower_cons_split l level rest y ys htower
          have hmem : y ∈ before := by simp [hsplit]
          have hright := ih level (passed ++ as ++ [y]) bs prev (by simp [hsplit])
            (by simpa using hy) hlevel (by simp at hfuel; omega) hprev
          simpa [hcut.pass y hmem] using hright
      | nil =>
          -- the next node on this level lies behind the cut, or there is none
          have hpred : (l.tower level before).getLastD 0 = passed.getLastD 0 := by
            rw [hsplit, tower_append, htower, List.append_nil, tower_getLastD l level passed hlast]
          simp only [List.nil_append, hcut.stop_head level, ok_bind, Bool.false_eq_true, ite_false,
            recordPrev_eq prev level _ hprev]
          cases level with
          | zero =>
              have hbefore := tower_zero l before fun x hx => hcut.pos x (by simp [hx])
              have hafter := tower_zero l after fun x hx => hcut.pos x (by simp [hx])
              refine ⟨_, ?_, WrittenPrev.zero l before _ prev hprev hpred⟩
              rw [← hpred, hbefore, hafter]
              rfl
          | succ level =>
              obtain ⟨prev', hrun, hwritten⟩ := ih level passed rest
                (prev.map (·.set (level + 1) (.node (passed.getLastD 0)))) hsplit
                (fun y hy => Nat.lt_of_succ_lt (hlast y hy)) (by omega) (by omega) (by
                  simp only [Option.mem_def, Option.map_eq_some_iff]
                  rintro _ ⟨slots, rfl, rfl⟩
                  have := hprev slots rfl
                  simp only [List.length_set]
                  omega)
              exact ⟨prev', by simpa using hrun,
                WrittenPrev.succ l before level _ prev prev' hprev hpred hwritten⟩

end Mylldb.SkipList

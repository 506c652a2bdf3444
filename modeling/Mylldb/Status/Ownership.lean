import Mylldb.Status.Values

namespace Mylldb.Status.State

open Lib.Ownership Lib.Run

variable {program : Program} {vals vals' : Values} {x y : Nat} {s : Pointer}
  {v : Value}

-- The messages of an act can be counted.
def Act.Fits : Act → Prop
  | .failure _ _ msg msg2 => State.Fits (joined msg msg2)
  | _ => True

namespace Holds

theorem start : Holds .start fun _ => none :=
  ⟨fun _ => .none, Owned.empty.congr fun x p => by simp [mem_owns, Program.start]⟩

theorem var_some (h : Holds program vals) (hx : vals x = some v) :
    ∃ s, program.vars x = some s ∧ Says program.memory v s := by
  have hrel := h.values x
  rw [hx] at hrel
  cases hvar : program.vars x with
  | none => rw [hvar] at hrel; cases hrel
  | some s =>
      rw [hvar] at hrel
      cases hrel with
      | some hvalue => exact ⟨s, rfl, hvalue⟩

theorem var_none (h : Holds program vals) (hx : vals x = none) : program.vars x = none := by
  have hrel := h.values x
  rw [hx] at hrel
  cases hvar : program.vars x with
  | none => rfl
  | some s => rw [hvar] at hrel; cases hrel

-- What the other variables say is not touched.
theorem update {memory : Memory} (h : Holds program vals) (o : Option Value) (o' : Option Pointer)
    (hx : Option.Rel (Says memory) o o')
    (hkept : ∀ y ≠ x, ∀ p, program.vars y = some (some p) → memory.find p = program.memory.find p)
    (howned : Owned memory (owns (Function.update program.vars x o'))) :
    Holds ⟨memory, Function.update program.vars x o'⟩ (Function.update vals x o) := by
  refine ⟨fun y => ?_, howned⟩
  by_cases hyx : y = x
  · rw [hyx]
    simpa using hx
  · simp only [Function.update_of_ne hyx]
    have hrel := h.values y
    cases hv : vals y with
    | none =>
        rw [h.var_none hv]
        exact .none
    | some v =>
        obtain ⟨s, hs, hvalue⟩ := h.var_some hv
        rw [hs]
        refine .some ?_
        cases v with
        | none => exact hvalue
        | some report =>
            obtain ⟨hfits, p, rfl, hp⟩ := hvalue
            exact ⟨hfits, p, rfl, (hkept y hyx p hs).trans hp⟩

-- A variable without an array of its own becomes one that says that all is well.
theorem setNull (h : Holds program vals) (hx : ∀ p, program.vars x ≠ some (some p)) :
    Holds (program.set x (program.memory, none)) (Function.update vals x (some none)) := by
  refine h.update _ _ (.some rfl) (fun _ _ _ _ => rfl) (h.owned.congr fun y q => ?_)
  by_cases hyx : y = x
  · rw [hyx]
    simpa [mem_owns] using hx q
  · simp [mem_owns, hyx]

-- It gets a new array.
theorem setMade (h : Holds program vals) (hx : ∀ p, program.vars x ≠ some (some p)) {address : Nat}
    (hfresh : program.memory.find address = none) {code : Code} {message : Bytes}
    (hfits : State.Fits message) :
    Holds (program.set x (program.memory.made address ((layout code message).map some), some address))
      (Function.update vals x (some (some (code, message)))) := by
  refine h.update _ _ (.some ⟨hfits, address, rfl, Heap.find_made _ _ _⟩) (fun y _ p hp => ?_)
    (h.owned.made hfresh _ (i := x) fun y q => ?_)
  · obtain ⟨b, hb⟩ := h.owned.live y p hp
    exact Heap.find_made_ne _ _ (Heap.ne_of_find hb hfresh)
  · by_cases hyx : y = x
    · rw [hyx]
      simp [mem_owns, hx q, eq_comm]
    · simp [mem_owns, hyx]

-- It gives its array back.
theorem release (h : Holds program vals) (hx : program.vars x = some s) :
    ∃ memory, program.memory.release s = .ok memory ∧
      Holds ⟨memory, Function.update program.vars x none⟩ (Function.update vals x none) := by
  cases s with
  | none =>
      refine ⟨program.memory, rfl, h.update _ _ .none (fun _ _ _ _ => rfl) (h.owned.congr fun y q => ?_)⟩
      by_cases hyx : y = x
      · rw [hyx]
        simp [mem_owns, hx]
      · simp [mem_owns, hyx]
  | some p =>
      obtain ⟨b, hb⟩ := h.owned.live x p hx
      have hother (y : Nat) (q : Nat) (hy : program.vars y = some (some q)) (hyx : y ≠ x) : q ≠ p := by
        rintro rfl
        exact hyx (h.owned.once y x q hy hx)
      refine ⟨_, Heap.delete_eq hb, h.update _ _ .none (fun y hyx q hq => ?_)
        (h.owned.gone fun y q => ?_)⟩
      · exact Heap.find_gone_ne _ (hother y q hq hyx)
      · by_cases hyx : y = x
        · rw [hyx]
          simp [mem_owns, hx, eq_comm]
        · simp only [mem_owns, Function.update_of_ne hyx]
          exact ⟨fun hy => ⟨hy, hother y q hy hyx⟩, And.left⟩

theorem copy (place : Placement Buffer) (h : Holds program vals) (hx : ∀ p, program.vars x ≠ some (some p))
    (hy : vals y = some v) (hs : program.vars y = some s) :
    ∃ result, State.copy place program.memory s = .ok result ∧
      Holds (program.set x result) (Function.update vals x (some v)) := by
  obtain ⟨s', hs', hvalue⟩ := h.var_some hy
  obtain rfl := Option.some.inj (hs.symm.trans hs')
  cases v with
  | none =>
      obtain rfl := hvalue
      exact ⟨_, rfl, h.setNull hx⟩
  | some report =>
      obtain ⟨hfits, p, rfl, hp⟩ := hvalue
      obtain ⟨address, hfresh, hcopy⟩ := copyState_eq place hp hfits
      exact ⟨_, by rw [State.copy, hcopy, ok_bind]; rfl, h.setMade hx hfresh hfits⟩

theorem assign (place : Placement Buffer) (h : Holds program vals) {this : Pointer}
    (hthis : program.vars x = some this) (hy : vals y = some v) (hs : program.vars y = some s) :
    ∃ result, State.assign place program.memory this s = .ok result ∧
      Holds (program.set x result) (Function.update vals x (some v)) := by
  by_cases heq : this = s
  · -- one array has one variable; without an array, both say that all is well
    subst heq
    refine ⟨_, if_neg (not_not_intro rfl), ?_⟩
    have hvar : Function.update program.vars x (some this) = program.vars :=
      Function.update_eq_self_iff.mpr hthis.symm
    have hval : Function.update vals x (some v) = vals := by
      apply Function.update_eq_self_iff.mpr
      cases this with
      | some p => rw [h.owned.once x y p hthis hs, hy]
      | none =>
          obtain ⟨s', hs', hvalue⟩ := h.var_some hy
          obtain rfl := Option.some.inj (hs.symm.trans hs')
          have hnull : ∀ w, Says program.memory w none → w = none := by
            rintro (_ | ⟨code, message⟩) hw
            · rfl
            · obtain ⟨-, p, hp, -⟩ := hw
              cases hp
          cases hx : vals x with
          | none => rw [h.var_none hx] at hthis; cases hthis
          | some w =>
              obtain ⟨s', hs', hw⟩ := h.var_some hx
              obtain rfl := Option.some.inj (hthis.symm.trans hs')
              rw [hnull v hvalue, hnull w hw]
    rw [hval, Program.set, hvar]
    exact h
  · have hyx : y ≠ x := by
      rintro rfl
      exact heq (Option.some.inj (hthis.symm.trans hs))
    obtain ⟨memory, hrelease, hheld⟩ := h.release hthis
    obtain ⟨result, hcopy, hheld⟩ := hheld.copy place (x := x) (y := y) (v := v) (s := s)
      (by simp) (by rwa [Function.update_of_ne hyx]) (by dsimp only; rwa [Function.update_of_ne hyx])
    refine ⟨result, by rw [State.assign, if_pos heq, hrelease, ok_bind, hcopy], ?_⟩
    simpa [Program.set] using hheld

theorem act (place : Placement Buffer) (h : Holds program vals) (act : Act) (hfits : act.Fits)
    (hvals : valueAct vals act = some vals') :
    ∃ program', program.act place act = .ok program' ∧ Holds program' vals' := by
  have hnew {x : Nat} (hx : vals x = none) (p : Nat) : program.vars x ≠ some (some p) := by
    rw [h.var_none hx]
    exact nofun
  cases act with
  | success x =>
      simp only [valueAct] at hvals
      split at hvals
      · cases hvals
      · rename_i hx
        obtain rfl := Option.some.inj hvals
        exact ⟨_, by rw [Program.act, h.var_none hx]; rfl, h.setNull (hnew hx)⟩
  | failure x code msg msg2 =>
      simp only [valueAct] at hvals
      split at hvals
      · cases hvals
      · rename_i hx
        obtain rfl := Option.some.inj hvals
        obtain ⟨address, hfresh, hconstruct⟩ := construct_eq place code hfits
        exact ⟨_, by rw [Program.act, h.var_none hx]; dsimp only; rw [hconstruct]; rfl,
          h.setMade (hnew hx) hfresh hfits⟩
  | copied x y =>
      simp only [valueAct] at hvals
      split at hvals
      · rename_i v hx hy
        obtain rfl := Option.some.inj hvals
        obtain ⟨s, hs, -⟩ := h.var_some hy
        obtain ⟨result, hcopy, hheld⟩ := h.copy place (hnew hx) hy hs
        exact ⟨_, by rw [Program.act, h.var_none hx, hs]; dsimp only; rw [hcopy]; rfl, hheld⟩
      · cases hvals
  | assigned x y =>
      simp only [valueAct] at hvals
      split at hvals
      · rename_i w v hx hy
        obtain rfl := Option.some.inj hvals
        obtain ⟨this, hthis, -⟩ := h.var_some hx
        obtain ⟨s, hs, -⟩ := h.var_some hy
        obtain ⟨result, hassign, hheld⟩ := h.assign place hthis hy hs
        exact ⟨_, by rw [Program.act, hthis, hs]; dsimp only; rw [hassign]; rfl, hheld⟩
      · cases hvals
  | destroyed x =>
      simp only [valueAct] at hvals
      split at hvals
      · cases hvals
      · rename_i w hx
        obtain rfl := Option.some.inj hvals
        obtain ⟨this, hthis, -⟩ := h.var_some hx
        obtain ⟨memory, hrelease, hheld⟩ := h.release hthis
        exact ⟨_, by rw [Program.act, hthis]; dsimp only; rw [hrelease]; rfl, hheld⟩

end Holds

theorem run_refines (place : Placement Buffer) (acts : List Act) (hfits : ∀ act ∈ acts, act.Fits)
    {vals : Values} (hvals : acts.foldlM valueAct (fun _ => none) = some vals) :
    ∃ program, Program.run place acts = .ok program ∧
      (∀ x, program.vars x = none ↔ vals x = none) ∧
      (∀ x v, vals x = some v → ∃ s, program.vars x = some s ∧ (s = none ↔ v = none) ∧
        State.code program.memory s = .ok v.number ∧ toText program.memory s = .ok v.text) ∧
      Owned program.memory (owns program.vars) ∧
      ((∀ x, vals x = none) → program.memory.cells = ∅) := by
  obtain ⟨program, hrun, h⟩ := foldlM_refines (Program.act place) valueAct Holds acts
    (fun program vals h act hact vals' => h.act place act (hfits act hact)) Holds.start hvals
  refine ⟨program, hrun, fun x => ⟨fun hx => ?_, h.var_none⟩, fun x v hv => ?_, h.owned, fun hnone => ?_⟩
  · cases hv : vals x with
    | none => rfl
    | some v =>
        obtain ⟨s, hs, -⟩ := h.var_some hv
        rw [hs] at hx
        cases hx
  · obtain ⟨s, hs, hvalue⟩ := h.var_some hv
    refine ⟨s, hs, ?_, code_eq hvalue, toText_eq hvalue⟩
    cases v with
    | none => simpa [Says] using hvalue
    | some report =>
        obtain ⟨-, p, rfl, -⟩ := hvalue
        simp
  · apply h.owned.cells_eq_empty
    intro x
    rw [Set.eq_empty_iff_forall_notMem]
    intro p hp
    rw [mem_owns, h.var_none (hnone x)] at hp
    cases hp

-- A status that is copied, assigned to another one and to itself, and destroyed.
def sampleActs : List Act := [.failure 0 .kCorruption (chars "bad block") (chars "7"), .success 1,
  .copied 2 0, .assigned 1 2, .assigned 1 1, .destroyed 0, .destroyed 2]

theorem run_refines_sample : ∃ program s, Program.run (.above Buffer) sampleActs = .ok program ∧
    program.vars 0 = none ∧ program.vars 1 = some s ∧
    toText program.memory s = .ok (chars "Corruption: bad block: 7") := by
  obtain ⟨program, hrun, hscope, hvalues, -⟩ := run_refines (.above Buffer) sampleActs (by
    intro act hact
    simp only [sampleActs, List.mem_cons, List.not_mem_nil, or_false] at hact
    rcases hact with rfl | rfl | rfl | rfl | rfl | rfl | rfl
    · exact show State.Fits (joined (chars "bad block") (chars "7")) by decide
    all_goals trivial) rfl
  obtain ⟨s, hs, -, -, htext⟩ := hvalues 1 _ rfl
  exact ⟨program, s, hrun, (hscope 0).mpr rfl, hs, htext⟩

end Mylldb.Status.State

import Mylldb.Iterator

namespace Mylldb.Iterator

open Lib.Ownership Lib.Run

variable {φ : Type} {heap : Heap (Cleanup φ)} {program : Program φ} {x : Nat} {calls : List (Call φ)}

-- The order of the calls when an iterator goes away: the first one that was registered,
-- then the others, the last of them first.
def order : List (Call φ) → List (Call φ)
  | [] => []
  | call :: calls => call :: calls.reverse

-- What every iterator has registered, and the calls that were due so far.
structure Registered (φ : Type) where
  calls : Nat → Option (List (Call φ))
  due : List (Nat × Call φ)

namespace Registered

def start : Registered φ := ⟨fun _ => none, []⟩

def act (registered : Registered φ) : Act φ → Option (Registered φ)
  | .made x =>
      match registered.calls x with
      | some _ => none
      | none => some { registered with calls := Function.update registered.calls x (some []) }
  | .register x call =>
      match registered.calls x with
      | none => none
      | some calls =>
          some { registered with calls := Function.update registered.calls x (some (calls ++ [call])) }
  | .destroyed x =>
      match registered.calls x with
      | none => none
      | some calls => some ⟨Function.update registered.calls x none,
          registered.due ++ (order calls).map (x, ·)⟩

end Registered

-- The nodes behind a pointer, with the calls that they hold.
def Linked (heap : Heap (Cleanup φ)) : Option Nat → List (Nat × Call φ) → Prop
  | c, [] => c = none
  | c, (p, call) :: nodes => c = some p ∧
      ∃ next, heap.find p = some ⟨some call, next⟩ ∧ Linked heap next nodes

theorem Linked.congr {heap' : Heap (Cleanup φ)} {c : Option Nat} {nodes : List (Nat × Call φ)}
    (h : Linked heap c nodes) (hkept : ∀ p ∈ nodes.map Prod.fst, heap'.find p = heap.find p) :
    Linked heap' c nodes := by
  induction nodes generalizing c with
  | nil => exact h
  | cons node nodes ih =>
      obtain ⟨p, call⟩ := node
      obtain ⟨rfl, next, hp, hnext⟩ := h
      exact ⟨rfl, next, (hkept p (by simp)).trans hp, ih hnext fun q hq => hkept q (by simp_all)⟩

-- An iterator with its nodes has registered `calls`.
structure Carries (heap : Heap (Cleanup φ)) (calls : List (Call φ)) (cleanup : Cleanup φ)
    (nodes : List (Nat × Call φ)) : Prop where
  first : cleanup.call = calls.head?
  linked : Linked heap cleanup.next nodes
  nodup : (nodes.map Prod.fst).Nodup
  rest : nodes.map Prod.snd = calls.tail.reverse

theorem Linked.live {c : Option Nat} {nodes : List (Nat × Call φ)} (h : Linked heap c nodes) :
    ∀ p ∈ nodes.map Prod.fst, ∃ b, heap.find p = some b := by
  induction nodes generalizing c with
  | nil => exact nofun
  | cons node nodes ih =>
      obtain ⟨p, call⟩ := node
      obtain ⟨rfl, next, hp, hnext⟩ := h
      intro q hq
      rcases List.mem_cons.mp hq with rfl | hq
      · exact ⟨_, hp⟩
      · exact ih hnext q hq

-- The loop calls what the nodes hold and deletes them.
theorem destroyLoop_eq {c : Option Nat} {nodes : List (Nat × Call φ)} (h : Linked heap c nodes)
    (hnodup : (nodes.map Prod.fst).Nodup) (fuel : Nat) (hfuel : nodes.length ≤ fuel) :
    ∃ heap', destroyLoop fuel heap c = .ok (heap', nodes.map Prod.snd) ∧
      (∀ p ∈ nodes.map Prod.fst, heap'.find p = none) ∧
      ∀ p ∉ nodes.map Prod.fst, heap'.find p = heap.find p := by
  induction nodes generalizing heap c fuel with
  | nil =>
      obtain rfl := h
      exact ⟨heap, by cases fuel <;> rfl, nofun, fun _ _ => rfl⟩
  | cons node nodes ih =>
      obtain ⟨p, call⟩ := node
      obtain ⟨rfl, next, hp, hnext⟩ := h
      obtain ⟨hfirst, hnodup⟩ := List.nodup_cons.mp hnodup
      obtain ⟨fuel, rfl⟩ : ∃ n, fuel = n + 1 := ⟨fuel - 1, by simp at hfuel; omega⟩
      have hrest : Linked (heap.gone p) next nodes := hnext.congr fun q hq =>
        Heap.find_gone_ne heap fun hqp => hfirst (hqp ▸ hq)
      obtain ⟨heap', hloop, hgone, hkept⟩ := ih hrest hnodup fuel (by simpa using hfuel)
      refine ⟨heap', ?_, fun q hq => ?_, fun q hq => ?_⟩
      · rw [destroyLoop, Heap.load_eq hp, ok_bind]
        dsimp only
        rw [ok_bind, Heap.delete_eq hp, ok_bind, hloop]
        rfl
      · rcases List.mem_cons.mp hq with rfl | hq
        · rw [hkept q hfirst, Heap.find_gone]
        · exact hgone q hq
      · obtain ⟨hqp, hq⟩ := not_or.mp (mt List.mem_cons.mpr hq)
        rw [hkept q hq, Heap.find_gone_ne heap hqp]

namespace Carries

variable {cleanup : Cleanup φ} {nodes : List (Nat × Call φ)}

theorem empty (heap : Heap (Cleanup φ)) : Carries heap [] empty [] :=
  ⟨rfl, rfl, List.nodup_nil, rfl⟩

theorem congr {heap' : Heap (Cleanup φ)} (h : Carries heap calls cleanup nodes)
    (hkept : ∀ p ∈ nodes.map Prod.fst, heap'.find p = heap.find p) :
    Carries heap' calls cleanup nodes :=
  ⟨h.first, h.linked.congr hkept, h.nodup, h.rest⟩

-- The first call stands in the iterator itself.
theorem registerFirst (place : Placement (Cleanup φ)) (h : Carries heap [] cleanup nodes)
    (call : Call φ) :
    registerCleanup place heap cleanup call = .ok (heap, { cleanup with call := some call }) ∧
      Carries heap [call] { cleanup with call := some call } nodes := by
  have hnone : cleanup.call = none := h.first
  refine ⟨by rw [registerCleanup, hnone]; rfl, rfl, h.linked, h.nodup, h.rest⟩

-- Each of the others gets a node, in front of the nodes that are there.
theorem registerNext (place : Placement (Cleanup φ)) (h : Carries heap calls cleanup nodes)
    (hcalls : calls ≠ []) (call : Call φ) :
    ∃ c, heap.find c = none ∧
      registerCleanup place heap cleanup call =
        .ok (heap.made c ⟨some call, cleanup.next⟩, { cleanup with next := some c }) ∧
      Carries (heap.made c ⟨some call, cleanup.next⟩) (calls ++ [call])
        { cleanup with next := some c } ((c, call) :: nodes) := by
  obtain ⟨first, calls, rfl⟩ := List.exists_cons_of_ne_nil hcalls
  have hsome : cleanup.call = some first := h.first
  have hfresh := Heap.find_address place heap Iterator.empty
  have hnew : place.address heap Iterator.empty ∉ nodes.map Prod.fst := by
    intro hmem
    obtain ⟨b, hb⟩ := h.linked.live _ hmem
    exact Heap.ne_of_find hb hfresh rfl
  have hkept (b : Cleanup φ) : ∀ p ∈ nodes.map Prod.fst,
      (heap.made (place.address heap Iterator.empty) b).find p = heap.find p := fun p hp =>
    Heap.find_made_ne heap b fun hpa => hnew (hpa ▸ hp)
  refine ⟨_, hfresh, ?_, hsome, ⟨rfl, _, Heap.find_made _ _ _, h.linked.congr (hkept _)⟩,
    List.nodup_cons.mpr ⟨hnew, h.nodup⟩, ?_⟩
  · rw [registerCleanup, hsome]
    simp only [Heap.new]
    rw [Heap.store_eq (Heap.find_made _ _ _), ok_bind, Heap.made_put, Heap.load_eq (Heap.find_made _ _ _),
      ok_bind, Heap.store_eq (Heap.find_made _ _ _), ok_bind, Heap.made_put]
    rfl
  · simp [h.rest]

theorem destroy (h : Carries heap calls cleanup nodes) :
    ∃ heap', destroy heap cleanup = .ok (heap', order calls) ∧
      (∀ p ∈ nodes.map Prod.fst, heap'.find p = none) ∧
      ∀ p ∉ nodes.map Prod.fst, heap'.find p = heap.find p := by
  cases calls with
  | nil =>
      have hnone : cleanup.call = none := h.first
      have hnodes : nodes = [] := by simpa using h.rest
      refine ⟨heap, by rw [Iterator.destroy, hnone]; rfl, by simp [hnodes], fun _ _ => rfl⟩
  | cons first calls =>
      have hsome : cleanup.call = some first := h.first
      have hsize := Heap.length_le_size h.nodup h.linked.live
      rw [List.length_map] at hsize
      obtain ⟨heap', hloop, hgone, hkept⟩ := destroyLoop_eq h.linked h.nodup heap.size hsize
      refine ⟨heap', ?_, hgone, hkept⟩
      rw [Iterator.destroy, hsome]
      dsimp only
      rw [hloop, h.rest]
      rfl

end Carries

-- Every iterator carries what it has registered, in nodes of its own.
structure Holds (program : Program φ) (registered : Registered φ)
    (nodes : Nat → List (Nat × Call φ)) : Prop where
  carried : ∀ x, Option.Rel (fun calls cleanup => Carries program.heap calls cleanup (nodes x))
    (registered.calls x) (program.iters x)
  bare : ∀ x, registered.calls x = none → nodes x = []
  owned : Owned program.heap fun x => {p | p ∈ (nodes x).map Prod.fst}
  called : program.called = registered.due

namespace Holds

variable {registered registered' : Registered φ} {nodes : Nat → List (Nat × Call φ)}

theorem start : Holds (.start : Program φ) .start fun _ => [] :=
  ⟨fun _ => .none, fun _ _ => rfl, Owned.empty.congr fun _ p => by simp, rfl⟩

theorem iter_none (h : Holds program registered nodes) (hx : registered.calls x = none) :
    program.iters x = none := by
  have hrel := h.carried x
  rw [hx] at hrel
  generalize program.iters x = o at hrel ⊢
  cases hrel
  rfl

theorem iter_some (h : Holds program registered nodes) (hx : registered.calls x = some calls) :
    ∃ cleanup, program.iters x = some cleanup ∧ Carries program.heap calls cleanup (nodes x) := by
  have hrel := h.carried x
  rw [hx] at hrel
  generalize program.iters x = o at hrel ⊢
  cases hrel with
  | some hcarries => exact ⟨_, rfl, hcarries⟩

-- Only the nodes of one iterator change.
theorem update (h : Holds program registered nodes) {heap : Heap (Cleanup φ)}
    (o : Option (List (Call φ))) (o' : Option (Cleanup φ)) (mine : List (Nat × Call φ))
    (due : List (Nat × Call φ))
    (hx : Option.Rel (fun calls cleanup => Carries heap calls cleanup mine) o o')
    (hbare : o = none → mine = [])
    (hkept : ∀ y ≠ x, ∀ p ∈ (nodes y).map Prod.fst, heap.find p = program.heap.find p)
    (howned : Owned heap fun y => {p | p ∈ (Function.update nodes x mine y).map Prod.fst}) :
    Holds ⟨heap, Function.update program.iters x o', due⟩
      ⟨Function.update registered.calls x o, due⟩ (Function.update nodes x mine) := by
  refine ⟨fun y => ?_, fun y hy => ?_, howned, rfl⟩
  · by_cases hyx : y = x
    · rw [hyx]
      simpa using hx
    · simp only [Function.update_of_ne hyx]
      cases hcalls : registered.calls y with
      | none =>
          rw [h.iter_none hcalls]
          exact .none
      | some calls =>
          obtain ⟨cleanup, hcleanup, hcarries⟩ := h.iter_some hcalls
          rw [hcleanup]
          exact .some (hcarries.congr (hkept y hyx))
  · by_cases hyx : y = x
    · rw [hyx] at hy ⊢
      simp only [Function.update_self] at hy ⊢
      exact hbare hy
    · simp only [Function.update_of_ne hyx] at hy ⊢
      exact h.bare y hy

theorem disjoint (h : Holds program registered nodes) {y : Nat} (hyx : y ≠ x) {p : Nat}
    (hp : p ∈ (nodes y).map Prod.fst) : p ∉ (nodes x).map Prod.fst :=
  fun hp' => hyx (h.owned.once y x p hp hp')

theorem act (place : Placement (Cleanup φ)) (h : Holds program registered nodes) (act : Act φ)
    (hact : registered.act act = some registered') :
    ∃ program' nodes', program.act place act = .ok program' ∧ Holds program' registered' nodes' := by
  cases act with
  | made x =>
      simp only [Registered.act] at hact
      split at hact
      · cases hact
      · rename_i hx
        obtain rfl := Option.some.inj hact
        refine ⟨_, Function.update nodes x [], by rw [Program.act, h.iter_none hx]; rfl, ?_⟩
        rw [h.called]
        refine h.update (some []) (some Iterator.empty) [] _ (.some (.empty program.heap))
          (absurd · (Option.some_ne_none _)) (fun _ _ _ _ => rfl) ?_
        rw [← h.bare x hx, Function.update_eq_self]
        exact h.owned
  | register x call =>
      simp only [Registered.act] at hact
      split at hact
      · cases hact
      · rename_i calls hx
        obtain rfl := Option.some.inj hact
        obtain ⟨cleanup, hcleanup, hcarries⟩ := h.iter_some hx
        by_cases hcalls : calls = []
        · subst hcalls
          obtain ⟨hregister, hcarries⟩ := hcarries.registerFirst place call
          refine ⟨_, Function.update nodes x (nodes x), by
            rw [Program.act, hcleanup]; dsimp only; rw [hregister]; rfl, ?_⟩
          rw [h.called]
          refine h.update (some [call]) (some _) (nodes x) _ (.some hcarries)
            (absurd · (Option.some_ne_none _)) (fun _ _ _ _ => rfl) ?_
          rw [Function.update_eq_self]
          exact h.owned
        · obtain ⟨c, hfresh, hregister, hcarries⟩ := hcarries.registerNext place hcalls call
          refine ⟨_, Function.update nodes x ((c, call) :: nodes x), by
            rw [Program.act, hcleanup]; dsimp only; rw [hregister]; rfl, ?_⟩
          rw [h.called]
          refine h.update (some (calls ++ [call])) (some _) _ _ (.some hcarries)
            (absurd · (Option.some_ne_none _)) (fun y _ p hp => ?_) (h.owned.made hfresh _ (i := x) fun y q => ?_)
          · obtain ⟨b, hb⟩ := h.owned.live y p hp
            exact Heap.find_made_ne _ _ (Heap.ne_of_find hb hfresh)
          · by_cases hyx : y = x
            · rw [hyx]
              simp [or_comm]
            · simp [hyx]
  | destroyed x =>
      simp only [Registered.act] at hact
      split at hact
      · cases hact
      · rename_i calls hx
        obtain rfl := Option.some.inj hact
        obtain ⟨cleanup, hcleanup, hcarries⟩ := h.iter_some hx
        obtain ⟨heap', hdestroy, hgone, hkept⟩ := hcarries.destroy
        refine ⟨_, Function.update nodes x [], by
          rw [Program.act, hcleanup]; dsimp only; rw [hdestroy]; rfl, ?_⟩
        rw [h.called]
        refine h.update none none [] _ .none (fun _ => rfl) (fun y hyx p hp => hkept p ?_)
          (h.owned.cut {p | p ∈ (nodes x).map Prod.fst} hgone hkept fun y q => ?_)
        · exact h.disjoint hyx hp
        · by_cases hyx : y = x
          · rw [hyx]
            simp
          · simp only [Function.update_of_ne hyx]
            exact ⟨fun hq => ⟨hq, h.disjoint hyx hq⟩, And.left⟩

end Holds

-- Every destructor makes the calls that were registered with its iterator, and no others,
-- and nothing is used after it was deleted, deleted twice or left behind.
theorem run_cleans (place : Placement (Cleanup φ)) (acts : List (Act φ)) {registered : Registered φ}
    (hacts : acts.foldlM Registered.act .start = some registered) :
    ∃ program, Program.run place acts = .ok program ∧ program.called = registered.due ∧
      (∀ x, program.iters x = none ↔ registered.calls x = none) ∧
      (∃ nodes : Nat → List Nat, Owned program.heap (fun x => {p | p ∈ nodes x}) ∧
        ∀ x, (nodes x).length = ((registered.calls x).getD []).length - 1) ∧
      ((∀ x, registered.calls x = none) → program.heap.cells = ∅) := by
  obtain ⟨program, hrun, nodes, h⟩ := foldlM_refines (Program.act place) Registered.act
    (fun program registered => ∃ nodes, Holds program registered nodes) acts (by
      rintro program registered ⟨nodes, h⟩ act - registered' hact
      obtain ⟨program', nodes', hrun, h'⟩ := h.act place act hact
      exact ⟨program', hrun, nodes', h'⟩) ⟨_, Holds.start⟩ hacts
  refine ⟨program, hrun, h.called, fun x => ⟨fun hx => ?_, h.iter_none⟩,
    ⟨fun x => (nodes x).map Prod.fst, h.owned, fun x => ?_⟩, fun hnone => ?_⟩
  · cases hcalls : registered.calls x with
    | none => rfl
    | some calls =>
        obtain ⟨cleanup, hcleanup, -⟩ := h.iter_some hcalls
        rw [hcleanup] at hx
        cases hx
  · cases hcalls : registered.calls x with
    | none => simp [h.bare x hcalls]
    | some calls =>
        obtain ⟨cleanup, -, hcarries⟩ := h.iter_some hcalls
        have hlength := congrArg List.length hcarries.rest
        simpa using hlength
  · apply h.owned.cells_eq_empty
    intro x
    rw [Set.eq_empty_iff_forall_notMem]
    intro p hp
    simp [h.bare x (hnone x)] at hp

-- Two iterators, the first of them with three functions.
def sampleActs : List (Act Char) := [.made 0, .register 0 ⟨'a', 1, 2⟩, .made 1, .register 0 ⟨'b', 3, 4⟩,
  .register 1 ⟨'c', 5, 6⟩, .register 0 ⟨'d', 7, 8⟩, .destroyed 0, .destroyed 1]

theorem run_cleans_sample : ∃ program, Program.run (.above (Cleanup Char)) sampleActs = .ok program ∧
    program.called = [(0, ⟨'a', 1, 2⟩), (0, ⟨'d', 7, 8⟩), (0, ⟨'b', 3, 4⟩), (1, ⟨'c', 5, 6⟩)] ∧
    program.heap.cells = ∅ := by
  have hacts : sampleActs.foldlM Registered.act .start = some ⟨_, _⟩ := rfl
  obtain ⟨program, hrun, hcalled, -, -, hempty⟩ := run_cleans (.above (Cleanup Char)) sampleActs hacts
  refine ⟨program, hrun, hcalled, hempty fun x => ?_⟩
  by_cases h₀ : x = 0 <;> by_cases h₁ : x = 1 <;>
    simp [Registered.start, h₀, h₁]

end Mylldb.Iterator

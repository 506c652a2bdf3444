import Mylldb.Block.Seek
import Mylldb.TableBuilder.Draft

namespace Mylldb

open Lib.Run Lib.Cursor Lib.ThreeWay

namespace Block

-- The iterator over the contents of a block, as a client opens it.
def openIterator (contents : Bytes) : Exec BlockIterator := do
  let block ← Block.new contents
  block.newIterator

namespace BlockIterator

-- The methods of the iterator without its search.
def plain : Machine Fault BlockIterator Empty := machine fun _ => Empty.elim

def entry (it : BlockIterator) : Exec (Bytes × Bytes) := do
  let key ← it.key
  let value ← it.value
  pure (key, value)

-- A block has no more entries than bytes.
def fuel : BlockIterator → Nat
  | .empty _ => 1
  | .iter it => it.scanFuel

-- `for (it->SeekToFirst(); it->Valid(); it->Next())`
def forward (it : BlockIterator) : Exec (List (Bytes × Bytes)) :=
  plain.forward .diverges entry it.fuel it

-- `for (it->SeekToLast(); it->Valid(); it->Prev())`
def backward (it : BlockIterator) : Exec (List (Bytes × Bytes)) :=
  plain.backward .diverges entry it.fuel it

def seek (cmp : Comparator) (it : BlockIterator) (target : Bytes) : Exec BlockIterator :=
  it.position fun it => it.seek cmp target

theorem entry_eq {it : BlockIterator} {p : Bytes × Bytes} (hkey : it.key = .ok p.1)
    (hvalue : it.value = .ok p.2) : it.entry = .ok p := by
  rw [entry, hkey, ok_bind, hvalue, ok_bind, pure_eq]

end BlockIterator

-- The iterator stands over a block that holds these entries.
def Reads (entries : List (Bytes × Bytes)) (it : BlockIterator) : Prop :=
  ∃ items firsts data p, items.map BlockBuilder.Item.pair = entries ∧
    Layout items firsts data ∧ StandsOn items firsts data it p

namespace Layout

variable {items : List BlockBuilder.Item} {firsts : List Nat} {data : Bytes}

theorem plain_implements (h : Layout items firsts data) :
    Implements BlockIterator.plain (items.map BlockBuilder.Item.pair).length Empty.elim
      (StandsOn items firsts data) := by
  rw [List.length_map]
  exact h.implements (fun _ => Empty.elim) Empty.elim fun _ target => target.elim

theorem entry_read (h : Layout items firsts data) (it : BlockIterator) (i : Nat)
    (hstands : StandsOn items firsts data it (some i)) :
    ∃ p, (items.map BlockBuilder.Item.pair)[i]? = some p ∧ it.entry = .ok p := by
  obtain ⟨-, -, p, hp, hkey, hvalue⟩ := h.shows_of_standsOn it (some i) hstands
  exact ⟨p, hp, BlockIterator.entry_eq hkey hvalue⟩

theorem lt_fuel (it : BlockIterator) {p : Position} (hstands : StandsOn items firsts data it p) :
    (items.map BlockBuilder.Item.pair).length < it.fuel := by
  cases it with
  | empty status => exact hstands.elim
  | iter it =>
      have hrestarts := (Layout.Stands.over hstands).restarts_eq
      have hlength := BlockBuilder.le_start items items.length (Nat.le_refl _)
      rw [List.length_map, BlockIterator.fuel, Iter.scanFuel, hrestarts, restartsOffset]
      omega

end Layout

namespace Reads

variable {entries : List (Bytes × Bytes)} {it : BlockIterator}

theorem forward_eq (h : Reads entries it) : it.forward = .ok entries := by
  obtain ⟨items, firsts, data, p, rfl, hlayout, hstands⟩ := h
  exact hlayout.plain_implements.forward_eq .diverges hlayout.entry_read hstands
    (Layout.lt_fuel it hstands)

theorem backward_eq (h : Reads entries it) : it.backward = .ok entries.reverse := by
  obtain ⟨items, firsts, data, p, rfl, hlayout, hstands⟩ := h
  exact hlayout.plain_implements.backward_eq .diverges hlayout.entry_read hstands
    (Layout.lt_fuel it hstands)

theorem seek_eq {cmp : Comparator} (h : Reads entries it) (hc : TotalPreorder cmp.compare)
    (hsorted : entries.Pairwise fun a b => cmp.compare a.1 b.1 ≤ 0) (target : Bytes) :
    ∃ it', it.seek cmp target = .ok it' ∧ Reads entries it' ∧
      Shows entries it' (firstAtLeast cmp entries target) := by
  obtain ⟨items, firsts, data, p, rfl, hlayout, hstands⟩ := h
  cases it with
  | empty status => exact hstands.elim
  | iter it =>
      obtain ⟨it', hseek, hstands'⟩ :=
        hlayout.seek_eq hc (List.pairwise_map.mp hsorted) (Layout.Stands.over hstands) target
      refine ⟨.iter it', ?_, ⟨items, firsts, data, _, rfl, hlayout, hstands'⟩,
        hlayout.shows_of_standsOn _ _ hstands'⟩
      rw [BlockIterator.seek, BlockIterator.position, hseek]
      rfl

-- A search shows the first entry that is not before the target.
theorem seek_find {cmp : Comparator} (h : Reads entries it) (hc : TotalPreorder cmp.compare)
    (hsorted : entries.Pairwise fun a b => cmp.compare a.1 b.1 ≤ 0) (target : Bytes) :
    ∃ it', it.seek cmp target = .ok it' ∧ it'.status = .ok ∧
      it'.valid = (entries.find? fun e => decide (0 ≤ cmp.compare e.1 target)).isSome ∧
      ∀ e ∈ entries.find? fun e => decide (0 ≤ cmp.compare e.1 target),
        it'.key = .ok e.1 ∧ it'.value = .ok e.2 := by
  obtain ⟨it', hseek, -, hshows⟩ := h.seek_eq hc hsorted target
  refine ⟨it', hseek, ?_⟩
  rw [List.find?_eq_bind_findIdx?_getElem?]
  unfold firstAtLeast at hshows
  cases hfind : entries.findIdx? fun e => decide (0 ≤ cmp.compare e.1 target) with
  | none =>
      rw [hfind] at hshows
      obtain ⟨hvalid, hstatus⟩ := hshows
      exact ⟨hstatus, hvalid, by simp⟩
  | some i =>
      rw [hfind] at hshows
      obtain ⟨hvalid, hstatus, p, hp, hkey, hvalue⟩ := hshows
      refine ⟨hstatus, ?_, ?_⟩
      · rw [hvalid, Option.bind_some, hp]
        rfl
      · intro e he
        rw [Option.bind_some, hp] at he
        obtain rfl := Option.some.inj he
        exact ⟨hkey, hvalue⟩

end Reads

end Block

-- A finished block opens on the entries that its builder was given.
theorem BlockBuilder.Building.opens {entries : List (Bytes × Bytes)} {b : BlockBuilder}
    (h : BlockBuilder.Building entries b) (hfits : b.finish.2.length < 2 ^ 32) :
    ∃ block it, Block.new b.finish.2 = .ok block ∧ block.newIterator = .ok it ∧
      Block.Reads entries it := by
  obtain ⟨adds, rfl, hb⟩ := h
  obtain ⟨b', hb', hlayout⟩ := (Block.Fresh.layout (.inr ⟨.initial, rfl⟩) adds :
    ∃ b, BlockBuilder.initial.addAll adds = .ok b ∧ _)
  obtain rfl : b' = b := Except.ok.inj (hb'.symm.trans hb)
  obtain ⟨items, firsts, hitems, h⟩ := hlayout hfits
  obtain ⟨block, it, hblock, hit, hstands⟩ := h.newIterator_eq
  exact ⟨block, .iter it, hblock, hit, items, firsts, _, none, hitems, h, hstands⟩

end Mylldb

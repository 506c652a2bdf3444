import Mylldb.Comparator.Theorems
import Mylldb.Lib.SparseIndex
import Mylldb.TableBuilder.Errors

namespace Mylldb

open Lib.Run

namespace BlockBuilder

-- The builder was given exactly these entries since it was new, under any restart
-- intervals.
def Building (entries : List (Bytes × Bytes)) (b : BlockBuilder) : Prop :=
  ∃ adds : List Addition, adds.map Addition.pair = entries ∧ initial.addAll adds = .ok b

variable {entries : List (Bytes × Bytes)} {b b' : BlockBuilder}

theorem initial_building : Building [] initial := ⟨[], rfl, rfl⟩

theorem Building.add (h : Building entries b) {interval : Int} (hinterval : 1 ≤ interval)
    {key value : Bytes} (hadd : b.add interval key value = .ok b') :
    Building (entries ++ [(key, value)]) b' := by
  obtain ⟨adds, rfl, hb⟩ := h
  refine ⟨adds ++ [⟨interval, key, value, hinterval⟩], by simp [Addition.pair], ?_⟩
  rw [addAll, List.foldlM_append]
  change (initial.addAll adds >>= _) = _
  rw [hb]
  simp [hadd]

-- Every entry puts bytes into the buffer.
theorem Building.empty_iff (h : Building entries b) : b.empty = true ↔ entries = [] := by
  obtain ⟨adds, rfl, hb⟩ := h
  have hrun := foldlM_history (fun b (a : Addition) => b.add a.interval a.key a.value)
    (fun done b => b.empty = true ↔ done = []) adds
    (by
      intro done b _ a _
      obtain ⟨b', hadd, hgrows⟩ := add_grows b a.interval a.key a.value
      refine ⟨b', hadd, ?_⟩
      simp only [empty, List.isEmpty_iff, ← List.length_eq_zero_iff, List.length_append,
        List.length_singleton]
      omega)
    [] initial (by simp [empty, initial])
  obtain ⟨b', hb', hiff⟩ := hrun
  obtain rfl : b' = b := Except.ok.inj (hb'.symm.trans hb)
  simpa using hiff

end BlockBuilder

namespace TableBuilder

open BlockBuilder Lib.SparseIndex Lib.ThreeWay

-- A data block in the file.
structure DataBlock where
  entries : List (Bytes × Bytes)
  bytes : Bytes
  offset : Nat
  nonempty : entries ≠ []
  built : ∃ b, Building entries b ∧ b.finish.2 = bytes
  fits : offset + bytes.length + 5 < 2 ^ 64

def DataBlock.handle (b : DataBlock) : BlockHandle := ⟨b.offset, b.bytes.length⟩

-- A data block with the key of its index entry.
structure IndexedBlock extends DataBlock where
  separator : Bytes

def IndexedBlock.indexEntry (b : IndexedBlock) : Bytes × Bytes :=
  (b.separator, handleBytes b.handle)

-- The table so far: the blocks with an index entry, the block that waits for one,
-- and the entries that are not in a block yet.
structure Draft where
  indexed : List IndexedBlock
  pending : Option DataBlock
  current : List (Bytes × Bytes)

namespace Draft

-- The entries after those of the indexed blocks.
def waiting (d : Draft) : List (Bytes × Bytes) :=
  d.pending.toList.flatMap (·.entries) ++ d.current

def added (d : Draft) : List (Bytes × Bytes) :=
  d.indexed.flatMap (fun b => b.entries) ++ d.waiting

def blocks (d : Draft) : List DataBlock := d.indexed.map (·.toDataBlock) ++ d.pending.toList

def empty : Draft := ⟨[], none, []⟩

-- The pending block gets its index entry.
def settle (d : Draft) (separator : Bytes) : Draft :=
  match d.pending with
  | none => d
  | some b => ⟨d.indexed ++ [⟨b, separator⟩], none, d.current⟩

def push (d : Draft) (e : Bytes × Bytes) : Draft := { d with current := d.current ++ [e] }

-- The current entries become a block.
def cut (d : Draft) (b : DataBlock) : Draft := ⟨d.indexed, some b, []⟩

-- The keys increase, and the separators lead to their blocks.
structure Valid (cmp : Comparator) (d : Draft) : Prop where
  sorted : d.added.Pairwise fun a b => cmp.compare a.1 b.1 < 0
  leads : Leads cmp.compare Prod.fst (fun b : IndexedBlock => b.entries) (·.separator) d.indexed
  apart : ∀ b ∈ d.indexed, ∀ e ∈ d.waiting, cmp.compare b.separator e.1 < 0
  waiting_ne : d.indexed ≠ [] → d.waiting ≠ []

variable {cmp : Comparator} {d : Draft}

theorem empty_valid : Valid cmp empty :=
  ⟨List.Pairwise.nil, .nil, by simp [empty], by simp [empty]⟩

theorem blocks_settle (separator : Bytes) : (d.settle separator).blocks = d.blocks := by
  unfold settle
  split
  · rfl
  · rename_i b hb
    simp [blocks, hb]

theorem pending_settle (separator : Bytes) : (d.settle separator).pending = none := by
  unfold settle
  split
  · assumption
  · rfl

theorem current_settle (separator : Bytes) : (d.settle separator).current = d.current := by
  unfold settle
  split <;> rfl

theorem waiting_settle (separator : Bytes) (hcurrent : d.current = []) :
    (d.settle separator).waiting = [] := by
  simp [waiting, pending_settle, current_settle, hcurrent]

theorem blocks_settle_eq (separator : Bytes) :
    (d.settle separator).blocks = (d.settle separator).indexed.map (·.toDataBlock) := by
  simp [blocks, pending_settle]

theorem added_settle (separator : Bytes) : (d.settle separator).added = d.added := by
  unfold settle
  split
  · rfl
  · rename_i b hb
    simp [added, waiting, hb]

theorem added_push (e : Bytes × Bytes) : (d.push e).added = d.added ++ [e] := by
  simp [added, waiting, push]

-- A key after all the others is after all the separators.
theorem Valid.separator_lt (h : Valid cmp d) (hc : TotalPreorder cmp.compare) (key : Bytes)
    (hkey : ∀ a ∈ d.added, cmp.compare a.1 key < 0) :
    ∀ b ∈ d.indexed, cmp.compare b.separator key < 0 := by
  intro b hb
  obtain ⟨e, he⟩ := List.exists_mem_of_ne_nil _ (h.waiting_ne (List.ne_nil_of_mem hb))
  exact hc.lt_trans _ _ _ (h.apart b hb e he) (hkey e (List.mem_append_right _ he))

theorem Valid.leads_settle (h : Valid cmp d) (separator : Bytes)
    (hcovers : ∀ b ∈ d.pending, ∀ e ∈ b.entries, cmp.compare e.1 separator ≤ 0) :
    Leads cmp.compare Prod.fst (fun b : IndexedBlock => b.entries) (·.separator)
      (d.settle separator).indexed := by
  unfold settle
  split
  · exact h.leads
  · rename_i b hb
    apply h.leads.concat
    · exact hcovers b hb
    · intro b' hb' e he
      apply h.apart b' hb' e
      simp only [waiting, hb, Option.toList_some, List.flatMap_singleton]
      exact List.mem_append_left _ he

-- The first key after a flush settles the pending block.
theorem Valid.push (h : Valid cmp d) (hc : TotalPreorder cmp.compare) (separator : Bytes)
    (e : Bytes × Bytes) (hcurrent : d.pending.isSome = true → d.current = [])
    (hkey : ∀ a ∈ d.added, cmp.compare a.1 e.1 < 0)
    (hcovers : ∀ b ∈ d.pending, ∀ a ∈ b.entries, cmp.compare a.1 separator ≤ 0)
    (hlt : d.pending.isSome = true → cmp.compare separator e.1 < 0) :
    Valid cmp ((d.settle separator).push e) where
  sorted := by
    rw [added_push, added_settle]
    apply List.pairwise_append.mpr
    refine ⟨h.sorted, List.pairwise_singleton _ _, ?_⟩
    intro a ha b hb
    rw [List.mem_singleton.mp hb]
    exact hkey a ha
  leads := h.leads_settle separator hcovers
  apart := by
    have hbefore := h.separator_lt hc e.1 hkey
    unfold settle
    split
    · rename_i hnone
      intro b hb a ha
      have hmem : a ∈ d.current ++ [e] := by simpa [waiting, Draft.push, hnone] using ha
      rcases List.mem_append.mp hmem with ha | ha
      · exact h.apart b hb a (List.mem_append_right _ ha)
      · rw [List.mem_singleton.mp ha]
        exact hbefore b hb
    · rename_i b hb
      have hsome : d.pending.isSome = true := by rw [hb]; rfl
      intro b' hb' a ha
      obtain rfl : a = e := by simpa [waiting, Draft.push, hcurrent hsome] using ha
      rcases List.mem_append.mp hb' with hb' | hb'
      · exact hbefore b' hb'
      · rw [List.mem_singleton.mp hb']
        exact hlt hsome
  waiting_ne _ := by simp [waiting, Draft.push]

theorem waiting_cut (b : DataBlock) (hpending : d.pending = none) (hb : b.entries = d.current) :
    (d.cut b).waiting = d.waiting := by
  simp [waiting, cut, hpending, hb]

theorem added_cut (b : DataBlock) (hpending : d.pending = none) (hb : b.entries = d.current) :
    (d.cut b).added = d.added := by
  rw [added, added, waiting_cut b hpending hb]
  rfl

-- A block that is cut holds the entries that waited.
theorem Valid.cut (h : Valid cmp d) (b : DataBlock) (hpending : d.pending = none)
    (hb : b.entries = d.current) : Valid cmp (d.cut b) where
  sorted := by
    rw [added_cut b hpending hb]
    exact h.sorted
  leads := h.leads
  apart := by
    rw [waiting_cut b hpending hb]
    exact h.apart
  waiting_ne := by
    rw [waiting_cut b hpending hb]
    exact h.waiting_ne

end Draft

end TableBuilder

end Mylldb

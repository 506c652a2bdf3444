import Mylldb.MemTable.Iterator
import Mylldb.MemTable.Snapshots
import Mylldb.SkipList.Linearizable

namespace Mylldb.MemTable

open Lib.History Lib.Run Lib.ThreeWay Lib.Versions SkipList

-- What `Get` makes of the entry that its search has found.
def report (user : Comparator) (key : LookupKey) (value : Bytes) (s : Status) :
    Option (Nat × Bytes) → Exec (Bool × Bytes × Status)
  | none => pure (false, value, s)
  | some (_, entry) => do
      match ← getVarint32Ptr entry 0 5 with
      | none => throw .uninitialised
      | some (keyPtr, keyLength) => do
          let entryKey ← readRange entry keyPtr (sub32 keyLength 8)
          if user.compare entryKey key.userKey = 0 then do
            let tag ← decodeFixed64 entry (keyPtr + keyLength - 8)
            if tag &&& 0xff = ValueType.kTypeValue.toNat then do
              let (vp, vlen) ← getLengthPrefixedSlice entry (keyPtr + keyLength)
              let v ← readRange entry vp vlen
              pure (true, v, s)
            else if tag &&& 0xff = ValueType.kTypeDeletion.toNat then
              pure (true, value, Status.notFound "" "")
            else pure (false, value, s)
          else pure (false, value, s)

theorem get_eq_report (user : Comparator) (m : MemTable) (key : LookupKey) (value : Bytes)
    (s : Status) : get user m key value s = (do
      let it ← Iterator.seek (keyComparator user) m.table key.memtableKey
      let found ← readPlace m.table it.node
      report user key value s found) := by
  rw [get]
  dsimp only
  congr 1
  funext it
  cases hnode : it.node with
  | none =>
      have hvalid : it.valid = false := by rw [Iterator.valid, hnode]; rfl
      rw [if_neg (by simp [hvalid])]
      rfl
  | some x =>
      have hvalid : it.valid = true := by rw [Iterator.valid, hnode]; rfl
      rw [if_pos hvalid, Iterator.key, assertThat_pos hvalid, hnode, ok_bind, readPlace]
      cases m.table.deref (some x) with
      | error e => rfl
      | ok node => rfl

-- A step of a client: a writer adds, readers look up keys or move their iterators, and each
-- goes on by one store or load. The entry of an addition is filled before its insertion.
inductive Use where
  | add (e : Added)
  | store
  | get (r : Nat) (k : Bytes) (snap : Nat)
  | iterate (r : Nat) (op : Op Bytes)
  | load (r : Nat)

namespace Use

def act : Use → Act Bytes
  | .add e => .insert e.height e.entry
  | .store => .store
  | .get r k snap => .call r (.seek (LookupKey.made k snap).memtableKey)
  | .iterate r (.seek target) => .call r (.seek (encodeKey target))
  | .iterate r op => .call r op
  | .load r => .load r

-- A key that is sought has room for a tag, and its length is not cut off.
def Allowed : Use → Prop
  | .get _ k _ => 8 ≤ (k.length + 8) % 2 ^ 32
  | .iterate _ (.seek target) => 8 ≤ target.length ∧ target.length < 2 ^ 32
  | _ => True

end Use

section

variable {user : Comparator}

-- The entries of additions that are made.
def Entered (uses : List Use) (b : Bytes) : Prop := ∃ e, .add e ∈ uses ∧ b = e.entry

def Sought (b : Bytes) : Prop := ∃ internalKey, Prefixed b internalKey

theorem use_good {uses : List Use} (huses : ∀ u ∈ uses, u.Allowed) (a : Act Bytes)
    (ha : a ∈ uses.map Use.act) : a.Good (Entered uses) Sought := by
  obtain ⟨u, hu, rfl⟩ := List.mem_map.mp ha
  have hallowed := huses u hu
  cases u with
  | add e => exact ⟨e.height_pos, e.height_le, e, hu, rfl⟩
  | store => trivial
  | get r k snap => exact ⟨_, memtableKey_prefixed k snap hallowed⟩
  | iterate r op =>
      cases op with
      | seek target => exact ⟨_, encodeKey_prefixed_of_fits target hallowed.1 hallowed.2⟩
      | seekToFirst => trivial
      | seekToLast => trivial
      | next => trivial
      | prev => trivial
  | load r => trivial

-- The keys of a history are the entries of additions.
theorem exists_adds {uses : List Use} (keys : List Bytes) (hkeys : ∀ b ∈ keys, Entered uses b) :
    ∃ adds : List Added, keys = adds.map Added.entry ∧ ∀ e ∈ adds, .add e ∈ uses := by
  induction keys with
  | nil => exact ⟨[], rfl, by simp⟩
  | cons b keys ih =>
      obtain ⟨adds, rfl, hadds⟩ := ih fun b hb => hkeys b (List.mem_cons_of_mem _ hb)
      obtain ⟨e, he, rfl⟩ := hkeys b (List.mem_cons_self ..)
      exact ⟨e :: adds, rfl, by simpa using ⟨he, hadds⟩⟩

-- A search on the sheet finds what a lookup finds in a table that no one else uses.
theorem report_ledger (hu : TotalOrder user.compare) (adds : List Added) (k : Bytes) (snap : Nat)
    (hsnap : snap ≤ kMaxSequenceNumber) (hk : 8 ≤ (k.length + 8) % 2 ^ 32) (value : Bytes)
    (s : Status) : report user (LookupKey.made k snap) value s
        (Sheet.answer (entryOrder user) (ledger (entryOrder user) (adds.map Added.entry)) none
          (.seek (LookupKey.made k snap).memtableKey)) =
      .ok (outcome (latest Added.tag (seen user adds k snap)) value s) := by
  have hpre := hu.toTotalPreorder
  have hc := entryOrder_totalPreorder hpre
  have hprefixed := memtableKey_prefixed k snap hk
  obtain ⟨m, order, hm, h⟩ := addAll_holds user hpre adds
  have hget := h.get_latest hu hsnap hk value s
  have hseek := h.represents.seek_eq hc _ (h.agrees hprefixed)
  have hinserts : insertAll (keyComparator user) (inserts adds) = .ok m.table := by
    rw [addAll_eq] at hm
    cases hrun : insertAll (keyComparator user) (inserts adds) with
    | error e => rw [hrun] at hm; cases hm
    | ok l => rw [hrun] at hm; rw [← Except.ok.inj hm]
  have hentries : entries m.table order = ledger (entryOrder user) (adds.map Added.entry) := by
    have hmade : ∀ p ∈ inserts adds, ∃ e : Added, p = (e.height, e.entry) := fun p hp => by
      obtain ⟨e, -, rfl⟩ := List.mem_map.mp hp
      exact ⟨e, rfl⟩
    have hledger := insertAll_entries hc (inserts adds) (fun p hp => by
        obtain ⟨e, rfl⟩ := hmade p hp
        exact ⟨e.height_pos, e.height_le⟩) (fun p hp q hq => by
        obtain ⟨e, rfl⟩ := hmade p hp
        obtain ⟨f, rfl⟩ := hmade q hq
        exact keyComparator_eq user e.entry_prefixed f.entry_prefixed) hinserts h.represents
    rwa [inserts, List.map_map] at hledger
  have hshared : Shared (entryOrder user) (fun _ => True) m.table order _ :=
    h.represents.shared fun _ _ => trivial
  have hasks : Op.asks m.table none (.seek (LookupKey.made k snap).memtableKey) =
      some (.greaterOrEqual (LookupKey.made k snap).memtableKey) := rfl
  have hanswer : Sheet.answer (entryOrder user) (entries m.table order) none
      (.seek (LookupKey.made k snap).memtableKey) = ((order.filter fun x =>
        !m.table.lessThan (entryOrder user) (LookupKey.made k snap).memtableKey x).head?).map
          fun x => (x, m.table.keyOf x) :=
    answer_asks hasks (by simp)
  have hfound := readPlace_eq hshared ((order.filter fun x =>
      !m.table.lessThan (entryOrder user) (LookupKey.made k snap).memtableKey x).head?)
    fun x hx => List.mem_of_mem_filter (List.mem_of_head? hx)
  rw [get_eq_report, hseek, ok_bind, hfound, ok_bind, ← hanswer, hentries] at hget
  exact hget

-- The run of the table under its clients, and what has come in.
theorem uses_replay (hu : TotalPreorder user.compare) (uses : List Use)
    (huses : ∀ u ∈ uses, u.Allowed) :
    ∃ s sheet, System.run (keyComparator user) (uses.map Use.act) = .ok s ∧
      Replays (Sheet.Step (entryOrder user)) Sheet.initial s.history sheet ∧
      (∀ r, sheet.places r = (s.readers r).place) ∧
      ∀ b ∈ insertedKeys s.history, Entered uses b := by
  have hc := entryOrder_totalPreorder hu
  have hsub : ∀ b, Entered uses b → Sought b := by
    rintro b ⟨e, -, rfl⟩
    exact ⟨_, e.entry_prefixed⟩
  have hcompare : ∀ a b, Entered uses a → Sought b →
      keyComparator user a b = .ok (entryOrder user a b) := by
    rintro a b ⟨e, -, rfl⟩ ⟨internalKey, hprefixed⟩
    exact keyComparator_eq user e.entry_prefixed hprefixed
  obtain ⟨s, sheet, hrun, hreplays, order, lane, hcoherent⟩ :=
    run_replays hc hsub hcompare _ (use_good huses)
  refine ⟨s, sheet, hrun, hreplays, hcoherent.places_eq, fun b hb => ?_⟩
  obtain ⟨e, he, rfl⟩ := mem_ledger (entryOrder user) _ b hb
  rw [← replays_entries hreplays, hcoherent.entries_eq] at he
  obtain ⟨x, hx, rfl⟩ := List.mem_map.mp he
  exact (hcoherent.writes.shared hc).good x hx

-- A lookup that runs while entries are added answers from the additions that were in the
-- table at the moment of its last load, and from no others.
theorem get_linearizes (user : Comparator) (hu : TotalOrder user.compare) (uses : List Use)
    (huses : ∀ u ∈ uses, u.Allowed) :
    ∃ s, System.run (keyComparator user) (uses.map Use.act) = .ok s ∧
      ∀ before after r k snap found loads, s.history = before ++
          .returned r (.seek (LookupKey.made k snap).memtableKey) found loads :: after →
        snap ≤ kMaxSequenceNumber → 8 ≤ (k.length + 8) % 2 ^ 32 →
        ∃ adds : List Added, insertedKeys before = adds.map Added.entry ∧
          (∀ e ∈ adds, .add e ∈ uses) ∧
          ∀ value status, report user (LookupKey.made k snap) value status found =
            .ok (outcome (latest Added.tag (seen user adds k snap)) value status) := by
  obtain ⟨s, sheet, hrun, hreplays, -, hheld⟩ := uses_replay hu.toTotalPreorder uses huses
  refine ⟨s, hrun, fun before after r k snap found loads hhistory hsnap hk => ?_⟩
  rw [hhistory] at hreplays hheld
  obtain ⟨t, t', hbefore, hstep, -⟩ := hreplays.split
  obtain ⟨adds, hkeys, hadds⟩ := exists_adds (insertedKeys before) fun b hb => by
    apply hheld b
    rw [insertedKeys, List.filterMap_append]
    exact List.mem_append_left _ hb
  refine ⟨adds, hkeys, hadds, fun value status => ?_⟩
  have hledger := replays_entries hbefore
  rw [hkeys] at hledger
  cases hstep with
  | returned _ _ _ _ _ =>
      rw [hledger]
      exact report_ledger hu adds k snap hsnap hk value status

end

-- The deletion comes into the table while a lookup of the version before it is on its way.
def overlappingUses : List Use :=
  (ascendingAdds.take 1).map .add ++ List.replicate 6 .store ++ [.get 0 [107] 2] ++
    (ascendingAdds.drop 2).map .add ++ [.load 0] ++ List.replicate 3 .store ++ [.load 0, .load 0]

-- The deletion is the second addition that the lookup has seen.
theorem get_linearizes_sample : ∃ adds : List Added, adds.length = 2 ∧ ∀ value status,
    report bytewiseComparator (LookupKey.made [107] 2) value status
        (some (1, [9, 107, 1, 1, 0, 0, 0, 0, 0, 0, 1, 118])) =
      .ok (outcome (latest Added.tag (seen bytewiseComparator adds [107] 2)) value status) := by
  obtain ⟨s, hrun, hget⟩ := get_linearizes bytewiseComparator Slice.compare_totalOrder
    overlappingUses (by
      intro u hu
      cases u with
      | get r k snap =>
          obtain ⟨-, rfl, -⟩ : r = 0 ∧ k = [107] ∧ snap = 2 := by
            simpa [overlappingUses, -List.map_take, -List.map_drop] using hu
          exact (by decide : 8 ≤ (1 + 8) % 2 ^ 32)
      | iterate r op => simp [overlappingUses, -List.map_take, -List.map_drop] at hu
      | add e => trivial
      | store => trivial
      | load r => trivial)
  have hhistory : System.history <$> System.run (keyComparator bytewiseComparator)
      (overlappingUses.map Use.act) = .ok s.history := by rw [hrun]; rfl
  have hsplit : s.history = [.insertCalled [9, 107, 1, 1, 0, 0, 0, 0, 0, 0, 1, 118],
      .inserted 1 [9, 107, 1, 1, 0, 0, 0, 0, 0, 0, 1, 118], .insertReturned,
      .called 0 (.seek [9, 107, 1, 2, 0, 0, 0, 0, 0, 0]),
      .insertCalled [9, 107, 0, 3, 0, 0, 0, 0, 0, 0, 0],
      .inserted 2 [9, 107, 0, 3, 0, 0, 0, 0, 0, 0, 0]] ++
        .returned 0 (.seek (LookupKey.made [107] 2).memtableKey)
          (some (1, [9, 107, 1, 1, 0, 0, 0, 0, 0, 0, 1, 118])) 3 :: [] :=
    Except.ok.inj (hhistory.symm.trans rfl)
  obtain ⟨adds, hkeys, -, hreport⟩ := hget _ _ _ _ _ _ _ hsplit (by decide) (by decide)
  refine ⟨adds, ?_, hreport⟩
  have hlength := congrArg List.length hkeys
  rw [List.length_map] at hlength
  exact hlength.symm

end Mylldb.MemTable

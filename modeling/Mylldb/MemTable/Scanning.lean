import Mylldb.MemTable.Concurrent
import Mylldb.SkipList.Scanning

namespace Mylldb.MemTable

open Lib.History Lib.Run Lib.ThreeWay SkipList

-- What an iterator shows of the entry on which it stands.
def display (entry : Bytes) : Exec (Bytes × Bytes) := do
  let (p, len) ← getLengthPrefixedSlice entry 0
  let key ← readRange entry p len
  let (vp, vlen) ← getLengthPrefixedSlice entry (p + len)
  let value ← readRange entry vp vlen
  pure (key, value)

theorem key_value_eq_display (m : MemTable) (it : MemTableIterator) :
    (do
      let key ← MemTableIterator.key m it
      let value ← MemTableIterator.value m it
      pure (key, value)) = it.iter.key m.table >>= display := by
  unfold MemTableIterator.key MemTableIterator.value
  cases it.iter.key m.table with
  | error fault => rfl
  | ok entry =>
      simp only [ok_bind, display]
      cases getLengthPrefixedSlice entry 0 with
      | error fault => rfl
      | ok slice =>
          simp only [ok_bind]
          cases readRange entry slice.1 slice.2 <;> simp only [ok_bind, error_bind, bind_assoc]

theorem display_entry (e : Added) : display e.entry = .ok e.pair := by
  have hentry := e.entry_prefixed
  obtain ⟨hslice, hrange⟩ := e.entry_value _ rfl
  simp only [display, hentry.slice, hentry.range, hslice, hrange, ok_bind, pure_eq, Added.pair]

-- A reader sets out from the first entry, or from where a target would stand.
def setOut (target : Option Bytes) : Start Bytes :=
  match target with
  | none => .first
  | some k => .seek (encodeKey k)

def AtOrBehind (user : Comparator) (target : Option Bytes) (e : Added) : Prop :=
  ∀ k ∈ target, 0 ≤ internalOrder user e.internalKey k

instance {user : Comparator} {target : Option Bytes} {e : Added} :
    Decidable (AtOrBehind user target e) :=
  inferInstanceAs (Decidable (∀ k ∈ target, _))

theorem setOut_covers (user : Comparator) (target : Option Bytes)
    (htarget : ∀ k ∈ target, 8 ≤ k.length ∧ k.length < 2 ^ 32) (e : Added) :
    (setOut target).Covers (entryOrder user) e.entry ↔ AtOrBehind user target e := by
  cases target with
  | none => simp [setOut, Start.Covers, AtOrBehind]
  | some k =>
      obtain ⟨htagged, hfits⟩ := htarget k rfl
      have hprefixed := encodeKey_prefixed_of_fits k htagged hfits
      simp [setOut, Start.Covers, AtOrBehind, entryOrder, e.entry_prefixed.internalKeyOf_eq,
        hprefixed.internalKeyOf_eq]

theorem Added.sequence_eq (e : Added) : tagOf (internalKeyOf e.entry) / 256 = e.sequence := by
  have htype := e.type_le
  rw [e.entry_prefixed.internalKeyOf_eq, tagOf_internalKey, tag, packedTag]
  omega

-- A condition on entries is one on the additions that they encode.
theorem entries_filter {l : List (Nat × Bytes)} {adds : List Added}
    (h : l.map (fun e => e.2) = adds.map Added.entry) (p : Nat × Bytes → Bool) (q : Added → Bool)
    (hq : ∀ x e, p (x, e.entry) = q e) :
    (l.filter p).map (fun e => e.2) = (adds.filter q).map Added.entry := by
  induction l generalizing adds with
  | nil =>
      obtain rfl : adds = [] := by simpa using h.symm
      rfl
  | cons a l ih =>
      cases adds with
      | nil => simp at h
      | cons e adds =>
          obtain ⟨hhead, htail⟩ := List.cons.inj h
          obtain ⟨x, b⟩ := a
          obtain rfl : b = e.entry := hhead
          rw [List.filter_cons, List.filter_cons, hq x e]
          cases q e
          · exact ih htail
          · exact congrArg _ (ih htail)

-- The entries of additions show their keys and values.
theorem display_all (l : List (Nat × Bytes)) (views : List Added)
    (h : l.map (fun e => e.2) = views.map Added.entry) :
    l.mapM (fun e => display e.2) = .ok (views.map Added.pair) := by
  induction l generalizing views with
  | nil =>
      obtain rfl : views = [] := by simpa using h.symm
      rfl
  | cons p l ih =>
      cases views with
      | nil => simp at h
      | cons e views =>
          obtain ⟨hhead, htail⟩ := List.cons.inj h
          have hshown : display p.2 = .ok e.pair := (congrArg display hhead).trans (display_entry e)
          rw [List.mapM_cons, hshown, ok_bind, ih views htail]
          rfl

theorem pair_perm {views adds : List Added}
    (h : (views.map Added.entry).Perm (adds.map Added.entry)) :
    (views.map Added.pair).Perm (adds.map Added.pair) := by
  have hpair : ∀ l : List Added, l.map Added.pair =
      (l.map Added.entry).map fun b => (display b).toOption.getD ([], []) := by
    intro l
    rw [List.map_map]
    refine List.map_congr_left fun e _ => ?_
    rw [Function.comp_apply, display_entry]
    rfl
  rw [hpair, hpair]
  exact h.map _

-- A reader goes through the table from the front, at a snapshot, while newer additions come
-- in store by store. Of what it may see it is shown each addition that was in the table
-- when it set out, once and in order, and nothing else.
theorem scan_isolated (user : Comparator) (hu : TotalPreorder user.compare) (uses : List Use)
    (huses : ∀ u ∈ uses, u.Allowed) :
    ∃ s, System.run (keyComparator user) (uses.map Use.act) = .ok s ∧
      ∀ before during r target found loads,
        s.history = before ++ .returned r (setOut target).op found loads :: during →
        (∀ k ∈ target, 8 ≤ k.length ∧ k.length < 2 ^ 32) →
        (∀ op found loads, .returned r op found loads ∈ during → op = .next) →
        (s.readers r).place = none →
        ∃ adds later views : List Added,
          insertedKeys before = adds.map Added.entry ∧
          insertedKeys during = later.map Added.entry ∧
          (∀ e ∈ adds ++ later, .add e ∈ uses) ∧
          ((Trip.start (entryOrder user) (setOut target) before found).follow (entryOrder user) r
            during).yielded.mapM (fun e => display e.2) = .ok (views.map Added.pair) ∧
          (views.Pairwise fun e f => internalOrder user e.internalKey f.internalKey ≤ 0) ∧
          ∀ snap, (∀ e ∈ later, snap < e.sequence) →
            ((views.filter fun e => decide (e.sequence ≤ snap)).map Added.pair).Perm
              ((adds.filter fun e => decide (AtOrBehind user target e ∧ e.sequence ≤ snap)).map
                Added.pair) := by
  have hc := entryOrder_totalPreorder hu
  obtain ⟨s, sheet, hrun, hreplays, hplaces, hheld⟩ := uses_replay hu uses huses
  refine ⟨s, hrun, fun before during r target found loads hhistory htarget honly hplace => ?_⟩
  have hordered := replays_ordered hc hreplays
  rw [hhistory] at hreplays hheld hordered
  have htravels := replays_travels hc before during found loads hreplays honly
  obtain ⟨sheet₁, sheet₂, hbefore, -, -⟩ := hreplays.split
  have hnodup : (arrived before).Nodup :=
    (replays_ordered hc hbefore).perm.nodup_iff.mp (replays_ordered hc hbefore).nodup.of_map
  have hkeys : insertedKeys (before ++ .returned r (setOut target).op found loads :: during) =
      insertedKeys before ++ insertedKeys during := by
    rw [insertedKeys, List.filterMap_append]
    rfl
  rw [hkeys] at hheld
  obtain ⟨adds, hadds, haddsUses⟩ := exists_adds (insertedKeys before) fun b hb =>
    hheld b (List.mem_append_left _ hb)
  obtain ⟨later, hlater, hlaterUses⟩ := exists_adds (insertedKeys during) fun b hb =>
    hheld b (List.mem_append_right _ hb)
  have hfilter := Travels.filter_perm hc hordered htravels hnodup ((hplaces r).trans hplace)
  generalize (Trip.start (entryOrder user) (setOut target) before found).follow (entryOrder user) r
    during = t at htravels hfilter ⊢
  -- what the reader has yielded came in, so it is made of entries of additions
  obtain ⟨views, hviews, -⟩ := exists_adds (t.yielded.map fun e => e.2) fun b hb => by
    obtain ⟨e, he, rfl⟩ := List.mem_map.mp hb
    have harrived := List.mem_map_of_mem (f := fun e => e.2)
      (hordered.perm.mem_iff.mp (htravels.yielded e he))
    rw [← insertedKeys_eq, hkeys] at harrived
    exact hheld _ harrived
  refine ⟨adds, later, views, hadds, hlater, fun e he => ?_, display_all _ _ hviews, ?_,
    fun snap hsnap => pair_perm ?_⟩
  · exact (List.mem_append.mp he).elim (haddsUses e) (hlaterUses e)
  · have hsorted : (t.yielded.map fun e => e.2).Pairwise fun a b => entryOrder user a b ≤ 0 :=
      List.pairwise_map.mpr (htravels.sorted.imp fun hlt => hlt.le)
    rw [hviews, List.pairwise_map] at hsorted
    refine hsorted.imp fun {e f} hle => ?_
    rwa [entryOrder, e.entry_prefixed.internalKeyOf_eq, f.entry_prefixed.internalKeyOf_eq] at hle
  · -- an entry tells the number of its addition
    have hnewer : ∀ e ∈ arrived during,
        decide (tagOf (internalKeyOf e.2) / 256 ≤ snap) = false := by
      intro e he
      have hmem := List.mem_map_of_mem (f := fun e => e.2) he
      rw [← insertedKeys_eq, hlater] at hmem
      obtain ⟨added, hadded, heq⟩ := List.mem_map.mp hmem
      have hlt := hsnap added hadded
      rw [← heq, added.sequence_eq]
      exact decide_eq_false (Nat.not_le_of_lt hlt)
    have hperm := (hfilter _ hnewer).map fun e => e.2
    rw [insertedKeys_eq] at hadds
    rw [covered, List.filter_filter,
      entries_filter hviews _ (fun e => decide (e.sequence ≤ snap)),
      entries_filter hadds _
        (fun e => decide (AtOrBehind user target e ∧ e.sequence ≤ snap))] at hperm
    · exact hperm
    · intro x e
      rw [decide_eq_decide.mpr (setOut_covers user target htarget e), e.sequence_eq, Bool.and_comm,
        Bool.decide_and]
    · intro x e
      rw [e.sequence_eq]

-- While a reader stands on the first version, a later one of another key comes in ahead.
def passedUses : List Use :=
  (ascendingAdds.take 1).map .add ++ List.replicate 6 .store ++
    [.iterate 0 .seekToFirst, .load 0] ++ (ascendingAdds.drop 1 |>.take 1).map .add ++
      List.replicate 4 .store ++ [.iterate 0 .next, .load 0, .iterate 0 .next, .load 0]

-- It is shown both, and only the first belongs to the snapshot.
theorem scan_isolated_sample : ∃ adds views : List Added, adds.length = 1 ∧
    views.map Added.pair = [([107, 1, 1, 0, 0, 0, 0, 0, 0], [118]),
      ([108, 1, 2, 0, 0, 0, 0, 0, 0], [])] ∧
      ((views.filter fun e => decide (e.sequence ≤ 1)).map Added.pair).Perm
        ((adds.filter fun e => decide (AtOrBehind bytewiseComparator none e ∧
          e.sequence ≤ 1)).map Added.pair) := by
  obtain ⟨s, hrun, hscan⟩ := scan_isolated bytewiseComparator
    Slice.compare_totalOrder.toTotalPreorder passedUses (by
      intro u hu
      cases u with
      | iterate r op =>
          have hop : op = .seekToFirst ∨ op = .next := by
            have hcases : r = 0 ∧ op = .seekToFirst ∨ r = 0 ∧ op = .next := by
              simpa [passedUses, -List.map_take, -List.map_drop] using hu
            exact hcases.imp And.right And.right
          rcases hop with rfl | rfl <;> trivial
      | get r k snap => simp [passedUses, -List.map_take, -List.map_drop] at hu
      | add e => trivial
      | store => trivial
      | load r => trivial)
  have hshown : (fun s : System Bytes => (s.history, (s.readers 0).place)) <$>
      System.run (keyComparator bytewiseComparator) (passedUses.map Use.act) =
        .ok ([.insertCalled [9, 107, 1, 1, 0, 0, 0, 0, 0, 0, 1, 118],
          .inserted 1 [9, 107, 1, 1, 0, 0, 0, 0, 0, 0, 1, 118], .insertReturned,
          .called 0 .seekToFirst] ++
            .returned 0 (setOut none).op (some (1, [9, 107, 1, 1, 0, 0, 0, 0, 0, 0, 1, 118])) 1 ::
              [.insertCalled [9, 108, 1, 2, 0, 0, 0, 0, 0, 0, 0],
                .inserted 2 [9, 108, 1, 2, 0, 0, 0, 0, 0, 0, 0], .insertReturned, .called 0 .next,
                .returned 0 .next (some (2, [9, 108, 1, 2, 0, 0, 0, 0, 0, 0, 0])) 1,
                .called 0 .next, .returned 0 .next none 1], none) := rfl
  rw [hrun] at hshown
  obtain ⟨hsplit, hdone⟩ := Prod.mk.inj (Except.ok.inj hshown)
  obtain ⟨adds, later, views, hadds, hlater, -, hviews, -, hsnapshot⟩ := hscan _ _ _ _ _ _ hsplit
    (by simp) (by
      intro op found loads hmem
      have hcases : op = .next ∧ found = some (2, [9, 108, 1, 2, 0, 0, 0, 0, 0, 0, 0]) ∧ loads = 1 ∨
          op = .next ∧ found = none ∧ loads = 1 := by simpa using hmem
      rcases hcases with ⟨hop, -⟩ | ⟨hop, -⟩ <;> exact hop) hdone
  refine ⟨adds, views, ?_, (Except.ok.inj hviews).symm, hsnapshot 1 fun e he => ?_⟩
  · have hlength := congrArg List.length hadds
    rw [List.length_map] at hlength
    exact hlength.symm
  · have hmem : e.entry ∈ later.map Added.entry := List.mem_map_of_mem he
    rw [← hlater] at hmem
    have hentry : e.entry = [9, 108, 1, 2, 0, 0, 0, 0, 0, 0, 0] := List.mem_singleton.mp hmem
    rw [← e.sequence_eq, hentry]
    decide

end Mylldb.MemTable

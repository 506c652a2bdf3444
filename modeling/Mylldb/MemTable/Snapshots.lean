import Mylldb.Lib.Versions
import Mylldb.MemTable.Theorems

namespace Mylldb.MemTable

open Lib.Run Lib.ThreeWay Lib.Versions SkipList

instance {user : Comparator} {k : Bytes} {snap : Nat} {e : Added} :
    Decidable (Visible user k snap e) :=
  inferInstanceAs (Decidable (_ ∧ _))

-- The additions that a lookup may see, in the order of the calls.
def seen (user : Comparator) (adds : List Added) (k : Bytes) (snap : Nat) : List Added :=
  adds.filter fun e => decide (Visible user k snap e)

-- What a lookup makes of the version that it finds.
def outcome (found : Option Added) (value : Bytes) (s : Status) : Bool × Bytes × Status :=
  match found with
  | none => (false, value, s)
  | some e => answer e value s

variable {user : Comparator} {adds : List Added} {k : Bytes} {snap : Nat}

theorem seen_eq_nil (h : ∀ e ∈ adds, ¬Visible user k snap e) : seen user adds k snap = [] :=
  List.filter_eq_nil_iff.mpr fun e he => by simpa using h e he

theorem latest_of_decides {i : Nat} {e : Added} (h : Decides user adds k snap i e) :
    latest Added.tag (seen user adds k snap) = some e := by
  obtain ⟨he, hvisible, hmax⟩ := h
  obtain ⟨hi, rfl⟩ := List.getElem?_eq_some_iff.mp he
  have hsplit : seen user adds k snap = seen user (adds.take i) k snap ++
      adds[i] :: seen user (adds.drop (i + 1)) k snap := by
    unfold seen
    conv_lhs => rw [← List.take_append_drop i adds, List.drop_eq_getElem_cons hi]
    rw [List.filter_append, List.filter_cons_of_pos (by simpa using hvisible)]
  rw [hsplit]
  apply latest_eq_some
  · intro f hf
    obtain ⟨hmem, hf⟩ := List.mem_filter.mp hf
    obtain ⟨j, hj⟩ := List.mem_iff_getElem?.mp (List.mem_of_mem_take hmem)
    have := hmax j f hj (of_decide_eq_true hf)
    omega
  · intro f hf
    obtain ⟨hmem, hf⟩ := List.mem_filter.mp hf
    obtain ⟨j, hj⟩ := List.mem_iff_getElem?.mp hmem
    rw [List.getElem?_drop] at hj
    have := hmax _ f hj (of_decide_eq_true hf)
    omega

-- A lookup finds the latest version that it may see.
theorem Holds.get_latest {m : MemTable} {order : List Nat} (h : Holds user adds m order)
    (hu : TotalOrder user.compare) (hsnap : snap ≤ kMaxSequenceNumber)
    (hk : 8 ≤ (k.length + 8) % 2 ^ 32) (value : Bytes) (s : Status) :
    get user m (LookupKey.made k snap) value s =
      .ok (outcome (latest Added.tag (seen user adds k snap)) value s) := by
  have hpre := hu.toTotalPreorder
  cases hhead : (order.filter fun x =>
      !m.table.lessThan (entryOrder user) (LookupKey.made k snap).memtableKey x).head? with
  | none =>
      rw [h.get_missing hpre hk value s hhead, seen_eq_nil fun e he hvisible => ?_]
      · rfl
      · obtain ⟨j, hj⟩ := List.mem_iff_getElem?.mp he
        obtain ⟨hmem, -, hnot⟩ := h.visible_node hu k snap hsnap j e hj hvisible
        exact (List.filter_eq_nil_iff.mp (List.head?_eq_none_iff.mp hhead)) _ hmem hnot
  | some x =>
      obtain ⟨e, hfound⟩ := h.found hhead
      rw [h.get_found hpre hk value s hfound]
      by_cases hzero : user.compare e.key k = 0
      · rw [if_pos hzero, latest_of_decides (h.head_decides hu hsnap hfound hzero)]
        rfl
      · rw [if_neg hzero, seen_eq_nil (h.head_hides hu hsnap hfound hzero)]
        rfl

theorem addAll_get_latest (hu : TotalOrder user.compare) (adds : List Added) (k : Bytes)
    (snap : Nat) (hsnap : snap ≤ kMaxSequenceNumber) (hk : 8 ≤ (k.length + 8) % 2 ^ 32) :
    ∃ m, addAll user adds = .ok m ∧ ∀ value s, get user m (LookupKey.made k snap) value s =
      .ok (outcome (latest Added.tag (seen user adds k snap)) value s) := by
  obtain ⟨m, order, hm, h⟩ := addAll_holds user hu.toTotalPreorder adds
  exact ⟨m, hm, h.get_latest hu hsnap hk⟩

theorem Added.type_le (e : Added) : e.type.toNat ≤ 1 := by
  cases e.type <;> decide

theorem Added.tag_lt_tag {e f : Added} (h : e.sequence < f.sequence) : e.tag < f.tag := by
  have htype := e.type_le
  unfold Added.tag packedTag
  omega

-- The tag of a lookup is that of the last version with its number.
theorem visible_iff (hu : TotalOrder user.compare) {e : Added} :
    Visible user k snap e ↔ e.key = k ∧ e.sequence ≤ snap := by
  have hzero : user.compare e.key k = 0 ↔ e.key = k := by
    constructor
    · exact hu.eq_of_zero e.key k
    · rintro rfl
      exact hu.refl _
  have htag : e.tag ≤ packedTag snap kValueTypeForSeek ↔ e.sequence ≤ snap := by
    have htype := e.type_le
    have hseek : kValueTypeForSeek.toNat = 1 := rfl
    unfold Added.tag packedTag
    omega
  rw [Visible, hzero, htag]

-- Additions are left out: other keys, and whatever is newer than the snapshot.
theorem seen_filter (hu : TotalOrder user.compare) (adds : List Added) :
    seen user adds k snap = adds.filter fun e => decide (e.key = k ∧ e.sequence ≤ snap) := by
  unfold seen
  apply List.filter_congr
  intro e _
  exact decide_eq_decide.mpr (visible_iff hu)

-- What a call of `Add` is given. The height of the node is drawn inside.
structure Version where
  sequence : Nat
  type : ValueType
  key : Bytes
  value : Bytes
  deriving DecidableEq

def Version.tag (v : Version) : Nat := packedTag v.sequence v.type

def Added.version (e : Added) : Version := ⟨e.sequence, e.type, e.key, e.value⟩

-- A lookup makes the same of two versions that differ in the heights of their nodes.
theorem outcome_congr {found found' : Option Added}
    (h : found.map Added.version = found'.map Added.version) (value : Bytes) (s : Status) :
    outcome found value s = outcome found' value s := by
  cases found with
  | none =>
      rw [Option.map_none] at h
      rw [Option.map_eq_none_iff.mp h.symm]
  | some e =>
      obtain ⟨e', rfl, hversion⟩ := Option.map_eq_some_iff.mp h.symm
      obtain ⟨-, htype, -, hvalue⟩ := Version.mk.inj hversion
      rw [outcome, outcome, answer, answer, htype, hvalue]

-- The versions of a key up to a snapshot.
def upTo (k : Bytes) (snap : Nat) (versions : List Version) : List Version :=
  versions.filter fun v => decide (v.key = k ∧ v.sequence ≤ snap)

theorem latest_version (hu : TotalOrder user.compare) (adds : List Added) :
    (latest Added.tag (seen user adds k snap)).map Added.version =
      latest Version.tag (upTo k snap (adds.map Added.version)) := by
  rw [seen_filter hu, upTo, List.filter_map, latest_map]
  rfl

-- Two runs answer a lookup alike when its versions have the same latest one.
theorem get_alike (hu : TotalOrder user.compare) {adds adds' : List Added}
    (hsnap : snap ≤ kMaxSequenceNumber) (hk : 8 ≤ (k.length + 8) % 2 ^ 32)
    (hlatest : latest Version.tag (upTo k snap (adds.map Added.version)) =
      latest Version.tag (upTo k snap (adds'.map Added.version))) :
    ∃ m m' key, addAll user adds = .ok m ∧ addAll user adds' = .ok m' ∧
      LookupKey.new k snap = .ok key ∧
        ∀ value s, get user m key value s = get user m' key value s := by
  obtain ⟨m, hm, hget⟩ := addAll_get_latest hu adds k snap hsnap hk
  obtain ⟨m', hm', hget'⟩ := addAll_get_latest hu adds' k snap hsnap hk
  refine ⟨m, m', _, hm, hm', LookupKey.new_eq k snap hsnap, fun value s => ?_⟩
  rw [hget, hget']
  refine congrArg _ (outcome_congr ?_ value s)
  rw [latest_version hu, latest_version hu, hlatest]

-- A lookup at a snapshot is the same in any two runs that added the same versions of the
-- key up to the snapshot in the same order, whatever else they added and when.
theorem snapshot_isolated (user : Comparator) (hu : TotalOrder user.compare)
    (adds adds' : List Added) (k : Bytes) (snap : Nat) (hsnap : snap ≤ kMaxSequenceNumber)
    (hk : 8 ≤ (k.length + 8) % 2 ^ 32)
    (hsame : upTo k snap (adds.map Added.version) = upTo k snap (adds'.map Added.version)) :
    ∃ m m' key, addAll user adds = .ok m ∧ addAll user adds' = .ok m' ∧
      LookupKey.new k snap = .ok key ∧
        ∀ value s, get user m key value s = get user m' key value s :=
  get_alike hu hsnap hk (congrArg (latest Version.tag) hsame)

-- The same addition with a node of another one's height.
def Added.atHeightOf (f e : Added) : Added :=
  { e with height := f.height, height_pos := f.height_pos, height_le := f.height_le }

-- The later version of the key and the other key are no part of the snapshot.
theorem snapshot_isolated_sample : ∃ m m' key, addAll bytewiseComparator sampleAdds = .ok m ∧
    addAll bytewiseComparator ([sampleAdds[1]].map (Added.atHeightOf emptyEntry)) = .ok m' ∧
      LookupKey.new [107] 2 = .ok key ∧
        ∀ value s, get bytewiseComparator m key value s = get bytewiseComparator m' key value s :=
  snapshot_isolated bytewiseComparator Slice.compare_totalOrder sampleAdds _ [107] 2 (by decide)
    (by decide) rfl

-- Additions whose tags differ under one key may arrive in any order: no lookup tells.
theorem arrival_irrelevant (user : Comparator) (hu : TotalOrder user.compare)
    (adds adds' : List Added)
    (hperm : (adds.map Added.version).Perm (adds'.map Added.version))
    (hdistinct : adds.Pairwise fun e f => e.key = f.key → e.tag ≠ f.tag) (k : Bytes) (snap : Nat)
    (hsnap : snap ≤ kMaxSequenceNumber) (hk : 8 ≤ (k.length + 8) % 2 ^ 32) :
    ∃ m m' key, addAll user adds = .ok m ∧ addAll user adds' = .ok m' ∧
      LookupKey.new k snap = .ok key ∧
        ∀ value s, get user m key value s = get user m' key value s := by
  have htags : (upTo k snap (adds.map Added.version)).Pairwise fun v w => v.tag ≠ w.tag := by
    apply List.pairwise_filter.mpr
    apply List.pairwise_map.mpr
    refine hdistinct.imp fun {e f} hne he hf => hne ?_
    have hek : e.key = k := (of_decide_eq_true he).1
    have hfk : f.key = k := (of_decide_eq_true hf).1
    rw [hek, hfk]
  exact get_alike hu hsnap hk (latest_perm (hperm.filter _) htags)

theorem arrival_irrelevant_sample : ∃ m m' key, addAll bytewiseComparator sampleAdds = .ok m ∧
    addAll bytewiseComparator (sampleAdds.reverse.map (Added.atHeightOf emptyEntry)) = .ok m' ∧
      LookupKey.new [107] 5 = .ok key ∧
        ∀ value s, get bytewiseComparator m key value s = get bytewiseComparator m' key value s :=
  arrival_irrelevant bytewiseComparator Slice.compare_totalOrder sampleAdds _ (by decide)
    (by decide) [107] 5 (by decide) (by decide)

-- When the numbers ascend, a lookup at a snapshot is a look into a plain map after the
-- additions up to the snapshot.
theorem get_replays (user : Comparator) (hu : TotalOrder user.compare) (adds : List Added)
    (hascend : adds.Pairwise fun e f => e.sequence < f.sequence) (k : Bytes) (snap : Nat)
    (hsnap : snap ≤ kMaxSequenceNumber) (hk : 8 ≤ (k.length + 8) % 2 ^ 32) :
    ∃ m key, addAll user adds = .ok m ∧ LookupKey.new k snap = .ok key ∧
      ∀ value s, get user m key value s = .ok (outcome
        (replay Added.key (adds.takeWhile fun e => decide (e.sequence ≤ snap)) k) value s) := by
  obtain ⟨m, hm, hget⟩ := addAll_get_latest hu adds k snap hsnap hk
  refine ⟨m, _, hm, LookupKey.new_eq k snap hsnap, fun value s => ?_⟩
  have htags : (seen user adds k snap).Pairwise fun e f => e.tag < f.tag :=
    (hascend.imp fun hlt => Added.tag_lt_tag hlt).filter _
  rw [hget, latest_sorted htags, replay_eq, ← filter_eq_takeWhile hascend, List.filter_filter,
    seen_filter hu]
  simp only [Bool.decide_and]

-- A value under the number 1 and its deletion under the number 3.
def ascendingAdds : List Added := sampleAdds.drop 1 ++ sampleAdds.take 1

theorem get_replays_sample : ∃ m key, addAll bytewiseComparator ascendingAdds = .ok m ∧
    LookupKey.new [107] 2 = .ok key ∧
      get bytewiseComparator m key [] .ok = .ok (true, [118], .ok) := by
  obtain ⟨m, key, hm, hkey, hget⟩ := get_replays bytewiseComparator Slice.compare_totalOrder
    ascendingAdds (by decide) [107] 2 (by decide) (by decide)
  refine ⟨m, key, hm, hkey, (hget [] .ok).trans ?_⟩
  rw [replay_eq]
  rfl

end Mylldb.MemTable

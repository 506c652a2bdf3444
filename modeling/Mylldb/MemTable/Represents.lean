import Mylldb.MemTable
import Mylldb.DbFormat.Theorems
import Mylldb.SkipList.Iterator

namespace Mylldb

open Lib.Run Lib.ThreeWay SkipList

theorem getLengthPrefixedSlice_eq (data : Bytes) (p v : Nat) (hv : v < 2 ^ 32)
    (hat : StandsAt data p (encodeVarint32 v)) :
    getLengthPrefixedSlice data p = .ok (p + (encodeVarint32 v).length, v) := by
  have hlen := (encodeVarint32_spec v hv).2.2.2
  simp [getLengthPrefixedSlice, getVarint32Ptr_encode data p (p + 5) v hv hat (by omega)]

-- A buffer that starts with a length-prefixed internal key.
structure Prefixed (buf internalKey : Bytes) : Prop where
  stands : StandsAt buf 0 (encodeVarint32 internalKey.length ++ internalKey)
  fits : internalKey.length < 2 ^ 32
  tagged : 8 ≤ internalKey.length

namespace Prefixed

variable {buf internalKey : Bytes}

theorem slice (h : Prefixed buf internalKey) : getLengthPrefixedSlice buf 0 =
    .ok ((encodeVarint32 internalKey.length).length, internalKey.length) := by
  rw [getLengthPrefixedSlice_eq buf 0 _ h.fits h.stands.left, Nat.zero_add]

theorem range (h : Prefixed buf internalKey) :
    readRange buf (encodeVarint32 internalKey.length).length internalKey.length =
      .ok internalKey := by
  have hle := h.stands.left.le_length (Nat.zero_le _)
  have hright := h.stands.right
  rw [Nat.zero_add] at hle hright
  exact hright.readRange_eq hle

end Prefixed

-- The internal key of an entry, for every buffer.
def internalKeyOf (buf : Bytes) : Bytes :=
  match getLengthPrefixedSlice buf 0 with
  | .error _ => []
  | .ok (p, len) => (buf.drop p).take len

theorem Prefixed.internalKeyOf_eq {buf internalKey : Bytes} (h : Prefixed buf internalKey) :
    internalKeyOf buf = internalKey := by
  have hright := h.stands.right
  rw [Nat.zero_add] at hright
  rw [internalKeyOf, h.slice]
  exact (List.prefix_iff_eq_take.mp hright).symm

namespace MemTable

def entryOrder (user : Comparator) (a b : Bytes) : Int :=
  internalOrder user (internalKeyOf a) (internalKeyOf b)

theorem entryOrder_totalPreorder {user : Comparator} (hu : TotalPreorder user.compare) :
    TotalPreorder (entryOrder user) :=
  (internalOrder_totalPreorder hu).comap internalKeyOf

theorem keyComparator_eq (user : Comparator) {a b ka kb : Bytes} (ha : Prefixed a ka)
    (hb : Prefixed b kb) : keyComparator user a b = .ok (entryOrder user a b) := by
  simp only [keyComparator, ha.slice, hb.slice, ok_bind, ha.range, hb.range,
    internalCompare_eq user ka kb ha.tagged hb.tagged, entryOrder, ha.internalKeyOf_eq,
    hb.internalKeyOf_eq]

-- The arguments of a call of `Add`, and the height drawn for its node.
structure Added where
  height : Nat
  sequence : Nat
  type : ValueType
  key : Bytes
  value : Bytes
  height_pos : 1 ≤ height
  height_le : height ≤ kMaxHeight
  sequence_le : sequence ≤ kMaxSequenceNumber
  key_fits : key.length + 8 < 2 ^ 32
  value_fits : value.length < 2 ^ 32

namespace Added

def tag (e : Added) : Nat := packedTag e.sequence e.type

def internalKey (e : Added) : Bytes := makeInternalKey e.key e.tag

def entry (e : Added) : Bytes :=
  encodeVarint32 e.internalKey.length ++ e.internalKey ++
    (encodeVarint32 e.value.length ++ e.value)

theorem tag_lt (e : Added) : e.tag < 2 ^ 64 := packedTag_lt e.sequence e.type e.sequence_le

@[simp] theorem internalKey_length (e : Added) : e.internalKey.length = e.key.length + 8 :=
  makeInternalKey_length e.key e.tag

@[simp] theorem userPart_internalKey (e : Added) : userPart e.internalKey = e.key :=
  userPart_make e.key e.tag

@[simp] theorem tagOf_internalKey (e : Added) : tagOf e.internalKey = e.tag :=
  tagOf_make e.key e.tag e.tag_lt

theorem entry_prefixed (e : Added) : Prefixed e.entry e.internalKey where
  stands := StandsAt.intro [] (encodeVarint32 e.value.length ++ e.value)
  fits := by
    rw [internalKey_length]
    exact e.key_fits
  tagged := by simp

-- The internal key is the user key, and the tag after it.
theorem entry_key (e : Added) :
    readRange e.entry (encodeVarint32 e.internalKey.length).length
        (sub32 e.internalKey.length 8) = .ok e.key ∧
      decodeFixed64 e.entry
        ((encodeVarint32 e.internalKey.length).length + e.internalKey.length - 8) = .ok e.tag := by
  have hentry := e.entry_prefixed
  have hstands : StandsAt e.entry (0 + (encodeVarint32 e.internalKey.length).length)
      (e.key ++ encodeFixed64 e.tag) := hentry.stands.right
  have hle := hentry.stands.left.le_length (Nat.zero_le _)
  rw [Nat.zero_add] at hstands hle
  have hsub : sub32 e.internalKey.length 8 = e.key.length := by
    rw [sub32_of_le hentry.tagged, internalKey_length, Nat.add_sub_cancel]
  have hend : (encodeVarint32 e.internalKey.length).length + e.internalKey.length - 8 =
      (encodeVarint32 e.internalKey.length).length + e.key.length := by
    rw [internalKey_length]
    omega
  rw [hsub, hend]
  exact ⟨hstands.left.readRange_eq hle,
    decodeFixed64_eq _ _ _ e.tag_lt hstands.right (hstands.left.le_length hle)⟩

-- The value follows the internal key under its own length.
theorem entry_value (e : Added) (p : Nat)
    (hp : p = (encodeVarint32 e.internalKey.length).length + e.internalKey.length) :
    getLengthPrefixedSlice e.entry p =
        .ok (p + (encodeVarint32 e.value.length).length, e.value.length) ∧
      readRange e.entry (p + (encodeVarint32 e.value.length).length) e.value.length =
        .ok e.value := by
  have hstands : StandsAt e.entry p (encodeVarint32 e.value.length ++ e.value) := by
    have h : StandsAt (_ ++ (encodeVarint32 e.value.length ++ e.value) ++ []) _ _ :=
      StandsAt.intro (encodeVarint32 e.internalKey.length ++ e.internalKey) []
    simpa [entry, hp] using h
  have hle : p ≤ e.entry.length := by
    simp only [entry, List.length_append, hp]
    omega
  refine ⟨getLengthPrefixedSlice_eq _ _ _ e.value_fits hstands.left, ?_⟩
  exact hstands.right.readRange_eq (hstands.left.le_length hle)

theorem encodeEntry_eq (e : Added) :
    encodeEntry e.sequence e.type e.key e.value = .ok e.entry := by
  have hkey := (encodeVarint32_spec _ e.key_fits).2.2.1
  have hvalue := (encodeVarint32_spec _ e.value_fits).2.2.1
  simp only [encodeEntry, shift_or_type _ _ e.sequence_le, Nat.mod_eq_of_lt e.key_fits,
    Nat.mod_eq_of_lt e.value_fits]
  rw [if_pos, assertThat_pos]
  · simp [entry, internalKey, makeInternalKey, tag]
  · simp only [List.length_append, encodeFixed64_length, hkey, hvalue]
    omega
  · simp only [List.length_append, encodeFixed64_length, hkey, hvalue]
    omega

end Added

def addAll (user : Comparator) (adds : List Added) : Exec MemTable :=
  adds.foldlM (fun m e => m.add user e.height e.sequence e.type e.key e.value) empty

def inserts (adds : List Added) : List (Nat × Bytes) := adds.map fun e => (e.height, e.entry)

theorem add_eq (user : Comparator) (m : MemTable) (e : Added) :
    m.add user e.height e.sequence e.type e.key e.value =
      MemTable.mk <$> m.table.insert (keyComparator user) e.height e.entry := by
  simp only [add, e.encodeEntry_eq, ok_bind]
  rfl

-- The calls of `Add` are calls of `Insert` on the entries.
theorem addAll_eq (user : Comparator) (adds : List Added) :
    addAll user adds = MemTable.mk <$> insertAll (keyComparator user) (inserts adds) := by
  have hrun : ∀ m : MemTable,
      adds.foldlM (fun m e => m.add user e.height e.sequence e.type e.key e.value) m =
        MemTable.mk <$> (inserts adds).foldlM
          (fun l p => l.insert (keyComparator user) p.1 p.2) m.table := by
    induction adds with
    | nil => intro m; rfl
    | cons e adds ih =>
        intro m
        rw [inserts, List.map_cons, List.foldlM_cons, List.foldlM_cons, add_eq]
        cases m.table.insert (keyComparator user) e.height e.entry with
        | error fault => rfl
        | ok table => exact ih ⟨table⟩
  exact hrun empty

-- What a table holds after a run: node `i + 1` is the entry of the `i`-th call.
structure Holds (user : Comparator) (adds : List Added) (m : MemTable) (order : List Nat) :
    Prop where
  represents : Represents (entryOrder user) m.table order
  history : History (inserts adds) m.table

theorem addAll_holds (user : Comparator) (hu : TotalPreorder user.compare) (adds : List Added) :
    ∃ m order, addAll user adds = .ok m ∧ Holds user adds m order := by
  have hmem : ∀ p ∈ inserts adds, ∃ e : Added, p = (e.height, e.entry) := by
    intro p hp
    obtain ⟨e, -, rfl⟩ := List.mem_map.mp hp
    exact ⟨e, rfl⟩
  obtain ⟨l, hl, hhist, order, hrep⟩ := insertAll_represents (keyComparator user)
    (entryOrder user) (entryOrder_totalPreorder hu) (inserts adds)
    (by
      intro p hp
      obtain ⟨e, rfl⟩ := hmem p hp
      exact ⟨e.height_pos, e.height_le⟩)
    (by
      intro p hp q hq
      obtain ⟨e, rfl⟩ := hmem p hp
      obtain ⟨f, rfl⟩ := hmem q hq
      exact keyComparator_eq user e.entry_prefixed f.entry_prefixed)
  refine ⟨⟨l⟩, order, ?_, hrep, hhist⟩
  rw [addAll_eq, hl]
  rfl

namespace Holds

variable {user : Comparator} {adds : List Added} {m : MemTable} {order : List Nat}

-- Each node on the bottom level carries the entry of one call.
theorem added (h : Holds user adds m order) (x : Nat) (hx : x ∈ order) :
    ∃ e, adds[x - 1]? = some e ∧ m.table.keyOf x = e.entry := by
  obtain ⟨hpos, hlt⟩ := h.represents.lt_length x hx
  have hlen := h.history.length
  rw [inserts, List.length_map] at hlen
  have hget : adds[x - 1]? = some adds[x - 1] := List.getElem?_eq_getElem (by omega)
  refine ⟨_, hget, ?_⟩
  have hkey := h.history.keyOf (x - 1) (adds[x - 1].height, adds[x - 1].entry)
    (by simp [inserts, hget])
  rwa [Nat.sub_add_cancel hpos] at hkey

theorem mem_order (h : Holds user adds m order) (i : Nat) (e : Added)
    (he : adds[i]? = some e) : i + 1 ∈ order ∧ m.table.keyOf (i + 1) = e.entry := by
  have hlt := (List.getElem?_eq_some_iff.mp he).1
  have hlen := h.history.length
  rw [inserts, List.length_map] at hlen
  refine ⟨h.represents.perm.mem_iff.mpr ?_, ?_⟩
  · rw [List.mem_range'_1]
    omega
  · exact h.history.keyOf i (e.height, e.entry) (by simp [inserts, he])

theorem agrees (h : Holds user adds m order) {target internalKey : Bytes}
    (ht : Prefixed target internalKey) :
    Agrees (keyComparator user) (entryOrder user) m.table order target := by
  intro x hx
  obtain ⟨e, -, hkey⟩ := h.added x hx
  rw [hkey]
  exact keyComparator_eq user e.entry_prefixed ht

end Holds

-- The bottom level is in the order of the internal keys.
theorem keyOf_precedes (user : Comparator) (m : MemTable) (x y : Nat) (e f : Added)
    (hx : m.table.keyOf x = e.entry) (hy : m.table.keyOf y = f.entry)
    (hxy : entryOrder user (m.table.keyOf x) (m.table.keyOf y) < 0 ∨
      entryOrder user (m.table.keyOf x) (m.table.keyOf y) = 0 ∧ y < x) :
    user.compare e.key f.key < 0 ∨ user.compare e.key f.key = 0 ∧
      (f.tag < e.tag ∨ f.tag = e.tag ∧ y < x) := by
  simp only [hx, hy, entryOrder, e.entry_prefixed.internalKeyOf_eq,
    f.entry_prefixed.internalKeyOf_eq, internalOrder_neg_iff, internalOrder_zero_iff,
    Added.userPart_internalKey, Added.tagOf_internalKey] at hxy
  omega

end MemTable

end Mylldb

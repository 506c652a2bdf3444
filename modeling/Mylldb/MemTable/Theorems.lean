import Mylldb.MemTable.Represents

namespace Mylldb

open Lib.Run Lib.ThreeWay SkipList

namespace MemTable

-- The additions that a lookup of `k` at `snap` may see.
def Visible (user : Comparator) (k : Bytes) (snap : Nat) (e : Added) : Prop :=
  user.compare e.key k = 0 ∧ e.tag ≤ packedTag snap kValueTypeForSeek

-- The `i`-th addition `e` decides a lookup: it is visible, and every other
-- visible one has a smaller tag or was added before it.
def Decides (user : Comparator) (adds : List Added) (k : Bytes) (snap i : Nat) (e : Added) :
    Prop :=
  adds[i]? = some e ∧ Visible user k snap e ∧
    ∀ j f, adds[j]? = some f → Visible user k snap f → f.tag < e.tag ∨ f.tag = e.tag ∧ j ≤ i

-- What a lookup returns and leaves in `*value` and `*s`.
def answer (e : Added) (value : Bytes) (s : Status) : Bool × Bytes × Status :=
  match e.type with
  | .kTypeValue => (true, e.value, s)
  | .kTypeDeletion => (true, value, Status.notFound "" "")

-- The key a lookup searches for, whose length was cut to 32 bits.
def searchKey (k : Bytes) (snap : Nat) : Bytes :=
  (makeInternalKey k (packedTag snap kValueTypeForSeek)).take ((k.length + 8) % 2 ^ 32)

theorem searchKey_length (k : Bytes) (snap : Nat) :
    (searchKey k snap).length = (k.length + 8) % 2 ^ 32 := by
  have hle : (k.length + 8) % 2 ^ 32 ≤ k.length + 8 := Nat.mod_le _ _
  simp only [searchKey, List.length_take, makeInternalKey_length]
  omega

theorem searchKey_eq (k : Bytes) (snap : Nat) (hk : k.length + 8 < 2 ^ 32) :
    searchKey k snap = makeInternalKey k (packedTag snap kValueTypeForSeek) := by
  rw [searchKey, Nat.mod_eq_of_lt hk]
  exact List.take_of_length_le (by simp)

theorem memtableKey_prefixed (k : Bytes) (snap : Nat) (hk : 8 ≤ (k.length + 8) % 2 ^ 32) :
    Prefixed (LookupKey.made k snap).memtableKey (searchKey k snap) where
  stands := by
    refine ⟨(makeInternalKey k (packedTag snap kValueTypeForSeek)).drop
      ((k.length + 8) % 2 ^ 32), ?_⟩
    rw [searchKey_length, List.append_assoc, searchKey, List.take_append_drop]
    rfl
  fits := by
    rw [searchKey_length]
    exact Nat.mod_lt _ (by decide)
  tagged := by rwa [searchKey_length]

-- The first node that is not before a lookup key is `x`, which holds the addition `e`.
structure Found (user : Comparator) (adds : List Added) (m : MemTable) (order : List Nat)
    (k : Bytes) (snap x : Nat) (e : Added) : Prop where
  pos : 0 < x
  added : adds[x - 1]? = some e
  key_eq : m.table.keyOf x = e.entry
  head : (order.filter fun x =>
    !m.table.lessThan (entryOrder user) (LookupKey.made k snap).memtableKey x).head? = some x

namespace Found

variable {user : Comparator} {adds : List Added} {m : MemTable} {order : List Nat} {k : Bytes}
  {snap x : Nat} {e : Added}

theorem mem (hfound : Found user adds m order k snap x e) : x ∈ order :=
  (List.mem_filter.mp (List.mem_of_head? hfound.head)).1

theorem not_less (hfound : Found user adds m order k snap x e) :
    (!m.table.lessThan (entryOrder user) (LookupKey.made k snap).memtableKey x) = true :=
  (List.mem_filter.mp (List.mem_of_head? hfound.head)).2

-- No other addition belongs to the node.
theorem eq_of_added (hfound : Found user adds m order k snap x e) {j : Nat} {f : Added}
    (hf : adds[j]? = some f) (hjx : j + 1 = x) : f = e := by
  have he := hfound.added
  rw [show x - 1 = j by omega, hf] at he
  exact Option.some.inj he

end Found

namespace Holds

variable {user : Comparator} {adds : List Added} {m : MemTable} {order : List Nat} {k : Bytes}
  {snap x : Nat} {e : Added}

theorem found (h : Holds user adds m order) (hhead : (order.filter fun x =>
      !m.table.lessThan (entryOrder user) (LookupKey.made k snap).memtableKey x).head? = some x) :
    ∃ e, Found user adds m order k snap x e := by
  have hin := (List.mem_filter.mp (List.mem_of_head? hhead)).1
  obtain ⟨e, he, hkey⟩ := h.added x hin
  exact ⟨e, (h.represents.lt_length x hin).1, he, hkey, hhead⟩

-- The entry that a lookup finds is decoded as it was added.
theorem get_found (h : Holds user adds m order) (hu : TotalPreorder user.compare)
    (hk : 8 ≤ (k.length + 8) % 2 ^ 32) (value : Bytes) (s : Status)
    (hfound : Found user adds m order k snap x e) :
    get user m (LookupKey.made k snap) value s =
      .ok (if user.compare e.key k = 0 then answer e value s else (false, value, s)) := by
  have hprefixed := memtableKey_prefixed k snap hk
  have hseek := h.represents.seek_eq (entryOrder_totalPreorder hu) _ (h.agrees hprefixed)
  have hentry := e.entry_prefixed
  have hlen := (encodeVarint32_spec _ hentry.fits).2.2.2
  have hptr := getVarint32Ptr_encode e.entry 0 5 _ hentry.fits hentry.stands.left (by omega)
  obtain ⟨huser, htag⟩ := e.entry_key
  obtain ⟨hvslice, hvrange⟩ := e.entry_value _ rfl
  rw [Nat.zero_add] at hptr
  simp only [get, hseek, hfound.head, ok_bind, Iterator.valid, Option.isSome_some, ite_true,
    h.represents.iterator_key_eq x hfound.mem, hfound.key_eq, hptr, huser, LookupKey.userKey_made, htag,
    hvslice, hvrange, pure_eq, Added.tag, packedTag_type]
  split
  · cases htype : e.type <;> simp [answer, htype, ValueType.toNat]
  · rfl

theorem get_missing (h : Holds user adds m order) (hu : TotalPreorder user.compare)
    (hk : 8 ≤ (k.length + 8) % 2 ^ 32) (value : Bytes) (s : Status)
    (hhead : (order.filter fun x =>
      !m.table.lessThan (entryOrder user) (LookupKey.made k snap).memtableKey x).head? = none) :
    get user m (LookupKey.made k snap) value s = .ok (false, value, s) := by
  have hprefixed := memtableKey_prefixed k snap hk
  have hseek := h.represents.seek_eq (entryOrder_totalPreorder hu) _ (h.agrees hprefixed)
  simp [get, hseek, hhead, Iterator.valid]

end Holds

-- A node is not before the lookup key when its user key comes later or its
-- version is visible.
theorem notLess_iff (user : Comparator) (m : MemTable) (k : Bytes) (snap : Nat)
    (hsnap : snap ≤ kMaxSequenceNumber) (hk : k.length + 8 < 2 ^ 32) (x : Nat) (e : Added)
    (hx : m.table.keyOf x = e.entry) :
    (!m.table.lessThan (entryOrder user) (LookupKey.made k snap).memtableKey x) = true ↔
      0 < user.compare e.key k ∨ Visible user k snap e := by
  have hprefixed := memtableKey_prefixed k snap (by omega)
  rw [searchKey_eq k snap hk] at hprefixed
  have hiff := internalOrder_neg_iff user e.internalKey
    (makeInternalKey k (packedTag snap kValueTypeForSeek))
  simp only [Added.userPart_internalKey, Added.tagOf_internalKey, userPart_make,
    tagOf_make _ _ (packedTag_lt snap kValueTypeForSeek hsnap)] at hiff
  simp only [lessThan, hx, entryOrder, e.entry_prefixed.internalKeyOf_eq,
    hprefixed.internalKeyOf_eq, Bool.not_eq_true', decide_eq_false_iff_not, hiff, Visible]
  omega

-- A key too long for its length prefix equals no key of the table.
theorem not_visible_of_long (user : Comparator) (hu : TotalOrder user.compare) (k : Bytes)
    (snap : Nat) (hk : ¬k.length + 8 < 2 ^ 32) (e : Added) : ¬Visible user k snap e := by
  intro hvisible
  have hzero := hvisible.1
  have hfits := e.key_fits
  rw [hu.eq_of_zero _ _ hzero] at hfits
  exact hk hfits

theorem short_of_visible {user : Comparator} (hu : TotalOrder user.compare) {k : Bytes} {snap : Nat}
    {e : Added} (hvisible : Visible user k snap e) : k.length + 8 < 2 ^ 32 := by
  by_contra hlong
  exact not_visible_of_long user hu k snap hlong e hvisible

namespace Holds

variable {user : Comparator} {adds : List Added} {m : MemTable} {order : List Nat} {k : Bytes}
  {snap x : Nat} {e : Added}

-- An addition that the lookup sees belongs to a node that is not before the key.
theorem visible_node (h : Holds user adds m order) (hu : TotalOrder user.compare) (k : Bytes)
    (snap : Nat) (hsnap : snap ≤ kMaxSequenceNumber) (j : Nat) (f : Added)
    (hf : adds[j]? = some f) (hvisible : Visible user k snap f) : j + 1 ∈ order ∧
      m.table.keyOf (j + 1) = f.entry ∧
      (!m.table.lessThan (entryOrder user) (LookupKey.made k snap).memtableKey (j + 1)) = true := by
  obtain ⟨hmem, hkey⟩ := h.mem_order j f hf
  have hshort := short_of_visible hu hvisible
  exact ⟨hmem, hkey, (notLess_iff user m k snap hsnap hshort _ f hkey).mpr (.inr hvisible)⟩

-- The node that the lookup finds comes before every other one that it may see.
theorem head_precedes (h : Holds user adds m order) (hu : TotalOrder user.compare)
    (hsnap : snap ≤ kMaxSequenceNumber) (hfound : Found user adds m order k snap x e)
    (j : Nat) (f : Added) (hf : adds[j]? = some f) (hvisible : Visible user k snap f) :
    j + 1 = x ∨ (user.compare e.key f.key < 0 ∨ user.compare e.key f.key = 0 ∧
      (f.tag < e.tag ∨ f.tag = e.tag ∧ j + 1 < x)) := by
  obtain ⟨hmem, hkeyf, hnot⟩ := h.visible_node hu k snap hsnap j f hf hvisible
  refine (head_filter_rel _ order h.represents.sorted x hfound.head _ hmem hnot).imp_right ?_
  exact keyOf_precedes user m x (j + 1) e f hfound.key_eq hkeyf

-- A node with the user key of the lookup decides it.
theorem head_decides (h : Holds user adds m order) (hu : TotalOrder user.compare)
    (hsnap : snap ≤ kMaxSequenceNumber) (hfound : Found user adds m order k snap x e)
    (hzero : user.compare e.key k = 0) : Decides user adds k snap (x - 1) e := by
  have hpos := hfound.pos
  have hek := hu.eq_of_zero _ _ hzero
  have hshort : k.length + 8 < 2 ^ 32 := hek ▸ e.key_fits
  have hvisible : Visible user k snap e := by
    rcases (notLess_iff user m k snap hsnap hshort x e hfound.key_eq).mp hfound.not_less with
      hlt | hvisible
    · omega
    · exact hvisible
  refine ⟨hfound.added, hvisible, fun j f hf hf' => ?_⟩
  rcases h.head_precedes hu hsnap hfound j f hf hf' with hjx | hrel
  · obtain rfl := hfound.eq_of_added hf hjx
    exact .inr ⟨rfl, by omega⟩
  · rw [hek, (hu.zero_comm _ _).mp hf'.1] at hrel
    omega

-- A node with a later user key says that the lookup may see nothing.
theorem head_hides (h : Holds user adds m order) (hu : TotalOrder user.compare)
    (hsnap : snap ≤ kMaxSequenceNumber) (hfound : Found user adds m order k snap x e)
    (hne : user.compare e.key k ≠ 0) : ∀ f ∈ adds, ¬Visible user k snap f := by
  intro f hf hvisible
  apply hne
  obtain ⟨j, hj⟩ := List.mem_iff_getElem?.mp hf
  have hshort := short_of_visible hu hvisible
  have hle : user.compare e.key f.key ≤ 0 := by
    rcases h.head_precedes hu hsnap hfound j f hj hvisible with hjx | hrel
    · obtain rfl := hfound.eq_of_added hj hjx
      exact (hu.refl _).le
    · omega
  have hek := hu.trans _ _ _ hle hvisible.1.le
  rcases (notLess_iff user m k snap hsnap hshort x e hfound.key_eq).mp hfound.not_less with
    hlt | hvisible
  · omega
  · exact hvisible.1

end Holds

-- Nothing is compared in an empty table, whatever the length prefix of the key says.
theorem get_empty (user : Comparator) (key : LookupKey) (value : Bytes) (s : Status) :
    get user empty key value s = .ok (false, value, s) := rfl

-- A prefix of less than 8 leaves no room for the tag of the internal key.
theorem get_decided (user : Comparator) (hu : TotalOrder user.compare) (adds : List Added)
    (k : Bytes) (snap : Nat) (hsnap : snap ≤ kMaxSequenceNumber)
    (hk : 8 ≤ (k.length + 8) % 2 ^ 32 ∨ adds = []) (value : Bytes) (s : Status) :
    ∃ m key, addAll user adds = .ok m ∧ LookupKey.new k snap = .ok key ∧
      ((∀ e ∈ adds, ¬Visible user k snap e) ∧ get user m key value s = .ok (false, value, s) ∨
        ∃ i e, Decides user adds k snap i e ∧
          get user m key value s = .ok (answer e value s)) := by
  have hkey := LookupKey.new_eq k snap hsnap
  rcases hk with hk | rfl
  · have hpre := hu.toTotalPreorder
    obtain ⟨m, order, hm, h⟩ := addAll_holds user hpre adds
    refine ⟨m, _, hm, hkey, ?_⟩
    cases hhead : (order.filter fun x =>
        !m.table.lessThan (entryOrder user) (LookupKey.made k snap).memtableKey x).head? with
    | none =>
        refine .inl ⟨fun e he hvisible => ?_, h.get_missing hpre hk value s hhead⟩
        obtain ⟨j, hj⟩ := List.mem_iff_getElem?.mp he
        obtain ⟨hmem, -, hnot⟩ := h.visible_node hu k snap hsnap j e hj hvisible
        rw [List.head?_eq_none_iff] at hhead
        exact (List.filter_eq_nil_iff.mp hhead) _ hmem hnot
    | some x =>
        obtain ⟨e, hfound⟩ := h.found hhead
        have hget := h.get_found hpre hk value s hfound
        by_cases hzero : user.compare e.key k = 0
        · refine .inr ⟨x - 1, e, ?_, by rw [hget, if_pos hzero]⟩
          exact h.head_decides hu hsnap hfound hzero
        · refine .inl ⟨?_, by rw [hget, if_neg hzero]⟩
          exact h.head_hides hu hsnap hfound hzero
  · exact ⟨empty, _, rfl, hkey, .inl ⟨by simp, get_empty user _ value s⟩⟩

-- One key with two versions and another key with one.
def sampleAdds : List Added :=
  [⟨1, 3, .kTypeDeletion, [107], [], by decide, by decide, by decide, by decide, by decide⟩,
    ⟨2, 1, .kTypeValue, [107], [118], by decide, by decide, by decide, by decide, by decide⟩,
    ⟨1, 2, .kTypeValue, [108], [], by decide, by decide, by decide, by decide, by decide⟩]

theorem get_decided_sample : ∃ m key, addAll bytewiseComparator sampleAdds = .ok m ∧
    LookupKey.new [107] 2 = .ok key ∧
      ((∀ e ∈ sampleAdds, ¬Visible bytewiseComparator [107] 2 e) ∧
          get bytewiseComparator m key [] .ok = .ok (false, [], .ok) ∨
        ∃ i e, Decides bytewiseComparator sampleAdds [107] 2 i e ∧
          get bytewiseComparator m key [] .ok = .ok (answer e [] .ok)) :=
  get_decided bytewiseComparator Slice.compare_totalOrder sampleAdds [107] 2 (by decide)
    (.inl (by decide)) [] .ok

def emptyEntry : Added :=
  ⟨1, 1, .kTypeValue, [], [], by decide, by decide, by decide, by decide, by decide⟩

def emptyEntryTable : MemTable :=
  ⟨⟨[⟨[], .node 1 :: List.replicate 11 .null⟩, ⟨emptyEntry.entry, [.null]⟩], 1⟩⟩

theorem addAll_emptyEntry : addAll bytewiseComparator [emptyEntry] = .ok emptyEntryTable := by
  rfl

-- A length of `2 ^ 32 - 8` leaves the prefix 0, and the comparison reads an
-- internal key without a tag.
theorem keyComparator_longKey (k : Bytes) (snap : Nat) (hk : (k.length + 8) % 2 ^ 32 = 0)
    (e : Added) : keyComparator bytewiseComparator e.entry
      (LookupKey.made k snap).memtableKey = .error .assertion := by
  have hstands : StandsAt (LookupKey.made k snap).memtableKey 0 (encodeVarint32 0) := by
    have hkey : (LookupKey.made k snap).memtableKey =
        encodeVarint32 0 ++ makeInternalKey k (packedTag snap kValueTypeForSeek) := by
      rw [LookupKey.memtableKey, LookupKey.made, hk]
    rw [hkey]
    exact List.prefix_append _ _
  have hslice := getLengthPrefixedSlice_eq _ 0 0 (by decide) hstands
  have hrange : readRange (LookupKey.made k snap).memtableKey (0 + (encodeVarint32 0).length) 0 =
      .ok [] := by
    have hle := hstands.le_length (Nat.zero_le _)
    rw [readRange, Nat.add_zero, if_pos hle, List.take_zero]
  have hentry := e.entry_prefixed
  simp only [keyComparator, hentry.slice, hentry.range, hslice, hrange, ok_bind, internalCompare,
    extractUserKey_eq _ hentry.tagged]
  rfl

theorem get_longKey (k : Bytes) (snap : Nat) (hk : (k.length + 8) % 2 ^ 32 = 0) (value : Bytes)
    (s : Status) :
    get bytewiseComparator emptyEntryTable (LookupKey.made k snap) value s =
      .error .assertion := by
  have hcompare := keyComparator_longKey k snap hk emptyEntry
  have hseek : Iterator.seek (keyComparator bytewiseComparator) emptyEntryTable.table
      (LookupKey.made k snap).memtableKey = .error .assertion := by
    have hstep : emptyEntryTable.table.keyIsAfterNode (keyComparator bytewiseComparator)
        (LookupKey.made k snap).memtableKey (some 1) = .error .assertion := by
      change (keyComparator bytewiseComparator emptyEntry.entry
        (LookupKey.made k snap).memtableKey >>= fun c => (pure (decide (c < 0)) : Exec Bool)) = _
      rw [hcompare]
      rfl
    have hnext : emptyEntryTable.table.next (some 0) 0 = .ok (some 1) := rfl
    have hfuel : emptyEntryTable.table.searchFuel = 3 := rfl
    have hlevel : emptyEntryTable.table.maxHeight - 1 = 0 := rfl
    simp [Iterator.seek, findGreaterOrEqual, hfuel, hlevel, descend, hnext, hstep]
  simp [get, hseek]

theorem get_longKey_fails : ∃ k m key, addAll bytewiseComparator [emptyEntry] = .ok m ∧
    LookupKey.new k 1 = .ok key ∧ (∀ e ∈ [emptyEntry], ¬Visible bytewiseComparator k 1 e) ∧
      get bytewiseComparator m key [] .ok ≠ .ok (false, [], .ok) := by
  have hlen : (List.replicate (2 ^ 32 - 8) (0 : UInt8)).length = 2 ^ 32 - 8 :=
    List.length_replicate
  generalize List.replicate (2 ^ 32 - 8) (0 : UInt8) = k at hlen
  refine ⟨k, emptyEntryTable, _, addAll_emptyEntry, LookupKey.new_eq k 1 (by decide), ?_, ?_⟩
  · intro e _
    exact not_visible_of_long bytewiseComparator Slice.compare_totalOrder k 1 (by omega) e
  · rw [get_longKey k 1 (by omega)]
    intro h
    cases h

end MemTable

end Mylldb

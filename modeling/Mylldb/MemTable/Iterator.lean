import Mylldb.MemTable.Theorems
import Mathlib.Data.List.Enum

namespace Mylldb.MemTable

open Lib.Run Lib.ThreeWay SkipList

-- An addition and its place in the run.
def numbered (adds : List Added) (x : Nat) : Option (Added × Nat) :=
  adds[x - 1]?.map fun e => (e, x - 1)

theorem numbered_eq_some {adds : List Added} {x : Nat} {p : Added × Nat} :
    numbered adds x = some p ↔ adds[x - 1]? = some p.1 ∧ x - 1 = p.2 := by
  unfold numbered
  constructor
  · intro h
    obtain ⟨e, he, rfl⟩ := Option.map_eq_some_iff.mp h
    exact ⟨he, rfl⟩
  · rintro ⟨he, hx⟩
    rw [he, hx]
    rfl

theorem filterMap_numbered (adds : List Added) :
    (List.range' 1 adds.length).filterMap (numbered adds) = adds.zipIdx := by
  have hgeneral : ∀ before : List Added,
      (List.range' (before.length + 1) adds.length).filterMap (numbered (before ++ adds)) =
        adds.zipIdx before.length := by
    induction adds with
    | nil => intro before; rfl
    | cons e adds ih =>
        intro before
        have htail := ih (before ++ [e])
        rw [List.length_append, List.append_assoc] at htail
        have hhead : numbered (before ++ e :: adds) (before.length + 1) = some (e, before.length) :=
          numbered_eq_some.mpr ⟨by simp, by simp⟩
        rw [List.length_cons, List.range'_succ, List.filterMap_cons, hhead, List.zipIdx_cons]
        exact congrArg _ htail
  exact hgeneral []

-- An addition as a key with a value.
def Added.pair (e : Added) : Bytes × Bytes := (e.internalKey, e.value)

-- What the iterator shows on an entry.
def shown (p : Added × Nat) : Bytes × Bytes := (p.1.internalKey, p.1.value)

-- User keys ascend; under one user key tags descend, and of equal internal keys
-- the latest addition comes first.
def Precedes (user : Comparator) (p q : Added × Nat) : Prop :=
  user.compare p.1.key q.1.key < 0 ∨ user.compare p.1.key q.1.key = 0 ∧
    (q.1.tag < p.1.tag ∨ q.1.tag = p.1.tag ∧ q.2 < p.2)

-- The length of a target is cut to 32 bits.
theorem encodeKey_prefixed (target : Bytes) (htagged : 8 ≤ target.length % 2 ^ 32) :
    Prefixed (encodeKey target) (target.take (target.length % 2 ^ 32)) := by
  have hlen : (target.take (target.length % 2 ^ 32)).length = target.length % 2 ^ 32 := by
    rw [List.length_take]
    exact Nat.min_eq_left (Nat.mod_le _ _)
  refine ⟨⟨target.drop (target.length % 2 ^ 32), ?_⟩, ?_, ?_⟩
  · rw [hlen, List.append_assoc, List.take_append_drop]
    rfl
  · rw [hlen]
    exact Nat.mod_lt _ (by decide)
  · rwa [hlen]

theorem encodeKey_prefixed_of_fits (target : Bytes) (htagged : 8 ≤ target.length)
    (hfits : target.length < 2 ^ 32) : Prefixed (encodeKey target) target := by
  have hprefixed := encodeKey_prefixed target (by omega)
  rwa [Nat.mod_eq_of_lt hfits, List.take_length] at hprefixed

namespace Holds

variable {user : Comparator} {adds : List Added} {m : MemTable} {order : List Nat}

theorem numbered_eq (h : Holds user adds m order) (x : Nat) (hx : x ∈ order) :
    ∃ e, numbered adds x = some (e, x - 1) ∧ m.table.keyOf x = e.entry := by
  obtain ⟨e, he, hkey⟩ := h.added x hx
  exact ⟨e, numbered_eq_some.mpr ⟨he, rfl⟩, hkey⟩

theorem iterator_shows (h : Holds user adds m order) (x : Nat) (hx : x ∈ order) (e : Added)
    (hkey : m.table.keyOf x = e.entry) :
    MemTableIterator.key m ⟨⟨some x⟩⟩ = .ok e.internalKey ∧
      MemTableIterator.value m ⟨⟨some x⟩⟩ = .ok e.value := by
  have hentry := e.entry_prefixed
  have hnode := h.represents.iterator_key_eq x hx
  obtain ⟨hslice, hrange⟩ := e.entry_value _ rfl
  constructor
  · simp only [MemTableIterator.key, hnode, ok_bind, hkey, hentry.slice, hentry.range]
  · simp only [MemTableIterator.value, hnode, ok_bind, hkey, hentry.slice, hslice, hrange]

-- The loop shows the rest of the bottom level, one entry for each node.
theorem enumerate_eq (h : Holds user adds m order) (before after : List Nat)
    (horder : before ++ after = order) (fuel : Nat) (hfuel : after.length < fuel) :
    MemTableIterator.enumerate m fuel ⟨⟨after.head?⟩⟩ =
      .ok ((after.filterMap (numbered adds)).map shown) := by
  induction after generalizing before fuel with
  | nil =>
      obtain ⟨fuel, rfl⟩ : ∃ n, fuel = n + 1 := ⟨fuel - 1, by omega⟩
      rfl
  | cons x after ih =>
      obtain ⟨fuel, rfl⟩ : ∃ n, fuel = n + 1 := ⟨fuel - 1, by omega⟩
      rw [List.length_cons] at hfuel
      have hx : x ∈ order := by simp [← horder]
      obtain ⟨e, hnumbered, hkey⟩ := h.numbered_eq x hx
      obtain ⟨hshowkey, hshowvalue⟩ := h.iterator_shows x hx e hkey
      have hnext := h.represents.iterator_next_eq before after x horder
      have hrest := ih (before ++ [x]) (by simpa using horder) fuel (by omega)
      simp [MemTableIterator.enumerate, MemTableIterator.valid, Iterator.valid, hshowkey,
        hshowvalue, MemTableIterator.next, hnext, hrest, hnumbered, shown]

theorem listing_perm (h : Holds user adds m order) :
    (order.filterMap (numbered adds)).Perm adds.zipIdx := by
  have hperm := h.represents.perm_inserts h.history
  rw [inserts, List.length_map] at hperm
  rw [← filterMap_numbered]
  exact hperm.filterMap _

theorem listing_sorted (h : Holds user adds m order) :
    (order.filterMap (numbered adds)).Pairwise (Precedes user) := by
  have hsorted : order.Pairwise fun x y => ∀ p, numbered adds x = some p →
      ∀ q, numbered adds y = some q → Precedes user p q := by
    refine h.represents.sorted.imp_of_mem fun {x y} hx hy hxy => ?_
    intro p hp q hq
    obtain ⟨e, he, hkeyx⟩ := h.numbered_eq x hx
    obtain ⟨f, hf, hkeyy⟩ := h.numbered_eq y hy
    obtain rfl := Option.some.inj (he.symm.trans hp)
    obtain rfl := Option.some.inj (hf.symm.trans hq)
    have hposx := (h.represents.lt_length x hx).1
    have hposy := (h.represents.lt_length y hy).1
    have hrel := keyOf_precedes user m x y e f hkeyx hkeyy hxy
    unfold Precedes
    dsimp only
    omega
  exact hsorted.filterMap _ fun x y hxy p hp q hq => hxy p hp q hq

-- The seek stands between the entries before the target and the others.
theorem seek_eq (h : Holds user adds m order) (hu : TotalPreorder user.compare) (target : Bytes)
    (htagged : 8 ≤ target.length) (hfits : target.length < 2 ^ 32) :
    ∃ before after, before ++ after = order ∧
      MemTableIterator.seek user m target = .ok ⟨⟨after.head?⟩⟩ ∧
      (∀ p ∈ before.filterMap (numbered adds), internalOrder user p.1.internalKey target < 0) ∧
      ∀ p ∈ after.filterMap (numbered adds), 0 ≤ internalOrder user p.1.internalKey target := by
  have hprefixed := encodeKey_prefixed_of_fits target htagged hfits
  have horder := entryOrder_totalPreorder hu
  have hseek := h.represents.seek_eq horder _ (h.agrees hprefixed)
  have hside : ∀ x ∈ order, ∀ p, numbered adds x = some p →
      (m.table.lessThan (entryOrder user) (encodeKey target) x = true ↔
        internalOrder user p.1.internalKey target < 0) := by
    intro x hx p hp
    obtain ⟨e, he, hkey⟩ := h.numbered_eq x hx
    obtain rfl := Option.some.inj (he.symm.trans hp)
    rw [lessThan, decide_eq_true_eq, hkey, entryOrder, e.entry_prefixed.internalKeyOf_eq,
      hprefixed.internalKeyOf_eq]
  refine ⟨_, _, h.represents.split horder (encodeKey target), ?_, ?_, ?_⟩
  · simp only [MemTableIterator.seek, hseek, ok_bind, pure_eq]
  · intro p hp
    obtain ⟨x, hx, hp⟩ := List.mem_filterMap.mp hp
    obtain ⟨hmem, hlt⟩ := List.mem_filter.mp hx
    exact (hside x hmem p hp).mp hlt
  · intro p hp
    obtain ⟨x, hx, hp⟩ := List.mem_filterMap.mp hp
    obtain ⟨hmem, hnot⟩ := List.mem_filter.mp hx
    have hiff := not_congr (hside x hmem p hp)
    rw [Bool.not_eq_true', ← Bool.not_eq_true] at hnot
    exact Int.not_lt.mp (hiff.mp hnot)

end Holds

-- `Seek` leaves the iterator on `after`, which begins with the first addition
-- whose internal key is not before the target.
def SeekSplits (user : Comparator) (m : MemTable) (fuel : Nat)
    (listing : List (Added × Nat)) (target : Bytes) : Prop :=
  ∃ before after it, listing = before ++ after ∧
    (∀ p ∈ before, ∃ c, internalCompare user p.1.internalKey target = .ok c ∧ c < 0) ∧
    (∀ p ∈ after, ∃ c, internalCompare user p.1.internalKey target = .ok c ∧ 0 ≤ c) ∧
    MemTableIterator.seek user m target = .ok it ∧
    it.enumerate m fuel = .ok (after.map shown)

theorem iterator_enumerates (user : Comparator) (hu : TotalOrder user.compare)
    (adds : List Added) :
    ∃ m listing, addAll user adds = .ok m ∧ listing.Perm adds.zipIdx ∧
      listing.Pairwise (Precedes user) ∧
      (∃ it, MemTableIterator.seekToFirst m = .ok it ∧
        it.enumerate m (adds.length + 1) = .ok (listing.map shown)) ∧
      ∀ target, 8 ≤ target.length → target.length < 2 ^ 32 →
        SeekSplits user m (adds.length + 1) listing target := by
  obtain ⟨m, order, hm, h⟩ := addAll_holds user hu.toTotalPreorder adds
  have hlen : order.length = adds.length := by
    have hperm := h.represents.perm.length_eq
    rw [h.history.length, inserts, List.length_map, List.length_range'] at hperm
    omega
  refine ⟨m, _, hm, h.listing_perm, h.listing_sorted, ⟨⟨⟨order.head?⟩⟩, ?_, ?_⟩, ?_⟩
  · simp only [MemTableIterator.seekToFirst, h.represents.seekToFirst_eq, ok_bind, pure_eq]
  · exact h.enumerate_eq [] order rfl _ (by omega)
  · intro target htagged hfits
    obtain ⟨before, after, horder, hseek, hbefore, hafter⟩ :=
      h.seek_eq hu.toTotalPreorder target htagged hfits
    have hsum := congrArg List.length horder
    rw [List.length_append] at hsum
    have hcompare (p : Added × Nat) := internalCompare_eq user p.1.internalKey target
      p.1.entry_prefixed.tagged htagged
    refine ⟨_, _, _, by rw [← horder, List.filterMap_append], ?_, ?_, hseek, ?_⟩
    · exact fun p hp => ⟨_, hcompare p, hbefore p hp⟩
    · exact fun p hp => ⟨_, hcompare p, hafter p hp⟩
    · exact h.enumerate_eq before after horder _ (by omega)

theorem iterator_enumerates_sample : ∃ m listing,
    addAll bytewiseComparator sampleAdds = .ok m ∧ listing.Perm sampleAdds.zipIdx ∧
      listing.Pairwise (Precedes bytewiseComparator) ∧
      (∃ it, MemTableIterator.seekToFirst m = .ok it ∧
        it.enumerate m 4 = .ok (listing.map shown)) ∧
      SeekSplits bytewiseComparator m 4 listing [107, 1, 2, 0, 0, 0, 0, 0, 0] := by
  obtain ⟨m, listing, hm, hperm, hsorted, hfirst, hseek⟩ :=
    iterator_enumerates bytewiseComparator Slice.compare_totalOrder sampleAdds
  exact ⟨m, listing, hm, hperm, hsorted, hfirst, hseek _ (by decide) (by decide)⟩

-- Of a target of `2 ^ 32 + 8` bytes the table sees the first eight bytes.
theorem seek_longTarget (target : Bytes) (hlen : target.length = 2 ^ 32 + 8)
    (htake : target.take 8 = List.replicate 8 255) :
    ∃ m it, addAll bytewiseComparator [emptyEntry] = .ok m ∧
      MemTableIterator.seek bytewiseComparator m target = .ok it ∧ it.valid = true := by
  obtain ⟨m, order, hm, h⟩ :=
    addAll_holds bytewiseComparator Slice.compare_totalOrder.toTotalPreorder [emptyEntry]
  have hmod : target.length % 2 ^ 32 = 8 := by omega
  have hprefixed := encodeKey_prefixed target (by omega)
  rw [hmod, htake] at hprefixed
  have hseek := h.represents.seek_eq (entryOrder_totalPreorder
    Slice.compare_totalOrder.toTotalPreorder) _ (h.agrees hprefixed)
  obtain ⟨hmem, hkey⟩ := h.mem_order 0 emptyEntry rfl
  have hnot : (!m.table.lessThan (entryOrder bytewiseComparator) (encodeKey target) (0 + 1)) =
      true := by
    rw [lessThan, hkey, entryOrder, emptyEntry.entry_prefixed.internalKeyOf_eq,
      hprefixed.internalKeyOf_eq]
    decide
  refine ⟨m, ⟨⟨(order.filter fun x => !m.table.lessThan (entryOrder bytewiseComparator)
    (encodeKey target) x).head?⟩⟩, hm, ?_, ?_⟩
  · simp only [MemTableIterator.seek, hseek, ok_bind, pure_eq]
  · rw [MemTableIterator.valid, Iterator.valid, List.isSome_head?]
    exact List.ne_nil_of_mem (List.mem_filter.mpr ⟨hmem, hnot⟩)

theorem seek_longTarget_fails : ∃ target m it,
    addAll bytewiseComparator [emptyEntry] = .ok m ∧ 8 ≤ target.length ∧
      (∃ c, internalCompare bytewiseComparator emptyEntry.internalKey target = .ok c ∧ c < 0) ∧
      MemTableIterator.seek bytewiseComparator m target = .ok it ∧ it.valid = true := by
  have hlen : (List.replicate (2 ^ 32 + 8) (255 : UInt8)).length = 2 ^ 32 + 8 :=
    List.length_replicate
  have htake : (List.replicate (2 ^ 32 + 8) (255 : UInt8)).take 8 = List.replicate 8 255 := by
    rw [List.take_replicate]
    rfl
  generalize List.replicate (2 ^ 32 + 8) (255 : UInt8) = target at hlen htake
  obtain ⟨m, it, hm, hit, hvalid⟩ := seek_longTarget target hlen htake
  refine ⟨target, m, it, hm, by omega, ⟨_, internalCompare_eq _ _ _ (by simp) (by omega), ?_⟩,
    hit, hvalid⟩
  rw [internalOrder_neg_iff]
  left
  have huser : (userPart target).length = 2 ^ 32 := by
    rw [userPart, List.length_take]
    omega
  cases hcases : userPart target with
  | nil =>
      rw [hcases] at huser
      cases huser
  | cons b bs =>
      change Slice.compare (userPart emptyEntry.internalKey) (b :: bs) < 0
      rw [Added.userPart_internalKey, emptyEntry, Slice.compare_nil_cons]
      decide

end Mylldb.MemTable

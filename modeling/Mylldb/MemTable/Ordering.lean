import Mylldb.DbFormat.Separators
import Mylldb.MemTable.Encoding
import Mylldb.MemTable.Theorems

namespace Mylldb

open Lib.Run Lib.ThreeWay

-- The last eight bytes of an internal key.
def tagBytes (internalKey : Bytes) : Bytes := internalKey.drop (internalKey.length - 8)

theorem tagBytes_length (key : Bytes) (hkey : 8 ≤ key.length) : (tagBytes key).length = 8 := by
  rw [tagBytes, List.length_drop]
  omega

theorem tagOf_eq_value (key : Bytes) (hkey : 8 ≤ key.length) :
    tagOf key = Lib.LittleEndian.value (tagBytes key) := by
  have hle := (tagBytes_length key hkey).le
  rw [tagBytes] at hle
  rw [tagOf, tagBytes, List.take_of_length_le hle]

-- Tags are compared as numbers, which tell the bytes apart.
theorem tagOf_eq_iff (a b : Bytes) (ha : 8 ≤ a.length) (hb : 8 ≤ b.length) :
    tagOf a = tagOf b ↔ tagBytes a = tagBytes b := by
  rw [tagOf_eq_value a ha, tagOf_eq_value b hb]
  constructor
  · intro hvalue
    have hbytes := congrArg (Lib.LittleEndian.bytes 8) hvalue
    rwa [← tagBytes_length a ha, Lib.LittleEndian.bytes_value, tagBytes_length a ha,
      ← tagBytes_length b hb, Lib.LittleEndian.bytes_value] at hbytes
  · intro hbytes
    rw [hbytes]

-- A lookup at `s` comes before the versions up to `s`, of both types, and behind the
-- later ones.
theorem internalOrder_lookup {user : Comparator} (hu : TotalPreorder user.compare) {k e : Bytes}
    {s s' : Nat} {t : ValueType} (hs : s ≤ kMaxSequenceNumber)
    (hsame : user.compare (userPart e) k = 0) (htag : tagOf e = packedTag s' t) :
    (s' ≤ s → internalOrder user (makeInternalKey k (packedTag s kValueTypeForSeek)) e ≤ 0) ∧
      (s < s' → 0 < internalOrder user (makeInternalKey k (packedTag s kValueTypeForSeek)) e) := by
  have hneg := internalOrder_neg_iff user (makeInternalKey k (packedTag s kValueTypeForSeek)) e
  have hzero := internalOrder_zero_iff user (makeInternalKey k (packedTag s kValueTypeForSeek)) e
  have hsame' := (hu.zero_comm _ _).mp hsame
  have ht : t.toNat ≤ 1 := by cases t <;> decide
  have hpacked : packedTag s' t = 256 * s' + t.toNat := rfl
  have hseek : packedTag s kValueTypeForSeek = 256 * s + 1 := rfl
  rw [userPart_make, tagOf_make _ _ (packedTag_lt s _ hs), htag] at hneg hzero
  omega

namespace MemTable

theorem encodeEntry_prefixed {s : Nat} {t : ValueType} {key value entry : Bytes}
    (hkey : key.length + 8 < 2 ^ 32) (hs : s ≤ kMaxSequenceNumber)
    (hentry : encodeEntry s t key value = .ok entry) :
    Prefixed entry (makeInternalKey key (packedTag s t)) where
  stands := by
    simp only [encodeEntry, shift_or_type s t hs, Nat.mod_eq_of_lt hkey] at hentry
    split at hentry
    · obtain ⟨-, -, hbuf⟩ := bind_eq_ok.mp hentry
      obtain rfl := Except.ok.inj hbuf
      have hstands : StandsAt ([] ++ _ ++ (encodeVarint32 (value.length % 2 ^ 32) ++ value)) 0
          (encodeVarint32 (key.length + 8) ++ (key ++ encodeFixed64 (packedTag s t))) := .intro [] _
      rw [makeInternalKey_length]
      simpa [makeInternalKey] using hstands
    · cases hentry
  fits := by
    rw [makeInternalKey_length]
    exact hkey
  tagged := by
    rw [makeInternalKey_length]
    omega

end MemTable

namespace InternalKeyComparator

-- Where a lookup of `k` at `s` stands among the versions of its user key, as internal
-- keys and as the entries that `Add` writes.
structure Finds (user : Comparator) (k : Bytes) (s : Nat) (lookup : LookupKey) : Prop where
  keys : ∀ (e : Bytes) (s' : Nat) (t : ValueType), 8 ≤ e.length →
    user.compare (userPart e) k = 0 → tagOf e = s' <<< 8 ||| t.toNat →
      ∃ r, internalCompare user lookup.internalKey e = .ok r ∧
        (s' ≤ s → r ≤ 0) ∧ (s < s' → 0 < r)
  entries : k.length + 8 < 2 ^ 32 → ∀ (key value entry : Bytes) (s' : Nat) (t : ValueType),
    key.length + 8 < 2 ^ 32 → s' ≤ kMaxSequenceNumber → user.compare key k = 0 →
      MemTable.encodeEntry s' t key value = .ok entry →
        ∃ r, MemTable.keyComparator user lookup.memtableKey entry = .ok r ∧
          (s' ≤ s → r ≤ 0) ∧ (s < s' → 0 < r)

variable {user : Comparator}

theorem finds_made (hu : TotalPreorder user.compare) (k : Bytes) (s : Nat)
    (hs : s ≤ kMaxSequenceNumber) : Finds user k s (LookupKey.made k s) where
  keys := by
    intro e s' t he hsame htag
    rw [shift_or_eq] at htag
    rw [LookupKey.internalKey_made, internalCompare_eq _ _ _ (by simp) he]
    exact ⟨_, rfl, internalOrder_lookup hu hs hsame htag⟩
  entries := by
    intro hk key value entry s' t hkey hs' hsame hentry
    have hlookup := MemTable.memtableKey_prefixed k s (by rw [Nat.mod_eq_of_lt hk]; omega)
    have hprefixed := MemTable.encodeEntry_prefixed hkey hs' hentry
    rw [MemTable.searchKey_eq k s hk] at hlookup
    rw [MemTable.keyComparator_eq user hlookup hprefixed, MemTable.entryOrder,
      hlookup.internalKeyOf_eq, hprefixed.internalKeyOf_eq]
    refine ⟨_, rfl, internalOrder_lookup hu hs ?_ (tagOf_make _ _ (packedTag_lt s' t hs'))⟩
    rwa [userPart_make]

-- On strings that hold a tag, `Compare` orders by user key first and newest version first.
theorem compare_orders (user : Comparator) (hu : TotalPreorder user.compare) (a b c : Bytes)
    (ha : 8 ≤ a.length) (hb : 8 ≤ b.length) (hc : 8 ≤ c.length) :
    (∃ r r', internalCompare user a b = .ok r ∧ internalCompare user b a = .ok r' ∧
      r.sign = -r'.sign) ∧
    (AtMost user a b → AtMost user b c → AtMost user a c) ∧
    (AtMost user a b ∨ AtMost user b a) ∧
    (internalCompare user a b = .ok 0 ↔
      user.compare (userPart a) (userPart b) = 0 ∧ tagBytes a = tagBytes b) ∧
    (user.compare (userPart a) (userPart b) = 0 → (Before user a b ↔ tagOf b < tagOf a)) ∧
    ∀ (k : Bytes) (s : Nat), s ≤ kMaxSequenceNumber →
      ∃ lookup, LookupKey.new k s = .ok lookup ∧ Finds user k s lookup := by
  have horder := internalOrder_totalPreorder hu
  rw [atMost_iff ha hb, atMost_iff hb hc, atMost_iff ha hc, atMost_iff hb ha, before_iff ha hb,
    internalCompare_eq user a b ha hb, internalCompare_eq user b a hb ha]
  refine ⟨⟨_, _, rfl, rfl, horder.sign_swap a b⟩, horder.trans a b c, horder.total a b, ?_, ?_, ?_⟩
  · rw [Except.ok.injEq, internalOrder_zero_iff, ← tagOf_eq_iff a b ha hb, eq_comm (a := tagOf b)]
  · intro hsame
    rw [internalOrder_neg_iff]
    omega
  · intro k s hs
    exact ⟨_, LookupKey.new_eq k s hs, finds_made hu k s hs⟩

-- The version of the lookup's own number, as a deletion, comes right behind it, and the
-- next version stands before it.
theorem compare_orders_sample : ∃ lookup, LookupKey.new [107] 5 = .ok lookup ∧
    (∃ r, internalCompare bytewiseComparator lookup.internalKey
      (makeInternalKey [107] (packedTag 5 .kTypeDeletion)) = .ok r ∧ r ≤ 0) ∧
    ∃ r, internalCompare bytewiseComparator lookup.internalKey
      (makeInternalKey [107] (packedTag 6 .kTypeValue)) = .ok r ∧ 0 < r := by
  obtain ⟨-, -, -, -, -, hlookups⟩ := compare_orders bytewiseComparator
    Slice.compare_totalOrder.toTotalPreorder (List.replicate 8 0) (List.replicate 9 1)
    (List.replicate 10 2) (by decide) (by decide) (by decide)
  obtain ⟨lookup, hnew, hfinds⟩ := hlookups [107] 5 (by decide)
  obtain ⟨r, hr, hle, -⟩ := hfinds.keys (makeInternalKey [107] (packedTag 5 .kTypeDeletion)) 5
    .kTypeDeletion (by decide) (by decide) (by decide)
  obtain ⟨r', hr', -, hlt⟩ := hfinds.keys (makeInternalKey [107] (packedTag 6 .kTypeValue)) 6
    .kTypeValue (by decide) (by decide) (by decide)
  exact ⟨lookup, hnew, ⟨r, hr, hle (by decide)⟩, r', hr', hlt (by decide)⟩

end InternalKeyComparator

end Mylldb

import Mylldb.MemTable.Represents

namespace Mylldb

open Lib.Run

namespace LookupKey

theorem internalKey_made (userKey : Bytes) (s : Nat) :
    (made userKey s).internalKey = makeInternalKey userKey (packedTag s kValueTypeForSeek) := by
  rw [internalKey, made]
  exact List.drop_left

-- The prefix has five bytes at most, so that `needed` bytes are enough.
theorem memtableKey_made_length_le (userKey : Bytes) (s : Nat) :
    (made userKey s).memtableKey.length ≤ userKey.length + 13 := by
  have hlen := (encodeVarint32_spec _
    (Nat.mod_lt (userKey.length + 8) (by decide : 0 < 2 ^ 32))).2.2.2
  rw [memtableKey, made, List.length_append, makeInternalKey_length]
  omega

end LookupKey

namespace MemTable

theorem Added.entry_length (e : Added) : e.entry.length =
    varintLength (e.key.length + 8) + (e.key.length + 8) + varintLength e.value.length +
      e.value.length := by
  have hkey := (encodeVarint32_spec _ e.key_fits).2.2.1
  have hvalue := (encodeVarint32_spec _ e.value_fits).2.2.1
  rw [entry, List.length_append, List.length_append, List.length_append, internalKey_length, hkey,
    hvalue, Nat.add_assoc (varintLength _ + _)]

-- A lookup key spells out what every value of the same version starts with.
theorem Added.memtableKey_prefix (e : Added) (htype : e.type = .kTypeValue) :
    (LookupKey.made e.key e.sequence).memtableKey <+: e.entry := by
  have hkey : (LookupKey.made e.key e.sequence).memtableKey =
      encodeVarint32 e.internalKey.length ++ e.internalKey := by
    rw [LookupKey.memtableKey, LookupKey.made, Nat.mod_eq_of_lt e.key_fits, internalKey_length,
      internalKey, tag, htype]
    rfl
  rw [hkey]
  exact List.prefix_append _ _

-- What `Add` writes has the computed size and is decoded piece by piece, and a lookup
-- key of the same version is where it starts.
theorem encodings_agree (key : Bytes) (hkey : key.length + 8 < 2 ^ 32) (s : Nat)
    (hs : s ≤ kMaxSequenceNumber) :
    (∀ t value, value.length < 2 ^ 32 → ∃ entry p q, encodeEntry s t key value = .ok entry ∧
      entry.length = varintLength (key.length + 8) + (key.length + 8) +
        varintLength value.length + value.length ∧
      getLengthPrefixedSlice entry 0 = .ok (p, key.length + 8) ∧
      readRange entry p (key.length + 8) = .ok (key ++ encodeFixed64 (s <<< 8 ||| t.toNat)) ∧
      getLengthPrefixedSlice entry (p + (key.length + 8)) = .ok (q, value.length) ∧
      readRange entry q value.length = .ok value) ∧
    ∃ lookup, LookupKey.new key s = .ok lookup ∧
      lookup.memtableKey.length ≤ key.length + 13 ∧ lookup.userKey = key ∧
      lookup.internalKey = key ++ encodeFixed64 (s <<< 8 ||| kValueTypeForSeek.toNat) ∧
      ∀ value entry, value.length < 2 ^ 32 → encodeEntry s .kTypeValue key value = .ok entry →
        lookup.memtableKey <+: entry := by
  refine ⟨?_, LookupKey.made key s, LookupKey.new_eq key s hs,
    LookupKey.memtableKey_made_length_le key s, LookupKey.userKey_made key s, ?_, ?_⟩
  · intro t value hvalue
    let e : Added := ⟨1, s, t, key, value, by decide, by decide, hs, hkey, hvalue⟩
    have hslice := e.entry_prefixed.slice
    have hrange := e.entry_prefixed.range
    obtain ⟨hvslice, hvrange⟩ := e.entry_value _ rfl
    have hlen : e.internalKey.length = key.length + 8 := e.internalKey_length
    rw [hlen] at hslice hrange hvslice hvrange
    refine ⟨e.entry, _, _, e.encodeEntry_eq, e.entry_length, hslice, ?_, hvslice, hvrange⟩
    rw [hrange, shift_or_eq]
    rfl
  · rw [LookupKey.internalKey_made, shift_or_eq]
    rfl
  · intro value entry hvalue hentry
    let e : Added := ⟨1, s, .kTypeValue, key, value, by decide, by decide, hs, hkey, hvalue⟩
    have hsame : encodeEntry s .kTypeValue key value = .ok e.entry := e.encodeEntry_eq
    obtain rfl := Except.ok.inj (hsame.symm.trans hentry)
    exact e.memtableKey_prefix rfl

-- A key at which the length prefix takes a second byte and the key leaves the array.
theorem encodings_agree_sample : ∃ lookup, LookupKey.new (List.replicate 188 7) 5 = .ok lookup ∧
    lookup.userKey = List.replicate 188 7 := by
  obtain ⟨-, lookup, hnew, -, huser, -⟩ :=
    encodings_agree (List.replicate 188 7) (by rw [List.length_replicate]; decide) 5 (by decide)
  exact ⟨lookup, hnew, huser⟩

end MemTable

end Mylldb

import Mylldb.DbFormat
import Mylldb.Coding.Theorems
import Mylldb.Comparator.Theorems

namespace Mylldb

open Lib.Run Lib.ThreeWay

-- The two parts of an internal key.
def userPart (internalKey : Bytes) : Bytes := internalKey.take (internalKey.length - 8)

def tagOf (internalKey : Bytes) : Nat :=
  Lib.LittleEndian.value ((internalKey.drop (internalKey.length - 8)).take 8)

def packedTag (s : Nat) (t : ValueType) : Nat := 256 * s + t.toNat

def makeInternalKey (userKey : Bytes) (tag : Nat) : Bytes := userKey ++ encodeFixed64 tag

-- Larger tags come first.
def tagOrder (a b : Bytes) : Int :=
  if tagOf a > tagOf b then -1 else if tagOf a < tagOf b then 1 else 0

-- Internal keys are ordered by user key, and then by descending tag.
def internalOrder (user : Comparator) : Bytes → Bytes → Int :=
  lex (fun a b => user.compare (userPart a) (userPart b)) tagOrder

theorem tagOrder_totalPreorder : TotalPreorder tagOrder where
  swap a b := by
    unfold tagOrder
    split_ifs <;> omega
  trans a b c hab hbc := by
    unfold tagOrder at *
    split_ifs at * <;> omega

theorem internalOrder_totalPreorder {user : Comparator} (hu : TotalPreorder user.compare) :
    TotalPreorder (internalOrder user) :=
  (hu.comap userPart).lex tagOrder_totalPreorder

theorem extractUserKey_eq (internalKey : Bytes) (h : 8 ≤ internalKey.length) :
    extractUserKey internalKey = .ok (userPart internalKey) := by
  simp [extractUserKey, h, userPart]

theorem decodeFixed64_tag (internalKey : Bytes) (h : 8 ≤ internalKey.length) :
    decodeFixed64 internalKey (internalKey.length - 8) = .ok (tagOf internalKey) := by
  have hle : internalKey.length - 8 + 8 ≤ internalKey.length := by omega
  simp [decodeFixed64, readRange, hle, tagOf]

theorem internalCompare_eq (user : Comparator) (a b : Bytes) (ha : 8 ≤ a.length)
    (hb : 8 ≤ b.length) : internalCompare user a b = .ok (internalOrder user a b) := by
  simp only [internalCompare, extractUserKey_eq, decodeFixed64_tag, ha, hb, ok_bind, pure_eq,
    internalOrder, lex, tagOrder]
  split_ifs with hzero <;> simp [hzero]

@[simp] theorem makeInternalKey_length (userKey : Bytes) (tag : Nat) :
    (makeInternalKey userKey tag).length = userKey.length + 8 := by
  simp [makeInternalKey]

@[simp] theorem userPart_make (userKey : Bytes) (tag : Nat) :
    userPart (makeInternalKey userKey tag) = userKey := by
  rw [userPart, makeInternalKey_length, Nat.add_sub_cancel, makeInternalKey, List.take_left]

theorem tagOf_make (userKey : Bytes) (tag : Nat) (htag : tag < 2 ^ 64) :
    tagOf (makeInternalKey userKey tag) = tag := by
  rw [tagOf, makeInternalKey_length, Nat.add_sub_cancel, makeInternalKey, List.drop_left,
    List.take_of_length_le (by simp), encodeFixed64,
    Lib.LittleEndian.value_bytes_of_lt 8 tag (htag.trans_eq (by decide))]

theorem internalOrder_neg_iff (user : Comparator) (a b : Bytes) : internalOrder user a b < 0 ↔
    user.compare (userPart a) (userPart b) < 0 ∨
      user.compare (userPart a) (userPart b) = 0 ∧ tagOf b < tagOf a := by
  simp only [internalOrder, lex, tagOrder]
  split_ifs <;> omega

theorem internalOrder_zero_iff (user : Comparator) (a b : Bytes) : internalOrder user a b = 0 ↔
    user.compare (userPart a) (userPart b) = 0 ∧ tagOf b = tagOf a := by
  simp only [internalOrder, lex, tagOrder]
  split_ifs
  · constructor
    · intro h
      cases h
    · intro h
      omega
  all_goals omega

theorem packedTag_lt (s : Nat) (t : ValueType) (hs : s ≤ kMaxSequenceNumber) :
    packedTag s t < 2 ^ 64 := by
  have hmax : kMaxSequenceNumber = 2 ^ 56 - 1 := by decide
  cases t <;> simp only [packedTag, ValueType.toNat] <;> omega

theorem shift_or_eq (s : Nat) (t : ValueType) : s <<< 8 ||| t.toNat = packedTag s t := by
  have ht : t.toNat < 2 ^ 8 := by cases t <;> decide
  rw [Nat.shiftLeft_eq, Nat.mul_comm, ← Nat.two_pow_add_eq_or_of_lt ht]
  rfl

theorem shift_or_type (s : Nat) (t : ValueType) (hs : s ≤ kMaxSequenceNumber) :
    (s <<< 8 ||| t.toNat) % 2 ^ 64 = packedTag s t := by
  rw [shift_or_eq, Nat.mod_eq_of_lt (packedTag_lt s t hs)]

theorem packedTag_type (s : Nat) (t : ValueType) : packedTag s t &&& 0xff = t.toNat := by
  have ht : t.toNat < 256 := by cases t <;> decide
  have hand : packedTag s t &&& 0xff = packedTag s t % 256 :=
    Nat.and_two_pow_sub_one_eq_mod (packedTag s t) 8
  rw [hand, packedTag]
  omega

theorem packSequenceAndType_eq (s : Nat) (t : ValueType) (hs : s ≤ kMaxSequenceNumber) :
    packSequenceAndType s t = .ok (packedTag s t) := by
  have ht : t.toNat ≤ kValueTypeForSeek.toNat := by cases t <;> decide
  simp only [packSequenceAndType, assertThat_pos hs, assertThat_pos ht, ok_bind, pure_eq,
    shift_or_type s t hs]

namespace LookupKey

-- What the constructor builds for a key of any length.
def made (userKey : Bytes) (s : Nat) : LookupKey :=
  ⟨encodeVarint32 ((userKey.length + 8) % 2 ^ 32) ++
    makeInternalKey userKey (packedTag s kValueTypeForSeek),
    (encodeVarint32 ((userKey.length + 8) % 2 ^ 32)).length⟩

theorem new_eq (userKey : Bytes) (s : Nat) (hs : s ≤ kMaxSequenceNumber) :
    new userKey s = .ok (made userKey s) := by
  have hlen := (encodeVarint32_spec _
    (Nat.mod_lt (userKey.length + 8) (by decide : 0 < 2 ^ 32))).2.2.2
  have hcap : spaceSize = 200 := rfl
  simp only [new, packSequenceAndType_eq s _ hs, ok_bind]
  rw [if_pos]
  · simp [made, makeInternalKey]
  · simp only [List.length_append, encodeFixed64_length, hcap]
    split <;> omega

@[simp] theorem userKey_made (userKey : Bytes) (s : Nat) : (made userKey s).userKey = userKey := by
  have hsub (n : Nat) : n + (userKey.length + 8) - n - 8 = userKey.length := by omega
  simp only [LookupKey.userKey, made, List.drop_left, List.length_append, makeInternalKey_length,
    hsub]
  rw [makeInternalKey, List.take_left]

end LookupKey

end Mylldb

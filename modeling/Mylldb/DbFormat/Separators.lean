import Mylldb.Comparator.Separators
import Mylldb.DbFormat.Theorems

namespace Mylldb.InternalKeyComparator

open Lib.Run Lib.ThreeWay

-- `Compare` returns, and says that `a` is not after `b`, or that it is before it.
def AtMost (user : Comparator) (a b : Bytes) : Prop :=
  ∃ r, internalCompare user a b = .ok r ∧ r ≤ 0

def Before (user : Comparator) (a b : Bytes) : Prop :=
  ∃ r, internalCompare user a b = .ok r ∧ r < 0

section Order

variable {user : Comparator} {a b c : Bytes}

theorem atMost_iff (ha : 8 ≤ a.length) (hb : 8 ≤ b.length) :
    AtMost user a b ↔ internalOrder user a b ≤ 0 := by
  simp [AtMost, internalCompare_eq user a b ha hb]

theorem before_iff (ha : 8 ≤ a.length) (hb : 8 ≤ b.length) :
    Before user a b ↔ internalOrder user a b < 0 := by
  simp [Before, internalCompare_eq user a b ha hb]

end Order

theorem earliestTag : packSequenceAndType kMaxSequenceNumber kValueTypeForSeek =
    .ok (packedTag kMaxSequenceNumber kValueTypeForSeek) :=
  packSequenceAndType_eq kMaxSequenceNumber kValueTypeForSeek (Nat.le_refl _)

-- A user key in between makes an internal key in between, whatever its tag.
theorem makeInternalKey_between (user : Comparator) (start limit tmp : Bytes) (tag : Nat)
    (hleft : user.compare (userPart start) tmp < 0)
    (hright : user.compare tmp (userPart limit) < 0) :
    internalOrder user start (makeInternalKey tmp tag) < 0 ∧
      internalOrder user (makeInternalKey tmp tag) limit < 0 := by
  constructor
  · apply (internalOrder_neg_iff _ _ _).mpr
    rw [userPart_make]
    exact .inl hleft
  · apply (internalOrder_neg_iff _ _ _).mpr
    rw [userPart_make]
    exact .inl hright

-- The result is the old key, or a shorter user key in between with the earliest tag.
theorem findShortestSeparator_cases (start limit : Bytes) (hstart : 8 ≤ start.length)
    (hlimit : 8 ≤ limit.length) :
    ∃ result, findShortestSeparator bytewiseComparator start limit = .ok result ∧
      8 ≤ result.length ∧ result.length ≤ start.length ∧ (result = start ∨
        internalOrder bytewiseComparator start result < 0 ∧
          internalOrder bytewiseComparator result limit < 0) := by
  unfold findShortestSeparator
  rw [extractUserKey_eq start hstart, ok_bind, extractUserKey_eq limit hlimit, ok_bind]
  dsimp only
  have hbetween := bytewiseComparator_between (userPart start) (userPart limit)
  generalize bytewiseComparator.findShortestSeparator (userPart start) (userPart limit) = tmp
    at hbetween ⊢
  split
  · rename_i hshorter
    obtain ⟨hlen, hless⟩ := hshorter
    have hseparates : Slice.compare (userPart start) tmp < 0 ∧
        Slice.compare tmp (userPart limit) < 0 := by
      rcases hbetween with rfl | hbetween
      · exact absurd hlen (Nat.lt_irrefl _)
      · exact hbetween
    have hresult : putFixed64 tmp (packedTag kMaxSequenceNumber kValueTypeForSeek) =
        makeInternalKey tmp (packedTag kMaxSequenceNumber kValueTypeForSeek) := rfl
    have hfits : 8 ≤ (makeInternalKey tmp
        (packedTag kMaxSequenceNumber kValueTypeForSeek)).length := by
      rw [makeInternalKey_length]
      omega
    obtain ⟨hbelow, habove⟩ := makeInternalKey_between bytewiseComparator start limit tmp
      (packedTag kMaxSequenceNumber kValueTypeForSeek) hseparates.1 hseparates.2
    rw [earliestTag, ok_bind, hresult, internalCompare_eq _ _ _ hstart hfits, ok_bind,
      assertThat_pos hbelow, ok_bind, internalCompare_eq _ _ _ hfits hlimit, ok_bind,
      assertThat_pos habove, ok_bind, pure_eq]
    refine ⟨_, rfl, hfits, ?_, .inr ⟨hbelow, habove⟩⟩
    rw [userPart, List.length_take] at hlen
    rw [makeInternalKey_length]
    omega
  · exact ⟨start, rfl, hstart, Nat.le_refl _, .inl rfl⟩

-- A shortened separator still has every key up to `start` on its left and every key
-- from `limit` on its right.
theorem separator_valid (start limit : Bytes) (hstart : 8 ≤ start.length)
    (hlimit : 8 ≤ limit.length) (hlt : Before bytewiseComparator start limit) :
    ∃ result, findShortestSeparator bytewiseComparator start limit = .ok result ∧
      8 ≤ result.length ∧ result.length ≤ start.length ∧
      AtMost bytewiseComparator start result ∧ Before bytewiseComparator result limit ∧
      ∀ key, 8 ≤ key.length →
        (AtMost bytewiseComparator key start → AtMost bytewiseComparator key result) ∧
        (AtMost bytewiseComparator limit key → Before bytewiseComparator result key) := by
  have horder : TotalPreorder (internalOrder bytewiseComparator) :=
    internalOrder_totalPreorder Slice.compare_totalOrder.toTotalPreorder
  obtain ⟨result, hrun, hfits, hlen, hcases⟩ := findShortestSeparator_cases start limit hstart hlimit
  rw [before_iff hstart hlimit] at hlt
  have hleft : internalOrder bytewiseComparator start result ≤ 0 := by
    rcases hcases with rfl | ⟨hbelow, -⟩
    · exact Int.le_of_eq (horder.refl result)
    · exact Int.le_of_lt hbelow
  have hright : internalOrder bytewiseComparator result limit < 0 := by
    rcases hcases with rfl | ⟨-, habove⟩
    · exact hlt
    · exact habove
  refine ⟨result, hrun, hfits, hlen, (atMost_iff hstart hfits).mpr hleft,
    (before_iff hfits hlimit).mpr hright, ?_⟩
  intro key hkey
  rw [atMost_iff hkey hstart, atMost_iff hkey hfits, atMost_iff hlimit hkey, before_iff hfits hkey]
  constructor
  · intro hle
    exact horder.trans key start result hle hleft
  · intro hle
    exact horder.lt_of_lt_of_le result limit key hright hle

-- The user keys are "abc" and "ae", and "ac" is put between them.
theorem separator_valid_sample : ∃ result,
    findShortestSeparator bytewiseComparator ([97, 98, 99] ++ List.replicate 8 0)
      ([97, 101] ++ List.replicate 8 0) = .ok result ∧
    Before bytewiseComparator result ([97, 101] ++ List.replicate 8 0) := by
  obtain ⟨result, hrun, -, -, -, hbefore, -⟩ :=
    separator_valid ([97, 98, 99] ++ List.replicate 8 0) ([97, 101] ++ List.replicate 8 0)
      (by decide) (by decide) ⟨-3, by decide +kernel, by decide⟩
  exact ⟨result, hrun, hbefore⟩

-- What stands in front of the last eight bytes belongs to the user key.
theorem userPart_append (before key : Bytes) (hkey : 8 ≤ key.length) :
    userPart (before ++ key) = before ++ userPart key := by
  have hlen : before.length + key.length - 8 = before.length + (key.length - 8) := by omega
  rw [userPart, List.length_append, hlen, List.take_length_add_append]
  rfl

theorem tagOf_append (before key : Bytes) (hkey : 8 ≤ key.length) :
    tagOf (before ++ key) = tagOf key := by
  have hlen : before.length + key.length - 8 = before.length + (key.length - 8) := by omega
  rw [tagOf, List.length_append, hlen, List.drop_length_add_append]
  rfl

-- The last byte of a tag is its highest.
theorem tagOf_concat (bs : Bytes) (hbs : bs.length = 7) (b : UInt8) :
    tagOf (bs ++ [b]) = Lib.LittleEndian.value bs + 256 ^ 7 * b.toNat := by
  have hall : ((bs ++ [b]).drop ((bs ++ [b]).length - 8)).take 8 = bs ++ [b] := by
    rw [List.length_append, hbs, List.length_singleton, List.drop_zero]
    exact List.take_of_length_le (by rw [List.length_append, hbs, List.length_singleton])
  rw [tagOf, hall, Lib.LittleEndian.value_append, hbs, Lib.LittleEndian.value,
    Lib.LittleEndian.value]
  rfl

-- The raised byte is the highest one of the new tag, which makes the key earlier, and
-- the user key loses all that followed.
theorem raised_before (n : Nat) (byte : UInt8) (rest : Bytes) (hbyte : byte ≠ 0xff)
    (hn : 7 ≤ n) : internalOrder bytewiseComparator (List.replicate n 0xff ++ [byte + 1])
      (List.replicate n 0xff ++ byte :: rest) < 0 := by
  have hrun : List.replicate n (0xff : UInt8) =
      List.replicate (n - 7) 0xff ++ List.replicate 7 0xff := by
    rw [List.replicate_append_replicate, Nat.sub_add_cancel hn]
  have hresult : 8 ≤ (List.replicate 7 (0xff : UInt8) ++ [byte + 1]).length := by simp
  have hkey : 8 ≤ (List.replicate 7 (0xff : UInt8) ++ byte :: rest).length := by
    simp only [List.length_append, List.length_replicate, List.length_cons]
    omega
  apply (internalOrder_neg_iff _ _ _).mpr
  rw [hrun, List.append_assoc, List.append_assoc, userPart_append _ _ hresult,
    userPart_append _ _ hkey, tagOf_append _ _ hresult, tagOf_append _ _ hkey]
  change Slice.compare _ _ < 0 ∨ Slice.compare _ _ = 0 ∧ _
  rw [Slice.compare_append]
  cases rest with
  | nil =>
      right
      refine ⟨rfl, ?_⟩
      have hne : byte.toNat ≠ 255 := fun h => hbyte (UInt8.toNat_inj.mp h)
      have hlt := byte.toNat_lt
      have hraised := BytewiseComparatorImpl.toNat_raised byte (by omega)
      rw [tagOf_concat _ (by simp), tagOf_concat _ (by simp), hraised]
      omega
  | cons c rest =>
      left
      have hempty : userPart (List.replicate 7 (0xff : UInt8) ++ [byte + 1]) = [] := rfl
      have hmore : userPart (List.replicate 7 (0xff : UInt8) ++ byte :: c :: rest) =
          0xff :: (List.replicate 6 0xff ++ byte :: c :: rest).take rest.length := by
        rw [userPart, List.length_append, List.length_replicate, List.length_cons,
          List.length_cons, show 7 + (rest.length + 1 + 1) - 8 = rest.length + 1 by omega]
        rfl
      rw [hempty, hmore, Slice.compare_nil_cons]
      decide

-- The successor is shortened like a user key, so that it is cut off in the tag or
-- sorts before the key, unless there is nothing to change.
theorem shortSuccessor_valid_iff (key : Bytes) (hkey : 8 ≤ key.length) :
    (8 ≤ (findShortSuccessor key).length ∧
      AtMost bytewiseComparator key (findShortSuccessor key)) ↔ ∀ b ∈ key, b = 0xff := by
  have horder : TotalPreorder (internalOrder bytewiseComparator) :=
    internalOrder_totalPreorder Slice.compare_totalOrder.toTotalPreorder
  unfold findShortSuccessor
  rcases shortSuccessor_cases key with ⟨hall, hsame⟩ | ⟨n, byte, rest, hne, hraised, hresult⟩
  · rw [hsame, atMost_iff hkey hkey]
    exact ⟨fun _ => hall, fun _ => ⟨hkey, Int.le_of_eq (horder.refl key)⟩⟩
  · constructor
    · rintro ⟨hfits, hle⟩
      rw [atMost_iff hkey hfits] at hle
      have hn : 7 ≤ n := by
        rw [hresult, List.length_append, List.length_replicate, List.length_singleton] at hfits
        omega
      have hlt := raised_before n byte rest hne hn
      rw [← hraised, ← hresult] at hlt
      have hswap := (horder.swap _ _).mp hlt
      omega
    · intro hall
      exact absurd (hall byte (by rw [hraised]; simp)) hne

theorem shortSuccessor_valid_iff_sample :
    AtMost bytewiseComparator (List.replicate 9 0xff)
      (findShortSuccessor (List.replicate 9 0xff)) :=
  ((shortSuccessor_valid_iff (List.replicate 9 0xff) (by decide)).mpr
    fun _ hb => List.eq_of_mem_replicate hb).2

-- The successor of the user key "a" with any tag is one byte long.
theorem shortSuccessor_cut :
    ¬(8 ≤ (findShortSuccessor ([97] ++ List.replicate 8 1)).length ∧
      AtMost bytewiseComparator ([97] ++ List.replicate 8 1)
        (findShortSuccessor ([97] ++ List.replicate 8 1))) := by
  rintro ⟨hfits, -⟩
  revert hfits
  decide

end Mylldb.InternalKeyComparator

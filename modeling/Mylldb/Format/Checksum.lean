import Mylldb.Format.Safety

namespace Mylldb

open Lib.Crc Lib.Run

-- A block as it lies in a file: the contents, the type byte and the masked checksum
-- of both.
def storedBlock (data : Bytes) (type : UInt8) : Bytes :=
  data ++ type :: encodeFixed32 (Crc32c.mask (Crc32c.checksum (data ++ [type]))).toNat

-- A copy of a stored block with `n` bytes of contents that differs from it only
-- within four bytes in front of the checksum or only in the checksum.
inductive Damaged (n : Nat) (stored copy : Bytes) : Prop where
  | checked (hlen : copy.length = stored.length) (hne : copy ≠ stored)
      (hcrc : copy.drop (n + 1) = stored.drop (n + 1)) (p : Nat)
      (hwindow : ∀ i, copy[i]? ≠ stored[i]? → p ≤ i ∧ i < p + 4) : Damaged n stored copy
  | crc (hlen : copy.length = stored.length) (hne : copy ≠ stored)
      (hchecked : copy.take (n + 1) = stored.take (n + 1)) : Damaged n stored copy

section Stored

variable (data : Bytes) (type : UInt8)

@[simp] theorem storedBlock_length : (storedBlock data type).length =
    data.length + kBlockTrailerSize := by
  rw [storedBlock, List.length_append, List.length_cons, encodeFixed32_length]
  rfl

theorem storedBlock_eq : storedBlock data type = (data ++ [type]) ++
    encodeFixed32 (Crc32c.mask (Crc32c.checksum (data ++ [type]))).toNat := by
  rw [storedBlock, List.append_assoc, List.singleton_append]

theorem take_storedBlock : (storedBlock data type).take (data.length + 1) = data ++ [type] := by
  rw [storedBlock_eq]
  exact List.take_left' (by rw [List.length_append, List.length_singleton])

theorem drop_storedBlock : (storedBlock data type).drop (data.length + 1) =
    encodeFixed32 (Crc32c.mask (Crc32c.checksum (data ++ [type]))).toNat := by
  rw [storedBlock_eq]
  exact List.drop_left' (by rw [List.length_append, List.length_singleton])

end Stored

-- The checksum of what lies in front of the last four bytes is compared with them.
theorem checksumMatches_eq (bytes : Bytes) (address n : Nat)
    (hlen : bytes.length = n + kBlockTrailerSize) (hn : n + kBlockTrailerSize < 2 ^ 64) :
    checksumMatches bytes address n = .ok
      (Crc32c.checksum (bytes.take (n + 1)) == Crc32c.unmask (word 32 (bytes.drop (n + 1)))) := by
  unfold kBlockTrailerSize at hlen hn
  have hstored : decodeFixed32 bytes (n + 1) =
      .ok (Lib.LittleEndian.value (bytes.drop (n + 1))) := by
    rw [decodeFixed32, readRange_total bytes (n + 1) 4 (by omega), ok_bind,
      List.take_of_length_le (by rw [List.length_drop]; omega), pure_eq]
  have hchecked := readRange_total bytes 0 (n + 1) (by omega)
  rw [List.drop_zero] at hchecked
  unfold checksumMatches
  rw [Nat.mod_eq_of_lt (by omega), hstored, ok_bind, hchecked, ok_bind, Crc32c.value_eq, ok_bind]
  rfl

section Detection

variable {data bytes : Bytes} {type : UInt8}

theorem word_crc : word 32 ((storedBlock data type).drop (data.length + 1)) =
    Crc32c.mask (Crc32c.checksum (data ++ [type])) := by
  have hlt : (Crc32c.mask (Crc32c.checksum (data ++ [type]))).toNat < 256 ^ 4 := BitVec.isLt _
  rw [drop_storedBlock, word, encodeFixed32, Lib.LittleEndian.value_bytes_of_lt _ _ hlt,
    BitVec.ofNat_toNat, BitVec.setWidth_eq]

theorem checksumMatches_stored (data : Bytes) (type : UInt8) (address : Nat)
    (hn : data.length + kBlockTrailerSize < 2 ^ 64) :
    checksumMatches (storedBlock data type) address data.length = .ok true := by
  rw [checksumMatches_eq _ _ _ (storedBlock_length data type) hn, take_storedBlock, word_crc,
    Crc32c.unmask_mask, beq_self_eq_true]

theorem checkBlock_stored (options : ReadOptions) (data : Bytes) (type : UInt8) (address : Nat)
    (hn : data.length + kBlockTrailerSize < 2 ^ 64) :
    checkBlock options (storedBlock data type) address data.length = .ok true := by
  unfold checkBlock
  rw [checksumMatches_stored data type address hn]
  split <;> rfl

theorem split_checked (bytes : Bytes) (n : Nat) :
    bytes = bytes.take (n + 1) ++ bytes.drop (n + 1) :=
  (List.take_append_drop _ bytes).symm

-- Short damage in front of the checksum gives another checksum.
theorem checksum_ne_of_window {n p : Nat} {stored : Bytes} (hlen : bytes.length = stored.length)
    (hne : bytes ≠ stored) (hcrc : bytes.drop (n + 1) = stored.drop (n + 1))
    (hwindow : ∀ i, bytes[i]? ≠ stored[i]? → p ≤ i ∧ i < p + 4) :
    Crc32c.checksum (bytes.take (n + 1)) ≠ Crc32c.checksum (stored.take (n + 1)) := by
  intro hsum
  apply hne
  rw [split_checked bytes n, split_checked stored n, hcrc]
  congr 1
  refine Crc32c.checksum_window (p := p) (by simp [hlen]) ?_ hsum
  intro i hi
  apply hwindow i
  intro heq
  apply hi
  rw [List.getElem?_take, List.getElem?_take, heq]

-- The four bytes of the checksum are determined by what they are compared with.
theorem unmask_ne_of_checked {n : Nat} {stored : Bytes} (hstored : stored.length = n + 5)
    (hlen : bytes.length = stored.length) (hne : bytes ≠ stored)
    (hchecked : bytes.take (n + 1) = stored.take (n + 1)) :
    Crc32c.unmask (word 32 (bytes.drop (n + 1))) ≠
      Crc32c.unmask (word 32 (stored.drop (n + 1))) := by
  intro hcrc
  apply hne
  have hword : word 32 (bytes.drop (n + 1)) = word 32 (stored.drop (n + 1)) := by
    rw [← Crc32c.mask_unmask (word 32 (bytes.drop (n + 1))), hcrc, Crc32c.mask_unmask]
  have hfour : (bytes.drop (n + 1)).length = 4 := by
    rw [List.length_drop]
    omega
  have hdrop := word_inj _ _ (by rw [List.length_drop, List.length_drop, hlen]) (by rw [hfour]) hword
  rw [split_checked bytes n, split_checked stored n, hchecked, hdrop]

theorem checksumMatches_damaged (address : Nat)
    (hn : data.length + kBlockTrailerSize < 2 ^ 64)
    (h : Damaged data.length (storedBlock data type) bytes) :
    checksumMatches bytes address data.length = .ok false := by
  have hlength := storedBlock_length data type
  cases h with
  | checked hlen hne hcrc p hwindow =>
      have hsum := checksum_ne_of_window hlen hne hcrc hwindow
      rw [take_storedBlock] at hsum
      rw [checksumMatches_eq _ _ _ (hlen.trans hlength) hn, hcrc, word_crc, Crc32c.unmask_mask,
        beq_eq_false_iff_ne.mpr hsum]
  | crc hlen hne hchecked =>
      have hcrc := unmask_ne_of_checked hlength hlen hne hchecked
      rw [word_crc, Crc32c.unmask_mask] at hcrc
      rw [checksumMatches_eq _ _ _ (hlen.trans hlength) hn, hchecked, take_storedBlock,
        beq_eq_false_iff_ne.mpr hcrc.symm]

variable (file : RandomAccessFile) (options : ReadOptions) (handle : BlockHandle)

-- An undamaged block gets as far as the type byte.
theorem readBlock_reaches_type (hn : data.length + kBlockTrailerSize < 2 ^ 64)
    (hsize : handle.size = data.length) (hstatus : (blockRead file handle).status = .ok)
    (hstored : (blockRead file handle).contents = storedBlock data type) :
    readBlock file options handle = typedContents (blockRead file handle) data.length := by
  have hlen : (blockRead file handle).contents.length = data.length + kBlockTrailerSize := by
    rw [hstored, storedBlock_length]
  have hintact := checkBlock_stored options data type (blockRead file handle).address hn
  rw [readBlock_eq, if_neg (not_not.mpr hstatus), hsize, Nat.mod_eq_of_lt hn,
    if_neg (not_not.mpr hlen), hstored, hintact, ok_bind]
  exact if_pos rfl

theorem readBlock_undamaged (hn : data.length + kBlockTrailerSize < 2 ^ 64)
    (hsize : handle.size = data.length) (hstatus : (blockRead file handle).status = .ok)
    (hstored : (blockRead file handle).contents = storedBlock data type) :
    ∃ s contents, readBlock file options handle = .ok (s, contents) ∧
      s ≠ Status.corruption "block checksum mismatch" "" := by
  have hplace : data.length < (blockRead file handle).contents.length := by
    rw [hstored, storedBlock_length, kBlockTrailerSize]
    omega
  obtain ⟨s, contents, htyped, hs, -⟩ :=
    typedContents_total (blockRead file handle) data.length hplace
  rw [readBlock_reaches_type file options handle hn hsize hstatus hstored]
  refine ⟨s, contents, htyped, ?_⟩
  rcases hs with rfl | rfl
  · decide
  · decide

theorem readBlock_damaged (hn : data.length + kBlockTrailerSize < 2 ^ 64)
    (hsize : handle.size = data.length) (hstatus : (blockRead file handle).status = .ok)
    (hdamaged : Damaged data.length (storedBlock data type) (blockRead file handle).contents)
    (hverify : options.verifyChecksums = true) :
    readBlock file options handle =
      .ok (Status.corruption "block checksum mismatch" "", emptyContents) := by
  have hlen : (blockRead file handle).contents.length = data.length + kBlockTrailerSize := by
    rw [← storedBlock_length data type]
    cases hdamaged with
    | checked hlen => exact hlen
    | crc hlen => exact hlen
  rw [readBlock_eq, if_neg (not_not.mpr hstatus), hsize, Nat.mod_eq_of_lt hn,
    if_neg (not_not.mpr hlen), checkBlock, if_pos hverify, checksumMatches_damaged _ hn hdamaged,
    ok_bind]
  rfl

end Detection

end Mylldb

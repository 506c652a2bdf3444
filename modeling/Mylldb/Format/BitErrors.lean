import Mathlib.NumberTheory.LucasLehmer
import Mylldb.Format.Checksum
import Mylldb.Lib.CrcErrors

namespace Mylldb

open Lib.Crc Lib.Run

namespace Crc32c

theorem polynomial_parity : parity polynomial = true := by decide

-- The powers of the variable modulo the polynomial, squared thirty-one times.
theorem top_returns : (fun g => mulBy polynomial g g)^[31] (bitStep polynomial (top 32)) =
    bitStep polynomial (top 32) := by
  decide +kernel

theorem period_prime : Nat.Prime (2 ^ 31 - 1) :=
  lucas_lehmer_sufficiency 31 (by decide) (by norm_num)

theorem one_returns : advance polynomial (2 ^ 31 - 1) 1#32 = 1#32 := by
  have hpower : advance polynomial (2 ^ 31) (top 32) = bitStep polynomial (top 32) :=
    (advance_two_pow polynomial (by decide) 31).trans top_returns
  have hsplit : bitStep polynomial (advance polynomial (2 ^ 31 - 1) (top 32)) =
      bitStep polynomial (top 32) := by
    rw [← hpower, bitStep_advance, ← advance_succ, Nat.sub_add_cancel (by decide)]
  have htop : advance polynomial (2 ^ 31 - 1) (top 32) = top 32 :=
    bitStep_injective polynomial polynomial_msb hsplit
  rw [← advance_top polynomial, ← advance_add, Nat.add_comm, advance_add, htop]

-- An odd number of bits, or two bits of no more than 2^31 - 1.
def FewFlips (n : Nat) (ks : List Nat) : Prop :=
  Odd ks.length ∨ 8 * n < 2 ^ 31 ∧ ks.length = 2 ∧ ks.Nodup

theorem checksum_flips (bs : Bytes) (ks : List Nat) (hks : ∀ k ∈ ks, k < 8 * bs.length)
    (hfew : FewFlips bs.length ks) : checksum (flips bs ks) ≠ checksum bs := by
  have hsyndrome : syndrome polynomial bs.length ks ≠ 0#32 := by
    rcases hfew with hodd | ⟨hshort, htwo, hnodup⟩
    · exact syndrome_ne_of_odd polynomial polynomial_parity (by decide) _ hodd
    · obtain ⟨i, j, rfl⟩ := List.length_eq_two.mp htwo
      have hij : i ≠ j := by simpa using hnodup
      exact syndrome_two_ne polynomial polynomial_msb period_prime one_returns (by decide) hij
        (hks i (by simp)) (hks j (by simp)) (by omega)
  intro hsum
  have hfeed := (BitVec.xor_left_inj _).mp hsum
  rw [feedAll_flips polynomial _ bs ks (by decide) hks] at hfeed
  apply hsyndrome
  calc syndrome polynomial bs.length ks
      = feedAll polynomial (0 ^^^ kCRC32Xor) bs ^^^
          (feedAll polynomial (0 ^^^ kCRC32Xor) bs ^^^ syndrome polynomial bs.length ks) := by
        rw [← BitVec.xor_assoc, BitVec.xor_self, BitVec.zero_xor]
    _ = 0#32 := by rw [hfeed, BitVec.xor_self]

end Crc32c

open Crc32c

-- Only bits of the contents and the type are flipped.
theorem checksumMatches_flipped (data : Bytes) (type : UInt8) (address : Nat) (ks : List Nat)
    (hn : data.length + kBlockTrailerSize < 2 ^ 64) (hks : ∀ k ∈ ks, k < 8 * (data.length + 1))
    (hfew : FewFlips (data.length + 1) ks) :
    checksumMatches (flips (storedBlock data type) ks) address data.length = .ok false := by
  have hlen : (data ++ [type]).length = data.length + 1 := by simp
  have hlength : (flips (storedBlock data type) ks).length = data.length + kBlockTrailerSize := by
    rw [flips_length, storedBlock_length]
  have hflips : flips (storedBlock data type) ks =
      flips (data ++ [type]) ks ++ encodeFixed32 (mask (checksum (data ++ [type]))).toNat := by
    rw [storedBlock_eq, flips_append _ _ _ (by rwa [hlen])]
  have hchecked : (flips (storedBlock data type) ks).take (data.length + 1) = flips (data ++ [type]) ks := by
    rw [hflips]
    exact List.take_left' (by rw [flips_length, hlen])
  have hcrc : (flips (storedBlock data type) ks).drop (data.length + 1) =
      (storedBlock data type).drop (data.length + 1) := by
    rw [hflips, drop_storedBlock]
    exact List.drop_left' (by rw [flips_length, hlen])
  have hsum := checksum_flips (data ++ [type]) ks (by rwa [hlen]) (by rwa [hlen])
  rw [checksumMatches_eq _ _ _ hlength hn, hchecked, hcrc, word_crc, unmask_mask,
    beq_eq_false_iff_ne.mpr hsum]

-- A block whose checksum does not match is not handed on.
theorem readBlock_mismatch (file : RandomAccessFile) (options : ReadOptions) (handle : BlockHandle)
    (hn : handle.size + kBlockTrailerSize < 2 ^ 64) (hstatus : (blockRead file handle).status = .ok)
    (hlength : (blockRead file handle).contents.length = handle.size + kBlockTrailerSize)
    (hmatches : checksumMatches (blockRead file handle).contents (blockRead file handle).address
      handle.size = .ok false)
    (hverify : options.verifyChecksums = true) :
    readBlock file options handle =
      .ok (Status.corruption "block checksum mismatch" "", emptyContents) := by
  rw [readBlock_eq, if_neg (not_not.mpr hstatus), Nat.mod_eq_of_lt hn,
    if_neg (not_not.mpr hlength), checkBlock, if_pos hverify, hmatches, ok_bind]
  rfl

-- An odd number of flipped bits is always noticed, and so are two of them in a block of
-- less than 256 MiB.
theorem flips_detected (data : Bytes) (type : UInt8) (ks : List Nat)
    (hn : data.length + kBlockTrailerSize < 2 ^ 64) (hks : ∀ k ∈ ks, k < 8 * (data.length + 1))
    (hfew : FewFlips (data.length + 1) ks) (file : RandomAccessFile) (options : ReadOptions)
    (handle : BlockHandle) (hsize : handle.size = data.length)
    (hstatus : (blockRead file handle).status = .ok)
    (hflipped : (blockRead file handle).contents = flips (storedBlock data type) ks)
    (hverify : options.verifyChecksums = true) :
    readBlock file options handle =
      .ok (Status.corruption "block checksum mismatch" "", emptyContents) := by
  have hmatches := checksumMatches_flipped data type (blockRead file handle).address ks hn hks hfew
  rw [← hflipped, ← hsize] at hmatches
  refine readBlock_mismatch file options handle (hsize ▸ hn) hstatus ?_ hmatches hverify
  rw [hflipped, flips_length, storedBlock_length, hsize]

-- Two bits, of the first byte and of the type.
theorem flips_detected_sample :
    readBlock (.ofContents (flips (storedBlock [1, 2, 3] 0) [5, 24])) ⟨true⟩ ⟨0, 3⟩ =
      .ok (Status.corruption "block checksum mismatch" "", emptyContents) :=
  flips_detected [1, 2, 3] 0 [5, 24] (by decide) (by decide) (.inr (by decide))
    (.ofContents (flips (storedBlock [1, 2, 3] 0) [5, 24])) ⟨true⟩ ⟨0, 3⟩ rfl rfl
    (by decide +kernel) rfl

end Mylldb

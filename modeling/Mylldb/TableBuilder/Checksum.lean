import Mylldb.Format.Checksum
import Mylldb.TableBuilder.Errors

namespace Mylldb

open Lib.Run

-- The strides, the alignment and the cuts of the data do not show: the writer, which
-- takes the data and the type byte from two buffers, and the reader, which finds them
-- in one, compute the same checksum.
theorem checksum_serial :
    (∀ crc buf data, ∃ c, Crc32c.extendBytewise crc data = .ok c ∧
      Crc32c.extend crc buf data = .ok c) ∧
    (∀ crc buf buf' buf'' data data',
      (Crc32c.extend crc buf data >>= fun c => Crc32c.extend c buf' data') =
        Crc32c.extend crc buf'' (data ++ data')) ∧
    (∀ env log data type, ∃ crc,
      blockTrailer env log data type =
        .ok (type.toByte :: encodeFixed32 (Crc32c.mask crc).toNat) ∧
      ∀ address, Crc32c.value address (data ++ [type.toByte]) = .ok crc) := by
  refine ⟨?_, ?_, ?_⟩
  · intro crc buf data
    exact ⟨_, Crc32c.extendBytewise_eq crc data, Crc32c.extend_eq crc buf data⟩
  · intro crc buf buf' buf'' data data'
    have hfirst := Crc32c.extend_eq crc buf data
    rw [hfirst, ok_bind]
    exact Crc32c.extend_append crc _ buf buf' buf'' data data' hfirst
  · intro env log data type
    refine ⟨Crc32c.checksum (data ++ [type.toByte]), blockTrailer_eq env log data type, ?_⟩
    intro address
    exact Crc32c.value_eq address _

namespace TableBuilder

-- A raw block that is written without an error is appended as a stored block.
theorem writeRawBlock_stored (env : Environment) (file : WritableFile) (r r' : TableBuilder)
    (data : Bytes) (type : CompressionType) (handle : BlockHandle)
    (hwrite : r.writeRawBlock env file data type = .ok (r', handle)) (hok : r'.status = .ok) :
    data.length + kBlockTrailerSize < 2 ^ 64 ∧ handle = ⟨r.offset, data.length⟩ ∧
      r'.log.contents = r.log.contents ++ storedBlock data type.toByte := by
  obtain ⟨r₁, hwrite₁, hwrites⟩ := writeRawBlock_writes env file r data type
  rw [hwrite] at hwrite₁
  obtain ⟨rfl, rfl⟩ := Prod.mk.injEq _ _ _ _ ▸ Except.ok.inj hwrite₁
  obtain ⟨hsize, -, hcontents⟩ := hwrites.stored hok
  refine ⟨?_, rfl, hcontents⟩
  unfold kBlockTrailerSize
  omega

end TableBuilder

-- What `WriteRawBlock` stores, which has a size that the file can hold, is read back
-- without a complaint about the checksum, and every short damage is noticed.
theorem damage_detected (data : Bytes) (type : UInt8) :
    (∀ env file (r r' : TableBuilder) (t : CompressionType) handle, t.toByte = type →
      r.writeRawBlock env file data t = .ok (r', handle) → r'.status = .ok →
        data.length + kBlockTrailerSize < 2 ^ 64 ∧ handle = ⟨r.offset, data.length⟩ ∧
          r'.log.contents = r.log.contents ++ storedBlock data type) ∧
    (data.length + kBlockTrailerSize < 2 ^ 64 →
      ∀ (file : RandomAccessFile) (options : ReadOptions) (handle : BlockHandle),
        handle.size = data.length → (blockRead file handle).status = .ok →
          ((blockRead file handle).contents = storedBlock data type →
            ∃ s contents, readBlock file options handle = .ok (s, contents) ∧
              s ≠ Status.corruption "block checksum mismatch" "") ∧
          (Damaged data.length (storedBlock data type) (blockRead file handle).contents →
            options.verifyChecksums = true → readBlock file options handle =
              .ok (Status.corruption "block checksum mismatch" "", emptyContents))) := by
  refine ⟨?_, ?_⟩
  · rintro env file r r' t handle rfl hwrite hok
    exact TableBuilder.writeRawBlock_stored env file r r' data t handle hwrite hok
  · intro hn file options handle hsize hstatus
    exact ⟨readBlock_undamaged file options handle hn hsize hstatus,
      readBlock_damaged file options handle hn hsize hstatus⟩

-- One byte of the contents is changed.
theorem damage_detected_sample :
    readBlock (.ofContents ((storedBlock [1, 2, 3] 0).set 1 9)) ⟨true⟩ ⟨0, 3⟩ =
      .ok (Status.corruption "block checksum mismatch" "", emptyContents) := by
  obtain ⟨-, hread⟩ := damage_detected [1, 2, 3] 0
  obtain ⟨-, hdamaged⟩ := hread (by decide) (.ofContents ((storedBlock [1, 2, 3] 0).set 1 9)) ⟨true⟩ ⟨0, 3⟩
    rfl rfl
  refine hdamaged (.checked (by decide +kernel) (by decide +kernel) (by decide +kernel) 1 ?_) rfl
  intro i hi
  have hbytes : (blockRead (.ofContents ((storedBlock [1, 2, 3] 0).set 1 9)) ⟨0, 3⟩).contents =
      (storedBlock [1, 2, 3] 0).set 1 9 := by
    decide +kernel
  rw [hbytes] at hi
  by_cases hone : i = 1
  · omega
  · exact absurd (List.getElem?_set_ne (Ne.symm hone)) hi

end Mylldb

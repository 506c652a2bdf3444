import Mylldb.TableBuilder.Checksum

namespace Mylldb

open Lib.Run

variable {raw : Bytes} {type : CompressionType}

-- What `ReadBlock` makes of a stored block.
def readBackContents (raw : Bytes) (inScratch : Bool) : CompressionType → BlockContents
  | .kNoCompression => ⟨raw, inScratch, inScratch⟩
  | .kSnappyCompression => emptyContents

theorem typedContents_stored (s : ReadResult)
    (hcontents : s.contents = raw ++ trailer raw type) :
    typedContents s raw.length = .ok (.ok, readBackContents raw s.inScratch type) := by
  have htype : readByte s.contents raw.length = .ok type.toByte := by
    have hat : StandsAt s.contents raw.length (trailer raw type) := by
      rw [hcontents]
      exact .last _ _
    exact hat.readByte_eq
  unfold typedContents
  rw [htype, ok_bind]
  cases type with
  | kNoCompression =>
      rw [if_pos rfl, hcontents, List.take_left]
      rfl
  | kSnappyCompression =>
      rw [if_neg (by decide), if_pos rfl]
      rfl

theorem readBlock_stored (reader : RandomAccessFile) (opt : ReadOptions) (offset : Nat)
    (hlen : raw.length + 5 < 2 ^ 64)
    (hstatus : (reader.read offset (raw.length + 5)).status = .ok)
    (hcontents : (reader.read offset (raw.length + 5)).contents = raw ++ trailer raw type) :
    readBlock reader opt ⟨offset, raw.length⟩ = .ok (.ok, readBackContents raw
      (reader.read offset (raw.length + 5)).inScratch type) := by
  have hread : blockRead reader ⟨offset, raw.length⟩ = reader.read offset (raw.length + 5) := by
    rw [blockRead, kBlockTrailerSize, Nat.mod_eq_of_lt hlen]
  rw [← hread] at hstatus hcontents ⊢
  rw [readBlock_reaches_type reader opt ⟨offset, raw.length⟩ hlen rfl hstatus hcontents]
  exact typedContents_stored _ hcontents

-- A finished block holds at least its restart count.
theorem BlockBuilder.finish_ne_nil (block : BlockBuilder) : block.finish.2 ≠ [] := by
  intro hnil
  have hlen := congrArg List.length hnil
  rw [BlockBuilder.finish_eq] at hlen
  simp only [List.length_append, encodeFixed32_length, List.length_nil] at hlen
  omega

namespace TableBuilder

variable (env : Environment) (file : WritableFile)

-- Only an uncompressed block comes back as it was written: the branch for the
-- other type byte leaves the result empty.
theorem readBlock_writeBlock (r r' : TableBuilder) (block block' : BlockBuilder)
    (handle : BlockHandle) (hoffset : r.offset = r.log.contents.length)
    (hwrite : r.writeBlock env file block = .ok (r', block', handle)) (hok : r'.status = .ok)
    (reader : RandomAccessFile) (hserves : reader.Serves r'.log.contents) (opt : ReadOptions) :
    (∃ contents, readBlock reader opt handle = .ok (.ok, contents) ∧
      contents.data = block.finish.2) ↔ r.options.compression = .kNoCompression := by
  have hstart : r.status = .ok := by
    by_contra hbad
    unfold writeBlock at hwrite
    rw [assertThat_neg hbad] at hwrite
    cases hwrite
  obtain ⟨r₁, hwrite₁, hwrites⟩ := writeBlock_writes env file r block hstart
  rw [hwrite] at hwrite₁
  obtain ⟨rfl, rfl, rfl⟩ := Prod.mk.injEq _ _ _ _ ▸ Except.ok.inj hwrite₁
  obtain ⟨hsize, -, hcontents⟩ := hwrites.stored hok
  rw [hcontents] at hserves
  have hread := hserves r.offset (block.finish.2.length + 5) (by
    rw [hoffset]
    simp only [List.length_append, trailer_length]
    omega)
  rw [hoffset, List.drop_left, List.take_of_length_le (by simp)] at hread
  rw [hoffset, readBlock_stored reader opt _ (by omega) hread.1 hread.2]
  have hne := block.finish_ne_nil
  cases r.options.compression with
  | kNoCompression => exact ⟨fun _ => rfl, fun _ => ⟨_, rfl, rfl⟩⟩
  | kSnappyCompression =>
      constructor
      · rintro ⟨contents, hcontents', hdata⟩
        cases hcontents'
        exact absurd hdata.symm hne
      · intro h
        cases h

theorem readBlock_writeBlock_sample : ∃ r r' block' handle,
    TableBuilder.new sampleEnvironment sampleOptions = .ok r ∧
      r.writeBlock sampleEnvironment reliable .initial = .ok (r', block', handle) ∧
      ((∃ contents, readBlock (.ofContents r'.log.contents) ⟨true⟩ handle = .ok (.ok, contents) ∧
        contents.data = BlockBuilder.initial.finish.2) ↔
          r.options.compression = .kNoCompression) := by
  refine ⟨_, _, _, _, rfl, rfl, ?_⟩
  exact readBlock_writeBlock sampleEnvironment reliable _ _ .initial _ _ rfl rfl
    (by decide +kernel) _ (RandomAccessFile.ofContents_serves _) ⟨true⟩

-- A block of the other type is written and read without an error and comes back
-- empty.
theorem snappy_lost : ∃ r r' block' handle,
    TableBuilder.new sampleEnvironment { sampleOptions with compression := .kSnappyCompression } =
        .ok r ∧
      r.writeBlock sampleEnvironment reliable .initial = .ok (r', block', handle) ∧
      r'.status = .ok ∧
      readBlock (.ofContents r'.log.contents) ⟨true⟩ handle = .ok (.ok, emptyContents) ∧
      emptyContents.data ≠ BlockBuilder.initial.finish.2 := by
  refine ⟨_, _, _, _, rfl, rfl, ?_, ?_, ?_⟩ <;> decide +kernel

end TableBuilder

end Mylldb

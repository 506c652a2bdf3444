import Mylldb.Table
import Mylldb.TableBuilder.Index

namespace Mylldb

open Lib.Run TableBuilder

-- Two neighbouring 32-bit words are one 64-bit word.
theorem decodeFixed32_pair (data : Bytes) (p : Nat) (hp : p + 8 ≤ data.length) :
    ∃ lo hi, decodeFixed32 data p = .ok lo ∧ decodeFixed32 data (p + 4) = .ok hi ∧
      hi <<< 32 ||| lo = Lib.LittleEndian.value ((data.drop p).take 8) := by
  obtain ⟨lo, hlt, hlo⟩ := decodeFixed32_fits data p (by omega)
  refine ⟨lo, Lib.LittleEndian.value ((data.drop (p + 4)).take 4), hlo, ?_, ?_⟩
  · rw [decodeFixed32, readRange_total data (p + 4) 4 (by omega)]
    rfl
  · rw [decodeFixed32, readRange_total data p 4 (by omega)] at hlo
    obtain rfl := Except.ok.inj hlo
    have hsplit : (data.drop p).take 8 = (data.drop p).take 4 ++ (data.drop (p + 4)).take 4 := by
      rw [← List.drop_drop, ← List.take_add]
    have hlen : ((data.drop p).take 4).length = 4 := by
      rw [List.length_take, List.length_drop]
      omega
    rw [hsplit, Lib.LittleEndian.value_append, hlen, ← Nat.shiftLeft_add_eq_or_of_lt hlt,
      Nat.shiftLeft_eq]
    omega

namespace Footer

variable (getVarint64 : VarintDecoder) (f : Footer) (input : Bytes)

-- What stands in the place of the magic number.
def magicBytes : Bytes := (input.drop (kEncodedLength - 8)).take 8

theorem decodeFrom_eq (hlen : kEncodedLength ≤ input.length) :
    f.decodeFrom getVarint64 input =
      if Lib.LittleEndian.value (magicBytes input) ≠ kTableMagicNumber then
        .ok (Status.corruption "not an sstable (bad magic number)" "", f, input)
      else
        let (result, metaindexHandle, rest) := f.metaindexHandle.decodeFrom getVarint64 input
        if result.isOk then
          let (result, indexHandle, rest) := f.indexHandle.decodeFrom getVarint64 rest
          if result.isOk then
            .ok (result, ⟨metaindexHandle, indexHandle⟩, input.drop kEncodedLength)
          else .ok (result, ⟨metaindexHandle, indexHandle⟩, rest)
        else .ok (result, ⟨metaindexHandle, f.indexHandle⟩, rest) := by
  obtain ⟨lo, hi, hlo, hhi, hmagic⟩ := decodeFixed32_pair input (kEncodedLength - 8) hlen
  unfold decodeFrom
  dsimp only
  rw [hlo, ok_bind, hhi, ok_bind, hmagic]
  rfl

-- A slice that holds a footer is read inside its bounds.
theorem decodeFrom_total (hlen : kEncodedLength ≤ input.length) :
    ∃ o, f.decodeFrom getVarint64 input = .ok o := by
  rw [decodeFrom_eq getVarint64 f input hlen]
  dsimp only
  split
  · exact ⟨_, rfl⟩
  · split
    · split
      · exact ⟨_, rfl⟩
      · exact ⟨_, rfl⟩
    · exact ⟨_, rfl⟩

-- The second half of the magic number lies behind the end of the slice.
theorem decodeFrom_past (hlen : input.length < kEncodedLength) :
    f.decodeFrom getVarint64 input = .error .outOfBounds := by
  have hpast : decodeFixed32 input (kEncodedLength - 8 + 4) = .error .outOfBounds :=
    decodeFixed32_past input _ hlen
  unfold decodeFrom
  dsimp only
  by_cases hlo : kEncodedLength - 8 + 4 ≤ input.length
  · obtain ⟨lo, -, hlo⟩ := decodeFixed32_fits input (kEncodedLength - 8) hlo
    rw [hlo, ok_bind, hpast, error_bind]
  · rw [decodeFixed32_past input (kEncodedLength - 8) (Nat.lt_of_not_le hlo), error_bind]

theorem decodeFrom_badMagic (hlen : kEncodedLength ≤ input.length)
    (hmagic : magicBytes input ≠ encodeFixed64 kTableMagicNumber) :
    f.decodeFrom getVarint64 input =
      .ok (Status.corruption "not an sstable (bad magic number)" "", f, input) := by
  have hlength : (magicBytes input).length = 8 := by
    have hlen48 : 48 ≤ input.length := hlen
    have hplace : kEncodedLength - 8 = 40 := rfl
    rw [magicBytes, hplace, List.length_take, List.length_drop]
    omega
  rw [decodeFrom_eq getVarint64 f input hlen, if_pos]
  intro hvalue
  apply hmagic
  rw [← Lib.LittleEndian.bytes_value (magicBytes input), hlength, hvalue]
  rfl

end Footer

theorem putVarint64_length_le (v : Nat) : (putVarint64 [] v).length ≤ 10 := by
  obtain ⟨-, -, hlen⟩ := encodeVarint64_spec (v % 2 ^ 64) (Nat.mod_lt v (by decide))
  rw [putVarint64, List.nil_append, hlen]
  exact varintLength_loop_le 9 _

theorem handleBytes_length_le (h : BlockHandle) :
    (handleBytes h).length ≤ BlockHandle.kMaxEncodedLength := by
  rw [handleBytes_eq, List.length_append]
  exact Nat.add_le_add (putVarint64_length_le _) (putVarint64_length_le _)

theorem resize_eq (s : Bytes) (n : Nat) (hs : s.length ≤ n) :
    resize s n = s ++ List.replicate (n - s.length) 0 := by
  rw [resize, List.take_of_length_le hs]

theorem resize_length (s : Bytes) (n : Nat) : (resize s n).length = n := by
  rw [resize, List.length_append, List.length_take, List.length_replicate]
  omega

namespace Footer

-- The fields are 64-bit values other than the one that `EncodeTo` asserts against.
structure Fits (footer : Footer) : Prop where
  metaindex_offset : footer.metaindexHandle.offset < 2 ^ 64 - 1
  metaindex_size : footer.metaindexHandle.size < 2 ^ 64 - 1
  index_offset : footer.indexHandle.offset < 2 ^ 64 - 1
  index_size : footer.indexHandle.size < 2 ^ 64 - 1

-- Both handles, one behind the other.
def handles (footer : Footer) : Bytes :=
  handleBytes footer.metaindexHandle ++ handleBytes footer.indexHandle

-- What `EncodeTo` makes of an empty string.
def encoded (footer : Footer) : Bytes :=
  footer.handles ++ List.replicate (2 * BlockHandle.kMaxEncodedLength - footer.handles.length) 0 ++
    encodeFixed64 kTableMagicNumber

variable (footer : Footer)

theorem handles_length_le : footer.handles.length ≤ 2 * BlockHandle.kMaxEncodedLength := by
  have hmetaindex := handleBytes_length_le footer.metaindexHandle
  have hindex := handleBytes_length_le footer.indexHandle
  rw [handles, List.length_append]
  omega

-- The padding ends where the magic number starts.
theorem padded_length : (footer.handles ++
    List.replicate (2 * BlockHandle.kMaxEncodedLength - footer.handles.length) 0).length =
      kEncodedLength - 8 := by
  rw [List.length_append, List.length_replicate, Nat.add_sub_cancel' footer.handles_length_le]
  rfl

theorem encoded_length : footer.encoded.length = kEncodedLength := by
  rw [encoded, List.length_append, padded_length, encodeFixed64_length]
  rfl

-- What `EncodeTo` makes of a string that may hold something: the padding resizes the
-- whole string.
def written (dst : Bytes) : Bytes :=
  resize (dst ++ footer.handles) (2 * BlockHandle.kMaxEncodedLength) ++
    encodeFixed64 kTableMagicNumber

theorem written_length (dst : Bytes) : (footer.written dst).length = kEncodedLength := by
  rw [written, List.length_append, resize_length, encodeFixed64_length]
  rfl

theorem written_nil : footer.written [] = footer.encoded := by
  rw [written, List.nil_append, resize_eq _ _ footer.handles_length_le, encoded]

theorem encodeTo_written (hfits : footer.Fits) (dst : Bytes) :
    footer.encodeTo dst = assertThat ((footer.written dst).length = dst.length + kEncodedLength) >>=
      fun _ => .ok (footer.written dst) := by
  have hmagic : encodeFixed64 kTableMagicNumber = encodeFixed32 (kTableMagicNumber &&& 0xffffffff) ++
      encodeFixed32 (kTableMagicNumber >>> 32) := by
    decide +kernel
  have hmetaindex := encodeTo_eq footer.metaindexHandle dst
    ⟨Nat.ne_of_lt hfits.metaindex_offset, Nat.ne_of_lt hfits.metaindex_size⟩
  have hindex := encodeTo_eq footer.indexHandle (dst ++ handleBytes footer.metaindexHandle)
    ⟨Nat.ne_of_lt hfits.index_offset, Nat.ne_of_lt hfits.index_size⟩
  have hwritten : footer.written dst = putFixed32 (putFixed32
      (resize (dst ++ handleBytes footer.metaindexHandle ++ handleBytes footer.indexHandle)
        (2 * BlockHandle.kMaxEncodedLength)) (kTableMagicNumber &&& 0xffffffff))
      (kTableMagicNumber >>> 32) := by
    rw [written, handles, hmagic, putFixed32, putFixed32, List.append_assoc, List.append_assoc]
  unfold encodeTo
  dsimp only
  rw [hmetaindex, ok_bind, hindex, ok_bind, hwritten]
  rfl

theorem encodeTo_encoded (hfits : footer.Fits) : footer.encodeTo [] = .ok footer.encoded := by
  rw [encodeTo_written footer hfits, assertThat_pos (by rw [written_length]; rfl), ok_bind,
    written_nil]

theorem magicBytes_encoded (rest : Bytes) :
    magicBytes (footer.encoded ++ rest) = encodeFixed64 kTableMagicNumber := by
  rw [magicBytes, encoded, List.append_assoc, ← footer.padded_length, List.drop_left]
  exact List.take_left' (encodeFixed64_length _)

theorem decodeFrom_encoded {getVarint64 : VarintDecoder} (hdecodes : getVarint64.Decodes)
    (f : Footer) (hfits : footer.Fits) (rest : Bytes) :
    f.decodeFrom getVarint64 (footer.encoded ++ rest) = .ok (.ok, footer, rest) := by
  have hmetaindex (more : Bytes) := decodeFrom_handleBytes hdecodes f.metaindexHandle
    footer.metaindexHandle more (hfits.metaindex_offset.trans (by decide))
    (hfits.metaindex_size.trans (by decide))
  have hindex (more : Bytes) := decodeFrom_handleBytes hdecodes f.indexHandle footer.indexHandle
    more (hfits.index_offset.trans (by decide)) (hfits.index_size.trans (by decide))
  have hrest : (footer.encoded ++ rest).drop kEncodedLength = rest :=
    List.drop_left' footer.encoded_length
  have hlen : kEncodedLength ≤ (footer.encoded ++ rest).length := by
    rw [List.length_append, encoded_length]
    exact Nat.le_add_right _ _
  rw [decodeFrom_eq getVarint64 f _ hlen, magicBytes_encoded, if_neg (by decide +kernel), hrest]
  rw [encoded, handles, List.append_assoc, List.append_assoc, List.append_assoc, hmetaindex]
  have hok : Status.ok.isOk = true := rfl
  dsimp only
  rw [if_pos hok, hindex]
  exact if_pos hok

-- The handles are whole in front of the padding and come back with what follows the
-- footer; without the magic number nothing is decoded.
theorem footer_roundTrip {getVarint64 : VarintDecoder} (hdecodes : getVarint64.Decodes) :
    (∀ footer : Footer, footer.Fits → ∃ bytes, footer.encodeTo [] = .ok bytes ∧
      bytes.length = kEncodedLength ∧
      footer.handles <+: bytes.take (2 * BlockHandle.kMaxEncodedLength) ∧
      ∀ (f : Footer) rest, f.decodeFrom getVarint64 (bytes ++ rest) = .ok (.ok, footer, rest)) ∧
    (∀ (f : Footer) input, kEncodedLength ≤ input.length →
      magicBytes input ≠ encodeFixed64 kTableMagicNumber →
        f.decodeFrom getVarint64 input =
          .ok (Status.corruption "not an sstable (bad magic number)" "", f, input)) := by
  refine ⟨fun footer hfits => ⟨footer.encoded, footer.encodeTo_encoded hfits,
    footer.encoded_length, ?_, fun f rest => footer.decodeFrom_encoded hdecodes f hfits rest⟩,
    fun f input hlen hmagic => decodeFrom_badMagic getVarint64 f input hlen hmagic⟩
  have htake : footer.encoded.take (2 * BlockHandle.kMaxEncodedLength) = footer.handles ++
      List.replicate (2 * BlockHandle.kMaxEncodedLength - footer.handles.length) 0 :=
    List.take_left' footer.padded_length
  rw [htake]
  exact List.prefix_append _ _

-- The longest and the shortest numbers of a handle.
def sampleFooter : Footer := ⟨⟨2 ^ 64 - 2, 0⟩, ⟨127, 128⟩⟩

theorem footer_roundTrip_sample :
    (∃ bytes, sampleFooter.encodeTo [] = .ok bytes ∧ ∀ (f : Footer) rest,
      f.decodeFrom Lib.Base128.decode (bytes ++ rest) = .ok (.ok, sampleFooter, rest)) ∧
    sampleFooter.decodeFrom Lib.Base128.decode (List.replicate kEncodedLength 0) =
      .ok (Status.corruption "not an sstable (bad magic number)" "", sampleFooter,
        List.replicate kEncodedLength 0) := by
  obtain ⟨hback, hbad⟩ := footer_roundTrip decode_decodes
  obtain ⟨bytes, hbytes, -, -, hdecode⟩ := hback sampleFooter (by constructor <;> decide)
  exact ⟨⟨bytes, hbytes, hdecode⟩, hbad _ _ (by decide) (by decide +kernel)⟩

-- The bytes that were there stay in front of a whole footer.
def OnlyAppends (footer : Footer) (dst : Bytes) : Prop :=
  ∃ bytes, footer.encodeTo dst = .ok bytes ∧ dst <+: bytes ∧
    bytes.length = dst.length + kEncodedLength

-- A string that is not empty comes out too short for the closing assertion.
theorem onlyAppends_iff (footer : Footer) (hfits : footer.Fits) (dst : Bytes) :
    footer.OnlyAppends dst ↔ dst = [] := by
  constructor
  · rintro ⟨bytes, hencode, -, -⟩
    by_contra hne
    have hpos := List.length_pos_iff.mpr hne
    have hshort : (footer.written dst).length ≠ dst.length + kEncodedLength := by
      rw [written_length]
      omega
    rw [encodeTo_written footer hfits, assertThat_neg hshort] at hencode
    cases hencode
  · rintro rfl
    exact ⟨footer.encoded, footer.encodeTo_encoded hfits, List.nil_prefix, by
      rw [encoded_length, List.length_nil, Nat.zero_add]⟩

theorem onlyAppends_iff_sample : sampleFooter.OnlyAppends [] :=
  (onlyAppends_iff sampleFooter (by constructor <;> decide) []).mpr rfl

-- One byte is enough.
theorem encodeTo_overwrites : ¬sampleFooter.OnlyAppends [0] := by
  rintro ⟨bytes, hencode, -⟩
  have hfails : sampleFooter.encodeTo [0] = .error .assertion := by
    decide +kernel
  rw [hfails] at hencode
  cases hencode

end Footer

namespace Table

variable (env : Environment) (options : Options) (file : RandomAccessFile) (size : Nat)

-- The answer to the call that `Open` makes.
def footerRead : ReadResult := file.read (size - Footer.kEncodedLength) Footer.kEncodedLength

-- The footer is looked for inside of what was read, and too short a slice is refused.
structure FooterSafe : Prop where
  inside : (footerRead file size).status = .ok →
    ∀ f : Footer, ∃ o, f.decodeFrom env.getVarint64 (footerRead file size).contents = .ok o
  refused : (footerRead file size).contents.length < Footer.kEncodedLength →
    ∃ s, s ≠ .ok ∧ openTable env options file size = .ok (s, none)

theorem openTable_failed (hsize : Footer.kEncodedLength ≤ size)
    (hstatus : (footerRead file size).status ≠ .ok) :
    openTable env options file size = .ok ((footerRead file size).status, none) := by
  unfold openTable
  rw [if_neg (Nat.not_lt.mpr hsize)]
  exact if_pos hstatus

-- `Open` looks at the size of the file and not at the length of the slice.
theorem footerSafe_iff (hsize : Footer.kEncodedLength ≤ size) :
    FooterSafe env options file size ↔ ((footerRead file size).status = .ok →
      Footer.kEncodedLength ≤ (footerRead file size).contents.length) := by
  constructor
  · intro hsafe hstatus
    by_contra hshort
    obtain ⟨o, hdecode⟩ := hsafe.inside hstatus ⟨env.blockHandle, env.blockHandle⟩
    rw [Footer.decodeFrom_past _ _ _ (Nat.lt_of_not_le hshort)] at hdecode
    cases hdecode
  · intro hcomplete
    constructor
    · intro hstatus f
      exact Footer.decodeFrom_total env.getVarint64 f _ (hcomplete hstatus)
    · intro hshort
      have hstatus : (footerRead file size).status ≠ .ok := by
        intro hok
        exact absurd (hcomplete hok) (Nat.not_le_of_lt hshort)
      exact ⟨_, hstatus, openTable_failed env options file size hsize hstatus⟩

theorem footerSafe_iff_sample :
    FooterSafe sampleEnvironment sampleOptions (.ofContents (List.replicate 60 0)) 60 :=
  (footerSafe_iff sampleEnvironment sampleOptions (.ofContents (List.replicate 60 0)) 60
    (by decide)).mpr fun _ => by decide

-- Of a file that is shorter than its size says, eight bytes of the footer are read.
theorem footer_unsafe :
    ¬FooterSafe sampleEnvironment sampleOptions (.ofContents (List.replicate 20 0)) 60 := by
  intro hsafe
  obtain ⟨s, -, hopen⟩ := hsafe.refused (by decide)
  have hfault : (openTable sampleEnvironment sampleOptions (.ofContents (List.replicate 20 0))
      60).toOption = none := by
    decide +kernel
  rw [hopen] at hfault
  cases hfault

end Table

end Mylldb

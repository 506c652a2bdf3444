import Mylldb.Coding.Theorems
import Mylldb.Crc32c.Theorems
import Mylldb.Format

namespace Mylldb

open Lib.Run

-- With its trailer in place, a block has all the bytes that the checksum needs.
theorem checksumMatches_total (data : Bytes) (address n : Nat)
    (hlen : data.length = n + kBlockTrailerSize) (hn : data.length < 2 ^ 64) :
    ∃ intact, checksumMatches data address n = .ok intact := by
  unfold kBlockTrailerSize at hlen
  obtain ⟨stored, -, hstored⟩ := decodeFixed32_fits data (n + 1) (by omega)
  have hchecked := readRange_total data 0 (n + 1) (by omega)
  unfold checksumMatches
  rw [Nat.mod_eq_of_lt (by omega), hstored, ok_bind, hchecked, ok_bind, Crc32c.value_eq, ok_bind]
  exact ⟨_, rfl⟩

theorem checkBlock_total (options : ReadOptions) (data : Bytes) (address n : Nat)
    (hlen : data.length = n + kBlockTrailerSize) (hn : data.length < 2 ^ 64) :
    ∃ intact, checkBlock options data address n = .ok intact := by
  unfold checkBlock
  split
  · exact checksumMatches_total data address n hlen hn
  · exact ⟨true, rfl⟩

-- Whatever the size, the comparison comes to an end or goes past the slice.
theorem checkBlock_onlyFails (options : ReadOptions) (data : Bytes) (address n : Nat) :
    OnlyFails .outOfBounds (checkBlock options data address n) fun _ => True := by
  unfold checkBlock checksumMatches
  split
  · refine (decodeFixed32_onlyFails data _).bind fun stored _ _ => ?_
    refine (readRange_onlyFails data 0 _).bind fun checked _ _ => ?_
    rw [Crc32c.value_eq, ok_bind]
    exact .ok trivial
  · exact .ok trivial

theorem typedContents_total (s : ReadResult) (n : Nat) (hn : n < s.contents.length) :
    ∃ status contents, typedContents s n = .ok (status, contents) ∧
      (status = .ok ∨ status = Status.corruption "bad block type" "") ∧
        contents.data <+: s.contents := by
  obtain ⟨type, htype⟩ := readByte_total s.contents n hn
  unfold typedContents
  rw [htype, ok_bind]
  split
  · exact ⟨_, _, rfl, .inl rfl, List.take_prefix n s.contents⟩
  · split
    · exact ⟨_, _, rfl, .inl rfl, List.nil_prefix⟩
    · exact ⟨_, _, rfl, .inr rfl, List.nil_prefix⟩

-- The type byte of a slice that ends before it.
theorem typedContents_past (s : ReadResult) (n : Nat) (hn : s.contents.length ≤ n) :
    typedContents s n = .error .outOfBounds := by
  rw [typedContents, readByte_past s.contents n hn, error_bind]

section ReadBlock

variable (file : RandomAccessFile) (options : ReadOptions) (handle : BlockHandle)

-- The answer to the call that `ReadBlock` makes. The length is a `size_t`.
def blockRead : ReadResult :=
  file.read handle.offset ((handle.size + kBlockTrailerSize) % 2 ^ 64)

-- A read that succeeds says that all its bytes are there, and the check for a truncated
-- read lets no short one pass.
structure StaysInside : Prop where
  inside : ∃ s contents, readBlock file options handle = .ok (s, contents) ∧ (s = .ok →
    (blockRead file handle).contents.length = handle.size + kBlockTrailerSize ∧
      contents.data <+: (blockRead file handle).contents)
  refused : (blockRead file handle).status = .ok →
    (blockRead file handle).contents.length < handle.size + kBlockTrailerSize →
      readBlock file options handle =
        .ok (Status.corruption "truncated block read" "", emptyContents)

-- The sum of the sizes does not fit, and `Read` returns as much as is left of it.
structure Wraps : Prop where
  overflows : 2 ^ 64 ≤ handle.size + kBlockTrailerSize
  status : (blockRead file handle).status = .ok
  length : (blockRead file handle).contents.length = (handle.size + kBlockTrailerSize) % 2 ^ 64

theorem readBlock_eq : readBlock file options handle =
    if (blockRead file handle).status ≠ .ok then
      .ok ((blockRead file handle).status, emptyContents)
    else if (blockRead file handle).contents.length ≠ (handle.size + kBlockTrailerSize) % 2 ^ 64 then
      .ok (Status.corruption "truncated block read" "", emptyContents)
    else
      checkBlock options (blockRead file handle).contents (blockRead file handle).address
        handle.size >>= fun intact =>
          if intact then typedContents (blockRead file handle) handle.size
          else .ok (Status.corruption "block checksum mismatch" "", emptyContents) :=
  rfl

theorem readBlock_complete (hstatus : (blockRead file handle).status = .ok)
    (hlen : (blockRead file handle).contents.length = handle.size + kBlockTrailerSize)
    (hfits : handle.size + kBlockTrailerSize < 2 ^ 64) :
    ∃ s contents, readBlock file options handle = .ok (s, contents) ∧
      contents.data <+: (blockRead file handle).contents := by
  obtain ⟨intact, hintact⟩ := checkBlock_total options (blockRead file handle).contents
    (blockRead file handle).address handle.size hlen (by rwa [hlen])
  rw [readBlock_eq, if_neg (not_not.mpr hstatus), Nat.mod_eq_of_lt hfits,
    if_neg (not_not.mpr hlen), hintact, ok_bind]
  cases intact with
  | true =>
      obtain ⟨s, contents, htyped, -, hprefix⟩ :=
        typedContents_total (blockRead file handle) handle.size (by
          rw [hlen, kBlockTrailerSize]
          omega)
      exact ⟨s, contents, htyped, hprefix⟩
  | false => exact ⟨_, _, rfl, List.nil_prefix⟩

-- Fewer than five bytes were read, and all of them lie in front of the type byte.
theorem Wraps.length_le (h : Wraps file handle) :
    (blockRead file handle).contents.length ≤ handle.size := by
  have hoverflows := h.overflows
  rw [h.length]
  unfold kBlockTrailerSize at hoverflows ⊢
  omega

-- The check for a truncated read lets the read pass.
theorem Wraps.passes (h : Wraps file handle) : readBlock file options handle =
    checkBlock options (blockRead file handle).contents (blockRead file handle).address
      handle.size >>= fun intact =>
        if intact then typedContents (blockRead file handle) handle.size
        else .ok (Status.corruption "block checksum mismatch" "", emptyContents) := by
  rw [readBlock_eq, if_neg (not_not.mpr h.status), if_neg (not_not.mpr h.length)]

-- The type byte is looked for at the full size, unless the checksum differs.
theorem Wraps.outcomes (h : Wraps file handle) :
    readBlock file options handle = .error .outOfBounds ∨ readBlock file options handle =
      .ok (Status.corruption "block checksum mismatch" "", emptyContents) := by
  rw [h.passes]
  rcases checkBlock_onlyFails options (blockRead file handle).contents
    (blockRead file handle).address handle.size with hfault | ⟨intact, hintact, -⟩
  · rw [hfault]
    exact .inl rfl
  · rw [hintact, ok_bind]
    cases intact with
    | true => exact .inl (typedContents_past _ _ h.length_le)
    | false => exact .inr rfl

-- Only for the largest size is there a checksum to compare, where `data + n + 1` is `data`.
theorem Wraps.fault (h : Wraps file handle)
    (hsize : options.verifyChecksums = true → handle.size + 1 < 2 ^ 64) :
    readBlock file options handle = .error .outOfBounds := by
  have hpast := h.length_le
  rw [h.passes]
  unfold checkBlock
  split
  · rename_i hverify
    rw [checksumMatches, Nat.mod_eq_of_lt (hsize hverify), decodeFixed32_past _ _ (by omega)]
    rfl
  · exact typedContents_past _ _ hpast

theorem staysInside_iff : StaysInside file options handle ↔ ¬Wraps file handle := by
  constructor
  · intro hinside hwraps
    have hshort : (blockRead file handle).contents.length < handle.size + kBlockTrailerSize :=
      Nat.lt_of_le_of_lt hwraps.length_le (Nat.lt_add_of_pos_right (by decide))
    have hread := hinside.refused hwraps.status hshort
    have hdiffer : Status.corruption "block checksum mismatch" "" ≠
        Status.corruption "truncated block read" "" := by decide
    rcases hwraps.outcomes file options handle with hfault | hmismatch
    · rw [hfault] at hread
      cases hread
    · rw [hmismatch] at hread
      exact hdiffer (congrArg Prod.fst (Except.ok.inj hread))
  · intro hwraps
    by_cases hstatus : (blockRead file handle).status = .ok
    · by_cases hlen : (blockRead file handle).contents.length =
          (handle.size + kBlockTrailerSize) % 2 ^ 64
      · -- the sum of the sizes fits, so that its remainder is the sum
        have hfits : handle.size + kBlockTrailerSize < 2 ^ 64 := by
          by_contra hoverflows
          exact hwraps ⟨Nat.le_of_not_lt hoverflows, hstatus, hlen⟩
        rw [Nat.mod_eq_of_lt hfits] at hlen
        obtain ⟨s, contents, hread, hprefix⟩ :=
          readBlock_complete file options handle hstatus hlen hfits
        refine ⟨⟨s, contents, hread, fun _ => ⟨hlen, hprefix⟩⟩, fun _ hshort => ?_⟩
        exact absurd hlen (Nat.ne_of_lt hshort)
      · have hread := readBlock_eq file options handle
        rw [if_neg (not_not.mpr hstatus), if_pos hlen] at hread
        have hbad : Status.corruption "truncated block read" "" ≠ .ok := by decide
        exact ⟨⟨_, _, hread, fun h => absurd h hbad⟩, fun _ _ => hread⟩
    · have hread := readBlock_eq file options handle
      rw [if_pos hstatus] at hread
      exact ⟨⟨_, _, hread, fun h => absurd h hstatus⟩, fun h => absurd h hstatus⟩

-- The largest size leaves four bytes to be read.
theorem readBlock_wrapped :
    ¬StaysInside (.ofContents [0, 0, 0, 0]) ReadOptions.default ⟨0, 2 ^ 64 - 1⟩ := by
  intro h
  obtain ⟨s, contents, hread, -⟩ := h.inside
  have hfault : readBlock (.ofContents [0, 0, 0, 0]) ReadOptions.default ⟨0, 2 ^ 64 - 1⟩ =
      .error .outOfBounds := by
    decide +kernel
  rw [hfault] at hread
  cases hread

-- With the checksum of four other bytes to compare, the same read is refused later on.
example : readBlock (.ofContents [0, 0, 0, 0]) ⟨true⟩ ⟨0, 2 ^ 64 - 1⟩ =
    .ok (Status.corruption "block checksum mismatch" "", emptyContents) := by
  decide +kernel

end ReadBlock

end Mylldb

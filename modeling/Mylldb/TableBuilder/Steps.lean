import Mylldb.BlockBuilder.Theorems
import Mylldb.Crc32c.Theorems
import Mylldb.TableBuilder

namespace Mylldb

open Lib.Run

namespace FileLog

theorem contents_append (log log' : FileLog) :
    contents (log ++ log') = log.contents ++ log'.contents :=
  List.flatMap_append

def AllOk (log : FileLog) : Prop := ∀ c ∈ log, c.2 = .ok

instance (log : FileLog) : Decidable log.AllOk :=
  inferInstanceAs (Decidable (∀ c ∈ log, c.2 = .ok))

@[simp] theorem allOk_nil : AllOk [] := by simp [AllOk]

@[simp] theorem allOk_cons (c : FileCall) (s : Status) (log : FileLog) :
    AllOk ((c, s) :: log) ↔ s = .ok ∧ log.AllOk := by
  simp only [AllOk, List.forall_mem_cons]

@[simp] theorem allOk_append (log log' : FileLog) :
    AllOk (log ++ log') ↔ log.AllOk ∧ log'.AllOk :=
  List.forall_mem_append

theorem AllOk.of_prefix {log log' : FileLog} (h : log'.AllOk) (hle : log <+: log') :
    log.AllOk :=
  fun c hc => h c (hle.subset hc)

-- What the last call answered, or OK when there was none.
def lastAnswer (log : FileLog) : Status := (log.getLast?.map Prod.snd).getD .ok

@[simp] theorem lastAnswer_concat (log : FileLog) (c : FileCall) (s : Status) :
    lastAnswer (log ++ [(c, s)]) = s := by
  simp [lastAnswer]

-- A file is left alone after its first error, which is what the status reports: every
-- answer but the last is OK.
structure Stops (log : FileLog) (status : Status) : Prop where
  before_ok : AllOk log.dropLast
  status_eq : status = log.lastAnswer

namespace Stops

variable {log : FileLog} {status : Status}

theorem nil : Stops [] .ok := ⟨allOk_nil, rfl⟩

-- A call that is only made while everything went well.
theorem append (hlog : log.AllOk) (c : FileCall) (s : Status) : Stops (log ++ [(c, s)]) s where
  before_ok := by rwa [List.dropLast_concat]
  status_eq := (lastAnswer_concat log c s).symm

theorem ok_iff (h : Stops log status) : status = .ok ↔ log.AllOk := by
  rw [h.status_eq]
  have hbefore := h.before_ok
  rcases List.eq_nil_or_concat' log with rfl | ⟨before, ⟨c, s⟩, rfl⟩
  · exact ⟨fun _ => allOk_nil, fun _ => rfl⟩
  · rw [List.dropLast_concat] at hbefore
    simp [hbefore]

end Stops

end FileLog

-- The bytes of a trailer, wherever the contents and the type byte lie.
def trailer (data : Bytes) (type : CompressionType) : Bytes :=
  type.toByte :: encodeFixed32 (Crc32c.mask (Crc32c.checksum (data ++ [type.toByte]))).toNat

@[simp] theorem trailer_length (data : Bytes) (type : CompressionType) :
    (trailer data type).length = 5 := by
  simp [trailer]

theorem blockTrailer_eq (env : Environment) (log : FileLog) (data : Bytes)
    (type : CompressionType) : blockTrailer env log data type = .ok (trailer data type) := by
  rw [blockTrailer, Crc32c.value_eq, ok_bind, Crc32c.extend_checksum]
  rfl

namespace TableBuilder

-- What `WriteRawBlock` can do to a builder: fail at the body, fail at the
-- trailer, or write both.
inductive Writes (r : TableBuilder) (data : Bytes) (type : CompressionType) :
    TableBuilder → Prop where
  | body (s : Status) (hs : s ≠ .ok) :
      Writes r data type { r with log := r.log ++ [(.append data, s)], status := s }
  | trailer (s : Status) (hs : s ≠ .ok) :
      Writes r data type {
        r with
        log := r.log ++ [(.append data, .ok), (.append (trailer data type), s)]
        status := s }
  | done (hsize : r.log.contents.length + data.length + 5 < 2 ^ 64) :
      Writes r data type {
        r with
        log := r.log ++ [(.append data, .ok), (.append (trailer data type), .ok)]
        status := .ok
        offset := (r.offset + (data.length + 5)) % 2 ^ 64 }

-- What `Flush` can do: nothing, lose the data block to a failed write, or write
-- it and flush the file.
inductive Flushes (r : TableBuilder) : TableBuilder → Prop where
  | idle (h : r.status ≠ .ok ∨ r.dataBlock.empty = true) : Flushes r r
  | failed (r₁ : TableBuilder) (hok : r.status = .ok) (hempty : r.dataBlock.empty = false)
      (hwrites : Writes r r.dataBlock.finish.2 r.options.compression r₁) (h₁ : r₁.status ≠ .ok) :
      Flushes r (startFilterBlock {
        r₁ with
        dataBlock := .initial
        pendingHandle := ⟨r.offset, r.dataBlock.finish.2.length⟩ })
  | flushed (r₁ : TableBuilder) (hok : r.status = .ok) (hempty : r.dataBlock.empty = false)
      (hwrites : Writes r r.dataBlock.finish.2 r.options.compression r₁) (h₁ : r₁.status = .ok)
      (s : Status) :
      Flushes r (startFilterBlock {
        r₁ with
        dataBlock := .initial
        pendingHandle := ⟨r.offset, r.dataBlock.finish.2.length⟩
        pendingIndexEntry := true
        log := r₁.log ++ [(.flush, s)]
        status := s })

def handleBytes (h : BlockHandle) : Bytes := putVarint64 (putVarint64 [] h.offset) h.size

-- The handle passes the assertions of `EncodeTo`.
def HandleFits (h : BlockHandle) : Prop := h.offset ≠ 2 ^ 64 - 1 ∧ h.size ≠ 2 ^ 64 - 1

-- The pending entry, if there is one, goes to the index block.
inductive EntersIndex (r : TableBuilder) (separator : Bytes) : TableBuilder → Prop where
  | none (h : r.pendingIndexEntry = false) : EntersIndex r separator r
  | entry (h : r.pendingIndexEntry = true) (indexBlock : BlockBuilder)
      (hadd : r.indexBlock.add r.indexBlockOptions.blockRestartInterval separator
        (handleBytes r.pendingHandle) = .ok indexBlock) :
      EntersIndex r separator
        { r with lastKey := separator, indexBlock, pendingIndexEntry := false }

-- The state of `Add` before the size of the data block is looked at.
def withEntry (r : TableBuilder) (key : Bytes) (dataBlock : BlockBuilder) : TableBuilder :=
  { r with
    filterBlock := r.filterBlock.map (·.addKey key)
    lastKey := key
    numEntries := (r.numEntries + 1) % 2 ^ 64
    dataBlock }

inductive Adds (env : Environment) (r : TableBuilder) (key value : Bytes) :
    TableBuilder → Prop where
  | mk (r₁ : TableBuilder) (dataBlock : BlockBuilder) (r₂ : TableBuilder)
      (hindex : EntersIndex r
        ((env.comparator r.options.comparator).findShortestSeparator r.lastKey key) r₁)
      (hadd : r₁.dataBlock.add r₁.options.blockRestartInterval key value = .ok dataBlock)
      (hflush : r₂ = r₁.withEntry key dataBlock ∨ Flushes (r₁.withEntry key dataBlock) r₂) :
      Adds env r key value r₂

-- What `Finish` can do without a filter: the last data block, the metaindex
-- block and the index block are written as long as nothing fails.
inductive Finishes (env : Environment) (r : TableBuilder) : TableBuilder → Prop where
  | flush (r₁ : TableBuilder) (hflush : Flushes r r₁) (h₁ : r₁.status ≠ .ok) :
      Finishes env r { r₁ with closed := true }
  | metaindex (r₁ r₂ : TableBuilder) (hflush : Flushes r r₁) (h₁ : r₁.status = .ok)
      (hmeta : Writes { r₁ with closed := true } BlockBuilder.initial.finish.2
        r₁.options.compression r₂) (h₂ : r₂.status ≠ .ok) : Finishes env r r₂
  | index (r₁ r₂ r₃ r₄ : TableBuilder) (hflush : Flushes r r₁) (h₁ : r₁.status = .ok)
      (hmeta : Writes { r₁ with closed := true } BlockBuilder.initial.finish.2
        r₁.options.compression r₂) (h₂ : r₂.status = .ok)
      (hindex : EntersIndex r₂ (env.findShortestSeparator r₂.options.comparator r₂.lastKey) r₃)
      (hwrite : Writes r₃ r₃.indexBlock.finish.2 r₃.options.compression r₄) :
      Finishes env r { r₄ with indexBlock := .initial }

-- What a call of any method can do.
inductive Steps (env : Environment) (r : TableBuilder) : Call → TableBuilder → Prop where
  | add {key value : Bytes} {r' : TableBuilder} (h : Adds env r key value r') :
      Steps env r (.add key value) r'
  | flush {r' : TableBuilder} (h : Flushes r r') : Steps env r .flush r'
  | changeOptions {options : Options} :
      Steps env r (.changeOptions options) (r.changeOptions options).1
  | finish {r' : TableBuilder} (h : Finishes env r r') : Steps env r .finish r'
  | abandon : Steps env r .abandon { r with closed := true }

-- What no part of a call touches: the options, the flag and an absent filter. The
-- file only sees more calls.
structure Continues (r r' : TableBuilder) : Prop where
  options_eq : r'.options = r.options
  indexBlockOptions_eq : r'.indexBlockOptions = r.indexBlockOptions
  closed_eq : r'.closed = r.closed
  filter_none : r.filterBlock = none → r'.filterBlock = none
  log_le : r.log <+: r'.log

theorem Continues.refl (r : TableBuilder) : Continues r r :=
  ⟨rfl, rfl, rfl, id, List.prefix_rfl⟩

theorem Continues.trans {r r' r'' : TableBuilder} (h : Continues r r') (h' : Continues r' r'') :
    Continues r r'' where
  options_eq := h'.options_eq.trans h.options_eq
  indexBlockOptions_eq := h'.indexBlockOptions_eq.trans h.indexBlockOptions_eq
  closed_eq := h'.closed_eq.trans h.closed_eq
  filter_none hnone := h'.filter_none (h.filter_none hnone)
  log_le := h.log_le.trans h'.log_le

theorem Writes.continues {r r' : TableBuilder} {data : Bytes} {type : CompressionType}
    (h : Writes r data type r') : Continues r r' := by
  cases h <;> exact ⟨rfl, rfl, rfl, id, List.prefix_append _ _⟩

-- A write leaves everything but the log, the status and the offset as it was.
theorem Writes.eq {r r' : TableBuilder} {data : Bytes} {type : CompressionType}
    (h : Writes r data type r') :
    r' = { r with log := r'.log, status := r'.status, offset := r'.offset } := by
  cases h <;> rfl

theorem startFilterBlock_none {r : TableBuilder} (h : r.filterBlock = none) :
    r.startFilterBlock.filterBlock = none := by
  rw [startFilterBlock, h]
  rfl

theorem Flushes.continues {r r' : TableBuilder} (h : Flushes r r') : Continues r r' := by
  cases h with
  | idle h => exact .refl r
  | failed r₁ hok hempty hwrites h₁ =>
      have hc := hwrites.continues
      exact ⟨hc.options_eq, hc.indexBlockOptions_eq, hc.closed_eq,
        fun hnone => startFilterBlock_none (hc.filter_none hnone), hc.log_le⟩
  | flushed r₁ hok hempty hwrites h₁ s =>
      have hc := hwrites.continues
      exact ⟨hc.options_eq, hc.indexBlockOptions_eq, hc.closed_eq,
        fun hnone => startFilterBlock_none (hc.filter_none hnone),
        hc.log_le.trans (List.prefix_append _ _)⟩

theorem EntersIndex.continues {r r' : TableBuilder} {separator : Bytes}
    (h : EntersIndex r separator r') : Continues r r' := by
  cases h with
  | none h => exact .refl r
  | entry h indexBlock hadd => exact ⟨rfl, rfl, rfl, id, List.prefix_rfl⟩

theorem EntersIndex.pending_eq {r r' : TableBuilder} {separator : Bytes}
    (h : EntersIndex r separator r') : r'.pendingIndexEntry = false := by
  cases h with
  | none h => exact h
  | entry h indexBlock hadd => rfl

theorem EntersIndex.same {r r' : TableBuilder} {separator : Bytes}
    (h : EntersIndex r separator r') :
    r'.status = r.status ∧ r'.log = r.log ∧ r'.offset = r.offset := by
  cases h with
  | none h => exact ⟨rfl, rfl, rfl⟩
  | entry h indexBlock hadd => exact ⟨rfl, rfl, rfl⟩

theorem withEntry_continues (r : TableBuilder) (key : Bytes) (dataBlock : BlockBuilder) :
    Continues r (r.withEntry key dataBlock) where
  options_eq := rfl
  indexBlockOptions_eq := rfl
  closed_eq := rfl
  filter_none h := by
    rw [withEntry, h]
    rfl
  log_le := List.prefix_rfl

theorem Adds.continues {env : Environment} {r r' : TableBuilder} {key value : Bytes}
    (h : Adds env r key value r') : Continues r r' := by
  obtain ⟨r₁, dataBlock, _, hindex, hadd, hflush⟩ := h
  have hentry := hindex.continues.trans (withEntry_continues r₁ key dataBlock)
  rcases hflush with rfl | hflush
  · exact hentry
  · exact hentry.trans hflush.continues

-- The policy that the filter block, if there is one, is built with.
def builtWith (r : TableBuilder) : Option Nat := r.filterBlock.map FilterBlockBuilder.policy

theorem builtWith_eq_none {r : TableBuilder} : r.builtWith = none ↔ r.filterBlock = none :=
  Option.map_eq_none_iff

theorem startFilterBlock_builtWith (r : TableBuilder) :
    r.startFilterBlock.builtWith = r.builtWith := by
  unfold builtWith startFilterBlock
  cases r.filterBlock <;> rfl

theorem withEntry_builtWith (r : TableBuilder) (key : Bytes) (dataBlock : BlockBuilder) :
    (r.withEntry key dataBlock).builtWith = r.builtWith := by
  unfold builtWith withEntry
  cases r.filterBlock <;> rfl

theorem Writes.builtWith {r r' : TableBuilder} {data : Bytes} {type : CompressionType}
    (h : Writes r data type r') : r'.builtWith = r.builtWith := by
  rw [h.eq]
  rfl

theorem Flushes.builtWith {r r' : TableBuilder} (h : Flushes r r') :
    r'.builtWith = r.builtWith := by
  cases h with
  | idle h => rfl
  | failed r₁ hok hempty hwrites h₁ =>
      rw [startFilterBlock_builtWith]
      exact hwrites.builtWith
  | flushed r₁ hok hempty hwrites h₁ s =>
      rw [startFilterBlock_builtWith]
      exact hwrites.builtWith

theorem EntersIndex.builtWith {r r' : TableBuilder} {separator : Bytes}
    (h : EntersIndex r separator r') : r'.builtWith = r.builtWith := by
  cases h with
  | none h => rfl
  | entry h indexBlock hadd => rfl

theorem Adds.builtWith {env : Environment} {r r' : TableBuilder} {key value : Bytes}
    (h : Adds env r key value r') : r'.builtWith = r.builtWith := by
  obtain ⟨r₁, dataBlock, _, hindex, hadd, hflush⟩ := h
  have hentry : (r₁.withEntry key dataBlock).builtWith = r.builtWith := by
    rw [withEntry_builtWith, hindex.builtWith]
  rcases hflush with rfl | hflush
  · exact hentry
  · rw [hflush.builtWith, hentry]

theorem Finishes.log_le {env : Environment} {r r' : TableBuilder} (h : Finishes env r r') :
    r.log <+: r'.log := by
  cases h with
  | flush r₁ hflush h₁ => exact hflush.continues.log_le
  | metaindex r₁ _ hflush h₁ hmeta h₂ =>
      exact hflush.continues.log_le.trans hmeta.continues.log_le
  | index r₁ r₂ r₃ r₄ hflush h₁ hmeta h₂ hindex hwrite =>
      apply hflush.continues.log_le.trans
      apply hmeta.continues.log_le.trans
      exact hindex.continues.log_le.trans hwrite.continues.log_le

variable (env : Environment) (file : WritableFile)

theorem writeRawBlock_writes (r : TableBuilder) (data : Bytes) (type : CompressionType) :
    ∃ r', r.writeRawBlock env file data type = .ok (r', ⟨r.offset, data.length⟩) ∧
      Writes r data type r' := by
  have hbody : r.appendFile file data = { r with
      log := r.log ++ [(.append data, file.answer r.log (.append data))]
      status := file.answer r.log (.append data) } := rfl
  unfold writeRawBlock
  dsimp only
  rw [hbody]
  by_cases hs : file.answer r.log (.append data) = .ok
  · have hcontents : FileLog.contents (r.log ++ [(.append data, .ok)]) =
        r.log.contents ++ data := by
      rw [FileLog.contents_append]
      simp [FileLog.contents, FileLog.written]
    rw [hs, if_pos rfl, blockTrailer_eq, ok_bind]
    generalize hanswer : file.answer (r.log ++ [(.append data, .ok)])
      (.append (Mylldb.trailer data type)) = s
    have htrailer : appendFile file { r with
        log := r.log ++ [(.append data, .ok)], status := .ok } (Mylldb.trailer data type) =
        { r with
          log := r.log ++ [(.append data, .ok), (.append (Mylldb.trailer data type), s)]
          status := s } := by
      simp [appendFile, WritableFile.call, hanswer]
    rw [htrailer]
    by_cases hs' : s = .ok
    · have hlt := file.size_lt _ _ (hanswer.trans hs')
      rw [hcontents, List.length_append, trailer_length] at hlt
      rw [if_pos hs', pure_eq]
      refine ⟨_, rfl, ?_⟩
      subst hs'
      exact .done hlt
    · rw [if_neg hs', pure_eq]
      exact ⟨_, rfl, .trailer s hs'⟩
  · rw [if_neg hs, pure_eq]
    exact ⟨_, rfl, .body _ hs⟩

theorem writeBlock_writes (r : TableBuilder) (block : BlockBuilder) (hok : r.status = .ok) :
    ∃ r', r.writeBlock env file block =
        .ok (r', .initial, ⟨r.offset, block.finish.2.length⟩) ∧
      Writes r block.finish.2 r.options.compression r' := by
  obtain ⟨r', hwrite, hwrites⟩ :=
    writeRawBlock_writes env file r block.finish.2 r.options.compression
  refine ⟨r', ?_, hwrites⟩
  unfold writeBlock
  rw [assertThat_pos hok, ok_bind]
  dsimp only
  cases htype : r.options.compression <;>
  · rw [htype] at hwrite
    dsimp only
    rw [hwrite]
    rfl

theorem flush_flushes (r : TableBuilder) (hclosed : r.closed = false)
    (hpending : r.pendingIndexEntry = true → r.dataBlock.empty = true) :
    ∃ r', r.flush env file = .ok r' ∧ Flushes r r' := by
  unfold flush
  rw [assertThat_pos hclosed, ok_bind]
  by_cases hok : r.status = .ok
  · rw [if_neg (not_not.mpr hok)]
    cases hempty : r.dataBlock.empty with
    | true => exact ⟨r, rfl, .idle (.inr hempty)⟩
    | false =>
        have hnot : r.pendingIndexEntry = false := by
          apply Bool.eq_false_iff.mpr
          intro h
          rw [hpending h] at hempty
          cases hempty
        obtain ⟨r₁, hwrite, hwrites⟩ := writeBlock_writes env file r r.dataBlock hok
        rw [if_neg Bool.false_ne_true, assertThat_pos hnot, ok_bind, hwrite, ok_bind]
        dsimp only
        by_cases h₁ : r₁.status = .ok
        · rw [if_pos h₁]
          exact ⟨_, rfl, .flushed r₁ hok hempty hwrites h₁ _⟩
        · rw [if_neg h₁]
          exact ⟨_, rfl, .failed r₁ hok hempty hwrites h₁⟩
  · rw [if_pos hok]
    exact ⟨r, rfl, .idle (.inl hok)⟩

theorem handleBytes_eq (h : BlockHandle) :
    handleBytes h = putVarint64 [] h.offset ++ putVarint64 [] h.size := by
  simp [handleBytes, putVarint64]

theorem encodeTo_eq (h : BlockHandle) (dst : Bytes) (hfits : HandleFits h) :
    h.encodeTo dst = .ok (dst ++ handleBytes h) := by
  rw [BlockHandle.encodeTo, assertThat_pos hfits.1, ok_bind, assertThat_pos hfits.2, ok_bind,
    pure_eq]
  simp only [handleBytes, putVarint64, List.nil_append, List.append_assoc]

theorem addIndexEntry_enters (r : TableBuilder) (separator : Bytes)
    (hpending : r.pendingIndexEntry = true) (hfits : HandleFits r.pendingHandle) :
    ∃ r', r.addIndexEntry separator = .ok r' ∧ EntersIndex r separator r' := by
  obtain ⟨shared, restarts, counter, hadd, -⟩ := BlockBuilder.add_spec r.indexBlock
    r.indexBlockOptions.blockRestartInterval separator (handleBytes r.pendingHandle)
  refine ⟨_, ?_, .entry hpending _ hadd⟩
  rw [addIndexEntry, encodeTo_eq _ [] hfits, List.nil_append, ok_bind, hadd, ok_bind, pure_eq]

-- What `Add` does: the index entry, the entry, and a flush when the data block has reached
-- the size in the options.
theorem add_fills (r : TableBuilder) (key value : Bytes) (hclosed : r.closed = false)
    (hkey : 0 < r.numEntries →
      0 < (env.comparator r.options.comparator).compare key r.lastKey)
    (hpending : r.pendingIndexEntry = true → r.dataBlock.empty = true)
    (hfits : r.pendingIndexEntry = true → HandleFits r.pendingHandle) :
    ∃ r₁ dataBlock r', r.add env file key value = .ok r' ∧
      EntersIndex r
        ((env.comparator r.options.comparator).findShortestSeparator r.lastKey key) r₁ ∧
      r₁.dataBlock.add r₁.options.blockRestartInterval key value = .ok dataBlock ∧
      if r₁.options.blockSize ≤ dataBlock.currentSizeEstimate then
        Flushes (r₁.withEntry key dataBlock) r'
      else r' = r₁.withEntry key dataBlock := by
  have horder : r.checkOrder env key = .ok () := by
    unfold checkOrder
    split
    · rename_i h
      exact assertThat_pos (hkey h)
    · rfl
  have hentry : ∃ r₁, r.addPendingEntry env key = .ok r₁ ∧ EntersIndex r
      ((env.comparator r.options.comparator).findShortestSeparator r.lastKey key) r₁ := by
    unfold addPendingEntry
    cases h : r.pendingIndexEntry with
    | false => exact ⟨r, rfl, .none h⟩
    | true =>
        rw [if_pos rfl, assertThat_pos (hpending h), ok_bind]
        exact addIndexEntry_enters r _ h (hfits h)
  obtain ⟨r₁, hr₁, henters⟩ := hentry
  obtain ⟨shared, restarts, counter, hadd, -⟩ :=
    BlockBuilder.add_spec r₁.dataBlock r₁.options.blockRestartInterval key value
  generalize BlockBuilder.mk _ _ _ _ _ = dataBlock at hadd
  have hrun : r.add env file key value =
      if dataBlock.currentSizeEstimate ≥ r₁.options.blockSize then
        (r₁.withEntry key dataBlock).flush env file
      else .ok (r₁.withEntry key dataBlock) := by
    unfold add
    rw [assertThat_pos hclosed, ok_bind, horder, ok_bind, hr₁, ok_bind]
    dsimp only
    rw [hadd, ok_bind]
    rfl
  by_cases hsize : r₁.options.blockSize ≤ dataBlock.currentSizeEstimate
  · obtain ⟨r₂, hflush, hflushes⟩ := flush_flushes env file (r₁.withEntry key dataBlock)
      (henters.continues.closed_eq.trans hclosed) (fun h => by cases henters.pending_eq.symm.trans h)
    refine ⟨r₁, dataBlock, r₂, ?_, henters, hadd, ?_⟩
    · rw [hrun, if_pos hsize, hflush]
    · rwa [if_pos hsize]
  · refine ⟨r₁, dataBlock, r₁.withEntry key dataBlock, ?_, henters, hadd, ?_⟩
    · rw [hrun, if_neg hsize]
    · rw [if_neg hsize]

theorem add_adds (r : TableBuilder) (key value : Bytes) (hclosed : r.closed = false)
    (hkey : 0 < r.numEntries →
      0 < (env.comparator r.options.comparator).compare key r.lastKey)
    (hpending : r.pendingIndexEntry = true → r.dataBlock.empty = true)
    (hfits : r.pendingIndexEntry = true → HandleFits r.pendingHandle) :
    ∃ r', r.add env file key value = .ok r' ∧ Adds env r key value r' := by
  obtain ⟨r₁, dataBlock, r', hrun, henters, hadd, hfills⟩ :=
    add_fills env file r key value hclosed hkey hpending hfits
  refine ⟨r', hrun, .mk r₁ dataBlock r' henters hadd ?_⟩
  split at hfills
  · exact .inr hfills
  · exact .inl hfills

theorem writeFilterBlock_none (r : TableBuilder) (hfilter : r.filterBlock = none) :
    r.writeFilterBlock env file = .ok (r, env.blockHandle) := by
  unfold writeFilterBlock
  rw [hfilter]
  rfl

-- Without a filter the metaindex block is empty.
theorem writeMetaindexBlock_writes (r : TableBuilder) (filterHandle : BlockHandle)
    (hok : r.status = .ok) (hfilter : r.filterBlock = none)
    (hinterval : 1 ≤ r.options.blockRestartInterval) :
    ∃ r', r.writeMetaindexBlock env file filterHandle = .ok r' ∧
      Writes r BlockBuilder.initial.finish.2 r.options.compression r' := by
  have hentry : r.addFilterEntry env .initial filterHandle = .ok .initial := by
    unfold addFilterEntry
    rw [hfilter]
    rfl
  obtain ⟨r', hwrite, hwrites⟩ := writeBlock_writes env file r .initial hok
  refine ⟨r', ?_, hwrites⟩
  unfold writeMetaindexBlock
  rw [BlockBuilder.new_eq hinterval, ok_bind, hentry, ok_bind, hwrite]
  rfl

theorem addLastEntry_enters (r : TableBuilder)
    (hfits : r.pendingIndexEntry = true → HandleFits r.pendingHandle) :
    ∃ r', r.addLastEntry env = .ok r' ∧
      EntersIndex r (env.findShortestSeparator r.options.comparator r.lastKey) r' := by
  unfold addLastEntry
  cases h : r.pendingIndexEntry with
  | false => exact ⟨r, rfl, .none h⟩
  | true =>
      rw [if_pos rfl]
      exact addIndexEntry_enters r _ h (hfits h)

theorem writeIndexBlock_writes (r : TableBuilder) (hok : r.status = .ok)
    (hfits : r.pendingIndexEntry = true → HandleFits r.pendingHandle) :
    ∃ r₁ r₂, r.writeIndexBlock env file = .ok { r₂ with indexBlock := .initial } ∧
      EntersIndex r (env.findShortestSeparator r.options.comparator r.lastKey) r₁ ∧
        Writes r₁ r₁.indexBlock.finish.2 r₁.options.compression r₂ := by
  obtain ⟨r₁, hentry, henters⟩ := addLastEntry_enters env r hfits
  obtain ⟨r₂, hwrite, hwrites⟩ :=
    writeBlock_writes env file r₁ r₁.indexBlock (henters.same.1.trans hok)
  refine ⟨r₁, r₂, ?_, henters, hwrites⟩
  unfold writeIndexBlock
  rw [hentry, ok_bind, hwrite]
  rfl

theorem finish_finishes (r : TableBuilder) (hclosed : r.closed = false)
    (hpending : r.pendingIndexEntry = true → r.dataBlock.empty = true)
    (hfilter : r.filterBlock = none) (hinterval : 1 ≤ r.options.blockRestartInterval)
    (hfits : ∀ r₁, Flushes r r₁ → r₁.pendingIndexEntry = true → HandleFits r₁.pendingHandle) :
    ∃ r', r.finish env file = .ok (r', none) ∧ Finishes env r r' := by
  obtain ⟨r₁, hflush, hflushes⟩ := flush_flushes env file r hclosed hpending
  have hc := hflushes.continues
  have hfilter₁ : ({ r₁ with closed := true } : TableBuilder).filterBlock = none :=
    hc.filter_none hfilter
  unfold finish
  rw [hflush, ok_bind, assertThat_pos (hc.closed_eq.trans hclosed), ok_bind]
  dsimp only
  rw [writeFilterBlock_none env file _ hfilter₁, ok_bind]
  dsimp only
  by_cases h₁ : r₁.status = .ok
  · obtain ⟨r₂, hmeta, hmetas⟩ := writeMetaindexBlock_writes env file
      { r₁ with closed := true } env.blockHandle h₁ hfilter₁ (hc.options_eq.symm ▸ hinterval)
    rw [ifOk, if_pos h₁, hmeta, ok_bind]
    by_cases h₂ : r₂.status = .ok
    · -- the pending entry is that of the flush, which the metaindex block leaves alone
      have hfits₂ : r₂.pendingIndexEntry = true → HandleFits r₂.pendingHandle := by
        rw [hmetas.eq]
        exact hfits r₁ hflushes
      obtain ⟨r₃, r₄, hindex, henters, hwrites⟩ := writeIndexBlock_writes env file r₂ h₂ hfits₂
      refine ⟨_, ?_, .index r₁ r₂ r₃ r₄ hflushes h₁ hmetas h₂ henters hwrites⟩
      rw [ifOk, if_pos h₂, hindex]
      rfl
    · rw [ifOk, if_neg h₂]
      exact ⟨r₂, rfl, .metaindex r₁ r₂ hflushes h₁ hmetas h₂⟩
  · rw [ifOk, if_neg h₁, pure_eq, ok_bind, ifOk, if_neg h₁]
    exact ⟨_, rfl, .flush r₁ hflushes h₁⟩

end TableBuilder

end Mylldb

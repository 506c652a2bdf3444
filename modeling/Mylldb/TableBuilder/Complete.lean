import Mylldb.TableBuilder.ReadBack
import Mylldb.TableBuilder.Stored

namespace Mylldb

open Lib.Run

-- The data lies with its trailer where the handle says.
structure Lodged (contents : Bytes) (handle : BlockHandle) (data : Bytes)
    (type : CompressionType) : Prop where
  size_eq : handle.size = data.length
  fits : handle.offset + handle.size + 5 < 2 ^ 64
  stands : StandsAt contents handle.offset (data ++ trailer data type)
  start_le : handle.offset ≤ contents.length

namespace Lodged

variable {contents data : Bytes} {handle : BlockHandle} {type : CompressionType}

theorem append (h : Lodged contents handle data type) (more : Bytes) :
    Lodged (contents ++ more) handle data type where
  size_eq := h.size_eq
  fits := h.fits
  stands := TableBuilder.standsAt_append h.stands
  start_le := by
    rw [List.length_append]
    exact Nat.le_add_right_of_le h.start_le

theorem last (before data : Bytes) (type : CompressionType)
    (hfits : before.length + data.length + 5 < 2 ^ 64) :
    Lodged (before ++ (data ++ trailer data type)) ⟨before.length, data.length⟩ data type where
  size_eq := rfl
  fits := hfits
  stands := .last _ _
  start_le := by simp

theorem readBlock_eq (h : Lodged contents handle data type) (file : RandomAccessFile)
    (hserves : file.Serves contents) (opt : ReadOptions) : ∃ inScratch,
    readBlock file opt handle = .ok (.ok, readBackContents data inScratch type) := by
  have hstop := h.stands.le_length h.start_le
  rw [List.length_append, trailer_length] at hstop
  have hread := hserves handle.offset (data.length + 5) (by omega)
  have hcontents : (contents.drop handle.offset).take (data.length + 5) =
      data ++ trailer data type := by
    have htake := (List.prefix_iff_eq_take.mp h.stands).symm
    rwa [List.length_append, trailer_length] at htake
  rw [hcontents] at hread
  have hfits := h.fits
  have hsize := h.size_eq
  obtain ⟨offset, size⟩ := handle
  dsimp only at hsize hread hfits ⊢
  rw [hsize]
  exact ⟨_, readBlock_stored file opt offset (by omega) hread.1 hread.2⟩

end Lodged

namespace TableBuilder

open BlockBuilder Lib.ThreeWay Lib.SparseIndex

-- A block built from the entries lies where the handle says.
def LodgedBlock (allowed : CompressionType → Prop) (contents : Bytes) (handle : BlockHandle)
    (entries : List (Bytes × Bytes)) : Prop :=
  ∃ b type, Building entries b ∧ allowed type ∧ Lodged contents handle b.finish.2 type

-- The entries of the metaindex block: none, or the one that leads to the filter.
inductive FilterEntries (env : Environment) (contents : Bytes) (start : Nat) (named : Option Nat) :
    Option FilterBlockBuilder → List (Bytes × Bytes) → Prop where
  | none : FilterEntries env contents start named none []
  | some (filter : FilterBlockBuilder) (policy : Nat) (handle : BlockHandle)
      (hnamed : named = some policy) (hbehind : start ≤ handle.offset)
      (hlodged : Lodged contents handle (env.finishFilter filter) .kNoCompression) :
      FilterEntries env contents start named (some filter)
        [(filterKey (env.policyName policy), handleBytes handle)]

-- Where the data blocks of a file end.
def dataEnd (blocks : List IndexedBlock) : Nat := (blocks.map fun b => b.bytes.length + 5).sum

theorem Consecutive.stop_eq {start stop : Nat} {blocks : List DataBlock}
    (h : Consecutive start blocks stop) :
    stop = start + (blocks.map fun b => b.bytes.length + 5).sum := by
  induction blocks generalizing start with
  | nil => exact h
  | cons b blocks ih =>
      rw [ih h.2, List.map_cons, List.sum_cons]
      omega

theorem Consecutive.dataEnd_eq {stop : Nat} {blocks : List IndexedBlock}
    (h : Consecutive 0 (blocks.map (·.toDataBlock)) stop) : dataEnd blocks = stop := by
  rw [h.stop_eq, List.map_map, Nat.zero_add]
  rfl

-- A finished file: the data blocks one behind the other, and behind them the filter,
-- the metaindex block and the index block. The footer is what it lacks.
structure Complete (allowed : CompressionType → Prop) (env : Environment) (cmp : Comparator)
    (added : List (Bytes × Bytes)) (named : Option Nat) (filter : Option FilterBlockBuilder)
    (contents : Bytes) (blocks : List IndexedBlock) (footer : Footer) : Prop where
  entries_eq : blocks.flatMap (fun b => b.entries) = added
  sorted : added.Pairwise fun a b => cmp.compare a.1 b.1 < 0
  leads : Leads cmp.compare Prod.fst (fun b : IndexedBlock => b.entries) (·.separator) blocks
  lies : Lies contents (blocks.map (·.toDataBlock)) (dataEnd blocks)
  stored : ∀ b ∈ blocks, Stored allowed contents b.toDataBlock
  filter_entries : ∃ entries, FilterEntries env contents (dataEnd blocks) named filter entries ∧
    LodgedBlock allowed contents footer.metaindexHandle entries
  index : LodgedBlock allowed contents footer.indexHandle (blocks.map (·.indexEntry))
  metaindex_behind : dataEnd blocks ≤ footer.metaindexHandle.offset
  index_behind : dataEnd blocks ≤ footer.indexHandle.offset

section Ends

variable {allowed : CompressionType → Prop} {env : Environment} {cmp : Comparator}
  {added : List (Bytes × Bytes)} {p : Plan} {r r' : TableBuilder} {d : Draft} {data : Bytes}
  {type : CompressionType} {handle : BlockHandle}

theorem Writes.lodged (h : Writes r data type r') (hexact : Exact r) (hok : r.status = .ok)
    (hok' : r'.status = .ok) : Lodged r'.log.contents ⟨r.offset, data.length⟩ data type := by
  obtain ⟨hsize, -, hcontents⟩ := h.stored hok'
  rw [hcontents, hexact.offset_eq hok]
  exact .last _ _ _ hsize

theorem contents_of_prefix {log log' : FileLog} (hle : log <+: log') :
    ∃ more, log'.contents = log.contents ++ more := by
  obtain ⟨more, rfl⟩ := hle
  exact ⟨_, FileLog.contents_append _ _⟩

theorem length_contents_le {log log' : FileLog} (hle : log <+: log') :
    log.contents.length ≤ log'.contents.length := by
  obtain ⟨more, hmore⟩ := contents_of_prefix hle
  rw [hmore, List.length_append]
  exact Nat.le_add_right _ _

theorem lodged_of_prefix {log log' : FileLog} (h : Lodged log.contents handle data type)
    (hle : log <+: log') : Lodged log'.contents handle data type := by
  obtain ⟨more, hmore⟩ := contents_of_prefix hle
  rw [hmore]
  exact h.append more

theorem Represents.writesFilter {stop : Nat} (h : Represents r d stop)
    (hfilter : WritesFilter env r r' handle) : Represents r' d stop := by
  cases hfilter with
  | none _ => exact h
  | some filter _ _ hwrites => exact h.writes hwrites

-- The metaindex block leads to the filter that was written before it.
theorem WritesFilter.entries {block : BlockBuilder} {log : FileLog}
    (h : WritesFilter env r r' handle) (hexact : Exact r) (hok : r.status = .ok)
    (hok' : r'.status = .ok) (hentry : Metaindex env r' handle block)
    (hinterval : 1 ≤ r'.options.blockRestartInterval) (hle : r'.log <+: log) :
    ∃ entries, Building entries block ∧
      FilterEntries env log.contents r.offset r'.options.filterPolicy r'.filterBlock entries := by
  cases h with
  | none hnone =>
      rw [hnone]
      cases hentry with
      | empty _ => exact ⟨[], initial_building, .none⟩
      | entry policy hsome _ _ _ =>
          rw [hnone] at hsome
          cases hsome
  | some filter hsome _ hwrites =>
      have hfilter : r'.filterBlock = Option.some filter := by
        rw [hwrites.eq]
        exact hsome
      rw [hfilter]
      cases hentry with
      | empty hnone => cases hnone.symm.trans hfilter
      | entry policy _ hpolicy _ hadd =>
          refine ⟨_, initial_building.add hinterval hadd, .some filter policy _ hpolicy
            (Nat.le_refl _) ?_⟩
          exact lodged_of_prefix (hwrites.lodged hexact hok hok') hle

theorem Draft.filterCalls_of_current (hcurrent : d.current = []) :
    d.filterCalls = .startBlock 0 :: d.blocks.flatMap DataBlock.filterCalls := by
  rw [Draft.filterCalls, hcurrent, List.map_nil, List.append_nil]

-- A builder that has no entries outside a block has told its filter of all of them.
theorem Keeps.filterBlock_eq (h : Keeps allowed cmp added p r d) (hcurrent : d.current = []) :
    r.filterBlock = r.builtWith.map fun policy =>
      ⟨policy, .startBlock 0 :: d.blocks.flatMap DataBlock.filterCalls⟩ := by
  unfold builtWith
  cases hfilter : r.filterBlock with
  | none => rfl
  | some filter =>
      have hcalls := h.fed filter hfilter
      rw [Draft.filterCalls_of_current hcurrent] at hcalls
      rw [Option.map_some, Option.map_some, ← hcalls]

-- A separator from the last key on covers the block that waits for its index entry.
theorem Carries.covers_pending (h : Carries cmp added r d) (hc : TotalPreorder cmp.compare)
    {separator : Bytes} (hseparator : cmp.compare r.lastKey separator ≤ 0) :
    ∀ b ∈ d.pending, ∀ e ∈ b.entries, cmp.compare e.1 separator ≤ 0 := by
  intro b hb e he
  exact hc.trans _ _ _ (h.le_lastKey hc e (Draft.mem_added_of_pending hb he)) hseparator

-- A `Finish` that nothing cuts short writes all of its parts.
structure EndsWell (env : Environment) (r r₁ r₂ r₃ r₄ r₅ : TableBuilder) (handle : BlockHandle)
    (block : BlockBuilder) : Prop where
  flush : Flushes r r₁
  filter : WritesFilter env { r₁ with closed := true } r₂ handle
  entry : Metaindex env r₂ handle block
  metaindex : Writes r₂ block.finish.2 r₂.options.compression r₃
  lastEntry : EntersIndex r₃ (env.findShortestSeparator r₃.options.comparator r₃.lastKey) r₄
  index : Writes r₄ r₄.indexBlock.finish.2 r₄.options.compression r₅
  ok₁ : r₁.status = .ok
  ok₂ : r₂.status = .ok
  ok₃ : r₃.status = .ok
  ok₅ : r₅.status = .ok

theorem Ends.well (h : Ends env r r') (hexact : Exact r) (hall : r'.log.AllOk) :
    ∃ r₁ r₂ r₃ r₄ r₅ handle block, EndsWell env r r₁ r₂ r₃ r₄ r₅ handle block ∧
      r' = { r₅ with indexBlock := .initial } := by
  cases h with
  | flush r₁ hflush h₁ => exact absurd ((hexact.flushes hflush).log_ok.mpr hall) h₁
  | filter r₁ _ handle hflush h₁ hfilter h₂ =>
      have hexact₂ := (hexact.flushes hflush).close.writesFilter h₁ hfilter
      exact absurd (hexact₂.log_ok.mpr hall) h₂
  | metaindex r₁ r₂ _ handle block hflush h₁ hfilter h₂ hentry hmeta h₃ =>
      exact absurd hall (hmeta.not_allOk h₃)
  | index r₁ r₂ r₃ r₄ r₅ handle block hflush h₁ hfilter h₂ hentry hmeta h₃ hindex hwrite =>
      have h₅ : r₅.status = .ok := by
        by_contra hbad
        exact hwrite.not_allOk hbad hall
      exact ⟨r₁, r₂, r₃, r₄, r₅, handle, block,
        ⟨hflush, hfilter, hentry, hmeta, hindex, hwrite, h₁, h₂, h₃, h₅⟩, rfl⟩

section Parts

variable {r₁ r₂ r₃ r₄ r₅ : TableBuilder} {block : BlockBuilder}
  (h : EndsWell env r r₁ r₂ r₃ r₄ r₅ handle block)
include h

theorem EndsWell.options_eq :
    r₂.options = r.options ∧ r₃.options = r.options ∧ r₄.options = r.options := by
  have hoptions₂ := h.filter.continues.options_eq.trans h.flush.continues.options_eq
  have hoptions₃ := h.metaindex.continues.options_eq.trans hoptions₂
  exact ⟨hoptions₂, hoptions₃, h.lastEntry.continues.options_eq.trans hoptions₃⟩

theorem EndsWell.log_le : r₁.log <+: r₅.log ∧ r₂.log <+: r₅.log ∧ r₃.log <+: r₅.log := by
  have hle₃ : r₃.log <+: r₅.log := h.lastEntry.continues.log_le.trans h.index.continues.log_le
  have hle₂ := h.metaindex.continues.log_le.trans hle₃
  exact ⟨h.filter.continues.log_le.trans hle₂, hle₂, hle₃⟩

-- The metaindex block and the index block begin where nothing was written before.
theorem EndsWell.behind (hexact : Exact r₁) :
    r₁.log.contents.length ≤ r₂.offset ∧ r₁.log.contents.length ≤ r₄.offset := by
  have hexact₂ := hexact.close.writesFilter h.ok₁ h.filter
  have hexact₃ := hexact₂.writes h.ok₂ h.metaindex
  have hlast := h.lastEntry.same
  have hle₂ := length_contents_le h.filter.continues.log_le
  have hle₃ := length_contents_le h.metaindex.continues.log_le
  rw [hlast.2.2, hexact₂.offset_eq h.ok₂, hexact₃.offset_eq h.ok₃]
  exact ⟨hle₂, hle₂.trans hle₃⟩

theorem EndsWell.lastKey_eq : r₃.lastKey = r₁.lastKey := by rw [h.metaindex.eq, h.filter.eq]

end Parts

theorem Keeps.endsWell {r₁ r₂ r₃ r₄ r₅ : TableBuilder} {block : BlockBuilder}
    (h : Keeps allowed cmp added p r₁ d) (hcurrent : d.current = [])
    (hends : EndsWell env r r₁ r₂ r₃ r₄ r₅ handle block) (hexact₁ : Exact r₁)
    (hallowed : allowed r.options.compression) (hc : TotalPreorder cmp.compare)
    (hinterval : 1 ≤ r.options.blockRestartInterval)
    (hone : ∀ key, cmp.compare key (env.findShortestSeparator r.options.comparator key) ≤ 0) :
    ∃ (blocks : List IndexedBlock) (footer : Footer),
      Complete allowed env cmp added r.options.filterPolicy
        (r.builtWith.map fun policy => ⟨policy, .startBlock 0 ::
          (blocks.map (·.toDataBlock)).flatMap DataBlock.filterCalls⟩)
        r₅.log.contents blocks footer ∧
      blocks.map (·.toDataBlock) = d.blocks := by
  obtain ⟨hoptions₂, hoptions₃, hoptions₄⟩ := hends.options_eq
  obtain ⟨hle₁, hle₂, hle₃⟩ := hends.log_le
  have hexact₂ := hexact₁.close.writesFilter hends.ok₁ hends.filter
  have hexact₄ := (hexact₂.writes hends.ok₂ hends.metaindex).entersIndex hends.lastEntry
  have h₄ : r₄.status = .ok := hends.lastEntry.same.1.trans hends.ok₃
  let separator := env.findShortestSeparator r₃.options.comparator r₃.lastKey
  have hentered : Represents r₄ (d.settle separator) r₁.log.contents.length :=
    ((h.represents.close.writesFilter hends.filter).writes hends.metaindex).entersIndex
      hends.lastEntry
  have hseparator : cmp.compare r₁.lastKey separator ≤ 0 := by
    have hsep := hone r₃.lastKey
    rw [← hoptions₃] at hsep
    rwa [← hends.lastKey_eq]
  have hblocks : (d.settle separator).indexed.map (·.toDataBlock) = d.blocks := by
    rw [← Draft.blocks_settle_eq, Draft.blocks_settle]
  have hlies : Lies r₅.log.contents ((d.settle separator).indexed.map (·.toDataBlock))
      r₁.log.contents.length := by
    rw [← Draft.blocks_settle_eq]
    exact (hentered.writes hends.index).lies
  have hend : dataEnd (d.settle separator).indexed = r₁.log.contents.length :=
    hlies.consecutive.dataEnd_eq
  obtain ⟨hbehind₂, hbehind₄⟩ := hends.behind hexact₁
  obtain ⟨entries, hentries, hfilterEntries⟩ := hends.filter.entries hexact₁.close hends.ok₁
    hends.ok₂ hends.entry (by rw [hoptions₂]; exact hinterval) hle₂
  refine ⟨(d.settle separator).indexed, ⟨⟨r₂.offset, block.finish.2.length⟩,
    ⟨r₄.offset, r₄.indexBlock.finish.2.length⟩⟩,
    ⟨?_, ?_, ?_, ?_, ?_, ⟨entries, ?_, ?_⟩, ?_, ?_, ?_⟩, hblocks⟩
  · rw [← h.added_eq, ← Draft.added_settle (d := d) separator, Draft.added,
      Draft.waiting_settle separator hcurrent, List.append_nil]
  · rw [← h.added_eq]
    exact h.valid.sorted
  · exact h.valid.leads_settle separator (h.covers_pending hc hseparator)
  · rwa [hend]
  · intro b hb
    obtain ⟨more, hmore⟩ := contents_of_prefix hle₁
    rw [hmore]
    refine (h.stored b.toDataBlock ?_).append more
    rw [← hblocks]
    exact List.mem_map_of_mem hb
  · have hfilter₁ := h.filterBlock_eq hcurrent
    have hfilter₂ : r₂.filterBlock = r₁.filterBlock := by rw [hends.filter.eq]
    have hstart : ({ r₁ with closed := true } : TableBuilder).offset =
        dataEnd (d.settle separator).indexed := by
      rw [hend]
      exact hexact₁.offset_eq hends.ok₁
    rw [hstart, hfilter₂, hfilter₁, hends.flush.builtWith, hoptions₂] at hfilterEntries
    rw [hblocks]
    exact hfilterEntries
  · exact ⟨block, _, hentries, hoptions₂ ▸ hallowed,
      lodged_of_prefix (hends.metaindex.lodged hexact₂ hends.ok₂ hends.ok₃) hle₃⟩
  · exact ⟨r₄.indexBlock, _, hentered.index_building, hoptions₄ ▸ hallowed,
      hends.index.lodged hexact₄ h₄ hends.ok₅⟩
  · rwa [hend]
  · rwa [hend]

end Ends

-- The filter that a builder with this policy has heard of, block by block.
def heardFilter (options : Options) (blocks : List IndexedBlock) : Option FilterBlockBuilder :=
  options.filterPolicy.map fun policy => ⟨policy, .startBlock 0 ::
    (blocks.map (·.toDataBlock)).flatMap DataBlock.filterCalls⟩

-- Every run that nothing cuts short leaves a complete file. A builder that has a filter
-- needs a policy to ask for the name when it is finished.
theorem finished_complete {allowed : CompressionType → Prop} (env : Environment)
    (file : WritableFile) {options : Options} {r : TableBuilder}
    (hnew : TableBuilder.new env options = .ok r)
    (hc : TotalPreorder (env.comparator options.comparator).compare)
    (hsep : (env.comparator options.comparator).Separates)
    (hone : ∀ key, (env.comparator options.comparator).compare key
      (env.findShortestSeparator options.comparator key) ≤ 0) (calls : List Call)
    (hlegal : Legal (env.comparator options.comparator) none (calls ++ [.finish]))
    (hallowed : ∀ before, before <+: calls → allowed (optionsInForce options before).compression)
    (hpolicy : options.filterPolicy.isSome = true →
      (optionsInForce options calls).filterPolicy.isSome = true) :
    ∃ r₁ r', r.run env file calls = .ok r₁ ∧ r₁.finish env file = .ok (r', none) ∧
      (r'.log.AllOk → r'.fileSize = r'.log.contents.length ∧
        ∃ (blocks : List IndexedBlock) (footer : Footer),
          Complete allowed env (env.comparator options.comparator) (entriesOf calls)
            (optionsInForce options calls).filterPolicy (heardFilter options blocks)
            r'.log.contents blocks footer ∧
          blocks.map (·.toDataBlock.content) =
            (planned options (calls ++ [.finish])).closed.map Plan.content) := by
  obtain ⟨r₁, hrun, hwaiting, hbuilt, hoptions, hkept⟩ :=
    run_keeps env file hnew hc hsep calls hlegal hallowed
  obtain ⟨r', hfinish, hends⟩ := hwaiting.finish_ends env file (by rwa [hbuilt, hoptions])
  refine ⟨r₁, r', hrun, hfinish, fun hall => ?_⟩
  obtain ⟨d, hkeeps⟩ := hkept (hall.of_prefix hends.log_le)
  have hexact := hwaiting.toExact.ends hends
  refine ⟨hexact.offset_eq (hexact.log_ok.mpr hall), ?_⟩
  have hallowed := hoptions ▸ hallowed calls (List.prefix_refl _)
  obtain ⟨r₂, r₃, r₄, r₅, r₆, handle, block, hwell, rfl⟩ := hends.well hwaiting.toExact hall
  have hexact₂ := hwaiting.toExact.flushes hwell.flush
  obtain ⟨d', hkept', hcurrent⟩ := hkeeps.flushes hwaiting.toExact hallowed hwell.flush
    (hexact₂.log_ok.mp hwell.ok₁)
  obtain ⟨blocks, footer, hcomplete, hblocks⟩ := hkept'.endsWell hcurrent hwell hexact₂ hallowed hc
    hwaiting.interval_pos (by rwa [hwaiting.comparator_eq])
  rw [hoptions, hbuilt] at hcomplete
  refine ⟨blocks, footer, hcomplete, ?_⟩
  have hcontents := hkept'.blocks_eq
  rw [← hblocks, List.map_map] at hcontents
  rw [planned_concat]
  exact hcontents

end TableBuilder

end Mylldb

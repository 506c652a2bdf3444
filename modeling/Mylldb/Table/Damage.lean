import Mylldb.Format.BitErrors
import Mylldb.Table.Reading

namespace Mylldb

open Lib.Crc Lib.Run Lib.ThreeWay Crc32c TableBuilder

-- What lies where a handle says, with its trailer.
def region (contents : Bytes) (h : BlockHandle) : Bytes :=
  (contents.drop h.offset).take (h.size + kBlockTrailerSize)

-- A copy of a stored block that has changed in a way its checksum tells.
inductive Spoiled (data : Bytes) (type : UInt8) (copy : Bytes) : Prop where
  | damaged (h : Damaged data.length (storedBlock data type) copy) : Spoiled data type copy
  | flipped (ks : List Nat) (hks : ∀ k ∈ ks, k < 8 * (data.length + 1))
      (hfew : FewFlips (data.length + 1) ks) (hcopy : copy = flips (storedBlock data type) ks) :
      Spoiled data type copy

namespace Spoiled

variable {data copy : Bytes} {type : UInt8} (h : Spoiled data type copy)
include h

theorem length_eq : copy.length = data.length + kBlockTrailerSize := by
  rw [← storedBlock_length data type]
  cases h with
  | damaged hdamaged =>
      cases hdamaged with
      | checked hlen => exact hlen
      | crc hlen => exact hlen
  | flipped ks hks hfew hcopy => rw [hcopy, flips_length]

theorem checksumMatches_eq (address : Nat) (hn : data.length + kBlockTrailerSize < 2 ^ 64) :
    checksumMatches copy address data.length = .ok false := by
  cases h with
  | damaged hdamaged => exact checksumMatches_damaged address hn hdamaged
  | flipped ks hks hfew hcopy =>
      rw [hcopy]
      exact checksumMatches_flipped data type address ks hn hks hfew

end Spoiled

-- The block reads as it was written.
def Intact (contents copy : Bytes) (b : DataBlock) : Prop :=
  region copy b.handle = region contents b.handle

def SpoiledBlock (copy : Bytes) (b : DataBlock) : Prop :=
  Spoiled b.bytes CompressionType.kNoCompression.toByte (region copy b.handle)

-- A copy of the blocks of a file that differs in the data blocks at most, and where every
-- data block is as it was or has changed in a way its checksum tells.
structure CopyOf (blocks : List IndexedBlock) (contents copy : Bytes) : Prop where
  length_eq : copy.length = contents.length
  behind_eq : copy.drop (dataEnd blocks) = contents.drop (dataEnd blocks)
  data : ∀ b ∈ blocks, Intact contents copy b.toDataBlock ∨ SpoiledBlock copy b.toDataBlock

section Regions

variable {contents copy : Bytes}

theorem region_eq_of_prefix {h : BlockHandle} {bs : Bytes} (hstands : StandsAt contents h.offset bs)
    (hlen : bs.length = h.size + kBlockTrailerSize) : region contents h = bs := by
  rw [region, ← hlen]
  exact (List.prefix_iff_eq_take.mp hstands).symm

theorem standsAt_region (contents : Bytes) (h : BlockHandle) :
    StandsAt contents h.offset (region contents h) :=
  List.take_prefix _ _

theorem SpoiledBlock.append {b : DataBlock} (h : SpoiledBlock copy b) (more : Bytes) :
    SpoiledBlock (copy ++ more) b := by
  have hregion : region (copy ++ more) b.handle = region copy b.handle :=
    region_eq_of_prefix (standsAt_append (standsAt_region copy b.handle)) h.length_eq
  rwa [SpoiledBlock, hregion]

theorem TableBuilder.Stored.of_intact {allowed : CompressionType → Prop} {b : DataBlock}
    (h : Stored allowed contents b) (hintact : Intact contents copy b) :
    Stored allowed copy b := by
  obtain ⟨type, htype, hstands⟩ := h
  have hlen : (b.bytes ++ trailer b.bytes type).length = b.handle.size + kBlockTrailerSize := by
    rw [List.length_append, trailer_length]
    rfl
  have hcopy := standsAt_region copy b.handle
  rw [hintact, region_eq_of_prefix (h := b.handle) hstands hlen] at hcopy
  exact ⟨type, htype, hcopy⟩

section Behind

variable {blocks : List IndexedBlock} (hcopy : CopyOf blocks contents copy) {handle : BlockHandle}
  (hbehind : dataEnd blocks ≤ handle.offset)
include hcopy hbehind

-- What lies behind the data blocks is the same in a copy.
theorem Lodged.of_copy {data : Bytes} {type : CompressionType}
    (h : Lodged contents handle data type) : Lodged copy handle data type where
  size_eq := h.size_eq
  fits := h.fits
  stands := by
    have hdrop := congrArg (List.drop (handle.offset - dataEnd blocks)) hcopy.behind_eq
    rw [List.drop_drop, List.drop_drop, Nat.add_sub_cancel' hbehind] at hdrop
    rw [StandsAt, hdrop]
    exact h.stands
  start_le := hcopy.length_eq ▸ h.start_le

theorem TableBuilder.LodgedBlock.of_copy {allowed : CompressionType → Prop} {entries : List (Bytes × Bytes)}
    (h : LodgedBlock allowed contents handle entries) :
    LodgedBlock allowed copy handle entries := by
  obtain ⟨b, type, hbuilding, htype, hlodged⟩ := h
  exact ⟨b, type, hbuilding, htype, hlodged.of_copy hcopy hbehind⟩

end Behind

theorem TableBuilder.FilterEntries.of_copy {env : Environment} {blocks : List IndexedBlock}
    {named : Option Nat} {filter : Option FilterBlockBuilder} {entries : List (Bytes × Bytes)}
    (hcopy : CopyOf blocks contents copy)
    (h : FilterEntries env contents (dataEnd blocks) named filter entries) :
    FilterEntries env copy (dataEnd blocks) named filter entries := by
  cases h with
  | none => exact .none
  | some filter policy handle hnamed hbehind hlodged =>
      exact .some filter policy handle hnamed hbehind (hlodged.of_copy hcopy hbehind)

end Regions

namespace Table

variable {env : Environment} {cmp : Comparator} {added : List (Bytes × Bytes)}
  {blocks : List IndexedBlock} {contents copy : Bytes} {t : Table}

-- A spoiled block is not handed on when checksums are verified.
theorem readData_spoiled (hdecodes : env.getVarint64.Decodes) (hserves : t.file.Serves copy)
    {b : DataBlock} (hspoiled : SpoiledBlock copy b) {options : ReadOptions}
    (hverify : options.verifyChecksums = true) :
    t.readData env options (handleBytes b.handle) =
      .ok (Status.corruption "block checksum mismatch" "", []) := by
  have hfits := b.fits
  have hn : b.handle.size + kBlockTrailerSize < 2 ^ 64 := by
    change b.bytes.length + 5 < 2 ^ 64
    omega
  have hlength : (region copy b.handle).length = b.handle.size + kBlockTrailerSize :=
    hspoiled.length_eq
  have hinside : b.handle.offset + (b.handle.size + kBlockTrailerSize) ≤ copy.length := by
    rw [region, List.length_take, List.length_drop, kBlockTrailerSize] at hlength
    rw [kBlockTrailerSize]
    omega
  have hdecode := decodeFrom_handleBytes hdecodes env.blockHandle b.handle []
    (by change b.offset < 2 ^ 64; omega) (by change b.bytes.length < 2 ^ 64; omega)
  rw [List.append_nil] at hdecode
  obtain ⟨hstatus, hread⟩ := hserves _ _ hinside
  have hblockRead : blockRead t.file b.handle =
      t.file.read b.handle.offset (b.handle.size + kBlockTrailerSize) := by
    rw [blockRead, Nat.mod_eq_of_lt hn]
  have hcopy : (blockRead t.file b.handle).contents = region copy b.handle := by
    rw [hblockRead, hread, region]
  have hmatches := hspoiled.checksumMatches_eq (blockRead t.file b.handle).address hn
  rw [← hcopy] at hmatches hlength
  have hfails := readBlock_mismatch t.file options b.handle hn (by rw [hblockRead, hstatus])
    hlength hmatches hverify
  unfold readData
  rw [hdecode]
  dsimp only
  rw [if_neg (by simp), hfails]
  rfl

theorem searchData_spoiled (hdecodes : env.getVarint64.Decodes) (hserves : t.file.Serves copy)
    {b : DataBlock} (hspoiled : SpoiledBlock copy b) {options : ReadOptions}
    (hverify : options.verifyChecksums = true) (key : Bytes) :
    t.searchData env cmp options key (handleBytes b.handle) =
      .ok (Status.corruption "block checksum mismatch" "", none) := by
  rw [searchData, readData_spoiled hdecodes hserves hspoiled hverify]
  rfl

-- The first block whose separator is not before the key.
def reached (cmp : Comparator) (blocks : List IndexedBlock) (key : Bytes) : Option IndexedBlock :=
  blocks.find? fun b => decide (0 ≤ cmp.compare b.separator key)

-- Damage stays in its block. A search that comes to an intact block answers as the table
-- that was written, one that comes to a spoiled block says so, and a walk through the table
-- ends at the first spoiled block and says so.
structure Contained (env : Environment) (cmp : Comparator) (added : List (Bytes × Bytes))
    (blocks : List IndexedBlock) (contents copy : Bytes) (t : Table) : Prop where
  answered : ∀ options key, (∀ b ∈ reached cmp blocks key, Intact contents copy b.toDataBlock) →
    t.search env cmp options key =
      .ok (.ok, (added.find? fun e => decide (cmp.compare e.1 key = 0)).map Prod.snd)
  refused : ∀ options : ReadOptions, options.verifyChecksums = true → ∀ key,
    ∀ b ∈ reached cmp blocks key, SpoiledBlock copy b.toDataBlock →
      t.search env cmp options key = .ok (Status.corruption "block checksum mismatch" "", none)
  stopped : ∀ options : ReadOptions, options.verifyChecksums = true → ∀ before b after,
    blocks = before ++ b :: after → (∀ b' ∈ before, Intact contents copy b'.toDataBlock) →
      SpoiledBlock copy b.toDataBlock →
        t.scan env options (·.forward) =
          .ok (Status.corruption "block checksum mismatch" "", before.flatMap fun b => b.entries)

theorem Indexed.contained (h : Indexed cmp added blocks t) (hdecodes : env.getVarint64.Decodes)
    (hc : TotalPreorder cmp.compare) {more : Bytes} (hserves : t.file.Serves (copy ++ more))
    (hstored : ∀ b ∈ blocks, Stored Plain contents b.toDataBlock)
    (hsmall : ∀ b ∈ blocks, b.bytes.length < 2 ^ 32) :
    Contained env cmp added blocks contents copy t where
  answered options key hintact := by
    rw [h.search_leads hc, ← h.entries_eq, h.leads.lookup hc key]
    cases hfind : blocks.find? fun b => decide (0 ≤ cmp.compare b.separator key) with
    | none => rfl
    | some b =>
        have hb := List.mem_of_find?_eq_some hfind
        exact searchData_eq hc hdecodes hserves
          (((hstored b hb).of_intact (hintact b hfind)).append more) (hsmall b hb) (h.sorted_block hb) options key
  refused options hverify key b hb hspoiled := by
    have hfind : blocks.find? (fun b => decide (0 ≤ cmp.compare b.separator key)) = some b := hb
    rw [h.search_leads hc, hfind]
    exact searchData_spoiled hdecodes hserves (hspoiled.append more) hverify key
  stopped options hverify before b after hblocks hintact hspoiled := by
    have hbefore (b' : IndexedBlock) (hb' : b' ∈ before) : b' ∈ blocks := by
      rw [hblocks]
      exact List.mem_append_left _ hb'
    obtain ⟨index, hindex, hreads⟩ := h.index
    have hend : t.collect env options (·.forward) ((b :: after).map (·.indexEntry)) =
        .ok (Status.corruption "block checksum mismatch" "", []) := by
      rw [List.map_cons, collect]
      change t.readData env options (handleBytes b.handle) >>= _ = _
      rw [readData_spoiled hdecodes hserves (hspoiled.append more) hverify]
      rfl
    rw [scan, hindex, ok_bind, hreads.forward_eq, ok_bind, hblocks, List.map_append,
      collect_stored hdecodes hserves options id (fun _ _ hreads => hreads.forward_eq) before
        (fun b' hb' => ((hstored b' (hbefore b' hb')).of_intact (hintact b' hb')).append more)
        (fun b' hb' => hsmall b' (hbefore b' hb')), hend]
    exact congrArg (fun entries => Except.ok (_, entries)) (List.append_nil _)

end Table

namespace TableBuilder

section Copies

variable {env : Environment} {cmp : Comparator} {added : List (Bytes × Bytes)}
  {named : Option Nat} {filter : Option FilterBlockBuilder} {contents copy : Bytes}
  {blocks : List IndexedBlock} {footer : Footer}

-- A copy opens as the file does.
theorem Complete.opens_copy
    (h : Complete Plain env cmp added named filter contents blocks footer)
    (hdecodes : env.getVarint64.Decodes) (hsmall : Small blocks footer)
    (hcopy : CopyOf blocks contents copy) (file : RandomAccessFile)
    (hserves : file.Serves (copy ++ footer.encoded)) (options : Options) :
    ∃ t, Table.openTable env options file (copy.length + Footer.kEncodedLength) =
        .ok (.ok, some t) ∧
      t.file = file ∧ t.filter = Table.foundFilter env options named filter ∧
      Table.Indexed cmp added blocks t := by
  obtain ⟨entries, hentries, hmetaindex⟩ := h.filter_entries
  obtain ⟨t, it, hopen, hfile, hfilter, hit, hreads⟩ := Table.openTable_complete hdecodes
    h.footer_fits (hentries.of_copy hcopy) (hmetaindex.of_copy hcopy h.metaindex_behind)
    (h.index.of_copy hcopy h.index_behind) hsmall.metaindex hsmall.index file hserves options
  exact ⟨t, hopen, hfile, hfilter, h.entries_eq, h.sorted, h.leads, it, hit, hreads⟩

end Copies

-- Damage that the checksums tell does not leave its block, in any file that a builder
-- finished and that has got its footer.
theorem damage_contained (env : Environment) (file : WritableFile) {options : Options}
    {r : TableBuilder} (hnew : TableBuilder.new env options = .ok r)
    (hc : TotalPreorder (env.comparator options.comparator).compare)
    (hsep : (env.comparator options.comparator).Separates)
    (hone : ∀ key, (env.comparator options.comparator).compare key
      (env.findShortestSeparator options.comparator key) ≤ 0)
    (hdecodes : env.getVarint64.Decodes) (calls : List Call)
    (hlegal : Legal (env.comparator options.comparator) none (calls ++ [.finish]))
    (hplain : ∀ before, before <+: calls → Plain (optionsInForce options before).compression)
    (hpolicy : options.filterPolicy.isSome = true →
      (optionsInForce options calls).filterPolicy.isSome = true) :
    ∃ r₁ r', r.run env file calls = .ok r₁ ∧ r₁.finish env file = .ok (r', none) ∧
      (r'.log.AllOk → ∃ (blocks : List IndexedBlock) (footer : Footer),
        Complete Plain env (env.comparator options.comparator) (entriesOf calls)
          (optionsInForce options calls).filterPolicy (heardFilter options blocks)
          r'.log.contents blocks footer ∧
        (Small blocks footer → ∃ bytes, footer.encodeTo [] = .ok bytes ∧
          ∀ copy, CopyOf blocks r'.log.contents copy →
            ∀ reader : RandomAccessFile, reader.Serves (copy ++ bytes) → ∀ openOptions, ∃ t,
              Table.openTable env openOptions reader (r'.fileSize + Footer.kEncodedLength) =
                .ok (.ok, some t) ∧
              t.filter = Table.foundFilter env openOptions
                (optionsInForce options calls).filterPolicy (heardFilter options blocks) ∧
              Table.Contained env (env.comparator options.comparator) (entriesOf calls) blocks
                r'.log.contents copy t)) := by
  obtain ⟨r₁, r', hrun, hfinish, hcomplete⟩ :=
    finished_complete env file hnew hc hsep hone calls hlegal hplain hpolicy
  refine ⟨r₁, r', hrun, hfinish, fun hall => ?_⟩
  obtain ⟨hsize, blocks, footer, hcomplete, -⟩ := hcomplete hall
  refine ⟨blocks, footer, hcomplete, fun hsmall =>
    ⟨_, footer.encodeTo_encoded hcomplete.footer_fits, ?_⟩⟩
  intro copy hcopy reader hserves openOptions
  obtain ⟨t, hopen, hfile, hfilter, hindexed⟩ :=
    hcomplete.opens_copy hdecodes hsmall hcopy reader hserves openOptions
  rw [hsize, ← hcopy.length_eq]
  exact ⟨t, hopen, hfilter,
    hindexed.contained hdecodes hc (hfile ▸ hserves) hcomplete.stored hsmall.data⟩

-- A file with a single entry has a single data block.
theorem Complete.single {allowed : CompressionType → Prop} {env : Environment} {cmp : Comparator}
    {e : Bytes × Bytes} {named : Option Nat} {filter : Option FilterBlockBuilder}
    {contents : Bytes} {blocks : List IndexedBlock} {footer : Footer}
    (h : Complete allowed env cmp [e] named filter contents blocks footer) :
    ∃ b, blocks = [b] ∧ b.entries = [e] ∧ b.offset = 0 := by
  have hentries := h.entries_eq
  have hlies := h.lies.consecutive
  cases blocks with
  | nil => cases hentries
  | cons b blocks =>
      rw [List.flatMap_cons] at hentries
      rcases List.append_eq_singleton_iff.mp hentries with ⟨hb, -⟩ | ⟨hb, hrest⟩
      · exact absurd hb b.nonempty
      · obtain rfl : blocks = [] := by
          apply List.eq_nil_iff_forall_not_mem.mpr
          intro b' hb'
          exact b'.nonempty (List.flatMap_eq_nil_iff.mp hrest b' hb')
        exact ⟨b, rfl, hb, hlies.1⟩

-- Flipped bits in the only data block spoil it and nothing else.
theorem CopyOf.flipped {b : IndexedBlock} (hoffset : b.offset = 0) {contents : Bytes}
    (hstored : Stored Plain contents b.toDataBlock) (ks : List Nat)
    (hks : ∀ k ∈ ks, k < 8 * (b.bytes.length + 1)) (hfew : FewFlips (b.bytes.length + 1) ks) :
    CopyOf [b] contents (flips contents ks) ∧
      SpoiledBlock (flips contents ks) b.toDataBlock := by
  obtain ⟨type, rfl, rest, hcontents⟩ := hstored
  have hstart : contents.drop b.toDataBlock.offset = contents := by rw [hoffset, List.drop_zero]
  rw [hstart] at hcontents
  have hblock : b.bytes ++ trailer b.bytes .kNoCompression =
      storedBlock b.bytes CompressionType.kNoCompression.toByte := rfl
  rw [hblock] at hcontents
  generalize hstoredBlock : storedBlock b.bytes CompressionType.kNoCompression.toByte = block
    at hcontents
  have hlen : block.length = b.bytes.length + 5 := by
    rw [← hstoredBlock, storedBlock_length]
    rfl
  have hflips : flips contents ks = flips block ks ++ rest := by
    rw [← hcontents, flips_append]
    intro k hk
    have hlt := hks k hk
    omega
  have hspoiled : SpoiledBlock (flips contents ks) b.toDataBlock := by
    have hregion : region (flips contents ks) b.handle = flips block ks := by
      have hstandsAt : StandsAt (flips contents ks) b.handle.offset (flips block ks) := by
        change flips block ks <+: (flips contents ks).drop b.offset
        rw [hoffset, List.drop_zero, hflips]
        exact List.prefix_append _ _
      exact region_eq_of_prefix hstandsAt (by rw [flips_length, hlen]; rfl)
    rw [SpoiledBlock, hregion, ← hstoredBlock]
    exact .flipped ks hks hfew rfl
  refine ⟨⟨flips_length _ _, ?_, fun b' hb' => ?_⟩, hspoiled⟩
  · have hend : dataEnd [b] = block.length := by
      rw [hlen]
      rfl
    rw [hend, hflips, ← hcontents, List.drop_left, List.drop_left' (flips_length _ _)]
  · rw [List.mem_singleton.mp hb']
    exact .inr hspoiled

-- One bit of the first byte.
theorem damage_contained_sample : ∃ r r₁ r' bytes t,
    TableBuilder.new filterEnvironment filterOptions = .ok r ∧
      r.run filterEnvironment reliable [.add [1] [7]] = .ok r₁ ∧
        r₁.finish filterEnvironment reliable = .ok (r', none) ∧
          Table.openTable filterEnvironment filterOptions
            (.ofContents (flips r'.log.contents [5] ++ bytes))
            (r'.fileSize + Footer.kEncodedLength) = .ok (.ok, some t) ∧
          t.search filterEnvironment bytewiseComparator ⟨true⟩ [1] =
            .ok (Status.corruption "block checksum mismatch" "", none) := by
  obtain ⟨r, hnew⟩ : ∃ r, TableBuilder.new filterEnvironment filterOptions = .ok r := ⟨_, rfl⟩
  obtain ⟨r₁, r', hrun, hfinish, hdamage⟩ := damage_contained filterEnvironment reliable hnew
    Slice.compare_totalOrder.toTotalPreorder bytewiseComparator_separates
    (fun key => (Slice.compare_totalOrder.refl key).le) decode_decodes [.add [1] [7]]
    (by simp [Legal]) (fun before hbefore => plain_inForce rfl (by simp) hbefore) (fun _ => rfl)
  have hchecked : (TableBuilder.new filterEnvironment filterOptions >>= fun r =>
      r.run filterEnvironment reliable [.add [1] [7]] >>= fun r₁ =>
        (r₁.finish filterEnvironment reliable).map fun f =>
          decide (f.1.log.AllOk ∧ f.1.log.contents.length < 2 ^ 32)) = .ok true := by
    decide +kernel
  rw [hnew, ok_bind, hrun, ok_bind, hfinish] at hchecked
  obtain ⟨hall, hsize⟩ := of_decide_eq_true (Except.ok.inj hchecked)
  obtain ⟨blocks, footer, hcomplete, hopens⟩ := hdamage hall
  obtain ⟨bytes, -, hopens⟩ := hopens (hcomplete.small hsize)
  obtain ⟨b, rfl, hentries, hoffset⟩ := hcomplete.single
  obtain ⟨hcopy, hspoiled⟩ := CopyOf.flipped hoffset (hcomplete.stored b (by simp)) [5]
    (by simp; omega) (.inl (by decide))
  obtain ⟨t, hopen, -, hcontained⟩ := hopens _ hcopy _ (RandomAccessFile.ofContents_serves _)
    filterOptions
  refine ⟨r, r₁, r', bytes, t, hnew, hrun, hfinish, hopen, ?_⟩
  refine hcontained.refused ⟨true⟩ rfl [1] b ?_ hspoiled
  have hcovers := hcomplete.leads.covers b (by simp) ([1], [7]) (by rw [hentries]; simp)
  have hreaches := (Slice.compare_totalOrder.nonneg_iff b.separator [1]).mpr hcovers
  exact List.find?_cons_of_pos (decide_eq_true hreaches)

end TableBuilder

end Mylldb

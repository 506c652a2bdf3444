import Mylldb.Block.Progress
import Mylldb.Format.Safety
import Mylldb.Table.Footer
import Mylldb.TableBuilder.Filter

namespace Mylldb

open Lib.Run Lib.Cursor

-- Whatever the handle says, `ReadBlock` hands on bytes that it read or goes past them.
theorem readBlock_onlyFails (file : RandomAccessFile) (options : ReadOptions)
    (handle : BlockHandle) : OnlyFails .outOfBounds (readBlock file options handle) fun o =>
      o.2.data <+: (blockRead file handle).contents := by
  by_cases hstatus : (blockRead file handle).status = .ok
  · by_cases hlen : (blockRead file handle).contents.length =
        (handle.size + kBlockTrailerSize) % 2 ^ 64
    · by_cases hfits : handle.size + kBlockTrailerSize < 2 ^ 64
      · rw [Nat.mod_eq_of_lt hfits] at hlen
        obtain ⟨s, contents, hread, hprefix⟩ :=
          readBlock_complete file options handle hstatus hlen hfits
        rw [hread]
        exact .ok hprefix
      · have hwraps : Wraps file handle := ⟨Nat.le_of_not_lt hfits, hstatus, hlen⟩
        rcases hwraps.outcomes file options handle with hfault | hmismatch
        · exact .inl hfault
        · rw [hmismatch]
          exact .ok List.nil_prefix
    · rw [readBlock_eq, if_neg (not_not.mpr hstatus), if_pos hlen]
      exact .ok List.nil_prefix
  · rw [readBlock_eq, if_pos hstatus]
    exact .ok List.nil_prefix

-- No read of a file comes near the limit of the sizes in a block.
def RandomAccessFile.Bounded (file : RandomAccessFile) : Prop :=
  ∀ offset n, (file.read offset n).contents.length < 2 ^ 32

theorem readBlock_bounded {file : RandomAccessFile} (hbounded : file.Bounded)
    (options : ReadOptions) (handle : BlockHandle) :
    OnlyFails .outOfBounds (readBlock file options handle) fun o => o.2.data.length < 2 ^ 32 :=
  (readBlock_onlyFails file options handle).imp fun _ hprefix =>
    hprefix.length_le.trans_lt (hbounded _ _)

namespace Block

-- Any contents make a block and an iterator, and a search there ends.
theorem new_seeks (contents : Bytes) (hlen : contents.length < 2 ^ 32) (cmp : Comparator)
    (target : Bytes) : ∃ block it, Block.new contents = .ok block ∧ block.newIterator = .ok it ∧
      OnlyFails .outOfBounds (it.position fun it => it.seek cmp target) fun _ => True := by
  obtain ⟨block, it, hblock, hit, hcases⟩ := newIterator_cases contents hlen
  refine ⟨block, it, hblock, hit, ?_⟩
  rcases hcases with ⟨-, status, rfl⟩ | ⟨offset, n, harray, rfl | ⟨hn, rfl⟩⟩
  · exact .ok trivial
  · exact .ok trivial
  · exact ((harray.area hlen hn).seek_ends cmp target).bind fun it' _ _ => .ok trivial

namespace BlockIterator

theorem key_total (it : BlockIterator) (hvalid : it.valid = true) : ∃ key, it.key = .ok key := by
  cases it with
  | empty status => cases hvalid
  | iter it =>
      refine ⟨it.key, ?_⟩
      rw [key, Iter.getKey, assertThat_pos (show it.valid = true from hvalid), ok_bind, pure_eq]

theorem value_onlyFails (it : BlockIterator) (hvalid : it.valid = true) :
    OnlyFails .outOfBounds it.value fun _ => True := by
  cases it with
  | empty status => cases hvalid
  | iter it =>
      rw [value, Iter.getValue, assertThat_pos (show it.valid = true from hvalid), ok_bind]
      cases it.value with
      | none => exact .inl rfl
      | some v => exact readRange_onlyFails it.data v.1 v.2

end BlockIterator

end Block

namespace Table

variable (env : Environment)

-- The same table, but perhaps with another filter.
def SameButFilter (t t' : Table) : Prop :=
  t' = { t with filter := t'.filter, filterData := t'.filterData }

theorem SameButFilter.refl (t : Table) : SameButFilter t t := rfl

-- Without the filter, and as if no policy had been asked for.
def bare (t : Table) : Table :=
  { t with
    options := { t.options with filterPolicy := none }
    filter := none
    filterData := none }

theorem SameButFilter.bare_eq {t t' : Table} (h : SameButFilter t t') : t'.bare = t.bare := by
  rw [h]
  rfl

theorem readFilter_tolerates (t : Table) (policy : Nat) (filterHandleValue : Bytes) :
    OnlyFails .outOfBounds (t.readFilter env policy filterHandleValue) (SameButFilter t) := by
  unfold readFilter
  dsimp only
  split
  · exact .ok (.refl t)
  · apply (readBlock_onlyFails t.file _ _).bind
    rintro ⟨s, block⟩ - -
    dsimp only
    split
    · exact .ok (.refl t)
    · exact .ok rfl

-- Whatever stands in the place of the metaindex block, the table opens without a filter
-- at worst.
theorem readMeta_tolerates (t : Table) (footer : Footer) (hbounded : t.file.Bounded) :
    OnlyFails .outOfBounds (t.readMeta env footer) (SameButFilter t) := by
  unfold readMeta
  split
  · exact .ok (.refl t)
  · rename_i policy hpolicy
    apply (readBlock_bounded hbounded _ _).bind
    rintro ⟨s, contents⟩ - hlen
    dsimp only at hlen ⊢
    by_cases hs : s = .ok
    · obtain ⟨block, it, hblock, hit, hseeks⟩ := Block.new_seeks contents.data hlen
        bytewiseComparator (TableBuilder.filterKey (env.policyName policy))
      rw [if_neg (not_not.mpr hs), hblock, ok_bind, hit, ok_bind]
      apply hseeks.bind
      intro it' _ _
      by_cases hvalid : it'.valid = true
      · obtain ⟨key, hkey⟩ := it'.key_total hvalid
        rw [if_pos hvalid, hkey, ok_bind]
        split
        · apply (it'.value_onlyFails hvalid).bind
          intro v _ _
          exact readFilter_tolerates env t policy v
        · exact .ok (.refl t)
      · rw [if_neg hvalid]
        exact .ok (.refl t)
    · rw [if_pos hs]
      exact .ok (.refl t)

-- The table before its metadata is read.
def opened (options : Options) (file : RandomAccessFile) (footer : Footer) (indexBlock : Block) :
    Table where
  options
  file
  cacheId := match options.blockCache with
    | none => 0
    | some cache => env.newId cache
  filter := none
  filterData := none
  metaindexHandle := footer.metaindexHandle
  indexBlock

-- The part of `Open` behind the footer.
def openIndex (options : Options) (file : RandomAccessFile) (footer : Footer) :
    Exec (Status × Option Table) := do
  let (s, contents) ← readBlock file (readOptions options) footer.indexHandle
  if s = .ok then do
    let indexBlock ← Block.new contents.data
    let table ← (opened env options file footer indexBlock).readMeta env footer
    pure (s, some table)
  else pure (s, none)

theorem openIndex_tolerates (options : Options) (file : RandomAccessFile) (footer : Footer)
    (hbounded : file.Bounded) :
    OnlyFails .outOfBounds (openIndex env options file footer) fun o =>
      (o.1 = .ok ↔ o.2.isSome = true) ∧
        openIndex env { options with filterPolicy := none } file footer =
          .ok (o.1, o.2.map bare) := by
  have hoptions : readOptions { options with filterPolicy := none } = readOptions options := rfl
  unfold openIndex
  rw [hoptions]
  rcases readBlock_bounded hbounded (readOptions options) footer.indexHandle with
    hfault | ⟨⟨s, contents⟩, hread, hlen⟩
  · rw [hfault]
    exact .inl rfl
  · rw [hread, ok_bind, ok_bind]
    dsimp only at hlen ⊢
    by_cases hs : s = .ok
    · obtain ⟨indexBlock, -, hblock, -⟩ :=
        Block.new_seeks contents.data hlen bytewiseComparator []
      rw [if_pos hs, if_pos hs, hblock, ok_bind, ok_bind]
      apply (readMeta_tolerates env _ footer hbounded).bind
      intro t' _ hsame
      refine .ok ⟨by simp [hs], ?_⟩
      rw [Option.map_some, hsame.bare_eq]
      rfl
    · rw [if_neg hs, if_neg hs]
      exact .ok ⟨by simp [hs], rfl⟩

theorem decodeFrom_onlyFails (getVarint64 : VarintDecoder) (footer : Footer) (input : Bytes) :
    OnlyFails .outOfBounds (footer.decodeFrom getVarint64 input) fun _ => True := by
  by_cases hlen : Footer.kEncodedLength ≤ input.length
  · obtain ⟨o, ho⟩ := footer.decodeFrom_total getVarint64 input hlen
    exact .inr ⟨o, ho, trivial⟩
  · exact .inl (footer.decodeFrom_past getVarint64 input (Nat.lt_of_not_le hlen))

-- Every file, every size and every footer: `Open` comes to an end and trips over no
-- assertion. It has a table to return exactly when its status is `OK`, and both are those
-- of an `Open` without a filter policy.
theorem openTable_tolerates (options : Options) (file : RandomAccessFile) (size : Nat)
    (hbounded : file.Bounded) :
    OnlyFails .outOfBounds (openTable env options file size) fun o =>
      (o.1 = .ok ↔ o.2.isSome = true) ∧
        openTable env { options with filterPolicy := none } file size = .ok (o.1, o.2.map bare) := by
  unfold openTable
  by_cases hshort : size < Footer.kEncodedLength
  · rw [if_pos hshort, if_pos hshort]
    exact .ok ⟨by decide, rfl⟩
  rw [if_neg hshort, if_neg hshort]
  dsimp only
  by_cases hstatus : (file.read (size - Footer.kEncodedLength) Footer.kEncodedLength).status = .ok
  · rw [if_neg (not_not.mpr hstatus), if_neg (not_not.mpr hstatus)]
    rcases decodeFrom_onlyFails env.getVarint64 ⟨env.blockHandle, env.blockHandle⟩
      (file.read (size - Footer.kEncodedLength) Footer.kEncodedLength).contents with
      hfault | ⟨⟨s, footer, rest⟩, hdecode, -⟩
    · rw [hfault]
      exact .inl rfl
    · rw [hdecode, ok_bind, ok_bind]
      dsimp only
      by_cases hs : s = .ok
      · rw [if_neg (not_not.mpr hs), if_neg (not_not.mpr hs)]
        exact openIndex_tolerates env options file footer hbounded
      · rw [if_pos hs, if_pos hs]
        exact .ok ⟨by simp [hs], rfl⟩
  · rw [if_pos hstatus, if_pos hstatus]
    exact .ok ⟨by simp [hstatus], rfl⟩

-- An index block without entries, and in the place of the metaindex block its first bytes.
def damagedFooter : Footer := ⟨⟨0, 3⟩, ⟨0, 8⟩⟩

def damagedContents : Bytes :=
  BlockBuilder.initial.finish.2 ++ trailer BlockBuilder.initial.finish.2 .kNoCompression ++
    damagedFooter.encoded

theorem ofContents_bounded (contents : Bytes) (hlen : contents.length < 2 ^ 32) :
    (RandomAccessFile.ofContents contents).Bounded := by
  intro offset n
  have htaken : ((contents.drop offset).take n).length ≤ contents.length :=
    ((List.take_sublist _ _).trans (List.drop_sublist _ _)).length_le
  exact htaken.trans_lt hlen

theorem openTable_tolerates_sample : ∃ t,
    openTable TableBuilder.filterEnvironment TableBuilder.filterOptions
      (.ofContents damagedContents) damagedContents.length = .ok (.ok, some t) ∧
    t.filter = none ∧
    openTable TableBuilder.filterEnvironment
      { TableBuilder.filterOptions with filterPolicy := none } (.ofContents damagedContents)
      damagedContents.length = .ok (.ok, some t.bare) := by
  have hlen : damagedContents.length < 2 ^ 32 := by decide +kernel
  have hopen : (openTable TableBuilder.filterEnvironment TableBuilder.filterOptions
      (.ofContents damagedContents) damagedContents.length).map (fun o =>
        (o.1, o.2.map (·.filter))) = .ok (.ok, some none) := by
    decide +kernel
  rcases openTable_tolerates TableBuilder.filterEnvironment TableBuilder.filterOptions _
    damagedContents.length (ofContents_bounded damagedContents hlen) with
    hfault | ⟨⟨s, t⟩, ho, -, hbare⟩
  · rw [hfault] at hopen
    cases hopen
  · rw [ho] at hopen ⊢
    obtain ⟨rfl, ht⟩ := Prod.mk.inj (Except.ok.inj hopen)
    obtain ⟨t, rfl, hfilter⟩ := Option.map_eq_some_iff.mp ht
    exact ⟨t, rfl, hfilter, hbare⟩

end Table

end Mylldb

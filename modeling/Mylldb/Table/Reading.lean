import Mylldb.Block.Reader
import Mylldb.Table.Tolerance
import Mylldb.TableBuilder.Complete

namespace Mylldb

open Lib.Run Lib.ThreeWay Lib.SparseIndex TableBuilder

namespace Table

variable (env : Environment)

-- `NewIterator`, `InternalGet` and `BlockReader` are declared and not defined, so that the
-- source has no code that reads the blocks of an open table. `readData`, `searchData`,
-- `search`, `collect` and `scan` are no translations: they are the steps of a client that
-- follows the index block itself with the methods that the source does define.
def readData (t : Table) (options : ReadOptions) (handleValue : Bytes) :
    Exec (Status × Bytes) := do
  let (s, handle, _) := env.blockHandle.decodeFrom env.getVarint64 handleValue
  if s ≠ .ok then pure (s, [])
  else do
    let (s, contents) ← readBlock t.file options handle
    pure (s, contents.data)

-- Looks for a key in the block that the value of an index entry leads to.
def searchData (t : Table) (cmp : Comparator) (options : ReadOptions) (key handleValue : Bytes) :
    Exec (Status × Option Bytes) := do
  let (s, data) ← t.readData env options handleValue
  if s ≠ .ok then pure (s, none)
  else do
    let it ← Block.openIterator data
    let it ← it.seek cmp key
    if it.valid then do
      let (found, value) ← it.entry
      pure (it.status, if cmp.compare found key = 0 then some value else none)
    else pure (it.status, none)

-- Looks for a key in the block that the index leads to.
def search (t : Table) (cmp : Comparator) (options : ReadOptions) (key : Bytes) :
    Exec (Status × Option Bytes) := do
  let index ← t.indexBlock.newIterator
  let index ← index.seek cmp key
  if index.valid then do
    let handleValue ← index.value
    t.searchData env cmp options key handleValue
  else pure (index.status, none)

-- Goes through the blocks of a list of index entries, each in the same way.
def collect (t : Table) (options : ReadOptions)
    (walk : Block.BlockIterator → Exec (List (Bytes × Bytes))) :
    List (Bytes × Bytes) → Exec (Status × List (Bytes × Bytes))
  | [] => pure (.ok, [])
  | (_, handleValue) :: index => do
      let (s, data) ← t.readData env options handleValue
      if s ≠ .ok then pure (s, [])
      else do
        let it ← Block.openIterator data
        let entries ← walk it
        let (s, later) ← t.collect options walk index
        pure (s, entries ++ later)

-- Goes through the whole table, from the front or from the back.
def scan (t : Table) (options : ReadOptions)
    (walk : Block.BlockIterator → Exec (List (Bytes × Bytes))) :
    Exec (Status × List (Bytes × Bytes)) := do
  let index ← t.indexBlock.newIterator
  let handles ← walk index
  t.collect env options walk handles

end Table

-- Blocks that are stored as they are.
def Plain (type : CompressionType) : Prop := type = .kNoCompression

namespace TableBuilder

open BlockBuilder

-- A block that is stored as it is comes back and opens on its entries.
theorem LodgedBlock.opens {contents : Bytes} {handle : BlockHandle}
    {entries : List (Bytes × Bytes)} (h : LodgedBlock Plain contents handle entries)
    (hsize : handle.size < 2 ^ 32) (file : RandomAccessFile) (hserves : file.Serves contents) :
    ∃ data block it, (∀ opt, ∃ inScratch, readBlock file opt handle =
        .ok (.ok, ⟨data, inScratch, inScratch⟩)) ∧
      Block.new data = .ok block ∧ block.newIterator = .ok it ∧ Block.Reads entries it := by
  obtain ⟨b, type, hbuilding, rfl, hlodged⟩ := h
  obtain ⟨block, it, hblock, hit, hreads⟩ := hbuilding.opens (by rwa [← hlodged.size_eq])
  exact ⟨_, block, it, fun opt => hlodged.readBlock_eq file hserves opt, hblock, hit, hreads⟩

theorem LodgedBlock.append {allowed : CompressionType → Prop} {contents : Bytes}
    {handle : BlockHandle} {entries : List (Bytes × Bytes)}
    (h : LodgedBlock allowed contents handle entries) (more : Bytes) :
    LodgedBlock allowed (contents ++ more) handle entries := by
  obtain ⟨b, type, hbuilding, htype, hlodged⟩ := h
  exact ⟨b, type, hbuilding, htype, hlodged.append more⟩

theorem FilterEntries.append {env : Environment} {contents : Bytes} {start : Nat}
    {named : Option Nat} {filter : Option FilterBlockBuilder} {entries : List (Bytes × Bytes)}
    (h : FilterEntries env contents start named filter entries) (more : Bytes) :
    FilterEntries env (contents ++ more) start named filter entries := by
  cases h with
  | none => exact .none
  | some filter policy handle hnamed hbehind hlodged =>
      exact .some filter policy handle hnamed hbehind (hlodged.append more)

theorem Stored.lodged {allowed : CompressionType → Prop} {contents : Bytes} {b : DataBlock}
    (h : Stored allowed contents b) : LodgedBlock allowed contents b.handle b.entries := by
  obtain ⟨type, htype, hstands⟩ := h
  obtain ⟨builder, hbuilding, hbytes⟩ := b.built
  refine ⟨builder, type, hbuilding, htype, rfl.trans (congrArg List.length hbytes.symm), b.fits, ?_,
    ?_⟩
  · rwa [hbytes]
  · by_contra hstart
    have hnil : contents.drop b.handle.offset = [] :=
      List.drop_eq_nil_of_le (Nat.le_of_not_le hstart)
    have hprefix : b.bytes ++ trailer b.bytes type <+: [] := hnil ▸ hstands
    have hlen := hprefix.length_le
    rw [List.length_append, trailer_length] at hlen
    exact absurd hlen (by simp)

-- The blocks of the table can be opened.
structure Small (blocks : List IndexedBlock) (footer : Footer) : Prop where
  data : ∀ b ∈ blocks, b.bytes.length < 2 ^ 32
  metaindex : footer.metaindexHandle.size < 2 ^ 32
  index : footer.indexHandle.size < 2 ^ 32

end TableBuilder

namespace Table

variable (env : Environment)

-- The filter that a table hands on: the one that was recorded under the name of the policy
-- the table is opened with.
def foundFilter (options : Options) (named : Option Nat) (filter : Option FilterBlockBuilder) :
    Option (Nat × Bytes) :=
  match options.filterPolicy, named, filter with
  | some policy, some named, some filter =>
      if env.policyName named = env.policyName policy then some (policy, env.finishFilter filter)
      else none
  | _, _, _ => none

variable {env} {contents : Bytes} {named : Option Nat} {filter : Option FilterBlockBuilder}
  {entries : List (Bytes × Bytes)}

theorem readFilter_lodged (hdecodes : env.getVarint64.Decodes) (t : Table) (policy : Nat)
    (hserves : t.file.Serves contents) {handle : BlockHandle} {data : Bytes}
    (h : Lodged contents handle data .kNoCompression) :
    ∃ filterData, t.readFilter env policy (handleBytes handle) =
      .ok { t with filter := some (policy, data), filterData } := by
  have hfits := h.fits
  have hdecode := decodeFrom_handleBytes hdecodes env.blockHandle handle [] (by omega) (by omega)
  rw [List.append_nil] at hdecode
  obtain ⟨inScratch, hread⟩ := h.readBlock_eq t.file hserves (readOptions t.options)
  refine ⟨if inScratch then some data else t.filterData, ?_⟩
  unfold readFilter
  rw [hdecode]
  dsimp only
  rw [if_neg (by simp), hread, ok_bind]
  rfl

-- The name is looked for among at most one.
theorem readMeta_found (hdecodes : env.getVarint64.Decodes) (t : Table) (footer : Footer)
    (hserves : t.file.Serves contents) (hnone : t.filter = none)
    {start : Nat} (hentries : FilterEntries env contents start named filter entries)
    (hlodged : LodgedBlock Plain contents footer.metaindexHandle entries)
    (hsize : footer.metaindexHandle.size < 2 ^ 32) :
    ∃ filterData, t.readMeta env footer =
      .ok { t with filter := foundFilter env t.options named filter, filterData } := by
  unfold readMeta
  cases hpolicy : t.options.filterPolicy with
  | none =>
      refine ⟨t.filterData, ?_⟩
      unfold foundFilter
      rw [hpolicy, ← hnone, pure_eq]
  | some policy =>
      obtain ⟨data, block, it, hread, hblock, hit, hreads⟩ := hlodged.opens hsize t.file hserves
      obtain ⟨inScratch, hread⟩ := hread (readOptions t.options)
      have hsorted : entries.Pairwise fun a b => bytewiseComparator.compare a.1 b.1 ≤ 0 := by
        cases hentries with
        | none => exact .nil
        | some filter policy handle hnamed hbehind hfilter => exact List.pairwise_singleton _ _
      obtain ⟨it', hseek, -, hvalid, hshows⟩ := hreads.seek_find
        Slice.compare_totalOrder.toTotalPreorder hsorted (filterKey (env.policyName policy))
      dsimp only
      rw [hread, ok_bind]
      dsimp only
      rw [if_neg (by simp), hblock, ok_bind, hit, ok_bind]
      unfold Block.BlockIterator.seek at hseek
      rw [hseek, ok_bind, hvalid]
      cases hentries with
      | none =>
          refine ⟨t.filterData, ?_⟩
          unfold foundFilter
          rw [hpolicy, List.find?_nil, ← hnone]
          cases named <;> rfl
      | some filter recorded handle hnamed hbehind hfilter =>
          unfold foundFilter
          rw [hnamed, hpolicy]
          dsimp only
          by_cases hle : 0 ≤ bytewiseComparator.compare (filterKey (env.policyName recorded))
            (filterKey (env.policyName policy))
          · rw [List.find?_cons_of_pos (by simpa using hle)] at hshows ⊢
            obtain ⟨hkey, hvalue⟩ := hshows _ rfl
            rw [Option.isSome_some, if_pos rfl, hkey, ok_bind]
            by_cases hname : env.policyName recorded = env.policyName policy
            · obtain ⟨filterData, hfound⟩ :=
                t.readFilter_lodged hdecodes policy hserves hfilter
              refine ⟨filterData, ?_⟩
              dsimp only at hvalue ⊢
              rw [if_pos (by rw [hname]), if_pos hname, hvalue, ok_bind, hfound]
            · refine ⟨t.filterData, ?_⟩
              have hne : filterKey (env.policyName recorded) ≠ filterKey (env.policyName policy) :=
                fun h => hname (List.append_cancel_left h)
              rw [if_neg hne, if_neg hname, ← hnone, pure_eq]
          · refine ⟨t.filterData, ?_⟩
            have hne : env.policyName recorded ≠ env.policyName policy := by
              intro h
              rw [h] at hle
              exact hle (Slice.compare_totalOrder.refl _).ge
            rw [List.find?_cons_of_neg (by simpa using hle), if_neg hne, ← hnone]
            rfl

-- A file that ends in a whole footer opens.
theorem openTable_complete (hdecodes : env.getVarint64.Decodes) {footer : Footer}
    (hfits : footer.Fits) {start : Nat}
    (hentries : FilterEntries env contents start named filter entries)
    (hmetaindex : LodgedBlock Plain contents footer.metaindexHandle entries)
    {indexEntries : List (Bytes × Bytes)}
    (hindex : LodgedBlock Plain contents footer.indexHandle indexEntries)
    (hmetaindexSize : footer.metaindexHandle.size < 2 ^ 32)
    (hindexSize : footer.indexHandle.size < 2 ^ 32) (file : RandomAccessFile)
    (hserves : file.Serves (contents ++ footer.encoded)) (options : Options) :
    ∃ t it, openTable env options file (contents.length + Footer.kEncodedLength) =
        .ok (.ok, some t) ∧
      t.file = file ∧ t.filter = foundFilter env options named filter ∧
      t.indexBlock.newIterator = .ok it ∧ Block.Reads indexEntries it := by
  obtain ⟨data, block, it, hread, hblock, hit, hreads⟩ :=
    (hindex.append footer.encoded).opens hindexSize file hserves
  obtain ⟨inScratch, hread⟩ := hread (readOptions options)
  have htail := hserves contents.length Footer.kEncodedLength (by
    rw [List.length_append, footer.encoded_length])
  rw [List.drop_left, List.take_of_length_le (by rw [footer.encoded_length])] at htail
  have hdecode := Footer.decodeFrom_encoded footer hdecodes ⟨env.blockHandle, env.blockHandle⟩ hfits []
  rw [List.append_nil] at hdecode
  obtain ⟨filterData, hmeta⟩ := (opened env options file footer block).readMeta_found hdecodes
    footer hserves rfl (hentries.append _) (hmetaindex.append _) hmetaindexSize
  refine ⟨{ opened env options file footer block with
    filter := foundFilter env options named filter, filterData }, it, ?_, rfl, rfl, hit, hreads⟩
  unfold openTable
  rw [if_neg (by omega), Nat.add_sub_cancel]
  dsimp only
  rw [if_neg (by simp [htail.1]), htail.2, hdecode, ok_bind]
  dsimp only
  rw [if_neg (by simp), hread, ok_bind]
  dsimp only
  rw [if_pos rfl, hblock, ok_bind]
  exact congrArg (fun o => o >>= fun t => pure (Status.ok, some t)) hmeta

variable {cmp : Comparator} {added : List (Bytes × Bytes)} {blocks : List IndexedBlock}

-- The value of an index entry leads to the entries of its block.
theorem readData_stored (hdecodes : env.getVarint64.Decodes) {t : Table}
    (hserves : t.file.Serves contents) {b : DataBlock} (hstored : Stored Plain contents b)
    (hsize : b.bytes.length < 2 ^ 32) (options : ReadOptions) :
    ∃ data it, t.readData env options (handleBytes b.handle) = .ok (.ok, data) ∧
      Block.openIterator data = .ok it ∧ Block.Reads b.entries it := by
  have hoffset : b.handle.offset < 2 ^ 64 := by
    have hfits := b.fits
    have hhandle : b.handle.offset = b.offset := rfl
    omega
  obtain ⟨data, block, it, hread, hblock, hit, hreads⟩ :=
    hstored.lodged.opens hsize t.file hserves
  obtain ⟨inScratch, hread⟩ := hread options
  have hdecode := decodeFrom_handleBytes hdecodes env.blockHandle b.handle [] hoffset
    (hsize.trans (by decide))
  rw [List.append_nil] at hdecode
  refine ⟨data, it, ?_, ?_, hreads⟩
  · unfold readData
    rw [hdecode]
    dsimp only
    rw [if_neg (by simp), hread, ok_bind]
    rfl
  · rw [Block.openIterator, hblock, ok_bind, hit]

-- A block that opens is searched.
theorem searchData_eq (hc : TotalPreorder cmp.compare) (hdecodes : env.getVarint64.Decodes)
    {t : Table} (hserves : t.file.Serves contents) {b : DataBlock}
    (hstored : Stored Plain contents b) (hsize : b.bytes.length < 2 ^ 32)
    (hsorted : b.entries.Pairwise fun e e' => cmp.compare e.1 e'.1 ≤ 0) (options : ReadOptions)
    (key : Bytes) :
    t.searchData env cmp options key (handleBytes b.handle) =
      .ok (.ok, (b.entries.find? fun e => decide (cmp.compare e.1 key = 0)).map Prod.snd) := by
  obtain ⟨data, it, hread, hopen, hblock⟩ :=
    readData_stored hdecodes hserves hstored hsize options
  obtain ⟨it', hseek, hstatus, hvalid, hshows⟩ := hblock.seek_find hc hsorted key
  rw [searchData, hread, ok_bind]
  dsimp only
  rw [if_neg (by simp), hopen, ok_bind, hseek, ok_bind, hvalid, find_exact hc hsorted key]
  cases hfound : b.entries.find? fun e => decide (0 ≤ cmp.compare e.1 key) with
  | none =>
      rw [Option.isSome_none, if_neg (by decide), hstatus]
      rfl
  | some e =>
      rw [hfound] at hshows
      obtain ⟨hkey, hentry⟩ := hshows e rfl
      rw [Option.isSome_some, if_pos rfl, Block.BlockIterator.entry_eq hkey hentry, ok_bind]
      rw [hstatus, Option.filter_some]
      by_cases hexact : cmp.compare e.1 key = 0
      · rw [if_pos hexact, if_pos (by simpa using hexact)]
        rfl
      · rw [if_neg hexact, if_neg (by simpa using hexact)]
        rfl

-- Blocks that open are walked through one after the other.
theorem collect_stored (hdecodes : env.getVarint64.Decodes) {t : Table}
    (hserves : t.file.Serves contents) (options : ReadOptions)
    {walk : Block.BlockIterator → Exec (List (Bytes × Bytes))}
    (order : List (Bytes × Bytes) → List (Bytes × Bytes))
    (hwalk : ∀ entries it, Block.Reads entries it → walk it = .ok (order entries))
    (before : List IndexedBlock) (hstored : ∀ b ∈ before, Stored Plain contents b.toDataBlock)
    (hsmall : ∀ b ∈ before, b.bytes.length < 2 ^ 32) (rest : List (Bytes × Bytes)) :
    t.collect env options walk (before.map (·.indexEntry) ++ rest) =
      (t.collect env options walk rest).map fun o =>
        (o.1, before.flatMap (fun b => order b.entries) ++ o.2) := by
  induction before with
  | nil =>
      rw [List.map_nil, List.nil_append]
      cases t.collect env options walk rest <;> rfl
  | cons b before ih =>
      have hb : b ∈ b :: before := List.mem_cons_self ..
      obtain ⟨data, it, hread, hopen, hblock⟩ :=
        readData_stored hdecodes hserves (hstored b hb) (hsmall b hb) options
      rw [List.map_cons, List.cons_append, collect]
      change t.readData env options (handleBytes b.handle) >>= _ = _
      rw [hread, ok_bind]
      dsimp only
      rw [if_neg (by simp), hopen, ok_bind, hwalk _ _ hblock, ok_bind,
        ih (fun b hb => hstored b (List.mem_cons_of_mem _ hb))
          fun b hb => hsmall b (List.mem_cons_of_mem _ hb)]
      cases t.collect env options walk rest with
      | error _ => rfl
      | ok o =>
          simp only [Except.map, List.flatMap_cons, List.append_assoc]
          rfl

-- The index of an open table leads to these blocks.
structure Indexed (cmp : Comparator) (added : List (Bytes × Bytes)) (blocks : List IndexedBlock)
    (t : Table) : Prop where
  entries_eq : blocks.flatMap (fun b => b.entries) = added
  sorted : added.Pairwise fun a b => cmp.compare a.1 b.1 < 0
  leads : Leads cmp.compare Prod.fst (fun b : IndexedBlock => b.entries) (·.separator) blocks
  index : ∃ it, t.indexBlock.newIterator = .ok it ∧ Block.Reads (blocks.map (·.indexEntry)) it

-- What it takes to read a table: its index, and its data blocks in the file.
structure Readable (cmp : Comparator) (added : List (Bytes × Bytes)) (blocks : List IndexedBlock)
    (contents : Bytes) (t : Table) : Prop extends Indexed cmp added blocks t where
  serves : t.file.Serves contents
  stored : ∀ b ∈ blocks, Stored Plain contents b.toDataBlock
  small : ∀ b ∈ blocks, b.bytes.length < 2 ^ 32

namespace Indexed

variable {t : Table} (h : Indexed cmp added blocks t)
include h

theorem sorted_block {b : IndexedBlock} (hb : b ∈ blocks) :
    b.entries.Pairwise fun e e' => cmp.compare e.1 e'.1 ≤ 0 := by
  have hsorted := h.sorted
  rw [← h.entries_eq] at hsorted
  exact ((List.pairwise_flatMap.mp hsorted).1 b hb).imp fun hlt => hlt.le

theorem sorted_index (hc : TotalPreorder cmp.compare) :
    (blocks.map (·.indexEntry)).Pairwise fun e e' => cmp.compare e.1 e'.1 ≤ 0 := by
  have hseparators := h.leads.separators_increase hc fun b _ => b.nonempty
  rw [List.pairwise_map] at hseparators ⊢
  exact hseparators.imp fun hlt => hlt.le

-- A search comes to the first block whose separator is not before the key, and to no other.
theorem search_leads (hc : TotalPreorder cmp.compare) (options : ReadOptions) (key : Bytes) :
    t.search env cmp options key =
      (blocks.find? fun b => decide (0 ≤ cmp.compare b.separator key)).elim (.ok (.ok, none))
        fun b => t.searchData env cmp options key (handleBytes b.handle) := by
  obtain ⟨index, hindex, hreads⟩ := h.index
  obtain ⟨index', hseek, hstatus, hvalid, hshows⟩ := hreads.seek_find hc (h.sorted_index hc) key
  rw [search, hindex, ok_bind, hseek, ok_bind, hvalid]
  rw [List.find?_map] at hshows ⊢
  have hreaches : ((fun e : Bytes × Bytes => decide (0 ≤ cmp.compare e.1 key)) ∘
      fun b : IndexedBlock => b.indexEntry) =
        fun b => decide (0 ≤ cmp.compare b.separator key) := rfl
  rw [hreaches] at hshows ⊢
  cases hfind : blocks.find? fun b => decide (0 ≤ cmp.compare b.separator key) with
  | none =>
      rw [Option.map_none, Option.isSome_none, if_neg (by decide), hstatus]
      rfl
  | some b =>
      rw [hfind] at hshows
      obtain ⟨-, hvalue⟩ := hshows _ rfl
      rw [Option.map_some, Option.isSome_some, if_pos rfl, hvalue, ok_bind]
      rfl

end Indexed

namespace Readable

variable {t : Table} (h : Readable cmp added blocks contents t) (hdecodes : env.getVarint64.Decodes)
  (options : ReadOptions)
include h hdecodes

-- A key is found with its value exactly when it was added.
theorem search_eq (hc : TotalPreorder cmp.compare) (key : Bytes) :
    t.search env cmp options key =
      .ok (.ok, (added.find? fun e => decide (cmp.compare e.1 key = 0)).map Prod.snd) := by
  rw [h.search_leads hc, ← h.entries_eq, h.leads.lookup hc key]
  cases hfind : blocks.find? fun b => decide (0 ≤ cmp.compare b.separator key) with
  | none => rfl
  | some b =>
      have hb := List.mem_of_find?_eq_some hfind
      exact searchData_eq hc hdecodes h.serves (h.stored b hb) (h.small b hb) (h.sorted_block hb)
        options key

-- A walk that collects the entries of every block in an order of its own.
theorem collect_eq {walk : Block.BlockIterator → Exec (List (Bytes × Bytes))}
    (order : List (Bytes × Bytes) → List (Bytes × Bytes))
    (hwalk : ∀ entries it, Block.Reads entries it → walk it = .ok (order entries))
    (some : List IndexedBlock) (hsome : ∀ b ∈ some, b ∈ blocks) :
    t.collect env options walk (some.map (·.indexEntry)) =
      .ok (.ok, some.flatMap fun b => order b.entries) := by
  have hcollect := collect_stored hdecodes h.serves options order hwalk some
    (fun b hb => h.stored b (hsome b hb)) (fun b hb => h.small b (hsome b hb)) []
  rw [List.append_nil] at hcollect
  rw [hcollect, collect, pure_eq]
  exact congrArg (fun entries => Except.ok (Status.ok, entries)) (List.append_nil _)

theorem scan_forward : t.scan env options (·.forward) = .ok (.ok, added) := by
  obtain ⟨index, hindex, hreads⟩ := h.index
  rw [scan, hindex, ok_bind, hreads.forward_eq, ok_bind,
    h.collect_eq hdecodes options id (fun _ _ hreads => hreads.forward_eq) blocks
      fun _ hb => hb]
  exact congrArg (fun entries => Except.ok (Status.ok, entries)) h.entries_eq

theorem scan_backward : t.scan env options (·.backward) = .ok (.ok, added.reverse) := by
  obtain ⟨index, hindex, hreads⟩ := h.index
  rw [scan, hindex, ok_bind, hreads.backward_eq, ok_bind, ← List.map_reverse,
    h.collect_eq hdecodes options List.reverse (fun _ _ hreads => hreads.backward_eq)
      blocks.reverse fun _ hb => List.mem_reverse.mp hb]
  rw [← h.entries_eq, List.reverse_flatMap]
  rfl

end Readable

end Table

namespace TableBuilder

variable {env : Environment} {cmp : Comparator} {added : List (Bytes × Bytes)}
  {named : Option Nat} {filter : Option FilterBlockBuilder} {contents : Bytes}
  {blocks : List IndexedBlock} {footer : Footer}

theorem LodgedBlock.handle_lt {allowed : CompressionType → Prop} {handle : BlockHandle}
    {entries : List (Bytes × Bytes)} (h : LodgedBlock allowed contents handle entries) :
    handle.offset < 2 ^ 64 - 1 ∧ handle.size < 2 ^ 64 - 1 := by
  obtain ⟨b, type, -, -, hlodged⟩ := h
  have hfits := hlodged.fits
  omega

theorem LodgedBlock.size_le {allowed : CompressionType → Prop} {handle : BlockHandle}
    {entries : List (Bytes × Bytes)} (h : LodgedBlock allowed contents handle entries) :
    handle.size ≤ contents.length := by
  obtain ⟨b, type, -, -, hlodged⟩ := h
  have hstop := hlodged.stands.le_length hlodged.start_le
  rw [List.length_append, ← hlodged.size_eq] at hstop
  omega

-- The blocks of a file are no longer than the file.
theorem Complete.small {allowed : CompressionType → Prop}
    (h : Complete allowed env cmp added named filter contents blocks footer) (hsize : contents.length < 2 ^ 32) :
    Small blocks footer := by
  obtain ⟨entries, -, hmetaindex⟩ := h.filter_entries
  refine ⟨fun b hb => ?_, hmetaindex.size_le.trans_lt hsize, h.index.size_le.trans_lt hsize⟩
  exact (h.stored b hb).lodged.size_le.trans_lt hsize

theorem Complete.footer_fits {allowed : CompressionType → Prop}
    (h : Complete allowed env cmp added named filter contents blocks footer) : footer.Fits := by
  obtain ⟨entries, -, hmetaindex⟩ := h.filter_entries
  exact ⟨hmetaindex.handle_lt.1, hmetaindex.handle_lt.2, h.index.handle_lt.1, h.index.handle_lt.2⟩

-- A complete file with a footer opens as a table that can be read.
theorem Complete.reopens
    (h : Complete Plain env cmp added named filter contents blocks footer) (hdecodes : env.getVarint64.Decodes)
    (hsmall : Small blocks footer) (file : RandomAccessFile)
    (hserves : file.Serves (contents ++ footer.encoded)) (options : Options) :
    ∃ t, Table.openTable env options file (contents.length + Footer.kEncodedLength) =
        .ok (.ok, some t) ∧
      t.filter = Table.foundFilter env options named filter ∧
      Table.Readable cmp added blocks (contents ++ footer.encoded) t := by
  obtain ⟨entries, hentries, hmetaindex⟩ := h.filter_entries
  obtain ⟨t, it, hopen, hfile, hfilter, hit, hreads⟩ := Table.openTable_complete hdecodes
    h.footer_fits hentries hmetaindex h.index hsmall.metaindex hsmall.index file hserves options
  refine ⟨t, hopen, hfilter, ⟨h.entries_eq, h.sorted, h.leads, it, hit, hreads⟩, ?_, ?_,
    hsmall.data⟩
  · rwa [hfile]
  · exact fun b hb => (h.stored b hb).append _

-- The file is complete. `Finish` writes no footer. With one for its two handles, which is
-- all that the file lacks, every reader of it opens a table with the property.
def Reopens (env : Environment) (options : Options) (calls : List Call) (contents : Bytes)
    (size : Nat) (P : List IndexedBlock → Options → Table → Prop) : Prop :=
  ∃ (blocks : List IndexedBlock) (footer : Footer),
    Complete Plain env (env.comparator options.comparator) (entriesOf calls)
      (optionsInForce options calls).filterPolicy (heardFilter options blocks) contents blocks
      footer ∧
    (Small blocks footer →
      ∃ bytes, footer.encodeTo [] = .ok bytes ∧
        ∀ reader : RandomAccessFile, reader.Serves (contents ++ bytes) →
          ∀ openOptions, ∃ t,
            Table.openTable env openOptions reader (size + Footer.kEncodedLength) =
              .ok (.ok, some t) ∧
            P blocks openOptions t)

-- Below the limit of the offsets in a block there is nothing else to ask of a file.
theorem Reopens.opens {options : Options} {calls : List Call} {size : Nat}
    {P : List IndexedBlock → Options → Table → Prop}
    (h : Reopens env options calls contents size P) (hsize : contents.length < 2 ^ 32)
    (openOptions : Options) : ∃ bytes blocks t,
      Table.openTable env openOptions (.ofContents (contents ++ bytes))
        (size + Footer.kEncodedLength) = .ok (.ok, some t) ∧ P blocks openOptions t := by
  obtain ⟨blocks, footer, hcomplete, hopens⟩ := h
  obtain ⟨bytes, -, hopens⟩ := hopens (hcomplete.small hsize)
  obtain ⟨t, hopen, ht⟩ := hopens _ (RandomAccessFile.ofContents_serves _) openOptions
  exact ⟨bytes, blocks, t, hopen, ht⟩

section Runs

variable (env : Environment) (file : WritableFile) {options : Options} {r : TableBuilder}
  (hnew : TableBuilder.new env options = .ok r)
  (hc : TotalPreorder (env.comparator options.comparator).compare)
  (hsep : (env.comparator options.comparator).Separates)
  (hone : ∀ key, (env.comparator options.comparator).compare key
    (env.findShortestSeparator options.comparator key) ≤ 0)
  (hdecodes : env.getVarint64.Decodes) (calls : List Call)
  (hlegal : Legal (env.comparator options.comparator) none (calls ++ [.finish]))
  (hplain : ∀ before, before <+: calls → Plain (optionsInForce options before).compression)
  (hpolicy : options.filterPolicy.isSome = true →
    (optionsInForce options calls).filterPolicy.isSome = true)
include hnew hc hsep hone hdecodes hlegal hplain hpolicy

theorem finished_reopens (P : List IndexedBlock → Options → Table → Prop)
    (hP : ∀ contents blocks openOptions t,
      t.filter = Table.foundFilter env openOptions (optionsInForce options calls).filterPolicy
        (heardFilter options blocks) →
      Table.Readable (env.comparator options.comparator) (entriesOf calls) blocks contents t →
      P blocks openOptions t) :
    ∃ r₁ r', r.run env file calls = .ok r₁ ∧ r₁.finish env file = .ok (r', none) ∧
      (r'.log.AllOk → Reopens env options calls r'.log.contents r'.fileSize P) := by
  obtain ⟨r₁, r', hrun, hfinish, hcomplete⟩ :=
    finished_complete env file hnew hc hsep hone calls hlegal hplain hpolicy
  refine ⟨r₁, r', hrun, hfinish, fun hall => ?_⟩
  obtain ⟨hsize, blocks, footer, hcomplete, -⟩ := hcomplete hall
  refine ⟨blocks, footer, hcomplete, fun hsmall =>
    ⟨_, footer.encodeTo_encoded hcomplete.footer_fits, ?_⟩⟩
  intro reader hserves openOptions
  obtain ⟨t, hopen, hfilter, hreadable⟩ :=
    hcomplete.reopens hdecodes hsmall reader hserves openOptions
  rw [hsize]
  exact ⟨t, hopen, hP _ _ _ _ hfilter hreadable⟩

-- What `Finish` leaves opens once it has a footer, and hands on the filter of its blocks to a
-- reader that asks for it by name.
theorem reopened_filter :
    ∃ r₁ r', r.run env file calls = .ok r₁ ∧ r₁.finish env file = .ok (r', none) ∧
      (r'.log.AllOk → Reopens env options calls r'.log.contents r'.fileSize
        fun blocks openOptions t =>
          t.filter = Table.foundFilter env openOptions (optionsInForce options calls).filterPolicy
            (heardFilter options blocks)) :=
  finished_reopens env file hnew hc hsep hone hdecodes calls hlegal hplain hpolicy _
    fun _ _ _ _ hfilter _ => hfilter

-- A search gives back the value of every key that was added, and of no other key.
theorem reopened_search :
    ∃ r₁ r', r.run env file calls = .ok r₁ ∧ r₁.finish env file = .ok (r', none) ∧
      (r'.log.AllOk → Reopens env options calls r'.log.contents r'.fileSize fun _ _ t =>
        ∀ readOptions key, t.search env (env.comparator options.comparator) readOptions key =
          .ok (.ok, ((entriesOf calls).find? fun e =>
            decide ((env.comparator options.comparator).compare e.1 key = 0)).map Prod.snd)) :=
  finished_reopens env file hnew hc hsep hone hdecodes calls hlegal hplain hpolicy _
    fun _ _ _ _ _ hreadable readOptions key => hreadable.search_eq hdecodes readOptions hc key

-- The entries come back in the order they were added in, and from the back in reverse.
theorem reopened_scan :
    ∃ r₁ r', r.run env file calls = .ok r₁ ∧ r₁.finish env file = .ok (r', none) ∧
      (r'.log.AllOk → Reopens env options calls r'.log.contents r'.fileSize fun _ _ t =>
        ∀ readOptions,
          t.scan env readOptions (·.forward) = .ok (.ok, entriesOf calls) ∧
          t.scan env readOptions (·.backward) = .ok (.ok, (entriesOf calls).reverse)) :=
  finished_reopens env file hnew hc hsep hone hdecodes calls hlegal hplain hpolicy _
    fun _ _ _ _ _ hreadable readOptions => ⟨hreadable.scan_forward hdecodes readOptions,
      hreadable.scan_backward hdecodes readOptions⟩

end Runs

-- Options that never compress leave every block as it is.
theorem plain_inForce {calls before : List Call} {options : Options}
    (hoptions : Plain options.compression)
    (hcalls : ∀ accepted, .changeOptions accepted ∈ calls → Plain accepted.compression)
    (hbefore : before <+: calls) : Plain (optionsInForce options before).compression := by
  have hmem : ∀ accepted, .changeOptions accepted ∈ before → Plain accepted.compression :=
    fun accepted hmem => hcalls accepted (hbefore.mem hmem)
  clear hbefore
  induction before generalizing options with
  | nil => exact hoptions
  | cons c before ih =>
      have hlater := fun accepted h => hmem accepted (List.mem_cons_of_mem c h)
      rw [optionsInForce, List.foldl_cons]
      refine ih ?_ hlater
      cases c with
      | changeOptions accepted =>
          rw [acceptOptions]
          by_cases hother : accepted.comparator ≠ options.comparator
          · rw [if_pos hother]
            exact hoptions
          · rw [if_neg hother]
            exact hmem accepted (List.mem_cons_self ..)
      | add key value => exact hoptions
      | flush => exact hoptions
      | finish => exact hoptions
      | abandon => exact hoptions

-- Two data blocks, the second with two entries, under a filter that keeps the calls.
def reopenedCalls : List Call :=
  [.add [1] [7], .flush, .add [2] [8], .changeOptions { filterOptions with blockSize := 100 },
    .add [2, 0] []]

section Sample

theorem reopenedCalls_legal : Legal bytewiseComparator none (reopenedCalls ++ [.finish]) := by
  simp only [reopenedCalls, List.cons_append, List.nil_append, Legal]
  decide

theorem reopenedCalls_plain (before : List Call) (hbefore : before <+: reopenedCalls) :
    Plain (optionsInForce filterOptions before).compression :=
  plain_inForce rfl (by simp [reopenedCalls, Plain, filterOptions, sampleOptions]) hbefore

theorem reopenedCalls_stored {r r₁ r' : TableBuilder}
    (hnew : TableBuilder.new filterEnvironment filterOptions = .ok r)
    (hrun : r.run filterEnvironment reliable reopenedCalls = .ok r₁)
    (hfinish : r₁.finish filterEnvironment reliable = .ok (r', none)) :
    r'.log.AllOk ∧ r'.log.contents.length < 2 ^ 32 := by
  have hchecked : (TableBuilder.new filterEnvironment filterOptions >>= fun r =>
      r.run filterEnvironment reliable reopenedCalls >>= fun r₁ =>
        (r₁.finish filterEnvironment reliable).map fun f =>
          decide (f.1.log.AllOk ∧ f.1.log.contents.length < 2 ^ 32)) = .ok true := by
    decide +kernel
  rw [hnew, ok_bind, hrun, ok_bind, hfinish] at hchecked
  exact of_decide_eq_true (Except.ok.inj hchecked)

theorem reopened_filter_sample : ∃ r r₁ r' bytes blocks t,
    TableBuilder.new filterEnvironment filterOptions = .ok r ∧
      r.run filterEnvironment reliable reopenedCalls = .ok r₁ ∧
        r₁.finish filterEnvironment reliable = .ok (r', none) ∧
          Table.openTable filterEnvironment filterOptions (.ofContents (r'.log.contents ++ bytes))
            (r'.fileSize + Footer.kEncodedLength) = .ok (.ok, some t) ∧
          t.filter = Table.foundFilter filterEnvironment filterOptions (some 7)
            (heardFilter filterOptions blocks) := by
  obtain ⟨r, hnew⟩ : ∃ r, TableBuilder.new filterEnvironment filterOptions = .ok r := ⟨_, rfl⟩
  obtain ⟨r₁, r', hrun, hfinish, hreopens⟩ := reopened_filter filterEnvironment reliable hnew
    Slice.compare_totalOrder.toTotalPreorder bytewiseComparator_separates
    (fun key => (Slice.compare_totalOrder.refl key).le) decode_decodes reopenedCalls
    reopenedCalls_legal reopenedCalls_plain (fun _ => rfl)
  obtain ⟨hall, hsize⟩ := reopenedCalls_stored hnew hrun hfinish
  obtain ⟨bytes, blocks, t, hopen, ht⟩ := (hreopens hall).opens hsize filterOptions
  exact ⟨r, r₁, r', bytes, blocks, t, hnew, hrun, hfinish, hopen, ht⟩

theorem reopened_search_sample : ∃ r r₁ r' bytes t,
    TableBuilder.new filterEnvironment filterOptions = .ok r ∧
      r.run filterEnvironment reliable reopenedCalls = .ok r₁ ∧
        r₁.finish filterEnvironment reliable = .ok (r', none) ∧
          Table.openTable filterEnvironment sampleOptions (.ofContents (r'.log.contents ++ bytes))
            (r'.fileSize + Footer.kEncodedLength) = .ok (.ok, some t) ∧
          t.search filterEnvironment bytewiseComparator ⟨true⟩ [2] = .ok (.ok, some [8]) ∧
          t.search filterEnvironment bytewiseComparator ⟨true⟩ [1, 5] = .ok (.ok, none) := by
  obtain ⟨r, hnew⟩ : ∃ r, TableBuilder.new filterEnvironment filterOptions = .ok r := ⟨_, rfl⟩
  obtain ⟨r₁, r', hrun, hfinish, hreopens⟩ := reopened_search filterEnvironment reliable hnew
    Slice.compare_totalOrder.toTotalPreorder bytewiseComparator_separates
    (fun key => (Slice.compare_totalOrder.refl key).le) decode_decodes reopenedCalls
    reopenedCalls_legal reopenedCalls_plain (fun _ => rfl)
  obtain ⟨hall, hsize⟩ := reopenedCalls_stored hnew hrun hfinish
  obtain ⟨bytes, -, t, hopen, ht⟩ := (hreopens hall).opens hsize sampleOptions
  exact ⟨r, r₁, r', bytes, t, hnew, hrun, hfinish, hopen, ht ⟨true⟩ [2], ht ⟨true⟩ [1, 5]⟩

theorem reopened_scan_sample : ∃ r r₁ r' bytes t,
    TableBuilder.new filterEnvironment filterOptions = .ok r ∧
      r.run filterEnvironment reliable reopenedCalls = .ok r₁ ∧
        r₁.finish filterEnvironment reliable = .ok (r', none) ∧
          Table.openTable filterEnvironment sampleOptions (.ofContents (r'.log.contents ++ bytes))
            (r'.fileSize + Footer.kEncodedLength) = .ok (.ok, some t) ∧
          t.scan filterEnvironment ⟨true⟩ (·.backward) =
            .ok (.ok, [([2, 0], []), ([2], [8]), ([1], [7])]) := by
  obtain ⟨r, hnew⟩ : ∃ r, TableBuilder.new filterEnvironment filterOptions = .ok r := ⟨_, rfl⟩
  obtain ⟨r₁, r', hrun, hfinish, hreopens⟩ := reopened_scan filterEnvironment reliable hnew
    Slice.compare_totalOrder.toTotalPreorder bytewiseComparator_separates
    (fun key => (Slice.compare_totalOrder.refl key).le) decode_decodes reopenedCalls
    reopenedCalls_legal reopenedCalls_plain (fun _ => rfl)
  obtain ⟨hall, hsize⟩ := reopenedCalls_stored hnew hrun hfinish
  obtain ⟨bytes, -, t, hopen, ht⟩ := (hreopens hall).opens hsize sampleOptions
  exact ⟨r, r₁, r', bytes, t, hnew, hrun, hfinish, hopen, (ht ⟨true⟩).2⟩

end Sample

end TableBuilder

end Mylldb

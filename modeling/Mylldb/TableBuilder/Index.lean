import Mylldb.Block.RoundTrip
import Mylldb.TableBuilder.Draft

namespace Mylldb.TableBuilder

open BlockBuilder Lib.Run Lib.ThreeWay

-- The blocks lie one behind the other, each with its trailer.
def Consecutive : Nat → List DataBlock → Nat → Prop
  | start, [], stop => stop = start
  | start, b :: blocks, stop =>
      b.offset = start ∧ Consecutive (start + b.bytes.length + 5) blocks stop

theorem Consecutive.concat {start stop : Nat} {blocks : List DataBlock}
    (h : Consecutive start blocks stop) (b : DataBlock) (hb : b.offset = stop) :
    Consecutive start (blocks ++ [b]) (stop + b.bytes.length + 5) := by
  induction blocks generalizing start with
  | nil =>
      obtain rfl : stop = start := h
      exact ⟨hb, rfl⟩
  | cons first blocks ih => exact ⟨h.1, ih h.2⟩

-- The start of the file up to `stop` is the blocks with their trailers.
structure Lies (contents : Bytes) (blocks : List DataBlock) (stop : Nat) : Prop where
  consecutive : Consecutive 0 blocks stop
  stands : ∀ b ∈ blocks, StandsAt contents b.offset b.bytes

theorem standsAt_append {data more bs : Bytes} {p : Nat} (h : StandsAt data p bs) :
    StandsAt (data ++ more) p bs := by
  unfold StandsAt at *
  rw [List.drop_append]
  exact h.trans (List.prefix_append _ _)

theorem Lies.append {contents : Bytes} {blocks : List DataBlock} {stop : Nat}
    (h : Lies contents blocks stop) (more : Bytes) : Lies (contents ++ more) blocks stop :=
  ⟨h.consecutive, fun b hb => standsAt_append (h.stands b hb)⟩

theorem Lies.concat {contents : Bytes} {blocks : List DataBlock}
    (h : Lies contents blocks contents.length) (b : DataBlock) (hb : b.offset = contents.length)
    (rest : Bytes) (hrest : rest.length = 5) :
    Lies (contents ++ (b.bytes ++ rest)) (blocks ++ [b])
      (contents ++ (b.bytes ++ rest)).length where
  consecutive := by
    have hnext := h.consecutive.concat b hb
    rwa [List.length_append, List.length_append, hrest, ← Nat.add_assoc]
  stands := by
    intro b' hb'
    rcases List.mem_append.mp hb' with hb' | hb'
    · exact standsAt_append (h.stands b' hb')
    · rw [List.mem_singleton.mp hb', hb, ← List.append_assoc]
      exact .intro _ _

-- The builder carries the draft out: its blocks are in the file up to `stop`, its
-- index entries in the index block and its current entries in the data block.
structure Represents (r : TableBuilder) (d : Draft) (stop : Nat) : Prop where
  data_building : Building d.current r.dataBlock
  index_building : Building (d.indexed.map (·.indexEntry)) r.indexBlock
  index_interval : r.indexBlockOptions.blockRestartInterval = 1
  pending_eq : r.pendingIndexEntry = d.pending.isSome
  handle_eq : ∀ b ∈ d.pending, r.pendingHandle = b.handle
  lies : Lies r.log.contents d.blocks stop

section Steps

variable {env : Environment} {r r' : TableBuilder} {d : Draft} {separator data : Bytes}
  {type : CompressionType} {stop : Nat}

theorem Represents.current_eq (h : Represents r d stop) (hexact : Exact r)
    (hpending : d.pending.isSome = true) : d.current = [] :=
  h.data_building.empty_iff.mp (hexact.pending_empty (h.pending_eq.trans hpending))

theorem Represents.entersIndex (h : Represents r d stop) (henters : EntersIndex r separator r') :
    Represents r' (d.settle separator) stop := by
  have hblocks := Draft.blocks_settle (d := d) separator
  cases henters with
  | none hnone =>
      have hd : d.pending = none := by
        rw [h.pending_eq] at hnone
        exact Option.not_isSome_iff_eq_none.mp (by rw [hnone]; exact Bool.false_ne_true)
      have hsame : d.settle separator = d := by rw [Draft.settle, hd]
      rw [hsame]
      exact h
  | entry hsome indexBlock hadd =>
      obtain ⟨b, hb⟩ := Option.isSome_iff_exists.mp (h.pending_eq.symm.trans hsome)
      have hsettle : d.settle separator = ⟨d.indexed ++ [⟨b, separator⟩], none, d.current⟩ := by
        rw [Draft.settle, hb]
      rw [h.handle_eq b hb] at hadd
      have hbuilding := h.index_building.add (by rw [h.index_interval]) hadd
      have hlies := h.lies
      rw [← hblocks] at hlies
      rw [hsettle] at hlies ⊢
      refine ⟨h.data_building, ?_, h.index_interval, rfl, by simp, hlies⟩
      rw [List.map_append, List.map_singleton]
      exact hbuilding

theorem Represents.withEntry (h : Represents r d stop) {key value : Bytes} {dataBlock : BlockBuilder}
    (hinterval : 1 ≤ r.options.blockRestartInterval)
    (hadd : r.dataBlock.add r.options.blockRestartInterval key value = .ok dataBlock) :
    Represents (r.withEntry key dataBlock) (d.push (key, value)) stop :=
  ⟨h.data_building.add hinterval hadd, h.index_building, h.index_interval, h.pending_eq,
    h.handle_eq, h.lies⟩

theorem Writes.contents (h : Writes r data type r') :
    ∃ more, r'.log.contents = r.log.contents ++ more := by
  obtain ⟨more, hmore⟩ := h.continues.log_le
  exact ⟨FileLog.contents more, by rw [← hmore, FileLog.contents_append]⟩

-- Whatever is written behind the blocks leaves them in place.
theorem Represents.writes (h : Represents r d stop) (hwrites : Writes r data type r') :
    Represents r' d stop := by
  obtain ⟨more, hmore⟩ := hwrites.contents
  have hlies := h.lies.append more
  rw [← hmore] at hlies
  refine ⟨?_, ?_, ?_, ?_, ?_, hlies⟩
  · rw [hwrites.eq]
    exact h.data_building
  · rw [hwrites.eq]
    exact h.index_building
  · rw [hwrites.eq]
    exact h.index_interval
  · rw [hwrites.eq]
    exact h.pending_eq
  · rw [hwrites.eq]
    exact h.handle_eq

theorem Writes.not_allOk (h : Writes r data type r') (hbad : r'.status ≠ .ok) :
    ¬ r'.log.AllOk := by
  cases h with
  | body s hs => simp [hs]
  | trailer s hs => simp [hs]
  | done hsize => exact absurd rfl hbad

-- A write that nothing cuts short ends the file.
theorem Writes.contents_eq (h : Writes r data type r') (hall : r'.log.AllOk) :
    r'.log.contents = r.log.contents ++ (data ++ Mylldb.trailer data type) := by
  have hok : r'.status = .ok := by
    by_contra hbad
    exact h.not_allOk hbad hall
  exact (h.stored hok).2.2

-- What `Finish` writes behind the data blocks.
def finished (indexBytes : Bytes) (type : CompressionType) : Bytes :=
  BlockBuilder.initial.finish.2 ++ Mylldb.trailer BlockBuilder.initial.finish.2 type ++
    (indexBytes ++ Mylldb.trailer indexBytes type)

theorem contents_finished {r₁ r₂ r₃ r₄ : TableBuilder}
    (hmeta : Writes { r₁ with closed := true } BlockBuilder.initial.finish.2
      r₁.options.compression r₂)
    (hindex : EntersIndex r₂ separator r₃)
    (hwrite : Writes r₃ r₃.indexBlock.finish.2 r₃.options.compression r₄)
    (hall : r₄.log.AllOk) :
    r₄.log.contents =
      r₁.log.contents ++ finished r₃.indexBlock.finish.2 r₁.options.compression := by
  have hlog : r₃.log = r₂.log := hindex.same.2.1
  have hall₂ : r₂.log.AllOk := by
    rw [← hlog]
    exact hall.of_prefix hwrite.continues.log_le
  have hoptions : r₃.options = r₁.options :=
    hindex.continues.options_eq.trans hmeta.continues.options_eq
  rw [hwrite.contents_eq hall, hlog, hmeta.contents_eq hall₂, hoptions, finished,
    List.append_assoc]

theorem Represents.close (h : Represents r d stop) : Represents { r with closed := true } d stop :=
  ⟨h.data_building, h.index_building, h.index_interval, h.pending_eq, h.handle_eq, h.lies⟩

-- A flush that is not cut short leaves the draft alone or cuts a block, which it
-- stores at the end of the file.
theorem Represents.cuts (h : Represents r d r.log.contents.length) (hexact : Exact r)
    (hflushes : Flushes r r') (hall : r'.log.AllOk) :
    (r' = r ∧ (r.status = .ok → d.current = [])) ∨
      ∃ b : DataBlock, d.pending = none ∧ b.entries = d.current ∧
        b.bytes = r.dataBlock.finish.2 ∧ b.offset = r.log.contents.length ∧
        r'.log.contents =
          r.log.contents ++ (b.bytes ++ trailer b.bytes r.options.compression) ∧
        r'.filterBlock = r.filterBlock.map (·.startBlock (b.offset + b.bytes.length + 5)) ∧
        Represents r' (d.cut b) r'.log.contents.length := by
  cases hflushes with
  | idle hidle =>
      refine .inl ⟨rfl, fun hok => ?_⟩
      exact h.data_building.empty_iff.mp (hidle.resolve_left (not_not.mpr hok))
  | failed r₁ hok hempty hwrites h₁ => exact absurd hall (hwrites.not_allOk h₁)
  | flushed r₁ hok hempty hwrites h₁ s =>
      obtain ⟨hsize, hstop, hstored⟩ := hwrites.stored h₁
      have hwritten := h.writes hwrites
      have hoffset := hexact.offset_eq hok
      have hne : d.current ≠ [] := by
        intro hnil
        rw [h.data_building.empty_iff.mpr hnil] at hempty
        cases hempty
      have hnone : d.pending = none := by
        by_contra hsome
        exact hne (h.current_eq hexact (Option.isSome_iff_ne_none.mpr hsome))
      let b : DataBlock := ⟨d.current, r.dataBlock.finish.2, r.offset, hne,
        ⟨r.dataBlock, h.data_building, rfl⟩, by omega⟩
      have hcontents : FileLog.contents (r₁.log ++ [(.flush, s)]) = r.log.contents ++
          (b.bytes ++ trailer r.dataBlock.finish.2 r.options.compression) := by
        rw [FileLog.contents_append, hstored]
        simp [FileLog.contents, FileLog.written, b]
      have hblocks : d.blocks = d.indexed.map (·.toDataBlock) := by
        simp [Draft.blocks, hnone]
      have hlies := h.lies.concat b hoffset
        (trailer r.dataBlock.finish.2 r.options.compression) (trailer_length _ _)
      rw [← hcontents, hblocks] at hlies
      have hfilter : r₁.filterBlock = r.filterBlock := by rw [hwrites.eq]
      refine .inr ⟨b, hnone, rfl, rfl, hoffset, hcontents, ?_, initial_building,
        hwritten.index_building, hwritten.index_interval, rfl, ?_, hlies⟩
      · rw [Nat.mod_eq_of_lt (by omega), ← Nat.add_assoc] at hstop
        dsimp only [startFilterBlock]
        rw [hfilter, hstop]
      · intro b' hb'
        obtain rfl := Option.some.inj hb'
        rfl

theorem Represents.flushes (h : Represents r d r.log.contents.length) (hexact : Exact r)
    (hflushes : Flushes r r') (hall : r'.log.AllOk) :
    ∃ d', Represents r' d' r'.log.contents.length ∧
      (r' = r ∧ d' = d ∧ (r.status = .ok → d.current = []) ∨
        ∃ b, d.pending = none ∧ b.entries = d.current ∧ d' = d.cut b) := by
  rcases h.cuts hexact hflushes hall with ⟨rfl, hidle⟩ | ⟨b, hnone, hb, -, -, -, -, hcut⟩
  · exact ⟨d, h, .inl ⟨rfl, rfl, hidle⟩⟩
  · exact ⟨d.cut b, hcut, .inr ⟨b, hnone, hb, rfl⟩⟩

end Steps

section Order

variable {cmp : Comparator} {d : Draft}

theorem Draft.Valid.le_last (h : d.Valid cmp) (hc : TotalPreorder cmp.compare)
    (last : Bytes × Bytes) (hlast : d.added.getLast? = some last) :
    ∀ a ∈ d.added, cmp.compare a.1 last.1 ≤ 0 := by
  obtain ⟨before, hbefore⟩ := List.getLast?_eq_some_iff.mp hlast
  have hsorted := h.sorted
  rw [hbefore] at hsorted ⊢
  intro a ha
  rcases List.mem_append.mp ha with ha | ha
  · have hlt := (List.pairwise_append.mp hsorted).2.2 a ha last (by simp)
    omega
  · rw [List.mem_singleton.mp ha, hc.refl]

-- The builder between two calls, with the draft that it carries out.
structure Carries (cmp : Comparator) (added : List (Bytes × Bytes)) (r : TableBuilder) (d : Draft) :
    Prop where
  represents : Represents r d r.log.contents.length
  valid : d.Valid cmp
  added_eq : d.added = added
  lastKey_eq : ∀ e ∈ added.getLast?, r.lastKey = e.1

variable {env : Environment} {r r' : TableBuilder} {added : List (Bytes × Bytes)}

theorem Carries.le_lastKey (h : Carries cmp added r d) (hc : TotalPreorder cmp.compare) :
    ∀ a ∈ d.added, cmp.compare a.1 r.lastKey ≤ 0 := by
  intro a ha
  obtain ⟨last, hlast⟩ := Option.ne_none_iff_exists'.mp
    (mt List.getLast?_eq_none_iff.mp (List.ne_nil_of_mem ha))
  rw [h.lastKey_eq last (by rw [← h.added_eq, hlast]; rfl)]
  exact h.valid.le_last hc last hlast a ha

theorem Draft.mem_added_of_pending {b : DataBlock} (hb : d.pending = some b) {a : Bytes × Bytes}
    (ha : a ∈ b.entries) : a ∈ d.added := by
  apply List.mem_append_right
  apply List.mem_append_left
  simpa [hb] using ha

-- After a flush nothing waits outside a block.
theorem Carries.flushed (h : Carries cmp added r d) (hexact : Exact r) (hflushes : Flushes r r')
    (hok : r'.status = .ok) : ∃ d', Carries cmp added r' d' ∧ d'.current = [] := by
  have hall := (hexact.flushes hflushes).log_ok.mp hok
  obtain ⟨d', hrepresents, hcases⟩ := h.represents.flushes hexact hflushes hall
  have hlast := hflushes.same.1
  have hlastKey : ∀ e ∈ added.getLast?, r'.lastKey = e.1 := by
    rw [hlast]
    exact h.lastKey_eq
  rcases hcases with ⟨rfl, rfl, hidle⟩ | ⟨b, hnone, hb, rfl⟩
  · exact ⟨d', ⟨hrepresents, h.valid, h.added_eq, hlastKey⟩, hidle hok⟩
  · exact ⟨d.cut b, ⟨hrepresents, h.valid.cut b hnone hb,
      (Draft.added_cut b hnone hb).trans h.added_eq, hlastKey⟩, rfl⟩

theorem Carries.flushes (h : Carries cmp added r d) (hexact : Exact r) (hflushes : Flushes r r')
    (hall : r'.log.AllOk) : ∃ d', Carries cmp added r' d' := by
  obtain ⟨d', hrepresents, hcases⟩ := h.represents.flushes hexact hflushes hall
  have hlast := hflushes.same.1
  refine ⟨d', hrepresents, ?_, ?_, by rw [hlast]; exact h.lastKey_eq⟩
  · rcases hcases with ⟨-, rfl, -⟩ | ⟨b, hnone, hb, rfl⟩
    · exact h.valid
    · exact h.valid.cut b hnone hb
  · rcases hcases with ⟨-, rfl, -⟩ | ⟨b, hnone, hb, rfl⟩
    · exact h.added_eq
    · rw [Draft.added_cut b hnone hb, h.added_eq]

theorem Carries.lastKey_lt (h : Carries cmp added r d) (hc : TotalPreorder cmp.compare) {key : Bytes}
    (hkey : ∀ e ∈ added.getLast?, 0 < cmp.compare key e.1) (hne : added ≠ []) :
    cmp.compare r.lastKey key < 0 := by
  obtain ⟨last, hlast⟩ := Option.ne_none_iff_exists'.mp (mt List.getLast?_eq_none_iff.mp hne)
  rw [h.lastKey_eq last hlast, hc.swap]
  exact hkey last hlast

-- The separator is chosen between the last key and the new one.
theorem Carries.valid_push (h : Carries cmp added r d) (hexact : Exact r)
    (hc : TotalPreorder cmp.compare) (hsep : cmp.Separates) {key : Bytes} (value : Bytes)
    (hkey : ∀ e ∈ added.getLast?, 0 < cmp.compare key e.1) :
    ((d.settle (cmp.findShortestSeparator r.lastKey key)).push (key, value)).Valid cmp := by
  have hbetween := h.lastKey_lt hc hkey
  have hpending : ∀ b ∈ d.pending, added ≠ [] := by
    intro b hb
    obtain ⟨a, ha⟩ := List.exists_mem_of_ne_nil _ b.nonempty
    exact h.added_eq ▸ List.ne_nil_of_mem (Draft.mem_added_of_pending hb ha)
  apply h.valid.push hc _ (key, value) (h.represents.current_eq hexact)
  · intro a ha
    have hne : added ≠ [] := h.added_eq ▸ List.ne_nil_of_mem ha
    exact hc.lt_of_le_of_lt _ _ _ (h.le_lastKey hc a ha) (hbetween hne)
  · intro b hb a ha
    have hle := h.le_lastKey hc a (Draft.mem_added_of_pending hb ha)
    exact hc.trans _ _ _ hle (hsep _ _ (hbetween (hpending b hb))).1
  · intro hsome
    obtain ⟨b, hb⟩ := Option.isSome_iff_exists.mp hsome
    exact (hsep _ _ (hbetween (hpending b hb))).2

-- An entry joins the current ones, and the block before gets its index entry.
theorem Carries.enters (h : Carries cmp added r d) (hexact : Exact r)
    (hc : TotalPreorder cmp.compare) (hsep : cmp.Separates)
    (hinterval : 1 ≤ r.options.blockRestartInterval) {key value : Bytes}
    (hkey : ∀ e ∈ added.getLast?, 0 < cmp.compare key e.1) {r₁ : TableBuilder}
    {dataBlock : BlockBuilder}
    (hindex : EntersIndex r (cmp.findShortestSeparator r.lastKey key) r₁)
    (hadd : r₁.dataBlock.add r₁.options.blockRestartInterval key value = .ok dataBlock) :
    Carries cmp (added ++ [(key, value)]) (r₁.withEntry key dataBlock)
      ((d.settle (cmp.findShortestSeparator r.lastKey key)).push (key, value)) := by
  have hlog : (r₁.withEntry key dataBlock).log = r.log := hindex.same.2.1
  have hrepresents : Represents (r₁.withEntry key dataBlock)
      ((d.settle (cmp.findShortestSeparator r.lastKey key)).push (key, value))
      (r₁.withEntry key dataBlock).log.contents.length := by
    rw [hlog]
    refine (h.represents.entersIndex hindex).withEntry ?_ hadd
    rw [hindex.continues.options_eq]
    exact hinterval
  refine ⟨hrepresents, h.valid_push hexact hc hsep value hkey, ?_, ?_⟩
  · rw [Draft.added_push, Draft.added_settle, h.added_eq]
  · intro e he
    rw [List.getLast?_concat] at he
    obtain rfl := Option.some.inj he
    rfl

theorem Carries.adds (h : Carries cmp added r d) (hexact : Exact r)
    (hc : TotalPreorder cmp.compare) (hsep : cmp.Separates)
    (hcmp : env.comparator r.options.comparator = cmp)
    (hinterval : 1 ≤ r.options.blockRestartInterval) {key value : Bytes}
    (hkey : ∀ e ∈ added.getLast?, 0 < cmp.compare key e.1) (hadds : Adds env r key value r')
    (hall : r'.log.AllOk) : ∃ d', Carries cmp (added ++ [(key, value)]) r' d' := by
  obtain ⟨r₁, dataBlock, _, hindex, hadd, hflush⟩ := hadds
  rw [hcmp] at hindex
  have hcarries := h.enters hexact hc hsep hinterval hkey hindex hadd
  rcases hflush with rfl | hflush
  · exact ⟨_, hcarries⟩
  · have hexact' : Exact (r₁.withEntry key dataBlock) :=
      (hexact.entersIndex hindex).withEntry hindex.pending_eq dataBlock
    exact hcarries.flushes hexact' hflush hall

theorem Carries.changeOptions (h : Carries cmp added r d) (options : Options) :
    Carries cmp added (r.changeOptions options).1 d := by
  have hinterval : (r.changeOptions options).1.indexBlockOptions.blockRestartInterval = 1 := by
    unfold TableBuilder.changeOptions
    split
    · exact h.represents.index_interval
    · rfl
  rw [changeOptions_same]
  exact ⟨⟨h.represents.data_building, h.represents.index_building, hinterval,
    h.represents.pending_eq, h.represents.handle_eq, h.represents.lies⟩, h.valid, h.added_eq,
    h.lastKey_eq⟩

end Order

section Runs

variable {env : Environment} {file : WritableFile} {comparator : Nat} {r r' : TableBuilder}
  {added : List (Bytes × Bytes)}

-- One call before the last one.
theorem Carries.steps {d : Draft} {c : Call}
    (h : Carries (env.comparator comparator) added r d)
    (hready : Ready comparator (added.getLast?.map Prod.fst) r)
    (hc : TotalPreorder (env.comparator comparator).compare)
    (hsep : (env.comparator comparator).Separates) {calls : List Call}
    (hlegal : Legal (env.comparator comparator) (added.getLast?.map Prod.fst)
      (c :: (calls ++ [.finish])))
    (hsteps : Steps env r c r') (hall : r'.log.AllOk) :
    ∃ d', Carries (env.comparator comparator) (added ++ entriesOf [c]) r' d' := by
  cases hsteps with
  | add hadds =>
      have hkey : ∀ e ∈ added.getLast?, 0 < (env.comparator comparator).compare _ e.1 :=
        fun e he => hlegal.1 e.1 (Option.mem_map_of_mem Prod.fst he)
      exact h.adds hready.toExact hc hsep (by rw [hready.comparator_eq]) hready.interval_pos hkey
        hadds hall
  | flush hflushes =>
      rw [entriesOf, List.filterMap_cons_none rfl, List.filterMap_nil, List.append_nil]
      exact h.flushes hready.toExact hflushes hall
  | changeOptions =>
      rw [entriesOf, List.filterMap_cons_none rfl, List.filterMap_nil, List.append_nil]
      exact ⟨d, h.changeOptions _⟩
  | finish hfinishes =>
      have hnil : calls ++ [Call.finish] = [] := hlegal
      exact absurd hnil (List.concat_ne_nil _ _)
  | abandon =>
      have hnil : calls ++ [Call.finish] = [] := hlegal
      exact absurd hnil (List.concat_ne_nil _ _)

end Runs

-- The bytes are what a block builder makes of the entries, and the block iterator
-- shows these entries.
def BlockOf (entries : List (Bytes × Bytes)) (bytes : Bytes) : Prop :=
  (∃ b, Building entries b ∧ b.finish.2 = bytes) ∧
    (bytes.length < 2 ^ 32 → ∃ block it, Block.new bytes = .ok block ∧
      block.newIterator = .ok it ∧
        ∀ moves, ∃ o, (Block.BlockIterator.machine fun _ => Empty.elim).run it moves = .ok o ∧
          Lib.Cursor.Agrees (Block.Shows entries) o
            (Lib.Cursor.run entries.length Empty.elim none moves))

theorem Building.blockOf {entries : List (Bytes × Bytes)} {b : BlockBuilder}
    (h : Building entries b) : BlockOf entries b.finish.2 := by
  refine ⟨⟨b, h, rfl⟩, fun hfits => ?_⟩
  obtain ⟨adds, rfl, hb⟩ := h
  obtain ⟨b', hb', hlayout⟩ := (Block.Fresh.layout (.inr ⟨.initial, rfl⟩) adds :
    ∃ b, BlockBuilder.initial.addAll adds = .ok b ∧ _)
  obtain rfl : b' = b := Except.ok.inj (hb'.symm.trans hb)
  obtain ⟨items, firsts, hitems, h⟩ := hlayout hfits
  have hlen := congrArg List.length hitems
  rw [List.length_map] at hlen
  rw [← hitems, List.length_map]
  exact h.run_shows (fun _ => Empty.elim) Empty.elim fun _ target => target.elim

-- The finished file: the data blocks, and then the two blocks of `Finish`.
structure Indexes (getVarint64 : VarintDecoder) (cmp : Comparator)
    (added : List (Bytes × Bytes)) (contents : Bytes) (blocks : List IndexedBlock)
    (indexBytes : Bytes) : Prop where
  entries_eq : blocks.flatMap (fun b => b.entries) = added
  blockOf : ∀ b ∈ blocks, BlockOf b.entries b.bytes
  layout : ∃ stop type, Lies contents (blocks.map (·.toDataBlock)) stop ∧
    contents.drop stop = finished indexBytes type
  index_blockOf : BlockOf (blocks.map (·.indexEntry)) indexBytes
  increasing : (blocks.map (·.separator)).Pairwise (cmp.compare · · < 0)
  last_le : ∀ b ∈ blocks, ∀ e ∈ b.entries.getLast?, cmp.compare e.1 b.separator ≤ 0
  lt_first : ∀ i b b', blocks[i]? = some b → blocks[i + 1]? = some b' →
    ∀ e ∈ b'.entries.head?, cmp.compare b.separator e.1 < 0
  decodes : ∀ b ∈ blocks, ∀ h : BlockHandle,
    h.decodeFrom getVarint64 b.indexEntry.2 = (.ok, ⟨b.offset, b.bytes.length⟩, [])
  finds : ∀ e ∈ added, ∃ b,
    blocks.find? (fun b => decide (0 ≤ cmp.compare b.separator e.1)) = some b ∧ e ∈ b.entries

theorem decodeFrom_handleBytes {getVarint64 : VarintDecoder} (hdecodes : getVarint64.Decodes)
    (h handle : BlockHandle) (rest : Bytes) (hoffset : handle.offset < 2 ^ 64)
    (hsize : handle.size < 2 ^ 64) :
    h.decodeFrom getVarint64 (handleBytes handle ++ rest) = (.ok, handle, rest) := by
  have hfirst := hdecodes handle.offset (putVarint64 [] handle.size ++ rest) hoffset
  have hsecond := hdecodes handle.size rest hsize
  unfold BlockHandle.decodeFrom
  rw [handleBytes_eq, List.append_assoc, hfirst]
  dsimp only
  rw [hsecond]

open Lib.SparseIndex in
theorem Indexes.of_leads {getVarint64 : VarintDecoder} (hdecodes : getVarint64.Decodes)
    {cmp : Comparator} (hc : TotalPreorder cmp.compare) {contents indexBytes : Bytes}
    {blocks : List IndexedBlock}
    (hleads : Leads cmp.compare Prod.fst (fun b : IndexedBlock => b.entries) (·.separator) blocks)
    (hlayout : ∃ stop type, Lies contents (blocks.map (·.toDataBlock)) stop ∧
      contents.drop stop = finished indexBytes type)
    (hindex : BlockOf (blocks.map (·.indexEntry)) indexBytes) :
    Indexes getVarint64 cmp (blocks.flatMap (fun b => b.entries)) contents blocks indexBytes where
  entries_eq := rfl
  blockOf := by
    intro b _
    obtain ⟨builder, hbuilding, hbytes⟩ := b.built
    rw [← hbytes]
    exact Building.blockOf hbuilding
  layout := hlayout
  index_blockOf := hindex
  increasing := hleads.separators_increase hc fun b _ => b.nonempty
  last_le b hb e he := hleads.covers b hb e (List.mem_of_getLast? he)
  lt_first := by
    intro i b b' hb hb' e he
    obtain ⟨hi, rfl⟩ := List.getElem?_eq_some_iff.mp hb
    obtain ⟨hi', rfl⟩ := List.getElem?_eq_some_iff.mp hb'
    exact List.pairwise_iff_getElem.mp hleads.apart i (i + 1) hi hi' (by omega) e
      (List.mem_of_head? he)
  decodes := by
    intro b _ h
    have hfits := b.fits
    have hhandle := decodeFrom_handleBytes hdecodes h b.handle []
      (by dsimp only [DataBlock.handle]; omega) (by dsimp only [DataBlock.handle]; omega)
    rwa [List.append_nil] at hhandle
  finds := by
    intro e he
    obtain ⟨b, hb, he⟩ := List.mem_flatMap.mp he
    exact ⟨b, hleads.find hc b hb e he, he⟩

section Finish

variable {env : Environment} {cmp : Comparator} {added : List (Bytes × Bytes)}
  {r r' : TableBuilder} {d : Draft}

-- `Finish` settles the last block and writes the index entries behind the blocks.
theorem Carries.finishes (h : Carries cmp added r d) (hexact : Exact r)
    (hc : TotalPreorder cmp.compare)
    (hone : ∀ key, cmp.compare key (env.findShortestSeparator r.options.comparator key) ≤ 0)
    (hdecodes : env.getVarint64.Decodes) (hfinishes : Finishes env r r') (hall : r'.log.AllOk) :
    ∃ blocks indexBytes,
      Indexes env.getVarint64 cmp added r'.log.contents blocks indexBytes := by
  cases hfinishes with
  | flush r₁ hflush h₁ => exact absurd ((hexact.flushes hflush).log_ok.mpr hall) h₁
  | metaindex r₁ _ hflush h₁ hmeta h₂ => exact absurd hall (hmeta.not_allOk h₂)
  | index r₁ r₂ r₃ r₄ hflush h₁ hmeta h₂ hindex hwrite =>
      have hall₁ := (hexact.flushes hflush).log_ok.mp h₁
      obtain ⟨d₁, hcarries, hcurrent⟩ := h.flushed hexact hflush h₁
      have hcomparator : r₂.options.comparator = r.options.comparator := by
        rw [hmeta.continues.options_eq]
        exact congrArg Options.comparator hflush.continues.options_eq
      have hlastKey : r₂.lastKey = r₁.lastKey := by rw [hmeta.eq]
      let separator := env.findShortestSeparator r₂.options.comparator r₂.lastKey
      have hclosed : Represents { r₁ with closed := true } d₁ r₁.log.contents.length :=
        hcarries.represents.close
      have hsettled : Represents r₃ (d₁.settle separator) r₁.log.contents.length :=
        (hclosed.writes hmeta).entersIndex hindex
      have hcovers : ∀ b ∈ d₁.pending, ∀ e ∈ b.entries, cmp.compare e.1 separator ≤ 0 := by
        intro b hb e he
        have hle := hcarries.le_lastKey hc e (Draft.mem_added_of_pending hb he)
        have hsep := hone r₁.lastKey
        rw [← hcomparator, ← hlastKey] at hsep
        rw [← hlastKey] at hle
        exact hc.trans _ _ _ hle hsep
      have hadded : (d₁.settle separator).indexed.flatMap (fun b => b.entries) = added := by
        rw [← hcarries.added_eq, ← Draft.added_settle (d := d₁) separator, Draft.added,
          Draft.waiting_settle separator hcurrent, List.append_nil]
      have hlies := (hsettled.writes hwrite).lies
      rw [Draft.blocks_settle_eq separator] at hlies
      refine ⟨(d₁.settle separator).indexed, r₃.indexBlock.finish.2, ?_⟩
      rw [← hadded]
      apply Indexes.of_leads hdecodes hc (hcarries.valid.leads_settle separator hcovers)
      · refine ⟨_, r₁.options.compression, hlies, ?_⟩
        dsimp only
        rw [contents_finished hmeta hindex hwrite hall, List.drop_left]
      · exact Building.blockOf hsettled.index_building

theorem new_carries {options : Options} (hnew : TableBuilder.new env options = .ok r) :
    Carries cmp [] r .empty := by
  unfold TableBuilder.new BlockBuilder.new at hnew
  by_cases hinterval : options.blockRestartInterval ≥ 1
  · rw [assertThat_pos hinterval] at hnew
    obtain rfl := Except.ok.inj hnew
    refine ⟨⟨initial_building, initial_building, rfl, rfl, ?_, rfl, ?_⟩, Draft.empty_valid, rfl, ?_⟩
    · simp [Draft.empty]
    · simp [Draft.empty, Draft.blocks]
    · simp
  · rw [assertThat_neg hinterval] at hnew
    cases hnew

-- Every run of legal calls up to `Finish` whose file operations all succeed.
theorem index_leads (env : Environment) (file : WritableFile) {options : Options}
    (hnew : TableBuilder.new env options = .ok r) (hfilter : options.filterPolicy = none)
    (hc : TotalOrder (env.comparator options.comparator).compare)
    (hsep : (env.comparator options.comparator).Separates)
    (hone : ∀ key, (env.comparator options.comparator).compare key
      (env.findShortestSeparator options.comparator key) ≤ 0)
    (hdecodes : env.getVarint64.Decodes) (calls : List Call)
    (hlegal : Legal (env.comparator options.comparator) none (calls ++ [.finish])) :
    ∃ r', r.run env file (calls ++ [.finish]) = .ok r' ∧
      (r'.log.AllOk → ∃ blocks indexBytes, Indexes env.getVarint64
        (env.comparator options.comparator) (entriesOf calls) r'.log.contents blocks
          indexBytes) := by
  let Drafted (added : List (Bytes × Bytes)) (r : TableBuilder) : Prop :=
    r.log.AllOk → ∃ d, Carries (env.comparator options.comparator) added r d
  obtain ⟨r₁, hrun, hready, hdrafted⟩ := (new_ready env hnew hfilter).run env file Drafted
    (by
      intro added r c calls r' hready hlegal hsteps hdrafted hall
      obtain ⟨d, hcarries⟩ := hdrafted (hall.of_prefix hsteps.log_le)
      exact hcarries.steps hready hc.toTotalPreorder hsep hlegal hsteps hall)
    [] calls hlegal (fun _ => ⟨_, new_carries hnew⟩)
  obtain ⟨r', hstep, hsteps⟩ := hready.step env file .finish [] rfl
  refine ⟨r', run_concat env file hrun hstep, fun hall => ?_⟩
  obtain ⟨d, hcarries⟩ := hdrafted (hall.of_prefix hsteps.log_le)
  cases hsteps with
  | finish hfinishes =>
      apply hcarries.finishes hready.toExact hc.toTotalPreorder _ hdecodes hfinishes hall
      rw [hready.comparator_eq]
      exact hone

end Finish

theorem decode_decodes : VarintDecoder.Decodes Lib.Base128.decode := by
  intro v rest hv
  obtain ⟨hterminated, hvalue, -⟩ := encodeVarint64_spec v hv
  rw [putVarint64, List.nil_append, Nat.mod_eq_of_lt hv,
    Lib.Base128.decode_append _ _ hterminated, hvalue]

-- The second block holds two entries, and the last one waits for `Finish`.
def indexedCalls : List Call :=
  [.add [1] [7], .flush, .flush, .add [2] [8],
    .changeOptions { sampleOptions with blockRestartInterval := 2 }, .add [2, 0] [], .flush,
    .add [5] [9]]

theorem index_leads_sample : ∃ r r' blocks indexBytes,
    TableBuilder.new sampleEnvironment sampleOptions = .ok r ∧
      r.run sampleEnvironment reliable (indexedCalls ++ [.finish]) = .ok r' ∧
        Indexes Lib.Base128.decode bytewiseComparator (entriesOf indexedCalls) r'.log.contents
          blocks indexBytes := by
  obtain ⟨r, hnew⟩ : ∃ r, TableBuilder.new sampleEnvironment sampleOptions = .ok r := ⟨_, rfl⟩
  have hlegal : Legal bytewiseComparator none (indexedCalls ++ [.finish]) := by
    simp only [indexedCalls, List.cons_append, List.nil_append, Legal]
    decide
  obtain ⟨r', hrun, hindexes⟩ := index_leads sampleEnvironment reliable hnew rfl
    Slice.compare_totalOrder bytewiseComparator_separates
    (fun key => (Slice.compare_totalOrder.refl key).le) decode_decodes indexedCalls hlegal
  have hchecked : (TableBuilder.new sampleEnvironment sampleOptions >>= fun r =>
      (r.run sampleEnvironment reliable (indexedCalls ++ [.finish])).map fun r' =>
        decide r'.log.AllOk) = .ok true := by decide +kernel
  rw [hnew, ok_bind, hrun] at hchecked
  obtain ⟨blocks, indexBytes, h⟩ := hindexes (of_decide_eq_true (Except.ok.inj hchecked))
  exact ⟨r, r', blocks, indexBytes, hnew, hrun, h⟩

end Mylldb.TableBuilder

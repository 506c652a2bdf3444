import Mylldb.TableBuilder.Ends
import Mylldb.TableBuilder.Plan

namespace Mylldb.TableBuilder

open BlockBuilder Lib.Batches Lib.Run Lib.ThreeWay

-- What the filter block hears of a data block: its keys, and the start of what follows.
def DataBlock.filterCalls (b : DataBlock) : List FilterCall :=
  b.entries.map (fun e => .addKey e.1) ++ [.startBlock (b.offset + b.bytes.length + 5)]

-- The calls that a filter block has seen when the draft is carried out.
def Draft.filterCalls (d : Draft) : List FilterCall :=
  .startBlock 0 :: (d.blocks.flatMap DataBlock.filterCalls ++
    d.current.map fun e => .addKey e.1)

namespace Draft

variable {d : Draft}

theorem filterCalls_settle (separator : Bytes) :
    (d.settle separator).filterCalls = d.filterCalls := by
  rw [filterCalls, filterCalls, blocks_settle, current_settle]

theorem filterCalls_push (e : Bytes × Bytes) :
    (d.push e).filterCalls = d.filterCalls ++ [.addKey e.1] := by
  simp [filterCalls, push, blocks]

-- The keys of a block were heard one by one, before the block was cut.
theorem filterCalls_cut (b : DataBlock) (hpending : d.pending = none)
    (hb : b.entries = d.current) :
    (d.cut b).filterCalls =
      d.filterCalls ++ [.startBlock (b.offset + b.bytes.length + 5)] := by
  have hcurrent : (d.cut b).current = [] := rfl
  rw [filterCalls, filterCalls, blocks_cut b hpending, hcurrent, List.flatMap_append,
    List.flatMap_singleton, DataBlock.filterCalls, hb]
  simp

end Draft

-- The block and its trailer stand in the file, with one of the allowed types.
def Stored (allowed : CompressionType → Prop) (contents : Bytes) (b : DataBlock) : Prop :=
  ∃ type, allowed type ∧ StandsAt contents b.offset (b.bytes ++ trailer b.bytes type)

theorem Stored.append {allowed : CompressionType → Prop} {contents : Bytes} {b : DataBlock}
    (h : Stored allowed contents b) (more : Bytes) : Stored allowed (contents ++ more) b := by
  obtain ⟨type, htype, hstands⟩ := h
  exact ⟨type, htype, standsAt_append hstands⟩

-- The builder carries the draft out as planned, with its trailers and the calls of its
-- filter.
structure Keeps (allowed : CompressionType → Prop) (cmp : Comparator)
    (added : List (Bytes × Bytes)) (p : Plan) (r : TableBuilder) (d : Draft) : Prop
    extends Carries cmp added r d, Follows p r d where
  stored : ∀ b ∈ d.blocks, Stored allowed r.log.contents b
  fed : ∀ f ∈ r.filterBlock, f.calls = d.filterCalls

section Steps

variable {allowed : CompressionType → Prop} {cmp : Comparator} {added : List (Bytes × Bytes)}
  {p : Plan} {env : Environment} {r r' : TableBuilder} {d : Draft}

theorem new_follows {options : Options} (hnew : TableBuilder.new env options = .ok r) :
    Follows (.start options) r .empty := by
  unfold TableBuilder.new BlockBuilder.new at hnew
  by_cases hinterval : options.blockRestartInterval ≥ 1
  · rw [assertThat_pos hinterval] at hnew
    obtain rfl := Except.ok.inj hnew
    exact ⟨rfl, rfl, rfl, rfl⟩
  · rw [assertThat_neg hinterval] at hnew
    cases hnew

theorem new_keeps {options : Options} (hnew : TableBuilder.new env options = .ok r) :
    Keeps allowed cmp [] (.start options) r .empty where
  toCarries := new_carries hnew
  toFollows := new_follows hnew
  stored := by simp [Draft.blocks, Draft.empty]
  fed := by
    unfold TableBuilder.new BlockBuilder.new at hnew
    by_cases hinterval : options.blockRestartInterval ≥ 1
    · rw [assertThat_pos hinterval] at hnew
      obtain rfl := Except.ok.inj hnew
      cases options.filterPolicy <;>
        simp [Draft.filterCalls, Draft.blocks, Draft.empty, FilterBlockBuilder.startBlock]
    · rw [assertThat_neg hinterval] at hnew
      cases hnew

-- A flush that is not cut short leaves nothing outside a block when it ends well.
theorem Keeps.flushes (h : Keeps allowed cmp added p r d) (hexact : Exact r)
    (hallowed : allowed r.options.compression) (hflushes : Flushes r r')
    (hall : r'.log.AllOk) :
    ∃ d', Keeps allowed cmp added { p with toBatched := p.cut } r' d' ∧ d'.current = [] := by
  rcases h.represents.cuts hexact hflushes hall with
    ⟨rfl, hidle⟩ | ⟨b, hnone, hb, hbytes, hoffset, hcontents, hfilter, hcut⟩
  · have hcurrent := hidle (hexact.log_ok.mpr hall)
    exact ⟨d, ⟨h.toCarries, h.toFollows.idle hcurrent, h.stored, h.fed⟩, hcurrent⟩
  · have hlastKey : ∀ e ∈ added.getLast?, r'.lastKey = e.1 := by
      rw [hflushes.same.1]
      exact h.lastKey_eq
    have hinitial : r'.dataBlock = .initial := eq_initial hcut.data_building
    refine ⟨d.cut b, ⟨⟨hcut, h.valid.cut b hnone hb, (Draft.added_cut b hnone hb).trans h.added_eq,
      hlastKey⟩, h.toFollows.cut hnone hb hbytes hflushes.continues.options_eq hinitial, ?_, ?_⟩,
      rfl⟩
    · intro b' hb'
      rw [Draft.blocks_cut b hnone] at hb'
      rw [hcontents]
      rcases List.mem_append.mp hb' with hb' | hb'
      · exact (h.stored b' hb').append _
      · rw [List.mem_singleton.mp hb']
        refine ⟨r.options.compression, hallowed, ?_⟩
        rw [hoffset]
        exact .last _ _
    · intro f hf
      rw [hfilter] at hf
      obtain ⟨f₀, hf₀, rfl⟩ := Option.mem_map.mp hf
      rw [Draft.filterCalls_cut b hnone hb, ← h.fed f₀ hf₀]
      rfl

-- The entry of a call, before the size of the data block is looked at.
theorem Keeps.enters (h : Keeps allowed cmp added p r d) (hexact : Exact r)
    (hc : TotalPreorder cmp.compare) (hsep : cmp.Separates)
    (hinterval : 1 ≤ r.options.blockRestartInterval) {key value : Bytes}
    (hkey : ∀ e ∈ added.getLast?, 0 < cmp.compare key e.1) {r₁ : TableBuilder}
    {dataBlock : BlockBuilder}
    (hindex : EntersIndex r (cmp.findShortestSeparator r.lastKey key) r₁)
    (hadd : r₁.dataBlock.add r₁.options.blockRestartInterval key value = .ok dataBlock) :
    Keeps allowed cmp (added ++ [(key, value)])
      { p with rest := p.rest ++ [⟨p.options.blockRestartInterval, key, value⟩] }
      (r₁.withEntry key dataBlock)
      ((d.settle (cmp.findShortestSeparator r.lastKey key)).push (key, value)) where
  toCarries := h.toCarries.enters hexact hc hsep hinterval hkey hindex hadd
  toFollows := h.toFollows.enters hindex hadd
  stored := by
    have hblocks : ((d.settle (cmp.findShortestSeparator r.lastKey key)).push
        (key, value)).blocks = d.blocks := Draft.blocks_settle _
    have hlog : (r₁.withEntry key dataBlock).log = r.log := hindex.same.2.1
    rw [hblocks, hlog]
    exact h.stored
  fed := by
    have hfilter : r₁.filterBlock = r.filterBlock := by
      cases hindex <;> rfl
    intro f hf
    rw [withEntry, hfilter] at hf
    obtain ⟨f₀, hf₀, rfl⟩ := Option.mem_map.mp hf
    rw [Draft.filterCalls_push, Draft.filterCalls_settle, ← h.fed f₀ hf₀]
    rfl

theorem Keeps.adds (file : WritableFile) {comparator : Nat}
    (h : Keeps allowed (env.comparator comparator) added p r d)
    (hwaiting : Waiting comparator (added.getLast?.map Prod.fst) r)
    (hc : TotalPreorder (env.comparator comparator).compare)
    (hsep : (env.comparator comparator).Separates) (hallowed : allowed r.options.compression)
    {key value : Bytes}
    (hkey : ∀ e ∈ added.getLast?, 0 < (env.comparator comparator).compare key e.1)
    (hadd : r.add env file key value = .ok r') (hall : r'.log.AllOk) :
    ∃ d', Keeps allowed (env.comparator comparator) (added ++ [(key, value)])
      (p.act (.add key value)) r' d' := by
  obtain ⟨r₁, dataBlock, r₂, hrun, hindex, hentry, hfills⟩ := add_fills env file r key value
    hwaiting.closed_eq (fun hpos => by
      rw [hwaiting.comparator_eq]
      obtain ⟨e, he, hlast⟩ := Option.map_eq_some_iff.mp (hwaiting.lastKey_eq hpos)
      rw [← hlast]
      exact hkey e he) hwaiting.pending_empty hwaiting.pending_fits
  obtain rfl := Except.ok.inj (hrun.symm.trans hadd)
  rw [hwaiting.comparator_eq] at hindex
  have hkeeps := h.enters hwaiting.toExact hc hsep hwaiting.interval_pos hkey hindex hentry
  have hoptions : r₁.options = r.options := hindex.continues.options_eq
  have hfull : Plan.full p.options
      (p.rest ++ [⟨p.options.blockRestartInterval, key, value⟩]) =
      decide (r₁.options.blockSize ≤ dataBlock.currentSizeEstimate) := by
    rw [Plan.full, ← hkeeps.dataBlock_eq, hoptions, h.options_eq]
    rfl
  rw [Plan.act, Batched.push_eq_cut, hfull]
  split at hfills
  · rename_i hsize
    have hexact : Exact (r₁.withEntry key dataBlock) :=
      (hwaiting.toExact.entersIndex hindex).withEntry hindex.pending_eq dataBlock
    have hallowed' : allowed (r₁.withEntry key dataBlock).options.compression := by
      change allowed r₁.options.compression
      rwa [hoptions]
    obtain ⟨d', hkept, -⟩ := hkeeps.flushes hexact hallowed' hfills hall
    rw [if_pos (decide_eq_true hsize)]
    exact ⟨d', hkept⟩
  · rename_i hsize
    rw [if_neg (by simpa using hsize), hfills]
    exact ⟨_, hkeeps⟩

theorem changeOptions_options (r : TableBuilder) (options : Options) :
    (r.changeOptions options).1.options = acceptOptions r.options (.changeOptions options) := by
  unfold TableBuilder.changeOptions acceptOptions
  dsimp only
  split <;> rfl

theorem Keeps.changeOptions (h : Keeps allowed cmp added p r d) (options : Options) :
    Keeps allowed cmp added (p.act (.changeOptions options)) (r.changeOptions options).1 d where
  toCarries := h.toCarries.changeOptions options
  options_eq := by
    rw [Plan.act_options, ← h.options_eq]
    exact changeOptions_options r options
  current_eq := h.current_eq
  dataBlock_eq := by
    rw [changeOptions_same]
    exact h.dataBlock_eq
  blocks_eq := h.blocks_eq
  stored := by
    rw [changeOptions_log]
    exact h.stored
  fed := by
    rw [changeOptions_same]
    exact h.fed

-- One call before the last one.
theorem Keeps.steps (file : WritableFile) {comparator : Nat} {c : Call}
    (h : Keeps allowed (env.comparator comparator) added p r d)
    (hwaiting : Waiting comparator (added.getLast?.map Prod.fst) r)
    (hc : TotalPreorder (env.comparator comparator).compare)
    (hsep : (env.comparator comparator).Separates) (hallowed : allowed r.options.compression)
    {calls : List Call} (hlegal : Legal (env.comparator comparator)
      (added.getLast?.map Prod.fst) (c :: (calls ++ [.finish])))
    (hstep : r.step env file c = .ok r') (hsteps : Steps env r c r') (hall : r'.log.AllOk) :
    ∃ d', Keeps allowed (env.comparator comparator) (added ++ entriesOf [c]) (p.act c) r' d' := by
  cases hsteps with
  | add hadds =>
      have hkey : ∀ e ∈ added.getLast?, 0 < (env.comparator comparator).compare _ e.1 :=
        fun e he => hlegal.1 e.1 (Option.mem_map_of_mem Prod.fst he)
      exact h.adds file hwaiting hc hsep hallowed hkey hstep hall
  | flush hflushes =>
      rw [entriesOf, List.filterMap_cons_none rfl, List.filterMap_nil, List.append_nil]
      obtain ⟨d', hkept, -⟩ := h.flushes hwaiting.toExact hallowed hflushes hall
      exact ⟨d', hkept⟩
  | changeOptions =>
      rw [entriesOf, List.filterMap_cons_none rfl, List.filterMap_nil, List.append_nil]
      exact ⟨d, h.changeOptions _⟩
  | finish hfinishes =>
      have hnil : calls ++ [Call.finish] = [] := hlegal
      exact absurd hnil (List.concat_ne_nil _ _)
  | abandon =>
      have hnil : calls ++ [Call.finish] = [] := hlegal
      exact absurd hnil (List.concat_ne_nil _ _)

end Steps

theorem entriesOf_append (calls calls' : List Call) :
    entriesOf (calls ++ calls') = entriesOf calls ++ entriesOf calls' :=
  List.filterMap_append

theorem lastAfter_entriesOf (done : List Call) (c : Call) :
    lastAfter ((entriesOf done).getLast?.map Prod.fst) c =
      (entriesOf (done ++ [c])).getLast?.map Prod.fst := by
  rw [entriesOf_append]
  cases c <;> simp [lastAfter, entriesOf]

-- A call that is not the last one leaves the builder waiting for the next.
theorem Waiting.advance (env : Environment) (file : WritableFile) {comparator : Nat}
    {last : Option Bytes} {r : TableBuilder} (h : Waiting comparator last r) {c : Call}
    {rest : List Call} (hrest : rest ≠ [])
    (hlegal : Legal (env.comparator comparator) last (c :: rest)) :
    ∃ r', r.step env file c = .ok r' ∧ Steps env r c r' ∧
      Waiting comparator (lastAfter last c) r' ∧
      Legal (env.comparator comparator) (lastAfter last c) rest ∧
      r'.builtWith = r.builtWith ∧ r'.options = acceptOptions r.options c := by
  have hc : c ≠ .finish := by
    rintro rfl
    exact hrest hlegal
  obtain ⟨r', hstep, hsteps⟩ := h.step env file c hc rest hlegal
  obtain ⟨⟨hnext, hlegal'⟩, hsame⟩ := (h.steps hlegal hsteps).resolve_left hrest
  exact ⟨r', hstep, hsteps, hnext, hlegal', hsame⟩

-- A property of the builder that every call before `Finish` keeps holds before
-- `Finish`, with a filter or without one. The induction is on the calls to come.
theorem Waiting.run_keeps (env : Environment) (file : WritableFile) {comparator : Nat}
    (options : Options) (P : List Call → TableBuilder → Prop) (all : List Call)
    (hP : ∀ done c rest r r', done ++ c :: rest = all →
      Waiting comparator ((entriesOf done).getLast?.map Prod.fst) r →
      Legal (env.comparator comparator) ((entriesOf done).getLast?.map Prod.fst)
        (c :: (rest ++ [.finish])) →
      r.options = optionsInForce options done → r.step env file c = .ok r' → Steps env r c r' →
      P done r → P (done ++ [c]) r')
    (done calls : List Call) (hall : done ++ calls = all) {r : TableBuilder}
    (h : Waiting comparator ((entriesOf done).getLast?.map Prod.fst) r)
    (hlegal : Legal (env.comparator comparator) ((entriesOf done).getLast?.map Prod.fst)
      (calls ++ [.finish]))
    (hoptions : r.options = optionsInForce options done) (hdone : P done r) :
    ∃ r', r.run env file calls = .ok r' ∧
      Waiting comparator ((entriesOf all).getLast?.map Prod.fst) r' ∧
      r'.builtWith = r.builtWith ∧ r'.options = optionsInForce options all ∧ P all r' := by
  induction calls generalizing done r with
  | nil =>
      rw [List.append_nil] at hall
      subst hall
      exact ⟨r, rfl, h, rfl, hoptions, hdone⟩
  | cons c calls ih =>
      rw [List.cons_append] at hlegal
      obtain ⟨r₁, hstep, hsteps, hnext, hlegal₁, hbuilt, hoptions₁⟩ :=
        h.advance env file (List.concat_ne_nil _ _) hlegal
      rw [lastAfter_entriesOf] at hnext hlegal₁
      obtain ⟨r', hrun, hlast, hbuilt', hinForce, hr'⟩ := ih (done ++ [c]) (by simpa using hall)
        hnext hlegal₁ (by rw [hoptions₁, hoptions, optionsInForce, optionsInForce,
          List.foldl_append]; rfl)
        (hP done c calls r r₁ hall h hlegal hoptions hstep hsteps hdone)
      refine ⟨r', ?_, hlast, hbuilt'.trans hbuilt, hinForce, hr'⟩
      rw [TableBuilder.run, List.foldlM_cons, hstep]
      exact hrun

-- The builder before `Finish`, when everything written so far arrived.
theorem run_keeps {allowed : CompressionType → Prop} (env : Environment) (file : WritableFile)
    {options : Options} {r : TableBuilder} (hnew : TableBuilder.new env options = .ok r)
    (hc : TotalPreorder (env.comparator options.comparator).compare)
    (hsep : (env.comparator options.comparator).Separates) (calls : List Call)
    (hlegal : Legal (env.comparator options.comparator) none (calls ++ [.finish]))
    (hallowed : ∀ before, before <+: calls → allowed (optionsInForce options before).compression) :
    ∃ r', r.run env file calls = .ok r' ∧
      Waiting options.comparator ((entriesOf calls).getLast?.map Prod.fst) r' ∧
      r'.builtWith = options.filterPolicy ∧ r'.options = optionsInForce options calls ∧
      (r'.log.AllOk → ∃ d, Keeps allowed (env.comparator options.comparator)
        (entriesOf calls) (planned options calls) r' d) := by
  obtain ⟨hwaiting, hbuilt, hoptions⟩ := new_waiting env hnew
  obtain ⟨r', hrun, hlast, hbuilt', hinForce, hkept⟩ := hwaiting.run_keeps env file options
    (fun done r => r.log.AllOk → ∃ d, Keeps allowed (env.comparator options.comparator)
      (entriesOf done) (planned options done) r d) calls
    (by
      intro done c rest r r' hdone hready hlegal hforce hstep hsteps hkept hall
      obtain ⟨d, hkeeps⟩ := hkept (hall.of_prefix hsteps.log_le)
      rw [entriesOf_append, planned_concat]
      refine hkeeps.steps file hready hc hsep ?_ hlegal hstep hsteps hall
      rw [hforce]
      exact hallowed done ⟨c :: rest, hdone⟩)
    [] calls rfl hlegal hoptions (fun _ => ⟨_, new_keeps hnew⟩)
  exact ⟨r', hrun, hlast, hbuilt'.trans hbuilt, hinForce, hkept⟩

end Mylldb.TableBuilder

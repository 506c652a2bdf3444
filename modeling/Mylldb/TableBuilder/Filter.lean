import Mylldb.TableBuilder.Errors

namespace Mylldb

open Lib.Run

-- The first entry of a block shares nothing, and its key stands behind three lengths.
theorem BlockBuilder.initial_add {interval : Int} {key value : Bytes} {b : BlockBuilder}
    (hadd : initial.add interval key value = .ok b) (hinterval : 1 ≤ interval) :
    b.buffer = encodeVarint32 0 ++ (encodeVarint32 (key.length % 2 ^ 32) ++
      (encodeVarint32 (value.length % 2 ^ 32) ++ (key ++ value))) ∧ b.restarts = [0] := by
  obtain ⟨shared, restarts, counter, hspec, hextends, hturn⟩ :=
    add_spec initial interval key value
  obtain rfl := Except.ok.inj (hspec.symm.trans hadd)
  obtain rfl : shared = 0 := Nat.le_zero.mp hextends.shared_le_last
  cases hturn with
  | compress _ => simp [initial]
  | restart hcounter =>
      have hzero : ((initial.counter : Nat) : Int) = 0 := rfl
      omega

-- A block with one entry tells the key of the entry.
theorem BlockBuilder.initial_add_inj {interval : Int} {key key' value : Bytes}
    {b b' : BlockBuilder} (hadd : initial.add interval key value = .ok b)
    (hadd' : initial.add interval key' value = .ok b') (hinterval : 1 ≤ interval)
    (hbytes : b.finish.2 = b'.finish.2) : key = key' := by
  obtain ⟨hbuffer, hrestarts⟩ := initial_add hadd hinterval
  obtain ⟨hbuffer', hrestarts'⟩ := initial_add hadd' hinterval
  rw [finish_eq, finish_eq, hrestarts, hrestarts', List.append_cancel_right_eq, hbuffer,
    hbuffer'] at hbytes
  have hmod (n : Nat) : n % 2 ^ 32 < 2 ^ 32 := Nat.mod_lt n (by decide)
  obtain ⟨-, hbytes⟩ := encodeVarint32_append_inj (by decide) (by decide) hbytes
  obtain ⟨-, hbytes⟩ := encodeVarint32_append_inj (hmod _) (hmod _) hbytes
  obtain ⟨-, hbytes⟩ := encodeVarint32_append_inj (hmod _) (hmod _) hbytes
  exact List.append_cancel_right hbytes

namespace TableBuilder

-- The options after some calls: those of the last call that was not refused.
def optionsInForce (options : Options) (calls : List Call) : Options :=
  calls.foldl acceptOptions options

-- A run up to `Finish` goes through, and keeps the policy of the filter.
theorem Waiting.run (env : Environment) (file : WritableFile) {comparator : Nat}
    {last : Option Bytes} {r : TableBuilder} (h : Waiting comparator last r) (calls : List Call)
    (hlegal : Legal (env.comparator comparator) last (calls ++ [.finish])) :
    ∃ r' last', r.run env file calls = .ok r' ∧ Waiting comparator last' r' ∧
      r'.builtWith = r.builtWith ∧ r'.options = optionsInForce r.options calls := by
  induction calls generalizing last r with
  | nil => exact ⟨r, last, rfl, h, rfl, rfl⟩
  | cons c calls ih =>
      rw [List.cons_append] at hlegal
      have hmore : calls ++ [.finish] ≠ [] := by simp
      have hc : c ≠ .finish := by
        rintro rfl
        exact hmore hlegal
      obtain ⟨r₁, hstep, hsteps⟩ := h.step env file c hc _ hlegal
      obtain ⟨⟨hnext, hlegal₁⟩, hbuilt, hoptions⟩ :=
        (h.steps hlegal hsteps).resolve_left hmore
      obtain ⟨r', last', hrun, hlast, hbuilt', hinForce⟩ := ih hnext hlegal₁
      refine ⟨r', last', ?_, hlast, hbuilt'.trans hbuilt, ?_⟩
      · rw [TableBuilder.run, List.foldlM_cons, hstep]
        exact hrun
      · rw [hinForce, hoptions]
        rfl

-- `Finish` up to the filter block, with the handle of what was written for it.
def beforeMetaindex (env : Environment) (file : WritableFile) (r : TableBuilder) :
    Exec (TableBuilder × BlockHandle) := do
  let r ← r.flush env file
  assertThat (r.closed = false)
  { r with closed := true }.writeFilterBlock env file

theorem finish_split (env : Environment) (file : WritableFile) (r : TableBuilder) :
    r.finish env file = (do
      let (r, filterHandle) ← r.beforeMetaindex env file
      let r ← r.ifOk (·.writeMetaindexBlock env file filterHandle)
      let r ← r.ifOk (·.writeIndexBlock env file)
      pure (r, none)) := by
  unfold finish beforeMetaindex
  simp only [bind_assoc]

-- `Finish` comes to its end, and behind the filter block it appends a metaindex block with
-- one entry, under the name of the policy.
def RecordsFilter (env : Environment) (file : WritableFile) (r : TableBuilder) (policy : Nat) :
    Prop :=
  ∃ r₁ handle block r' s later, r.beforeMetaindex env file = .ok (r₁, handle) ∧
    BlockBuilder.initial.add r.options.blockRestartInterval (filterKey (env.policyName policy))
      (handleBytes handle) = .ok block ∧
    r.finish env file = .ok (r', none) ∧
    r'.log = r₁.log ++ (.append block.finish.2, s) :: later

theorem Writes.appends {r r' : TableBuilder} {data : Bytes} {type : CompressionType}
    (h : Writes r data type r') : ∃ s later, r'.log = r.log ++ (.append data, s) :: later := by
  cases h with
  | body s hs => exact ⟨s, [], rfl⟩
  | trailer s hs => exact ⟨.ok, _, rfl⟩
  | done hsize => exact ⟨.ok, _, rfl⟩

section Finish

variable (env : Environment) (file : WritableFile) {comparator policy named : Nat}
  {last : Option Bytes} {r r₁ : TableBuilder} {handle : BlockHandle}

theorem writeFilterBlock_ends (hexact : Exact r) (hbuilt : r.builtWith = some policy) :
    ∃ r₁ handle, r.writeFilterBlock env file = .ok (r₁, handle) ∧ r₁.options = r.options ∧
      r₁.builtWith = some policy ∧ Exact r₁ ∧ (r₁.status = .ok → HandleFits handle) := by
  obtain ⟨filter, hfilter, -⟩ := Option.map_eq_some_iff.mp hbuilt
  unfold writeFilterBlock
  split
  · rename_i hnone
    cases hnone.symm.trans hfilter
  · by_cases hok : r.status = .ok
    · rename_i filter' _
      obtain ⟨r₁, hwrite, hwrites⟩ :=
        writeRawBlock_writes env file r (env.finishFilter filter') .kNoCompression
      rw [if_pos hok]
      exact ⟨r₁, _, hwrite, hwrites.continues.options_eq, hwrites.builtWith.trans hbuilt,
        hexact.writes hok hwrites, hexact.handleFits hok hwrites⟩
    · rw [if_neg hok]
      exact ⟨r, _, rfl, rfl, hbuilt, hexact, fun hok₁ => absurd hok₁ hok⟩

theorem beforeMetaindex_ends (h : Waiting comparator last r) (hbuilt : r.builtWith = some policy) :
    ∃ r₁ handle, r.beforeMetaindex env file = .ok (r₁, handle) ∧ r₁.options = r.options ∧
      r₁.builtWith = some policy ∧ Exact r₁ ∧ (r₁.status = .ok → HandleFits handle) := by
  obtain ⟨r₀, hflush, hflushes⟩ := flush_flushes env file r h.closed_eq h.pending_empty
  have hc := hflushes.continues
  obtain ⟨r₁, handle, hwrite, hoptions, hends⟩ := writeFilterBlock_ends env file
    (h.toExact.flushes hflushes).close (hflushes.builtWith.trans hbuilt)
  refine ⟨r₁, handle, ?_, hoptions.trans hc.options_eq, hends⟩
  rw [beforeMetaindex, hflush, ok_bind, assertThat_pos (hc.closed_eq.trans h.closed_eq), ok_bind]
  exact hwrite

section Metaindex

variable (hbuilt : r₁.builtWith = some policy)
  (hinterval : 1 ≤ r₁.options.blockRestartInterval)
include hbuilt hinterval

-- The name is asked for through the pointer in the options of the moment.
theorem writeMetaindexBlock_null (hnull : r₁.options.filterPolicy = none) :
    r₁.writeMetaindexBlock env file handle = .error .outOfBounds := by
  obtain ⟨filter, hfilter, -⟩ := Option.map_eq_some_iff.mp hbuilt
  rw [writeMetaindexBlock, BlockBuilder.new_eq hinterval, ok_bind,
    addFilterEntry, hfilter, policyName, hnull]
  rfl

theorem writeMetaindexBlock_named (hok : r₁.status = .ok) (hnamed : r₁.options.filterPolicy = some named)
    (hfits : HandleFits handle) : ∃ block r₂,
      BlockBuilder.initial.add r₁.options.blockRestartInterval (filterKey (env.policyName named))
        (handleBytes handle) = .ok block ∧
      r₁.writeMetaindexBlock env file handle = .ok r₂ ∧
        Writes r₁ block.finish.2 r₁.options.compression r₂ := by
  obtain ⟨filter, hfilter, -⟩ := Option.map_eq_some_iff.mp hbuilt
  obtain ⟨block, hadd, -⟩ := BlockBuilder.add_grows .initial r₁.options.blockRestartInterval
    (filterKey (env.policyName named)) (handleBytes handle)
  have hentry : r₁.addFilterEntry env .initial handle = .ok block := by
    have hname : r₁.policyName env = .ok (env.policyName named) := by
      rw [policyName, hnamed]
      rfl
    rw [addFilterEntry, hfilter, Option.isSome_some, if_pos rfl, hname, ok_bind,
      encodeTo_eq handle [] hfits, ok_bind, List.nil_append, hadd]
  obtain ⟨r₂, hwrite, hwrites⟩ := writeBlock_writes env file r₁ block hok
  refine ⟨block, r₂, hadd, ?_, hwrites⟩
  rw [writeMetaindexBlock, BlockBuilder.new_eq hinterval, ok_bind,
    hentry, ok_bind, hwrite]
  rfl

end Metaindex

theorem finish_null (h : Waiting comparator last r) (hpolicy : r.builtWith = some policy)
    (hbefore : r.beforeMetaindex env file = .ok (r₁, handle)) (hok : r₁.status = .ok)
    (hnull : r.options.filterPolicy = none) : r.finish env file = .error .outOfBounds := by
  obtain ⟨r₁', handle', hbefore', hoptions, hbuilt, -⟩ := beforeMetaindex_ends env file h hpolicy
  obtain ⟨rfl, rfl⟩ := Prod.mk.inj (Except.ok.inj (hbefore.symm.trans hbefore'))
  have hmeta := @writeMetaindexBlock_null env file policy r₁ handle hbuilt
    (by rw [hoptions]; exact h.interval_pos) (by rw [hoptions]; exact hnull)
  rw [finish_split, hbefore, ok_bind]
  dsimp only
  rw [ifOk, if_pos hok, hmeta]
  rfl

-- What is recorded is the name of the policy in the options of the moment.
theorem finish_records (h : Waiting comparator last r) (hpolicy : r.builtWith = some policy)
    (hbefore : r.beforeMetaindex env file = .ok (r₁, handle)) (hok : r₁.status = .ok)
    (hnamed : r.options.filterPolicy = some named) : RecordsFilter env file r named := by
  obtain ⟨r₁', handle', hbefore', hoptions, hbuilt, hexact, hfits⟩ :=
    beforeMetaindex_ends env file h hpolicy
  obtain ⟨rfl, rfl⟩ := Prod.mk.inj (Except.ok.inj (hbefore.symm.trans hbefore'))
  obtain ⟨block, r₂, hadd, hmeta, hwrites⟩ := writeMetaindexBlock_named env file hbuilt
    (by rw [hoptions]; exact h.interval_pos) hok (by rw [hoptions]; exact hnamed) (hfits hok)
  obtain ⟨s, later, hlog⟩ := hwrites.appends
  rw [hoptions] at hadd
  by_cases hok₂ : r₂.status = .ok
  · obtain ⟨r₃, r₄, hindex, henters, hlast⟩ := writeIndexBlock_writes env file r₂ hok₂
      (hexact.writes hok hwrites).pending_fits
    obtain ⟨rest, hrest⟩ := henters.continues.log_le.trans hlast.continues.log_le
    refine ⟨r₁, handle, block, { r₄ with indexBlock := .initial }, s, later ++ rest, hbefore, hadd,
      ?_, ?_⟩
    · rw [finish_split, hbefore, ok_bind]
      dsimp only
      rw [ifOk, if_pos hok, hmeta, ok_bind, ifOk, if_pos hok₂, hindex]
      rfl
    · dsimp only
      rw [← hrest, hlog, List.append_assoc, List.cons_append]
  · refine ⟨r₁, handle, block, r₂, s, later, hbefore, hadd, ?_, hlog⟩
    rw [finish_split, hbefore, ok_bind]
    dsimp only
    rw [ifOk, if_pos hok, hmeta, ok_bind, ifOk, if_neg hok₂]
    rfl

variable {env file}

-- There is one name in the metaindex block.
theorem RecordsFilter.name_eq (h : RecordsFilter env file r policy)
    (h' : RecordsFilter env file r named) (hinterval : 1 ≤ r.options.blockRestartInterval) :
    env.policyName policy = env.policyName named := by
  obtain ⟨r₁, handle, block, r', s, later, hbefore, hadd, hfinish, hlog⟩ := h
  obtain ⟨r₁', handle', block', r'', s', later', hbefore', hadd', hfinish', hlog'⟩ := h'
  obtain ⟨rfl, rfl⟩ := Prod.mk.inj (Except.ok.inj (hbefore.symm.trans hbefore'))
  obtain ⟨rfl, -⟩ := Prod.mk.inj (Except.ok.inj (hfinish.symm.trans hfinish'))
  obtain ⟨hcall, -⟩ := List.cons.inj (List.append_cancel_left (hlog.symm.trans hlog'))
  have hbytes := FileCall.append.inj (Prod.mk.inj hcall).1
  exact List.append_cancel_left (BlockBuilder.initial_add_inj hadd hadd' hinterval hbytes)

end Finish

-- Every run up to `Finish`, as long as the file takes what comes before the metaindex block:
-- the filter is recorded under the name of the policy that built it exactly when the
-- options in force have a policy of that name.
theorem recordsFilter_iff (env : Environment) (file : WritableFile) {options : Options}
    {policy : Nat} {r₀ : TableBuilder} (hnew : TableBuilder.new env options = .ok r₀)
    (hfilter : options.filterPolicy = some policy) (calls : List Call)
    (hlegal : Legal (env.comparator options.comparator) none (calls ++ [.finish])) :
    ∃ r r₁ handle, r₀.run env file calls = .ok r ∧ r.builtWith = some policy ∧
      r.beforeMetaindex env file = .ok (r₁, handle) ∧ (r₁.log.AllOk →
        (RecordsFilter env file r policy ↔ ∃ named,
          (optionsInForce options calls).filterPolicy = some named ∧
            env.policyName named = env.policyName policy)) := by
  obtain ⟨hwaiting, hbuilt₀, hoptions₀⟩ := new_waiting env hnew
  obtain ⟨r, last, hrun, hlast, hbuilt₁, hoptions⟩ := hwaiting.run env file calls hlegal
  have hbuilt : r.builtWith = some policy := (hbuilt₁.trans hbuilt₀).trans hfilter
  obtain ⟨r₁, handle, hbefore, -, -, hexact, -⟩ := beforeMetaindex_ends env file hlast hbuilt
  refine ⟨r, r₁, handle, hrun, hbuilt, hbefore, fun hall => ?_⟩
  have hok := hexact.log_ok.mpr hall
  rw [← hoptions₀, ← hoptions]
  constructor
  · intro hrecords
    cases hpolicy : r.options.filterPolicy with
    | none =>
        obtain ⟨_, _, _, r', _, _, _, _, hfinish, _⟩ := hrecords
        rw [finish_null env file hlast hbuilt hbefore hok hpolicy] at hfinish
        cases hfinish
    | some named =>
        have hnamed := finish_records env file hlast hbuilt hbefore hok hpolicy
        exact ⟨named, rfl, hnamed.name_eq hrecords hlast.interval_pos⟩
  · rintro ⟨named, hpolicy, hname⟩
    have hnamed := finish_records env file hlast hbuilt hbefore hok hpolicy
    unfold RecordsFilter at hnamed ⊢
    rwa [hname] at hnamed

def filterEnvironment : Environment :=
  { sampleEnvironment with policyName := fun policy => [UInt8.ofNat policy] }

def filterOptions : Options := { sampleOptions with filterPolicy := some 7 }

def filterCalls : List Call := [.add [1] [2], .changeOptions { filterOptions with blockSize := 100 }]

theorem recordsFilter_iff_sample : ∃ r₀ r, TableBuilder.new filterEnvironment filterOptions = .ok r₀ ∧
    r₀.run filterEnvironment reliable filterCalls = .ok r ∧
      RecordsFilter filterEnvironment reliable r 7 := by
  obtain ⟨r₀, hnew⟩ : ∃ r₀, TableBuilder.new filterEnvironment filterOptions = .ok r₀ := ⟨_, rfl⟩
  have hlegal : Legal bytewiseComparator none (filterCalls ++ [.finish]) := by
    simp only [filterCalls, List.cons_append, List.nil_append, Legal]
    decide
  obtain ⟨r, r₁, handle, hrun, -, hbefore, hiff⟩ :=
    recordsFilter_iff filterEnvironment reliable hnew rfl filterCalls hlegal
  refine ⟨r₀, r, hnew, hrun, (hiff ?_).mpr ⟨7, rfl, rfl⟩⟩
  have hall : (do
      let r ← TableBuilder.new filterEnvironment filterOptions
      let r ← r.run filterEnvironment reliable filterCalls
      let (r, _) ← r.beforeMetaindex filterEnvironment reliable
      pure (decide r.log.AllOk)) = (.ok true : Exec Bool) := by
    decide +kernel
  rw [hnew, ok_bind, hrun, ok_bind, hbefore] at hall
  exact of_decide_eq_true (Except.ok.inj hall)

-- The options without a policy are accepted, and `Finish` goes through the null pointer.
theorem filter_unrecorded : ∃ r₀ r r₁ handle,
    TableBuilder.new filterEnvironment filterOptions = .ok r₀ ∧
      (r₀.changeOptions sampleOptions).2 = .ok ∧
      r₀.run filterEnvironment reliable [.changeOptions sampleOptions] = .ok r ∧
      r.beforeMetaindex filterEnvironment reliable = .ok (r₁, handle) ∧ r₁.log.AllOk ∧
      ¬RecordsFilter filterEnvironment reliable r 7 := by
  refine ⟨_, _, _, _, rfl, rfl, rfl, rfl, by decide +kernel, ?_⟩
  rintro ⟨-, -, -, r', -, -, -, -, hfinish, -⟩
  have hfault : (do
      let r ← TableBuilder.new filterEnvironment filterOptions
      let r ← r.run filterEnvironment reliable [.changeOptions sampleOptions]
      r.finish filterEnvironment reliable) = .error .outOfBounds := by
    decide +kernel
  cases hfault.symm.trans hfinish

end TableBuilder

end Mylldb

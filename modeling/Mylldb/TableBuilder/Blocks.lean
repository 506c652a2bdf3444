import Mathlib.Data.List.Infix
import Mylldb.TableBuilder.Complete

namespace Mylldb.TableBuilder

open BlockBuilder Lib.Batches Lib.Run Lib.ThreeWay

section Sizes

variable {least most cuts : Nat} {shared : Batched Entry}
  (h : Batched.Graded (fun es => (blockOf es).currentSizeEstimate < most)
    (fun es => least ≤ (blockOf es).currentSizeEstimate) cuts shared)
include h

-- What is in no block yet is smaller than a block, or nothing.
theorem size_rest_lt : (blockOf shared.rest).currentSizeEstimate < max most 9 := by
  rcases h.rest_low with hnil | hlow
  · rw [hnil]
    exact lt_max_of_lt_right (by decide)
  · exact lt_max_of_lt_left hlow

-- Only its last entry brings a block to the limit.
theorem size_closed_lt {es : List Entry} (hes : es ∈ shared.closed) {e : Bytes × Bytes}
    (he : e ∈ (es.map Entry.pair).getLast?) :
    (blockOf es).finish.2.length < max most 9 + e.1.length + e.2.length + 19 := by
  obtain ⟨before, last, rfl⟩ :=
    (List.eq_nil_or_concat' es).resolve_left (h.nonempty es hes)
  rw [List.map_append, List.map_singleton, List.getLast?_concat] at he
  obtain rfl := Option.some.inj he
  have hbefore : (blockOf before).currentSizeEstimate < max most 9 := by
    have hlow := h.low _ hes
    rw [List.dropLast_concat] at hlow
    rcases hlow with hnil | hlow
    · rw [hnil]
      exact lt_max_of_lt_right (by decide)
    · exact lt_max_of_lt_left hlow
  have hsize := (add_size (add_blockOf before last)).2
  rw [← currentSizeEstimate_eq]
  dsimp only [Entry.pair]
  omega

-- A block that is smaller than any limit was asked for.
theorem countP_small_le :
    (shared.closed.map Plan.content).countP (fun c => c.2.length < least) ≤ cuts := by
  rw [List.countP_map]
  refine (List.countP_mono_left fun es _ hes => ?_).trans h.few
  have hlt : (blockOf es).finish.2.length < least := of_decide_eq_true hes
  rw [← currentSizeEstimate_eq] at hlt
  exact decide_eq_true (not_le.mpr hlt)

end Sizes

-- Before the last call a block is only cut short by `Flush`.
theorem countP_cuts {cmp : Comparator} {last : Option Bytes} {calls : List Call}
    (hlegal : Legal cmp last (calls ++ [.finish])) :
    calls.countP Plan.cuts = calls.count .flush := by
  induction calls generalizing last with
  | nil => rfl
  | cons c calls ih =>
      have hmore : calls ++ [Call.finish] ≠ [] := by simp
      rw [List.countP_cons, List.count_cons]
      cases c with
      | add key value =>
          rw [ih hlegal.2]
          rfl
      | flush =>
          rw [ih hlegal]
          rfl
      | changeOptions options =>
          rw [ih hlegal.2]
          rfl
      | finish => exact absurd hlegal hmore
      | abandon => exact absurd hlegal hmore

-- The type byte of a block is whatever the options say.
def AnyType (_ : CompressionType) : Prop := True

theorem anyType_inForce (options : Options) (calls before : List Call) (_ : before <+: calls) :
    AnyType (optionsInForce options before).compression := trivial

section Runs

variable (env : Environment) (file : WritableFile) {options : Options} {r : TableBuilder}
  (hnew : TableBuilder.new env options = .ok r)
  (hc : TotalPreorder (env.comparator options.comparator).compare)
  (hsep : (env.comparator options.comparator).Separates)
  (hone : ∀ key, (env.comparator options.comparator).compare key
    (env.findShortestSeparator options.comparator key) ≤ 0) (calls : List Call)
  (hlegal : Legal (env.comparator options.comparator) none (calls ++ [.finish]))
  (hpolicy : options.filterPolicy.isSome = true →
    (optionsInForce options calls).filterPolicy.isSome = true)
include hnew hc hsep hlegal

-- The data block between two calls holds what the plan has put into no block.
theorem run_dataBlock {r₁ : TableBuilder} (hrun : r.run env file calls = .ok r₁)
    (hall : r₁.log.AllOk) : r₁.dataBlock = blockOf (planned options calls).rest := by
  obtain ⟨r₂, hrun₂, -, -, -, hkept⟩ := run_keeps env file hnew hc hsep calls hlegal
    (anyType_inForce options calls)
  obtain rfl := Except.ok.inj (hrun₂.symm.trans hrun)
  obtain ⟨d, hkeeps⟩ := hkept hall
  exact hkeeps.dataBlock_eq

include hone hpolicy

-- The data blocks are those that the plan makes of the calls: what a block holds and its
-- bytes follow from the calls alone.
theorem finished_planned :
    ∃ r₁ r', r.run env file calls = .ok r₁ ∧ r₁.finish env file = .ok (r', none) ∧
      (r₁.log.AllOk → r₁.dataBlock = blockOf (planned options calls).rest) ∧
      (r'.log.AllOk → ∃ (blocks : List IndexedBlock) (footer : Footer),
        Complete AnyType env (env.comparator options.comparator) (entriesOf calls)
          (optionsInForce options calls).filterPolicy (heardFilter options blocks)
          r'.log.contents blocks footer ∧
        blocks.map (·.toDataBlock.content) =
          (planned options (calls ++ [.finish])).closed.map Plan.content) := by
  obtain ⟨r₁, r', hrun, hfinish, hcomplete⟩ := finished_complete env file hnew hc hsep hone calls
    hlegal (anyType_inForce options calls) hpolicy
  exact ⟨r₁, r', hrun, hfinish, run_dataBlock env file hnew hc hsep calls hlegal hrun,
    fun hall => (hcomplete hall).2⟩

-- Blocks keep to the size in the options. None goes beyond it by more than its last entry,
-- with 19 bytes of lengths and restart points, and those that stay below it are no more
-- than the flushes that a client asked for, and the last one.
theorem finished_sizes {least most : Nat}
    (hsizes : ∀ before, before <+: calls →
      least ≤ (optionsInForce options before).blockSize ∧
        (optionsInForce options before).blockSize ≤ most) :
    ∃ r₁ r', r.run env file calls = .ok r₁ ∧ r₁.finish env file = .ok (r', none) ∧
      (r₁.log.AllOk → r₁.dataBlock.currentSizeEstimate < max most 9) ∧
      (r'.log.AllOk → ∃ (blocks : List IndexedBlock) (footer : Footer),
        Complete AnyType env (env.comparator options.comparator) (entriesOf calls)
          (optionsInForce options calls).filterPolicy (heardFilter options blocks)
          r'.log.contents blocks footer ∧
        (∀ b ∈ blocks, ∀ e ∈ b.entries.getLast?,
          b.bytes.length < max most 9 + e.1.length + e.2.length + 19) ∧
        blocks.countP (fun b => b.bytes.length < least) ≤ calls.count .flush + 1) := by
  obtain ⟨r₁, r', hrun, hfinish, hcomplete⟩ := finished_complete env file hnew hc hsep hone calls
    hlegal (anyType_inForce options calls) hpolicy
  have hgraded := planned_graded calls hsizes
  refine ⟨r₁, r', hrun, hfinish, fun hall => ?_, fun hall => ?_⟩
  · rw [run_dataBlock env file hnew hc hsep calls hlegal hrun hall]
    exact size_rest_lt hgraded
  · obtain ⟨-, blocks, footer, hcomplete, hblocks⟩ := hcomplete hall
    rw [planned_concat] at hblocks
    have hclosed := hgraded.cut
    rw [countP_cuts hlegal] at hclosed
    change Batched.Graded _ _ _ ((planned options calls).act .finish).toBatched at hclosed
    refine ⟨blocks, footer, hcomplete, fun b hb e he => ?_, ?_⟩
    · have hmem : b.toDataBlock.content ∈ blocks.map (·.toDataBlock.content) :=
        List.mem_map_of_mem hb
      rw [hblocks] at hmem
      obtain ⟨es, hes, hcontent⟩ := List.mem_map.mp hmem
      obtain ⟨hentries, hbytes⟩ := Prod.mk.inj hcontent
      rw [← hentries] at he
      rw [← hbytes]
      exact size_closed_lt hclosed hes he
    · have hfew := countP_small_le hclosed
      rw [← hblocks, List.countP_map] at hfew
      exact hfew

end Runs

-- The third entry fills the first block, the second block is asked for, and the last one
-- ends with `Finish`.
def plannedCalls : List Call :=
  [.add [1] [7], .add [1, 1] [8], .add [2] [], .add [3] [9], .flush,
    .changeOptions { filterOptions with blockSize := 30 }, .add [4] [1]]

section Sample

theorem plannedCalls_legal : Legal bytewiseComparator none (plannedCalls ++ [.finish]) := by
  simp only [plannedCalls, List.cons_append, List.nil_append, Legal]
  decide

theorem plannedCalls_stored {r r₁ r' : TableBuilder}
    (hnew : TableBuilder.new filterEnvironment filterOptions = .ok r)
    (hrun : r.run filterEnvironment reliable plannedCalls = .ok r₁)
    (hfinish : r₁.finish filterEnvironment reliable = .ok (r', none)) :
    r₁.log.AllOk ∧ r'.log.AllOk := by
  have hchecked : (TableBuilder.new filterEnvironment filterOptions >>= fun r =>
      r.run filterEnvironment reliable plannedCalls >>= fun r₁ =>
        (r₁.finish filterEnvironment reliable).map fun f =>
          decide (r₁.log.AllOk ∧ f.1.log.AllOk)) = .ok true := by
    decide +kernel
  rw [hnew, ok_bind, hrun, ok_bind, hfinish] at hchecked
  exact of_decide_eq_true (Except.ok.inj hchecked)

theorem finished_planned_sample : ∃ r r₁ r', ∃ blocks : List IndexedBlock,
    TableBuilder.new filterEnvironment filterOptions = .ok r ∧
      r.run filterEnvironment reliable plannedCalls = .ok r₁ ∧
        r₁.finish filterEnvironment reliable = .ok (r', none) ∧
          r₁.dataBlock = blockOf [⟨16, [4], [1]⟩] ∧
          blocks.map (fun b => b.entries) =
            [[([1], [7]), ([1, 1], [8]), ([2], [])], [([3], [9])], [([4], [1])]] := by
  obtain ⟨r, hnew⟩ : ∃ r, TableBuilder.new filterEnvironment filterOptions = .ok r := ⟨_, rfl⟩
  obtain ⟨r₁, r', hrun, hfinish, hrest, hplanned⟩ := finished_planned filterEnvironment reliable
    hnew Slice.compare_totalOrder.toTotalPreorder bytewiseComparator_separates
    (fun key => (Slice.compare_totalOrder.refl key).le) plannedCalls plannedCalls_legal
    (fun _ => rfl)
  obtain ⟨hall₁, hall⟩ := plannedCalls_stored hnew hrun hfinish
  obtain ⟨blocks, footer, -, hblocks⟩ := hplanned hall
  have hentries := congrArg (List.map Prod.fst) hblocks
  rw [List.map_map, List.map_map] at hentries
  refine ⟨r, r₁, r', blocks, hnew, hrun, hfinish, (hrest hall₁).trans ?_, hentries.trans ?_⟩
  · decide +kernel
  · decide +kernel

theorem finished_sizes_sample : ∃ r r₁ r', ∃ blocks : List IndexedBlock,
    TableBuilder.new filterEnvironment filterOptions = .ok r ∧
      r.run filterEnvironment reliable plannedCalls = .ok r₁ ∧
        r₁.finish filterEnvironment reliable = .ok (r', none) ∧
          r₁.dataBlock.currentSizeEstimate < 30 ∧
          (∀ b ∈ blocks, ∀ e ∈ b.entries.getLast?,
            b.bytes.length < max 30 9 + e.1.length + e.2.length + 19) ∧
          blocks.countP (fun b => b.bytes.length < 20) ≤ 2 := by
  obtain ⟨r, hnew⟩ : ∃ r, TableBuilder.new filterEnvironment filterOptions = .ok r := ⟨_, rfl⟩
  have hsizes (before : List Call) (hbefore : before <+: plannedCalls) :
      20 ≤ (optionsInForce filterOptions before).blockSize ∧
        (optionsInForce filterOptions before).blockSize ≤ 30 := by
    have hall : ∀ before ∈ plannedCalls.inits,
        20 ≤ (optionsInForce filterOptions before).blockSize ∧
          (optionsInForce filterOptions before).blockSize ≤ 30 := by decide
    exact hall before ((List.mem_inits _ _).mpr hbefore)
  obtain ⟨r₁, r', hrun, hfinish, hrest, hplanned⟩ := finished_sizes filterEnvironment reliable
    hnew Slice.compare_totalOrder.toTotalPreorder bytewiseComparator_separates
    (fun key => (Slice.compare_totalOrder.refl key).le) plannedCalls plannedCalls_legal
    (fun _ => rfl) hsizes
  obtain ⟨hall₁, hall⟩ := plannedCalls_stored hnew hrun hfinish
  obtain ⟨blocks, footer, -, hsize, hfew⟩ := hplanned hall
  exact ⟨r, r₁, r', blocks, hnew, hrun, hfinish, hrest hall₁, hsize, hfew⟩

end Sample

-- What a builder that has failed does with entries: they go to the data block, which no
-- call empties any more, and nothing goes to the file.
structure Buffers (r : TableBuilder) (entries : List (Bytes × Bytes)) (r' : TableBuilder) :
    Prop where
  status_eq : r'.status = r.status
  log_eq : r'.log = r.log
  kept : ∃ adds : List Addition, adds.map Addition.pair = entries ∧
    r.dataBlock.addAll adds = .ok r'.dataBlock
  size_le : r.dataBlock.currentSizeEstimate + (entries.map fun e => e.2.length + 3).sum ≤
    r'.dataBlock.currentSizeEstimate

section Failed

variable {env : Environment} {r r' r'' : TableBuilder} {comparator : Nat} {last : Option Bytes}

theorem Buffers.refl (r : TableBuilder) : Buffers r [] r :=
  ⟨rfl, rfl, ⟨[], rfl, rfl⟩, Nat.le_refl _⟩

theorem Buffers.trans {entries more : List (Bytes × Bytes)} (h : Buffers r entries r')
    (h' : Buffers r' more r'') : Buffers r (entries ++ more) r'' where
  status_eq := h'.status_eq.trans h.status_eq
  log_eq := h'.log_eq.trans h.log_eq
  kept := by
    obtain ⟨adds, hadds, hblock⟩ := h.kept
    obtain ⟨adds', hadds', hblock'⟩ := h'.kept
    refine ⟨adds ++ adds', by rw [List.map_append, hadds, hadds'], ?_⟩
    unfold addAll at *
    rw [List.foldlM_append, hblock, ok_bind, hblock']
  size_le := by
    have hle := h.size_le
    have hle' := h'.size_le
    rw [List.map_append, List.sum_append]
    omega

-- A flush of a builder that has failed does nothing.
theorem Flushes.eq_of_failed (h : Flushes r r') (hbad : r.status ≠ .ok) : r' = r := by
  cases h with
  | idle _ => rfl
  | failed r₁ hok _ _ _ => exact absurd hok hbad
  | flushed r₁ hok _ _ _ _ => exact absurd hok hbad

-- Closing a builder changes nothing else.
theorem Buffers.close (r : TableBuilder) : Buffers r [] { r with closed := true } :=
  ⟨rfl, rfl, ⟨[], rfl, rfl⟩, Nat.le_refl _⟩

theorem Waiting.buffers (h : Waiting comparator last r) (hbad : r.status ≠ .ok) {c : Call}
    (hc : c ≠ .finish) (hsteps : Steps env r c r') : Buffers r (entriesOf [c]) r' := by
  cases hsteps with
  | @add key value _ hadds =>
      obtain ⟨r₁, dataBlock, _, hindex, hadd, hflush⟩ := hadds
      have hbad₁ : (r₁.withEntry key dataBlock).status ≠ .ok := by
        change r₁.status ≠ .ok
        rwa [hindex.same.1]
      obtain rfl : r' = r₁.withEntry key dataBlock :=
        hflush.elim id fun hflushes => hflushes.eq_of_failed hbad₁
      have hblock : r₁.dataBlock = r.dataBlock := by
        cases hindex <;> rfl
      rw [hblock, hindex.continues.options_eq] at hadd
      refine ⟨hindex.same.1, hindex.same.2.1, ⟨[⟨_, key, value, h.interval_pos⟩], rfl, ?_⟩, ?_⟩
      · simp only [addAll, List.foldlM_cons, List.foldlM_nil, hadd]
        rfl
      · have hsize := (add_size hadd).1
        rwa [Nat.add_assoc] at hsize
  | flush hflushes =>
      rw [hflushes.eq_of_failed hbad]
      exact .refl r
  | changeOptions =>
      rw [changeOptions_same]
      exact ⟨rfl, rfl, ⟨[], rfl, rfl⟩, Nat.le_refl _⟩
  | finish _ => exact absurd rfl hc
  | abandon => exact .close r

variable (env) (file : WritableFile)

-- Nothing is left of `Finish` but the mark that the builder is closed.
theorem finish_failed (hclosed : r.closed = false) (hbad : r.status ≠ .ok) :
    r.finish env file = .ok ({ r with closed := true }, none) := by
  have hflush : r.flush env file = .ok r := by
    rw [TableBuilder.flush, assertThat_pos hclosed, ok_bind, if_pos hbad, pure_eq]
  unfold TableBuilder.finish
  rw [hflush, ok_bind, assertThat_pos hclosed, ok_bind]
  dsimp only
  rw [writeFilterBlock_failed env file (r := { r with closed := true }) hbad, ok_bind]
  dsimp only
  rw [ifOk, if_neg hbad, pure_eq, ok_bind, ifOk, if_neg hbad]
  rfl

-- No legal call of a builder that has failed trips over an assertion.
theorem Waiting.step_buffers (h : Waiting comparator last r) (hbad : r.status ≠ .ok) {c : Call}
    {calls : List Call} (hlegal : Legal (env.comparator comparator) last (c :: calls)) :
    ∃ r', r.step env file c = .ok r' ∧ Buffers r (entriesOf [c]) r' := by
  by_cases hc : c = .finish
  · subst hc
    refine ⟨_, ?_, .close r⟩
    rw [TableBuilder.step, finish_failed env file h.closed_eq hbad]
    rfl
  · obtain ⟨r', hstep, hsteps⟩ := h.step env file c hc calls hlegal
    exact ⟨r', hstep, h.buffers hbad hc hsteps⟩

theorem Waiting.run_buffers (h : Waiting comparator last r) (hbad : r.status ≠ .ok)
    (calls : List Call) (hlegal : Legal (env.comparator comparator) last calls) :
    ∃ r', r.run env file calls = .ok r' ∧ Buffers r (entriesOf calls) r' := by
  induction calls generalizing last r with
  | nil => exact ⟨r, rfl, .refl r⟩
  | cons c calls ih =>
      obtain ⟨r₁, hstep, hbuffers⟩ := h.step_buffers env file hbad hlegal
      obtain ⟨r', hrun, hrest⟩ : ∃ r', r₁.run env file calls = .ok r' ∧
          Buffers r₁ (entriesOf calls) r' := by
        by_cases hlast : calls = []
        · subst hlast
          exact ⟨r₁, rfl, .refl r₁⟩
        · obtain ⟨r₂, hstep₂, -, hnext, hlegal', -⟩ := h.advance env file hlast hlegal
          obtain rfl := Except.ok.inj (hstep₂.symm.trans hstep)
          exact ih hnext (hbuffers.status_eq ▸ hbad) hlegal'
      refine ⟨r', ?_, ?_⟩
      · rw [TableBuilder.run, List.foldlM_cons, hstep]
        exact hrun
      · have hall := hbuffers.trans hrest
        rwa [← entriesOf_append] at hall

-- The induction is on the calls before the failure.
theorem Waiting.run_failed (h : Waiting comparator last r) (calls more : List Call)
    (hlegal : Legal (env.comparator comparator) last (calls ++ more)) {r₁ : TableBuilder}
    (hrun : r.run env file calls = .ok r₁) (hbad : r₁.status ≠ .ok) :
    ∃ r₂, r₁.run env file more = .ok r₂ ∧ Buffers r₁ (entriesOf more) r₂ := by
  induction calls generalizing last r with
  | nil =>
      obtain rfl := Except.ok.inj hrun
      exact h.run_buffers env file hbad more hlegal
  | cons c calls ih =>
      by_cases hlast : calls ++ more = []
      · obtain ⟨-, rfl⟩ := List.append_eq_nil_iff.mp hlast
        exact ⟨r₁, rfl, .refl r₁⟩
      · obtain ⟨r', hstep, -, hnext, hlegal', -⟩ := h.advance env file hlast hlegal
        rw [TableBuilder.run, List.foldlM_cons, hstep, ok_bind] at hrun
        exact ih hnext hlegal' hrun

end Failed

-- Once an operation of the file has failed, the data block takes every later entry and is
-- never emptied, and `Finish` and `Abandon` leave it and the file as they are.
theorem failed_buffers (env : Environment) (file : WritableFile) {options : Options}
    {r r₁ : TableBuilder} (hnew : TableBuilder.new env options = .ok r) (calls more : List Call)
    (hlegal : Legal (env.comparator options.comparator) none (calls ++ more))
    (hrun : r.run env file calls = .ok r₁) (hbad : r₁.status ≠ .ok) :
    ∃ r₂, r₁.run env file more = .ok r₂ ∧ Buffers r₁ (entriesOf more) r₂ :=
  (new_waiting env hnew).1.run_failed env file calls more hlegal hrun hbad

-- The trailer of the second data block cannot be written.
def failedCalls : List Call := [.add [1] [7], .flush, .add [2] [8], .flush]

def laterCalls : List Call := [.add [3] [9, 9], .flush, .add [4] [], .finish]

theorem failed_buffers_sample : ∃ r r₁ r₂,
    TableBuilder.new filterEnvironment filterOptions = .ok r ∧
      r.run filterEnvironment fullDisk failedCalls = .ok r₁ ∧
        r₁.run filterEnvironment fullDisk laterCalls = .ok r₂ ∧
          Buffers r₁ [([3], [9, 9]), ([4], [])] r₂ := by
  obtain ⟨r, hnew⟩ : ∃ r, TableBuilder.new filterEnvironment filterOptions = .ok r := ⟨_, rfl⟩
  have hchecked : (TableBuilder.new filterEnvironment filterOptions >>= fun r =>
      r.run filterEnvironment fullDisk failedCalls >>= fun r₁ =>
        .ok (decide (r₁.status ≠ .ok))) = .ok true := by
    decide +kernel
  rw [hnew, ok_bind] at hchecked
  obtain ⟨r₁, hrun, hstatus⟩ := bind_eq_ok.mp hchecked
  have hbad : r₁.status ≠ .ok := of_decide_eq_true (Except.ok.inj hstatus)
  have hlegal : Legal bytewiseComparator none (failedCalls ++ laterCalls) := by
    simp only [failedCalls, laterCalls, List.cons_append, List.nil_append, Legal]
    decide
  obtain ⟨r₂, hrun₂, hkept⟩ := failed_buffers filterEnvironment fullDisk hnew failedCalls
    laterCalls hlegal hrun hbad
  exact ⟨r, r₁, r₂, hnew, hrun, hrun₂, hkept⟩

end Mylldb.TableBuilder

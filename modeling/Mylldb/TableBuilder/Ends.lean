import Mylldb.TableBuilder.Filter

namespace Mylldb.TableBuilder

open Lib.Run

-- The filter block, when there is one, with the handle of what was written for it.
inductive WritesFilter (env : Environment) (r : TableBuilder) :
    TableBuilder → BlockHandle → Prop where
  | none (h : r.filterBlock = none) : WritesFilter env r r env.blockHandle
  | some (filter : FilterBlockBuilder) (h : r.filterBlock = some filter) (r' : TableBuilder)
      (hwrites : Writes r (env.finishFilter filter) .kNoCompression r') :
      WritesFilter env r r' ⟨r.offset, (env.finishFilter filter).length⟩

-- The metaindex block: empty, or with one entry that leads to the filter.
inductive Metaindex (env : Environment) (r : TableBuilder) (handle : BlockHandle) :
    BlockBuilder → Prop where
  | empty (h : r.filterBlock = none) : Metaindex env r handle .initial
  | entry (policy : Nat) (h : r.filterBlock.isSome = true)
      (hpolicy : r.options.filterPolicy = some policy) (block : BlockBuilder)
      (hadd : BlockBuilder.initial.add r.options.blockRestartInterval
        (filterKey (env.policyName policy)) (handleBytes handle) = .ok block) :
      Metaindex env r handle block

-- What `Finish` can do, with a filter or without one: every part is written as
-- long as nothing fails.
inductive Ends (env : Environment) (r : TableBuilder) : TableBuilder → Prop where
  | flush (r₁ : TableBuilder) (hflush : Flushes r r₁) (h₁ : r₁.status ≠ .ok) :
      Ends env r { r₁ with closed := true }
  | filter (r₁ r₂ : TableBuilder) (handle : BlockHandle) (hflush : Flushes r r₁)
      (h₁ : r₁.status = .ok) (hfilter : WritesFilter env { r₁ with closed := true } r₂ handle)
      (h₂ : r₂.status ≠ .ok) : Ends env r r₂
  | metaindex (r₁ r₂ r₃ : TableBuilder) (handle : BlockHandle) (block : BlockBuilder)
      (hflush : Flushes r r₁) (h₁ : r₁.status = .ok)
      (hfilter : WritesFilter env { r₁ with closed := true } r₂ handle) (h₂ : r₂.status = .ok)
      (hentry : Metaindex env r₂ handle block)
      (hmeta : Writes r₂ block.finish.2 r₂.options.compression r₃) (h₃ : r₃.status ≠ .ok) :
      Ends env r r₃
  | index (r₁ r₂ r₃ r₄ r₅ : TableBuilder) (handle : BlockHandle) (block : BlockBuilder)
      (hflush : Flushes r r₁) (h₁ : r₁.status = .ok)
      (hfilter : WritesFilter env { r₁ with closed := true } r₂ handle) (h₂ : r₂.status = .ok)
      (hentry : Metaindex env r₂ handle block)
      (hmeta : Writes r₂ block.finish.2 r₂.options.compression r₃) (h₃ : r₃.status = .ok)
      (hindex : EntersIndex r₃ (env.findShortestSeparator r₃.options.comparator r₃.lastKey) r₄)
      (hwrite : Writes r₄ r₄.indexBlock.finish.2 r₄.options.compression r₅) :
      Ends env r { r₅ with indexBlock := .initial }

section Parts

variable {env : Environment} {r r' : TableBuilder} {handle : BlockHandle}

theorem WritesFilter.continues (h : WritesFilter env r r' handle) : Continues r r' := by
  cases h with
  | none h => exact .refl r
  | some filter h _ hwrites => exact hwrites.continues

-- A filter block leaves everything but the log, the status and the offset as it was.
theorem WritesFilter.eq (h : WritesFilter env r r' handle) :
    r' = { r with log := r'.log, status := r'.status, offset := r'.offset } := by
  cases h with
  | none h => rfl
  | some filter h _ hwrites => exact hwrites.eq

theorem WritesFilter.builtWith (h : WritesFilter env r r' handle) :
    r'.builtWith = r.builtWith := by
  rw [h.eq]
  rfl

theorem Exact.writesFilter (h : Exact r) (hok : r.status = .ok)
    (hfilter : WritesFilter env r r' handle) : Exact r' := by
  cases hfilter with
  | none _ => exact h
  | some filter _ _ hwrites => exact h.writes hok hwrites

-- The handle of a filter block passes the assertions of `EncodeTo`.
theorem WritesFilter.handleFits (h : WritesFilter env r r' handle) (hexact : Exact r)
    (hok : r.status = .ok) (hok' : r'.status = .ok) (hsome : r'.filterBlock.isSome = true) :
    HandleFits handle := by
  cases h with
  | none h =>
      rw [h] at hsome
      cases hsome
  | some filter _ _ hwrites => exact hexact.handleFits hok hwrites hok'

theorem Ends.log_le (h : Ends env r r') : r.log <+: r'.log := by
  cases h with
  | flush r₁ hflush h₁ => exact hflush.continues.log_le
  | filter r₁ _ handle hflush h₁ hfilter h₂ =>
      exact hflush.continues.log_le.trans hfilter.continues.log_le
  | metaindex r₁ r₂ _ handle block hflush h₁ hfilter h₂ hentry hmeta h₃ =>
      apply hflush.continues.log_le.trans
      exact hfilter.continues.log_le.trans hmeta.continues.log_le
  | index r₁ r₂ r₃ r₄ r₅ handle block hflush h₁ hfilter h₂ hentry hmeta h₃ hindex hwrite =>
      apply hflush.continues.log_le.trans
      apply hfilter.continues.log_le.trans
      apply hmeta.continues.log_le.trans
      exact hindex.continues.log_le.trans hwrite.continues.log_le

-- Nothing is written once the flush at the start has failed.
theorem Ends.sticks (h : Ends env r r') : Sticks r r' := by
  cases h with
  | flush r₁ hflush h₁ => exact hflush.sticks
  | filter r₁ _ handle hflush h₁ _ _ =>
      exact fun hbad => absurd ((hflush.sticks hbad).1.symm.trans h₁) hbad
  | metaindex r₁ r₂ _ handle block hflush h₁ _ _ _ _ _ =>
      exact fun hbad => absurd ((hflush.sticks hbad).1.symm.trans h₁) hbad
  | index r₁ r₂ r₃ r₄ r₅ handle block hflush h₁ _ _ _ _ _ _ _ =>
      exact fun hbad => absurd ((hflush.sticks hbad).1.symm.trans h₁) hbad

theorem Exact.ends (h : Exact r) (hends : Ends env r r') : Exact r' := by
  cases hends with
  | flush r₁ hflush h₁ => exact (h.flushes hflush).close
  | filter r₁ _ handle hflush h₁ hfilter h₂ => exact (h.flushes hflush).close.writesFilter h₁ hfilter
  | metaindex r₁ r₂ _ handle block hflush h₁ hfilter h₂ hentry hmeta h₃ =>
      exact ((h.flushes hflush).close.writesFilter h₁ hfilter).writes h₂ hmeta
  | index r₁ r₂ r₃ r₄ r₅ handle block hflush h₁ hfilter h₂ hentry hmeta h₃ hindex hwrite =>
      have hmetas := ((h.flushes hflush).close.writesFilter h₁ hfilter).writes h₂ hmeta
      have hwritten := (hmetas.entersIndex hindex).writes (hindex.same.1.trans h₃) hwrite
      exact ⟨hwritten.stops, hwritten.offset_eq, hwritten.pending_empty, hwritten.pending_fits⟩

theorem EntersIndex.numEntries_eq {separator : Bytes} (h : EntersIndex r separator r') :
    r'.numEntries = r.numEntries := by
  cases h with
  | none h => rfl
  | entry h indexBlock hadd => rfl

theorem Ends.same (h : Ends env r r') : r'.closed = true ∧ r'.numEntries = r.numEntries := by
  cases h with
  | flush r₁ hflush h₁ => exact ⟨rfl, hflush.same.2⟩
  | filter r₁ _ handle hflush h₁ hfilter h₂ =>
      rw [hfilter.eq]
      exact ⟨rfl, hflush.same.2⟩
  | metaindex r₁ r₂ _ handle block hflush h₁ hfilter h₂ hentry hmeta h₃ =>
      rw [hmeta.eq, hfilter.eq]
      exact ⟨rfl, hflush.same.2⟩
  | index r₁ r₂ r₃ r₄ r₅ handle block hflush h₁ hfilter h₂ hentry hmeta h₃ hindex hwrite =>
      refine ⟨?_, ?_⟩
      · have hclosed := hwrite.continues.closed_eq.trans hindex.continues.closed_eq
        exact hclosed.trans (hmeta.continues.closed_eq.trans hfilter.continues.closed_eq)
      · dsimp only
        rw [hwrite.eq]
        dsimp only
        rw [hindex.numEntries_eq, hmeta.eq, hfilter.eq]
        exact hflush.same.2

end Parts

theorem builtWith_isSome (r : TableBuilder) : r.builtWith.isSome = r.filterBlock.isSome :=
  Option.isSome_map

section Finish

variable (env : Environment) (file : WritableFile) {comparator : Nat} {last : Option Bytes}
  {r : TableBuilder} {handle : BlockHandle}

theorem writeFilterBlock_failed (hbad : r.status ≠ .ok) :
    r.writeFilterBlock env file = .ok (r, env.blockHandle) := by
  unfold writeFilterBlock
  split
  · rfl
  · rw [if_neg hbad]
    rfl

theorem writeFilterBlock_writes (hok : r.status = .ok) :
    ∃ r' handle, r.writeFilterBlock env file = .ok (r', handle) ∧
      WritesFilter env r r' handle := by
  unfold writeFilterBlock
  split
  · rename_i hnone
    exact ⟨r, _, rfl, .none hnone⟩
  · rename_i filter hsome
    obtain ⟨r', hwrite, hwrites⟩ :=
      writeRawBlock_writes env file r (env.finishFilter filter) .kNoCompression
    rw [if_pos hok]
    exact ⟨r', _, hwrite, .some filter hsome r' hwrites⟩

-- The name is asked for through a pointer that is not NULL.
theorem writeMetaindexBlock_enters (hok : r.status = .ok)
    (hinterval : 1 ≤ r.options.blockRestartInterval)
    (hpolicy : r.filterBlock.isSome = true → r.options.filterPolicy.isSome = true)
    (hfits : r.filterBlock.isSome = true → HandleFits handle) :
    ∃ block r', r.writeMetaindexBlock env file handle = .ok r' ∧ Metaindex env r handle block ∧
      Writes r block.finish.2 r.options.compression r' := by
  cases hfilter : r.filterBlock with
  | none =>
      obtain ⟨r', hwrite, hwrites⟩ :=
        writeMetaindexBlock_writes env file r handle hok hfilter hinterval
      exact ⟨.initial, r', hwrite, .empty hfilter, hwrites⟩
  | some filter =>
      have hsome : r.filterBlock.isSome = true := by rw [hfilter]; rfl
      obtain ⟨named, hnamed⟩ := Option.isSome_iff_exists.mp (hpolicy hsome)
      have hbuilt : r.builtWith = some filter.policy := by
        rw [builtWith, hfilter]
        rfl
      obtain ⟨block, r', hadd, hwrite, hwrites⟩ :=
        writeMetaindexBlock_named env file hbuilt hinterval hok hnamed (hfits hsome)
      exact ⟨block, r', hwrite, .entry named hsome hnamed block hadd, hwrites⟩

-- `Finish` goes through when a builder that has a filter still has a policy.
theorem Waiting.finish_ends (h : Waiting comparator last r)
    (hpolicy : r.builtWith.isSome = true → r.options.filterPolicy.isSome = true) :
    ∃ r', r.finish env file = .ok (r', none) ∧ Ends env r r' := by
  obtain ⟨r₁, hflush, hflushes⟩ := flush_flushes env file r h.closed_eq h.pending_empty
  have hc := hflushes.continues
  have hexact := (h.toExact.flushes hflushes).close
  have hbefore : r.beforeMetaindex env file =
      ({ r₁ with closed := true } : TableBuilder).writeFilterBlock env file := by
    rw [beforeMetaindex, hflush, ok_bind, assertThat_pos (hc.closed_eq.trans h.closed_eq), ok_bind]
  rw [finish_split, hbefore]
  by_cases h₁ : r₁.status = .ok
  · obtain ⟨r₂, handle, hwrite, hfilter⟩ :=
      writeFilterBlock_writes env file (r := { r₁ with closed := true }) h₁
    rw [hwrite, ok_bind]
    dsimp only
    by_cases h₂ : r₂.status = .ok
    · have hexact₂ := hexact.writesFilter h₁ hfilter
      have hoptions : r₂.options = r.options := hfilter.continues.options_eq.trans hc.options_eq
      have hkept : r₂.filterBlock.isSome = true → r₂.options.filterPolicy.isSome = true := by
        intro hsome
        rw [← builtWith_isSome, hfilter.builtWith] at hsome
        rw [hoptions]
        exact hpolicy (hflushes.builtWith ▸ hsome)
      obtain ⟨block, r₃, hmeta, hentry, hmetas⟩ := writeMetaindexBlock_enters env file h₂
        (hoptions ▸ h.interval_pos) hkept (hfilter.handleFits hexact h₁ h₂)
      rw [ifOk, if_pos h₂, hmeta, ok_bind]
      by_cases h₃ : r₃.status = .ok
      · obtain ⟨r₄, r₅, hindex, henters, hwrites⟩ := writeIndexBlock_writes env file r₃ h₃
          (hexact₂.writes h₂ hmetas).pending_fits
        refine ⟨_, ?_, .index r₁ r₂ r₃ r₄ r₅ handle block hflushes h₁ hfilter h₂ hentry hmetas h₃
          henters hwrites⟩
        rw [ifOk, if_pos h₃, hindex]
        rfl
      · rw [ifOk, if_neg h₃]
        exact ⟨r₃, rfl, .metaindex r₁ r₂ r₃ handle block hflushes h₁ hfilter h₂ hentry hmetas h₃⟩
    · rw [ifOk, if_neg h₂, pure_eq, ok_bind, ifOk, if_neg h₂]
      exact ⟨r₂, rfl, .filter r₁ r₂ handle hflushes h₁ hfilter h₂⟩
  · rw [writeFilterBlock_failed env file (r := { r₁ with closed := true }) h₁, ok_bind]
    dsimp only
    rw [ifOk, if_neg h₁, pure_eq, ok_bind, ifOk, if_neg h₁]
    exact ⟨_, rfl, .flush r₁ hflushes h₁⟩

end Finish

-- One call of a builder with a filter or without one.
inductive Moves (env : Environment) (r : TableBuilder) : Call → TableBuilder → Prop where
  | step (c : Call) (r' : TableBuilder) (hc : c ≠ .finish) (h : Steps env r c r') :
      Moves env r c r'
  | finish (r' : TableBuilder) (h : Ends env r r') : Moves env r .finish r'

-- The entries that a call adds to the count.
def countOf : Call → Nat
  | .add _ _ => 1
  | _ => 0

-- The calls after which a builder may be destroyed.
def closes : Call → Bool
  | .finish => true
  | .abandon => true
  | _ => false

theorem length_entriesOf (calls : List Call) :
    (entriesOf calls).length = (calls.map countOf).sum := by
  induction calls with
  | nil => rfl
  | cons c calls ih =>
      rw [List.map_cons, List.sum_cons, ← ih]
      cases c with
      | add key value => simp [entriesOf, countOf, Nat.add_comm]
      | flush => simp [entriesOf, countOf]
      | changeOptions options => simp [entriesOf, countOf]
      | finish => simp [entriesOf, countOf]
      | abandon => simp [entriesOf, countOf]

theorem any_closes_iff {calls : List Call} :
    calls.any closes = true ↔ .finish ∈ calls ∨ .abandon ∈ calls := by
  rw [List.any_eq_true]
  constructor
  · rintro ⟨c, hc, hcloses⟩
    cases c with
    | finish => exact .inl hc
    | abandon => exact .inr hc
    | add key value => cases hcloses
    | flush => cases hcloses
    | changeOptions options => cases hcloses
  · rintro (hc | hc)
    · exact ⟨_, hc, rfl⟩
    · exact ⟨_, hc, rfl⟩

section Runs

variable {env : Environment} {r r' : TableBuilder} {c : Call}

theorem Exact.moves (h : Exact r) (hmoves : Moves env r c r') : Exact r' := by
  cases hmoves with
  | step c _ hc hsteps => exact h.steps hsteps
  | finish _ hends => exact h.ends hends

theorem Moves.sticks (h : Moves env r c r') : Sticks r r' := by
  cases h with
  | step c _ hc hsteps => exact hsteps.sticks
  | finish _ hends => exact hends.sticks

theorem Adds.numEntries_eq {key value : Bytes} (h : Adds env r key value r') :
    r'.numEntries = (r.numEntries + 1) % 2 ^ 64 := by
  obtain ⟨r₁, dataBlock, _, hindex, hadd, hflush⟩ := h
  have hentry : (r₁.withEntry key dataBlock).numEntries = (r.numEntries + 1) % 2 ^ 64 := by
    rw [← hindex.numEntries_eq]
    rfl
  rcases hflush with rfl | hflush
  · exact hentry
  · rw [hflush.same.2, hentry]

theorem Moves.numEntries_eq (h : Moves env r c r') (hlt : r.numEntries < 2 ^ 64) :
    r'.numEntries = (r.numEntries + countOf c) % 2 ^ 64 := by
  have hkept := (Nat.mod_eq_of_lt hlt).symm
  cases h with
  | step c _ hc hsteps =>
      cases hsteps with
      | add hadds => exact hadds.numEntries_eq
      | flush hflushes => exact hflushes.same.2.trans hkept
      | changeOptions =>
          rw [changeOptions_same]
          exact hkept
      | finish _ => exact absurd rfl hc
      | abandon => exact hkept
  | finish _ hends => exact hends.same.2.trans hkept

variable (env) (file : WritableFile) {comparator : Nat} {last : Option Bytes}

-- A legal call goes through, as long as a builder with a filter meets its end with a
-- policy.
theorem Waiting.move (h : Waiting comparator last r) (calls : List Call)
    (hlegal : Legal (env.comparator comparator) last (c :: calls))
    (hpolicy : c = .finish → r.builtWith.isSome = true → r.options.filterPolicy.isSome = true) :
    ∃ r', r.step env file c = .ok r' ∧ Moves env r c r' := by
  by_cases hc : c = .finish
  · obtain ⟨r', hfinish, hends⟩ := h.finish_ends env file (hpolicy hc)
    subst hc
    refine ⟨r', ?_, .finish r' hends⟩
    rw [TableBuilder.step, hfinish]
    rfl
  · obtain ⟨r', hstep, hsteps⟩ := h.step env file c hc calls hlegal
    exact ⟨r', hstep, .step c r' hc hsteps⟩

theorem Moves.closed_eq {env : Environment} (h : Moves env r c r') :
    r'.closed = (r.closed || closes c) := by
  have hkept := (Bool.or_false r.closed).symm
  cases h with
  | step c _ hc hsteps =>
      cases hsteps with
      | add hadds => exact hadds.continues.closed_eq.trans hkept
      | flush hflushes => exact hflushes.continues.closed_eq.trans hkept
      | changeOptions =>
          rw [changeOptions_same]
          exact hkept
      | finish _ => exact absurd rfl hc
      | abandon => exact (Bool.or_true r.closed).symm
  | finish _ hends => exact hends.same.1.trans (Bool.or_true r.closed).symm

-- What a state says about the calls that led to it.
structure Accounts (r : TableBuilder) (done : List Call) (s : TableBuilder) : Prop
    extends Exact s where
  sticks : Sticks r s
  numEntries_eq : s.numEntries = (r.numEntries + (done.map countOf).sum) % 2 ^ 64
  closed_eq : s.closed = (r.closed || done.any closes)

theorem Accounts.refl (h : Exact r) (hlt : r.numEntries < 2 ^ 64) : Accounts r [] r :=
  ⟨h, .refl r, (Nat.mod_eq_of_lt hlt).symm, (Bool.or_false _).symm⟩

theorem Accounts.alone (h : Exact r) (hlt : r.numEntries < 2 ^ 64) (i : Nat) (s : TableBuilder)
    (hs : [r][i]? = some s) : Accounts r (([] : List Call).take i) s := by
  obtain ⟨hi, rfl⟩ := List.getElem?_eq_some_iff.mp hs
  obtain rfl : i = 0 := by simpa using hi
  exact .refl h hlt

theorem Accounts.cons {env : Environment} {done : List Call} {s : TableBuilder}
    (hmoves : Moves env r c r') (hlt : r.numEntries < 2 ^ 64) (h : Accounts r' done s) :
    Accounts r (c :: done) s where
  toExact := h.toExact
  sticks := hmoves.sticks.trans h.sticks
  numEntries_eq := by
    rw [h.numEntries_eq, hmoves.numEntries_eq hlt, List.map_cons, List.sum_cons, Nat.mod_add_mod,
      Nat.add_assoc]
  closed_eq := by
    rw [h.closed_eq, hmoves.closed_eq, List.any_cons, Bool.or_assoc]

-- A builder with a filter still has a policy when `Finish` asks for the name.
def KeepsPolicy (r : TableBuilder) (calls : List Call) : Prop :=
  r.builtWith.isSome = true → ∀ before, calls = before ++ [.finish] →
    (optionsInForce r.options before).filterPolicy.isSome = true

theorem KeepsPolicy.tail {calls : List Call} (h : KeepsPolicy r (c :: calls))
    (hbuilt : r'.builtWith = r.builtWith) (hoptions : r'.options = acceptOptions r.options c) :
    KeepsPolicy r' calls := by
  intro hsome before hcalls
  rw [hbuilt] at hsome
  have hkept := h hsome (c :: before) (by rw [hcalls, List.cons_append])
  rw [optionsInForce, List.foldl_cons, ← hoptions] at hkept
  exact hkept

theorem Waiting.history (h : Waiting comparator last r) (hlt : r.numEntries < 2 ^ 64)
    (calls : List Call) (hlegal : Legal (env.comparator comparator) last calls)
    (hpolicy : KeepsPolicy r calls) :
    ∃ states, r.history env file calls = .ok states ∧
      (∀ i s, states[i]? = some s → Accounts r (calls.take i) s) ∧ states.Pairwise Sticks := by
  induction calls generalizing last r with
  | nil =>
      exact ⟨[r], rfl, .alone h.toExact hlt, List.pairwise_singleton _ _⟩
  | cons c calls ih =>
      obtain ⟨r', hstep, hmoves⟩ := h.move env file calls hlegal fun hc hsome => by
        have hnil : calls = [] := by
          subst hc
          exact hlegal
        exact hpolicy hsome [] (by rw [hc, hnil]; rfl)
      have hexact := h.toExact.moves hmoves
      have hlt' : r'.numEntries < 2 ^ 64 := by
        rw [hmoves.numEntries_eq hlt]
        exact Nat.mod_lt _ (by decide)
      obtain ⟨states, hhistory, hall, hpairs⟩ : ∃ states,
          r'.history env file calls = .ok states ∧
            (∀ i s, states[i]? = some s → Accounts r' (calls.take i) s) ∧
              states.Pairwise Sticks := by
        have hover (hnil : calls = []) : ∃ states, r'.history env file calls = .ok states ∧
            (∀ i s, states[i]? = some s → Accounts r' (calls.take i) s) ∧
              states.Pairwise Sticks := by
          subst hnil
          exact ⟨[r'], rfl, .alone hexact hlt', List.pairwise_singleton _ _⟩
        cases hmoves with
        | finish _ _ => exact hover hlegal
        | step c _ hc hsteps =>
            rcases h.steps hlegal hsteps with hnil | ⟨⟨hnext, hlegal'⟩, hbuilt, hoptions⟩
            · exact hover hnil
            · exact ih hnext hlt' hlegal' (hpolicy.tail hbuilt hoptions)
      refine ⟨r :: states, ?_, ?_, List.pairwise_cons.mpr ⟨?_, hpairs⟩⟩
      · rw [TableBuilder.history, hstep, ok_bind, hhistory]
        rfl
      · intro i s hs
        cases i with
        | zero =>
            obtain rfl := Option.some.inj hs
            exact .refl h.toExact hlt
        | succ i => exact (hall i s hs).cons hmoves hlt
      · intro s hs
        obtain ⟨i, hi⟩ := List.mem_iff_getElem?.mp hs
        exact hmoves.sticks.trans (hall i s hi).sticks

-- Every run of legal calls of a builder with a filter or without one, whatever the file
-- answers: the count of the entries, the size and the sticky errors, and when the
-- builder may be destroyed.
theorem run_accounts {options : Options} (hnew : TableBuilder.new env options = .ok r)
    (calls : List Call) (hlegal : Legal (env.comparator options.comparator) none calls)
    (hpolicy : options.filterPolicy.isSome = true → ∀ before, calls = before ++ [.finish] →
      (optionsInForce options before).filterPolicy.isSome = true) :
    ∃ states, r.history env file calls = .ok states ∧
      (∀ i s, states[i]? = some s → s.log.Stops s.status ∧
        (s.status = .ok → s.log.AllOk ∧ s.fileSize = s.log.contents.length) ∧
        (s.pendingIndexEntry = true → s.dataBlock.empty = true) ∧
        s.numEntries = (entriesOf (calls.take i)).length % 2 ^ 64 ∧
        (s.destroy = .ok () ↔ .finish ∈ calls.take i ∨ .abandon ∈ calls.take i)) ∧
      states.Pairwise fun s t => s.status ≠ .ok → t.status = s.status ∧ t.log = s.log := by
  obtain ⟨hwaiting, hbuilt, hoptions⟩ := new_waiting env hnew
  have hcount : r.numEntries = 0 := by
    have hnone := hwaiting.lastKey_eq
    by_contra hpos
    cases hnone (Nat.pos_of_ne_zero hpos)
  obtain ⟨states, hhistory, hall, hpairs⟩ := hwaiting.history env file (by omega) calls hlegal (by
    intro hsome
    rw [hoptions]
    exact hpolicy (hbuilt ▸ hsome))
  refine ⟨states, hhistory, fun i s hs => ?_, hpairs⟩
  have haccounts := hall i s hs
  refine ⟨haccounts.stops, fun hok => ⟨haccounts.log_ok.mp hok, haccounts.offset_eq hok⟩,
    haccounts.pending_empty, ?_, ?_⟩
  · rw [haccounts.numEntries_eq, hcount, Nat.zero_add, length_entriesOf]
  · rw [destroy, haccounts.closed_eq, hwaiting.closed_eq, Bool.false_or, any_closes_iff.symm]
    by_cases hclosed : (calls.take i).any closes = true
    · simp [hclosed]
    · simp [hclosed]

end Runs

def accountedCalls : List Call :=
  [.add [1] [7], .flush, .add [2] [8], .changeOptions { filterOptions with blockSize := 100 },
    .add [2, 0] [], .finish]

theorem run_accounts_sample : ∃ r states,
    TableBuilder.new filterEnvironment filterOptions = .ok r ∧
      r.history filterEnvironment fullDisk accountedCalls = .ok states ∧
      (∀ i s, states[i]? = some s → s.log.Stops s.status ∧
        (s.status = .ok → s.log.AllOk ∧ s.fileSize = s.log.contents.length) ∧
        (s.pendingIndexEntry = true → s.dataBlock.empty = true) ∧
        s.numEntries = (entriesOf (accountedCalls.take i)).length % 2 ^ 64 ∧
        (s.destroy = .ok () ↔
          .finish ∈ accountedCalls.take i ∨ .abandon ∈ accountedCalls.take i)) ∧
      states.Pairwise fun s t => s.status ≠ .ok → t.status = s.status ∧ t.log = s.log := by
  obtain ⟨r, hnew⟩ : ∃ r, TableBuilder.new filterEnvironment filterOptions = .ok r := ⟨_, rfl⟩
  have hlegal : Legal bytewiseComparator none accountedCalls := by
    simp only [accountedCalls, Legal]
    decide
  obtain ⟨states, hstates⟩ :=
    run_accounts filterEnvironment fullDisk hnew accountedCalls hlegal (by
      intro _ before hbefore
      have hdrop : before = accountedCalls.dropLast := by rw [hbefore, List.dropLast_concat]
      subst hdrop
      rfl)
  exact ⟨r, states, hnew, hstates⟩

end Mylldb.TableBuilder

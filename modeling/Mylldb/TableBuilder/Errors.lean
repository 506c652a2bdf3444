import Mylldb.TableBuilder.Steps

namespace Mylldb.TableBuilder

open Lib.Run

-- What the header asks of a client: a key is after the key before it, a restart
-- interval is at least 1, and no call follows `Finish` or `Abandon`.
def Legal (cmp : Comparator) : Option Bytes → List Call → Prop
  | _, [] => True
  | last, .add key _ :: calls => (∀ k ∈ last, 0 < cmp.compare key k) ∧ Legal cmp (some key) calls
  | last, .flush :: calls => Legal cmp last calls
  | last, .changeOptions options :: calls =>
      1 ≤ options.blockRestartInterval ∧ Legal cmp last calls
  | _, .finish :: calls => calls = []
  | _, .abandon :: calls => calls = []

-- The bookkeeping of a builder in any state, failed or not.
structure Exact (r : TableBuilder) : Prop where
  stops : r.log.Stops r.status
  offset_eq : r.status = .ok → r.offset = r.log.contents.length
  pending_empty : r.pendingIndexEntry = true → r.dataBlock.empty = true
  pending_fits : r.pendingIndexEntry = true → HandleFits r.pendingHandle

theorem Exact.log_ok {r : TableBuilder} (h : Exact r) : r.status = .ok ↔ r.log.AllOk :=
  h.stops.ok_iff

-- The builder waits for the next call. `last` is the key added last.
structure Ready (comparator : Nat) (last : Option Bytes) (r : TableBuilder) : Prop
    extends Exact r where
  closed_eq : r.closed = false
  filter_none : r.filterBlock = none
  interval_pos : 1 ≤ r.options.blockRestartInterval
  comparator_eq : r.options.comparator = comparator
  lastKey_eq : 0 < r.numEntries → last = some r.lastKey

-- An error stays, and the file is left alone.
def Sticks (r r' : TableBuilder) : Prop :=
  r.status ≠ .ok → r'.status = r.status ∧ r'.log = r.log

theorem Sticks.refl (r : TableBuilder) : Sticks r r := fun _ => ⟨rfl, rfl⟩

theorem Sticks.trans {r r' r'' : TableBuilder} (h : Sticks r r') (h' : Sticks r' r'') :
    Sticks r r'' := by
  intro hbad
  obtain ⟨hstatus, hlog⟩ := h hbad
  obtain ⟨hstatus', hlog'⟩ := h' (by rwa [hstatus])
  exact ⟨hstatus'.trans hstatus, hlog'.trans hlog⟩

theorem Sticks.of_ok {r r' : TableBuilder} (h : r.status = .ok) : Sticks r r' :=
  fun hbad => absurd h hbad

-- A block and its trailer are two appends.
theorem contents_block (log : FileLog) (data : Bytes) (type : CompressionType) :
    FileLog.contents (log ++ [(.append data, .ok), (.append (trailer data type), .ok)]) =
      log.contents ++ (data ++ trailer data type) := by
  rw [FileLog.contents_append]
  simp [FileLog.contents, FileLog.written]

section Steps

variable {env : Environment} {r r' : TableBuilder} {data key value separator : Bytes}
  {type : CompressionType}

-- The trailer is written when the contents are, and nothing when they are not.
theorem Writes.stops (h : Writes r data type r') (hlog : r.log.AllOk) :
    r'.log.Stops r'.status := by
  have hbody : FileLog.AllOk (r.log ++ [(.append data, .ok)]) := by simp [hlog]
  cases h with
  | body s hs => exact .append hlog _ s
  | trailer s hs =>
      have hboth := FileLog.Stops.append hbody (.append (Mylldb.trailer data type)) s
      rwa [List.append_assoc] at hboth
  | done hsize =>
      have hboth := FileLog.Stops.append hbody (.append (Mylldb.trailer data type)) .ok
      rwa [List.append_assoc] at hboth

-- A write without an error, which had room, stored the block and its trailer.
theorem Writes.stored (h : Writes r data type r') (hok : r'.status = .ok) :
    r.log.contents.length + data.length + 5 < 2 ^ 64 ∧
      r'.offset = (r.offset + (data.length + 5)) % 2 ^ 64 ∧
      r'.log.contents = r.log.contents ++ (data ++ Mylldb.trailer data type) := by
  cases h with
  | body s hs => exact absurd hok hs
  | trailer s hs => exact absurd hok hs
  | done hsize => exact ⟨hsize, rfl, contents_block r.log data type⟩

theorem Exact.writes (h : Exact r) (hok : r.status = .ok) (hwrites : Writes r data type r') :
    Exact r' where
  pending_empty := by
    rw [hwrites.eq]
    exact h.pending_empty
  pending_fits := by
    rw [hwrites.eq]
    exact h.pending_fits
  stops := hwrites.stops (h.log_ok.mp hok)
  offset_eq hok' := by
    obtain ⟨hsize, hoffset, hcontents⟩ := hwrites.stored hok'
    have hbefore := h.offset_eq hok
    rw [hoffset, hcontents, List.length_append, List.length_append, trailer_length, hbefore,
      Nat.mod_eq_of_lt (by omega)]

-- The handle of what was written passes the assertions of `EncodeTo`.
theorem Exact.handleFits (h : Exact r) (hok : r.status = .ok) (hwrites : Writes r data type r')
    (hok' : r'.status = .ok) : HandleFits ⟨r.offset, data.length⟩ := by
  have hoffset := h.offset_eq hok
  have hsize := (hwrites.stored hok').1
  unfold HandleFits
  dsimp only
  omega

theorem Flushes.sticks (h : Flushes r r') : Sticks r r' := by
  cases h with
  | idle h => exact .refl r
  | failed r₁ hok hempty hwrites h₁ => exact .of_ok hok
  | flushed r₁ hok hempty hwrites h₁ s => exact .of_ok hok

theorem Exact.flushes (h : Exact r) (hflushes : Flushes r r') : Exact r' := by
  cases hflushes with
  | idle _ => exact h
  | failed r₁ hok hempty hwrites h₁ =>
      have hexact := h.writes hok hwrites
      refine ⟨hexact.stops, fun hok' => absurd hok' h₁, fun _ => rfl, fun hpending => ?_⟩
      -- the data block had entries, so nothing was pending
      have hbefore : r.pendingIndexEntry = true := by
        rw [hwrites.eq] at hpending
        exact hpending
      rw [h.pending_empty hbefore] at hempty
      cases hempty
  | flushed r₁ hok hempty hwrites h₁ s =>
      have hexact := h.writes hok hwrites
      refine ⟨?_, fun _ => ?_, fun _ => rfl, fun _ => h.handleFits hok hwrites h₁⟩
      · exact .append (hexact.log_ok.mp h₁) .flush s
      · have hflush : FileLog.contents (r₁.log ++ [(.flush, s)]) = r₁.log.contents := by
          rw [FileLog.contents_append]
          simp [FileLog.contents, FileLog.written]
        have hoffset := hexact.offset_eq h₁
        dsimp only [startFilterBlock]
        rw [hflush, hoffset]

theorem EntersIndex.sticks (h : EntersIndex r separator r') : Sticks r r' := by
  cases h with
  | none h => exact .refl r
  | entry h indexBlock hadd => exact fun _ => ⟨rfl, rfl⟩

-- Without a pending entry only the offset is left to keep.
theorem Exact.entersIndex (h : Exact r) (henters : EntersIndex r separator r') : Exact r' := by
  obtain ⟨hstatus, hlog, hoffset⟩ := henters.same
  have hpending := henters.pending_eq
  refine ⟨?_, fun hok => ?_, fun htrue => ?_, fun htrue => ?_⟩
  · rw [hstatus, hlog]
    exact h.stops
  · rw [hoffset, hlog]
    exact h.offset_eq (hstatus.symm.trans hok)
  · cases hpending.symm.trans htrue
  · cases hpending.symm.trans htrue

theorem Exact.withEntry (h : Exact r) (hpending : r.pendingIndexEntry = false)
    (dataBlock : BlockBuilder) : Exact (r.withEntry key dataBlock) where
  stops := h.stops
  offset_eq := h.offset_eq
  pending_empty htrue := by cases hpending.symm.trans htrue
  pending_fits htrue := by cases hpending.symm.trans htrue

theorem Exact.adds (h : Exact r) (hadds : Adds env r key value r') : Exact r' := by
  obtain ⟨r₁, dataBlock, _, hindex, hadd, hflush⟩ := hadds
  have hentry : Exact (r₁.withEntry key dataBlock) :=
    (h.entersIndex hindex).withEntry hindex.pending_eq dataBlock
  rcases hflush with rfl | hflush
  · exact hentry
  · exact hentry.flushes hflush

theorem Adds.sticks (h : Adds env r key value r') : Sticks r r' := by
  obtain ⟨r₁, dataBlock, _, hindex, hadd, hflush⟩ := h
  have hentry : Sticks r (r₁.withEntry key dataBlock) :=
    hindex.sticks.trans fun _ => ⟨rfl, rfl⟩
  rcases hflush with rfl | hflush
  · exact hentry
  · exact hentry.trans hflush.sticks

theorem Exact.close (h : Exact r) : Exact { r with closed := true } :=
  ⟨h.stops, h.offset_eq, h.pending_empty, h.pending_fits⟩

theorem Exact.finishes (h : Exact r) (hfinishes : Finishes env r r') : Exact r' := by
  cases hfinishes with
  | flush r₁ hflush h₁ =>
      have hexact := h.flushes hflush
      exact hexact.close
  | metaindex r₁ _ hflush h₁ hmeta h₂ =>
      have hexact := h.flushes hflush
      have hclosed : Exact { r₁ with closed := true } :=
        hexact.close
      exact hclosed.writes h₁ hmeta
  | index r₁ r₂ r₃ r₄ hflush h₁ hmeta h₂ hindex hwrite =>
      have hexact := h.flushes hflush
      have hclosed : Exact { r₁ with closed := true } :=
        hexact.close
      have hwritten := ((hclosed.writes h₁ hmeta).entersIndex hindex).writes
        (hindex.same.1.trans h₂) hwrite
      exact ⟨hwritten.stops, hwritten.offset_eq, hwritten.pending_empty, hwritten.pending_fits⟩

theorem Finishes.sticks (h : Finishes env r r') : Sticks r r' := by
  cases h with
  | flush r₁ hflush h₁ => exact hflush.sticks
  | metaindex r₁ _ hflush h₁ hmeta h₂ =>
      exact fun hbad => absurd ((hflush.sticks hbad).1.symm.trans h₁) hbad
  | index r₁ r₂ r₃ r₄ hflush h₁ hmeta h₂ hindex hwrite =>
      exact fun hbad => absurd ((hflush.sticks hbad).1.symm.trans h₁) hbad

theorem changeOptions_same (r : TableBuilder) (options : Options) :
    (r.changeOptions options).1 = { r with
      options := (r.changeOptions options).1.options
      indexBlockOptions := (r.changeOptions options).1.indexBlockOptions } := by
  unfold TableBuilder.changeOptions
  split <;> rfl

theorem changeOptions_log (r : TableBuilder) (options : Options) :
    (r.changeOptions options).1.log = r.log := by
  rw [changeOptions_same]

theorem Exact.steps {c : Call} (h : Exact r) (hsteps : Steps env r c r') : Exact r' := by
  cases hsteps with
  | add hadds => exact h.adds hadds
  | flush hflushes => exact h.flushes hflushes
  | changeOptions =>
      rw [changeOptions_same]
      exact ⟨h.stops, h.offset_eq, h.pending_empty, h.pending_fits⟩
  | finish hfinishes => exact h.finishes hfinishes
  | abandon => exact h.close

theorem Steps.sticks {c : Call} (h : Steps env r c r') : Sticks r r' := by
  cases h with
  | add hadds => exact hadds.sticks
  | flush hflushes => exact hflushes.sticks
  | changeOptions =>
      rw [changeOptions_same]
      exact fun _ => ⟨rfl, rfl⟩
  | finish hfinishes => exact hfinishes.sticks
  | abandon => exact fun _ => ⟨rfl, rfl⟩

theorem Steps.log_le {c : Call} (h : Steps env r c r') : r.log <+: r'.log := by
  cases h with
  | add hadds => exact hadds.continues.log_le
  | flush hflushes => exact hflushes.continues.log_le
  | changeOptions => exact (changeOptions_log r _).symm ▸ List.prefix_rfl
  | finish hfinishes => exact hfinishes.log_le
  | abandon => exact List.prefix_rfl

theorem Flushes.same (h : Flushes r r') :
    r'.lastKey = r.lastKey ∧ r'.numEntries = r.numEntries := by
  cases h with
  | idle h => exact ⟨rfl, rfl⟩
  | failed r₁ hok hempty hwrites h₁ =>
      rw [hwrites.eq]
      exact ⟨rfl, rfl⟩
  | flushed r₁ hok hempty hwrites h₁ s =>
      rw [hwrites.eq]
      exact ⟨rfl, rfl⟩

theorem Adds.lastKey_eq (h : Adds env r key value r') : r'.lastKey = key := by
  obtain ⟨r₁, dataBlock, _, hindex, hadd, hflush⟩ := h
  rcases hflush with rfl | hflush
  · rfl
  · exact hflush.same.1

end Steps

section Runs

variable (env : Environment) (file : WritableFile) {comparator : Nat} {last : Option Bytes}
  {r r' : TableBuilder}

-- The builder waits for the next call, with or without a filter.
structure Waiting (comparator : Nat) (last : Option Bytes) (r : TableBuilder) : Prop
    extends Exact r where
  closed_eq : r.closed = false
  interval_pos : 1 ≤ r.options.blockRestartInterval
  comparator_eq : r.options.comparator = comparator
  lastKey_eq : 0 < r.numEntries → last = some r.lastKey

theorem Ready.waiting (h : Ready comparator last r) : Waiting comparator last r :=
  ⟨h.toExact, h.closed_eq, h.interval_pos, h.comparator_eq, h.lastKey_eq⟩

theorem Waiting.ready (h : Waiting comparator last r) (hfilter : r.builtWith = none) :
    Ready comparator last r :=
  ⟨h.toExact, h.closed_eq, builtWith_eq_none.mp hfilter, h.interval_pos, h.comparator_eq,
    h.lastKey_eq⟩

theorem Waiting.next (h : Waiting comparator last r) (hexact : Exact r') (hc : Continues r r')
    (last' : Option Bytes) (hlast : 0 < r'.numEntries → last' = some r'.lastKey) :
    Waiting comparator last' r' where
  toExact := hexact
  closed_eq := hc.closed_eq.trans h.closed_eq
  interval_pos := by
    rw [hc.options_eq]
    exact h.interval_pos
  comparator_eq := by
    rw [hc.options_eq]
    exact h.comparator_eq
  lastKey_eq := hlast

-- A call of `ChangeOptions` is refused when it brings another comparator.
def acceptOptions (options : Options) : Call → Options
  | .changeOptions options' =>
      if options'.comparator ≠ options.comparator then options else options'
  | _ => options

theorem Waiting.changeOptions (h : Waiting comparator last r) (options : Options)
    (hinterval : 1 ≤ options.blockRestartInterval) :
    Waiting comparator last (r.changeOptions options).1 ∧
      (r.changeOptions options).1.options = acceptOptions r.options (.changeOptions options) := by
  unfold TableBuilder.changeOptions acceptOptions
  dsimp only
  by_cases hcomparator : options.comparator ≠ r.options.comparator
  · rw [if_pos hcomparator, if_pos hcomparator]
    exact ⟨h, rfl⟩
  · rw [if_neg hcomparator, if_neg hcomparator]
    refine ⟨⟨⟨h.stops, h.offset_eq, h.pending_empty, h.pending_fits⟩, h.closed_eq, hinterval,
      ?_, h.lastKey_eq⟩, rfl⟩
    exact (not_not.mp hcomparator).trans h.comparator_eq

-- No assertion fails in a legal call before `Finish`.
theorem Waiting.step (h : Waiting comparator last r) (c : Call) (hc : c ≠ .finish)
    (calls : List Call) (hlegal : Legal (env.comparator comparator) last (c :: calls)) :
    ∃ r', r.step env file c = .ok r' ∧ Steps env r c r' := by
  cases c with
  | add key value =>
      obtain ⟨r', hadd, hadds⟩ := add_adds env file r key value h.closed_eq
        (fun hpos => by
          rw [h.comparator_eq]
          exact hlegal.1 _ (h.lastKey_eq hpos))
        h.pending_empty h.pending_fits
      exact ⟨r', hadd, .add hadds⟩
  | flush =>
      obtain ⟨r', hflush, hflushes⟩ := flush_flushes env file r h.closed_eq h.pending_empty
      exact ⟨r', hflush, .flush hflushes⟩
  | changeOptions options => exact ⟨_, rfl, .changeOptions⟩
  | finish => exact absurd rfl hc
  | abandon =>
      refine ⟨_, ?_, .abandon⟩
      rw [TableBuilder.step, abandon, assertThat_pos h.closed_eq]
      rfl

theorem Ready.finish (h : Ready comparator last r) :
    ∃ r', r.finish env file = .ok (r', none) ∧ Finishes env r r' :=
  finish_finishes env file r h.closed_eq h.pending_empty h.filter_none h.interval_pos
    fun _ hflushes => (h.toExact.flushes hflushes).pending_fits

-- The same for every call, when there is no filter.
theorem Ready.step (h : Ready comparator last r) (c : Call) (calls : List Call)
    (hlegal : Legal (env.comparator comparator) last (c :: calls)) :
    ∃ r', r.step env file c = .ok r' ∧ Steps env r c r' := by
  by_cases hc : c = .finish
  · obtain ⟨r', hfinish, hfinishes⟩ := h.finish env file
    subst hc
    refine ⟨r', ?_, .finish hfinishes⟩
    rw [TableBuilder.step, hfinish]
    rfl
  · exact h.waiting.step env file c hc calls hlegal

-- The key added last, after one more call.
def lastAfter (last : Option Bytes) : Call → Option Bytes
  | .add key _ => some key
  | _ => last

-- After a call the builder waits for the next one, if there may be a next one.
theorem Waiting.steps {env : Environment} (h : Waiting comparator last r) {c : Call}
    {calls : List Call} (hlegal : Legal (env.comparator comparator) last (c :: calls))
    (hsteps : Steps env r c r') :
    calls = [] ∨ (Waiting comparator (lastAfter last c) r' ∧
      Legal (env.comparator comparator) (lastAfter last c) calls) ∧
      r'.builtWith = r.builtWith ∧ r'.options = acceptOptions r.options c := by
  cases hsteps with
  | add hadds =>
      refine .inr ⟨⟨?_, hlegal.2⟩, hadds.builtWith, hadds.continues.options_eq⟩
      apply h.next (h.toExact.adds hadds) hadds.continues
      intro _
      rw [hadds.lastKey_eq]
      rfl
  | flush hflushes =>
      obtain ⟨hlast, hnum⟩ := hflushes.same
      refine .inr ⟨⟨?_, hlegal⟩, hflushes.builtWith, hflushes.continues.options_eq⟩
      apply h.next (h.toExact.flushes hflushes) hflushes.continues
      rw [hlast, hnum]
      exact h.lastKey_eq
  | changeOptions =>
      obtain ⟨hnext, hoptions⟩ := h.changeOptions _ hlegal.1
      refine .inr ⟨⟨hnext, hlegal.2⟩, ?_, hoptions⟩
      rw [changeOptions_same]
      rfl
  | finish hfinishes => exact .inl hlegal
  | abandon => exact .inl hlegal

theorem Ready.steps {env : Environment} (h : Ready comparator last r) {c : Call} {calls : List Call}
    (hlegal : Legal (env.comparator comparator) last (c :: calls)) (hsteps : Steps env r c r') :
    calls = [] ∨ Ready comparator (lastAfter last c) r' ∧
      Legal (env.comparator comparator) (lastAfter last c) calls := by
  rcases h.waiting.steps hlegal hsteps with hnil | ⟨⟨hnext, hlegal'⟩, hbuilt, -⟩
  · exact .inl hnil
  · have hfilter := builtWith_eq_none.mpr h.filter_none
    exact .inr ⟨hnext.ready (hbuilt.trans hfilter), hlegal'⟩

-- The entries of the calls, in order.
def entriesOf (calls : List Call) : List (Bytes × Bytes) :=
  calls.filterMap fun c =>
    match c with
    | .add key value => some (key, value)
    | _ => none

theorem run_concat {r₁ : TableBuilder} {calls : List Call} {c : Call}
    (hrun : r.run env file calls = .ok r₁) (hstep : r₁.step env file c = .ok r') :
    r.run env file (calls ++ [c]) = .ok r' := by
  unfold TableBuilder.run at hrun ⊢
  rw [List.foldlM_append, hrun, ok_bind, List.foldlM_cons, hstep]
  rfl

-- A property of the builder and the entries so far that every call before `Finish`
-- keeps holds before `Finish`.
theorem Ready.run (P : List (Bytes × Bytes) → TableBuilder → Prop)
    (hP : ∀ added r c calls r', Ready comparator (added.getLast?.map Prod.fst) r →
      Legal (env.comparator comparator) (added.getLast?.map Prod.fst) (c :: (calls ++ [.finish])) →
        Steps env r c r' → P added r → P (added ++ entriesOf [c]) r')
    (added : List (Bytes × Bytes)) (hready : Ready comparator (added.getLast?.map Prod.fst) r)
    (calls : List Call)
    (hlegal : Legal (env.comparator comparator) (added.getLast?.map Prod.fst) (calls ++ [.finish]))
    (h : P added r) :
    ∃ r', r.run env file calls = .ok r' ∧
      Ready comparator ((added ++ entriesOf calls).getLast?.map Prod.fst) r' ∧
        P (added ++ entriesOf calls) r' := by
  induction calls generalizing added r with
  | nil =>
      rw [entriesOf, List.filterMap_nil, List.append_nil]
      exact ⟨r, rfl, hready, h⟩
  | cons c calls ih =>
      rw [List.cons_append] at hlegal
      obtain ⟨r₁, hstep, hsteps⟩ := hready.step env file c (calls ++ [.finish]) hlegal
      obtain ⟨hready₁, hlegal₁⟩ := (hready.steps hlegal hsteps).resolve_left (by simp)
      have hlast : lastAfter (added.getLast?.map Prod.fst) c =
          (added ++ entriesOf [c]).getLast?.map Prod.fst := by
        cases c <;> simp [lastAfter, entriesOf]
      have hentries : entriesOf (c :: calls) = entriesOf [c] ++ entriesOf calls := by
        rw [entriesOf, entriesOf, entriesOf, ← List.filterMap_append, List.singleton_append]
      rw [hlast] at hready₁ hlegal₁
      obtain ⟨r', hrun, hr'⟩ := ih (added ++ entriesOf [c]) hready₁ hlegal₁
        (hP added r c calls r₁ hready hlegal hsteps h)
      refine ⟨r', ?_, ?_⟩
      · rw [TableBuilder.run, List.foldlM_cons, hstep]
        exact hrun
      · rw [hentries, ← List.append_assoc]
        exact hr'

theorem Ready.history (h : Ready comparator last r) (calls : List Call)
    (hlegal : Legal (env.comparator comparator) last calls) :
    ∃ states, r.history env file calls = .ok states ∧
      (∀ s ∈ states, Exact s ∧ Sticks r s) ∧ states.Pairwise Sticks := by
  induction calls generalizing last r with
  | nil => exact ⟨[r], rfl, by simp [h.toExact, Sticks.refl], List.pairwise_singleton _ _⟩
  | cons c calls ih =>
      obtain ⟨r', hstep, hsteps⟩ := h.step env file c calls hlegal
      have hexact := h.toExact.steps hsteps
      have hsticks := hsteps.sticks
      obtain ⟨states, hhistory, hall, hpairs⟩ : ∃ states,
          r'.history env file calls = .ok states ∧ (∀ s ∈ states, Exact s ∧ Sticks r' s) ∧
            states.Pairwise Sticks := by
        rcases h.steps hlegal hsteps with rfl | ⟨hready, hlegal'⟩
        · exact ⟨[r'], rfl, by simp [hexact, Sticks.refl], List.pairwise_singleton _ _⟩
        · exact ih hready hlegal'
      have hlater : ∀ s ∈ states, Sticks r s := fun s hs => hsticks.trans (hall s hs).2
      refine ⟨r :: states, ?_, ?_, List.pairwise_cons.mpr ⟨hlater, hpairs⟩⟩
      · rw [TableBuilder.history, hstep, ok_bind, hhistory]
        rfl
      · intro s hs
        rcases List.mem_cons.mp hs with rfl | hs
        · exact ⟨h.toExact, .refl s⟩
        · exact ⟨(hall s hs).1, hlater s hs⟩

theorem new_waiting {options : Options} (hnew : TableBuilder.new env options = .ok r) :
    Waiting options.comparator none r ∧ r.builtWith = options.filterPolicy ∧
      r.options = options := by
  unfold TableBuilder.new BlockBuilder.new at hnew
  by_cases hinterval : options.blockRestartInterval ≥ 1
  · rw [assertThat_pos hinterval] at hnew
    obtain rfl := Except.ok.inj hnew
    have hnot {p : Prop} (h : false = true) : p := by cases h
    refine ⟨⟨⟨.nil, fun _ => rfl, hnot, hnot⟩, rfl, hinterval, rfl,
      fun hpos => absurd hpos (Nat.lt_irrefl 0)⟩, ?_, rfl⟩
    unfold builtWith
    cases options.filterPolicy <;> rfl
  · rw [assertThat_neg hinterval] at hnew
    cases hnew

theorem new_ready {options : Options} (hnew : TableBuilder.new env options = .ok r)
    (hfilter : options.filterPolicy = none) : Ready options.comparator none r := by
  obtain ⟨hwaiting, hbuilt, -⟩ := new_waiting env hnew
  exact hwaiting.ready (hbuilt.trans hfilter)

-- Every run of legal calls, whatever the file answers. Inside one call, too, an error is the
-- last answer that the file gives.
theorem errors_stick {options : Options} (hnew : TableBuilder.new env options = .ok r)
    (hfilter : options.filterPolicy = none) (calls : List Call)
    (hlegal : Legal (env.comparator options.comparator) none calls) :
    ∃ states, r.history env file calls = .ok states ∧
      (∀ s ∈ states, s.log.Stops s.status ∧
        (s.status = .ok → s.log.AllOk ∧ s.fileSize = s.log.contents.length) ∧
        (s.pendingIndexEntry = true → s.dataBlock.empty = true)) ∧
      states.Pairwise fun s t => s.status ≠ .ok → t.status = s.status ∧ t.log = s.log := by
  obtain ⟨states, hhistory, hall, hpairs⟩ :=
    (new_ready env hnew hfilter).history env file calls hlegal
  refine ⟨states, hhistory, fun s hs => ?_, hpairs⟩
  obtain ⟨hexact, -⟩ := hall s hs
  exact ⟨hexact.stops, fun hok => ⟨hexact.log_ok.mp hok, hexact.offset_eq hok⟩,
    hexact.pending_empty⟩

end Runs

def sampleEnvironment : Environment where
  comparator _ := bytewiseComparator
  findShortestSeparator _ key := key
  policyName _ := []
  finishFilter _ := []
  getVarint64 := Lib.Base128.decode
  blockHandle := ⟨2 ^ 64 - 1, 2 ^ 64 - 1⟩
  newId _ := 1
  blockAddress log := log.length
  trailerAddress log := log.length + 3

def sampleOptions : Options := ⟨0, 16, none, 20, .kNoCompression, false, none⟩

def reliable : WritableFile := .scripted fun _ => .ok

-- The trailer of the second data block cannot be written.
def fullDisk : WritableFile := .scripted fun n => if n = 4 then .failed .kIOError "disk full" else .ok

def sampleCalls : List Call :=
  [.add [1] [7], .flush, .flush, .add [2] [8], .flush, .add [2, 0] [], .finish]

theorem errors_stick_sample : ∃ r states,
    TableBuilder.new sampleEnvironment sampleOptions = .ok r ∧
      r.history sampleEnvironment fullDisk sampleCalls = .ok states ∧
      (∀ s ∈ states, s.log.Stops s.status ∧
        (s.status = .ok → s.log.AllOk ∧ s.fileSize = s.log.contents.length) ∧
        (s.pendingIndexEntry = true → s.dataBlock.empty = true)) ∧
      states.Pairwise fun s t => s.status ≠ .ok → t.status = s.status ∧ t.log = s.log := by
  obtain ⟨r, hnew⟩ : ∃ r, TableBuilder.new sampleEnvironment sampleOptions = .ok r := ⟨_, rfl⟩
  have hlegal : Legal bytewiseComparator none sampleCalls := by
    simp only [sampleCalls, Legal]
    decide
  obtain ⟨states, hstates⟩ := errors_stick sampleEnvironment fullDisk hnew rfl sampleCalls hlegal
  exact ⟨r, states, hnew, hstates⟩

end Mylldb.TableBuilder

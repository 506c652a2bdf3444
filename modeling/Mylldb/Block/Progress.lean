import Mylldb.Block.SafeRuns

namespace Mylldb.Block

open Lib.Run Lib.Cursor

-- A computation that ends, and fails by a read outside of the contents only.
abbrev Ends {α : Type} (x : Exec α) (post : α → Prop) : Prop := OnlyFails .outOfBounds x post

-- The iterator stands on an entry, and the next one begins at `q`.
structure OnEntry (it : Iter) (q : Nat) : Prop extends Poised it q where
  current_lt : it.current < q
  end_le : q ≤ it.restarts

-- What a parse at `q` leaves: no entry, or the entry at `q`.
inductive Arrives (it : Iter) (q : Nat) : Iter × Bool → Prop
  | off (it' : Iter) : SameBlock it it' → it'.current = it'.restarts → Arrives it q (it', false)
  | on (it' : Iter) (q' : Nat) : SameBlock it it' → it'.current = q → OnEntry it' q' →
      Arrives it q (it', true)

-- The next entry begins behind this one, although its place is a sum that may wrap.
theorem Accepted.next_later {it : Iter} {q : Nat} {e : EntryHeader} (he : Accepted it q e)
    (hlimit : it.restarts < 2 ^ 32) :
    q < (e.next + e.nonShared + e.valueLength) % 2 ^ 32 ∧
      (e.next + e.nonShared + e.valueLength) % 2 ^ 32 ≤ it.restarts := by
  have hnext := he.next_gt
  have hle := he.next_le
  have hcheck := he.checked
  rw [Nat.mod_eq_of_lt (show it.restarts - e.next < 2 ^ 32 by omega)] at hcheck
  have hsum : (e.next + e.nonShared + e.valueLength) % 2 ^ 32 =
      e.next + (e.nonShared + e.valueLength) % 2 ^ 32 := by
    rw [Nat.add_assoc, ← Nat.add_mod_mod, Nat.mod_eq_of_lt (by omega)]
  omega

theorem parse_ends (it : Iter) (q : Nat) (ha : Area it) (hp : Poised it q) :
    Ends it.parseNextKey (Arrives it q) := by
  have hlen := ha.length_eq
  have hlt := ha.length_lt
  have hparse := parse_parsesTo it q ha hp
  generalize it.parseNextKey = o at hparse
  cases hparse with
  | stop hge => exact .ok (.off _ ⟨rfl, rfl, rfl⟩ rfl)
  | bad hbad => exact .ok (.off _ ⟨rfl, rfl, rfl⟩ rfl)
  | past e he hpast => exact .inl rfl
  | entry e r he hread hr =>
      obtain ⟨hlater, hend⟩ := he.next_later (by omega)
      exact .ok (.on _ _ ⟨rfl, rfl, rfl⟩ rfl ⟨⟨rfl, hr⟩, hlater, hend⟩)

-- Where a method leaves the iterator: on an entry, or nowhere.
structure Placed (it it' : Iter) : Prop where
  same : SameBlock it it'
  place : (∃ q, OnEntry it' q) ∨ it'.current = it'.restarts

theorem SameBlock.placed {it it₁ it' : Iter} (hsame : SameBlock it it₁) (h : Placed it₁ it') :
    Placed it it' :=
  ⟨hsame.trans h.same, h.place⟩

theorem Arrives.placed {it it' : Iter} {q : Nat} {more : Bool} (h : Arrives it q (it', more)) :
    Placed it it' := by
  cases h with
  | off _ hsame hcurrent => exact ⟨hsame, .inr hcurrent⟩
  | on _ q' hsame _ hon => exact ⟨hsame, .inl ⟨q', hon⟩⟩

-- A loop that parses one entry in each turn, and takes another one only when the
-- place behind the entry is in `go`.
structure ParsesOn (f : Nat → Iter → Exec Iter) (go : Nat → Prop) : Prop where
  fault : ∀ fuel it e, it.parseNextKey = .error e → f (fuel + 1) it = .error e
  off : ∀ fuel it it', it.parseNextKey = .ok (it', false) → f (fuel + 1) it = .ok it'
  on : ∀ fuel it it' q, it.parseNextKey = .ok (it', true) → it'.nextEntryOffset = .ok q →
    (go q ∧ f (fuel + 1) it = f fuel it') ∨ f (fuel + 1) it = .ok it'

theorem scan_parsesOn (stop : Nat) : ParsesOn (Iter.scan stop) (· < stop) where
  fault fuel it e hparse := by simp [Iter.scan, hparse]
  off fuel it it' hparse := by simp [Iter.scan, hparse]
  on fuel it it' q hparse hoffset := by
    simp only [Iter.scan, hparse, ok_bind, ite_true, hoffset]
    by_cases hgo : q < stop
    · rw [if_pos hgo]
      exact .inl ⟨hgo, rfl⟩
    · rw [if_neg hgo]
      exact .inr rfl

theorem scanKeys_parsesOn (cmp : Comparator) (target : Bytes) :
    ParsesOn (Iter.scanKeys cmp target) fun _ => True where
  fault fuel it e hparse := by simp [Iter.scanKeys, hparse]
  off fuel it it' hparse := by simp [Iter.scanKeys, hparse]
  on fuel it it' q hparse _ := by
    simp only [Iter.scanKeys, hparse, ok_bind, ite_true]
    split
    · exact .inr rfl
    · exact .inl ⟨trivial, rfl⟩

-- The entry that such a loop ends on is the first one, or the loop went on to it.
theorem ParsesOn.ends {f : Nat → Iter → Exec Iter} {go : Nat → Prop} (hf : ParsesOn f go)
    (fuel : Nat) (it : Iter) (q : Nat) (ha : Area it) (hp : Poised it q)
    (hfuel : it.restarts < fuel + q ∧ 0 < fuel) :
    Ends (f fuel it) fun it' => Placed it it' ∧
      (it'.current = it'.restarts ∨ it'.current = q ∨ go it'.current) := by
  induction fuel generalizing it q with
  | zero => omega
  | succ fuel ih =>
      rcases parse_ends it q ha hp with hfault | ⟨⟨it', more⟩, hparse, harrives⟩
      · exact .inl (hf.fault fuel it _ hfault)
      · have hplaced := harrives.placed
        cases harrives with
        | off _ hsame hcurrent =>
            rw [hf.off fuel it it' hparse]
            exact .ok ⟨hplaced, .inl hcurrent⟩
        | on _ q' hsame hcurrent hon =>
            rcases hf.on fuel it it' q' hparse hon.offset with ⟨hgo, hrun⟩ | hrun
            · rw [hrun]
              have hlater := hon.current_lt
              have hend := hon.end_le
              have hrestarts := hsame.restarts_eq
              apply (ih it' q' (hsame.area ha) hon.toPoised (by omega)).imp
              rintro it'' ⟨hplaced', hcurrent'⟩
              refine ⟨hsame.placed hplaced', ?_⟩
              rcases hcurrent' with hoff | heq | hgo'
              · exact .inl hoff
              · rw [heq]
                exact .inr (.inr hgo)
              · exact .inr (.inr hgo')
            · rw [hrun]
              exact .ok ⟨hplaced, .inr (.inl hcurrent)⟩

namespace Area

variable {it : Iter} {q : Nat}

-- A loop from a restart point, as `Prev`, `Seek` and `SeekToLast` run it.
theorem scanFrom_ends (ha : Area it) {f : Nat → Iter → Exec Iter} {go : Nat → Prop}
    (hf : ParsesOn f go) (r : Nat) (hr : r < it.numRestarts) :
    ∃ start it₁, it.getRestartPoint r = .ok start ∧ it.seekToRestartPoint r = .ok it₁ ∧
      it₁.restarts = it.restarts ∧ Ends (f it₁.scanFuel it₁) fun it' => Placed it it' ∧
        (it'.current = it'.restarts ∨ it'.current = start ∨ go it'.current) := by
  obtain ⟨start, it₁, hpoint, hseek, hsame, -, hp⟩ := ha.seekToRestartPoint_total r hr
  refine ⟨start, it₁, hpoint, hseek, hsame.restarts_eq, ?_⟩
  apply (hf.ends it₁.scanFuel it₁ start (hsame.area ha) hp.poised
    (by unfold Iter.scanFuel; omega)).imp
  rintro it' ⟨hplaced, hcurrent⟩
  exact ⟨hsame.placed hplaced, hcurrent⟩

theorem next_ends (ha : Area it) (hp : Poised it q) : Ends it.next fun it' =>
    Placed it it' ∧ (it'.current = it'.restarts ∨ it'.current = q) := by
  apply (parse_ends it q ha hp).bind
  rintro ⟨it', more⟩ - harrives
  refine .ok ⟨harrives.placed, ?_⟩
  cases harrives with
  | off _ _ hcurrent => exact .inl hcurrent
  | on _ _ _ hcurrent _ => exact .inr hcurrent

theorem toFirst_ends (ha : Area it) : Ends it.seekToFirst (Placed it) := by
  obtain ⟨start, it₁, -, hseek, hsame, -, hp⟩ := ha.seekToRestartPoint_total 0 ha.num_pos
  rw [Iter.seekToFirst, hseek, ok_bind]
  exact ((hsame.area ha).next_ends hp.poised).imp fun it' h => hsame.placed h.1

theorem toLast_ends (ha : Area it) : Ends it.seekToLast (Placed it) := by
  have hpos := ha.num_pos
  obtain ⟨start, it₁, -, hseek, hrestarts, hscan⟩ :=
    ha.scanFrom_ends (scan_parsesOn it.restarts) (it.numRestarts - 1) (by omega)
  rw [Iter.seekToLast, sub32_of_le hpos, hseek, ok_bind, hrestarts]
  exact hscan.imp fun it' h => h.1

-- All that `Prev` parses lies before the entry that it leaves.
theorem prev_ends (ha : Area it) (hon : OnEntry it q) : Ends it.prev fun it' =>
    Placed it it' ∧ (it'.current = it'.restarts ∨ it'.current < it.current) := by
  have hcurrent := hon.current_lt
  have hend := hon.end_le
  have hvalid : it.valid = true := decide_eq_true (by omega)
  rw [Iter.prev, assertThat_pos hvalid, ok_bind]
  rcases ha.retreat_total (it.numRestarts + 1) it.restartIndex hon.index
    (Nat.lt_succ_of_lt hon.index) (Nat.le_refl _)
    (fun r' hlt hle => absurd hlt (Nat.not_lt_of_le hle)) with
    ⟨hretreat, -⟩ | ⟨r, ⟨-, ⟨start, hstart, hbefore⟩, -⟩, hr, hretreat⟩
  · dsimp only
    rw [hretreat]
    exact .ok ⟨⟨⟨rfl, rfl, rfl⟩, .inr rfl⟩, .inl rfl⟩
  · dsimp only
    rw [hretreat, ok_bind]
    have hsame : SameBlock it { it with restartIndex := r } := ⟨rfl, rfl, rfl⟩
    obtain ⟨start', it₁, hstart', hseek, -, hscan⟩ :=
      (hsame.area ha).scanFrom_ends (scan_parsesOn it.current) r hr
    obtain rfl : start = start' := Except.ok.inj (hstart.symm.trans hstart')
    dsimp only
    rw [if_pos rfl, hseek, ok_bind]
    apply hscan.imp
    rintro it' ⟨hplaced, hoff | heq | hgo⟩
    · exact ⟨hsame.placed hplaced, .inl hoff⟩
    · exact ⟨hsame.placed hplaced, .inr (by omega)⟩
    · exact ⟨hsame.placed hplaced, .inr hgo⟩

-- Every turn of the binary search brings its bounds closer to each other, and the
-- restart points it asks for lie between them.
theorem search_ends (ha : Area it) (cmp : Comparator) (target : Bytes) (fuel left right : Nat)
    (hle : left ≤ right) (hright : right < it.numRestarts) (hfuel : right - left < fuel) :
    Ends (Iter.searchRestarts cmp it target fuel left right) fun o =>
      ∀ r ∈ o, r < it.numRestarts := by
  induction fuel generalizing left right with
  | zero => omega
  | succ fuel ih =>
      by_cases hlt : left < right
      · have hprobes := @search_probes it cmp ha target fuel left right hlt hright
        generalize Iter.searchRestarts cmp it target (fuel + 1) left right = o at hprobes
        cases hprobes with
        | none _ => exact .ok (by simp)
        | key key _ =>
            split
            · exact ih _ _ (by omega) hright (by omega)
            · exact ih _ _ (by omega) (by omega) (by omega)
        | past _ _ _ _ _ => exact .inl rfl
      · rw [Iter.searchRestarts, if_neg hlt]
        refine .ok fun r hr => ?_
        obtain rfl := Option.some.inj hr
        omega

theorem seek_ends (ha : Area it) (cmp : Comparator) (target : Bytes) :
    Ends (Iter.seek cmp it target) (Placed it) := by
  have hpos := ha.num_pos
  rw [Iter.seek, sub32_of_le hpos]
  apply (ha.search_ends cmp target it.numRestarts 0 (it.numRestarts - 1) (Nat.zero_le _)
    (by omega) (by omega)).bind
  intro o _ hbound
  cases o with
  | none => exact .ok ⟨⟨rfl, rfl, rfl⟩, .inr rfl⟩
  | some left =>
      obtain ⟨start, it₁, -, hseek, -, hscan⟩ :=
        ha.scanFrom_ends (scanKeys_parsesOn cmp target) left (hbound left rfl)
      dsimp only
      rw [hseek, ok_bind]
      exact hscan.imp fun it' h => h.1

end Area

-- Where the iterator stands in its block.
def offsetOf : BlockIterator → Nat
  | .empty _ => 0
  | .iter it => it.current

-- `Next` leaves the iterator invalid or takes it forward, `Prev` takes it back.
def MovesOn : Move Bytes → BlockIterator → BlockIterator → Prop
  | .next, s, s' => s'.valid = true → offsetOf s < offsetOf s'
  | .prev, s, s' => s'.valid = true → offsetOf s' < offsetOf s
  | _, _, _ => True

-- Every move from here ends, and gets on.
def Progresses (cmp : Comparator) (s : BlockIterator) : Prop :=
  ∀ a, Ends ((BlockIterator.machine (Iter.seek cmp)).move s a) fun o =>
    ∀ s' ∈ o, MovesOn a s s'

-- What every move keeps.
def Roams : BlockIterator → Prop
  | .empty _ => True
  | .iter it => Area it ∧ ((∃ q, OnEntry it q) ∨ it.current = it.restarts)

variable {cmp : Comparator}

theorem invalid_of_current {it : Iter} (h : it.current = it.restarts) :
    ¬(BlockIterator.iter it).valid = true := by
  simp [BlockIterator.valid, Iter.valid, h]

theorem method_ends {it : Iter} (hroams : Roams (.iter it)) (a : Move Bytes)
    (hallowed : Allowed it a) : Ends (method cmp it a) fun it' =>
      Placed it it' ∧ MovesOn a (.iter it) (.iter it') := by
  obtain ⟨ha, hplace⟩ := hroams
  cases a with
  | toFirst => exact ha.toFirst_ends.imp fun it' h => ⟨h, trivial⟩
  | toLast => exact ha.toLast_ends.imp fun it' h => ⟨h, trivial⟩
  | seek target => exact (ha.seek_ends cmp target).imp fun it' h => ⟨h, trivial⟩
  | next =>
      obtain ⟨q, hon⟩ := placed_of_valid hplace hallowed
      apply (ha.next_ends hon.toPoised).imp
      rintro it' ⟨hplaced, hcurrent⟩
      refine ⟨hplaced, fun hit' => ?_⟩
      rcases hcurrent with hoff | heq
      · exact absurd hit' (invalid_of_current hoff)
      · rw [offsetOf, offsetOf, heq]
        exact hon.current_lt
  | prev =>
      obtain ⟨q, hon⟩ := placed_of_valid hplace hallowed
      apply (ha.prev_ends hon).imp
      rintro it' ⟨hplaced, hcurrent⟩
      refine ⟨hplaced, fun hit' => ?_⟩
      rcases hcurrent with hoff | hlt
      · exact absurd hit' (invalid_of_current hoff)
      · exact hlt

-- One move: it ends, gets on, and keeps what the others need.
theorem Roams.move (s : BlockIterator) (a : Move Bytes) (hs : Roams s) :
    Ends ((BlockIterator.machine (Iter.seek cmp)).move s a) fun o =>
      ∀ s' ∈ o, Roams s' ∧ MovesOn a s s' := by
  cases s with
  | empty status =>
      obtain ⟨o, ho, hsame⟩ := move_empty cmp status a
      rw [ho]
      refine .ok fun s' hs' => ?_
      obtain rfl := hsame s' hs'
      refine ⟨trivial, ?_⟩
      cases a <;> simp [MovesOn, BlockIterator.valid]
  | iter it =>
      rcases move_iter cmp it a with hnone | ⟨hallowed, hmove⟩
      · rw [hnone]
        exact .ok (by simp)
      · rw [hmove]
        apply OnlyFails.map
        apply (method_ends hs a hallowed).imp
        rintro it' ⟨hplaced, hmoves⟩ s' hs'
        obtain rfl := Option.some.inj hs'
        exact ⟨⟨hplaced.same.area hs.1, hplaced.place⟩, hmoves⟩

-- The constructor marks the block as bad, or the restart array lies in the
-- contents and ends with them.
def GivesRoom (contents : Bytes) (b : Block) : Prop :=
  b.size = 0 ∨ ∃ offset n, HasArray contents b offset n

theorem run_progresses (cmp : Comparator) (contents : Bytes) (hlen : contents.length < 2 ^ 32) :
    ∃ block it, Block.new contents = .ok block ∧ block.newIterator = .ok it ∧
      GivesRoom contents block ∧ ∀ moves,
        Ends ((BlockIterator.machine (Iter.seek cmp)).run it moves) fun o =>
          ∀ s ∈ o, Progresses cmp s := by
  obtain ⟨block, it, hblock, hit, hcases⟩ := newIterator_cases contents hlen
  refine ⟨block, it, hblock, hit, ?_, fun moves => ?_⟩
  · rcases hcases with ⟨hsize, -⟩ | ⟨offset, n, harray, -⟩
    · exact .inl hsize
    · exact .inr ⟨offset, n, harray⟩
  · have hroams : Roams it := by
      rcases hcases with ⟨-, status, rfl⟩ | ⟨offset, n, harray, rfl | ⟨hn, rfl⟩⟩
      · trivial
      · trivial
      · exact ⟨harray.area hlen hn, .inr rfl⟩
    have hrun := Machine.run_onlyFails Fault.outOfBounds Roams
      (fun s a hs => (@Roams.move cmp s a hs).imp fun o h s' hs' => (h s' hs').1)
      moves it hroams
    apply hrun.imp
    intro o hall s hs a
    exact (Roams.move s a (hall s hs)).imp fun o h s' hs' => (h s' hs').2

-- Three restart points in the wrong order, and an entry whose lengths wrap.
def unorderedContents : Bytes :=
  [0, 1, 0, 97, 0, 1, 0xff, 0xff, 0xff, 0xff, 0x0f, 98, 0, 0, 0, 0, 9, 0, 0, 0, 4, 0, 0, 0,
    3, 0, 0, 0]

theorem run_progresses_sample : ∃ s,
    (BlockIterator.machine (Iter.seek bytewiseComparator)).run
      (.iter (freshIter unorderedContents 12 3)) [.toFirst, .next] = .ok (some s) ∧
      offsetOf s = 4 ∧ Progresses bytewiseComparator s := by
  obtain ⟨block, it, hblock, hit, -, hruns⟩ :=
    run_progresses bytewiseComparator unorderedContents (by decide)
  have hnew : Block.new unorderedContents = .ok ⟨unorderedContents, 28, some 12⟩ := rfl
  obtain rfl := Except.ok.inj (hblock.symm.trans hnew)
  have hiter : newIterator ⟨unorderedContents, 28, some 12⟩ =
      .ok (.iter (freshIter unorderedContents 12 3)) := rfl
  obtain rfl := Except.ok.inj (hit.symm.trans hiter)
  have hrun : (BlockIterator.machine (Iter.seek bytewiseComparator)).run
      (.iter (freshIter unorderedContents 12 3)) [.toFirst, .next] =
        .ok (some (.iter { freshIter unorderedContents 12 3 with
          current := 4, restartIndex := 0, key := [98], value := some (12, 2 ^ 32 - 1) })) := rfl
  rcases hruns [.toFirst, .next] with hfault | ⟨o, ho, hall⟩
  · rw [hrun] at hfault
    cases hfault
  · obtain rfl := Except.ok.inj (ho.symm.trans hrun)
    exact ⟨_, hrun, rfl, hall _ rfl⟩

end Mylldb.Block

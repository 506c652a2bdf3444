import Mylldb.Block.Parse

namespace Mylldb.Block

open Lib.Run Lib.Cursor Relation

namespace SameBlock

variable {it it' : Iter}

theorem nextEntry (h : SameBlock it it') : NextEntry it' = NextEntry it := by
  funext a b
  rw [NextEntry, NextEntry, h.data_eq, h.restarts_eq]

theorem malformed (h : SameBlock it it') : Malformed it' = Malformed it := by
  funext q key
  rw [Malformed, Malformed, h.data_eq, h.restarts_eq]

theorem fits (h : SameBlock it it') : Fits it' = Fits it := by
  funext q key
  rw [Fits, Fits, h.data_eq, h.restarts_eq]

theorem getRestartPoint (h : SameBlock it it') (r : Nat) :
    it'.getRestartPoint r = it.getRestartPoint r := by
  rw [Iter.getRestartPoint, Iter.getRestartPoint, h.data_eq, h.restarts_eq, h.numRestarts_eq]

end SameBlock

theorem nextEntry_unique (it : Iter) (a b c : Nat × Bytes) (hb : NextEntry it a b)
    (hc : NextEntry it a c) : b = c := by
  obtain ⟨-, e, he, -, hoffset, hkey⟩ := hb
  obtain ⟨-, e', he', -, hoffset', hkey'⟩ := hc
  obtain rfl := Option.some.inj (Except.ok.inj (he.symm.trans he'))
  exact Prod.ext (hoffset.trans hoffset'.symm) (hkey.trans hkey'.symm)

theorem Malformed.not_nextEntry {it : Iter} {a : Nat × Bytes} (h : Malformed it a.1 a.2)
    (b : Nat × Bytes) : ¬NextEntry it a b := by
  rintro ⟨-, e, he, hshared, -⟩
  rcases h.2 with hnone | ⟨e', he', hlong⟩
  · rw [hnone] at he
    cases he
  · obtain rfl := Option.some.inj (Except.ok.inj (he.symm.trans he'))
    omega

-- A scan goes on to the next entry while `go` holds of it.
def ScanStep (it : Iter) (go : Nat × Bytes → Prop) (a b : Nat × Bytes) : Prop :=
  NextEntry it a b ∧ go b

-- Where a scan that starts at `a` ends: behind the entries, at a malformed
-- entry, or on the first entry at which it does not go on.
inductive Scanned (it : Iter) (go : Nat × Bytes → Prop) (a : Nat × Bytes) (it' : Iter) : Prop
  | stop (b : Nat × Bytes) : ReflTransGen (ScanStep it go) a b → it.restarts ≤ b.1 →
      it'.current = it'.restarts → Scanned it go a it'
  | bad (b : Nat × Bytes) : ReflTransGen (ScanStep it go) a b → Malformed it b.1 b.2 →
      Corrupt it' → Scanned it go a it'
  | entry (b c : Nat × Bytes) : ReflTransGen (ScanStep it go) a b → NextEntry it b c → ¬go c →
      Inside it' c.1 → Scanned it go a it'

theorem Scanned.cons {it it' : Iter} {go : Nat × Bytes → Prop} {a b : Nat × Bytes}
    (hstep : ScanStep it go a b) (h : Scanned it go b it') : Scanned it go a it' := by
  cases h with
  | stop c hc hend hcurrent => exact .stop c (hc.head hstep) hend hcurrent
  | bad c hc hbad hcorrupt => exact .bad c (hc.head hstep) hbad hcorrupt
  | entry c d hc hnext hgo hinside => exact .entry c d (hc.head hstep) hnext hgo hinside

-- A malformed entry on its way is where a scan ends.
theorem Scanned.corrupt {it it' : Iter} {go : Nat × Bytes → Prop} {a m : Nat × Bytes}
    (h : Scanned it go a it') (hm : ReflTransGen (ScanStep it go) a m)
    (hbad : Malformed it m.1 m.2) : Corrupt it' := by
  have hunique : Relator.RightUnique (ScanStep it go) := fun x y z hy hz =>
    nextEntry_unique it x y z hy.1 hz.1
  -- nothing lies behind the malformed entry
  have hlast : ∀ b, ReflTransGen (ScanStep it go) m b → m = b := by
    intro b hb
    rcases hb.cases_head with rfl | ⟨c, hc, -⟩
    · rfl
    · exact absurd hc.1 (hbad.not_nextEntry c)
  cases h with
  | bad b hb hbad' hcorrupt => exact hcorrupt
  | stop b hb hend hcurrent =>
      have hlt := hbad.1
      rcases hb.total_of_right_unique hunique hm with hbm | hmb
      · rcases hbm.cases_head with rfl | ⟨c, hc, -⟩
        · omega
        · have := hc.1.1
          omega
      · obtain rfl := hlast b hmb
        omega
  | entry b c hb hnext hgo hinside =>
      rcases hb.total_of_right_unique hunique hm with hbm | hmb
      · rcases hbm.cases_head with rfl | ⟨d, hd, -⟩
        · exact absurd hnext (hbad.not_nextEntry c)
        · rw [nextEntry_unique it b d c hd.1 hnext] at hd
          exact absurd hd.2 hgo
      · obtain rfl := hlast b hmb
        exact absurd hnext (hbad.not_nextEntry c)

-- A loop that parses the next entry and goes on while `go` holds of it.
structure IsScan (f : Nat → Iter → Exec Iter) (go : Nat × Bytes → Prop) : Prop where
  stop : ∀ fuel it it', it.parseNextKey = .ok (it', false) → f (fuel + 1) it = .ok it'
  more : ∀ fuel it it' q, it.parseNextKey = .ok (it', true) → Prepared it' q → go (q, it'.key) →
    f (fuel + 1) it = f fuel it'
  done : ∀ fuel it it' q, it.parseNextKey = .ok (it', true) → Prepared it' q → ¬go (q, it'.key) →
    f (fuel + 1) it = .ok it'

theorem scan_isScan (stop : Nat) : IsScan (Iter.scan stop) fun a => a.1 < stop where
  stop fuel it it' hparse := by simp [Iter.scan, hparse]
  more fuel it it' q hparse hp hgo := by
    simp only [Iter.scan, hparse, ok_bind, ite_true, hp.nextEntryOffset_eq]
    rw [if_pos hgo]
  done fuel it it' q hparse hp hgo := by
    simp only [Iter.scan, hparse, ok_bind, ite_true, hp.nextEntryOffset_eq]
    rw [if_neg hgo]
    rfl

theorem scanKeys_isScan (cmp : Comparator) (target : Bytes) :
    IsScan (Iter.scanKeys cmp target) fun a => cmp.compare a.2 target < 0 where
  stop fuel it it' hparse := by simp [Iter.scanKeys, hparse]
  more fuel it it' q hparse hp hgo := by
    simp only [Iter.scanKeys, hparse, ok_bind, ite_true]
    rw [if_neg (Int.not_le.mpr hgo)]
  done fuel it it' q hparse hp hgo := by
    simp only [Iter.scanKeys, hparse, ok_bind, ite_true]
    rw [if_pos (Int.not_lt.mp hgo)]
    rfl

theorem scan_total {f : Nat → Iter → Exec Iter} {go : Nat × Bytes → Prop} (hf : IsScan f go)
    (it₀ : Iter) (ha : Area it₀) (fuel : Nat) (it : Iter) (q : Nat) (hsame : SameBlock it₀ it)
    (hp : Prepared it q)
    (hfits : ∀ b, ReflTransGen (ScanStep it₀ go) (q, it.key) b → Fits it₀ b.1 b.2)
    (hfuel : it₀.restarts < fuel + q ∧ 0 < fuel) :
    ∃ it', f fuel it = .ok it' ∧ SameBlock it₀ it' ∧ Scanned it₀ go (q, it.key) it' := by
  induction fuel generalizing it q with
  | zero => omega
  | succ fuel ih =>
      obtain ⟨o, hparse, hparsed⟩ := parse_total it q (hsame.area ha) hp
        (by rw [hsame.fits]; exact hfits _ .refl)
      cases hparsed with
      | stop it' hge hsame' hcurrent =>
          rw [hsame.restarts_eq] at hge
          exact ⟨it', hf.stop fuel it it' hparse, hsame.trans hsame', .stop _ .refl hge hcurrent⟩
      | bad it' hbad hsame' hcorrupt =>
          rw [hsame.malformed] at hbad
          exact ⟨it', hf.stop fuel it it' hparse, hsame.trans hsame', .bad _ .refl hbad hcorrupt⟩
      | entry it' q' hnext hsame' hinside =>
          rw [hsame.nextEntry] at hnext
          by_cases hgo : go (q', it'.key)
          · have hstep : ScanStep it₀ go (q, it.key) (q', it'.key) := ⟨hnext, hgo⟩
            have hlater : q < q' := by
              obtain ⟨-, e, he, -, hoffset, -⟩ := hnext
              obtain ⟨o, ho, hin⟩ := decodeEntry_total it₀.data q it₀.restarts
                (by have := ha.length_eq; omega)
              obtain rfl := Except.ok.inj (ho.symm.trans he)
              have hheader := (hin e rfl).1.next_gt
              dsimp only at hoffset
              omega
            have hwithin : it₀.restarts < fuel + q' ∧ 0 < fuel := by
              have hend := hinside.end_le
              rw [hsame'.restarts_eq, hsame.restarts_eq] at hend
              have hlt := hnext.1
              dsimp only at hlt
              omega
            obtain ⟨it'', hrun, hsame'', hscanned⟩ := ih it' q' (hsame.trans hsame')
              hinside.toPrepared (fun b hb => hfits b (hb.head hstep)) hwithin
            refine ⟨it'', ?_, hsame'', hscanned.cons hstep⟩
            rw [hf.more fuel it it' q' hparse hinside.toPrepared hgo, hrun]
          · exact ⟨it', hf.done fuel it it' q' hparse hinside.toPrepared hgo, hsame.trans hsame',
              .entry _ _ .refl hnext hgo hinside⟩

-- The key that the binary search compares at the restart point `mid`.
def MidKey (it : Iter) (mid : Nat) (key : Bytes) : Prop :=
  ∃ q e, it.getRestartPoint mid = .ok q ∧ decodeEntry it.data q it.restarts = .ok (some e) ∧
    e.shared = 0 ∧ readRange it.data e.next e.nonShared = .ok key

-- The bounds that the binary search goes through.
inductive Searches (cmp : Comparator) (it : Iter) (target : Bytes) : Nat → Nat → Prop
  | start : Searches cmp it target 0 (it.numRestarts - 1)
  | up (left right : Nat) (key : Bytes) : Searches cmp it target left right → left < right →
      MidKey it ((left + right + 1) / 2) key → cmp.compare key target < 0 →
      Searches cmp it target ((left + right + 1) / 2) right
  | down (left right : Nat) (key : Bytes) : Searches cmp it target left right → left < right →
      MidKey it ((left + right + 1) / 2) key → ¬cmp.compare key target < 0 →
      Searches cmp it target left ((left + right + 1) / 2 - 1)

-- The restart point that `Prev` goes back to: the last one before the current
-- entry, not behind the present one.
def Retreats (it : Iter) (r : Nat) : Prop :=
  r ≤ it.restartIndex ∧ (∃ q, it.getRestartPoint r = .ok q ∧ q < it.current) ∧
    ∀ r', r < r' → r' ≤ it.restartIndex → ∃ q, it.getRestartPoint r' = .ok q ∧ it.current ≤ q

-- A scan from the restart point `r` parses an entry at `q` after `key`.
def ScansFrom (it : Iter) (go : Nat × Bytes → Prop) (r q : Nat) (key : Bytes) : Prop :=
  ∃ start, it.getRestartPoint r = .ok start ∧ ReflTransGen (ScanStep it go) (start, []) (q, key)

-- The entries that a move decodes: their places, and the keys before them.
def Decodes (cmp : Comparator) (it : Iter) : Move Bytes → Nat → Bytes → Prop
  | .next, q, key => it.nextEntryOffset = .ok q ∧ key = it.key
  | .toFirst, q, key => it.getRestartPoint 0 = .ok q ∧ key = []
  | .toLast, q, key => ScansFrom it (fun a => a.1 < it.restarts) (it.numRestarts - 1) q key
  | .prev, q, key => ∃ r, Retreats it r ∧ ScansFrom it (fun a => a.1 < it.current) r q key
  | .seek target, q, key =>
      (∃ left right, Searches cmp it target left right ∧ left < right ∧
        it.getRestartPoint ((left + right + 1) / 2) = .ok q ∧ key = []) ∨
      ∃ left, Searches cmp it target left left ∧
        ScansFrom it (fun a => cmp.compare a.2 target < 0) left q key

-- Where a move leaves the iterator: on an entry inside the block, or nowhere.
structure Settled (it it' : Iter) : Prop where
  same : SameBlock it it'
  place : (∃ q, Inside it' q) ∨ it'.current = it'.restarts

-- A method ends well when the entries it decodes fit, and with an error when one
-- of them is malformed.
def EndsWell (cmp : Comparator) (it : Iter) (a : Move Bytes) (f : Exec Iter) : Prop :=
  (∀ q key, Decodes cmp it a q key → Fits it q key) → ∃ it', f = .ok it' ∧ Settled it it' ∧
    ((∃ q key, Decodes cmp it a q key ∧ Malformed it q key) → Corrupt it')

theorem Scanned.place {it it' : Iter} {go : Nat × Bytes → Prop} {a : Nat × Bytes}
    (h : Scanned it go a it') : (∃ q, Inside it' q) ∨ it'.current = it'.restarts := by
  cases h with
  | stop b _ _ hcurrent => exact .inr hcurrent
  | bad b _ _ hcorrupt => exact .inr hcorrupt.current
  | entry b c _ _ _ hinside => exact .inl ⟨c.1, hinside⟩

namespace Area

variable {it : Iter} {q : Nat} {cmp : Comparator}

-- One parse at `q`, as `Next` and `SeekToFirst` make it.
theorem next_endsWell (ha : Area it) (it₁ : Iter) (hsame : SameBlock it it₁) (hp : Prepared it₁ q)
    (hfits : Fits it q it₁.key) : ∃ it', it₁.next = .ok it' ∧ Settled it it' ∧
      (Malformed it q it₁.key → Corrupt it') := by
  obtain ⟨o, hparse, hparsed⟩ := parse_total it₁ q (hsame.area ha) hp (by rwa [hsame.fits])
  cases hparsed with
  | stop it' hge hsame' hcurrent =>
      refine ⟨it', by simp [Iter.next, hparse], ⟨hsame.trans hsame', .inr hcurrent⟩, fun hbad => ?_⟩
      have hlt := hbad.1
      rw [hsame.restarts_eq] at hge
      omega
  | bad it' hbad hsame' hcorrupt =>
      exact ⟨it', by simp [Iter.next, hparse],
        ⟨hsame.trans hsame', .inr hcorrupt.current⟩, fun _ => hcorrupt⟩
  | entry it' q' hnext hsame' hinside =>
      refine ⟨it', by simp [Iter.next, hparse], ⟨hsame.trans hsame', .inl ⟨q', hinside⟩⟩,
        fun hbad => ?_⟩
      rw [hsame.nextEntry] at hnext
      exact absurd hnext (Malformed.not_nextEntry (a := (q, it₁.key)) hbad _)

-- A scan from a restart point, as the other methods make it.
theorem scanFrom_endsWell (ha : Area it) {f : Nat → Iter → Exec Iter} {go : Nat × Bytes → Prop}
    (hf : IsScan f go) (it₁ : Iter) (hsame : SameBlock it it₁) (r : Nat)
    (hr : r < it.numRestarts)
    (hfits : ∀ q key, ScansFrom it go r q key → Fits it q key) :
    ∃ it₂ it', it₁.seekToRestartPoint r = .ok it₂ ∧ it₂.restarts = it.restarts ∧
      f it₂.scanFuel it₂ = .ok it' ∧ Settled it it' ∧ ((∃ q key, ScansFrom it go r q key ∧ Malformed it q key) → Corrupt it') := by
  obtain ⟨start, it₂, hpoint, hseek, hsame₂, hkey, hp⟩ :=
    (hsame.area ha).seekToRestartPoint_total r (by rwa [hsame.numRestarts_eq])
  rw [hsame.getRestartPoint] at hpoint
  have hall := hsame.trans hsame₂
  obtain ⟨it', hrun, hsame', hscanned⟩ := scan_total hf it ha it₂.scanFuel it₂ start hall hp
    (by
      rw [hkey]
      exact fun b hb => hfits b.1 b.2 ⟨start, hpoint, hb⟩)
    (by
      rw [Iter.scanFuel, hall.restarts_eq]
      omega)
  rw [hkey] at hscanned
  refine ⟨it₂, it', hseek, hall.restarts_eq, hrun, ⟨hsame', hscanned.place⟩, ?_⟩
  rintro ⟨q, key, ⟨start', hpoint', hreach⟩, hbad⟩
  obtain rfl := Except.ok.inj (hpoint.symm.trans hpoint')
  exact hscanned.corrupt hreach hbad

theorem next_move (ha : Area it) (hin : Inside it q) : EndsWell cmp it .next it.next := by
  intro hfits
  have hoffset := hin.nextEntryOffset_eq
  obtain ⟨it', hnext, hsettled, hbad⟩ := ha.next_endsWell it .rfl hin.toPrepared
    (hfits q it.key ⟨hoffset, rfl⟩)
  refine ⟨it', hnext, hsettled, ?_⟩
  rintro ⟨q', key, ⟨hoffset', rfl⟩, hbad'⟩
  obtain rfl := Except.ok.inj (hoffset.symm.trans hoffset')
  exact hbad hbad'

theorem toFirst_move (ha : Area it) : EndsWell cmp it .toFirst it.seekToFirst := by
  intro hfits
  obtain ⟨start, it₁, hpoint, hseek, hsame, hkey, hp⟩ :=
    ha.seekToRestartPoint_total 0 ha.num_pos
  obtain ⟨it', hnext, hsettled, hbad⟩ := ha.next_endsWell it₁ hsame hp
    (by
      rw [hkey]
      exact hfits start [] ⟨hpoint, rfl⟩)
  rw [hkey] at hbad
  refine ⟨it', by rw [Iter.seekToFirst, hseek, ok_bind, hnext], hsettled, ?_⟩
  rintro ⟨q', key, ⟨hpoint', rfl⟩, hbad'⟩
  obtain rfl := Except.ok.inj (hpoint.symm.trans hpoint')
  exact hbad hbad'

theorem toLast_move (ha : Area it) : EndsWell cmp it .toLast it.seekToLast := by
  intro hfits
  have hpos := ha.num_pos
  obtain ⟨it₁, it', hseek, hsame, hscan, hsettled, hbad⟩ := ha.scanFrom_endsWell
    (scan_isScan it.restarts) it .rfl (it.numRestarts - 1) (by omega) hfits
  refine ⟨it', ?_, hsettled, hbad⟩
  rw [Iter.seekToLast, sub32_of_le hpos, hseek, ok_bind, hsame, hscan]

-- The first loop of `Prev` stops at a restart point before the current entry, or
-- sees that there is none.
theorem retreat_total (ha : Area it) (fuel r : Nat) (hr : r < it.numRestarts) (hfuel : r < fuel)
    (hrest : r ≤ it.restartIndex)
    (hbehind : ∀ r', r < r' → r' ≤ it.restartIndex →
      ∃ q, it.getRestartPoint r' = .ok q ∧ it.current ≤ q) :
    (Iter.retreatRestartIndex fuel { it with restartIndex := r } =
        .ok ({ it with current := it.restarts, restartIndex := it.numRestarts }, false) ∧
      ∀ r' ≤ it.restartIndex, ∃ q, it.getRestartPoint r' = .ok q ∧ it.current ≤ q) ∨
      ∃ r', Retreats it r' ∧ r' < it.numRestarts ∧
        Iter.retreatRestartIndex fuel { it with restartIndex := r } =
          .ok ({ it with restartIndex := r' }, true) := by
  induction fuel generalizing r with
  | zero => omega
  | succ fuel ih =>
      obtain ⟨q, hq, -⟩ := ha.getRestartPoint_total r hr
      have hq' : Iter.getRestartPoint { it with restartIndex := r } r = .ok q := hq
      rw [Iter.retreatRestartIndex]
      dsimp only
      rw [hq', ok_bind]
      by_cases hge : q ≥ it.current
      · have hbehind' : ∀ r', r ≤ r' → r' ≤ it.restartIndex →
            ∃ q, it.getRestartPoint r' = .ok q ∧ it.current ≤ q := by
          intro r' hle hle'
          rcases Nat.lt_or_eq_of_le hle with hlt | rfl
          · exact hbehind r' hlt hle'
          · exact ⟨q, hq, hge⟩
        rw [if_pos hge]
        by_cases hzero : r = 0
        · rw [if_pos hzero]
          exact .inl ⟨rfl, fun r' hr' => hbehind' r' (by omega) hr'⟩
        · rw [if_neg hzero]
          exact ih (r - 1) (by omega) (by omega) (by omega)
            fun r' hlt hle => hbehind' r' (by omega) hle
      · rw [if_neg hge]
        exact .inr ⟨r, ⟨hrest, ⟨q, hq, by omega⟩, hbehind⟩, hr, rfl⟩

theorem retreats_unique {r r' : Nat} (h : Retreats it r) (h' : Retreats it r') : r = r' := by
  obtain ⟨hle, ⟨q, hq, hlt⟩, hbehind⟩ := h
  obtain ⟨hle', ⟨q', hq', hlt'⟩, hbehind'⟩ := h'
  rcases Nat.lt_trichotomy r r' with hrr | hrr | hrr
  · obtain ⟨p, hp, hge⟩ := hbehind r' hrr hle'
    obtain rfl := Except.ok.inj (hq'.symm.trans hp)
    omega
  · exact hrr
  · obtain ⟨p, hp, hge⟩ := hbehind' r hrr hle
    obtain rfl := Except.ok.inj (hq.symm.trans hp)
    omega

theorem prev_move (ha : Area it) (hin : Inside it q) : EndsWell cmp it .prev it.prev := by
  intro hfits
  have hvalid : it.valid = true := decide_eq_true hin.current_lt
  have hindex := hin.index
  rcases ha.retreat_total (it.numRestarts + 1) it.restartIndex hindex (by omega) (Nat.le_refl _)
    (fun r' hlt hle => absurd hlt (by omega)) with ⟨hretreat, hnone⟩ | ⟨r, hr, hlt, hretreat⟩
  · refine ⟨{ it with current := it.restarts, restartIndex := it.numRestarts }, ?_,
      ⟨⟨rfl, rfl, rfl⟩, .inr rfl⟩, ?_⟩
    · simp only [Iter.prev, hvalid, assertThat_pos, ok_bind, hretreat]
      rfl
    · rintro ⟨q', key, ⟨r, ⟨hle, ⟨p, hp, hlt⟩, -⟩, -⟩, -⟩
      obtain ⟨p', hp', hge⟩ := hnone r hle
      obtain rfl := Except.ok.inj (hp.symm.trans hp')
      omega
  · obtain ⟨it₂, it', hseek, -, hscan, hsettled, hbad⟩ := ha.scanFrom_endsWell
      (scan_isScan it.current) { it with restartIndex := r } ⟨rfl, rfl, rfl⟩ r hlt
      fun q' key hscans => hfits q' key ⟨r, hr, hscans⟩
    refine ⟨it', ?_, hsettled, ?_⟩
    · simp only [Iter.prev, hvalid, assertThat_pos, ok_bind, hretreat, ite_true, hseek, hscan]
    · rintro ⟨q', key, ⟨r', hr', hscans⟩, hbad'⟩
      obtain rfl := retreats_unique hr hr'
      exact hbad ⟨q', key, hscans, hbad'⟩

-- A key at a restart point is decoded from an entry that is not malformed.
theorem midKey_not_malformed {mid : Nat} {key : Bytes} (h : MidKey it mid key)
    (hq : it.getRestartPoint mid = .ok q) : ¬Malformed it q [] := by
  obtain ⟨q', e, hq', he, hshared, -⟩ := h
  obtain rfl := Except.ok.inj (hq.symm.trans hq')
  rintro ⟨-, hnone | ⟨e', he', hlong⟩⟩
  · rw [he] at hnone
    cases hnone
  · obtain rfl := Option.some.inj (Except.ok.inj (he.symm.trans he'))
    rw [hshared] at hlong
    exact Nat.not_lt_zero _ hlong

-- What one turn of the binary search comes to: there is no key to compare, or the
-- search goes on between new bounds, or the key leads out of the contents.
inductive Probes (cmp : Comparator) (it : Iter) (target : Bytes) (fuel left right : Nat) :
    Exec (Option Nat) → Prop
  | none : (∀ key, ¬MidKey it ((left + right + 1) / 2) key) →
      Probes cmp it target fuel left right (.ok none)
  | key (key : Bytes) : MidKey it ((left + right + 1) / 2) key →
      Probes cmp it target fuel left right (
        if cmp.compare key target < 0 then
          Iter.searchRestarts cmp it target fuel ((left + right + 1) / 2) right
        else Iter.searchRestarts cmp it target fuel left ((left + right + 1) / 2 - 1))
  | past (q : Nat) (e : EntryHeader) : it.getRestartPoint ((left + right + 1) / 2) = .ok q →
      Accepted { it with key := [] } q e → it.data.length < e.next + e.nonShared →
        Probes cmp it target fuel left right (.error .outOfBounds)

theorem search_probes (ha : Area it) (target : Bytes) (fuel left right : Nat) (hlt : left < right)
    (hright : right < it.numRestarts) : Probes cmp it target fuel left right
      (Iter.searchRestarts cmp it target (fuel + 1) left right) := by
  have hlen := ha.length_eq
  have hfit := ha.length_lt
  have hmid : (left + right + 1) % 2 ^ 32 / 2 = (left + right + 1) / 2 := by
    rw [Nat.mod_eq_of_lt (by omega)]
  obtain ⟨q, hq, -⟩ := ha.getRestartPoint_total ((left + right + 1) / 2) (by omega)
  obtain ⟨o, ho, hin⟩ := decodeEntry_total it.data q it.restarts (by omega)
  have hdecoded : ∀ key, MidKey it ((left + right + 1) / 2) key →
      ∃ e, o = some e ∧ e.shared = 0 := by
    rintro key ⟨q', e, hq', he, hshared, -⟩
    obtain rfl := Except.ok.inj (hq.symm.trans hq')
    exact ⟨e, Except.ok.inj (ho.symm.trans he), hshared⟩
  rw [Iter.searchRestarts, if_pos hlt]
  dsimp only
  rw [hmid, hq, ok_bind, ho, ok_bind]
  cases o with
  | none =>
      refine .none fun key hkey => ?_
      obtain ⟨e, he, -⟩ := hdecoded key hkey
      cases he
  | some e =>
      obtain ⟨hheader, hcheck⟩ := hin e rfl
      dsimp only
      by_cases hshared : e.shared = 0
      · rw [if_neg (not_not_intro hshared)]
        by_cases hread : e.next + e.nonShared ≤ it.data.length
        · have hrange := readRange_total it.data e.next e.nonShared hread
          rw [hrange, ok_bind]
          exact .key _ ⟨q, e, hq, ho, hshared, hrange⟩
        · have hpast : it.data.length < e.next + e.nonShared := Nat.lt_of_not_le hread
          have hinside : q < it.restarts := hheader.next_gt.trans_le hheader.next_le
          rw [readRange_past _ _ _ hpast]
          exact .past q e hq ⟨hheader, hinside, ho, Nat.le_of_eq hshared, hcheck⟩ hpast
      · rw [if_pos hshared]
        refine .none fun key hkey => ?_
        obtain ⟨e', he', hzero⟩ := hdecoded key hkey
        obtain rfl := Option.some.inj he'
        exact hshared hzero

section Search

variable (ha : Area it) (target : Bytes)
  (hfits : ∀ q key, Decodes cmp it (.seek target) q key → Fits it q key)
include ha hfits

-- One turn of the binary search ends it when there is no key to compare, and
-- else goes on between new bounds.
theorem search_turn (fuel left right : Nat) (hsearches : Searches cmp it target left right)
    (hlt : left < right) (hright : right < it.numRestarts) :
    (Iter.searchRestarts cmp it target (fuel + 1) left right = .ok none ∧
      ∀ key, ¬MidKey it ((left + right + 1) / 2) key) ∨
    ∃ key, MidKey it ((left + right + 1) / 2) key ∧
      Iter.searchRestarts cmp it target (fuel + 1) left right =
        if cmp.compare key target < 0 then
          Iter.searchRestarts cmp it target fuel ((left + right + 1) / 2) right
        else Iter.searchRestarts cmp it target fuel left ((left + right + 1) / 2 - 1) := by
  have hprobes := @search_probes it cmp ha target fuel left right hlt hright
  generalize Iter.searchRestarts cmp it target (fuel + 1) left right = o at hprobes
  cases hprobes with
  | none hnone => exact .inl ⟨rfl, hnone⟩
  | key key hkey => exact .inr ⟨key, hkey, rfl⟩
  | past q e hq he hpast =>
      -- an entry that fits ends inside the block
      have hsum := hfits q [] (.inl ⟨left, right, hsearches, hlt, hq, rfl⟩) e he.decoded
        he.shared_le
      have hlen := ha.length_eq
      have hlt' := ha.length_lt
      have hend := he.end_le (by dsimp only; omega) hsum
      dsimp only at hend
      omega

omit ha hfits in
theorem midKey_unique {mid : Nat} {key key' : Bytes} (h : MidKey it mid key)
    (h' : MidKey it mid key') : key = key' := by
  obtain ⟨q, e, hq, he, -, hkey⟩ := h
  obtain ⟨q', e', hq', he', -, hkey'⟩ := h'
  obtain rfl := Except.ok.inj (hq.symm.trans hq')
  obtain rfl := Option.some.inj (Except.ok.inj (he.symm.trans he'))
  exact Except.ok.inj (hkey.symm.trans hkey')

-- The search comes through all the bounds of the relation.
theorem search_through (left right : Nat) (hsearches : Searches cmp it target left right) :
    left ≤ right ∧ right < it.numRestarts ∧ ∃ fuel, right - left < fuel ∧
      Iter.searchRestarts cmp it target it.numRestarts 0 (it.numRestarts - 1) =
        Iter.searchRestarts cmp it target fuel left right := by
  have hpos := ha.num_pos
  have hturn : ∀ fuel left right key, Searches cmp it target left right → left < right →
      right < it.numRestarts → MidKey it ((left + right + 1) / 2) key →
      Iter.searchRestarts cmp it target (fuel + 1) left right =
        if cmp.compare key target < 0 then
          Iter.searchRestarts cmp it target fuel ((left + right + 1) / 2) right
        else Iter.searchRestarts cmp it target fuel left ((left + right + 1) / 2 - 1) := by
    intro fuel left right key hsearches hlt hright hkey
    rcases ha.search_turn target hfits fuel left right hsearches hlt hright with
      ⟨-, hnone⟩ | ⟨key', hkey', hturn⟩
    · exact absurd hkey (hnone key)
    · rw [hturn, midKey_unique hkey' hkey]
  induction hsearches with
  | start => exact ⟨Nat.zero_le _, by omega, it.numRestarts, by omega, rfl⟩
  | up left right key hsearches hlt hkey hless ih =>
      obtain ⟨hle, hright, fuel, hfuel, hrun⟩ := ih
      obtain ⟨fuel, rfl⟩ : ∃ n, fuel = n + 1 := ⟨fuel - 1, by omega⟩
      refine ⟨by omega, hright, fuel, by omega, hrun.trans ?_⟩
      rw [hturn fuel left right key hsearches hlt hright hkey, if_pos hless]
  | down left right key hsearches hlt hkey hless ih =>
      obtain ⟨hle, hright, fuel, hfuel, hrun⟩ := ih
      obtain ⟨fuel, rfl⟩ : ∃ n, fuel = n + 1 := ⟨fuel - 1, by omega⟩
      refine ⟨by omega, by omega, fuel, by omega, hrun.trans ?_⟩
      rw [hturn fuel left right key hsearches hlt hright hkey, if_neg hless]

-- The search ends without an error, or where its bounds meet.
theorem search_total (fuel left right : Nat) (hsearches : Searches cmp it target left right)
    (hfuel : right - left < fuel) :
    Iter.searchRestarts cmp it target fuel left right = .ok none ∨
      ∃ r, Iter.searchRestarts cmp it target fuel left right = .ok (some r) ∧
        Searches cmp it target r r := by
  induction fuel generalizing left right with
  | zero => omega
  | succ fuel ih =>
      obtain ⟨hle, hright, -⟩ := ha.search_through target hfits left right hsearches
      rcases Nat.lt_or_eq_of_le hle with hlt | rfl
      · rcases ha.search_turn target hfits fuel left right hsearches hlt hright with
          ⟨hnone, -⟩ | ⟨key, hkey, hturn⟩
        · exact .inl hnone
        · rw [hturn]
          split
          · rename_i hless
            exact ih _ _ (.up left right key hsearches hlt hkey hless) (by omega)
          · rename_i hless
            exact ih _ _ (.down left right key hsearches hlt hkey hless) (by omega)
      · exact .inr ⟨left, by rw [Iter.searchRestarts, if_neg (Nat.lt_irrefl _)]; rfl, hsearches⟩

end Search

theorem seek_move (ha : Area it) (target : Bytes) :
    EndsWell cmp it (.seek target) (Iter.seek cmp it target) := by
  intro hfits
  have hpos := ha.num_pos
  have hsub : sub32 it.numRestarts 1 = it.numRestarts - 1 := sub32_of_le hpos
  rcases ha.search_total target hfits it.numRestarts 0 (it.numRestarts - 1) .start (by omega) with
    hnone | ⟨r, hsome, hsearches⟩
  · refine ⟨it.corruptionError, ?_, ⟨⟨rfl, rfl, rfl⟩, .inr rfl⟩, fun _ =>
      corruptionError_corrupt it⟩
    rw [Iter.seek, hsub, hnone]
    rfl
  · obtain ⟨-, hr, -⟩ := ha.search_through target hfits r r hsearches
    obtain ⟨it₂, it', hseek, -, hscan, hsettled, hbad⟩ := ha.scanFrom_endsWell
      (scanKeys_isScan cmp target) it .rfl r hr
      fun q key hscans => hfits q key (.inr ⟨r, hsearches, hscans⟩)
    have hrun : Iter.seek cmp it target = .ok it' := by
      rw [Iter.seek, hsub, hsome, ok_bind]
      dsimp only
      rw [hseek, ok_bind, hscan]
    refine ⟨it', hrun, hsettled, ?_⟩
    rintro ⟨q, key, ⟨left, right, hsearches', hlt, hq, rfl⟩ | ⟨left, hsearches', hscans⟩, hmalformed⟩
    · -- a malformed entry at a restart point would have ended the search
      obtain ⟨-, hright, fuel, hfuel, hthrough⟩ :=
        ha.search_through target hfits left right hsearches'
      obtain ⟨fuel, rfl⟩ : ∃ n, fuel = n + 1 := ⟨fuel - 1, by omega⟩
      rcases ha.search_turn target hfits fuel left right hsearches' hlt hright with
        ⟨hnone, -⟩ | ⟨key, hkey, -⟩
      · rw [hthrough, hnone] at hsome
        cases hsome
      · exact absurd hmalformed (midKey_not_malformed hkey hq)
    · obtain ⟨-, -, fuel, hfuel, hthrough⟩ := ha.search_through target hfits left left hsearches'
      obtain ⟨fuel, rfl⟩ : ∃ n, fuel = n + 1 := ⟨fuel - 1, by omega⟩
      rw [hthrough, Iter.searchRestarts, if_neg (Nat.lt_irrefl _)] at hsome
      obtain rfl := Option.some.inj (Except.ok.inj hsome)
      exact hbad ⟨q, key, hscans, hmalformed⟩

end Area

end Mylldb.Block

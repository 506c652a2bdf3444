import Mylldb.Block.Safety

namespace Mylldb.Block

open Lib.Run Lib.Cursor

-- The entries that a move decodes and accepts have lengths that do not wrap.
def StepFits (cmp : Comparator) (s : BlockIterator) (a : Move Bytes) : Prop :=
  match s with
  | .empty _ => True
  | .iter it => ∀ q key, Decodes cmp it a q key → Fits it q key

-- A move decodes an entry that is malformed.
def MeetsMalformed (cmp : Comparator) (s : BlockIterator) (a : Move Bytes) : Prop :=
  match s with
  | .empty _ => False
  | .iter it => ∃ q key, Decodes cmp it a q key ∧ Malformed it q key

-- The iterator reads from the contents only.
def ReadsFrom (contents : Bytes) : BlockIterator → Prop
  | .empty _ => True
  | .iter it => it.data = contents

-- The key and the whole value can be read while the iterator is valid, and a move
-- that decodes a malformed entry leaves it invalid, with an error.
structure Safe (cmp : Comparator) (contents : Bytes) (s : BlockIterator) : Prop where
  reads : ReadsFrom contents s
  shown : s.valid = true → ∃ key value, s.key = .ok key ∧ s.value = .ok value
  malformed : ∀ a, StepFits cmp s a → MeetsMalformed cmp s a →
    ∀ s', (BlockIterator.machine (Iter.seek cmp)).move s a = .ok (some s') →
      s'.valid = false ∧ s'.status = Status.corruption "bad entry in block" ""

-- What every move keeps.
def Kept (contents : Bytes) : BlockIterator → Prop
  | .empty _ => True
  | .iter it => Area it ∧ it.data = contents ∧ ((∃ q, Inside it q) ∨ it.current = it.restarts)

variable {cmp : Comparator} {contents : Bytes}

-- A valid iterator is not behind the entries.
theorem placed_of_valid {it : Iter} {on : Nat → Prop}
    (h : (∃ q, on q) ∨ it.current = it.restarts) (hvalid : it.valid = true) : ∃ q, on q := by
  rcases h with hon | hcurrent
  · exact hon
  · rw [Iter.valid, hcurrent] at hvalid
    simp at hvalid

-- The method that a move calls.
def method (cmp : Comparator) (it : Iter) : Move Bytes → Exec Iter
  | .toFirst => it.seekToFirst
  | .toLast => it.seekToLast
  | .seek target => Iter.seek cmp it target
  | .next => it.next
  | .prev => it.prev

def Allowed (it : Iter) : Move Bytes → Prop
  | .next => it.valid = true
  | .prev => it.valid = true
  | _ => True

-- A move is refused, or it calls its method.
theorem move_iter (cmp : Comparator) (it : Iter) (a : Move Bytes) :
    (BlockIterator.machine (Iter.seek cmp)).move (.iter it) a = .ok none ∨
      Allowed it a ∧ (BlockIterator.machine (Iter.seek cmp)).move (.iter it) a =
        (fun it => some (BlockIterator.iter it)) <$> method cmp it a := by
  have hsome (f : Exec Iter) : (some <$> (f >>= fun it => (pure (.iter it) : Exec BlockIterator))) =
      (fun it => some (BlockIterator.iter it)) <$> f := by
    cases f <;> rfl
  have hguarded (f : Iter → Exec Iter) :
      (if it.valid = true then some <$> BlockIterator.step f (.iter it) else .ok none) = .ok none ∨
        it.valid = true ∧
          (if it.valid = true then some <$> BlockIterator.step f (.iter it) else .ok none) =
            (fun it => some (BlockIterator.iter it)) <$> f it := by
    by_cases hit : it.valid = true
    · rw [if_pos hit]
      exact .inr ⟨hit, hsome _⟩
    · rw [if_neg hit]
      exact .inl rfl
  cases a with
  | toFirst => exact .inr ⟨trivial, hsome _⟩
  | toLast => exact .inr ⟨trivial, hsome _⟩
  | seek target => exact .inr ⟨trivial, hsome _⟩
  | next => exact hguarded Iter.next
  | prev => exact hguarded Iter.prev

theorem method_endsWell {it : Iter} (hkept : Kept contents (.iter it)) (a : Move Bytes)
    (hallowed : Allowed it a) : EndsWell cmp it a (method cmp it a) := by
  obtain ⟨ha, -, hplace⟩ := hkept
  cases a with
  | toFirst => exact ha.toFirst_move
  | toLast => exact ha.toLast_move
  | seek target => exact ha.seek_move target
  | next =>
      obtain ⟨q, hq⟩ := placed_of_valid hplace hallowed
      exact ha.next_move hq
  | prev =>
      obtain ⟨q, hq⟩ := placed_of_valid hplace hallowed
      exact ha.prev_move hq

-- On an `EmptyIterator` no move reads anything.
theorem move_empty (cmp : Comparator) (status : Status) (a : Move Bytes) :
    ∃ o, (BlockIterator.machine (Iter.seek cmp)).move (.empty status) a = .ok o ∧
      ∀ s' ∈ o, s' = .empty status := by
  cases a with
  | toFirst => exact ⟨_, rfl, by simp⟩
  | toLast => exact ⟨_, rfl, by simp⟩
  | seek target => exact ⟨_, rfl, by simp⟩
  | next => exact ⟨none, rfl, by simp⟩
  | prev => exact ⟨none, rfl, by simp⟩

theorem Kept.move (s : BlockIterator) (a : Move Bytes) (hs : Kept contents s)
    (hfits : StepFits cmp s a) :
    ∃ o, (BlockIterator.machine (Iter.seek cmp)).move s a = .ok o ∧ ∀ s' ∈ o, Kept contents s' := by
  cases s with
  | empty status =>
      obtain ⟨o, ho, hsame⟩ := move_empty cmp status a
      exact ⟨o, ho, fun s' hs' => hsame s' hs' ▸ trivial⟩
  | iter it =>
      rcases move_iter cmp it a with hnone | ⟨hallowed, hmove⟩
      · exact ⟨none, hnone, by simp⟩
      · obtain ⟨it', hf, hsettled, -⟩ := method_endsWell hs a hallowed hfits
        refine ⟨some (.iter it'), by rw [hmove, hf]; rfl, fun s' hs' => ?_⟩
        obtain rfl := Option.some.inj hs'
        exact ⟨hsettled.same.area hs.1, hsettled.same.data_eq.trans hs.2.1, hsettled.place⟩

theorem Kept.safe (s : BlockIterator) (hs : Kept contents s) : Safe cmp contents s := by
  cases s with
  | empty status =>
      refine ⟨trivial, fun hvalid => ?_, fun a _ hbad => hbad.elim⟩
      cases hvalid
  | iter it =>
      refine ⟨hs.2.1, fun hvalid => ?_, fun a hfits hbad s' hs' => ?_⟩
      · obtain ⟨q, hq⟩ := placed_of_valid hs.2.2 hvalid
        obtain ⟨p, n, hvalue, hend⟩ := hq.value
        have hlen := hs.1.length_eq
        have hle := hq.end_le
        have hit : it.valid = true := hvalid
        refine ⟨it.key, (it.data.drop p).take n, ?_, ?_⟩
        · simp only [BlockIterator.key, Iter.getKey, hit, assertThat_pos, ok_bind, pure_eq]
        · simp only [BlockIterator.value, Iter.getValue, hit, assertThat_pos, ok_bind, hvalue]
          exact readRange_total it.data p n (by omega)
      · rcases move_iter cmp it a with hnone | ⟨hallowed, hmove⟩
        · rw [hnone] at hs'
          cases hs'
        · obtain ⟨it', hf, -, hcorrupt⟩ := method_endsWell hs a hallowed hfits
          rw [hmove, hf] at hs'
          obtain rfl := Option.some.inj (Except.ok.inj hs')
          have hc := hcorrupt hbad
          refine ⟨?_, hc.status⟩
          simp [BlockIterator.valid, Iter.valid, hc.current]

-- The whole restart array lies in the contents, and its length is behind it.
structure HasArray (contents : Bytes) (b : Block) (offset n : Nat) : Prop where
  size_eq : b.size = contents.length
  restartOffset_eq : b.restartOffset = some offset
  numRestarts_eq : b.numRestarts = .ok n
  end_eq : offset + 4 * n + 4 = contents.length

def freshIter (contents : Bytes) (offset n : Nat) : Iter :=
  ⟨contents, offset, n, offset, n, [], none, .ok⟩

-- The constructor of the block finds room for the restart array, or gives up.
theorem newIterator_cases (contents : Bytes) (hlen : contents.length < 2 ^ 32) :
    ∃ block it, Block.new contents = .ok block ∧ block.newIterator = .ok it ∧
      ((block.size = 0 ∧ ∃ status, it = .empty status) ∨
        ∃ offset n, HasArray contents block offset n ∧
          (it = .empty .ok ∨ 0 < n ∧ it = .iter (freshIter contents offset n))) := by
  by_cases hsmall : contents.length < 4
  · exact ⟨⟨contents, 0, none⟩, _, if_pos hsmall, rfl, .inl ⟨rfl, _, rfl⟩⟩
  · have hrange := readRange_total contents (contents.length - 4) 4 (by omega)
    obtain ⟨n, hn⟩ : ∃ n, decodeFixed32 contents (contents.length - 4) = .ok n := by
      rw [decodeFixed32, hrange]
      exact ⟨_, rfl⟩
    have hnum (offset : Option Nat) : numRestarts ⟨contents, contents.length, offset⟩ = .ok n := by
      rw [numRestarts, assertThat_pos (by dsimp only; omega), ok_bind]
      exact hn
    by_cases hbad : n > (contents.length - 4) / 4
    · refine ⟨⟨contents, 0, none⟩, _, ?_, rfl, .inl ⟨rfl, _, rfl⟩⟩
      simp only [Block.new]
      rw [if_neg hsmall, hnum, ok_bind, if_pos hbad]
      rfl
    · have hoffset : (contents.length - (1 + n) % 2 ^ 32 * 4) % 2 ^ 32 =
          contents.length - (1 + n) * 4 := by
        have hcount : (1 + n) % 2 ^ 32 = 1 + n := Nat.mod_eq_of_lt (by omega)
        have hsize : contents.length - (1 + n) * 4 < 2 ^ 32 := by omega
        rw [hcount, Nat.mod_eq_of_lt hsize]
      have hnew : Block.new contents =
          .ok ⟨contents, contents.length, some (contents.length - (1 + n) * 4)⟩ := by
        simp only [Block.new]
        rw [if_neg hsmall, hnum, ok_bind, if_neg hbad, hoffset]
        rfl
      have harray : HasArray contents
          ⟨contents, contents.length, some (contents.length - (1 + n) * 4)⟩
          (contents.length - (1 + n) * 4) n :=
        ⟨rfl, rfl, hnum _, by omega⟩
      by_cases hzero : n = 0
      · refine ⟨_, .empty .ok, hnew, ?_, .inr ⟨_, n, harray, .inl rfl⟩⟩
        simp only [newIterator]
        rw [if_neg hsmall, hnum, ok_bind, if_pos hzero]
        rfl
      · refine ⟨_, .iter (freshIter contents (contents.length - (1 + n) * 4) n), hnew, ?_,
          .inr ⟨_, n, harray, .inr ⟨Nat.pos_of_ne_zero hzero, rfl⟩⟩⟩
        simp only [newIterator]
        rw [if_neg hsmall, hnum, ok_bind, if_neg hzero, Iter.new, assertThat_pos (by omega)]
        rfl

theorem HasArray.area {block : Block} {offset n : Nat} (h : HasArray contents block offset n)
    (hlen : contents.length < 2 ^ 32) (hn : 0 < n) : Area (freshIter contents offset n) :=
  ⟨h.end_eq.symm, hlen, hn⟩

theorem newIterator_kept (contents : Bytes) (hlen : contents.length < 2 ^ 32) :
    ∃ block it, Block.new contents = .ok block ∧ block.newIterator = .ok it ∧ Kept contents it := by
  obtain ⟨block, it, hblock, hit, hcases⟩ := newIterator_cases contents hlen
  refine ⟨block, it, hblock, hit, ?_⟩
  rcases hcases with ⟨-, status, rfl⟩ | ⟨offset, n, harray, rfl | ⟨hn, rfl⟩⟩
  · trivial
  · trivial
  · exact ⟨harray.area hlen hn, rfl, .inr rfl⟩

theorem run_safe (cmp : Comparator) (contents : Bytes) (hlen : contents.length < 2 ^ 32) :
    ∃ block it, Block.new contents = .ok block ∧ block.newIterator = .ok it ∧
      ∀ moves, (BlockIterator.machine (Iter.seek cmp)).Meets (StepFits cmp) it moves →
        ∃ o, (BlockIterator.machine (Iter.seek cmp)).run it moves = .ok o ∧
          ∀ s ∈ o, Safe cmp contents s := by
  obtain ⟨block, it, hblock, hit, hkept⟩ := newIterator_kept contents hlen
  refine ⟨block, it, hblock, hit, fun moves hmeets => ?_⟩
  obtain ⟨o, ho, hkept'⟩ := Machine.run_invariant (StepFits cmp) (Kept contents)
    (fun s a hs hfits => hs.move s a hfits) moves it hkept hmeets
  exact ⟨o, ho, fun s hs => (hkept' s hs).safe⟩

-- One entry and one restart point.
def sampleContents : Bytes := [0, 1, 1, 97, 2, 0, 0, 0, 0, 1, 0, 0, 0]

def sampleIter : Iter := ⟨sampleContents, 5, 1, 5, 1, [], none, .ok⟩

theorem run_safe_sample : ∃ block o, Block.new sampleContents = .ok block ∧
    block.newIterator = .ok (.iter sampleIter) ∧
      (BlockIterator.machine (Iter.seek bytewiseComparator)).run (.iter sampleIter)
        [.toFirst, .next] = .ok o ∧ ∀ s ∈ o, Safe bytewiseComparator sampleContents s := by
  obtain ⟨block, it, hblock, hit, hruns⟩ := run_safe bytewiseComparator sampleContents (by decide)
  have hnew : Block.new sampleContents = .ok ⟨sampleContents, 13, some 5⟩ := rfl
  obtain rfl := Except.ok.inj (hblock.symm.trans hnew)
  have hiter : newIterator ⟨sampleContents, 13, some 5⟩ = .ok (.iter sampleIter) := rfl
  obtain rfl := Except.ok.inj (hit.symm.trans hiter)
  have hfirst : decodeEntry sampleContents 0 5 = .ok (some ⟨3, 0, 1, 1⟩) := rfl
  have hend : decodeEntry sampleContents 5 5 = .ok none := rfl
  obtain ⟨o, ho, hsafe⟩ := hruns [.toFirst, .next] (by
    refine ⟨fun q key ⟨hq, _⟩ e he _ => ?_, fun s' hs' => ⟨?_, fun _ _ => trivial⟩⟩
    · obtain rfl : 0 = q := Except.ok.inj hq
      obtain rfl := Option.some.inj (Except.ok.inj (hfirst.symm.trans he))
      decide
    · have hmove : (BlockIterator.machine (Iter.seek bytewiseComparator)).move (.iter sampleIter)
          .toFirst = .ok (some (.iter
            { sampleIter with current := 0, restartIndex := 0, key := [97], value := some (4, 1) })) := rfl
      obtain rfl := Option.some.inj (Except.ok.inj (hmove.symm.trans hs'))
      rintro q key ⟨hq, -⟩ e he -
      obtain rfl : 5 = q := Except.ok.inj hq
      cases hend.symm.trans he)
  exact ⟨_, o, hblock, hit, ho, hsafe⟩

-- One entry with `non_shared = 2 ^ 32 - 1` and `value_length = 1`.
def wrappedContents : Bytes :=
  [0, 0xff, 0xff, 0xff, 0xff, 0x0f, 1, 0, 0, 0, 0, 1, 0, 0, 0]

theorem run_wrapped : ∃ block it, Block.new wrappedContents = .ok block ∧
    block.newIterator = .ok it ∧
      (BlockIterator.machine (Iter.seek bytewiseComparator)).run it [.toFirst] =
        .error .outOfBounds :=
  ⟨⟨wrappedContents, 15, some 7⟩, .iter ⟨wrappedContents, 7, 1, 7, 1, [], none, .ok⟩, rfl, rfl, rfl⟩

end Mylldb.Block

import Mylldb.Block
import Mylldb.Lib.Base128
import Mathlib.Logic.Relation

namespace Mylldb.Block

open Lib.Run Lib.Base128

-- What a decoded number says about its place: it was read before the limit.
def ReadBefore (p limit : Nat) (o : Option (Nat × Nat)) : Prop :=
  ∀ q v, o = some (q, v) → p < q ∧ q ≤ limit ∧ v < 2 ^ 32

theorem fallback_total (data : Bytes) (limit : Nat) (hlimit : limit ≤ data.length)
    (turns shift p result : Nat) (hresult : result < 2 ^ 32) :
    ∃ o, getVarint32PtrFallback.loop data limit turns shift p result = .ok o ∧
      ReadBefore p limit o := by
  induction turns generalizing shift p result with
  | zero => exact ⟨none, rfl, by simp [ReadBefore]⟩
  | succ turns ih =>
      unfold getVarint32PtrFallback.loop
      by_cases hp : p < limit
      · obtain ⟨b, hb⟩ := readByte_total data p (by omega)
        have hor (group : Nat) : result ||| (group <<< shift) % 2 ^ 32 < 2 ^ 32 :=
          Nat.or_lt_two_pow hresult (Nat.mod_lt _ (by decide))
        rw [if_pos hp, hb, ok_bind]
        split
        · obtain ⟨o, ho, hbefore⟩ := ih (shift + 7) (p + 1) _ (hor (b.toNat &&& 127))
          refine ⟨o, ho, fun q v hqv => ?_⟩
          have hread := hbefore q v hqv
          omega
        · refine ⟨_, rfl, fun q v hqv => ?_⟩
          cases hqv
          exact ⟨Nat.lt_succ_self p, hp, hor b.toNat⟩
      · rw [if_neg hp]
        exact ⟨none, rfl, by simp [ReadBefore]⟩

theorem getVarint32Ptr_total (data : Bytes) (p limit : Nat) (hlimit : limit ≤ data.length) :
    ∃ o, getVarint32Ptr data p limit = .ok o ∧ ReadBefore p limit o := by
  obtain ⟨o, ho, hbefore⟩ := fallback_total data limit hlimit 5 0 p 0 (by decide)
  unfold getVarint32Ptr
  split
  · rename_i hp
    obtain ⟨b, hb⟩ := readByte_total data p (by omega)
    rw [hb, ok_bind]
    split
    · refine ⟨_, rfl, fun q v hqv => ?_⟩
      cases hqv
      have hlt := b.toNat_lt
      omega
    · exact ⟨o, ho, hbefore⟩
  · exact ⟨o, ho, hbefore⟩

-- A header lies between its entry and the limit, and passed the check of the
-- decoder.
structure HeaderIn (p limit : Nat) (e : EntryHeader) : Prop where
  next_gt : p < e.next
  next_le : e.next ≤ limit
  nonShared_lt : e.nonShared < 2 ^ 32
  valueLength_lt : e.valueLength < 2 ^ 32

theorem decodeLengths_total (data : Bytes) (p limit : Nat) (hlimit : limit ≤ data.length) :
    ∃ o, decodeLengths data p limit = .ok o ∧ ∀ e ∈ o, HeaderIn p limit e := by
  obtain ⟨o₁, h₁, hb₁⟩ := getVarint32Ptr_total data p limit hlimit
  rcases o₁ with - | ⟨q₁, shared⟩
  · exact ⟨none, by simp [decodeLengths, h₁], by simp⟩
  obtain ⟨o₂, h₂, hb₂⟩ := getVarint32Ptr_total data q₁ limit hlimit
  rcases o₂ with - | ⟨q₂, nonShared⟩
  · exact ⟨none, by simp [decodeLengths, h₁, h₂], by simp⟩
  obtain ⟨o₃, h₃, hb₃⟩ := getVarint32Ptr_total data q₂ limit hlimit
  rcases o₃ with - | ⟨q₃, valueLength⟩
  · exact ⟨none, by simp [decodeLengths, h₁, h₂, h₃], by simp⟩
  refine ⟨some ⟨q₃, shared, nonShared, valueLength⟩, by simp [decodeLengths, h₁, h₂, h₃], ?_⟩
  intro e he
  obtain rfl := Option.some.inj he
  have hread₁ := hb₁ _ _ rfl
  have hread₂ := hb₂ _ _ rfl
  have hread₃ := hb₃ _ _ rfl
  exact ⟨by dsimp only; omega, hread₃.2.1, hread₂.2.2, hread₃.2.2⟩

theorem checkEntry_some {limit : Nat} {e e' : EntryHeader} (h : checkEntry limit e = some e') :
    e' = e ∧ (e.nonShared + e.valueLength) % 2 ^ 32 ≤ (limit - e.next) % 2 ^ 32 := by
  unfold checkEntry at h
  split at h
  · cases h
  · obtain rfl := Option.some.inj h
    exact ⟨rfl, by omega⟩

-- The decoder reads nothing behind the limit, whatever the bytes are.
theorem decodeEntry_total (data : Bytes) (p limit : Nat) (hlimit : limit ≤ data.length) :
    ∃ o, decodeEntry data p limit = .ok o ∧ ∀ e ∈ o, HeaderIn p limit e ∧
      (e.nonShared + e.valueLength) % 2 ^ 32 ≤ (limit - e.next) % 2 ^ 32 := by
  unfold decodeEntry
  split
  · exact ⟨none, rfl, by simp⟩
  · rename_i hthree
    obtain ⟨b₀, hb₀⟩ := readByte_total data p (by omega)
    obtain ⟨b₁, hb₁⟩ := readByte_total data (p + 1) (by omega)
    obtain ⟨b₂, hb₂⟩ := readByte_total data (p + 2) (by omega)
    have hlt₁ := b₁.toNat_lt
    have hlt₂ := b₂.toNat_lt
    rw [hb₀, ok_bind, hb₁, ok_bind, hb₂, ok_bind]
    split
    · refine ⟨_, rfl, fun e he => ?_⟩
      obtain ⟨rfl, hcheck⟩ := checkEntry_some he
      exact ⟨⟨by dsimp only; omega, by dsimp only; omega, by dsimp only; omega,
        by dsimp only; omega⟩, hcheck⟩
    · obtain ⟨o, ho, hin⟩ := decodeLengths_total data p limit hlimit
      rw [ho, ok_bind]
      refine ⟨_, rfl, fun e he => ?_⟩
      obtain ⟨e', he', hsome⟩ := Option.bind_eq_some_iff.mp he
      obtain ⟨rfl, hcheck⟩ := checkEntry_some hsome
      exact ⟨hin _ he', hcheck⟩

-- The entry at `q`, decoded after `key`, is rejected.
def Malformed (it : Iter) (q : Nat) (key : Bytes) : Prop :=
  q < it.restarts ∧ (decodeEntry it.data q it.restarts = .ok none ∨
    ∃ e, decodeEntry it.data q it.restarts = .ok (some e) ∧ key.length < e.shared)

-- The lengths of the entry at `q`, if it is accepted after `key`, do not wrap.
def Fits (it : Iter) (q : Nat) (key : Bytes) : Prop :=
  ∀ e, decodeEntry it.data q it.restarts = .ok (some e) → e.shared ≤ key.length →
    e.nonShared + e.valueLength < 2 ^ 32

-- The entry at the first place is accepted, and the second place is behind it.
def NextEntry (it : Iter) (a b : Nat × Bytes) : Prop :=
  a.1 < it.restarts ∧ ∃ e, decodeEntry it.data a.1 it.restarts = .ok (some e) ∧
    e.shared ≤ a.2.length ∧ b.1 = e.next + e.nonShared + e.valueLength ∧
    b.2 = a.2.take e.shared ++ (it.data.drop e.next).take e.nonShared

-- The fields that no method of the iterator changes, as the constructor of the
-- block left them.
structure Area (it : Iter) : Prop where
  length_eq : it.data.length = it.restarts + 4 * it.numRestarts + 4
  length_lt : it.data.length < 2 ^ 32
  num_pos : 0 < it.numRestarts

-- The iterator is about to parse at `q`.
structure Prepared (it : Iter) (q : Nat) : Prop where
  value : ∃ p n, it.value = some (p, n) ∧ p + n = q
  offset_lt : q < 2 ^ 32
  index : it.restartIndex < it.numRestarts

-- The iterator stands on an entry that ends at `q` inside the block.
structure Inside (it : Iter) (q : Nat) : Prop extends Prepared it q where
  current_lt : it.current < it.restarts
  end_le : q ≤ it.restarts

-- Two iterators over the same bytes.
structure SameBlock (it it' : Iter) : Prop where
  data_eq : it'.data = it.data
  restarts_eq : it'.restarts = it.restarts
  numRestarts_eq : it'.numRestarts = it.numRestarts

theorem SameBlock.rfl {it : Iter} : SameBlock it it := ⟨Eq.refl _, Eq.refl _, Eq.refl _⟩

theorem SameBlock.trans {it it' it'' : Iter} (h : SameBlock it it') (h' : SameBlock it' it'') :
    SameBlock it it'' :=
  ⟨h'.data_eq.trans h.data_eq, h'.restarts_eq.trans h.restarts_eq,
    h'.numRestarts_eq.trans h.numRestarts_eq⟩

theorem SameBlock.area {it it' : Iter} (h : SameBlock it it') (ha : Area it) : Area it' where
  length_eq := by rw [h.data_eq, h.restarts_eq, h.numRestarts_eq, ha.length_eq]
  length_lt := by rw [h.data_eq]; exact ha.length_lt
  num_pos := by rw [h.numRestarts_eq]; exact ha.num_pos

namespace Area

variable {it : Iter} {q : Nat}

theorem getRestartPoint_total (ha : Area it) (r : Nat) (hr : r < it.numRestarts) :
    ∃ q, it.getRestartPoint r = .ok q ∧ q < 2 ^ 32 := by
  have hlen := ha.length_eq
  have hrange := readRange_total it.data (it.restarts + r * 4) 4 (by omega)
  refine ⟨Lib.LittleEndian.value ((it.data.drop (it.restarts + r * 4)).take 4), ?_, ?_⟩
  · simp only [Iter.getRestartPoint, assertThat_pos hr, ok_bind, decodeFixed32, hrange, pure_eq]
  have hvalue := Lib.LittleEndian.value_lt ((it.data.drop (it.restarts + r * 4)).take 4)
  have htake : ((it.data.drop (it.restarts + r * 4)).take 4).length ≤ 4 := List.length_take_le _ _
  exact hvalue.trans_le (Nat.pow_le_pow_right (by decide) htake)

theorem advance_total (ha : Area it) (fuel : Nat) (r : Nat) (hr : r < it.numRestarts)
    (hfuel : it.numRestarts - r < fuel) :
    ∃ r', Iter.advanceRestartIndex fuel { it with restartIndex := r } =
      .ok { it with restartIndex := r' } ∧ r' < it.numRestarts := by
  induction fuel generalizing r with
  | zero => omega
  | succ fuel ih =>
      rw [Iter.advanceRestartIndex]
      dsimp only
      by_cases hnext : r + 1 < it.numRestarts
      · obtain ⟨q, hq, -⟩ := ha.getRestartPoint_total (r + 1) hnext
        have hq' : Iter.getRestartPoint { it with restartIndex := r } (r + 1) = .ok q := hq
        rw [if_pos hnext, hq', ok_bind]
        split
        · exact ih (r + 1) hnext (by omega)
        · exact ⟨r, rfl, hr⟩
      · rw [if_neg hnext]
        exact ⟨r, rfl, hr⟩

theorem seekToRestartPoint_total (ha : Area it) (r : Nat) (hr : r < it.numRestarts) :
    ∃ q it', it.getRestartPoint r = .ok q ∧ it.seekToRestartPoint r = .ok it' ∧
      SameBlock it it' ∧ it'.key = [] ∧ Prepared it' q := by
  obtain ⟨q, hq, hlt⟩ := ha.getRestartPoint_total r hr
  refine ⟨q, { it with key := [], restartIndex := r, value := some (q, 0) }, hq, ?_,
    ⟨rfl, rfl, rfl⟩, rfl, ⟨⟨q, 0, rfl, rfl⟩, hlt, hr⟩⟩
  simp only [Iter.seekToRestartPoint, hq, ok_bind, pure_eq]

end Area

theorem Prepared.nextEntryOffset_eq {it : Iter} {q : Nat} (h : Prepared it q) :
    it.nextEntryOffset = .ok q := by
  obtain ⟨p, n, hvalue, hend⟩ := h.value
  simp only [Iter.nextEntryOffset, hvalue, hend, pure_eq, Nat.mod_eq_of_lt h.offset_lt]

-- The iterator after a corruption error.
structure Corrupt (it : Iter) : Prop where
  current : it.current = it.restarts
  status : it.status = Status.corruption "bad entry in block" ""

theorem corruptionError_corrupt (it : Iter) : Corrupt it.corruptionError := ⟨rfl, rfl⟩

-- What parsing at `q` does: it stops at the end of the entries, or at an entry
-- that is malformed, or it stands on the entry.
inductive Parsed (it : Iter) (q : Nat) : Iter × Bool → Prop
  | stop (it' : Iter) : it.restarts ≤ q → SameBlock it it' → it'.current = it'.restarts →
      Parsed it q (it', false)
  | bad (it' : Iter) : Malformed it q it.key → SameBlock it it' → Corrupt it' →
      Parsed it q (it', false)
  | entry (it' : Iter) (q' : Nat) : NextEntry it (q, it.key) (q', it'.key) → SameBlock it it' →
      Inside it' q' → Parsed it q (it', true)

-- The same place, which may have come about by a sum that wraps.
structure Poised (it : Iter) (q : Nat) : Prop where
  offset : it.nextEntryOffset = .ok q
  index : it.restartIndex < it.numRestarts

theorem Prepared.poised {it : Iter} {q : Nat} (h : Prepared it q) : Poised it q :=
  ⟨h.nextEntryOffset_eq, h.index⟩

-- An entry at `q` that is accepted, as long as its key can be read.
structure Accepted (it : Iter) (q : Nat) (e : EntryHeader) : Prop extends
    HeaderIn q it.restarts e where
  inside : q < it.restarts
  decoded : decodeEntry it.data q it.restarts = .ok (some e)
  shared_le : e.shared ≤ it.key.length
  checked : (e.nonShared + e.valueLength) % 2 ^ 32 ≤ (it.restarts - e.next) % 2 ^ 32

-- Without a wrap the check means that the entry ends inside the block.
theorem Accepted.end_le {it : Iter} {q : Nat} {e : EntryHeader} (he : Accepted it q e)
    (hlimit : it.restarts < 2 ^ 32) (hsum : e.nonShared + e.valueLength < 2 ^ 32) :
    e.next + e.nonShared + e.valueLength ≤ it.restarts := by
  have hcheck := he.checked
  have hnext := he.next_le
  rw [Nat.mod_eq_of_lt hsum, Nat.mod_eq_of_lt (by omega)] at hcheck
  omega

-- What a parse at `q` comes to, whatever the lengths of the entry are.
inductive ParsesTo (it : Iter) (q : Nat) : Exec (Iter × Bool) → Prop
  | stop : it.restarts ≤ q → ParsesTo it q
      (.ok ({ it with current := it.restarts, restartIndex := it.numRestarts }, false))
  | bad : Malformed it q it.key →
      ParsesTo it q (.ok ({ it with current := q }.corruptionError, false))
  | past (e : EntryHeader) : Accepted it q e → it.data.length < e.next + e.nonShared →
      ParsesTo it q (.error .outOfBounds)
  | entry (e : EntryHeader) (r : Nat) : Accepted it q e →
      e.next + e.nonShared ≤ it.data.length → r < it.numRestarts →
        ParsesTo it q (.ok ({ it with
          current := q
          restartIndex := r
          key := it.key.take e.shared ++ (it.data.drop e.next).take e.nonShared
          value := some (e.next + e.nonShared, e.valueLength) }, true))

theorem parse_parsesTo (it : Iter) (q : Nat) (ha : Area it) (hp : Poised it q) :
    ParsesTo it q it.parseNextKey := by
  have hlen := ha.length_eq
  rw [Iter.parseNextKey, hp.offset, ok_bind]
  dsimp only
  by_cases hge : q ≥ it.restarts
  · rw [if_pos hge]
    exact .stop hge
  · have hinside : q < it.restarts := Nat.lt_of_not_le hge
    rw [if_neg hge]
    obtain ⟨o, ho, hin⟩ := decodeEntry_total it.data q it.restarts (by omega)
    rw [ho, ok_bind]
    cases o with
    | none => exact .bad ⟨hinside, .inl ho⟩
    | some e =>
        obtain ⟨hheader, hcheck⟩ := hin e rfl
        dsimp only
        by_cases hshared : it.key.length < e.shared
        · rw [if_pos hshared]
          exact .bad ⟨hinside, .inr ⟨e, ho, hshared⟩⟩
        · rw [if_neg hshared]
          have he : Accepted it q e :=
            ⟨hheader, hinside, ho, Nat.le_of_not_lt hshared, hcheck⟩
          by_cases hread : e.next + e.nonShared ≤ it.data.length
          · rw [readRange_total _ _ _ hread, ok_bind]
            obtain ⟨r, hadvance, hr⟩ := Area.advance_total
              (show Area { it with
                  current := q
                  key := it.key.take e.shared ++ (it.data.drop e.next).take e.nonShared
                  value := some (e.next + e.nonShared, e.valueLength) } from
                ⟨hlen, ha.length_lt, ha.num_pos⟩) (it.numRestarts + 1) it.restartIndex hp.index
              (by dsimp only; omega)
            rw [hadvance, ok_bind]
            exact .entry e r he hread hr
          · have hpast : it.data.length < e.next + e.nonShared := Nat.lt_of_not_le hread
            rw [readRange_past _ _ _ hpast]
            exact .past e he hpast

theorem parse_total (it : Iter) (q : Nat) (ha : Area it) (hp : Prepared it q)
    (hfits : Fits it q it.key) : ∃ o, it.parseNextKey = .ok o ∧ Parsed it q o := by
  have hlen := ha.length_eq
  have hlt := ha.length_lt
  have hends {e : EntryHeader} (he : Accepted it q e) :
      e.next + e.nonShared + e.valueLength ≤ it.restarts :=
    he.end_le (by omega) (hfits e he.decoded he.shared_le)
  have hparse := parse_parsesTo it q ha hp.poised
  generalize it.parseNextKey = o at hparse
  cases hparse with
  | stop hge => exact ⟨_, rfl, .stop _ hge ⟨rfl, rfl, rfl⟩ rfl⟩
  | bad hbad => exact ⟨_, rfl, .bad _ hbad ⟨rfl, rfl, rfl⟩ (corruptionError_corrupt _)⟩
  | past e he hpast =>
      have hend := hends he
      omega
  | entry e r he hread hr =>
      have hend := hends he
      refine ⟨_, rfl, .entry _ (e.next + e.nonShared + e.valueLength)
        ⟨he.inside, e, he.decoded, he.shared_le, rfl, rfl⟩ ⟨rfl, rfl, rfl⟩ ?_⟩
      exact ⟨⟨⟨_, _, rfl, rfl⟩, by omega, hr⟩, he.inside, hend⟩

end Mylldb.Block

import Mylldb.Block.Cursor

namespace Mylldb.Block

open BlockBuilder Lib.Run Lib.Cursor

-- The first entry in block order whose key is not before the target.
def firstAtLeast (cmp : Comparator) (pairs : List (Bytes × Bytes)) (target : Bytes) : Position :=
  pairs.findIdx? fun p => decide (0 ≤ cmp.compare p.1 target)

-- The iterator shows what a cursor over the pairs shows.
def Shows (pairs : List (Bytes × Bytes)) (it : BlockIterator) : Position → Prop
  | none => it.valid = false ∧ it.status = .ok
  | some i => it.valid = true ∧ it.status = .ok ∧
      ∃ p, pairs[i]? = some p ∧ it.key = .ok p.1 ∧ it.value = .ok p.2

def StandsOn (items : List Item) (firsts : List Nat) (data : Bytes) :
    BlockIterator → Position → Prop
  | .empty _, _ => False
  | .iter it, p => Stands items firsts data it p

namespace Layout

variable {items : List Item} {firsts : List Nat} {data : Bytes}

theorem shows_of_standsOn (h : Layout items firsts data) (it : BlockIterator) (p : Position)
    (hstands : StandsOn items firsts data it p) : Shows (items.map Item.pair) it p := by
  cases it with
  | empty status => exact hstands.elim
  | iter it =>
      cases p with
      | none =>
          obtain ⟨hover, hcurrent⟩ := hstands
          refine ⟨?_, hover.status_ok⟩
          simp [BlockIterator.valid, Iter.valid, hcurrent]
      | some i =>
          obtain ⟨hover, e, hat⟩ := hstands
          have hi := (List.getElem?_eq_some_iff.mp hat.item).1
          have hvalid := valid_of_at hover hat
          have hlen := h.start_le i hi.le
          have hstand := h.entry_stands i e hat.item
          have hread := hstand.right.right.readRange_eq
            (hstand.right.left.le_length (hstand.left.le_length hlen))
          rw [List.length_drop] at hread
          refine ⟨hvalid, hover.status_ok, e.pair, by simp [hat.item], ?_, ?_⟩
          · simp only [BlockIterator.key, Iter.getKey, hvalid, assertThat_pos, ok_bind, pure_eq,
              hat.key, Item.pair]
          · simp only [BlockIterator.value, Iter.getValue, hvalid, assertThat_pos, ok_bind,
              hat.value, hover.data_eq, hread, Item.pair]

theorem numRestarts_eq (h : Layout items firsts data) (offset : Option Nat) :
    numRestarts ⟨data, data.length, offset⟩ = .ok firsts.length := by
  have hlen := h.length_eq
  have hfits := h.fits
  have hcount : start items items.length + 4 * firsts.length = data.length - 4 := by
    rw [restartsOffset] at hlen
    omega
  have hend := h.stands.right.right
  rw [flatMap_fixed32_length, List.length_map, Nat.zero_add, ← start_length, hcount] at hend
  rw [numRestarts, assertThat_pos (by dsimp only; omega), ok_bind]
  exact decodeFixed32_eq data _ _ (by omega) hend (Nat.sub_le _ _)

-- The iterator of a block that a builder finished.
theorem newIterator_eq (h : Layout items firsts data) :
    ∃ block it, Block.new data = .ok block ∧ block.newIterator = .ok (.iter it) ∧
      Stands items firsts data it none := by
  have hlen := h.length_eq
  have hfits := h.fits
  have hpos := h.firsts_pos
  have hcount : (1 + firsts.length) % 2 ^ 32 = 1 + firsts.length := Nat.mod_eq_of_lt (by omega)
  have hoffset : (data.length - (1 + firsts.length) % 2 ^ 32 * 4) % 2 ^ 32 =
      restartsOffset items := by
    rw [hcount, Nat.mod_eq_of_lt (by omega)]
    omega
  refine ⟨⟨data, data.length, some (restartsOffset items)⟩,
    ⟨data, restartsOffset items, firsts.length, restartsOffset items, firsts.length, [], none, .ok⟩,
    ?_, ?_, ⟨rfl, rfl, rfl, rfl⟩, rfl⟩
  · simp only [Block.new]
    rw [if_neg (by omega), h.numRestarts_eq, ok_bind, if_neg (by omega), hoffset]
    rfl
  · simp only [newIterator]
    rw [if_neg (by omega), h.numRestarts_eq, ok_bind, if_neg (by omega), Iter.new,
      assertThat_pos hpos]
    rfl

-- The iterator implements a cursor, with any search that lands where it should.
theorem implements {τ : Type} (h : Layout items firsts data) (seek : Iter → τ → Exec Iter)
    (find : τ → Position)
    (hseek : ∀ it target, Over items firsts data it →
      ∃ it', seek it target = .ok it' ∧ Stands items firsts data it' (find target)) :
    Implements (BlockIterator.machine seek) items.length find (StandsOn items firsts data) where
  valid s p hs := by
    have hshows := h.shows_of_standsOn s p hs
    cases p with
    | none => exact hshows.1
    | some i => exact hshows.1
  toFirst s p hs := by
    cases s with
    | empty status => exact hs.elim
    | iter it =>
        obtain ⟨it', hit', hstands⟩ := h.seekToFirst_eq (Stands.over hs)
        exact ⟨.iter it', by simp [BlockIterator.machine, BlockIterator.position, hit'], hstands⟩
  toLast s p hs := by
    cases s with
    | empty status => exact hs.elim
    | iter it =>
        obtain ⟨it', hit', hstands⟩ := h.seekToLast_eq (Stands.over hs)
        exact ⟨.iter it', by simp [BlockIterator.machine, BlockIterator.position, hit'], hstands⟩
  seek s p target hs := by
    cases s with
    | empty status => exact hs.elim
    | iter it =>
        obtain ⟨it', hit', hstands⟩ := hseek it target (Stands.over hs)
        exact ⟨.iter it', by simp [BlockIterator.machine, BlockIterator.position, hit'], hstands⟩
  next s i hs := by
    cases s with
    | empty status => exact hs.elim
    | iter it =>
        obtain ⟨hover, e, hat⟩ := hs
        obtain ⟨it', hit', hstands⟩ := h.next_eq hover hat
        exact ⟨.iter it', by simp [BlockIterator.machine, BlockIterator.step, hit'], hstands⟩
  prev s i hs := by
    cases s with
    | empty status => exact hs.elim
    | iter it =>
        obtain ⟨hover, e, hat⟩ := hs
        obtain ⟨it', hit', hstands⟩ := h.prev_eq hover hat
        exact ⟨.iter it', by simp [BlockIterator.machine, BlockIterator.step, hit'], hstands⟩

-- Every run of the iterator shows what the cursor shows.
theorem run_shows {τ : Type} (h : Layout items firsts data) (seek : Iter → τ → Exec Iter)
    (find : τ → Position)
    (hseek : ∀ it target, Over items firsts data it →
      ∃ it', seek it target = .ok it' ∧ Stands items firsts data it' (find target)) :
    ∃ block it, Block.new data = .ok block ∧ block.newIterator = .ok it ∧
      ∀ moves, ∃ o, (BlockIterator.machine seek).run it moves = .ok o ∧
        Agrees (Shows (items.map Item.pair)) o (run items.length find none moves) := by
  obtain ⟨block, it, hblock, hit, hstands⟩ := h.newIterator_eq
  refine ⟨block, .iter it, hblock, hit, fun moves => ?_⟩
  obtain ⟨o, ho, hagrees⟩ := (h.implements seek find hseek).run_agrees moves (.iter it) none hstands
  exact ⟨o, ho, hagrees.imp h.shows_of_standsOn⟩

end Layout

-- A builder that was just constructed or reset.
def Fresh (b : BlockBuilder) : Prop :=
  (∃ interval, BlockBuilder.new interval = .ok b) ∨ ∃ b', b = BlockBuilder.reset b'

theorem Fresh.eq_initial {b : BlockBuilder} (h : Fresh b) : b = initial := by
  rcases h with ⟨interval, hnew⟩ | ⟨b', rfl⟩
  · obtain ⟨-, -, hb⟩ := bind_eq_ok.mp hnew
    exact (Except.ok.inj hb).symm
  · rfl

-- What a run of `Add` calls on a fresh builder leaves for the reader.
theorem Fresh.layout {b₀ : BlockBuilder} (hb₀ : Fresh b₀) (adds : List Addition) :
    ∃ b, b₀.addAll adds = .ok b ∧ (b.finish.2.length < 2 ^ 32 →
      ∃ items firsts, items.map Item.pair = adds.map Addition.pair ∧
        Layout items firsts b.finish.2) := by
  obtain ⟨b, hb, hholds⟩ := addAll_holds b₀ []
    (fun _ => ⟨[], [0], rfl, hb₀.eq_initial ▸ initial_built⟩) adds
  refine ⟨b, hb, fun hfits => ?_⟩
  have hbuffer : b.buffer.length < 2 ^ 32 := by
    rw [finish_eq, List.length_append] at hfits
    omega
  obtain ⟨items, firsts, hitems, hbuilt⟩ := hholds hbuffer
  exact ⟨items, firsts, by simpa using hitems, finish_layout hbuilt hfits⟩

theorem roundTrip (b₀ : BlockBuilder) (hb₀ : Fresh b₀) (adds : List Addition) :
    ∃ b, b₀.addAll adds = .ok b ∧ (b.finish.2.length < 2 ^ 32 →
      ∃ block it, Block.new b.finish.2 = .ok block ∧ block.newIterator = .ok it ∧
        ∀ moves, ∃ o, (BlockIterator.machine fun _ => Empty.elim).run it moves = .ok o ∧
          Agrees (Shows (adds.map Addition.pair)) o
            (run adds.length Empty.elim none moves)) := by
  obtain ⟨b, hb, hlayout⟩ := hb₀.layout adds
  refine ⟨b, hb, fun hfits => ?_⟩
  obtain ⟨items, firsts, hitems, h⟩ := hlayout hfits
  have hlen := congrArg List.length hitems
  rw [List.length_map, List.length_map] at hlen
  rw [← hitems, ← hlen]
  exact h.run_shows (fun _ => Empty.elim) Empty.elim fun _ target => target.elim

-- Three entries in two restart groups, the second one opened by a smaller
-- restart interval.
def sampleAdditions : List Addition :=
  [⟨2, [97], [1], by decide⟩, ⟨2, [97, 98], [], by decide⟩, ⟨1, [97, 99], [2, 3], by decide⟩]

def sampleBuilder : BlockBuilder :=
  ⟨[0, 1, 1, 97, 1, 1, 1, 0, 98, 0, 2, 2, 97, 99, 2, 3], [0, 9], 1, false, [97, 99]⟩

theorem roundTrip_sample : initial.addAll sampleAdditions = .ok sampleBuilder ∧
    ∃ block it, Block.new sampleBuilder.finish.2 = .ok block ∧ block.newIterator = .ok it ∧
      ∀ moves, ∃ o, (BlockIterator.machine fun _ => Empty.elim).run it moves = .ok o ∧
        Agrees (Shows (sampleAdditions.map Addition.pair)) o (run 3 Empty.elim none moves) := by
  have heval : initial.addAll sampleAdditions = .ok sampleBuilder := by rfl
  obtain ⟨b, hb, hshows⟩ := roundTrip initial (.inr ⟨initial, rfl⟩) sampleAdditions
  obtain rfl := Except.ok.inj (hb.symm.trans heval)
  exact ⟨heval, hshows (by decide)⟩

end Mylldb.Block

import Mylldb.Block.RoundTrip
import Mylldb.Comparator.Theorems

namespace Mylldb.Block

open BlockBuilder Lib.Run Lib.Cursor Lib.ThreeWay

-- Every entry before the `i`-th one is before the target.
def BelowUpTo (cmp : Comparator) (items : List Item) (target : Bytes) (i : Nat) : Prop :=
  ∀ j < i, ∀ e : Item, items[j]? = some e → cmp.compare e.key target < 0

namespace Layout

variable {items : List Item} {firsts : List Nat} {data : Bytes} {it : Iter} {i : Nat} {e : Item}
  {cmp : Comparator}

theorem firstAtLeast_some {target : Bytes} (hbelow : BelowUpTo cmp items target i) (he : items[i]? = some e)
    (hge : 0 ≤ cmp.compare e.key target) :
    firstAtLeast cmp (items.map Item.pair) target = some i := by
  obtain ⟨hi, rfl⟩ := List.getElem?_eq_some_iff.mp he
  refine List.findIdx?_eq_some_iff_getElem.mpr ⟨by simpa using hi, ?_, fun j hj => ?_⟩
  · simpa [Item.pair] using hge
  · have hlt := hbelow j hj _ (List.getElem?_eq_getElem (by omega))
    simpa [Item.pair] using hlt

theorem firstAtLeast_none {target : Bytes} (hbelow : BelowUpTo cmp items target items.length) :
    firstAtLeast cmp (items.map Item.pair) target = none := by
  refine List.findIdx?_eq_none_iff.mpr fun p hp => ?_
  obtain ⟨e, he, rfl⟩ := List.mem_map.mp hp
  obtain ⟨j, hj⟩ := List.mem_iff_getElem?.mp he
  have hlt := hbelow j (List.getElem?_eq_some_iff.mp hj).1 e hj
  exact decide_eq_false (Int.not_le.mpr hlt)

-- The linear search ends on the first entry that is not before the target.
theorem scanKeys_eq (h : Layout items firsts data) (target : Bytes) (fuel : Nat) (it : Iter)
    (hover : Over items firsts data it) (hready : Ready items firsts it i)
    (hbelow : BelowUpTo cmp items target i) (hfuel : items.length - i < fuel) :
    ∃ it', Iter.scanKeys cmp target fuel it = .ok it' ∧
      Stands items firsts data it' (firstAtLeast cmp (items.map Item.pair) target) := by
  induction fuel generalizing it i with
  | zero => omega
  | succ fuel ih =>
      by_cases hi : i < items.length
      · have he : items[i]? = some items[i] := List.getElem?_eq_getElem hi
        obtain ⟨it', hparse, hover', hat⟩ := h.parse_entry hover hready he
        simp only [Iter.scanKeys, hparse, ok_bind, ite_true, hat.key]
        split
        · rename_i hge
          rw [firstAtLeast_some hbelow he hge]
          exact ⟨it', rfl, hover', _, hat⟩
        · rename_i hlt
          refine ih it' hover' (At.ready h hat) (fun j hj e hj' => ?_) (by omega)
          rcases Nat.lt_succ_iff_lt_or_eq.mp hj with hji | rfl
          · exact hbelow j hji e hj'
          · obtain rfl := Option.some.inj (he.symm.trans hj')
            omega
      · obtain rfl : i = items.length := by
          have := hready.le_length
          omega
        obtain ⟨it', hparse, hover', hend⟩ := h.parse_end hover hready
        refine ⟨it', by simp [Iter.scanKeys, hparse], ?_⟩
        rw [firstAtLeast_none hbelow]
        exact ⟨hover', hend⟩

-- The key of a restart point is stored whole.
theorem restart_key (h : Layout items firsts data) (hover : Over items firsts data it) (f : Nat)
    (hf : f ∈ firsts) (he : items[f]? = some e) :
    decodeEntry it.data (start items f) it.restarts =
        .ok (some ⟨start items f + e.lengths.length, 0, e.key.length, e.value.length⟩) ∧
      readRange it.data (start items f + e.lengths.length) e.key.length = .ok e.key := by
  have hshared := h.firsts_shared f hf e he
  have hdecode := h.decodeEntry_eq f e he
  have hstand := h.entry_stands f e he
  have hlen := h.start_le f (h.le_of_mem_firsts f hf)
  have hread := hstand.right.left.readRange_eq (hstand.left.le_length hlen)
  rw [hshared, Nat.sub_zero] at hdecode
  rw [hshared, List.drop_zero] at hread
  rw [hover.data_eq, hover.restarts_eq]
  exact ⟨hdecode, hread⟩

-- The binary search keeps every entry before its left end below the target.
theorem searchRestarts_eq (h : Layout items firsts data) (hc : TotalPreorder cmp.compare)
    (hsorted : items.Pairwise fun a b => cmp.compare a.key b.key ≤ 0)
    (hover : Over items firsts data it) (target : Bytes) (fuel left right : Nat)
    (hle : left ≤ right) (hright : right < firsts.length)
    (hbelow : ∀ f, firsts[left]? = some f → BelowUpTo cmp items target f)
    (hfuel : right - left < fuel) :
    ∃ r f, Iter.searchRestarts cmp it target fuel left right = .ok (some r) ∧
      firsts[r]? = some f ∧ BelowUpTo cmp items target f := by
  induction fuel generalizing left right with
  | zero => omega
  | succ fuel ih =>
      rw [Iter.searchRestarts]
      by_cases hlt : left < right
      · have hfits := h.fits
        have hlen := h.length_eq
        have hmid : (left + right + 1) % 2 ^ 32 / 2 = (left + right + 1) / 2 := by
          rw [Nat.mod_eq_of_lt (by omega)]
        have hbounds : left < (left + right + 1) / 2 ∧ (left + right + 1) / 2 ≤ right := by omega
        rw [if_pos hlt]
        simp only [hmid]
        generalize (left + right + 1) / 2 = mid at hbounds
        obtain ⟨f, hget⟩ : ∃ f, firsts[mid]? = some f :=
          ⟨_, List.getElem?_eq_getElem (by omega)⟩
        have hmem := List.mem_of_getElem? hget
        have hf : f < items.length := h.lt_of_restart mid f (by omega) hget
        have he : items[f]? = some items[f] := List.getElem?_eq_getElem hf
        obtain ⟨hdecode, hread⟩ := h.restart_key hover f hmem he
        simp only [h.restartPoint hover mid f hget, ok_bind, hdecode, ne_eq, not_true_eq_false,
          ite_false, hread]
        split
        · rename_i hless
          refine ih mid right hbounds.2 hright (fun g hg j hj e' he' => ?_) (by omega)
          obtain rfl := Option.some.inj (hget.symm.trans hg)
          obtain ⟨hj', rfl⟩ := List.getElem?_eq_some_iff.mp he'
          have hbefore := List.pairwise_iff_getElem.mp hsorted j f hj' hf hj
          exact hc.lt_of_le_of_lt _ _ _ hbefore hless
        · exact ih left (mid - 1) (by omega) (by omega) hbelow (by omega)
      · rw [if_neg hlt]
        obtain ⟨f, hget⟩ : ∃ f, firsts[left]? = some f :=
          ⟨_, List.getElem?_eq_getElem (by omega)⟩
        exact ⟨left, f, rfl, hget, hbelow f hget⟩

theorem seek_eq (h : Layout items firsts data) (hc : TotalPreorder cmp.compare)
    (hsorted : items.Pairwise fun a b => cmp.compare a.key b.key ≤ 0)
    (hover : Over items firsts data it) (target : Bytes) :
    ∃ it', Iter.seek cmp it target = .ok it' ∧
      Stands items firsts data it' (firstAtLeast cmp (items.map Item.pair) target) := by
  have hpos := h.firsts_pos
  have hsub : sub32 it.numRestarts 1 = firsts.length - 1 := by
    rw [hover.numRestarts_eq, sub32_of_le hpos]
  obtain ⟨r, f, hsearch, hf, hbelow⟩ := h.searchRestarts_eq hc hsorted hover target it.numRestarts 0
    (firsts.length - 1) (Nat.zero_le _) (by omega)
    (by
      intro f hf j hj
      obtain rfl := Option.some.inj (h.firsts_head.symm.trans hf)
      omega)
    (by
      rw [hover.numRestarts_eq]
      omega)
  obtain ⟨it₁, hseek, hover₁, hready, -⟩ := h.seekToRestartPoint_eq hover r f hf
  have hlength := le_start items items.length (Nat.le_refl _)
  obtain ⟨it₂, hscan, hstands⟩ := h.scanKeys_eq target it₁.scanFuel it₁ hover₁ hready hbelow
    (by
      rw [Iter.scanFuel, hover₁.restarts_eq, restartsOffset]
      omega)
  refine ⟨it₂, ?_, hstands⟩
  rw [Iter.seek, hsub, hsearch, ok_bind]
  simp only [hseek, ok_bind, hscan]

end Layout

theorem seek_linearSearch (cmp : Comparator) (hcmp : TotalOrder cmp.compare) (b₀ : BlockBuilder)
    (hb₀ : Fresh b₀) (adds : List Addition)
    (hsorted : adds.Pairwise fun a b => cmp.compare a.key b.key ≤ 0) :
    ∃ b, b₀.addAll adds = .ok b ∧ (b.finish.2.length < 2 ^ 32 →
      ∃ block it, Block.new b.finish.2 = .ok block ∧ block.newIterator = .ok it ∧
        ∀ moves, ∃ o, (BlockIterator.machine (Iter.seek cmp)).run it moves = .ok o ∧
          Agrees (Shows (adds.map Addition.pair)) o
            (run adds.length (firstAtLeast cmp (adds.map Addition.pair)) none moves)) := by
  obtain ⟨b, hb, hlayout⟩ := hb₀.layout adds
  refine ⟨b, hb, fun hfits => ?_⟩
  obtain ⟨items, firsts, hitems, h⟩ := hlayout hfits
  have hlen := congrArg List.length hitems
  rw [List.length_map, List.length_map] at hlen
  have hkeys : items.Pairwise fun a b => cmp.compare a.key b.key ≤ 0 := by
    have hpairs : (adds.map Addition.pair).Pairwise fun p q => cmp.compare p.1 q.1 ≤ 0 :=
      List.pairwise_map.mpr hsorted
    rw [← hitems] at hpairs
    exact List.pairwise_map.mp hpairs
  rw [← hitems, ← hlen]
  exact h.run_shows (Iter.seek cmp) _ fun it target hover =>
    h.seek_eq hcmp.toTotalPreorder hkeys hover target

theorem seek_linearSearch_sample : initial.addAll sampleAdditions = .ok sampleBuilder ∧
    ∃ block it, Block.new sampleBuilder.finish.2 = .ok block ∧ block.newIterator = .ok it ∧
      ∀ moves, ∃ o, (BlockIterator.machine (Iter.seek bytewiseComparator)).run it moves = .ok o ∧
        Agrees (Shows (sampleAdditions.map Addition.pair)) o
          (run 3 (firstAtLeast bytewiseComparator (sampleAdditions.map Addition.pair)) none
            moves) := by
  have heval : initial.addAll sampleAdditions = .ok sampleBuilder := by rfl
  obtain ⟨b, hb, hshows⟩ := seek_linearSearch bytewiseComparator Slice.compare_totalOrder initial
    (.inr ⟨initial, rfl⟩) sampleAdditions (by decide)
  obtain rfl := Except.ok.inj (hb.symm.trans heval)
  exact ⟨heval, hshows (by decide)⟩

end Mylldb.Block

import Mylldb.Block.Layout

namespace Mylldb.Block

open BlockBuilder Lib.Run Lib.Cursor

-- An iterator over the block, with nothing wrong so far.
structure Over (items : List Item) (firsts : List Nat) (data : Bytes) (it : Iter) : Prop where
  data_eq : it.data = data
  restarts_eq : it.restarts = restartsOffset items
  numRestarts_eq : it.numRestarts = firsts.length
  status_ok : it.status = .ok

-- The iterator is about to parse the `i`-th entry.
structure Ready (items : List Item) (firsts : List Nat) (it : Iter) (i : Nat) : Prop where
  le_length : i ≤ items.length
  value : ∃ p n, it.value = some (p, n) ∧ p + n = start items i
  key : ∀ e : Item, items[i]? = some e → e.Extends it.key
  index : ∃ f, firsts[it.restartIndex]? = some f ∧ f ≤ i

-- The iterator stands on the `i`-th entry. Its restart point is not behind the
-- entry, and the next restart point is not before it.
structure At (items : List Item) (firsts : List Nat) (it : Iter) (i : Nat) (e : Item) : Prop where
  item : items[i]? = some e
  current : it.current = start items i
  key : it.key = e.key
  value : it.value =
    some (start items i + e.lengths.length + (e.key.length - e.shared), e.value.length)
  index : ∃ f, firsts[it.restartIndex]? = some f ∧ f ≤ i
  index_next : ∀ f, firsts[it.restartIndex + 1]? = some f → i ≤ f

namespace Layout

variable {items : List Item} {firsts : List Nat} {data : Bytes} {it : Iter} {i : Nat} {e : Item}

theorem restartPoint (h : Layout items firsts data) (hover : Over items firsts data it) (r f : Nat)
    (hf : firsts[r]? = some f) : it.getRestartPoint r = .ok (start items f) :=
  h.getRestartPoint_eq it hover.data_eq hover.restarts_eq hover.numRestarts_eq r f hf

-- The loop stops at the last restart point before the current entry.
theorem advance_eq (h : Layout items firsts data) (fuel : Nat) (it : Iter)
    (hover : Over items firsts data it) (hi : i ≤ items.length)
    (hcurrent : it.current = start items i) (f : Nat) (hf : firsts[it.restartIndex]? = some f)
    (hfi : f ≤ i) (hfuel : firsts.length - it.restartIndex < fuel) :
    ∃ r, Iter.advanceRestartIndex fuel it = .ok { it with restartIndex := r } ∧
      (∃ f, firsts[r]? = some f ∧ f ≤ i) ∧ ∀ f, firsts[r + 1]? = some f → i ≤ f := by
  induction fuel generalizing it f with
  | zero => omega
  | succ fuel ih =>
      have hr := (List.getElem?_eq_some_iff.mp hf).1
      have hnum := hover.numRestarts_eq
      by_cases hnext : it.restartIndex + 1 < it.numRestarts
      · obtain ⟨g, hget⟩ : ∃ g, firsts[it.restartIndex + 1]? = some g :=
          ⟨_, List.getElem?_eq_getElem (by omega)⟩
        have hpoint := h.restartPoint hover _ _ hget
        have hle := h.le_of_mem_firsts g (List.mem_of_getElem? hget)
        have hiff := start_lt_iff items g i hle hi
        rw [← hcurrent] at hiff
        rw [Iter.advanceRestartIndex, if_pos hnext, hpoint, ok_bind]
        by_cases hlt : g < i
        · rw [if_pos (hiff.mpr hlt)]
          exact ih { it with restartIndex := it.restartIndex + 1 }
            ⟨hover.data_eq, hover.restarts_eq, hnum, hover.status_ok⟩ hcurrent g hget hlt.le
            (by dsimp only; omega)
        · rw [if_neg (mt hiff.mp hlt)]
          refine ⟨it.restartIndex, rfl, ⟨f, hf, hfi⟩, fun g' hg' => ?_⟩
          obtain rfl := Option.some.inj (hget.symm.trans hg')
          omega
      · rw [Iter.advanceRestartIndex, if_neg hnext]
        refine ⟨it.restartIndex, rfl, ⟨f, hf, hfi⟩, fun g hg => ?_⟩
        have := (List.getElem?_eq_some_iff.mp hg).1
        omega

theorem nextEntryOffset_eq (h : Layout items firsts data) (hready : Ready items firsts it i) :
    it.nextEntryOffset = .ok (start items i) := by
  obtain ⟨p, n, hvalue, hend⟩ := hready.value
  simp only [Iter.nextEntryOffset, hvalue, hend, pure_eq,
    Nat.mod_eq_of_lt (h.start_fits i hready.le_length)]

-- Past the last entry the iterator becomes invalid.
theorem parse_end (h : Layout items firsts data) (hover : Over items firsts data it)
    (hready : Ready items firsts it items.length) :
    ∃ it', it.parseNextKey = .ok (it', false) ∧ Over items firsts data it' ∧
      it'.current = it'.restarts := by
  have hge : it.restarts ≤ start items items.length := hover.restarts_eq.le
  refine ⟨{ it with current := it.restarts, restartIndex := it.numRestarts }, ?_, ?_, rfl⟩
  · simp [Iter.parseNextKey, h.nextEntryOffset_eq hready, hge]
  · exact ⟨hover.data_eq, hover.restarts_eq, hover.numRestarts_eq, hover.status_ok⟩

-- Parsing rebuilds the key of the entry from the key before it.
theorem parse_entry (h : Layout items firsts data) (hover : Over items firsts data it)
    (hready : Ready items firsts it i) (he : items[i]? = some e) :
    ∃ it', it.parseNextKey = .ok (it', true) ∧ Over items firsts data it' ∧
      At items firsts it' i e := by
  have hi := (List.getElem?_eq_some_iff.mp he).1
  have hlt : ¬start items i ≥ it.restarts := by
    rw [hover.restarts_eq]
    exact Nat.not_le.mpr (start_lt items i _ hi (Nat.le_refl _))
  have hdecode := h.decodeEntry_eq i e he
  rw [← hover.data_eq, ← hover.restarts_eq] at hdecode
  have hext := hready.key e he
  have hlen := h.start_le i hi.le
  have hstands := h.entry_stands i e he
  have hread : readRange it.data (start items i + e.lengths.length) (e.key.length - e.shared) =
      .ok (e.key.drop e.shared) := by
    have hle := hstands.left.le_length hlen
    have hrange := hstands.right.left.readRange_eq hle
    rwa [List.length_drop, ← hover.data_eq] at hrange
  have hkey : it.key.take e.shared ++ e.key.drop e.shared = e.key := by
    rw [hext.take_eq, List.take_append_drop]
  obtain ⟨f, hf, hfi⟩ := hready.index
  have hnum := hover.numRestarts_eq
  obtain ⟨r, hadvance, hindex, hindex_next⟩ := h.advance_eq (it.numRestarts + 1)
    { it with
      current := start items i
      key := e.key
      value := some (start items i + e.lengths.length + (e.key.length - e.shared), e.value.length) }
    ⟨hover.data_eq, hover.restarts_eq, hnum, hover.status_ok⟩ hi.le rfl f hf hfi
    (by dsimp only; omega)
  refine ⟨{ it with
    current := start items i
    restartIndex := r
    key := e.key
    value := some (start items i + e.lengths.length + (e.key.length - e.shared), e.value.length) },
    ?_, ⟨hover.data_eq, hover.restarts_eq, hnum, hover.status_ok⟩,
    ⟨he, rfl, rfl, rfl, hindex, hindex_next⟩⟩
  simp only [Iter.parseNextKey, h.nextEntryOffset_eq hready, ok_bind, hlt, ite_false, hdecode,
    Nat.not_lt.mpr hext.shared_le_last, hread, hkey, hadvance, pure_eq]

-- On an entry the iterator is ready to parse the next one.
theorem At.ready (h : Layout items firsts data) (hat : At items firsts it i e) :
    Ready items firsts it (i + 1) := by
  have hi := (List.getElem?_eq_some_iff.mp hat.item).1
  obtain ⟨f, hf, hfi⟩ := hat.index
  refine ⟨hi, ⟨_, _, hat.value, ?_⟩, fun e' he' => ?_, f, hf, by omega⟩
  · rw [start_succ items i e hat.item, e.encode_length]
    omega
  · have hext := h.extends_before (i + 1) e' he'
    rwa [keyBefore_succ items i e hat.item, ← hat.key] at hext

theorem seekToRestartPoint_eq (h : Layout items firsts data) (hover : Over items firsts data it)
    (r f : Nat) (hf : firsts[r]? = some f) :
    ∃ it', it.seekToRestartPoint r = .ok it' ∧ Over items firsts data it' ∧
      Ready items firsts it' f ∧ it'.restartIndex = r := by
  have hmem := List.mem_of_getElem? hf
  refine ⟨{ it with key := [], restartIndex := r, value := some (start items f, 0) }, ?_, ?_, ?_, rfl⟩
  · simp only [Iter.seekToRestartPoint, h.restartPoint hover r f hf, ok_bind, pure_eq]
  · exact ⟨hover.data_eq, hover.restarts_eq, hover.numRestarts_eq, hover.status_ok⟩
  · refine ⟨h.le_of_mem_firsts f hmem, ⟨_, _, rfl, rfl⟩, fun e he => ?_, f, hf, Nat.le_refl _⟩
    have hshared := h.firsts_shared f hmem e he
    exact ⟨by omega, by omega, by simp [hshared]⟩

-- A scan that stops at the end of the `j`-th entry ends on that entry.
theorem scan_eq (h : Layout items firsts data) (fuel : Nat) (it : Iter)
    (hover : Over items firsts data it) (hready : Ready items firsts it i) (j : Nat) (hij : i ≤ j)
    (he : items[j]? = some e) (stop : Nat) (hstop : stop = start items (j + 1))
    (hfuel : j - i < fuel) :
    ∃ it', Iter.scan stop fuel it = .ok it' ∧ Over items firsts data it' ∧
      At items firsts it' j e := by
  induction fuel generalizing it i with
  | zero => omega
  | succ fuel ih =>
      have hj := (List.getElem?_eq_some_iff.mp he).1
      have hi : items[i]? = some items[i] := List.getElem?_eq_getElem (by omega)
      obtain ⟨it', hparse, hover', hat⟩ := h.parse_entry hover hready hi
      have hready' := At.ready h hat
      have hiff := start_lt_iff items (i + 1) (j + 1) (by omega) (by omega)
      simp only [Iter.scan, hparse, ok_bind, h.nextEntryOffset_eq hready', ite_true, hstop, hiff]
      split
      · obtain ⟨it'', hscan, hlast⟩ := ih it' hover' hready' (by omega) (by omega)
        exact ⟨it'', by rwa [hstop] at hscan, hlast⟩
      · obtain rfl : i = j := by omega
        rw [hi] at he
        obtain rfl := Option.some.inj he
        exact ⟨it', rfl, hover', hat⟩

-- The first loop of `Prev` finds a restart point before the current entry, or
-- sees that there is none because the current entry is the first one.
theorem retreat_eq (h : Layout items firsts data) (fuel : Nat) (it : Iter)
    (hover : Over items firsts data it) (hi : i ≤ items.length)
    (hcurrent : it.current = start items i) (f : Nat) (hf : firsts[it.restartIndex]? = some f)
    (hfuel : it.restartIndex < fuel) :
    (i = 0 ∧ Iter.retreatRestartIndex fuel it =
        .ok ({ it with current := it.restarts, restartIndex := it.numRestarts }, false)) ∨
      ∃ r g, firsts[r]? = some g ∧ g < i ∧
        Iter.retreatRestartIndex fuel it = .ok ({ it with restartIndex := r }, true) := by
  induction fuel generalizing it f with
  | zero => omega
  | succ fuel ih =>
      have hpoint := h.restartPoint hover _ _ hf
      have hle := h.le_of_mem_firsts f (List.mem_of_getElem? hf)
      have hiff := start_lt_iff items f i hle hi
      rw [← hcurrent] at hiff
      rw [Iter.retreatRestartIndex, hpoint, ok_bind]
      by_cases hlt : f < i
      · rw [if_neg (Nat.not_le.mpr (hiff.mpr hlt))]
        exact .inr ⟨it.restartIndex, f, hf, hlt, rfl⟩
      · rw [if_pos (Nat.not_lt.mp (mt hiff.mp hlt))]
        by_cases hzero : it.restartIndex = 0
        · rw [if_pos hzero]
          rw [hzero, h.firsts_head] at hf
          obtain rfl := Option.some.inj hf
          exact .inl ⟨by omega, rfl⟩
        · rw [if_neg hzero]
          have hr := (List.getElem?_eq_some_iff.mp hf).1
          obtain ⟨g, hget⟩ : ∃ g, firsts[it.restartIndex - 1]? = some g :=
            ⟨_, List.getElem?_eq_getElem (by omega)⟩
          exact ih { it with restartIndex := it.restartIndex - 1 }
            ⟨hover.data_eq, hover.restarts_eq, hover.numRestarts_eq, hover.status_ok⟩ hcurrent _
            hget (by dsimp only; omega)

end Layout

-- Where the iterator stands.
def Stands (items : List Item) (firsts : List Nat) (data : Bytes) (it : Iter) : Position → Prop
  | none => Over items firsts data it ∧ it.current = it.restarts
  | some i => Over items firsts data it ∧ ∃ e, At items firsts it i e

namespace Layout

variable {items : List Item} {firsts : List Nat} {data : Bytes} {it : Iter} {i : Nat} {e : Item}

theorem Stands.over {p : Position} (h : Stands items firsts data it p) :
    Over items firsts data it := by
  cases p with
  | none => exact h.1
  | some i => exact h.1

theorem next_ready (h : Layout items firsts data) (hover : Over items firsts data it)
    (hready : Ready items firsts it i) : ∃ it', it.next = .ok it' ∧
      Stands items firsts data it' (if i < items.length then some i else none) := by
  by_cases hi : i < items.length
  · have he : items[i]? = some items[i] := List.getElem?_eq_getElem hi
    obtain ⟨it', hparse, hover', hat⟩ := h.parse_entry hover hready he
    refine ⟨it', by simp [Iter.next, hparse], ?_⟩
    rw [if_pos hi]
    exact ⟨hover', _, hat⟩
  · obtain rfl : i = items.length := by
      have := hready.le_length
      omega
    obtain ⟨it', hparse, hover', hend⟩ := h.parse_end hover hready
    refine ⟨it', by simp [Iter.next, hparse], ?_⟩
    rw [if_neg hi]
    exact ⟨hover', hend⟩

theorem seekToFirst_eq (h : Layout items firsts data) (hover : Over items firsts data it) :
    ∃ it', it.seekToFirst = .ok it' ∧ Stands items firsts data it' (first items.length) := by
  obtain ⟨it₁, hseek, hover₁, hready, -⟩ := h.seekToRestartPoint_eq hover 0 0 h.firsts_head
  obtain ⟨it₂, hnext, hstands⟩ := h.next_ready hover₁ hready
  refine ⟨it₂, by rw [Iter.seekToFirst, hseek, ok_bind, hnext], ?_⟩
  have hfirst : first items.length = if 0 < items.length then some 0 else none := by
    unfold first
    split_ifs <;> first | rfl | omega
  rwa [hfirst]

omit e in
theorem lt_scanFuel (hover : Over items firsts data it) (j : Nat)
    (hj : j < items.length) : j < it.scanFuel := by
  have hle := le_start items items.length (Nat.le_refl _)
  rw [Iter.scanFuel, hover.restarts_eq, restartsOffset]
  omega

theorem seekToLast_eq (h : Layout items firsts data) (hover : Over items firsts data it) :
    ∃ it', it.seekToLast = .ok it' ∧ Stands items firsts data it' (last items.length) := by
  have hpos := h.firsts_pos
  have hsub : sub32 it.numRestarts 1 = firsts.length - 1 := by
    rw [hover.numRestarts_eq, sub32_of_le hpos]
  obtain ⟨f, hget⟩ : ∃ f, firsts[firsts.length - 1]? = some f :=
    ⟨_, List.getElem?_eq_getElem (by omega)⟩
  obtain ⟨it₁, hseek, hover₁, hready, -⟩ := h.seekToRestartPoint_eq hover _ f hget
  rw [← hsub] at hseek
  have hlt := h.firsts_lt f (List.mem_of_getElem? hget)
  rw [Iter.seekToLast, hseek, ok_bind]
  by_cases hempty : items.length = 0
  · obtain rfl : f = items.length := by omega
    obtain ⟨it₂, hparse, hover₂, hend⟩ := h.parse_end hover₁ hready
    refine ⟨it₂, by simp [Iter.scanFuel, Iter.scan, hparse], ?_⟩
    rw [last, if_pos hempty]
    exact ⟨hover₂, hend⟩
  · obtain ⟨e, hget⟩ : ∃ e, items[items.length - 1]? = some e :=
      ⟨_, List.getElem?_eq_getElem (by omega)⟩
    have hstop : it₁.restarts = start items (items.length - 1 + 1) := by
      rw [hover₁.restarts_eq, Nat.sub_add_cancel (by omega)]
    have hfuel := lt_scanFuel hover₁ (items.length - 1) (by omega)
    obtain ⟨it₂, hscan, hover₂, hat⟩ := h.scan_eq it₁.scanFuel it₁ hover₁ hready
      (items.length - 1) (by omega) hget _ hstop (by omega)
    refine ⟨it₂, hscan, ?_⟩
    rw [last, if_neg hempty]
    exact ⟨hover₂, _, hat⟩

theorem next_eq (h : Layout items firsts data) (hover : Over items firsts data it)
    (hat : At items firsts it i e) :
    ∃ it', it.next = .ok it' ∧ Stands items firsts data it' (after items.length i) :=
  h.next_ready hover (At.ready h hat)

theorem valid_of_at (hover : Over items firsts data it) (hat : At items firsts it i e) :
    it.valid = true := by
  have hi := (List.getElem?_eq_some_iff.mp hat.item).1
  rw [Iter.valid, hat.current, hover.restarts_eq]
  exact decide_eq_true (start_lt items i _ hi (Nat.le_refl _))

-- `Prev` goes back to a restart point and parses up to the entry before.
theorem prev_eq (h : Layout items firsts data) (hover : Over items firsts data it)
    (hat : At items firsts it i e) :
    ∃ it', it.prev = .ok it' ∧ Stands items firsts data it' (before i) := by
  have hi := (List.getElem?_eq_some_iff.mp hat.item).1
  have hvalid := valid_of_at hover hat
  obtain ⟨f, hf, -⟩ := hat.index
  have hr := (List.getElem?_eq_some_iff.mp hf).1
  have hnum := hover.numRestarts_eq
  rcases h.retreat_eq (it.numRestarts + 1) it hover hi.le hat.current f hf (by omega) with
    ⟨rfl, hretreat⟩ | ⟨r, g, hg, hgi, hretreat⟩
  · refine ⟨{ it with current := it.restarts, restartIndex := it.numRestarts }, ?_,
      ⟨hover.data_eq, hover.restarts_eq, hnum, hover.status_ok⟩, rfl⟩
    simp [Iter.prev, hvalid, hretreat]
  · have hover₁ : Over items firsts data { it with restartIndex := r } :=
      ⟨hover.data_eq, hover.restarts_eq, hnum, hover.status_ok⟩
    obtain ⟨it₂, hseek, hover₂, hready, -⟩ := h.seekToRestartPoint_eq hover₁ r g hg
    obtain ⟨e, hget⟩ : ∃ e, items[i - 1]? = some e := ⟨_, List.getElem?_eq_getElem (by omega)⟩
    have hfuel := lt_scanFuel hover₂ (i - 1) (by omega)
    obtain ⟨it₃, hscan, hover₃, hat₃⟩ := h.scan_eq it₂.scanFuel it₂ hover₂ hready (i - 1)
      (by omega) hget it.current (by rw [hat.current, Nat.sub_add_cancel (by omega)]) (by omega)
    refine ⟨it₃, ?_, ?_⟩
    · simp only [Iter.prev, hvalid, assertThat_pos, ok_bind, hretreat, ite_true, hseek, hscan]
    · rw [before, if_neg (by omega)]
      exact ⟨hover₃, _, hat₃⟩

end Layout

end Mylldb.Block

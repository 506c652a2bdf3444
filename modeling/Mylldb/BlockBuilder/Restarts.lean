import Mylldb.BlockBuilder.Theorems

namespace Mylldb.BlockBuilder

open Lib.Run

-- The longest piece that both strings start with has `n` bytes.
structure CommonPrefix (as bs : Bytes) (n : Nat) : Prop where
  le_left : n ≤ as.length
  le_right : n ≤ bs.length
  take_eq : as.take n = bs.take n
  longest : ∀ m, m ≤ as.length → m ≤ bs.length → as.take m = bs.take m → m ≤ n

theorem le_sharedLength (as bs : Bytes) (m : Nat) (has : m ≤ as.length) (hbs : m ≤ bs.length)
    (htake : as.take m = bs.take m) : m ≤ sharedLength as bs := by
  induction m generalizing as bs with
  | zero => exact Nat.zero_le _
  | succ m ih =>
      cases as with
      | nil => simp at has
      | cons a as =>
          cases bs with
          | nil => simp at hbs
          | cons b bs =>
              rw [List.take_succ_cons, List.take_succ_cons] at htake
              obtain ⟨hab, htail⟩ := List.cons.inj htake
              have hle := ih as bs (Nat.le_of_succ_le_succ has) (Nat.le_of_succ_le_succ hbs) htail
              rw [sharedLength, if_pos hab]
              omega

theorem sharedLength_commonPrefix (as bs : Bytes) : CommonPrefix as bs (sharedLength as bs) where
  le_left := sharedLength_le_left as bs
  le_right := sharedLength_le_right as bs
  take_eq := take_sharedLength as bs
  longest := le_sharedLength as bs

-- How the entries follow on their restart points. The counter is the distance to the
-- last one, and an entry behind a restart point came while the interval allowed it.
structure Paced (adds : List Addition) (items : List Item) (firsts : List Nat)
    (b : BlockBuilder) : Prop where
  pairs : items.map Item.pair = adds.map Addition.pair
  shares : ∀ i, ∀ e : Item, items[i]? = some e → i ∉ firsts →
    e.shared = sharedLength (keyBefore items i) e.key
  counter : ∃ f ∈ firsts, f + b.counter = items.length
  near : ∀ i a, adds[i]? = some a → i ∉ firsts → ∃ f ∈ firsts, f < i ∧ (i : Int) - f < a.interval

theorem initial_paced : Paced [] [] [0] initial where
  pairs := rfl
  shares := by simp
  counter := ⟨0, by simp, rfl⟩
  near := by simp

section AddItem

variable {adds : List Addition} {items : List Item} {firsts : List Nat} {b b' : BlockBuilder}
  {a : Addition} {e : Item}

theorem Paced.length_eq (h : Paced adds items firsts b) : items.length = adds.length := by
  have hlen := congrArg List.length h.pairs
  rwa [List.length_map, List.length_map] at hlen

theorem Paced.pairs_concat (h : Paced adds items firsts b) (he : e.pair = a.pair) :
    (items ++ [e]).map Item.pair = (adds ++ [a]).map Addition.pair := by
  rw [List.map_append, List.map_append, h.pairs, List.map_singleton, List.map_singleton, he]

-- The entry goes on the run of the last restart point.
theorem Paced.compress (h : Paced adds items firsts b) (hbuilt : Built items firsts b)
    (he : e.pair = a.pair) (hshared : e.shared = sharedLength b.lastKey e.key)
    (hinterval : (b.counter : Int) < a.interval) (hcounter : b'.counter = b.counter + 1) :
    Paced (adds ++ [a]) (items ++ [e]) firsts b' where
  pairs := h.pairs_concat he
  shares := by
    intro i e' he' hi
    rcases getElem?_append_singleton he' with ⟨hget, hlt⟩ | ⟨rfl, rfl⟩
    · rw [keyBefore_append _ _ _ hlt.le]
      exact h.shares i e' hget hi
    · rw [keyBefore_append _ _ _ (Nat.le_refl _), ← hbuilt.lastKey]
      exact hshared
  counter := by
    obtain ⟨f, hf, hsum⟩ := h.counter
    refine ⟨f, hf, ?_⟩
    rw [List.length_append, List.length_singleton, hcounter]
    omega
  near := by
    intro i a' ha' hi
    rcases getElem?_append_singleton ha' with ⟨hget, -⟩ | ⟨rfl, rfl⟩
    · exact h.near i a' hget hi
    · obtain ⟨f, hf, hsum⟩ := h.counter
      have hne : f ≠ adds.length := fun hfi => hi (hfi ▸ hf)
      rw [h.length_eq] at hsum
      exact ⟨f, hf, by omega, by omega⟩

-- The entry is a restart point.
theorem Paced.restart (h : Paced adds items firsts b) (he : e.pair = a.pair)
    (hcounter : b'.counter = 1) :
    Paced (adds ++ [a]) (items ++ [e]) (firsts ++ [items.length]) b' where
  pairs := h.pairs_concat he
  shares := by
    intro i e' he' hi
    rcases getElem?_append_singleton he' with ⟨hget, hlt⟩ | ⟨rfl, -⟩
    · rw [keyBefore_append _ _ _ hlt.le]
      exact h.shares i e' hget fun hf => hi (List.mem_append_left _ hf)
    · exact absurd (List.mem_append_right firsts (List.mem_singleton_self _)) hi
  counter := by
    refine ⟨items.length, List.mem_append_right firsts (List.mem_singleton_self _), ?_⟩
    rw [List.length_append, List.length_singleton, hcounter]
  near := by
    intro i a' ha' hi
    rcases getElem?_append_singleton ha' with ⟨hget, -⟩ | ⟨rfl, -⟩
    · obtain ⟨f, hf, hlt, hnear⟩ := h.near i a' hget fun hf => hi (List.mem_append_left _ hf)
      exact ⟨f, List.mem_append_left _ hf, hlt, hnear⟩
    · rw [← h.length_eq] at hi
      exact absurd (List.mem_append_right firsts (List.mem_singleton_self _)) hi

end AddItem

-- As in `Holds`, the entries are known as long as their bytes fit.
def Tracked (adds : List Addition) (b : BlockBuilder) : Prop :=
  b.buffer.length < 2 ^ 32 → ∃ items firsts, Built items firsts b ∧ Paced adds items firsts b

theorem Tracked.add {adds : List Addition} {b : BlockBuilder} (h : Tracked adds b) (a : Addition) :
    ∃ b', b.add a.interval a.key a.value = .ok b' ∧ Tracked (adds ++ [a]) b' := by
  obtain ⟨b', hadd, hgrows⟩ := add_grows b a.interval a.key a.value
  refine ⟨b', hadd, fun hlen => ?_⟩
  obtain ⟨items, firsts, hbuilt, hpaced⟩ := h (hgrows.trans hlen)
  obtain ⟨e, firsts', he, hbuilt', hturn⟩ := hbuilt.add a hadd hlen
  refine ⟨items ++ [e], firsts', hbuilt', ?_⟩
  rcases hturn with ⟨rfl, hshared, hinterval, hcounter⟩ | ⟨rfl, hcounter⟩
  · exact hpaced.compress hbuilt he hshared hinterval hcounter
  · exact hpaced.restart he hcounter

theorem addAll_tracked (adds : List Addition) :
    ∃ b, initial.addAll adds = .ok b ∧ Tracked adds b := by
  obtain ⟨b, hb, htracked⟩ := foldlM_history
    (fun b (a : Addition) => b.add a.interval a.key a.value) Tracked adds
    (fun _ _ h a _ => h.add a) [] initial fun _ => ⟨[], [0], initial_built, initial_paced⟩
  exact ⟨b, hb, htracked⟩

-- The estimate counts every byte of the result, also before the restart array is there.
theorem currentSizeEstimate_eq (b : BlockBuilder) : b.currentSizeEstimate = b.finish.2.length := by
  have hrestarts : (b.restarts.flatMap encodeFixed32).length = b.restarts.length * 4 := by
    rw [List.length_flatMap]
    simp
  rw [finish_eq, List.length_append, List.length_append, hrestarts, encodeFixed32_length,
    currentSizeEstimate, Nat.add_assoc]

-- Two neighbouring restart points, or the last one and the end of the entries.
structure Neighbours (firsts : List Nat) (count f g : Nat) : Prop where
  left : f ∈ firsts
  right : g ∈ firsts ∨ g = count
  lt : f < g
  between : ∀ h ∈ firsts, h ≤ f ∨ g ≤ h

-- `items` are the entries that the calls wrote, and `firsts` lists those of them at the
-- restart points.
structure RestartArray (adds : List Addition) (items : List Item) (firsts : List Nat)
    (b : BlockBuilder) : Prop where
  pairs : items.map Item.pair = adds.map Addition.pair
  buffer : b.buffer = encodeAll items
  restarts : b.restarts = firsts.map (start items)
  head : b.restarts.head? = some 0
  increasing : b.restarts.Pairwise (· < ·)
  full : adds ≠ [] → ∀ f ∈ firsts, ∃ e, items[f]? = some e ∧ e.shared = 0
  shares : ∀ i, ∀ e : Item, items[i]? = some e → i ∉ firsts →
    CommonPrefix (keyBefore items i) e.key e.shared
  -- a run is no longer than some interval that was in force for one of its entries
  runs : ∀ f g, Neighbours firsts adds.length f g →
    ∃ i a, f ≤ i ∧ i < g ∧ adds[i]? = some a ∧ (g : Int) - f ≤ a.interval
  single : ∀ i a, adds[i]? = some a → a.interval = 1 → i ∈ firsts

section Tracked

variable {adds : List Addition} {items : List Item} {firsts : List Nat} {b : BlockBuilder}

theorem Paced.runs (h : Paced adds items firsts b) (hbuilt : Built items firsts b) (f g : Nat)
    (hfg : Neighbours firsts adds.length f g) :
    ∃ i a, f ≤ i ∧ i < g ∧ adds[i]? = some a ∧ (g : Int) - f ≤ a.interval := by
  have hlt := hfg.lt
  have hle : g ≤ adds.length := by
    rcases hfg.right with hg | rfl
    · have hcount := hbuilt.firsts_le g hg
      rwa [h.length_eq] at hcount
    · exact Nat.le_refl _
  -- the last entry of the run is the one that needed the longest interval
  have hlast : adds[g - 1]? = some adds[g - 1] := List.getElem?_eq_getElem (by omega)
  refine ⟨g - 1, adds[g - 1], by omega, by omega, hlast, ?_⟩
  by_cases hfirst : g - 1 ∈ firsts
  · have hone := adds[g - 1].interval_pos
    rcases hfg.between (g - 1) hfirst with hf | hg
    · omega
    · omega
  · obtain ⟨f', hf', hbefore, hnear⟩ := h.near (g - 1) _ hlast hfirst
    rcases hfg.between f' hf' with hf | hg
    · omega
    · omega

theorem Built.increasing (h : Built items firsts b) : b.restarts.Pairwise (· < ·) := by
  rw [h.restarts, List.pairwise_map]
  apply h.firsts_sorted.imp_of_mem
  intro f g _ hg hfg
  exact start_lt items f g hfg (h.firsts_le g hg)

theorem restartArray (hbuilt : Built items firsts b) (hpaced : Paced adds items firsts b) :
    RestartArray adds items firsts b where
  pairs := hpaced.pairs
  buffer := hbuilt.buffer
  restarts := hbuilt.restarts
  head := by
    rw [hbuilt.restarts, List.head?_map, List.head?_eq_getElem?, hbuilt.firsts_head]
    rfl
  increasing := hbuilt.increasing
  full := by
    intro hadds f hf
    have hpos := List.length_pos_iff.mpr hadds
    rw [← hpaced.length_eq] at hpos
    have hlt := hbuilt.firsts_lt_of_ne (List.length_pos_iff.mp hpos) f hf
    have he : items[f]? = some items[f] := List.getElem?_eq_getElem hlt
    exact ⟨_, he, hbuilt.firsts_shared f hf _ he⟩
  shares := by
    intro i e he hi
    rw [hpaced.shares i e he hi]
    exact sharedLength_commonPrefix _ _
  runs := hpaced.runs hbuilt
  single := by
    intro i a ha hone
    by_contra hi
    obtain ⟨f, hf, hlt, hnear⟩ := hpaced.near i a ha hi
    omega

end Tracked

-- Every history of `Add` keeps the restart array in order, and the estimate is exact
-- all along.
theorem addAll_restartArray (adds : List Addition) :
    ∃ b, initial.addAll adds = .ok b ∧ b.currentSizeEstimate = b.finish.2.length ∧
      (b.finish.2.length < 2 ^ 32 → ∃ items firsts, RestartArray adds items firsts b) := by
  obtain ⟨b, hb, htracked⟩ := addAll_tracked adds
  refine ⟨b, hb, currentSizeEstimate_eq b, ?_⟩
  intro hlen
  rw [finish_eq, List.length_append] at hlen
  obtain ⟨items, firsts, hbuilt, hpaced⟩ := htracked (by omega)
  exact ⟨items, firsts, restartArray hbuilt hpaced⟩

-- The interval shrinks in the middle of a run.
def sampleAdds : List Addition :=
  [⟨3, [97], [], by decide⟩, ⟨3, [97, 98], [], by decide⟩, ⟨1, [97, 98, 99], [], Int.one_pos⟩]

theorem addAll_restartArray_sample : ∃ b items firsts, initial.addAll sampleAdds = .ok b ∧
    b.restarts = [0, 8] ∧ RestartArray sampleAdds items firsts b := by
  obtain ⟨b, hb, -, harray⟩ := addAll_restartArray sampleAdds
  have hrun : initial.addAll sampleAdds =
      .ok ⟨[0, 1, 0, 97, 1, 1, 0, 98, 0, 3, 0, 97, 98, 99], [0, 8], 1, false, [97, 98, 99]⟩ := by
    decide +kernel
  obtain rfl := Except.ok.inj (hrun.symm.trans hb)
  obtain ⟨items, firsts, hfirsts⟩ := harray (by decide)
  exact ⟨_, items, firsts, hb, rfl, hfirsts⟩

end Mylldb.BlockBuilder

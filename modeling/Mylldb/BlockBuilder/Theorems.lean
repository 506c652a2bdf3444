import Mylldb.BlockBuilder
import Mylldb.Coding.Theorems

namespace Mylldb

open Lib.Run

theorem sharedLength_le (as bs : Bytes) :
    sharedLength as bs ≤ as.length ∧ sharedLength as bs ≤ bs.length := by
  induction as generalizing bs with
  | nil => simp [sharedLength]
  | cons a as ih =>
      cases bs with
      | nil => simp [sharedLength]
      | cons b bs =>
          have htail := ih bs
          simp only [sharedLength, List.length_cons]
          split <;> omega

theorem sharedLength_le_left (as bs : Bytes) : sharedLength as bs ≤ as.length :=
  (sharedLength_le as bs).1

theorem sharedLength_le_right (as bs : Bytes) : sharedLength as bs ≤ bs.length :=
  (sharedLength_le as bs).2

theorem take_sharedLength (as bs : Bytes) :
    as.take (sharedLength as bs) = bs.take (sharedLength as bs) := by
  induction as generalizing bs with
  | nil => simp [sharedLength]
  | cons a as ih =>
      cases bs with
      | nil => simp [sharedLength]
      | cons b bs =>
          simp only [sharedLength]
          split
          · rename_i hab
            rw [List.take_succ_cons, List.take_succ_cons, ih bs, hab]
          · rfl

namespace BlockBuilder

-- An entry as the builder writes it: the first `shared` bytes of the key are
-- those of the key before it.
structure Item where
  shared : Nat
  key : Bytes
  value : Bytes
  deriving DecidableEq

namespace Item

def lengths (e : Item) : Bytes :=
  encodeVarint32 e.shared ++ encodeVarint32 (e.key.length - e.shared) ++
    encodeVarint32 e.value.length

def encode (e : Item) : Bytes := e.lengths ++ (e.key.drop e.shared ++ e.value)

def pair (e : Item) : Bytes × Bytes := (e.key, e.value)

theorem encode_length (e : Item) : e.encode.length =
    e.lengths.length + (e.key.length - e.shared) + e.value.length := by
  simp only [encode, List.length_append, List.length_drop]
  omega

theorem three_le_lengths (e : Item) : 3 ≤ e.lengths.length := by
  have hshared := encodeVarint32_length_pos e.shared
  have hnonShared := encodeVarint32_length_pos (e.key.length - e.shared)
  have hvalue := encodeVarint32_length_pos e.value.length
  simp only [lengths, List.length_append]
  omega

end Item

def encodeAll (items : List Item) : Bytes := items.flatMap Item.encode

-- The offset of the `i`-th entry.
def start (items : List Item) (i : Nat) : Nat := (encodeAll (items.take i)).length

def keyBefore (items : List Item) (i : Nat) : Bytes :=
  ((items.take i).getLast?.map Item.key).getD []

theorem encodeAll_append (items items' : List Item) :
    encodeAll (items ++ items') = encodeAll items ++ encodeAll items' :=
  List.flatMap_append

theorem encodeAll_singleton (e : Item) : encodeAll [e] = e.encode :=
  List.flatMap_singleton Item.encode e

@[simp] theorem start_zero (items : List Item) : start items 0 = 0 := rfl

theorem start_length (items : List Item) :
    start items items.length = (encodeAll items).length := by
  rw [start, List.take_length]

theorem start_append (items items' : List Item) (i : Nat) (hi : i ≤ items.length) :
    start (items ++ items') i = start items i := by
  rw [start, start, List.take_append_of_le_length hi]

theorem take_succ_of_getElem? {items : List Item} {i : Nat} {e : Item}
    (he : items[i]? = some e) : items.take (i + 1) = items.take i ++ [e] := by
  rw [List.take_add_one, he]
  rfl

theorem start_succ (items : List Item) (i : Nat) (e : Item) (he : items[i]? = some e) :
    start items (i + 1) = start items i + e.encode.length := by
  rw [start, start, take_succ_of_getElem? he, encodeAll_append, encodeAll_singleton,
    List.length_append]

theorem start_lt_succ (items : List Item) (i : Nat) (hi : i < items.length) :
    start items i < start items (i + 1) := by
  have he : items[i]? = some items[i] := List.getElem?_eq_getElem hi
  have hthree := items[i].three_le_lengths
  have hlen := items[i].encode_length
  rw [start_succ items i _ he]
  omega

theorem start_lt (items : List Item) (i j : Nat) (hij : i < j) (hj : j ≤ items.length) :
    start items i < start items j := by
  induction j with
  | zero => omega
  | succ j ih =>
      have hstep := start_lt_succ items j (by omega)
      rcases Nat.lt_succ_iff_lt_or_eq.mp hij with hlt | rfl
      · have hbefore := ih hlt (by omega)
        omega
      · exact hstep

theorem start_lt_iff (items : List Item) (i j : Nat) (hi : i ≤ items.length)
    (hj : j ≤ items.length) : start items i < start items j ↔ i < j := by
  constructor
  · intro h
    by_contra hle
    rcases Nat.lt_or_eq_of_le (Nat.not_lt.mp hle) with hlt | rfl
    · have hback := start_lt items j i hlt hi
      omega
    · exact Nat.lt_irrefl _ h
  · exact fun h => start_lt items i j h hj

theorem start_le_length (items : List Item) (i : Nat) (hi : i ≤ items.length) :
    start items i ≤ start items items.length := by
  rcases Nat.lt_or_eq_of_le hi with hlt | rfl
  · exact (start_lt items i _ hlt (Nat.le_refl _)).le
  · exact Nat.le_refl _

theorem le_start (items : List Item) (i : Nat) (hi : i ≤ items.length) : i ≤ start items i := by
  induction i with
  | zero => exact Nat.zero_le _
  | succ i ih =>
      have hbefore := ih (by omega)
      have hstep := start_lt_succ items i (by omega)
      omega

theorem keyBefore_succ (items : List Item) (i : Nat) (e : Item) (he : items[i]? = some e) :
    keyBefore items (i + 1) = e.key := by
  rw [keyBefore, take_succ_of_getElem? he, List.getLast?_concat]
  rfl

theorem keyBefore_append (items items' : List Item) (i : Nat) (hi : i ≤ items.length) :
    keyBefore (items ++ items') i = keyBefore items i := by
  rw [keyBefore, keyBefore, List.take_append_of_le_length hi]

-- The entry can be decoded after the key `last`.
structure Item.Extends (e : Item) (last : Bytes) : Prop where
  shared_le : e.shared ≤ e.key.length
  shared_le_last : e.shared ≤ last.length
  take_eq : last.take e.shared = e.key.take e.shared

-- A key is no longer than the entries up to it: its run spells out every byte.
theorem keyBefore_length_le (items : List Item)
    (h : ∀ i, ∀ e : Item, items[i]? = some e → e.Extends (keyBefore items i)) (i : Nat)
    (hi : i ≤ items.length) : (keyBefore items i).length ≤ start items i := by
  induction i with
  | zero => exact Nat.le_refl 0
  | succ i ih =>
      have he : items[i]? = some items[i] := List.getElem?_eq_getElem (by omega)
      have hbefore := ih (by omega)
      have hshared := (h i _ he).shared_le_last
      have hlen := items[i].encode_length
      rw [keyBefore_succ items i _ he, start_succ items i _ he]
      omega

-- What the builder has written. `firsts` lists the entries at the restart
-- points.
structure Built (items : List Item) (firsts : List Nat) (b : BlockBuilder) : Prop where
  buffer : b.buffer = encodeAll items
  lastKey : b.lastKey = keyBefore items items.length
  extends_before : ∀ i, ∀ e : Item, items[i]? = some e → e.Extends (keyBefore items i)
  restarts : b.restarts = firsts.map (start items)
  firsts_head : firsts[0]? = some 0
  firsts_sorted : firsts.Pairwise (· < ·)
  firsts_lt : ∀ f ∈ firsts, f = 0 ∨ f < items.length
  firsts_shared : ∀ f ∈ firsts, ∀ e : Item, items[f]? = some e → e.shared = 0
  counter : items = [] → b.counter = 0

theorem new_eq {blockRestartInterval : Int} (h : 1 ≤ blockRestartInterval) :
    BlockBuilder.new blockRestartInterval = .ok initial := by
  rw [BlockBuilder.new, assertThat_pos h, ok_bind, pure_eq]

theorem initial_built : Built [] [0] initial where
  buffer := rfl
  lastKey := rfl
  extends_before := by simp
  restarts := rfl
  firsts_head := rfl
  firsts_sorted := List.pairwise_singleton _ 0
  firsts_lt := by simp
  firsts_shared := by simp
  counter _ := rfl

-- The entry of a call shares what it can with the key before it, or the interval is used
-- up and the entry becomes a restart point.
inductive Turn (b : BlockBuilder) (interval : Int) (key : Bytes) : Nat → List Nat → Nat → Prop
  | compress : (b.counter : Int) < interval →
      Turn b interval key (sharedLength b.lastKey key) b.restarts b.counter
  | restart : interval ≤ b.counter →
      Turn b interval key 0 (b.restarts ++ [b.buffer.length % 2 ^ 32]) 0

-- What one call of `Add` does to any builder.
theorem add_spec (b : BlockBuilder) (interval : Int) (key value : Bytes) :
    ∃ shared restarts counter,
      b.add interval key value = .ok ⟨b.buffer ++ (encodeVarint32 (shared % 2 ^ 32) ++
        encodeVarint32 ((key.length - shared) % 2 ^ 32) ++
        encodeVarint32 (value.length % 2 ^ 32) ++ (key.drop shared ++ value)),
        restarts, counter + 1, b.finished, key⟩ ∧
      Item.Extends ⟨shared, key, value⟩ b.lastKey ∧ Turn b interval key shared restarts counter := by
  have htake (shared : Nat) : (key.drop shared).take (key.length - shared) = key.drop shared :=
    List.take_of_length_le (by simp)
  by_cases hcounter : (b.counter : Int) < interval
  · have hkey : b.lastKey.take (sharedLength b.lastKey key) ++
        key.drop (sharedLength b.lastKey key) = key := by
      rw [take_sharedLength, List.take_append_drop]
    refine ⟨sharedLength b.lastKey key, b.restarts, b.counter, ?_, ?_, .compress hcounter⟩
    · simp [add, hcounter, htake, hkey, putVarint32]
    · exact ⟨sharedLength_le_right _ _, sharedLength_le_left _ _, take_sharedLength _ _⟩
  · refine ⟨0, b.restarts ++ [b.buffer.length % 2 ^ 32], 0, ?_, ?_, .restart (by omega)⟩
    · simp [add, hcounter, putVarint32]
    · exact ⟨Nat.zero_le _, Nat.zero_le _, rfl⟩

theorem getElem?_append_singleton {α : Type} {l : List α} {a b : α} {i : Nat}
    (h : (l ++ [a])[i]? = some b) :
    l[i]? = some b ∧ i < l.length ∨ i = l.length ∧ a = b := by
  rcases Nat.lt_or_ge i l.length with hi | hi
  · rw [List.getElem?_append_left hi] at h
    exact .inl ⟨h, hi⟩
  · obtain ⟨hlt, hb⟩ := List.getElem?_eq_some_iff.mp h
    rw [List.length_append, List.length_singleton] at hlt
    obtain rfl : i = l.length := by omega
    rw [List.getElem_append_right (Nat.le_refl _)] at hb
    exact .inr ⟨rfl, by simpa using hb⟩

theorem Built.lastKey_le {items : List Item} {firsts : List Nat} {b : BlockBuilder}
    (h : Built items firsts b) : b.lastKey.length ≤ b.buffer.length := by
  rw [h.lastKey, h.buffer, ← start_length]
  exact keyBefore_length_le items h.extends_before _ (Nat.le_refl _)

section AddItem

variable {items : List Item} {firsts : List Nat} {b : BlockBuilder}

theorem Built.extends_concat (h : Built items firsts b) {e : Item} (he : e.Extends b.lastKey) :
    ∀ i, ∀ e' : Item, (items ++ [e])[i]? = some e' →
      e'.Extends (keyBefore (items ++ [e]) i) := by
  intro i e' he'
  rcases getElem?_append_singleton he' with ⟨hi, hlt⟩ | ⟨rfl, rfl⟩
  · rw [keyBefore_append _ _ _ hlt.le]
    exact h.extends_before i e' hi
  · rw [keyBefore_append _ _ _ (Nat.le_refl _), ← h.lastKey]
    exact he

theorem Built.firsts_le (h : Built items firsts b) : ∀ f ∈ firsts, f ≤ items.length := by
  intro f hf
  rcases h.firsts_lt f hf with rfl | hlt <;> omega

theorem Built.firsts_lt_of_ne (h : Built items firsts b) (hne : items ≠ []) :
    ∀ f ∈ firsts, f < items.length := by
  intro f hf
  rcases h.firsts_lt f hf with rfl | hlt
  · exact List.length_pos_iff.mpr hne
  · exact hlt

theorem Built.map_start_concat (h : Built items firsts b) (e : Item) :
    firsts.map (start (items ++ [e])) = b.restarts := by
  rw [h.restarts]
  exact List.map_congr_left fun f hf => start_append items [e] f (h.firsts_le f hf)

-- Also the first entry of a block shares nothing, with the empty key before it.
theorem Built.shared_concat (h : Built items firsts b) {e : Item} (he : e.Extends b.lastKey) :
    ∀ f ∈ firsts, ∀ e' : Item, (items ++ [e])[f]? = some e' → e'.shared = 0 := by
  intro f hf e' he'
  by_cases hlt : f < items.length
  · rw [List.getElem?_append_left hlt] at he'
    exact h.firsts_shared f hf e' he'
  · obtain rfl : f = 0 := by
      rcases h.firsts_lt f hf with rfl | hlt' <;> omega
    have hitems : items = [] := List.length_eq_zero_iff.mp (by omega)
    have hext := (h.extends_concat he 0 e' he').shared_le_last
    rw [keyBefore_append _ _ _ (Nat.zero_le _)] at hext
    simpa [keyBefore] using hext

theorem Built.lastKey_concat (items : List Item) (e : Item) :
    e.key = keyBefore (items ++ [e]) (items ++ [e]).length := by
  rw [List.length_append, List.length_singleton, keyBefore_succ _ _ e (by simp)]

theorem Built.buffer_concat (h : Built items firsts b) (e : Item) :
    b.buffer ++ e.encode = encodeAll (items ++ [e]) := by
  rw [encodeAll_append, encodeAll_singleton, h.buffer]

-- One more entry without a restart at it.
theorem Built.add_plain (h : Built items firsts b) {e : Item} (he : e.Extends b.lastKey)
    (counter : Nat) : Built (items ++ [e]) firsts
      ⟨b.buffer ++ e.encode, b.restarts, counter + 1, b.finished, e.key⟩ where
  buffer := h.buffer_concat e
  lastKey := Built.lastKey_concat items e
  extends_before := h.extends_concat he
  restarts := (h.map_start_concat e).symm
  firsts_head := h.firsts_head
  firsts_sorted := h.firsts_sorted
  firsts_lt := by
    intro f hf
    rw [List.length_append]
    rcases h.firsts_lt f hf with rfl | hlt
    · exact .inl rfl
    · exact .inr (by omega)
  firsts_shared := h.shared_concat he
  counter := by simp

-- One more entry that is a restart point and not the first entry.
theorem Built.add_restart (h : Built items firsts b) {e : Item} (he : e.Extends b.lastKey)
    (counter : Nat) (hzero : e.shared = 0) (hne : items ≠ []) :
    Built (items ++ [e]) (firsts ++ [items.length])
      ⟨b.buffer ++ e.encode, b.restarts ++ [b.buffer.length], counter + 1, b.finished, e.key⟩ where
  buffer := h.buffer_concat e
  lastKey := Built.lastKey_concat items e
  extends_before := h.extends_concat he
  restarts := by
    rw [List.map_append, h.map_start_concat e, List.map_singleton,
      start_append _ _ _ (Nat.le_refl _), start_length, h.buffer]
  firsts_head := by
    rw [List.getElem?_append_left]
    · exact h.firsts_head
    · exact (List.getElem?_eq_some_iff.mp h.firsts_head).1
  firsts_sorted := by
    apply List.pairwise_append.mpr
    refine ⟨h.firsts_sorted, List.pairwise_singleton _ _, ?_⟩
    intro f hf g hg
    rw [List.mem_singleton.mp hg]
    exact h.firsts_lt_of_ne hne f hf
  firsts_lt := by
    intro f hf
    rw [List.length_append, List.length_singleton]
    rcases List.mem_append.mp hf with hf | hf
    · have hle := h.firsts_le f hf
      omega
    · have hlast := List.mem_singleton.mp hf
      omega
  firsts_shared := by
    intro f hf e' he'
    rcases List.mem_append.mp hf with hf | hf
    · exact h.shared_concat he f hf e' he'
    · rw [List.mem_singleton.mp hf, List.getElem?_concat_length] at he'
      obtain rfl := Option.some.inj he'
      exact hzero
  counter := by simp

end AddItem

-- A call of `Add`, with the restart interval in force.
structure Addition where
  interval : Int
  key : Bytes
  value : Bytes
  interval_pos : 1 ≤ interval

namespace Addition

def pair (a : Addition) : Bytes × Bytes := (a.key, a.value)

end Addition

def addAll (b : BlockBuilder) (adds : List Addition) : Exec BlockBuilder :=
  adds.foldlM (fun b a => b.add a.interval a.key a.value) b

-- Nothing is cut to 32 bits as long as the buffer is shorter than `2 ^ 32`.
def Holds (pairs : List (Bytes × Bytes)) (b : BlockBuilder) : Prop :=
  b.buffer.length < 2 ^ 32 →
    ∃ items firsts, items.map Item.pair = pairs ∧ Built items firsts b

-- One more entry, on the run of the last restart point or at a new one.
theorem Built.add {items : List Item} {firsts : List Nat} {b b' : BlockBuilder}
    (h : Built items firsts b) (a : Addition) (hadd : b.add a.interval a.key a.value = .ok b')
    (hlen : b'.buffer.length < 2 ^ 32) :
    ∃ e firsts', e.pair = a.pair ∧ Built (items ++ [e]) firsts' b' ∧
      (firsts' = firsts ∧ e.shared = sharedLength b.lastKey e.key ∧
          (b.counter : Int) < a.interval ∧ b'.counter = b.counter + 1 ∨
        firsts' = firsts ++ [items.length] ∧ b'.counter = 1) := by
  obtain ⟨shared, restarts, counter, hspec, hextends, hturn⟩ := add_spec b a.interval a.key a.value
  obtain rfl := Except.ok.inj (hspec.symm.trans hadd)
  simp only [List.length_append, List.length_drop] at hlen
  have hkey := h.lastKey_le
  have hshared := hextends.shared_le_last
  dsimp only at hshared
  -- the lengths fit, so the entry is written as it is
  rw [Nat.mod_eq_of_lt (by omega : shared < 2 ^ 32),
    Nat.mod_eq_of_lt (by omega : a.key.length - shared < 2 ^ 32),
    Nat.mod_eq_of_lt (by omega : a.value.length < 2 ^ 32)]
  refine ⟨⟨shared, a.key, a.value⟩, ?_⟩
  cases hturn with
  | compress hcounter =>
      exact ⟨firsts, rfl, h.add_plain hextends b.counter, .inl ⟨rfl, rfl, hcounter, rfl⟩⟩
  | restart hcounter =>
      have hne : items ≠ [] := by
        intro hnil
        have hzero := h.counter hnil
        have hone := a.interval_pos
        omega
      rw [Nat.mod_eq_of_lt (by omega : b.buffer.length < 2 ^ 32)]
      exact ⟨_, rfl, h.add_restart hextends 0 rfl hne, .inr ⟨rfl, rfl⟩⟩

-- Every call succeeds and puts bytes into the buffer.
theorem add_grows (b : BlockBuilder) (interval : Int) (key value : Bytes) :
    ∃ b', b.add interval key value = .ok b' ∧ b.buffer.length < b'.buffer.length := by
  obtain ⟨shared, restarts, counter, hadd, -⟩ := add_spec b interval key value
  have hpos := encodeVarint32_length_pos (shared % 2 ^ 32)
  refine ⟨_, hadd, ?_⟩
  simp only [List.length_append]
  omega

theorem Holds.add {pairs : List (Bytes × Bytes)} {b : BlockBuilder} (h : Holds pairs b)
    (a : Addition) : ∃ b', b.add a.interval a.key a.value = .ok b' ∧
      Holds (pairs ++ [a.pair]) b' ∧ b.buffer.length < b'.buffer.length := by
  obtain ⟨b', hadd, hgrows⟩ := add_grows b a.interval a.key a.value
  refine ⟨b', hadd, fun hlen => ?_, hgrows⟩
  obtain ⟨items, firsts, hitems, hbuilt⟩ := h (hgrows.trans hlen)
  obtain ⟨e, firsts', he, hbuilt', -⟩ := hbuilt.add a hadd hlen
  exact ⟨_, firsts', by rw [List.map_append, hitems, List.map_singleton, he], hbuilt'⟩

theorem addAll_holds (b : BlockBuilder) (pairs : List (Bytes × Bytes)) (h : Holds pairs b)
    (adds : List Addition) : ∃ b', b.addAll adds = .ok b' ∧
      Holds (pairs ++ adds.map Addition.pair) b' := by
  have hrun := foldlM_history (fun b (a : Addition) => b.add a.interval a.key a.value)
    (fun done b => Holds (pairs ++ done.map Addition.pair) b) adds
    (by
      intro done b hb a _
      obtain ⟨b', hb', hholds, -⟩ := hb.add a
      exact ⟨b', hb', by simpa using hholds⟩)
    [] b (by simpa using h)
  obtain ⟨b', hb', hholds⟩ := hrun
  exact ⟨b', hb', by simpa using hholds⟩

-- The bytes that `Finish` returns.
theorem finish_eq (b : BlockBuilder) : b.finish.2 = b.buffer ++
    (b.restarts.flatMap encodeFixed32 ++ encodeFixed32 (b.restarts.length % 2 ^ 32)) := by
  have hfold : ∀ (restarts : List Nat) (buffer : Bytes),
      restarts.foldl putFixed32 buffer = buffer ++ restarts.flatMap encodeFixed32 := by
    intro restarts
    induction restarts with
    | nil => simp
    | cons r restarts ih =>
        intro buffer
        rw [List.foldl_cons, ih, List.flatMap_cons, putFixed32, List.append_assoc]
  rw [finish, hfold, putFixed32, List.append_assoc]

end BlockBuilder

end Mylldb

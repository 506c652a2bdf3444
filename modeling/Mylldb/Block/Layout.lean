import Mylldb.Block
import Mylldb.BlockBuilder.Theorems

namespace Mylldb.Block

open BlockBuilder Lib.Run Lib.Base128

-- An encoding whose first byte is below 128 is that byte.
theorem encodeVarint32_short (v : Nat) (hv : v < 2 ^ 32) (b : UInt8) (tail bs : Bytes)
    (h : encodeVarint32 v ++ tail = b :: bs) (hb : b.toNat < 128) : v = b.toNat ∧ tail = bs := by
  obtain ⟨hterm, hvalue, -, -⟩ := encodeVarint32_spec v hv
  cases hcases : encodeVarint32 v with
  | nil =>
      rw [hcases] at hterm
      exact hterm.elim
  | cons c cs =>
      rw [hcases] at hterm hvalue h
      obtain ⟨rfl, htail⟩ := List.cons_eq_cons.mp h
      cases cs with
      | nil =>
          simp only [value] at hvalue
          exact ⟨by omega, htail⟩
      | cons d ds =>
          have hge := hterm.1
          omega

theorem or_lt_128 (a b c : Nat) : a ||| b ||| c < 128 ↔ a < 128 ∧ b < 128 ∧ c < 128 := by
  have hle (x y : Nat) : x ≤ x ||| y := Nat.left_le_or
  have hle' (x y : Nat) : y ≤ x ||| y := Nat.right_le_or
  constructor
  · intro h
    have hab := hle (a ||| b) c
    have hc := hle' (a ||| b) c
    have ha := hle a b
    have hb := hle' a b
    omega
  · rintro ⟨ha, hb, hc⟩
    exact Nat.or_lt_two_pow (n := 7) (Nat.or_lt_two_pow (n := 7) ha hb) hc

theorem decodeLengths_eq (data : Bytes) (p limit shared nonShared valueLength : Nat)
    (hshared : shared < 2 ^ 32) (hnonShared : nonShared < 2 ^ 32) (hvalue : valueLength < 2 ^ 32)
    (hat : StandsAt data p (encodeVarint32 shared ++ encodeVarint32 nonShared ++
      encodeVarint32 valueLength))
    (hlimit : p + (encodeVarint32 shared ++ encodeVarint32 nonShared ++
      encodeVarint32 valueLength).length ≤ limit) :
    decodeLengths data p limit = .ok (some ⟨p + (encodeVarint32 shared ++
      encodeVarint32 nonShared ++ encodeVarint32 valueLength).length, shared, nonShared,
      valueLength⟩) := by
  simp only [List.length_append, ← Nat.add_assoc] at hlimit ⊢
  rw [List.append_assoc] at hat
  have hfirst := getVarint32Ptr_encode data p limit shared hshared hat.left (by omega)
  have hsecond := getVarint32Ptr_encode data _ limit nonShared hnonShared hat.right.left (by omega)
  have hthird := getVarint32Ptr_encode data _ limit valueLength hvalue hat.right.right (by omega)
  simp only [decodeLengths, hfirst, hsecond, hthird, ok_bind, pure_eq]

-- The decoder reads three lengths that are followed by as many bytes as they say.
theorem decodeEntry_lengths (data : Bytes) (p limit shared nonShared valueLength : Nat)
    (hshared : shared < 2 ^ 32) (lengths : Bytes)
    (hlengths : lengths = encodeVarint32 shared ++ encodeVarint32 nonShared ++
      encodeVarint32 valueLength)
    (hat : StandsAt data p lengths)
    (hlimit : p + lengths.length + nonShared + valueLength ≤ limit) (hfits : limit < 2 ^ 32) :
    decodeEntry data p limit =
      .ok (some ⟨p + lengths.length, shared, nonShared, valueLength⟩) := by
  have hnonShared : nonShared < 2 ^ 32 := by omega
  have hvalue : valueLength < 2 ^ 32 := by omega
  have hcheck : ∀ e : EntryHeader, e = ⟨p + lengths.length, shared, nonShared, valueLength⟩ →
      checkEntry limit e = some e := by
    rintro e rfl
    rw [checkEntry, if_neg]
    simp only
    rw [Nat.mod_eq_of_lt (by omega), Nat.mod_eq_of_lt (by omega)]
    omega
  have hslow : decodeLengths data p limit =
      .ok (some ⟨p + lengths.length, shared, nonShared, valueLength⟩) := by
    subst hlengths
    exact decodeLengths_eq data p limit _ _ _ hshared hnonShared hvalue hat (by omega)
  have hthree : 3 ≤ lengths.length := by
    have h₁ := encodeVarint32_length_pos shared
    have h₂ := encodeVarint32_length_pos nonShared
    have h₃ := encodeVarint32_length_pos valueLength
    simp only [hlengths, List.length_append]
    omega
  match lengths, hthree with
  | b₀ :: b₁ :: b₂ :: bs, _ =>
      rw [decodeEntry, if_neg (by simp only [List.length_cons] at hlimit; omega)]
      simp only [hat.readByte_eq, hat.tail.readByte_eq, hat.tail.tail.readByte_eq, ok_bind,
        or_lt_128]
      split
      · rename_i hlow
        obtain ⟨h₀, h₁, h₂⟩ := hlow
        rw [List.append_assoc] at hlengths
        obtain ⟨rfl, htail⟩ := encodeVarint32_short shared hshared b₀ _ _ hlengths.symm h₀
        obtain ⟨rfl, hlast⟩ := encodeVarint32_short nonShared hnonShared b₁ _ _ htail h₁
        rw [← List.append_nil (encodeVarint32 valueLength)] at hlast
        obtain ⟨rfl, rfl⟩ := encodeVarint32_short valueLength hvalue b₂ [] bs hlast h₂
        exact congrArg Except.ok (hcheck _ rfl)
      · rw [hslow]
        simp only [ok_bind, pure_eq, Option.bind_some, hcheck _ rfl]

-- The bytes of a block: its entries, its restart points and their number.
structure Layout (items : List Item) (firsts : List Nat) (data : Bytes) : Prop where
  data_eq : data = encodeAll items ++
    ((firsts.map (start items)).flatMap encodeFixed32 ++ encodeFixed32 firsts.length)
  fits : data.length < 2 ^ 32
  extends_before : ∀ i, ∀ e : Item, items[i]? = some e → e.Extends (keyBefore items i)
  firsts_head : firsts[0]? = some 0
  firsts_sorted : firsts.Pairwise (· < ·)
  firsts_lt : ∀ f ∈ firsts, f = 0 ∨ f < items.length
  firsts_shared : ∀ f ∈ firsts, ∀ e : Item, items[f]? = some e → e.shared = 0

theorem flatMap_fixed32_length (l : List Nat) : (l.flatMap encodeFixed32).length = 4 * l.length := by
  induction l with
  | nil => rfl
  | cons v l ih =>
      rw [List.flatMap_cons, List.length_append, encodeFixed32_length, ih, List.length_cons]
      omega

theorem finish_layout {items : List Item} {firsts : List Nat} {b : BlockBuilder}
    (h : Built items firsts b) (hfits : b.finish.2.length < 2 ^ 32) :
    Layout items firsts b.finish.2 where
  data_eq := by
    have hcount : b.restarts.length < 2 ^ 32 := by
      rw [finish_eq] at hfits
      simp only [List.length_append, flatMap_fixed32_length] at hfits
      omega
    rw [finish_eq, Nat.mod_eq_of_lt hcount, h.buffer, h.restarts, List.length_map]
  fits := hfits
  extends_before := h.extends_before
  firsts_head := h.firsts_head
  firsts_sorted := h.firsts_sorted
  firsts_lt := h.firsts_lt
  firsts_shared := h.firsts_shared

-- Where the entries end and the restart points begin.
abbrev restartsOffset (items : List Item) : Nat := start items items.length

namespace Layout

variable {items : List Item} {firsts : List Nat} {data : Bytes}

theorem length_eq (h : Layout items firsts data) :
    data.length = restartsOffset items + 4 * firsts.length + 4 := by
  rw [h.data_eq, restartsOffset, start_length]
  simp only [List.length_append, flatMap_fixed32_length, List.length_map, encodeFixed32_length]
  omega

theorem firsts_pos (h : Layout items firsts data) : 0 < firsts.length :=
  (List.getElem?_eq_some_iff.mp h.firsts_head).1

theorem le_of_mem_firsts (h : Layout items firsts data) (f : Nat) (hf : f ∈ firsts) :
    f ≤ items.length := by
  rcases h.firsts_lt f hf with rfl | hlt <;> omega

-- Behind the first restart point there is an entry at every one.
theorem lt_of_restart (h : Layout items firsts data) (r f : Nat) (hr : 0 < r)
    (hf : firsts[r]? = some f) : f < items.length := by
  obtain ⟨hlt, hget⟩ := List.getElem?_eq_some_iff.mp hf
  have hfirst := List.pairwise_iff_getElem.mp h.firsts_sorted 0 r h.firsts_pos hlt hr
  rw [hget] at hfirst
  rcases h.firsts_lt f (List.mem_of_getElem? hf) with rfl | hin
  · omega
  · exact hin

theorem stands (h : Layout items firsts data) : StandsAt data 0 (encodeAll items ++
    ((firsts.map (start items)).flatMap encodeFixed32 ++ encodeFixed32 firsts.length)) := by
  rw [← h.data_eq]
  exact .last [] data

theorem entry_stands (h : Layout items firsts data) (i : Nat) (e : Item)
    (he : items[i]? = some e) : StandsAt data (start items i) e.encode := by
  have hentry := h.stands.left.flatMap i e he
  rwa [Nat.zero_add] at hentry

theorem start_le (h : Layout items firsts data) (i : Nat) (hi : i ≤ items.length) :
    start items i ≤ data.length := by
  have hle := start_le_length items i hi
  have hlen := h.length_eq
  rw [restartsOffset] at hlen
  omega

theorem start_fits (h : Layout items firsts data) (i : Nat) (hi : i ≤ items.length) :
    start items i < 2 ^ 32 :=
  (h.start_le i hi).trans_lt h.fits

theorem decodeEntry_eq (h : Layout items firsts data) (i : Nat) (e : Item)
    (he : items[i]? = some e) :
    decodeEntry data (start items i) (restartsOffset items) =
      .ok (some ⟨start items i + e.lengths.length, e.shared, e.key.length - e.shared,
        e.value.length⟩) := by
  unfold restartsOffset
  have hi := (List.getElem?_eq_some_iff.mp he).1
  have hend := start_le_length items (i + 1) hi
  rw [start_succ items i e he, e.encode_length] at hend
  have hfits := h.start_fits items.length (Nat.le_refl _)
  have hshared : e.shared < 2 ^ 32 := by
    have hlast := (h.extends_before i e he).shared_le_last
    have hkey := keyBefore_length_le items h.extends_before i hi.le
    omega
  exact decodeEntry_lengths data _ _ _ _ _ hshared _ rfl (h.entry_stands i e he).left (by omega)
    hfits

theorem restart_stands (h : Layout items firsts data) (r f : Nat) (hf : firsts[r]? = some f) :
    StandsAt data (restartsOffset items + r * 4) (encodeFixed32 (start items f)) := by
  have hr := (List.getElem?_eq_some_iff.mp hf).1
  have hpoint := h.stands.right.left.flatMap r (start items f) (by simp [hf])
  have hlen : 0 + (encodeAll items).length +
      (((firsts.map (start items)).take r).flatMap encodeFixed32).length =
        restartsOffset items + r * 4 := by
    rw [flatMap_fixed32_length, List.length_take, List.length_map, restartsOffset, start_length]
    omega
  rwa [hlen] at hpoint

theorem getRestartPoint_eq (h : Layout items firsts data) (it : Iter) (hdata : it.data = data)
    (hrestarts : it.restarts = restartsOffset items) (hnum : it.numRestarts = firsts.length)
    (r f : Nat) (hf : firsts[r]? = some f) : it.getRestartPoint r = .ok (start items f) := by
  have hr := (List.getElem?_eq_some_iff.mp hf).1
  have hle := h.le_of_mem_firsts f (List.mem_of_getElem? hf)
  have hlen := h.length_eq
  rw [Iter.getRestartPoint, hdata, hrestarts, hnum, assertThat_pos hr, ok_bind]
  exact decodeFixed32_eq data _ _ (h.start_fits f hle) (h.restart_stands r f hf) (by omega)

end Layout

end Mylldb.Block

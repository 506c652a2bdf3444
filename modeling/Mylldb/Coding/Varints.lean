import Mylldb.Coding.Theorems

namespace Mylldb

open Lib.Base128 Lib.Run

-- Without a last byte in reach the loop runs out of turns or of input.
theorem fallback_none (data : Bytes) (limit turns shift p result : Nat) (hp : p ≤ limit)
    (hlimit : limit ≤ data.length)
    (hends : ∀ b ∈ ((data.take limit).drop p).take turns, ends b = false) :
    getVarint32PtrFallback.loop data limit turns shift p result = .ok none := by
  induction turns generalizing shift p result with
  | zero => rfl
  | succ turns ih =>
      rw [getVarint32PtrFallback.loop]
      by_cases hlt : p < limit
      · have hget : p < (data.take limit).length := by
          rw [List.length_take]
          omega
        have hbyte : readByte data p = .ok (data.take limit)[p] := by
          rw [readByte, List.getElem_take, List.getElem?_eq_getElem (by omega)]
        rw [List.drop_eq_getElem_cons hget, List.take_succ_cons] at hends
        have hb := (not_ends_iff _).mp (hends _ List.mem_cons_self)
        have hne : (data.take limit)[p].toNat &&& 128 ≠ 0 := by
          intro hzero
          have hsmall := (and_128 _ (UInt8.toNat_lt _)).mp hzero
          omega
        rw [if_pos hlt, hbyte, ok_bind, if_pos hne]
        exact ih _ _ _ hlt fun b hb => hends b (List.mem_cons_of_mem _ hb)
      · rw [if_neg hlt]
        rfl

theorem getVarint32Ptr_none (input : Bytes) (hends : ∀ b ∈ input.take 5, ends b = false) :
    getVarint32Ptr input 0 input.length = .ok none := by
  have hfallback : getVarint32PtrFallback input 0 input.length = .ok none := by
    apply fallback_none input input.length 5 0 0 0 (Nat.zero_le _) (Nat.le_refl _)
    rwa [List.take_length, List.drop_zero]
  unfold getVarint32Ptr
  split
  · rename_i hpos
    have hbyte : readByte input 0 = .ok input[0] := by
      rw [readByte, List.getElem?_eq_getElem hpos]
    have hmem : input[0] ∈ input.take 5 := List.mem_take_iff_getElem.mpr ⟨0, by omega, rfl⟩
    have hb := (not_ends_iff _).mp (hends _ hmem)
    have hne : ¬input[0].toNat &&& 128 = 0 := by
      intro hzero
      have hsmall := (and_128 _ (UInt8.toNat_lt _)).mp hzero
      omega
    rw [hbyte, ok_bind, if_neg hne, hfallback]
  · exact hfallback

theorem getVarint32_none (input : Bytes) (hnone : (input.take 5).findIdx? ends = none) :
    getVarint32 input = .ok none := by
  rw [getVarint32, getVarint32Ptr_none input (List.findIdx?_eq_none_iff.mp hnone), ok_bind]
  rfl

-- The number goes through the first byte whose top bit is clear.
theorem getVarint32_some (input : Bytes) (i : Nat) (hi : (input.take 5).findIdx? ends = some i) :
    getVarint32 input =
      .ok (some (value (input.take (i + 1)) % 2 ^ 32, input.drop (i + 1))) := by
  obtain ⟨hlt, -⟩ := List.findIdx?_eq_some_iff_getElem.mp hi
  rw [List.length_take] at hlt
  have hterm := terminated_take _ i hi
  rw [List.take_take, Nat.min_eq_left (by omega)] at hterm
  have hlen : (input.take (i + 1)).length = i + 1 := by
    rw [List.length_take]
    omega
  have hptr := getVarint32Ptr_eq input 0 input.length (input.take (i + 1))
    (List.take_prefix _ _) hterm (by omega) (by omega)
  rw [hlen, Nat.zero_add] at hptr
  rw [getVarint32, hptr, ok_bind]
  rfl

theorem getVarint32_encode (v : Nat) (hv : v < 2 ^ 32) (rest : Bytes) :
    getVarint32 (encodeVarint32 v ++ rest) = .ok (some (v, rest)) := by
  have hptr := getVarint32Ptr_encode (encodeVarint32 v ++ rest) 0
    (encodeVarint32 v ++ rest).length v hv (List.prefix_append _ _) (by
      rw [List.length_append]
      omega)
  rw [getVarint32, hptr, ok_bind, Nat.zero_add]
  dsimp only
  rw [List.drop_left]
  rfl

theorem getVarint32_properPrefix (v : Nat) (hv : v < 2 ^ 32) (bs rest : Bytes) (hrest : rest ≠ [])
    (hbs : bs ++ rest = encodeVarint32 v) : getVarint32 bs = .ok none := by
  have hterm := (encodeVarint32_spec v hv).1
  rw [← hbs] at hterm
  apply getVarint32_none
  apply List.findIdx?_eq_none_iff.mpr
  intro b hb
  exact hterm.not_ends bs rest hrest b (List.mem_of_mem_take hb)

theorem putVarint64_appends (dst : Bytes) (v : Nat) (hv : v < 2 ^ 64) :
    putVarint64 dst v = dst ++ encodeVarint64 v ∧
      (encodeVarint64 v).length = varintLength v ∧ varintLength v ≤ 10 := by
  obtain ⟨-, -, hlen⟩ := encodeVarint64_spec v hv
  refine ⟨?_, hlen, varintLength_loop_le 9 v⟩
  rw [putVarint64, Nat.mod_eq_of_lt hv]

-- The encoders agree, the decoder inverts them, and on any input it answers by the
-- first of five bytes with a clear top bit.
theorem varint_codec :
    (∀ v < 2 ^ 32, encodeVarint32 v = encodeVarint64 v) ∧
    (∀ dst v, v < 2 ^ 64 → putVarint64 dst v = dst ++ encodeVarint64 v ∧
      (encodeVarint64 v).length = varintLength v ∧ varintLength v ≤ 10) ∧
    (∀ v rest, v < 2 ^ 32 → getVarint32 (putVarint32 [] v ++ rest) = .ok (some (v, rest))) ∧
    (∀ input i, (input.take 5).findIdx? ends = some i → getVarint32 input =
      .ok (some (value (input.take (i + 1)) % 2 ^ 32, input.drop (i + 1)))) ∧
    (∀ input : Bytes, (input.take 5).findIdx? ends = none → getVarint32 input = .ok none) ∧
    (∀ v bs rest, v < 2 ^ 32 → rest ≠ [] → bs ++ rest = encodeVarint32 v →
      getVarint32 bs = .ok none) := by
  refine ⟨encodeVarint32_eq, putVarint64_appends, ?_, getVarint32_some, getVarint32_none, ?_⟩
  · intro v rest hv
    rw [putVarint32, List.nil_append, Nat.mod_eq_of_lt hv]
    exact getVarint32_encode v hv rest
  · intro v bs rest hv hrest hbs
    exact getVarint32_properPrefix v hv bs rest hrest hbs

-- A fifth byte whose high bits are shifted out, and an encoding that is cut off.
theorem varint_codec_sample : encodeVarint32 300 = encodeVarint64 300 ∧
    (encodeVarint64 300).length = varintLength 300 ∧
    getVarint32 (putVarint32 [] 300 ++ [7]) = .ok (some (300, [7])) ∧
    getVarint32 [0xff, 0xff, 0xff, 0xff, 0x7f, 7] = .ok (some (2 ^ 32 - 1, [7])) ∧
    getVarint32 [0xac] = .ok none := by
  obtain ⟨hencoders, happends, hdecode, hsome, -, hcut⟩ := varint_codec
  refine ⟨hencoders 300 (by decide), (happends [] 300 (by decide)).2.1,
    hdecode 300 [7] (by decide), ?_, hcut 300 [0xac] [2] (by decide) (by decide) (by decide)⟩
  exact hsome [0xff, 0xff, 0xff, 0xff, 0x7f, 7] 4 (by decide)

end Mylldb

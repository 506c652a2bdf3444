import Mylldb.Crc32c
import Mylldb.Lib.Crc

namespace Mylldb.Crc32c

open Lib.Crc Lib.Run

-- The entry of the byte table at 128: seven of its bits fall out unreduced.
def polynomial : BitVec 32 := 0x82f63b78

def generators : List (BitVec 32) := [1, 2, 4, 8, 16, 32, 64, 128]

theorem span_generators : span generators = (List.range 256).map (BitVec.ofNat 32) := by
  decide +kernel

theorem kByteExtensionTable_toList :
    kByteExtensionTable.toList = span (generators.map (advance polynomial 8)) := by
  decide +kernel

theorem kStrideExtensionTable0_toList :
    kStrideExtensionTable0.toList = span (generators.map (advance polynomial 104)) := by
  decide +kernel

theorem kStrideExtensionTable1_toList :
    kStrideExtensionTable1.toList = span (generators.map (advance polynomial 112)) := by
  decide +kernel

theorem kStrideExtensionTable2_toList :
    kStrideExtensionTable2.toList = span (generators.map (advance polynomial 120)) := by
  decide +kernel

theorem kStrideExtensionTable3_toList :
    kStrideExtensionTable3.toList = span (generators.map (advance polynomial 128)) := by
  decide +kernel

-- A table that is the span of shifted generators holds every shifted byte.
theorem get_eq (table : Vector (BitVec 32) 256) (n : Nat)
    (htable : table.toList = span (generators.map (advance polynomial n))) (i : BitVec 8) :
    table.get i.toFin = advance polynomial n (i.setWidth 32) := by
  have hlist : table.toList =
      (List.range 256).map fun i => advance polynomial n (BitVec.ofNat 32 i) := by
    rw [htable, span_map _ (advance_xor polynomial n), span_generators, List.map_map]
    rfl
  have hi : i.toNat < table.toList.length := by
    rw [Vector.length_toList]
    exact i.isLt
  calc table.get i.toFin = table.toList[i.toNat] := by
        simp [Vector.get]
    _ = advance polynomial n (i.setWidth 32) := by
        simp only [hlist, List.getElem_map, List.getElem_range, BitVec.ofNat_toNat]

theorem wordTurn_eq (w : BitVec 32) : wordTurn w = advance polynomial 8 w := by
  rw [wordTurn, get_eq _ 8 kByteExtensionTable_toList, advance_eq _ 8 w, low, BitVec.xor_comm]

theorem step4W_eq (w l : BitVec 32) : step4W w l = advance polynomial 32 (w ^^^ l) := by
  have hturn : wordTurn = advance polynomial 8 := funext wordTurn_eq
  rw [step4W, hturn]
  rfl

theorem step4W_zero (w : BitVec 32) : step4W w 0 = advance polynomial 32 w := by
  rw [step4W_eq, BitVec.ofNat_eq_ofNat, BitVec.xor_zero]

section Data

variable {data : Bytes} {p : Nat}

theorem step1_eq (l : BitVec 32) (hp : p < data.length) :
    step1 data p l = .ok (feed polynomial l data[p]) := by
  have hread : readByte data p = .ok data[p] := by
    simp [readByte, List.getElem?_eq_getElem hp]
  have hbyte : BitVec.ofNat 32 data[p].toNat = data[p].toBitVec.setWidth 32 := by
    rw [← UInt8.toNat_toBitVec, BitVec.ofNat_toNat]
  have hlow : low 8 (l ^^^ data[p].toBitVec.setWidth 32) =
      (l.setWidth 8 ^^^ data[p].toBitVec).setWidth 32 := by
    simp [low, BitVec.setWidth_xor]
  have hhigh : (l ^^^ data[p].toBitVec.setWidth 32) >>> 8 = l >>> 8 := by
    have hzero : (data[p].toBitVec.setWidth 32) >>> 8 = 0#32 := by
      apply BitVec.eq_of_getLsbD_eq
      intro i _
      simp
    rw [BitVec.ushiftRight_xor_distrib, hzero, BitVec.xor_zero]
  rw [step1, hread, feed, hbyte, advance_eq, hlow, hhigh,
    ← get_eq _ 8 kByteExtensionTable_toList]
  rfl

theorem drop_take_succ (n : Nat) (hp : p < data.length) :
    (data.drop p).take (n + 1) = data[p] :: (data.drop (p + 1)).take n := by
  rw [List.drop_eq_getElem_cons hp, List.take_succ_cons]

theorem byteLoop_eq (n p : Nat) (l : BitVec 32) (hp : p + n ≤ data.length) :
    byteLoop data n p l = .ok (feedAll polynomial l ((data.drop p).take n)) := by
  induction n generalizing p l with
  | zero => simp [byteLoop, feedAll]
  | succ n ih =>
      have hlt : p < data.length := by omega
      rw [byteLoop, step1_eq l hlt, ok_bind, ih _ _ (by omega), drop_take_succ n hlt]
      rfl

theorem readUint32LE_eq (hp : p + 4 ≤ data.length) :
    readUint32LE data p = .ok (word 32 ((data.drop p).take 4)) := by
  rw [readUint32LE, decodeFixed32, readRange, if_pos hp]
  rfl

theorem advance_add_byte (n : Nat) (x : BitVec 32) : advance polynomial (n + 8) x =
    advance polynomial (n + 8) ((x.setWidth 8).setWidth 32) ^^^
      advance polynomial n (x >>> 8) := by
  rw [advance_add, advance_eq _ 8 x, advance_xor, ← advance_add, low]

theorem step4_eq (s : Nat) (crc : BitVec 32) (hp : p + s * 4 + 4 ≤ data.length) :
    step4 data p s crc =
      .ok (word 32 ((data.drop (p + s * 4)).take 4) ^^^ advance polynomial 128 crc) := by
  have hsplit : advance polynomial 128 crc =
      advance polynomial 128 ((crc.setWidth 8).setWidth 32) ^^^
      (advance polynomial 120 (((crc >>> 8).setWidth 8).setWidth 32) ^^^
      (advance polynomial 112 (((crc >>> 16).setWidth 8).setWidth 32) ^^^
      advance polynomial 104 (((crc >>> 24).setWidth 8).setWidth 32))) := by
    have htop : ((crc >>> 24).setWidth 8).setWidth 32 = crc >>> 24 := by
      apply BitVec.eq_of_getLsbD_eq
      intro i hi
      simp only [BitVec.getLsbD_setWidth, BitVec.getLsbD_ushiftRight, hi, decide_true,
        Bool.true_and]
      by_cases h8 : i < 8
      · simp [h8]
      · simp [h8, BitVec.getLsbD_of_ge crc (24 + i) (by omega)]
    rw [htop, advance_add_byte 120 crc, advance_add_byte 112 (crc >>> 8),
      advance_add_byte 104 (crc >>> 8 >>> 8), ← BitVec.shiftRight_add, ← BitVec.shiftRight_add]
  rw [step4, readUint32LE_eq hp, ok_bind, get_eq _ 128 kStrideExtensionTable3_toList,
    get_eq _ 120 kStrideExtensionTable2_toList, get_eq _ 112 kStrideExtensionTable1_toList,
    get_eq _ 104 kStrideExtensionTable0_toList, pure_eq, hsplit]
  simp only [BitVec.xor_assoc]

-- The register that the four partial results stand for.
def Strides.combine (c : Strides) : BitVec 32 :=
  step4W c.crc3 (step4W c.crc2 (step4W c.crc1 (step4W c.crc0 0)))

theorem Strides.combine_eq (c : Strides) : c.combine =
    advance polynomial 128 c.crc0 ^^^ (advance polynomial 96 c.crc1 ^^^
      (advance polynomial 64 c.crc2 ^^^ advance polynomial 32 c.crc3)) := by
  rw [combine, step4W_zero]
  simp only [step4W_eq, advance_xor, ← advance_add, Nat.reduceAdd]
  ac_rfl

-- A word enters the oldest partial result, which becomes the newest.
def Strides.rotate (c : Strides) (w : BitVec 32) : Strides :=
  ⟨c.crc1, c.crc2, c.crc3, w ^^^ advance polynomial 128 c.crc0⟩

theorem Strides.combine_rotate (c : Strides) (w : BitVec 32) :
    (c.rotate w).combine = advance polynomial 32 (c.combine ^^^ w) := by
  simp only [combine_eq, rotate, advance_xor, ← advance_add, Nat.reduceAdd]
  ac_rfl

-- The register of a serial run over the first `p` bytes.
structure Tracks (data : Bytes) (l₀ : BitVec 32) (p : Nat) (l : BitVec 32) : Prop where
  le_length : p ≤ data.length
  eq : l = feedAll polynomial l₀ (data.take p)

theorem Tracks.feedAll {l₀ l : BitVec 32} (h : Tracks data l₀ p l) (n : Nat)
    (hn : p + n ≤ data.length) :
    Tracks data l₀ (p + n) (feedAll polynomial l ((data.drop p).take n)) := by
  refine ⟨hn, ?_⟩
  rw [List.take_add, feedAll_append, ← h.eq]

theorem Tracks.word {l₀ l : BitVec 32} (h : Tracks data l₀ p l) (hp : p + 4 ≤ data.length) :
    Tracks data l₀ (p + 4) (advance polynomial 32 (l ^^^ word 32 ((data.drop p).take 4))) := by
  have hlen : ((data.drop p).take 4).length = 4 := by
    rw [List.length_take, List.length_drop]
    omega
  have hnext := h.feedAll 4 hp
  rwa [feedAll_eq _ _ _ (by omega), hlen] at hnext

theorem Tracks.rotate {l₀ : BitVec 32} {c : Strides} (h : Tracks data l₀ p c.combine)
    (hp : p + 4 ≤ data.length) :
    Tracks data l₀ (p + 4) (c.rotate (Lib.Crc.word 32 ((data.drop p).take 4))).combine := by
  rw [Strides.combine_rotate]
  exact h.word hp

theorem wordLoop_tracks (l₀ : BitVec 32) (fuel p : Nat) (c : Strides)
    (hfuel : data.length - p < fuel) (h : Tracks data l₀ p c.combine) :
    ∃ p' c', wordLoop data fuel p c = .ok (p', c') ∧ Tracks data l₀ p' c'.combine := by
  induction fuel generalizing p c with
  | zero => omega
  | succ fuel ih =>
      by_cases hmore : data.length - p ≥ 4
      · have hword : step4 data p 0 c.crc0 = _ := step4_eq 0 c.crc0 (by omega)
        rw [Nat.zero_mul, Nat.add_zero] at hword
        rw [wordLoop, if_pos hmore, hword, ok_bind]
        exact ih (p + 4) _ (by omega) (h.rotate (by omega))
      · exact ⟨p, c, by rw [wordLoop, if_neg hmore, pure_eq], h⟩

-- Four words, each for its own stride, are four rotations.
theorem step16_eq (c : Strides) (hp : p + 16 ≤ data.length) :
    step16 data p c = .ok
      ((((c.rotate (word 32 ((data.drop p).take 4))).rotate
        (word 32 ((data.drop (p + 4)).take 4))).rotate
        (word 32 ((data.drop (p + 4 + 4)).take 4))).rotate
        (word 32 ((data.drop (p + 4 + 4 + 4)).take 4))) := by
  rw [step16, step4_eq 0 _ (by omega), ok_bind, step4_eq 1 _ (by omega), ok_bind,
    step4_eq 2 _ (by omega), ok_bind, step4_eq 3 _ (by omega), ok_bind]
  rfl

theorem swathLoop_tracks (l₀ : BitVec 32) (fuel p : Nat) (c : Strides)
    (hfuel : data.length - p < fuel) (h : Tracks data l₀ p c.combine) :
    ∃ p' c', swathLoop data fuel p c = .ok (p', c') ∧ Tracks data l₀ p' c'.combine := by
  induction fuel generalizing p c with
  | zero => omega
  | succ fuel ih =>
      by_cases hmore : data.length - p ≥ 16
      · rw [swathLoop, if_pos hmore, step16_eq c (by omega), ok_bind]
        refine ih (p + 16) _ (by omega) ?_
        have h₁ := h.rotate (by omega)
        have h₂ := h₁.rotate (by omega)
        have h₃ := h₂.rotate (by omega)
        exact h₃.rotate (by omega)
      · exact ⟨p, c, by rw [swathLoop, if_neg hmore, pure_eq], h⟩

theorem alignStep_tracks (buf : Nat) (l₀ : BitVec 32) :
    ∃ p l, alignStep buf data l₀ = .ok (p, l) ∧ Tracks data l₀ p l := by
  have hstart : Tracks data l₀ 0 l₀ := ⟨Nat.zero_le _, rfl⟩
  by_cases hx : roundUp 4 buf - buf ≤ data.length
  · have hloop : byteLoop data _ 0 l₀ = _ := byteLoop_eq (roundUp 4 buf - buf) 0 l₀ (by omega)
    have hnext := hstart.feedAll (roundUp 4 buf - buf) (by omega)
    rw [Nat.zero_add] at hnext
    exact ⟨_, _, by rw [alignStep, if_pos hx, hloop, ok_bind, pure_eq], hnext⟩
  · exact ⟨0, l₀, by rw [alignStep, if_neg hx, pure_eq], hstart⟩

-- The first four words open the strides; the register enters with the first of
-- them.
theorem strideStep_tracks (l₀ l : BitVec 32) (h : Tracks data l₀ p l) :
    ∃ p' l', strideStep data p l = .ok (p', l') ∧ Tracks data l₀ p' l' := by
  by_cases hmore : data.length - p ≥ 16
  · have hopen : Tracks data l₀ (p + 16)
        (Strides.combine ⟨word 32 ((data.drop p).take 4) ^^^ l,
          word 32 ((data.drop (p + 4)).take 4), word 32 ((data.drop (p + 4 + 4)).take 4),
          word 32 ((data.drop (p + 4 + 4 + 4)).take 4)⟩) := by
      have h₁ := h.word (by omega)
      have h₂ := h₁.word (by omega)
      have h₃ := h₂.word (by omega)
      have h₄ := h₃.word (by omega)
      rw [Strides.combine, step4W_zero]
      simpa only [step4W_eq, BitVec.xor_comm] using h₄
    obtain ⟨p₁, c₁, hswath, h₁⟩ := swathLoop_tracks l₀ (data.length + 1) _ _ (by omega) hopen
    obtain ⟨p₂, c₂, hword, h₂⟩ := wordLoop_tracks l₀ (data.length + 1) _ _ (by omega) h₁
    refine ⟨p₂, c₂.combine, ?_, h₂⟩
    rw [strideStep, if_pos hmore, readUint32LE_eq (by omega), ok_bind, readUint32LE_eq (by omega),
      ok_bind, readUint32LE_eq (by omega), ok_bind, readUint32LE_eq (by omega), ok_bind]
    have hwords := hswath
    simp only [Nat.add_assoc, Nat.reduceAdd] at hwords
    simp only [Nat.zero_mul, Nat.one_mul, Nat.reduceMul, Nat.add_zero, hwords, ok_bind, hword]
    rfl
  · exact ⟨p, l, by rw [strideStep, if_neg hmore, pure_eq], h⟩

-- The portable path computes the serial CRC, wherever the data lie.
theorem extend_eq (crc : BitVec 32) (buf : Nat) (data : Bytes) : extend crc buf data =
    .ok (feedAll polynomial (crc ^^^ kCRC32Xor) data ^^^ kCRC32Xor) := by
  obtain ⟨p₁, l₁, halign, h₁⟩ : ∃ p l, alignStep buf data _ = .ok (p, l) ∧ _ :=
    alignStep_tracks buf (crc ^^^ kCRC32Xor)
  obtain ⟨p₂, l₂, hstride, h₂⟩ := strideStep_tracks _ l₁ h₁
  have hlen := h₂.le_length
  have hend := h₂.feedAll (data.length - p₂) (by omega)
  have hall : feedAll polynomial l₂ ((data.drop p₂).take (data.length - p₂)) =
      feedAll polynomial (crc ^^^ kCRC32Xor) data := by
    rw [hend.eq, List.take_of_length_le (by omega)]
  rw [extend, halign, ok_bind]
  dsimp only
  rw [hstride, ok_bind]
  dsimp only
  rw [byteLoop_eq _ _ _ (by omega), ok_bind, hall, pure_eq]

end Data

-- A CRC may be computed in two steps.
theorem extend_append (crc crc' : BitVec 32) (buf buf' buf'' : Nat) (data data' : Bytes)
    (h : extend crc buf data = .ok crc') :
    extend crc' buf' data' = extend crc buf'' (data ++ data') := by
  rw [extend_eq] at h
  obtain rfl := Except.ok.inj h
  rw [extend_eq, extend_eq, BitVec.xor_assoc, BitVec.xor_self, BitVec.xor_zero, feedAll_append]

def checksum (data : Bytes) : BitVec 32 := feedAll polynomial (0 ^^^ kCRC32Xor) data ^^^ kCRC32Xor

theorem value_eq (buf : Nat) (data : Bytes) : value buf data = .ok (checksum data) :=
  extend_eq 0 buf data

theorem extend_checksum (buf : Nat) (data data' : Bytes) :
    extend (checksum data) buf data' = .ok (checksum (data ++ data')) := by
  rw [extend_append 0 (checksum data) buf buf buf data data' (extend_eq 0 buf data)]
  exact extend_eq 0 buf (data ++ data')

-- Every byte goes through `STEP1`, in order.
def extendBytewise (crc : BitVec 32) (data : Bytes) : Exec (BitVec 32) := do
  let l ← byteLoop data data.length 0 (crc ^^^ kCRC32Xor)
  pure (l ^^^ kCRC32Xor)

theorem extendBytewise_eq (crc : BitVec 32) (data : Bytes) : extendBytewise crc data =
    .ok (feedAll polynomial (crc ^^^ kCRC32Xor) data ^^^ kCRC32Xor) := by
  rw [extendBytewise, byteLoop_eq data.length 0 _ (by omega), ok_bind, List.drop_zero,
    List.take_length, pure_eq]

theorem polynomial_msb : polynomial.msb = true := by decide

-- The checksum tells data apart that differ only within four bytes.
theorem checksum_window {as bs : Bytes} {p : Nat} (hlen : as.length = bs.length)
    (hwindow : ∀ i, as[i]? ≠ bs[i]? → p ≤ i ∧ i < p + 4) (h : checksum as = checksum bs) :
    as = bs := by
  have hfeed := (BitVec.xor_left_inj _).mp h
  exact feedAll_window polynomial polynomial_msb _ hlen (by omega) hwindow hfeed

theorem unmask_mask (crc : BitVec 32) : unmask (mask crc) = crc := by
  have hrot : mask crc - kMaskDelta = crc >>> 15 ||| crc <<< 17 := by
    rw [mask, BitVec.add_sub_cancel]
  unfold unmask
  rw [hrot]
  exact turn_back crc 15 17 rfl

theorem mask_unmask (maskedCrc : BitVec 32) : mask (unmask maskedCrc) = maskedCrc := by
  unfold mask unmask
  dsimp only
  rw [turn_back (maskedCrc - kMaskDelta) 17 15 rfl, BitVec.sub_add_cancel]

end Mylldb.Crc32c

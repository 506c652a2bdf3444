import Mylldb.Arena.Theorems

namespace Mylldb.Arena

open Lib.Regions Lib.Run

variable {heap : Allocator} {a a' : Arena} {slop bytes p spent : Nat} {ranges : List Region}

-- What the blocks take, without their pointers.
def total (a : Arena) : Nat := (a.blocks.map Region.size).sum

-- A third more is taken than was asked for, and less than a block besides. When a current
-- block is left, at most a quarter of it is wasted, so that three quarters of it were spent.
structure Thrifty (a : Arena) (spent : Nat) : Prop where
  remaining : a.allocBytesRemaining ≤ kBlockSize
  waste : (a.allocBytesRemaining = 0 ∧ 3 * a.total ≤ 4 * spent) ∨
    3 * a.total + kBlockSize ≤ 4 * (spent + a.allocBytesRemaining)

theorem thrifty_empty : Thrifty empty 0 := ⟨Nat.zero_le _, .inl ⟨rfl, by decide⟩⟩

theorem Thrifty.grant (h : Thrifty a spent) (hbytes : 0 < bytes)
    (hgrant : Grant heap a slop bytes (a', p)) : Thrifty a' (spent + (slop + bytes)) := by
  obtain ⟨hremaining, hwaste⟩ := h
  cases hgrant with
  | piece hfits =>
      refine ⟨by dsimp only; omega, .inr ?_⟩
      simp only [total] at hwaste ⊢
      omega
  | own _ _ =>
      refine ⟨hremaining, ?_⟩
      simp only [total, List.map_append, List.sum_append, List.map_cons, List.map_nil, List.sum_cons,
        List.sum_nil, newBlock] at hwaste ⊢
      omega
  | start hfull hsmall =>
      refine ⟨Nat.sub_le _ _, .inr ?_⟩
      simp only [total, List.map_append, List.sum_append, List.map_cons, List.map_nil, List.sum_cons,
        List.sum_nil, newBlock, kBlockSize] at hwaste hsmall ⊢
      omega

theorem Thrifty.total_le (h : Thrifty a spent) : 3 * a.total ≤ 4 * spent + 3 * kBlockSize := by
  obtain ⟨hremaining, hwaste⟩ := h
  omega

-- The ranges lie in the blocks.
theorem Tidy.ranges_le_total (h : Tidy a ranges) : (ranges.map Region.size).sum ≤ a.total := by
  rw [← card_cells h.carved.apart, total, ← card_cells h.carved.blocks_apart]
  apply Finset.card_le_card
  intro x hx
  obtain ⟨r, hr, hle, hlt⟩ := mem_cells.mp hx
  obtain ⟨b, hb, hin⟩ := h.carved.owned r hr
  exact mem_cells.mpr ⟨b, hb, hin.1.trans hle, hlt.trans_le hin.2⟩

-- What a request asks for, with the bytes that may be left out to align it.
def Request.padded : Request → Nat
  | .plain bytes => bytes
  | .aligned bytes => bytes + 7

theorem Thrifty.weaken {more : Nat} (h : Thrifty a spent) (hle : spent ≤ more) : Thrifty a more :=
  ⟨h.remaining, h.waste.imp (fun h => ⟨h.1, by omega⟩) (by omega)⟩

theorem Thrifty.serve (h : Thrifty a spent) (q : Request) (hq : q.Fits)
    (hserve : a.serve heap q = .ok (a', p)) : Thrifty a' (spent + q.padded) := by
  cases q with
  | plain bytes =>
      obtain ⟨o, ho, hgrant⟩ := allocate_grant heap a hq.positive
      obtain rfl := Except.ok.inj (ho.symm.trans hserve)
      exact (h.grant hq.positive hgrant).weaken (by simp [Request.padded, Request.bytes])
  | aligned bytes =>
      obtain ⟨o, ho, hgrant, -⟩ := allocateAligned_grant heap a hq.bounded
      obtain rfl := Except.ok.inj (ho.symm.trans hserve)
      have hslop := (slop_aligns a).1
      exact (h.grant hq.positive hgrant).weaken (by simp only [Request.padded, Request.bytes]; omega)

end Mylldb.Arena

import Mylldb.Arena
import Mylldb.Lib.Run

namespace Mylldb.Arena

open Lib.Regions Lib.Run

variable {heap : Allocator} {a a' : Arena} {slop bytes p : Nat} {ranges : List Region}

-- The part of the current block that is still free.
def rest (a : Arena) : Region := ⟨a.allocPtr, a.allocBytesRemaining⟩

-- The block that `AllocateNewBlock` gets.
def newBlock (heap : Allocator) (a : Arena) (n : Nat) : Region := ⟨heap.address a.blocks n, n⟩

-- What a request comes to: a piece of the current block, behind `slop` bytes that
-- are left out, or a block of its own, or the start of a new current block.
inductive Grant (heap : Allocator) (a : Arena) (slop bytes : Nat) : Arena × Nat → Prop
  | piece : slop + bytes ≤ a.allocBytesRemaining →
      Grant heap a slop bytes ({ a with
        allocPtr := a.allocPtr + (slop + bytes)
        allocBytesRemaining := a.allocBytesRemaining - (slop + bytes) }, a.allocPtr + slop)
  | own : a.allocBytesRemaining < slop + bytes → kBlockSize / 4 < bytes →
      Grant heap a slop bytes ({ a with
        blocks := a.blocks ++ [newBlock heap a bytes]
        memoryUsage := (a.memoryUsage + bytes + 8) % 2 ^ 64 }, (newBlock heap a bytes).start)
  | start : a.allocBytesRemaining < slop + bytes → bytes ≤ kBlockSize / 4 →
      Grant heap a slop bytes (⟨(newBlock heap a kBlockSize).start + bytes, kBlockSize - bytes,
        a.blocks ++ [newBlock heap a kBlockSize],
        (a.memoryUsage + kBlockSize + 8) % 2 ^ 64⟩, (newBlock heap a kBlockSize).start)

theorem fallback_grant (heap : Allocator) (a : Arena)
    (hfull : a.allocBytesRemaining < slop + bytes) :
    Grant heap a slop bytes (a.allocateFallback heap bytes) ∧
      8 ∣ (a.allocateFallback heap bytes).2 := by
  unfold allocateFallback
  split
  · rename_i hlarge
    exact ⟨.own hfull hlarge, heap.aligned _ _⟩
  · rename_i hsmall
    exact ⟨.start hfull (Nat.le_of_not_lt hsmall), heap.aligned _ _⟩

theorem allocate_grant (heap : Allocator) (a : Arena) (hbytes : 0 < bytes) :
    ∃ o, a.allocate heap bytes = .ok o ∧ Grant heap a 0 bytes o := by
  rw [allocate, assertThat_pos hbytes, ok_bind]
  by_cases hfits : bytes ≤ a.allocBytesRemaining
  · rw [if_pos hfits]
    have hgrant : Grant heap a 0 bytes _ := .piece (by rwa [Nat.zero_add])
    rw [Nat.zero_add] at hgrant
    exact ⟨_, rfl, hgrant⟩
  · rw [if_neg hfits]
    exact ⟨_, rfl, (fallback_grant heap a (by omega)).1⟩

theorem and_align_eq (x : Nat) : x &&& (align - 1) = x % 8 := Nat.and_two_pow_sub_one_eq_mod x 3

theorem slop_aligns (a : Arena) : a.slop ≤ 7 ∧ 8 ∣ a.allocPtr + a.slop := by
  unfold slop
  dsimp only
  rw [and_align_eq, align]
  split <;> omega

theorem allocateAligned_grant (heap : Allocator) (a : Arena) (hbytes : bytes + 7 < 2 ^ 64) :
    ∃ o, a.allocateAligned heap bytes = .ok o ∧ Grant heap a a.slop bytes o ∧ 8 ∣ o.2 := by
  obtain ⟨hslop, haligned⟩ := slop_aligns a
  have hchecked {x : Nat} (hx : 8 ∣ x) : assertThat (x &&& (align - 1) = 0) = .ok () :=
    assertThat_pos (by rw [and_align_eq]; omega)
  have hneeded : (bytes + a.slop) % 2 ^ 64 = a.slop + bytes := by omega
  rw [allocateAligned, hchecked (Nat.dvd_refl align), ok_bind]
  dsimp only
  rw [hneeded]
  by_cases hfits : a.slop + bytes ≤ a.allocBytesRemaining
  · rw [if_pos hfits]
    dsimp only
    rw [hchecked haligned]
    exact ⟨_, rfl, .piece hfits, haligned⟩
  · rw [if_neg hfits]
    obtain ⟨hgrant, hblock⟩ := fallback_grant heap a (Nat.lt_of_not_le hfits)
    rw [hchecked hblock]
    exact ⟨_, rfl, hgrant, hblock⟩

theorem serve_grant (heap : Allocator) (a : Arena) (q : Request) (hq : q.Fits) :
    ∃ slop o, a.serve heap q = .ok o ∧ Grant heap a slop q.bytes o ∧
      ∀ n, q = .aligned n → 8 ∣ o.2 := by
  cases q with
  | plain bytes =>
      obtain ⟨o, ho, hgrant⟩ := allocate_grant heap a hq.positive
      exact ⟨0, o, ho, hgrant, fun n hn => by cases hn⟩
  | aligned bytes =>
      obtain ⟨o, ho, hgrant, haligned⟩ := allocateAligned_grant heap a hq.bounded
      exact ⟨a.slop, o, ho, hgrant, fun _ _ => haligned⟩

-- The sizes of the blocks, with a pointer for each of them.
def footprint (blocks : List Region) : Nat := (blocks.map fun b => b.size + 8).sum

theorem footprint_concat (blocks : List Region) (b : Region) :
    footprint (blocks ++ [b]) = footprint blocks + (b.size + 8) := by
  simp [footprint]

theorem usage_concat {usage : Nat} {blocks : List Region}
    (h : usage = footprint blocks % 2 ^ 64) (b : Region) :
    (usage + b.size + 8) % 2 ^ 64 = footprint (blocks ++ [b]) % 2 ^ 64 := by
  rw [footprint_concat, h, Nat.add_assoc, Nat.mod_add_mod]

-- `alloc_ptr_` and `alloc_bytes_remaining_` describe the end of a block, once there is a
-- current one.
def HasCurrent (a : Arena) : Prop :=
  a.rest = ⟨0, 0⟩ ∨ ∃ b ∈ a.blocks, b.size = kBlockSize ∧ b.start ≤ a.allocPtr ∧
    a.allocPtr + a.allocBytesRemaining = b.stop

-- What every request keeps: the ranges are cut from the blocks, and the use of
-- memory is counted.
structure Tidy (a : Arena) (ranges : List Region) : Prop where
  carved : Carved a.blocks ranges a.rest
  current : a.HasCurrent
  large : ∀ b ∈ a.blocks, kBlockSize / 4 < b.size
  usage : a.memoryUsage = footprint a.blocks % 2 ^ 64

theorem tidy_empty : Tidy empty [] := ⟨.nil, .inl rfl, by simp [empty], rfl⟩

theorem HasCurrent.concat (h : a.HasCurrent) (b : Region) (usage : Nat) :
    HasCurrent ⟨a.allocPtr, a.allocBytesRemaining, a.blocks ++ [b], usage⟩ := by
  rcases h with hnone | ⟨b', hb', hcurrent⟩
  · exact .inl hnone
  · exact .inr ⟨b', List.mem_append_left _ hb', hcurrent⟩

theorem Tidy.grant (h : Tidy a ranges) (hbytes : 0 < bytes)
    (hgrant : Grant heap a slop bytes (a', p)) : Tidy a' (ranges ++ [⟨p, bytes⟩]) := by
  have hlarge {b : Region} (hb : kBlockSize / 4 < b.size) :
      ∀ b' ∈ a.blocks ++ [b], kBlockSize / 4 < b'.size := by
    intro b' hb'
    rcases List.mem_append.mp hb' with hb' | hb'
    · exact h.large b' hb'
    · rwa [List.mem_singleton.mp hb']
  cases hgrant with
  | piece hfits =>
      refine ⟨h.carved.cut_front slop bytes hbytes hfits, ?_, h.large, h.usage⟩
      rcases h.current with hnone | ⟨b, hb, hsize, hstart, hstop⟩
      · have hremaining : a.allocBytesRemaining = 0 := congrArg Region.size hnone
        omega
      · exact .inr ⟨b, hb, hsize, by dsimp only; omega, by dsimp only; omega⟩
  | own _ hown =>
      exact ⟨h.carved.whole (heap.fresh _ _), h.current.concat _ _, hlarge hown,
        usage_concat h.usage (newBlock heap a bytes)⟩
  | start _ hsmall =>
      have hquarter : kBlockSize / 4 < kBlockSize := by decide
      refine ⟨?_, ?_, hlarge hquarter, usage_concat h.usage (newBlock heap a kBlockSize)⟩
      · have hcut := (h.carved.renew (heap.fresh a.blocks kBlockSize)).cut_front 0 bytes hbytes
          (by omega)
        rwa [Nat.zero_add, Nat.add_zero] at hcut
      · refine .inr ⟨newBlock heap a kBlockSize, by simp, rfl, Nat.le_add_right _ _, ?_⟩
        simp only [Region.stop, newBlock]
        omega

-- No address of the program is in the upper half of the address space.
def InUserSpace (blocks : List Region) : Prop := ∀ b ∈ blocks, b.stop ≤ 2 ^ 63

theorem Tidy.usage_eq (h : Tidy a ranges) (hspace : InUserSpace a.blocks) :
    a.memoryUsage = footprint a.blocks := by
  have hsum := sum_size_le h.carved.blocks_apart (2 ^ 63) hspace
  have hcount := length_mul_le (kBlockSize / 4) fun b hb => Nat.le_of_lt (h.large b hb)
  have hsplit : footprint a.blocks = (a.blocks.map Region.size).sum + a.blocks.length * 8 := by
    simp [footprint, List.sum_map_add]
  rw [h.usage, Nat.mod_eq_of_lt]
  unfold kBlockSize at hcount
  omega

theorem Grant.blocks_kept (hgrant : Grant heap a slop bytes (a', p)) : a.blocks <+: a'.blocks := by
  cases hgrant with
  | piece _ => exact List.prefix_refl _
  | own _ _ => exact List.prefix_append _ _
  | start _ _ => exact List.prefix_append _ _

-- What a run has returned, request by request.
structure Served (requests : List Request) (a : Arena) (ranges : List Region) : Prop
    extends Tidy a ranges where
  sizes : ranges.map Region.size = requests.map Request.bytes
  aligned : ∀ (i n : Nat) (r : Region), requests[i]? = some (.aligned n) → ranges[i]? = some r →
    8 ∣ r.start

theorem Served.concat {requests : List Request} (h : Served requests a ranges) (q : Request)
    (hq : q.Fits) (hgrant : Grant heap a slop q.bytes (a', p)) (haligned : ∀ n, q = .aligned n → 8 ∣ p) :
    Served (requests ++ [q]) a' (ranges ++ [⟨p, q.bytes⟩]) := by
  have hlength : ranges.length = requests.length := by
    simpa using congrArg List.length h.sizes
  refine ⟨h.toTidy.grant hq.positive hgrant, by simp [h.sizes], fun i n r hi hr => ?_⟩
  rcases Nat.lt_trichotomy i requests.length with hlt | rfl | hgt
  · rw [List.getElem?_append_left hlt] at hi
    rw [List.getElem?_append_left (by omega)] at hr
    exact h.aligned i n r hi hr
  · rw [List.getElem?_concat_length] at hi
    rw [← hlength, List.getElem?_concat_length] at hr
    obtain rfl := Option.some.inj hr
    exact haligned n (Option.some.inj hi)
  · rw [List.getElem?_eq_none (by rw [List.length_append]; exact hgt)] at hi
    cases hi

theorem run_served (heap : Allocator) (requests : List Request) (hfits : ∀ q ∈ requests, q.Fits) :
    ∃ a ranges, run heap requests = .ok (a, ranges) ∧ Served requests a ranges ∧
      (InUserSpace a.blocks → a.memoryUsage = footprint a.blocks) ∧
      ∀ q : Request, q.Fits → ∃ a' p, a.serve heap q = .ok (a', p) ∧
        (InUserSpace a'.blocks → a.memoryUsage ≤ a'.memoryUsage) := by
  have hserves : ∃ o, run heap requests = .ok o ∧ Served requests o.1 o.2 := by
    refine foldlM_history _ (fun requests o => Served requests o.1 o.2) requests ?_ [] (empty, [])
      ⟨tidy_empty, rfl, by simp⟩
    intro requests o hserved q hq
    obtain ⟨slop, ⟨a', p⟩, hserve, hgrant, haligned⟩ := serve_grant heap o.1 q (hfits q hq)
    refine ⟨(a', o.2 ++ [⟨p, q.bytes⟩]), ?_, hserved.concat q (hfits q hq) hgrant haligned⟩
    dsimp only
    rw [hserve, ok_bind]
    rfl
  obtain ⟨⟨a, ranges⟩, hrun, hserved⟩ := hserves
  refine ⟨a, ranges, hrun, hserved, hserved.toTidy.usage_eq, fun q hq => ?_⟩
  obtain ⟨slop, ⟨a', p⟩, hserve, hgrant, -⟩ := serve_grant heap a q hq
  refine ⟨a', p, hserve, fun hspace => ?_⟩
  have htidy := hserved.toTidy.grant hq.positive hgrant
  obtain ⟨later, hlater⟩ := hgrant.blocks_kept
  have hspace' : InUserSpace a.blocks := fun b hb =>
    hspace b (hlater ▸ List.mem_append_left later hb)
  rw [hserved.toTidy.usage_eq hspace', htidy.usage_eq hspace, ← hlater]
  simp [footprint]

-- A request that fits, one that skips two bytes, one with a block of its own and one
-- that leaves the rest of the current block.
def sampleRequests : List Request := [.plain 6, .aligned 900, .plain 5000, .aligned 1000, .plain 1000,
  .plain 1000, .aligned 1000]

def sampleArena : Arena :=
  ⟨10120, 3096, [⟨8, 4096⟩, ⟨4112, 5000⟩, ⟨9120, 4096⟩], 13216⟩

theorem run_served_sample : ∃ ranges, run .stacked sampleRequests = .ok (sampleArena, ranges) ∧
    ranges.Pairwise Region.Apart ∧ sampleArena.memoryUsage = footprint sampleArena.blocks := by
  obtain ⟨a, ranges, hrun, hserved, husage, -⟩ := run_served .stacked sampleRequests (by
    intro q hq
    simp only [sampleRequests, List.mem_cons, List.not_mem_nil, or_false] at hq
    rcases hq with rfl | rfl | rfl | rfl | rfl | rfl | rfl <;> exact ⟨by decide, by decide⟩)
  have hsample : run .stacked sampleRequests = .ok (sampleArena, [⟨8, 6⟩, ⟨16, 900⟩, ⟨4112, 5000⟩,
      ⟨920, 1000⟩, ⟨1920, 1000⟩, ⟨2920, 1000⟩, ⟨9120, 1000⟩]) := by
    decide +kernel
  obtain ⟨rfl, -⟩ := Prod.mk.inj (Except.ok.inj (hrun.symm.trans hsample))
  refine ⟨ranges, hrun, hserved.carved.apart, husage fun b hb => ?_⟩
  simp only [sampleArena, List.mem_cons, List.not_mem_nil, or_false] at hb
  rcases hb with rfl | rfl | rfl <;> decide

end Mylldb.Arena

import Mylldb.Arena.Waste
import Mylldb.MemTable.Placement

namespace Mylldb.MemTable.Placed

open Arena Lib.Regions Lib.Run

variable {heap : Allocator} {user : Comparator} {m m' : Placed} {a a' : Arena} {n x spent : Nat}

def approximateMemoryUsage (m : Placed) : Nat := m.arena.memoryUsage

-- What an entry and its node take.
def callSize (c : AddCall) : Nat := encodedLen c.key c.value + SkipList.nodeSize c.height

-- The ranges that were handed out add up to `spent`.
def Spends (a : Arena) (spent : Nat) : Prop :=
  (∃ ranges, Tidy a ranges ∧ (ranges.map Region.size).sum = spent) ∧ Thrifty a spent

theorem Spends.grant (h : Spends a spent) (hn : 0 < n) (hgrant : Grant heap a 0 n (a', x)) :
    Spends a' (spent + n) := by
  obtain ⟨⟨ranges, htidy, hsum⟩, hthrifty⟩ := h
  refine ⟨⟨_, htidy.grant hn hgrant, by simp [hsum]⟩, ?_⟩
  have hnext := hthrifty.grant hn hgrant
  rwa [Nat.zero_add] at hnext

theorem Spends.add (h : Spends m.arena spent) (c : AddCall) (hheight : c.height ≤ SkipList.kMaxHeight)
    (hadd : m.add heap user c = .ok m') : Spends m'.arena (spent + callSize c) := by
  obtain ⟨arena, buf, x, hentry, hnode, -⟩ := add_grants c hheight hadd
  have hpos : 0 < encodedLen c.key c.value := by
    unfold encodedLen
    omega
  have hnext := (h.grant hpos hentry).grant (nodeSize_spec c.height hheight).1 hnode
  rwa [Nat.add_assoc] at hnext

theorem Spends.run (h : Spends m.arena spent) (calls : List AddCall)
    (hheights : ∀ c ∈ calls, c.height ≤ SkipList.kMaxHeight)
    (hrun : calls.foldlM (Placed.add heap user) m = .ok m') :
    Spends m'.arena (spent + (calls.map callSize).sum) := by
  induction calls generalizing m spent with
  | nil =>
      obtain rfl := Except.ok.inj hrun
      exact h
  | cons c calls ih =>
      rw [List.foldlM_cons] at hrun
      obtain ⟨m₁, hadd, hrest⟩ := bind_eq_ok.mp hrun
      have hlater := ih (h.add c (hheights c (by simp)) hadd)
        (fun c hc => hheights c (List.mem_cons_of_mem _ hc)) hrest
      rwa [Nat.add_assoc, ← List.sum_cons, ← List.map_cons] at hlater

-- What the entries and the nodes of a table take, with its first node.
def needed (calls : List AddCall) : Nat :=
  SkipList.nodeSize SkipList.kMaxHeight + (calls.map callSize).sum

theorem run_spends (heap : Allocator) (user : Comparator) (calls : List AddCall)
    (hheights : ∀ c ∈ calls, c.height ≤ SkipList.kMaxHeight)
    (hrun : Placed.run heap user calls = .ok m) : Spends m.arena (needed calls) := by
  obtain ⟨arena, x, hnew, hgrant⟩ :=
    @newNode_eq heap ⟨empty, Arena.empty, []⟩ SkipList.kMaxHeight (Nat.le_refl _)
  have hhead : Spends arena (0 + SkipList.nodeSize SkipList.kMaxHeight) :=
    Spends.grant ⟨⟨[], tidy_empty, rfl⟩, thrifty_empty⟩ (nodeSize_spec _ (Nat.le_refl _)).1 hgrant
  rw [Nat.zero_add] at hhead
  rw [Placed.run, new, hnew, ok_bind] at hrun
  exact Spends.run hhead calls hheights hrun

-- The use of memory is at least what is needed and not much more than a third above it,
-- with one block besides.
theorem run_usage (heap : Allocator) (user : Comparator) (calls : List AddCall)
    (hheights : ∀ c ∈ calls, c.height ≤ SkipList.kMaxHeight) (m : Placed)
    (hrun : Placed.run heap user calls = .ok m) (hspace : InUserSpace m.arena.blocks) :
    needed calls ≤ m.approximateMemoryUsage ∧
      128 * (3 * m.approximateMemoryUsage) ≤ 129 * (4 * needed calls + 3 * kBlockSize) := by
  obtain ⟨⟨ranges, htidy, hsum⟩, hthrifty⟩ := run_spends heap user calls hheights hrun
  have hranges := htidy.ranges_le_total
  have htotal := hthrifty.total_le
  have hcount := length_mul_le (kBlockSize / 4) fun b hb => Nat.le_of_lt (htidy.large b hb)
  have husage : m.approximateMemoryUsage = m.arena.total + m.arena.blocks.length * 8 := by
    rw [approximateMemoryUsage, htidy.usage_eq hspace]
    simp [footprint, total, List.sum_map_add]
  unfold kBlockSize at *
  unfold total at *
  omega

-- The last entry gets a block of its own.
def usageCalls : List AddCall := [sampleCall, ⟨1, 2, .kTypeValue, [7], List.replicate 2000 0⟩,
  ⟨3, 3, .kTypeValue, [8], List.replicate 2000 0⟩]

theorem run_usage_sample : ∃ m, Placed.run .stacked bytewiseComparator usageCalls = .ok m ∧
    needed usageCalls ≤ m.approximateMemoryUsage ∧ m.approximateMemoryUsage ≤ 9793 := by
  obtain ⟨m, hrun, -⟩ := run_total .stacked bytewiseComparator Slice.compare_totalOrder.toTotalPreorder
    [⟨2, 1, .kTypeValue, [1, 2, 3, 4, 5, 6], [], by decide, by decide, by decide, by decide, by decide⟩,
      ⟨1, 2, .kTypeValue, [7], List.replicate 2000 0, by decide, by decide, by decide, by decide,
        by decide +kernel⟩,
      ⟨3, 3, .kTypeValue, [8], List.replicate 2000 0, by decide, by decide, by decide, by decide,
        by decide +kernel⟩]
  have hblocks : (Placed.run .stacked bytewiseComparator usageCalls).map (fun m => m.arena.blocks) =
      .ok [⟨8, 4096⟩, ⟨4112, 2012⟩] := by
    decide +kernel
  have hrun' : Placed.run .stacked bytewiseComparator usageCalls = .ok m := hrun
  rw [hrun'] at hblocks
  have harena : m.arena.blocks = [⟨8, 4096⟩, ⟨4112, 2012⟩] := Except.ok.inj hblocks
  obtain ⟨hleast, hmost⟩ := run_usage .stacked bytewiseComparator usageCalls (by decide) m hrun' (by
    rw [harena, InUserSpace]
    decide)
  have hneeded : needed usageCalls = 4216 := by decide +kernel
  refine ⟨m, hrun', hleast, ?_⟩
  unfold kBlockSize at hmost
  omega

end Mylldb.MemTable.Placed

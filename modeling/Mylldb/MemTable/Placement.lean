import Mylldb.Arena.Theorems
import Mylldb.MemTable.Represents

namespace Mylldb

open Lib.Run Lib.ThreeWay

-- A key and one link are two pointers, and there is a pointer for each link more.
def SkipList.nodeSize (height : Nat) : Nat := 16 + 8 * (height - 1)

namespace MemTable

-- The arguments of `Add`, and what `RandomHeight` draws.
structure AddCall where
  height : Nat
  s : Nat
  t : ValueType
  key : Bytes
  value : Bytes
  deriving DecidableEq, Repr

def encodedLen (key value : Bytes) : Nat :=
  varintLength (key.length + 8) + (key.length + 8) + varintLength value.length + value.length

-- A table with the arena behind it, and the addresses at which its nodes were
-- constructed, the head first.
structure Placed where
  table : MemTable
  arena : Arena
  nodes : List Nat

namespace Placed

section

variable (heap : Allocator)

def newNode (m : Placed) (height : Nat) : Exec Placed := do
  let (arena, mem) ← m.arena.allocate heap (SkipList.nodeSize height)
  pure { m with arena, nodes := m.nodes ++ [mem] }

def new : Exec Placed := newNode heap ⟨empty, Arena.empty, []⟩ SkipList.kMaxHeight

-- The entry comes before its node.
def add (user : Comparator) (m : Placed) (c : AddCall) : Exec Placed := do
  let (arena, _) ← m.arena.allocate heap (encodedLen c.key c.value)
  let table ← m.table.add user c.height c.s c.t c.key c.value
  newNode heap { m with table, arena } c.height

def run (user : Comparator) (calls : List AddCall) : Exec Placed := do
  let m ← new heap
  calls.foldlM (add heap user) m

end

def NodesAligned (m : Placed) : Prop := ∀ x ∈ m.nodes, 8 ∣ x

-- The entry does not shift the node behind it: its length is a multiple of eight, or
-- it gets a block of its own, or the node does not fit behind it and starts a block.
def LeavesAligned (a : Arena) (c : AddCall) : Prop :=
  8 ∣ encodedLen c.key c.value ∨
    (a.allocBytesRemaining < encodedLen c.key c.value ∧
      Arena.kBlockSize / 4 < encodedLen c.key c.value) ∨
    (encodedLen c.key c.value ≤ a.allocBytesRemaining ∧
      a.allocBytesRemaining < encodedLen c.key c.value + SkipList.nodeSize c.height)

-- The condition on every call of a run, in the state before it.
def Leaves (heap : Allocator) (user : Comparator) : Placed → List AddCall → Prop
  | _, [] => True
  | m, c :: calls => LeavesAligned m.arena c ∧
      ∀ m', m.add heap user c = .ok m' → Leaves heap user m' calls

variable {heap : Allocator} {user : Comparator} {m m' : Placed}

theorem nodeSize_spec (height : Nat) (hheight : height ≤ SkipList.kMaxHeight) :
    0 < SkipList.nodeSize height ∧ SkipList.nodeSize height ≤ 104 ∧
      8 ∣ SkipList.nodeSize height := by
  unfold SkipList.kMaxHeight at hheight
  unfold SkipList.nodeSize
  omega

-- The entry fills the memory that is taken for it.
theorem encodeEntry_length {s : Nat} {t : ValueType} {key value buf : Bytes}
    (h : encodeEntry s t key value = .ok buf) : buf.length = encodedLen key value := by
  unfold encodeEntry at h
  dsimp only at h
  split at h
  · obtain ⟨_, hassert, hbuf⟩ := bind_eq_ok.mp h
    obtain rfl := Except.ok.inj hbuf
    unfold assertThat at hassert
    split at hassert
    · assumption
    · cases hassert
  · cases h

theorem newNode_eq (m : Placed) (height : Nat) (hheight : height ≤ SkipList.kMaxHeight) :
    ∃ arena x, m.newNode heap height = .ok { m with arena, nodes := m.nodes ++ [x] } ∧
      m.arena.Grant heap 0 (SkipList.nodeSize height) (arena, x) := by
  obtain ⟨⟨arena, x⟩, hallocate, hgrant⟩ :=
    m.arena.allocate_grant heap (nodeSize_spec height hheight).1
  exact ⟨arena, x, by rw [newNode, hallocate]; rfl, hgrant⟩

-- A node goes to where the current block goes on, or to the start of a new one.
theorem node_placed {a a' : Arena} {height x : Nat} (hheight : height ≤ SkipList.kMaxHeight)
    (hgrant : a.Grant heap 0 (SkipList.nodeSize height) (a', x)) :
    (8 ∣ x ↔ 8 ∣ a.allocPtr ∨ a.allocBytesRemaining < SkipList.nodeSize height) ∧
      (8 ∣ x → 8 ∣ a'.allocPtr) := by
  obtain ⟨-, hle, hdvd⟩ := nodeSize_spec height hheight
  cases hgrant with
  | piece hfits =>
      dsimp only
      omega
  | own _ hown =>
      unfold Arena.kBlockSize at hown
      omega
  | start hfull _ =>
      have hblock := heap.aligned a.blocks Arena.kBlockSize
      dsimp only [Arena.newBlock]
      omega

theorem new_eq (heap : Allocator) : ∃ m, new heap = .ok m ∧ m.NodesAligned ∧ 8 ∣ m.arena.allocPtr ∧
    m.table = empty := by
  obtain ⟨arena, x, hnew, hgrant⟩ :=
    @newNode_eq heap ⟨empty, Arena.empty, []⟩ SkipList.kMaxHeight (Nat.le_refl _)
  obtain ⟨haligned, hnext⟩ := node_placed (Nat.le_refl _) hgrant
  have hx : 8 ∣ x := haligned.mpr (.inl (Nat.dvd_zero 8))
  refine ⟨_, hnew, ?_, hnext hx, rfl⟩
  intro y hy
  rwa [List.mem_singleton.mp hy]

-- A call takes memory for the entry and then for the node.
theorem add_grants (c : AddCall) (hheight : c.height ≤ SkipList.kMaxHeight)
    (hadd : m.add heap user c = .ok m') : ∃ arena buf x,
      m.arena.Grant heap 0 (encodedLen c.key c.value) (arena, buf) ∧
        arena.Grant heap 0 (SkipList.nodeSize c.height) (m'.arena, x) ∧
          m'.nodes = m.nodes ++ [x] := by
  have hpos : 0 < encodedLen c.key c.value := by
    unfold encodedLen
    omega
  obtain ⟨⟨arena, buf⟩, hallocate, hentry⟩ := m.arena.allocate_grant heap hpos
  rw [add, hallocate, ok_bind] at hadd
  obtain ⟨table, -, hnode⟩ := bind_eq_ok.mp hadd
  obtain ⟨arena', x, hnew, hgrant⟩ := @newNode_eq heap { m with table, arena } c.height hheight
  obtain rfl := Except.ok.inj (hnode.symm.trans hnew)
  exact ⟨arena, buf, x, hentry, hgrant, rfl⟩

-- Whether the node of a call is aligned, when the arena was so far.
theorem add_placed (c : AddCall) (hheight : c.height ≤ SkipList.kMaxHeight)
    (hptr : 8 ∣ m.arena.allocPtr) (hadd : m.add heap user c = .ok m') :
    ∃ x, m'.nodes = m.nodes ++ [x] ∧ (8 ∣ x ↔ LeavesAligned m.arena c) ∧
      (8 ∣ x → 8 ∣ m'.arena.allocPtr) := by
  obtain ⟨-, hle, -⟩ := nodeSize_spec c.height hheight
  obtain ⟨arena, buf, x, hentry, hnode, hnodes⟩ := add_grants c hheight hadd
  obtain ⟨haligned, hnext⟩ := node_placed hheight hnode
  refine ⟨x, hnodes, haligned.trans ?_, hnext⟩
  unfold LeavesAligned
  cases hentry with
  | piece hfits =>
      dsimp only
      omega
  | own hfull hown =>
      dsimp only
      omega
  | start hfull hsmall =>
      have hblock := heap.aligned m.arena.blocks Arena.kBlockSize
      unfold Arena.kBlockSize at *
      dsimp only [Arena.newBlock]
      omega

-- The nodes of a run stay where they are.
theorem nodes_kept (calls : List AddCall)
    (hheights : ∀ c ∈ calls, c.height ≤ SkipList.kMaxHeight)
    (hrun : calls.foldlM (add heap user) m = .ok m') : m.nodes <+: m'.nodes := by
  induction calls generalizing m with
  | nil =>
      obtain rfl := Except.ok.inj hrun
      exact List.prefix_refl _
  | cons c calls ih =>
      rw [List.foldlM_cons] at hrun
      obtain ⟨m₁, hadd, hrest⟩ := bind_eq_ok.mp hrun
      obtain ⟨-, -, x, -, -, hnodes⟩ := add_grants c (hheights c (by simp)) hadd
      have hlater := ih (fun c hc => hheights c (List.mem_cons_of_mem _ hc)) hrest
      rw [hnodes] at hlater
      exact (List.prefix_append _ _).trans hlater

-- By induction on the calls: the arena goes on at an aligned address as long as all
-- the nodes are aligned, and a node that is not stays in the list.
theorem leaves_iff (calls : List AddCall)
    (hheights : ∀ c ∈ calls, c.height ≤ SkipList.kMaxHeight) (haligned : m.NodesAligned)
    (hptr : 8 ∣ m.arena.allocPtr) (hrun : calls.foldlM (add heap user) m = .ok m') :
    m'.NodesAligned ↔ Leaves heap user m calls := by
  induction calls generalizing m with
  | nil =>
      obtain rfl := Except.ok.inj hrun
      exact ⟨fun _ => trivial, fun _ => haligned⟩
  | cons c calls ih =>
      rw [List.foldlM_cons] at hrun
      obtain ⟨m₁, hadd, hrest⟩ := bind_eq_ok.mp hrun
      have hlater : ∀ c ∈ calls, c.height ≤ SkipList.kMaxHeight := fun c hc =>
        hheights c (List.mem_cons_of_mem _ hc)
      obtain ⟨x, hnodes, hx, hnext⟩ := add_placed c (hheights c (by simp)) hptr hadd
      have haligned₁ (h : 8 ∣ x) : m₁.NodesAligned := by
        intro y hy
        rw [hnodes] at hy
        rcases List.mem_append.mp hy with hy | hy
        · exact haligned y hy
        · rwa [List.mem_singleton.mp hy]
      constructor
      · intro hall
        have hmem : x ∈ m'.nodes :=
          (nodes_kept calls hlater hrest).subset (by rw [hnodes]; simp)
        have hdvd := hall x hmem
        refine ⟨hx.mp hdvd, fun m₂ hadd₂ => ?_⟩
        obtain rfl := Except.ok.inj (hadd.symm.trans hadd₂)
        exact (ih hlater (haligned₁ hdvd) (hnext hdvd) hrest).mp hall
      · rintro ⟨hleaves, hrest'⟩
        have hdvd := hx.mpr hleaves
        exact (ih hlater (haligned₁ hdvd) (hnext hdvd) hrest).mpr (hrest' m₁ hadd)

-- A run with a table goes through when the run of the table alone does.
theorem run_total (heap : Allocator) (user : Comparator) (hu : TotalPreorder user.compare)
    (adds : List Added) : ∃ m, run heap user (adds.map fun e =>
      ⟨e.height, e.sequence, e.type, e.key, e.value⟩) = .ok m ∧ addAll user adds = .ok m.table := by
  obtain ⟨m₀, hnew, -, -, hempty⟩ := new_eq heap
  obtain ⟨table, -, htable, -⟩ := addAll_holds user hu adds
  have hrun : ∀ m : Placed,
      adds.foldlM (fun m e => m.add user e.height e.sequence e.type e.key e.value) m.table =
        .ok table → ∃ m', (adds.map fun e : Added =>
          (⟨e.height, e.sequence, e.type, e.key, e.value⟩ : AddCall)).foldlM (add heap user) m =
            .ok m' ∧ m'.table = table := by
    clear htable
    induction adds with
    | nil => exact fun m h => ⟨m, rfl, Except.ok.inj h⟩
    | cons e adds ih =>
        intro m h
        rw [List.foldlM_cons] at h
        obtain ⟨table₁, hadd, hrest⟩ := bind_eq_ok.mp h
        have hpos : 0 < encodedLen e.key e.value := by
          unfold encodedLen
          omega
        obtain ⟨⟨arena, buf⟩, hallocate, -⟩ := m.arena.allocate_grant heap hpos
        obtain ⟨arena', x, hnode, -⟩ :=
          @newNode_eq heap { m with table := table₁, arena } e.height e.height_le
        obtain ⟨m', hm', hlast⟩ := ih ⟨table₁, arena', m.nodes ++ [x]⟩ hrest
        refine ⟨m', ?_, hlast⟩
        rw [List.map_cons, List.foldlM_cons, add, hallocate, ok_bind]
        dsimp only
        rw [hadd, ok_bind, hnode, ok_bind]
        exact hm'
  obtain ⟨m, hm, rfl⟩ := hrun m₀ (by rw [hempty]; exact htable)
  exact ⟨m, by rw [run, hnew, ok_bind]; exact hm, htable⟩

theorem nodesAligned_iff (heap : Allocator) (user : Comparator) (calls : List AddCall)
    (hheights : ∀ c ∈ calls, c.height ≤ SkipList.kMaxHeight) (m : Placed)
    (hrun : run heap user calls = .ok m) :
    m.NodesAligned ↔ ∃ m₀, new heap = .ok m₀ ∧ Leaves heap user m₀ calls := by
  obtain ⟨m₀, hnew, haligned, hptr, -⟩ := new_eq heap
  rw [run, hnew, ok_bind] at hrun
  rw [leaves_iff calls hheights haligned hptr hrun]
  constructor
  · exact fun h => ⟨m₀, hnew, h⟩
  · rintro ⟨m₁, hnew₁, h⟩
    obtain rfl := Except.ok.inj (hnew.symm.trans hnew₁)
    exact h

-- An entry of sixteen bytes.
def sampleCall : AddCall := ⟨2, 1, .kTypeValue, [1, 2, 3, 4, 5, 6], []⟩

theorem nodesAligned_iff_sample : ∃ m, run .stacked bytewiseComparator [sampleCall] = .ok m ∧
    m.NodesAligned := by
  obtain ⟨m, hrun, -⟩ := run_total .stacked bytewiseComparator Slice.compare_totalOrder.toTotalPreorder
    [⟨2, 1, .kTypeValue, [1, 2, 3, 4, 5, 6], [], by decide, by decide, by decide, by decide,
      by decide⟩]
  obtain ⟨m₀, hnew, -⟩ := new_eq .stacked
  refine ⟨m, hrun, (nodesAligned_iff .stacked bytewiseComparator [sampleCall] ?_ m hrun).mpr
    ⟨m₀, hnew, .inl (by decide), fun _ _ => trivial⟩⟩
  intro c hc
  rw [List.mem_singleton.mp hc]
  decide

-- An entry of ten bytes: its node is constructed at address 122.
def shiftingCall : AddCall := ⟨1, 1, .kTypeValue, [], []⟩

theorem nodes_shifted : ∃ m, run .stacked bytewiseComparator [shiftingCall] = .ok m ∧
    ¬m.NodesAligned := by
  refine ⟨_, rfl, fun h => ?_⟩
  have hlast := h 122 (by decide)
  omega

end Placed

end MemTable

end Mylldb

import Mathlib.Data.List.Induction
import Mylldb.BlockBuilder.Restarts
import Mylldb.Lib.Batches
import Mylldb.TableBuilder.Filter
import Mylldb.TableBuilder.Index

namespace Mylldb

open Lib.Batches Lib.Run

-- An entry takes the bytes of its value and three lengths at least, and its bytes, three long
-- lengths and a restart point at most.
theorem BlockBuilder.add_size {b b' : BlockBuilder} {interval : Int} {key value : Bytes}
    (hadd : b.add interval key value = .ok b') :
    b.currentSizeEstimate + value.length + 3 ≤ b'.currentSizeEstimate ∧
      b'.currentSizeEstimate ≤ b.currentSizeEstimate + key.length + value.length + 19 := by
  obtain ⟨shared, restarts, counter, hspec, -, hturn⟩ := add_spec b interval key value
  obtain rfl := Except.ok.inj (hspec.symm.trans hadd)
  have hlength (n : Nat) : 1 ≤ (encodeVarint32 (n % 2 ^ 32)).length ∧
      (encodeVarint32 (n % 2 ^ 32)).length ≤ 5 :=
    ⟨encodeVarint32_length_pos _, (encodeVarint32_spec _ (Nat.mod_lt n (by decide))).2.2.2⟩
  have hrestarts : b.restarts.length ≤ restarts.length ∧
      restarts.length ≤ b.restarts.length + 1 := by
    cases hturn with
    | compress _ => exact ⟨Nat.le_refl _, Nat.le_succ _⟩
    | restart _ => simp
  have hshared := hlength shared
  have hnonShared := hlength (key.length - shared)
  have hvalue := hlength value.length
  simp only [currentSizeEstimate, List.length_append, List.length_drop]
  omega

theorem BlockBuilder.eq_initial {b : BlockBuilder} (h : Building [] b) : b = initial := by
  obtain ⟨adds, hadds, hb⟩ := h
  rw [List.map_eq_nil_iff.mp hadds] at hb
  exact (Except.ok.inj hb).symm

namespace TableBuilder

open BlockBuilder

-- An entry with the restart interval in force when it is added.
structure Entry where
  interval : Int
  key : Bytes
  value : Bytes
  deriving DecidableEq, Repr

namespace Entry

def pair (e : Entry) : Bytes × Bytes := (e.key, e.value)

def addTo (b : BlockBuilder) (e : Entry) : Exec BlockBuilder := b.add e.interval e.key e.value

end Entry

-- The block builder that was given the entries. None of the calls fails.
def blockOf (entries : List Entry) : BlockBuilder :=
  (entries.foldlM Entry.addTo initial).toOption.getD initial

theorem foldlM_blockOf (entries : List Entry) :
    entries.foldlM Entry.addTo initial = .ok (blockOf entries) := by
  obtain ⟨b, hb, -⟩ := foldlM_history Entry.addTo (fun _ _ => True) entries
    (fun _ b _ e _ => (add_grows b e.interval e.key e.value).imp fun _ h => ⟨h.1, trivial⟩)
    [] initial trivial
  rw [blockOf, hb]
  rfl

theorem add_blockOf (entries : List Entry) (e : Entry) :
    (blockOf entries).add e.interval e.key e.value = .ok (blockOf (entries ++ [e])) := by
  have hall := foldlM_blockOf (entries ++ [e])
  simp only [List.foldlM_append, foldlM_blockOf, ok_bind, List.foldlM_cons, List.foldlM_nil,
    bind_pure] at hall
  exact hall

-- How the entries of a table are to be shared out over its data blocks. A block ends with
-- the entry that brings it to the size in the options, or where a client asks for it.
structure Plan extends Batched Entry where
  options : Options

namespace Plan

def start (options : Options) : Plan := ⟨.empty, options⟩

def full (options : Options) (entries : List Entry) : Bool :=
  decide (options.blockSize ≤ (blockOf entries).currentSizeEstimate)

def act (p : Plan) : Call → Plan
  | .add key value =>
      { p with toBatched :=
          p.push (full p.options) ⟨p.options.blockRestartInterval, key, value⟩ }
  | .flush => { p with toBatched := p.cut }
  | .changeOptions options => { p with options := acceptOptions p.options (.changeOptions options) }
  | .finish => { p with toBatched := p.cut }
  | .abandon => p

theorem act_options (p : Plan) (c : Call) : (p.act c).options = acceptOptions p.options c := by
  cases c <;> rfl

-- The calls that end a block, whatever its size.
def cuts : Call → Bool
  | .flush => true
  | .finish => true
  | _ => false

-- What a data block with these entries holds, and its bytes.
def content (entries : List Entry) : List (Bytes × Bytes) × Bytes :=
  (entries.map Entry.pair, (blockOf entries).finish.2)

end Plan

def DataBlock.content (b : DataBlock) : List (Bytes × Bytes) × Bytes := (b.entries, b.bytes)

def planned (options : Options) (calls : List Call) : Plan := calls.foldl Plan.act (.start options)

theorem planned_concat (options : Options) (calls : List Call) (c : Call) :
    planned options (calls ++ [c]) = (planned options calls).act c := by
  rw [planned, planned, List.foldl_append]
  rfl

theorem planned_options (options : Options) (calls : List Call) :
    (planned options calls).options = optionsInForce options calls := by
  induction calls using List.reverseRecOn with
  | nil => rfl
  | append_singleton calls c ih =>
      rw [planned_concat, Plan.act_options, ih, optionsInForce, optionsInForce, List.foldl_append]
      rfl

-- Every call keeps the grades of the blocks.
theorem Plan.graded {least most : Nat} {cuts : Nat} {p : Plan} (c : Call)
    (hleast : least ≤ p.options.blockSize) (hmost : p.options.blockSize ≤ most)
    (h : Batched.Graded (fun es => (blockOf es).currentSizeEstimate < most)
      (fun es => least ≤ (blockOf es).currentSizeEstimate) cuts p.toBatched) :
    Batched.Graded (fun es => (blockOf es).currentSizeEstimate < most)
      (fun es => least ≤ (blockOf es).currentSizeEstimate)
      (cuts + if Plan.cuts c then 1 else 0) (p.act c).toBatched := by
  cases c with
  | add key value =>
      refine h.push (fun es hes => ?_) (fun es hes => ?_) _
      · exact hleast.trans (of_decide_eq_true hes)
      · exact (not_le.mp (of_decide_eq_false hes)).trans_le hmost
  | flush => exact h.cut
  | changeOptions options => exact h
  | finish => exact h.cut
  | abandon => exact h

theorem planned_graded {options : Options} {least most : Nat} (calls : List Call)
    (hsizes : ∀ before, before <+: calls →
      least ≤ (optionsInForce options before).blockSize ∧
        (optionsInForce options before).blockSize ≤ most) :
    Batched.Graded (fun es => (blockOf es).currentSizeEstimate < most)
      (fun es => least ≤ (blockOf es).currentSizeEstimate) (calls.countP Plan.cuts)
      (planned options calls).toBatched := by
  induction calls using List.reverseRecOn with
  | nil => exact .empty
  | append_singleton calls c ih =>
      have hsize := hsizes calls (List.prefix_append _ _)
      rw [← planned_options] at hsize
      have hcalls := ih fun before hbefore => hsizes before (hbefore.trans (List.prefix_append _ _))
      rw [planned_concat, List.countP_append, List.countP_singleton]
      exact Plan.graded c hsize.1 hsize.2 hcalls

theorem Draft.blocks_cut {d : Draft} (b : DataBlock) (hpending : d.pending = none) :
    (d.cut b).blocks = d.blocks ++ [b] := by
  simp [blocks, cut, hpending]

-- The builder carries the plan out with the blocks of the draft.
structure Follows (p : Plan) (r : TableBuilder) (d : Draft) : Prop where
  options_eq : r.options = p.options
  current_eq : d.current = p.rest.map Entry.pair
  dataBlock_eq : r.dataBlock = blockOf p.rest
  blocks_eq : d.blocks.map DataBlock.content = p.closed.map Plan.content

section Follows

variable {p : Plan} {r r' : TableBuilder} {d : Draft}

theorem Follows.cut (h : Follows p r d) {b : DataBlock} (hnone : d.pending = none)
    (hb : b.entries = d.current) (hbytes : b.bytes = r.dataBlock.finish.2)
    (hoptions : r'.options = r.options) (hinitial : r'.dataBlock = .initial) :
    Follows { p with toBatched := p.cut } r' (d.cut b) := by
  have hne : p.rest ≠ [] := by
    intro hnil
    apply b.nonempty
    rw [hb, h.current_eq, hnil]
    rfl
  rw [Batched.cut_of_ne hne]
  refine ⟨hoptions.trans h.options_eq, rfl, hinitial, ?_⟩
  rw [Draft.blocks_cut b hnone, List.map_append, List.map_append, h.blocks_eq, List.map_singleton,
    List.map_singleton, DataBlock.content, Plan.content, hb, hbytes, h.current_eq, h.dataBlock_eq]

theorem Follows.idle (h : Follows p r d) (hcurrent : d.current = []) :
    Follows { p with toBatched := p.cut } r d := by
  have hnil : p.rest = [] := List.map_eq_nil_iff.mp (h.current_eq.symm.trans hcurrent)
  rwa [Batched.cut_of_nil hnil]

-- The entry of a call is in no block yet, and the index entry before it changes no block.
theorem Follows.enters (h : Follows p r d) {separator key value : Bytes} {r₁ : TableBuilder}
    {dataBlock : BlockBuilder} (hindex : EntersIndex r separator r₁)
    (hadd : r₁.dataBlock.add r₁.options.blockRestartInterval key value = .ok dataBlock) :
    Follows { p with
        rest := p.rest ++ [⟨p.options.blockRestartInterval, key, value⟩] }
      (r₁.withEntry key dataBlock) ((d.settle separator).push (key, value)) := by
  have hoptions : r₁.options = p.options := hindex.continues.options_eq.trans h.options_eq
  have hblock : r₁.dataBlock = blockOf p.rest := by
    rw [← h.dataBlock_eq]
    cases hindex <;> rfl
  refine ⟨hoptions, ?_, ?_, ?_⟩
  · rw [Draft.push, Draft.current_settle, h.current_eq, List.map_append]
    rfl
  · rw [hblock, hoptions] at hadd
    have hnext := add_blockOf p.rest ⟨p.options.blockRestartInterval, key, value⟩
    exact Except.ok.inj (hadd.symm.trans hnext)
  · rw [← h.blocks_eq, ← Draft.blocks_settle (d := d) separator]
    rfl

end Follows

end TableBuilder

end Mylldb

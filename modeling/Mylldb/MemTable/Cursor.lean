import Mylldb.Lib.Cursor
import Mylldb.MemTable.Iterator
import Mylldb.SkipList.Traversal

namespace Mylldb

open Lib.Run Lib.Cursor Lib.ThreeWay SkipList

-- A target that `Seek` encodes whole, with room for a tag.
structure InternalTarget where
  bytes : Bytes
  tagged : 8 ≤ bytes.length
  fits : bytes.length < 2 ^ 32

namespace MemTableIterator

-- The methods that `Iterator` declares.
def machine (user : Comparator) (m : MemTable) :
    Machine Fault MemTableIterator InternalTarget where
  valid := valid
  toFirst _ := seekToFirst m
  toLast _ := seekToLast m
  seek _ target := seek user m target.bytes
  next it := it.next m
  prev it := it.prev user m

-- What the iterator shows when it stands on an addition.
def Shows (m : MemTable) (listing : List MemTable.Added) (it : MemTableIterator) :
    Position → Prop
  | none => it.valid = false
  | some i => it.valid = true ∧
      ∃ e, listing[i]? = some e ∧ it.key m = .ok e.internalKey ∧ it.value m = .ok e.value

-- Where it stands on the bottom level.
def StandsIn (order : List Nat) (it : MemTableIterator) : Position → Prop
  | none => it.iter.node = none
  | some i => ∃ before x after, before ++ x :: after = order ∧ before.length = i ∧
      it.iter.node = some x

section Stands

variable {order before after : List Nat}

theorem standsIn_head (horder : before ++ after = order) :
    StandsIn order ⟨⟨after.head?⟩⟩ (if after = [] then none else some before.length) := by
  cases after with
  | nil => exact rfl
  | cons x after => exact ⟨before, x, after, horder, rfl, rfl⟩

theorem standsIn_last (horder : before ++ after = order) :
    StandsIn order ⟨⟨before.getLast?⟩⟩ (if before = [] then none else some (before.length - 1)) := by
  cases before using List.reverseRecOn with
  | nil => exact rfl
  | append_singleton before x _ =>
      rw [if_neg (List.concat_ne_nil _ _), List.length_append, List.length_singleton,
        Nat.add_sub_cancel]
      refine ⟨before, x, after, by simpa using horder, rfl, ?_⟩
      rw [List.getLast?_concat]

end Stands

end MemTableIterator

namespace MemTable

open MemTableIterator

-- The additions in the order of the bottom level.
def listing (adds : List Added) (order : List Nat) : List Added :=
  order.filterMap fun x => adds[x - 1]?

theorem listing_append (adds : List Added) (before after : List Nat) :
    listing adds (before ++ after) = listing adds before ++ listing adds after :=
  List.filterMap_append

theorem listing_cons {adds : List Added} {x : Nat} {e : Added} (he : adds[x - 1]? = some e)
    (rest : List Nat) : listing adds (x :: rest) = e :: listing adds rest := by
  unfold listing
  rw [List.filterMap_cons, he]

-- The place where a search in the listing ends.
def firstFrom (user : Comparator) (l : List Added) (target : InternalTarget) : Position :=
  l.findIdx? fun e => decide (0 ≤ internalOrder user e.internalKey target.bytes)

-- No two additions have one internal key.
def Distinct (user : Comparator) (adds : List Added) : Prop :=
  adds.Pairwise fun e f => user.compare e.key f.key = 0 → e.tag ≠ f.tag

namespace Holds

variable {user : Comparator} {adds : List Added} {m : MemTable} {order : List Nat}

theorem listing_eq (adds : List Added) (order : List Nat) :
    listing adds order = (order.filterMap (numbered adds)).map Prod.fst := by
  rw [listing, List.map_filterMap]
  congr 1
  funext x
  rw [numbered, Option.map_map]
  exact Option.map_id'.symm

theorem length_listing (h : Holds user adds m order) (part : List Nat) (hpart : part ⊆ order) :
    (listing adds part).length = part.length := by
  induction part with
  | nil => rfl
  | cons x rest ih =>
      obtain ⟨e, he, -⟩ := h.added x (hpart (List.mem_cons_self ..))
      rw [listing_cons he, List.length_cons, List.length_cons,
        ih (List.subset_of_cons_subset hpart)]

theorem shows_of_standsIn (h : Holds user adds m order) (it : MemTableIterator) (p : Position)
    (hstands : StandsIn order it p) : Shows m (listing adds order) it p := by
  obtain ⟨⟨node⟩⟩ := it
  cases p with
  | none =>
      obtain rfl : node = none := hstands
      exact rfl
  | some i =>
      obtain ⟨before, x, after, horder, rfl, hnode⟩ := hstands
      obtain rfl : node = some x := hnode
      have hx : x ∈ order := by simp [← horder]
      obtain ⟨e, he, hkey⟩ := h.added x hx
      refine ⟨rfl, e, ?_, h.iterator_shows x hx e hkey⟩
      have hbefore := h.length_listing before (by simp [← horder])
      rw [← horder, listing_append, listing_cons he, List.getElem?_append_right hbefore.le, hbefore,
        Nat.sub_self]
      rfl

theorem ascends (h : Holds user adds m order) (hu : TotalPreorder user.compare)
    (hdistinct : Distinct user adds) : Ascends (entryOrder user) m.table order := by
  rw [h.represents.ascends_iff (entryOrder_totalPreorder hu) h.history, inserts,
    List.pairwise_map]
  refine hdistinct.imp fun {e f} hne hzero => ?_
  dsimp only at hzero
  rw [entryOrder, e.entry_prefixed.internalKeyOf_eq, f.entry_prefixed.internalKeyOf_eq,
    internalOrder_zero_iff] at hzero
  simp only [Added.userPart_internalKey, Added.tagOf_internalKey] at hzero
  exact hne hzero.1 hzero.2.symm

-- `Prev` steps back by one when the keys ascend.
theorem prev_eq (h : Holds user adds m order) (hu : TotalPreorder user.compare)
    (hascends : Ascends (entryOrder user) m.table order) (before after : List Nat) (x : Nat)
    (horder : before ++ x :: after = order) :
    MemTableIterator.prev user m ⟨⟨some x⟩⟩ = .ok ⟨⟨before.getLast?⟩⟩ := by
  have hx : x ∈ order := by simp [← horder]
  obtain ⟨e, -, hkey⟩ := h.added x hx
  have hagrees : Agrees (keyComparator user) (entryOrder user) m.table order (m.table.keyOf x) := by
    rw [hkey]
    exact h.agrees e.entry_prefixed
  have hall : before.filter (m.table.lessThan (entryOrder user) (m.table.keyOf x)) = before := by
    rw [← horder] at hascends
    refine List.filter_eq_self.mpr fun y hy => decide_eq_true ?_
    exact (List.pairwise_append.mp hascends).2.2 y hy x (List.mem_cons_self ..)
  have hprev := h.represents.iterator_prev_eq (entryOrder_totalPreorder hu) before after x horder
    hagrees
  rw [hall] at hprev
  rw [MemTableIterator.prev, hprev, ok_bind, pure_eq]

theorem implements (h : Holds user adds m order) (hu : TotalPreorder user.compare)
    (hdistinct : Distinct user adds) :
    Implements (machine user m) order.length (firstFrom user (listing adds order))
      (StandsIn order) where
  valid it p hstands := by
    cases p with
    | none =>
        have hnode : it.iter.node = none := hstands
        simp [machine, MemTableIterator.valid, Iterator.valid, hnode]
    | some i =>
        obtain ⟨before, x, after, -, -, hnode⟩ := hstands
        simp [machine, MemTableIterator.valid, Iterator.valid, hnode]
  toFirst it p _ := by
    refine ⟨⟨⟨order.head?⟩⟩, ?_, ?_⟩
    · simp only [machine, MemTableIterator.seekToFirst, h.represents.seekToFirst_eq, ok_bind,
        pure_eq]
    · have hstands := standsIn_head (List.nil_append order)
      simpa [first, List.length_eq_zero_iff] using hstands
  toLast it p _ := by
    refine ⟨⟨⟨order.getLast?⟩⟩, ?_, ?_⟩
    · simp only [machine, MemTableIterator.seekToLast, h.represents.seekToLast_eq, ok_bind,
        pure_eq]
    · have hstands := standsIn_last (List.append_nil order)
      simpa [last, List.length_eq_zero_iff] using hstands
  seek it p target _ := by
    obtain ⟨before, after, horder, hseek, hbefore, hafter⟩ :=
      h.seek_eq hu target.bytes target.tagged target.fits
    refine ⟨_, hseek, ?_⟩
    have hlen := h.length_listing before (by simp [← horder])
    have hlen' := h.length_listing after (by simp [← horder])
    have hbelow : ∀ e ∈ listing adds before, decide (0 ≤ internalOrder user e.internalKey
        target.bytes) = false := by
      intro e he
      rw [listing_eq] at he
      obtain ⟨p, hp, rfl⟩ := List.mem_map.mp he
      have hlt := hbefore p hp
      exact decide_eq_false (by omega)
    have habove : ∀ e ∈ listing adds after, decide (0 ≤ internalOrder user e.internalKey
        target.bytes) = true := by
      intro e he
      rw [listing_eq] at he
      obtain ⟨p, hp, rfl⟩ := List.mem_map.mp he
      exact decide_eq_true (hafter p hp)
    have hplace := findIdx?_split hbelow habove
    rw [← listing_append, horder, hlen] at hplace
    have hnil : listing adds after = [] ↔ after = [] := by
      rw [← List.length_eq_zero_iff, hlen', List.length_eq_zero_iff]
    rw [firstFrom, hplace]
    simp only [hnil]
    exact standsIn_head horder
  next it i hstands := by
    obtain ⟨before, x, after, horder, rfl, hnode⟩ := hstands
    obtain ⟨⟨node⟩⟩ := it
    obtain rfl : node = some x := hnode
    refine ⟨⟨⟨after.head?⟩⟩, ?_, ?_⟩
    · simp only [machine, MemTableIterator.next, h.represents.iterator_next_eq before after x horder,
        ok_bind, pure_eq]
    · have hlen := congrArg List.length horder
      rw [List.length_append, List.length_cons] at hlen
      rw [List.append_cons] at horder
      have hstands := standsIn_head horder
      cases after with
      | nil => simpa [Lib.Cursor.after, ← hlen] using hstands
      | cons y after => simpa [Lib.Cursor.after, ← hlen] using hstands
  prev it i hstands := by
    obtain ⟨before, x, after, horder, rfl, hnode⟩ := hstands
    obtain ⟨⟨node⟩⟩ := it
    obtain rfl : node = some x := hnode
    refine ⟨⟨⟨before.getLast?⟩⟩, h.prev_eq hu (h.ascends hu hdistinct) before after x horder, ?_⟩
    have hstands := standsIn_last horder
    simpa [Lib.Cursor.before, List.length_eq_zero_iff] using hstands

theorem listing_perm_adds (h : Holds user adds m order) : (listing adds order).Perm adds := by
  have hperm := h.listing_perm.map Prod.fst
  rwa [← listing_eq, List.zipIdx_map_fst] at hperm

theorem listing_ascends (h : Holds user adds m order) (hu : TotalPreorder user.compare)
    (hdistinct : Distinct user adds) :
    (listing adds order).Pairwise fun e f =>
      internalOrder user e.internalKey f.internalKey < 0 := by
  refine List.Pairwise.filterMap _ (fun x y hxy e he f hf => ?_)
    ((h.ascends hu hdistinct).imp_of_mem fun {x y} hx hy hxy => And.intro hx (And.intro hy hxy))
  obtain ⟨hx, hy, hxy⟩ := hxy
  obtain ⟨e', he', hkeyx⟩ := h.added x hx
  obtain ⟨f', hf', hkeyy⟩ := h.added y hy
  obtain rfl := Option.some.inj (he'.symm.trans he)
  obtain rfl := Option.some.inj (hf'.symm.trans hf)
  rwa [hkeyx, hkeyy, entryOrder, e'.entry_prefixed.internalKeyOf_eq,
    f'.entry_prefixed.internalKeyOf_eq] at hxy

end Holds

-- Over a table without equal internal keys the iterator is a cursor over the additions in
-- the order of their internal keys, under any sequence of moves.
theorem iterator_implements (user : Comparator) (hu : TotalPreorder user.compare)
    (adds : List Added) (hdistinct : Distinct user adds) :
    ∃ m listing, addAll user adds = .ok m ∧ listing.Perm adds ∧
      (listing.Pairwise fun e f => internalOrder user e.internalKey f.internalKey < 0) ∧
      ∀ moves, ∃ o, (machine user m).run ⟨⟨none⟩⟩ moves = .ok o ∧
        Lib.Cursor.Agrees (Shows m listing) o
          (run listing.length (firstFrom user listing) none moves) := by
  obtain ⟨m, order, hm, h⟩ := addAll_holds user hu adds
  refine ⟨m, listing adds order, hm, h.listing_perm_adds, h.listing_ascends hu hdistinct,
    fun moves => ?_⟩
  obtain ⟨o, ho, hagrees⟩ := (h.implements hu hdistinct).run_agrees moves ⟨⟨none⟩⟩ none rfl
  rw [h.length_listing order (List.Subset.refl order)]
  exact ⟨o, ho, hagrees.imp h.shows_of_standsIn⟩

theorem iterator_implements_sample : ∃ m listing, addAll bytewiseComparator sampleAdds = .ok m ∧
    listing.Perm sampleAdds ∧ ∃ o,
      (machine bytewiseComparator m).run ⟨⟨none⟩⟩ [.toLast, .prev, .prev, .next] = .ok o ∧
      Lib.Cursor.Agrees (Shows m listing) o (some (some 1)) := by
  obtain ⟨m, listing, hm, hperm, -, hruns⟩ := iterator_implements bytewiseComparator
    Slice.compare_totalOrder.toTotalPreorder sampleAdds (by unfold Distinct; decide)
  obtain ⟨o, ho, hagrees⟩ := hruns [.toLast, .prev, .prev, .next]
  rw [hperm.length_eq] at hagrees
  exact ⟨m, listing, hm, hperm, o, ho, hagrees⟩

end MemTable

end Mylldb

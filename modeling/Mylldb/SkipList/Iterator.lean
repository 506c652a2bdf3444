import Mylldb.SkipList.Theorems

namespace Mylldb.SkipList

open Lib.LinkedChain Lib.Run Lib.ThreeWay

variable {Key : Type} [Inhabited Key] {cmp : Key → Key → Int} {l : SkipList Key}
  {order : List Nat}

theorem Represents.bottom (h : Represents cmp l order) : Chain (l.link 0) 0 order := by
  have hchain := h.chain 0 (by decide)
  rwa [tower_zero l order h.height_pos] at hchain

theorem Represents.seekToFirst_eq (h : Represents cmp l order) :
    Iterator.seekToFirst l = .ok ⟨order.head?⟩ := by
  have hhead : l.next (some 0) 0 = .ok order.head? := h.bottom.head
  simp [Iterator.seekToFirst, hhead]

-- `Next` moves along the order.
theorem Represents.iterator_next_eq (h : Represents cmp l order) (before after : List Nat)
    (x : Nat) (horder : before ++ x :: after = order) :
    Iterator.next l ⟨some x⟩ = .ok ⟨after.head?⟩ := by
  have hchain := h.bottom
  rw [← horder, List.append_cons] at hchain
  have hlink := hchain.suffix.head
  rw [List.getLastD_concat] at hlink
  have hnext : l.next (some x) 0 = .ok after.head? := hlink
  simp [Iterator.next, Iterator.valid, hnext]

theorem Represents.iterator_key_eq (h : Represents cmp l order) (x : Nat) (hx : x ∈ order) :
    Iterator.key l ⟨some x⟩ = .ok (l.keyOf x) := by
  have hlt := (h.lt_length x hx).2
  simp [Iterator.key, Iterator.valid, deref_eq l x hlt, keyOf_eq l x hlt]

theorem Represents.seek_eq {compare : Key → Key → Exec Int} (h : Represents cmp l order)
    (hc : TotalPreorder cmp) (target : Key) (ha : Agrees compare cmp l order target) :
    Iterator.seek compare l target =
      .ok ⟨(order.filter fun x => !l.lessThan cmp target x).head?⟩ := by
  obtain ⟨prev', hrun, -⟩ := h.findGreaterOrEqual_eq hc target ha none (by simp)
  simp [Iterator.seek, hrun]

end Mylldb.SkipList

import Mylldb.Random.Theorems
import Mylldb.SkipList.Theorems

namespace Mylldb

open Lib.Run Lib.ThreeWay

namespace SkipList

def kBranching : BitVec 32 := 4

-- The loop of `RandomHeight`.
def growHeight : Nat → Nat → Random → Exec (Nat × Random)
  | 0, _, _ => .error .diverges
  | fuel + 1, height, rnd =>
      if height < kMaxHeight then
        let (value, rnd) := rnd.next
        if value % kBranching = 0 then growHeight fuel (height + 1) rnd else pure (height, rnd)
      else pure (height, rnd)

def randomHeight (rnd : Random) : Exec (Nat × Random) := growHeight kMaxHeight 1 rnd

-- Every turn but the last one raises the height, and draws one number.
theorem growHeight_total (fuel height : Nat) (rnd : Random) (hle : height ≤ kMaxHeight)
    (hfuel : kMaxHeight - height < fuel) :
    ∃ height' k, growHeight fuel height rnd = .ok (height', rnd.after k) ∧
      height ≤ height' ∧ height' ≤ kMaxHeight := by
  induction fuel generalizing height rnd with
  | zero => omega
  | succ fuel ih =>
      rw [growHeight]
      by_cases hlt : height < kMaxHeight
      · rw [if_pos hlt]
        dsimp only
        by_cases hzero : rnd.next.1 % kBranching = 0
        · rw [if_pos hzero]
          obtain ⟨height', k, hrun, hgrown, hle'⟩ := ih (height + 1) rnd.next.2 hlt (by omega)
          refine ⟨height', 1 + k, ?_, by omega, hle'⟩
          rw [hrun, ← Random.after_add]
          rfl
        · rw [if_neg hzero]
          exact ⟨height, 1, rfl, Nat.le_refl _, hle⟩
      · rw [if_neg hlt]
        exact ⟨height, 0, rfl, Nat.le_refl _, hle⟩

theorem randomHeight_total (rnd : Random) : ∃ height k,
    randomHeight rnd = .ok (height, rnd.after k) ∧ 1 ≤ height ∧ height ≤ kMaxHeight :=
  growHeight_total kMaxHeight 1 rnd (by decide) (by decide)

end SkipList

-- The seed runs through the powers of the factor, between the two absorbing values, and
-- drawing a height only takes it further on this way.
theorem Random.never_degenerates (s : BitVec 32) (n : Nat) :
    ((new s).after n).InRange ∧ ((new s).after n).folded.toNat < 2 ^ 32 ∧
      ((new s).after n).next.1.toNat =
        (new s).seed.toNat * 16807 ^ (n + 1) % (2 ^ 31 - 1) ∧
      ∃ height k, SkipList.randomHeight ((new s).after n) = .ok (height, (new s).after (n + k)) ∧
        1 ≤ height ∧ height ≤ SkipList.kMaxHeight := by
  obtain ⟨hrange, -⟩ := (new s).after_eq (new_inRange s) n
  obtain ⟨height, k, hrun, hpos, hle⟩ := SkipList.randomHeight_total ((new s).after n)
  rw [after_add] at hrun
  exact ⟨hrange, folded_lt _, (new s).next_after (new_inRange s) n, height, k, hrun, hpos, hle⟩

namespace SkipList

variable {Key : Type}

-- A list with its generator `rnd_`.
structure Seeded (Key : Type) where
  list : SkipList Key
  rnd : Random

namespace Seeded

def new [Inhabited Key] : Seeded Key := ⟨empty, Random.new 0xdeadbeef⟩

section

variable (compare : Key → Key → Exec Int)

-- `Insert` draws the height itself. The search before it leaves `rnd_` alone.
def insert (s : Seeded Key) (key : Key) : Exec (Seeded Key) := do
  let (height, rnd) ← randomHeight s.rnd
  let list ← s.list.insert compare height key
  pure ⟨list, rnd⟩

def insertAll [Inhabited Key] (keys : List Key) : Exec (Seeded Key) :=
  keys.foldlM (insert compare) new

-- A run with drawn heights is a run with heights that are given and fit.
theorem insertAll_drawn [Inhabited Key] (keys : List Key) : ∃ inserts : List (Nat × Key),
    inserts.map (·.2) = keys ∧ (∀ p ∈ inserts, 1 ≤ p.1 ∧ p.1 ≤ kMaxHeight) ∧
      Seeded.list <$> insertAll compare keys = SkipList.insertAll compare inserts := by
  have hrun : ∀ s : Seeded Key, ∃ inserts : List (Nat × Key), inserts.map (·.2) = keys ∧
      (∀ p ∈ inserts, 1 ≤ p.1 ∧ p.1 ≤ kMaxHeight) ∧
        Seeded.list <$> keys.foldlM (insert compare) s =
          inserts.foldlM (fun l p => l.insert compare p.1 p.2) s.list := by
    induction keys with
    | nil => exact fun s => ⟨[], rfl, by simp, rfl⟩
    | cons key keys ih =>
        intro s
        obtain ⟨height, k, hdraw, hpos, hle⟩ := randomHeight_total s.rnd
        have hinsert : s.insert compare key =
            s.list.insert compare height key >>= fun list => .ok ⟨list, s.rnd.after k⟩ := by
          rw [insert, hdraw, ok_bind]
          rfl
        cases hlist : s.list.insert compare height key with
        | error fault =>
            obtain ⟨inserts, hkeys, hfits, -⟩ := ih s
            refine ⟨(height, key) :: inserts, by simp [hkeys], ?_, ?_⟩
            · simpa [hpos, hle] using hfits
            · rw [List.foldlM_cons, List.foldlM_cons, hinsert, hlist]
              rfl
        | ok list =>
            obtain ⟨inserts, hkeys, hfits, heq⟩ := ih ⟨list, s.rnd.after k⟩
            refine ⟨(height, key) :: inserts, by simp [hkeys], ?_, ?_⟩
            · simpa [hpos, hle] using hfits
            · rw [List.foldlM_cons, List.foldlM_cons, hinsert, hlist]
              exact heq
  exact hrun new

end

-- So every run that draws its heights reaches a represented list.
theorem insertAll_total [Inhabited Key] (cmp : Key → Key → Int) (hc : TotalPreorder cmp)
    (keys : List Key) : ∃ s order, insertAll (fun a b => .ok (cmp a b)) keys = .ok s ∧
      Represents cmp s.list order := by
  obtain ⟨inserts, -, hfits, heq⟩ := insertAll_drawn (fun a b => .ok (cmp a b)) keys
  obtain ⟨l, hl, -, order, hrep⟩ := insertAll_represents (fun a b => .ok (cmp a b)) cmp hc inserts
    hfits fun _ _ _ _ => rfl
  rw [hl] at heq
  cases hrun : insertAll (fun a b => .ok (cmp a b)) keys with
  | error fault =>
      rw [hrun] at heq
      cases heq
  | ok s =>
      rw [hrun] at heq
      obtain rfl : s.list = l := Except.ok.inj heq
      exact ⟨s, order, rfl, hrep⟩

end Seeded

end SkipList

end Mylldb

import Mylldb.SkipList.Interleaving
import Mylldb.SkipList.Linearizable

namespace Mylldb.SkipList

open Lib.History Lib.Run Lib.ThreeWay

variable {Key : Type}

-- The order of the list: by key, and among equal keys the later insertion first.
def Before (cmp : Key → Key → Int) (e f : Nat × Key) : Prop :=
  cmp e.2 f.2 < 0 ∨ cmp e.2 f.2 = 0 ∧ f.1 < e.1

def Record.entry? : Record Key → Option (Nat × Key)
  | .inserted x key => some (x, key)
  | _ => none

-- The nodes that came into the list.
def arrived (history : List (Record Key)) : List (Nat × Key) := history.filterMap Record.entry?

namespace Start

def op : Start Key → Op Key
  | .first => .seekToFirst
  | .seek target => .seek target

instance {cmp : Key → Key → Int} {s : Start Key} {key : Key} : Decidable (s.Covers cmp key) :=
  match s with
  | .first => inferInstanceAs (Decidable True)
  | .seek target => inferInstanceAs (Decidable (0 ≤ cmp key target))

end Start

-- The elements that a start covers.
def covered (cmp : Key → Key → Int) (s : Start Key) (entries : List (Nat × Key)) :
    List (Nat × Key) :=
  entries.filter fun e => decide (s.Covers cmp e.2)

-- What a reader has seen since it set out: the node where it stands, the nodes it has
-- yielded, and the nodes it is due to yield.
structure Trip (Key : Type) where
  standing : Option (Nat × Key)
  yielded : List (Nat × Key)
  due : List (Nat × Key)

namespace Trip

variable (cmp : Key → Key → Int)

-- Due is what came in before the reader set out, from where it starts.
def start (s : Start Key) (before : List (Record Key)) (found : Option (Nat × Key)) : Trip Key :=
  ⟨found, found.toList, covered cmp s (arrived before)⟩

-- A node that comes in is due if its key lies ahead of the reader.
def record (r : Nat) (t : Trip Key) : Record Key → Trip Key
  | .inserted x key =>
      if t.standing.any fun p => decide (cmp p.2 key < 0) then { t with due := t.due ++ [(x, key)] }
      else t
  | .returned r' _ found _ =>
      if r' = r then { t with standing := found, yielded := t.yielded ++ found.toList } else t
  | _ => t

def follow (r : Nat) (t : Trip Key) (during : List (Record Key)) : Trip Key :=
  during.foldl (record cmp r) t

end Trip

variable {cmp : Key → Key → Int} {sheet sheet' : Sheet Key} {records : List (Record Key)}

section Before

variable (hc : TotalPreorder cmp) {e f g : Nat × Key}
include hc

theorem Before.trans (hef : Before cmp e f) (hfg : Before cmp f g) : Before cmp e g := by
  rcases hef with hef | ⟨hef, hlt⟩
  · left
    rcases hfg with hfg | ⟨hfg, -⟩
    · exact hc.lt_trans _ _ _ hef hfg
    · exact hc.lt_of_lt_of_le _ _ _ hef (Int.le_of_eq hfg)
  · rcases hfg with hfg | ⟨hfg, hlt'⟩
    · exact .inl (hc.lt_of_le_of_lt _ _ _ (Int.le_of_eq hef) hfg)
    · exact .inr ⟨hc.zero_trans _ _ _ hef hfg, hlt'.trans hlt⟩

theorem Before.irrefl (e : Nat × Key) : ¬Before cmp e e := by
  rintro (h | ⟨-, h⟩)
  · rw [hc.refl] at h
    exact absurd h (Int.lt_irrefl 0)
  · exact Nat.lt_irrefl _ h

theorem Before.asymm (hef : Before cmp e f) : ¬Before cmp f e :=
  fun hfe => irrefl hc e (hef.trans hc hfe)

end Before

theorem Before.le {e f : Nat × Key} (h : Before cmp e f) : cmp e.2 f.2 ≤ 0 := by
  rcases h with h | ⟨h, -⟩ <;> omega

theorem arrived_concat (records : List (Record Key)) (r : Record Key) :
    arrived (records ++ [r]) = arrived records ++ r.entry?.toList := by
  rw [arrived, List.filterMap_append, List.filterMap_cons, List.filterMap_nil, arrived]
  cases r.entry? <;> rfl

theorem insertedKeys_eq (history : List (Record Key)) :
    insertedKeys history = (arrived history).map fun e => e.2 := by
  rw [insertedKeys, arrived, List.map_filterMap]
  congr 1
  funext record
  cases record <;> rfl

section Ordered

theorem mem_sheet_insert (entries : List (Nat × Key)) (x : Nat) (key : Key) (e : Nat × Key) :
    e ∈ Sheet.insert cmp entries x key ↔ e ∈ entries ∨ e = (x, key) := by
  rw [Sheet.insert, List.mem_append, List.mem_cons, List.mem_filter, List.mem_filter]
  by_cases hless : cmp e.2 key < 0
  · simp [hless]
  · simp [hless, or_comm]

theorem sheet_insert_perm (cmp : Key → Key → Int) (entries : List (Nat × Key)) (x : Nat)
    (key : Key) :
    (Sheet.insert cmp entries x key).Perm ((x, key) :: entries) :=
  List.perm_middle.trans ((List.filter_append_perm _ entries).cons _)

-- The sheet lists what came in, in order, and each number once.
structure Ordered (cmp : Key → Key → Int) (records : List (Record Key)) (sheet : Sheet Key) :
    Prop where
  sorted : sheet.entries.Pairwise (Before cmp)
  nodup : (sheet.entries.map fun e => e.1).Nodup
  le_length : ∀ e ∈ sheet.entries, e.1 ≤ sheet.entries.length
  perm : sheet.entries.Perm (arrived records)

-- The new element has the highest number, so it comes before those with an equal key.
theorem Ordered.insert_sorted (h : Ordered cmp records sheet) (hc : TotalPreorder cmp) (key : Key) :
    (Sheet.insert cmp sheet.entries (sheet.entries.length + 1) key).Pairwise (Before cmp) := by
  rw [Sheet.insert, List.pairwise_append, List.pairwise_cons]
  refine ⟨h.sorted.filter _, ⟨?_, h.sorted.filter _⟩, ?_⟩
  · intro e he
    obtain ⟨hmem, hnot⟩ := List.mem_filter.mp he
    have hle : cmp key e.2 ≤ 0 := (hc.nonneg_iff _ _).mp (by simpa using hnot)
    rcases Int.lt_or_eq_of_le hle with hlt | hzero
    · exact .inl hlt
    · exact .inr ⟨hzero, Nat.lt_succ_of_le (h.le_length e hmem)⟩
  · intro e he f hf
    have hless : cmp e.2 key < 0 := by simpa using (List.mem_filter.mp he).2
    rcases List.mem_cons.mp hf with rfl | hf
    · exact .inl hless
    · have hnot : 0 ≤ cmp f.2 key := by simpa using (List.mem_filter.mp hf).2
      exact .inl (hc.lt_of_lt_of_le _ _ _ hless ((hc.nonneg_iff _ _).mp hnot))

theorem Ordered.insert (h : Ordered cmp records sheet) (hc : TotalPreorder cmp) (key : Key)
    (hentries : sheet'.entries = Sheet.insert cmp sheet.entries (sheet.entries.length + 1) key) :
    Ordered cmp (records ++ [.inserted (sheet.entries.length + 1) key]) sheet' := by
  have hperm := sheet_insert_perm cmp sheet.entries (sheet.entries.length + 1) key
  refine ⟨hentries ▸ h.insert_sorted hc key, ?_, ?_, ?_⟩
  · rw [hentries, (hperm.map fun e => e.1).nodup_iff, List.map_cons, List.nodup_cons]
    refine ⟨fun hmem => ?_, h.nodup⟩
    obtain ⟨e, he, heq⟩ := List.mem_map.mp hmem
    have hle := h.le_length e he
    omega
  · intro e he
    rw [hentries] at he ⊢
    rw [hperm.length_eq, List.length_cons]
    rcases (mem_sheet_insert _ _ _ _).mp he with he | rfl
    · exact (h.le_length e he).trans (Nat.le_succ _)
    · exact Nat.le_refl _
  · rw [hentries, arrived_concat]
    exact hperm.trans ((h.perm.cons _).trans (List.perm_append_singleton _ _).symm)

theorem Ordered.quiet (h : Ordered cmp records sheet) {r : Record Key} (hr : r.entry? = none)
    (hentries : sheet'.entries = sheet.entries) : Ordered cmp (records ++ [r]) sheet' := by
  obtain ⟨hsorted, hnodup, hlength, hperm⟩ := h
  rw [← hentries] at hsorted hnodup hlength hperm
  refine ⟨hsorted, hnodup, hlength, ?_⟩
  rwa [arrived_concat, hr, Option.toList_none, List.append_nil]

theorem Ordered.step (h : Ordered cmp records sheet) (hc : TotalPreorder cmp) {r : Record Key}
    (hstep : Sheet.Step cmp sheet r sheet') : Ordered cmp (records ++ [r]) sheet' := by
  cases hstep with
  | inserted key _ => exact h.insert hc key rfl
  | insertCalled key _ => exact h.quiet rfl rfl
  | insertReturned key _ => exact h.quiet rfl rfl
  | called r op _ => exact h.quiet rfl rfl
  | returned r op loads _ _ => exact h.quiet rfl rfl

theorem replays_ordered (hc : TotalPreorder cmp)
    (h : Replays (Sheet.Step cmp) Sheet.initial records sheet) : Ordered cmp records sheet := by
  induction h with
  | nil => exact ⟨.nil, .nil, by simp [Sheet.initial], .nil⟩
  | snoc _ hstep ih => exact ih.step hc hstep

-- What lies behind an element is what the order puts behind it.
theorem Ordered.behind (h : Ordered cmp records sheet) (hc : TotalPreorder cmp) {p : Nat × Key}
    (hp : p ∈ sheet.entries) : ∃ ahead,
      (sheet.entries.dropWhile fun e => decide (e.1 ≠ p.1)).tail = ahead ∧
      ahead.Pairwise (Before cmp) ∧
      ∀ e, e ∈ ahead ↔ e ∈ sheet.entries ∧ Before cmp p e := by
  obtain ⟨passed, ahead, hentries⟩ := List.append_of_mem hp
  have hsorted := h.sorted
  have hnodup := h.nodup
  rw [hentries] at hsorted hnodup ⊢
  obtain ⟨-, hbehind, hpassed⟩ := List.pairwise_append.mp hsorted
  obtain ⟨hp_lt, hahead⟩ := List.pairwise_cons.mp hbehind
  refine ⟨ahead, ?_, hahead, fun e => ?_⟩
  · have hother : ∀ e ∈ passed, decide (e.1 ≠ p.1) = true := by
      intro e he
      rw [List.map_append, List.nodup_append] at hnodup
      exact decide_eq_true (hnodup.2.2 e.1 (List.mem_map_of_mem he) p.1 (by simp))
    rw [List.dropWhile_append_of_pos hother, List.dropWhile_cons_of_neg (by simp), List.tail_cons]
  · constructor
    · exact fun he => ⟨by simp [he], hp_lt e he⟩
    · rintro ⟨he, hlt⟩
      rcases List.mem_append.mp he with he | he
      · exact absurd (hpassed e he p (by simp)) (hlt.asymm hc)
      · rcases List.mem_cons.mp he with rfl | he
        · exact absurd hlt (Before.irrefl hc e)
        · exact he

end Ordered

section Trips

variable {t : Trip Key} {s : Start Key} {r : Nat} {records : List (Record Key)}

-- The reader stands on the last node that it has yielded, and what is due and not yielded
-- lies behind it.
structure Travels (cmp : Key → Key → Int) (s : Start Key) (r : Nat) (sheet : Sheet Key)
    (t : Trip Key) : Prop where
  place_eq : sheet.places r = t.standing.map fun e => e.1
  standing : ∀ p ∈ t.standing, p ∈ t.yielded ∧ ∀ e ∈ t.yielded, e = p ∨ Before cmp e p
  sorted : t.yielded.Pairwise (Before cmp)
  yielded : ∀ e ∈ t.yielded, e ∈ sheet.entries
  due_covered : ∀ e ∈ t.due, s.Covers cmp e.2
  due : ∀ e, e ∈ t.due ↔ e ∈ t.yielded ∨ e ∈ sheet.entries ∧ ∃ p ∈ t.standing, Before cmp p e

-- The reader comes to stand on the first node of what lies ahead of it.
theorem Travels.arrive (yielded due ahead : List (Nat × Key))
    (hplace : sheet.places r = ahead.head?.map fun e => e.1)
    (hyielded : yielded.Pairwise (Before cmp)) (hahead : ahead.Pairwise (Before cmp))
    (hbefore : ∀ e ∈ yielded, ∀ a ∈ ahead, Before cmp e a)
    (hentries : ∀ e, e ∈ yielded ∨ e ∈ ahead → e ∈ sheet.entries)
    (hclosed : ∀ e ∈ sheet.entries, ∀ a ∈ ahead, Before cmp a e → e ∈ ahead)
    (hcovered : ∀ e ∈ due, s.Covers cmp e.2)
    (hdue : ∀ e, e ∈ due ↔ e ∈ yielded ∨ e ∈ ahead) :
    Travels cmp s r sheet ⟨ahead.head?, yielded ++ ahead.head?.toList, due⟩ := by
  cases ahead with
  | nil =>
      refine ⟨hplace, by simp, by simpa using hyielded, ?_, hcovered, by simpa using hdue⟩
      intro e he
      exact hentries e (.inl (by simpa using he))
  | cons a ahead =>
      obtain ⟨hfirst, -⟩ := List.pairwise_cons.mp hahead
      refine ⟨hplace, ?_, ?_, ?_, hcovered, ?_⟩
      · intro p hp
        obtain rfl : a = p := by simpa using hp
        refine ⟨by simp, fun e he => ?_⟩
        rcases List.mem_append.mp he with he | he
        · exact .inr (hbefore e he a (by simp))
        · exact .inl (by simpa using he)
      · refine List.pairwise_append.mpr ⟨hyielded, List.pairwise_singleton _ _, ?_⟩
        intro e he b hb
        obtain rfl : b = a := by simpa using hb
        exact hbefore e he b (by simp)
      · intro e he
        apply hentries e
        rcases List.mem_append.mp he with he | he
        · exact .inl he
        · exact .inr (by simpa using .inl (by simpa using he))
      · intro e
        rw [hdue e, List.mem_append, or_assoc]
        refine or_congr_right ⟨fun he => ?_, ?_⟩
        · rcases List.mem_cons.mp he with rfl | he
          · exact .inl (by simp)
          · exact .inr ⟨hentries e (.inr (List.mem_cons_of_mem _ he)), a, by simp, hfirst e he⟩
        · rintro (he | ⟨he, p, hp, hlt⟩)
          · obtain rfl : e = a := by simpa using he
            exact List.mem_cons_self ..
          · obtain rfl : a = p := by simpa using hp
            exact hclosed e he a (List.mem_cons_self ..) hlt

theorem Start.covers_of_before (hc : TotalPreorder cmp) {e f : Nat × Key} (hlt : Before cmp e f)
    (he : s.Covers cmp e.2) : s.Covers cmp f.2 := by
  cases s with
  | first => trivial
  | seek target => exact (hc.nonneg_iff _ _).mpr (hc.trans _ _ _ ((hc.nonneg_iff _ _).mp he) hlt.le)

theorem mem_covered {entries : List (Nat × Key)} {e : Nat × Key} :
    e ∈ covered cmp s entries ↔ e ∈ entries ∧ s.Covers cmp e.2 := by
  rw [covered, List.mem_filter, decide_eq_true_iff]

theorem answer_start (entries : List (Nat × Key)) (place : Option Nat) (s : Start Key) :
    Sheet.answer cmp entries place s.op = (covered cmp s entries).head? := by
  cases s with
  | first =>
      have hall : covered cmp .first entries = entries :=
        List.filter_eq_self.mpr fun _ _ => rfl
      rw [hall]
      rfl
  | seek target =>
      have hnot : covered cmp (.seek target) entries =
          entries.filter fun e => !decide (cmp e.2 target < 0) :=
        List.filter_congr fun e _ => by
          rw [← decide_not]
          exact decide_eq_decide.mpr Int.not_lt.symm
      rw [hnot]
      exact (List.head?_filter ..).symm

-- The answer to the first call opens the trip.
theorem Ordered.setsOut (h : Ordered cmp records sheet) (hc : TotalPreorder cmp) (s : Start Key)
    (hentries : sheet'.entries = sheet.entries)
    (hplace : sheet'.places r = (covered cmp s sheet.entries).head?.map fun e => e.1) :
    Travels cmp s r sheet' (Trip.start cmp s records (covered cmp s sheet.entries).head?) := by
  refine Travels.arrive [] _ _ hplace .nil (h.sorted.filter _) (by simp) ?_ ?_ ?_ ?_
  · intro e he
    rw [hentries]
    exact List.mem_of_mem_filter (he.resolve_left (by simp))
  · intro e he a ha hlt
    rw [hentries] at he
    exact mem_covered.mpr ⟨he, s.covers_of_before hc hlt (mem_covered.mp ha).2⟩
  · intro e he
    exact (mem_covered.mp he).2
  · intro e
    rw [mem_covered, ← h.perm.mem_iff, mem_covered]
    simp

theorem Travels.next (h : Travels cmp s r sheet t) (hordered : Ordered cmp records sheet)
    (hc : TotalPreorder cmp) (hentries : sheet'.entries = sheet.entries)
    {found : Option (Nat × Key)} (hplace : sheet'.places r = found.map fun e => e.1)
    (hfound : found = Sheet.answer cmp sheet.entries (sheet.places r) .next) :
    Travels cmp s r sheet' ⟨found, t.yielded ++ found.toList, t.due⟩ := by
  rw [h.place_eq] at hfound
  cases hstanding : t.standing with
  | none =>
      rw [hstanding] at hfound
      obtain rfl : found = none := hfound
      refine Travels.arrive t.yielded t.due [] hplace h.sorted .nil (by simp) ?_
        (by simp) h.due_covered ?_
      · intro e he
        rw [hentries]
        exact h.yielded e (he.resolve_right (by simp))
      · intro e
        rw [h.due e, hstanding]
        simp
  | some p =>
      obtain ⟨hp, hlast⟩ := h.standing p hstanding
      obtain ⟨ahead, htail, hahead, hmem⟩ := hordered.behind hc (h.yielded p hp)
      rw [hstanding, Sheet.answer, Option.map_some, Option.bind_some, htail] at hfound
      subst hfound
      refine Travels.arrive t.yielded t.due ahead hplace h.sorted hahead ?_ ?_ ?_ h.due_covered ?_
      · intro e he a ha
        rcases hlast e he with rfl | hlt
        · exact ((hmem a).mp ha).2
        · exact hlt.trans hc ((hmem a).mp ha).2
      · intro e he
        rw [hentries]
        exact he.elim (h.yielded e) fun he => ((hmem e).mp he).1
      · intro e he a ha hlt
        rw [hentries] at he
        exact (hmem e).mpr ⟨he, ((hmem a).mp ha).2.trans hc hlt⟩
      · intro e
        rw [h.due e, hmem e, hstanding]
        simp

-- An element that comes in lies ahead of the reader if and only if its key does.
theorem Travels.inserted (h : Travels cmp s r sheet t) (hordered : Ordered cmp records sheet)
    (hc : TotalPreorder cmp) (key : Key) (hplaces : sheet'.places = sheet.places)
    (hentries : sheet'.entries = Sheet.insert cmp sheet.entries (sheet.entries.length + 1) key) :
    Travels cmp s r sheet' (t.record cmp r (.inserted (sheet.entries.length + 1) key)) := by
  have hnew : ∀ p ∈ t.standing,
      (Before cmp p (sheet.entries.length + 1, key) ↔ cmp p.2 key < 0) := by
    intro p hp
    have hle := hordered.le_length p (h.yielded p (h.standing p hp).1)
    refine ⟨fun hlt => hlt.resolve_right fun hlt => ?_, .inl⟩
    have := hlt.2
    dsimp only at this
    omega
  have hplace : sheet'.places r = t.standing.map fun e => e.1 := hplaces ▸ h.place_eq
  have hyielded : ∀ e ∈ t.yielded, e ∈ sheet'.entries := fun e he => by
    rw [hentries, mem_sheet_insert]
    exact .inl (h.yielded e he)
  by_cases hahead : t.standing.any (fun p => decide (cmp p.2 key < 0)) = true
  · rw [Trip.record, if_pos hahead]
    obtain ⟨p, hp, hlt⟩ := (Option.any_eq_true _ _).mp hahead
    have hbefore := (hnew p hp).mpr (of_decide_eq_true hlt)
    refine ⟨hplace, h.standing, h.sorted, hyielded, ?_, ?_⟩
    · intro e he
      rcases List.mem_append.mp he with he | he
      · exact h.due_covered e he
      · obtain rfl := List.mem_singleton.mp he
        exact s.covers_of_before hc hbefore
          (h.due_covered p ((h.due p).mpr (.inl (h.standing p hp).1)))
    · intro e
      rw [List.mem_append, h.due e, List.mem_singleton, hentries, mem_sheet_insert]
      constructor
      · rintro ((he | ⟨he, hp'⟩) | rfl)
        · exact .inl he
        · exact .inr ⟨.inl he, hp'⟩
        · exact .inr ⟨.inr rfl, p, hp, hbefore⟩
      · rintro (he | ⟨he | rfl, hp'⟩)
        · exact .inl (.inl he)
        · exact .inl (.inr ⟨he, hp'⟩)
        · exact .inr rfl
  · rw [Trip.record, if_neg hahead]
    refine ⟨hplace, h.standing, h.sorted, hyielded, h.due_covered, ?_⟩
    intro e
    rw [h.due e, hentries, mem_sheet_insert]
    refine or_congr_right ⟨fun ⟨he, hp⟩ => ⟨.inl he, hp⟩, ?_⟩
    rintro ⟨he | rfl, p, hp, hlt⟩
    · exact ⟨he, p, hp, hlt⟩
    · refine absurd ((Option.any_eq_true _ _).mpr ⟨p, hp, ?_⟩) hahead
      exact decide_eq_true ((hnew p hp).mp hlt)

-- What no step of this reader's trip is leaves the trip as it is.
theorem Travels.stay (h : Travels cmp s r sheet t) (hentries : sheet'.entries = sheet.entries)
    (hplace : sheet'.places r = sheet.places r) : Travels cmp s r sheet' t where
  place_eq := hplace.trans h.place_eq
  standing := h.standing
  sorted := h.sorted
  yielded e he := hentries ▸ h.yielded e he
  due_covered := h.due_covered
  due e := hentries ▸ h.due e

theorem Travels.step (h : Travels cmp s r sheet t) (hordered : Ordered cmp records sheet)
    (hc : TotalPreorder cmp) {record : Record Key} (hstep : Sheet.Step cmp sheet record sheet')
    (honly : ∀ op found loads, record = .returned r op found loads → op = .next) :
    Travels cmp s r sheet' (t.record cmp r record) := by
  cases hstep with
  | inserted key _ => exact h.inserted hordered hc key rfl rfl
  | insertCalled key _ => exact h.stay rfl rfl
  | insertReturned key _ => exact h.stay rfl rfl
  | called r' op _ => exact h.stay rfl rfl
  | returned r' op loads _ _ =>
      by_cases hr : r' = r
      · subst hr
        obtain rfl := honly op _ _ rfl
        rw [Trip.record, if_pos rfl]
        refine h.next hordered hc ?_ ?_ ?_
        · rfl
        · exact Function.update_self ..
        · rfl
      · rw [Trip.record, if_neg hr]
        exact h.stay rfl (by simp [Function.update_of_ne (Ne.symm hr)])

-- From the first answer on, over everything that is recorded.
theorem replays_travels (hc : TotalPreorder cmp) (before during : List (Record Key))
    (found : Option (Nat × Key)) (loads : Nat)
    (h : Replays (Sheet.Step cmp) Sheet.initial
      (before ++ .returned r s.op found loads :: during) sheet)
    (honly : ∀ op found loads, .returned r op found loads ∈ during → op = .next) :
    Travels cmp s r sheet ((Trip.start cmp s before found).follow cmp r during) := by
  induction during using List.reverseRecOn generalizing sheet with
  | nil =>
      obtain ⟨sheet₁, hbefore, hstep⟩ := h.concat
      have hordered := replays_ordered hc hbefore
      cases hstep with
      | returned _ _ _ _ _ =>
          rw [answer_start]
          exact hordered.setsOut hc s rfl (by simp)
  | append_singleton during record ih =>
      rw [← List.cons_append, ← List.append_assoc] at h
      obtain ⟨sheet₁, hbefore, hstep⟩ := h.concat
      have htravels := ih hbefore fun op found loads hmem =>
        honly op found loads (List.mem_append_left _ hmem)
      rw [Trip.follow, List.foldl_concat]
      exact htravels.step (replays_ordered hc hbefore) hc hstep fun op found loads heq =>
        honly op found loads (by simp [heq])

theorem Travels.nodup (h : Travels cmp s r sheet t) (hordered : Ordered cmp records sheet)
    (hc : TotalPreorder cmp) : (t.yielded.map fun e => e.1).Nodup := by
  refine List.Nodup.map_on ?_ (h.sorted.imp fun hlt heq => ?_)
  · intro e he f hf heq
    exact List.inj_on_of_nodup_map hordered.nodup (h.yielded e he) (h.yielded f hf) heq
  · subst heq
    exact Before.irrefl hc _ hlt

-- A node that is due was due at the start, or has come in since.
theorem Trip.due_follow (cmp : Key → Key → Int) (r : Nat) (t : Trip Key)
    (during : List (Record Key)) : ∃ new, (t.follow cmp r during).due = t.due ++ new ∧
      new.Sublist (arrived during) := by
  induction during using List.reverseRecOn with
  | nil => exact ⟨[], (List.append_nil _).symm, List.nil_sublist _⟩
  | append_singleton during record ih =>
      obtain ⟨new, hdue, hnew⟩ := ih
      rw [Trip.follow, List.foldl_concat, arrived_concat]
      rw [Trip.follow] at hdue
      have hstay := hnew.trans (List.sublist_append_left _ record.entry?.toList)
      cases record with
      | inserted x key =>
          rw [Trip.record]
          split
          · exact ⟨new ++ [(x, key)], by rw [hdue, List.append_assoc], hnew.append (.refl _)⟩
          · exact ⟨new, hdue, hstay⟩
      | returned r' op found loads =>
          rw [Trip.record]
          split <;> exact ⟨new, hdue, hstay⟩
      | insertCalled key => exact ⟨new, hdue, hstay⟩
      | insertReturned => exact ⟨new, hdue, hstay⟩
      | called r' op => exact ⟨new, hdue, hstay⟩

theorem Travels.complete (h : Travels cmp s r sheet t) (hdone : sheet.places r = none)
    (e : Nat × Key) : e ∈ t.yielded ↔ e ∈ t.due := by
  have hnone : t.standing = none := Option.map_eq_none_iff.mp (h.place_eq ▸ hdone)
  rw [h.due e, hnone]
  simp

-- Where nothing that comes in meets a condition, the reader sees on this condition what was
-- there when it set out.
theorem Travels.filter_perm (hc : TotalPreorder cmp) {before during : List (Record Key)}
    {found : Option (Nat × Key)} (hordered : Ordered cmp records sheet)
    (h : Travels cmp s r sheet ((Trip.start cmp s before found).follow cmp r during))
    (hbefore : (arrived before).Nodup) (hdone : sheet.places r = none) (p : Nat × Key → Bool)
    (hnew : ∀ e ∈ arrived during, p e = false) :
    (((Trip.start cmp s before found).follow cmp r during).yielded.filter p).Perm
      ((covered cmp s (arrived before)).filter p) := by
  obtain ⟨new, hdue, hsublist⟩ := (Trip.start cmp s before found).due_follow cmp r during
  refine (List.perm_ext_iff_of_nodup ((h.nodup hordered hc).of_map.filter _)
    ((hbefore.filter _).filter _)).mpr fun e => ?_
  rw [List.mem_filter, h.complete hdone e, hdue, List.mem_append, List.mem_filter]
  constructor
  · rintro ⟨he | he, hp⟩
    · exact ⟨he, hp⟩
    · rw [hnew e (hsublist.subset he)] at hp
      cases hp
  · rintro ⟨he, hp⟩
    exact ⟨.inl he, hp⟩

end Trips

-- A reader sets out and calls `Next` while a writer inserts, store by store. It yields no
-- node twice and the keys in order, and when it is through it has yielded the nodes that
-- were in the list before its first answer and those that came in ahead of it, and no others.
theorem scan_complete [Inhabited Key] (cmp : Key → Key → Int) (hc : TotalPreorder cmp)
    (acts : List (Act Key))
    (hheights : ∀ height key, .insert height key ∈ acts → 1 ≤ height ∧ height ≤ kMaxHeight) :
    ∃ s, System.run (fun a b => .ok (cmp a b)) acts = .ok s ∧
      ∀ before during r (start : Start Key) found loads,
        s.history = before ++ .returned r start.op found loads :: during →
        (∀ op found loads, .returned r op found loads ∈ during → op = .next) →
        ∃ t, (Trip.start cmp start before found).follow cmp r during = t ∧
          (s.readers r).place = t.standing.map (fun e => e.1) ∧
          (t.yielded.map fun e => e.1).Nodup ∧
          (t.yielded.Pairwise fun e f => cmp e.2 f.2 ≤ 0) ∧
          (∀ e ∈ t.yielded, e ∈ arrived s.history ∧ start.Covers cmp e.2) ∧
          ((s.readers r).place = none → ∀ e, e ∈ t.yielded ↔ e ∈ t.due) := by
  obtain ⟨s, sheet, hrun, hreplays, order, lane, hcoherent⟩ :=
    run_replays hc (fun _ _ => trivial) (fun _ _ _ _ => rfl) acts (acts_good acts hheights)
  refine ⟨s, hrun, fun before during r start found loads hhistory honly => ?_⟩
  have hordered := replays_ordered hc hreplays
  have hplace := hcoherent.places_eq r
  rw [hhistory] at hreplays
  have h := replays_travels hc before during found loads hreplays honly
  refine ⟨_, rfl, hplace.symm.trans h.place_eq, h.nodup hordered hc,
    h.sorted.imp fun hlt => hlt.le, fun e he => ?_, fun hdone => h.complete (hplace.trans hdone)⟩
  exact ⟨hordered.perm.mem_iff.mp (h.yielded e he), h.due_covered e ((h.due e).mpr (.inl he))⟩

-- While a reader stands on 3, a node comes in behind it and one ahead of it.
def passedActs : List (Act Int) :=
  (.insert 1 3 :: List.replicate 4 .store) ++ (.call 0 .seekToFirst :: .load 0 :: .insert 1 5 ::
    List.replicate 3 .store) ++ (.call 0 .next :: .store :: .insert 1 1 ::
      List.replicate 4 .store) ++ [.load 0, .call 0 .next, .load 0]

theorem scan_complete_sample : ∃ (s : System Int) (t : Trip Int),
    System.run (fun a b => .ok (a - b)) passedActs = .ok s ∧ t.yielded = [(1, 3), (2, 5)] ∧
      (t.yielded.map fun e => e.1).Nodup ∧ ∀ e, e ∈ t.yielded ↔ e ∈ t.due := by
  obtain ⟨s, hrun, hscan⟩ := scan_complete (fun a b : Int => a - b) subtract_totalPreorder
    passedActs (by
      intro height key hmem
      have hone : (height = 1 ∧ key = 3) ∨ (height = 1 ∧ key = 5) ∨ (height = 1 ∧ key = 1) := by
        simpa [passedActs] using hmem
      have hmax : kMaxHeight = 12 := rfl
      omega)
  have hshown : (fun s : System Int => (s.history, (s.readers 0).place)) <$>
      System.run (fun a b : Int => .ok (a - b)) passedActs =
        .ok ([.insertCalled 3, .inserted 1 3, .insertReturned, .called 0 .seekToFirst] ++
          .returned 0 Start.first.op (some (1, 3)) 1 ::
            [.insertCalled 5, .inserted 2 5, .called 0 .next, .insertReturned, .insertCalled 1,
              .inserted 3 1, .insertReturned, .returned 0 .next (some (2, 5)) 1, .called 0 .next,
              .returned 0 .next none 1], none) := rfl
  rw [hrun] at hshown
  obtain ⟨hsplit, hdone⟩ := Prod.mk.inj (Except.ok.inj hshown)
  obtain ⟨t, ht, -, hnodup, -, -, hcomplete⟩ := hscan _ _ _ _ _ _ hsplit (by
    intro op found loads hmem
    have hcases : op = .next ∧ found = some (2, 5) ∧ loads = 1 ∨
        op = .next ∧ found = none ∧ loads = 1 := by simpa using hmem
    rcases hcases with ⟨hop, -⟩ | ⟨hop, -⟩ <;> exact hop)
  refine ⟨s, t, hrun, ?_, hnodup, hcomplete hdone⟩
  rw [← ht]
  rfl

end Mylldb.SkipList

import Mylldb.SkipList.Searches
import Mylldb.SkipList.Writer

namespace Mylldb.SkipList

open Lib.History Lib.LinkedChain Lib.Run Lib.ThreeWay

variable {Key : Type} [Inhabited Key] {compare : Key → Key → Exec Int} {cmp : Key → Key → Int}
  {good sought : Key → Prop} {s : System Key} {sheet : Sheet Key} {order : List Nat}
  {lane : Nat → List Nat}

-- The system shows what is on the sheet.
structure Coherent (cmp : Key → Key → Int) (good sought : Key → Prop) (s : System Key) (sheet : Sheet Key)
    (order : List Nat) (lane : Nat → List Nat) : Prop where
  writes : Writes cmp good s.list s.writer order lane
  entries_eq : sheet.entries = entries s.list order
  writing_eq : sheet.writing = s.writer.call
  places_eq : ∀ r, sheet.places r = (s.readers r).place
  asked_eq : ∀ r, sheet.asked r = (s.readers r).search.map fun p => p.1
  placed : ∀ r, ∀ x ∈ (s.readers r).place, x ∈ order
  reading : ∀ r op search, (s.readers r).search = some (op, search) →
    Reading cmp sought s.list order lane (s.readers r).place op search

def Act.Good (good sought : Key → Prop) : Act Key → Prop
  | .insert height key => 1 ≤ height ∧ height ≤ kMaxHeight ∧ good key
  | .call _ op => op.Good sought
  | _ => True

-- Every step of the system is none or one step of the sheet.
def Matches (cmp : Key → Key → Int) (good sought : Key → Prop) (s : System Key) (sheet : Sheet Key)
    (s' : System Key) : Prop :=
  ∃ sheet' new, s'.history = s.history ++ new ∧ Replays (Sheet.Step cmp) sheet new sheet' ∧
    ∃ order' lane', Coherent cmp good sought s' sheet' order' lane'

theorem Coherent.stay (h : Coherent cmp good sought s sheet order lane) : Matches cmp good sought s sheet s :=
  ⟨sheet, [], (List.append_nil _).symm, .nil, order, lane, h⟩

theorem Coherent.entries_length (h : Coherent cmp good sought s sheet order lane) :
    sheet.entries.length = order.length := by
  rw [h.entries_eq, entries, List.length_map]

-- The readers go on with a list that has grown.
theorem Coherent.grow (h : Coherent cmp good sought s sheet order lane) (hc : TotalPreorder cmp)
    {s' : System Key} {sheet' : Sheet Key} {order' : List Nat} {lane' : Nat → List Nat}
    (hwrites : Writes cmp good s'.list s'.writer order' lane')
    (hgrows : Grows s.list order lane s'.list order' lane') (hreaders : s'.readers = s.readers)
    (hplaces : sheet'.places = sheet.places) (hasked : sheet'.asked = sheet.asked)
    (hentries : sheet'.entries = entries s'.list order') (hwriting : sheet'.writing = s'.writer.call) :
    Coherent cmp good sought s' sheet' order' lane' where
  writes := hwrites
  entries_eq := hentries
  writing_eq := hwriting
  places_eq r := by rw [hplaces, hreaders, h.places_eq r]
  asked_eq r := by rw [hasked, hreaders, h.asked_eq r]
  placed r x hx := by
    rw [hreaders] at hx
    exact hgrows.order_le.subset (h.placed r x hx)
  reading r op search hsearch := by
    rw [hreaders] at hsearch ⊢
    exact (h.reading r op search hsearch).grow hgrows (h.writes.shared hc) (h.placed r)

theorem Grows.entries_eq {l l' : SkipList Key} {lane' : Nat → List Nat}
    (h : Grows l order lane l' order lane') : entries l' order = entries l order :=
  List.map_congr_left fun x hx => by rw [h.keyOf x hx]

theorem Coherent.store (h : Coherent cmp good sought s sheet order lane) (hc : TotalPreorder cmp) :
    ∃ s', s.act compare .store = .ok s' ∧ Matches cmp good sought s sheet s' := by
  obtain ⟨list, writer, new, order', lane', hstore, hstored⟩ := h.writes.store hc
  refine ⟨{ s with list, writer, history := s.history ++ new }, ?_, ?_⟩
  · rw [System.act, hstore]
    rfl
  · obtain ⟨hwrites, hgrows, hnotes⟩ := hstored
    cases hnotes with
    | nothing horder hcall =>
        subst horder
        refine ⟨sheet, [], rfl, .nil, _, lane', h.grow hc hwrites hgrows rfl rfl rfl ?_ ?_⟩
        · rw [h.entries_eq]
          exact hgrows.entries_eq.symm
        · exact h.writing_eq.trans hcall.symm
    | inserted key hcall hcall' hentries =>
        have hlength := h.entries_length
        have hstep : Sheet.Step cmp sheet _ _ := .inserted key (h.writing_eq.trans hcall)
        rw [hlength] at hstep
        refine ⟨_, _, rfl, .one hstep, order', lane', h.grow hc hwrites hgrows rfl rfl rfl ?_ ?_⟩
        · rw [hentries, ← h.entries_eq]
        · exact hcall'.symm
    | returned key horder hcall hcall' =>
        subst horder
        have hstep : Sheet.Step cmp sheet _ _ := .insertReturned key (h.writing_eq.trans hcall)
        refine ⟨_, _, rfl, .one hstep, _, lane', h.grow hc hwrites hgrows rfl rfl rfl ?_ ?_⟩
        · rw [h.entries_eq]
          exact hgrows.entries_eq.symm
        · exact hcall'.symm

theorem Coherent.insert (h : Coherent cmp good sought s sheet order lane) (hc : TotalPreorder cmp)
    (hsub : ∀ k, good k → sought k)
    (hcompare : ∀ a b, good a → sought b → compare a b = .ok (cmp a b)) (height : Nat) (key : Key)
    (hgood : Act.Good good sought (.insert height key)) :
    ∃ s', s.act compare (.insert height key) = .ok s' ∧ Matches cmp good sought s sheet s' := by
  obtain ⟨hpos, hle, hkey⟩ := hgood
  cases hwriter : s.writer with
  | idle =>
      have hwrites := h.writes
      have hwriting := h.writing_eq
      rw [hwriter] at hwrites hwriting
      obtain ⟨prev, list, hprev, rfl, hwrites', hgrows⟩ :=
        hwrites.insert hc (fun a b ha hb => hcompare a b ha (hsub b hb)) height key hpos hle hkey
      refine ⟨_, by rw [System.act, hwriter]; dsimp only; rw [hprev]; rfl, ?_⟩
      refine ⟨_, _, rfl, .one (.insertCalled key hwriting), order, lane,
        h.grow hc hwrites' hgrows rfl rfl rfl ?_ rfl⟩
      rw [h.entries_eq]
      exact hgrows.entries_eq.symm
  | allocating height' key' prev =>
      exact ⟨s, by rw [System.act, hwriter]; rfl, h.stay⟩
  | linking height' key' prev x i aimed =>
      exact ⟨s, by rw [System.act, hwriter]; rfl, h.stay⟩

-- One reader moves, and the others stay.
theorem Coherent.setReader (h : Coherent cmp good sought s sheet order lane) (r : Nat) (reader : Reader Key)
    (history : List (Record Key)) {places : Nat → Option Nat} {asked : Nat → Option (Op Key)}
    (hplaces : places = Function.update sheet.places r reader.place)
    (hasked : asked = Function.update sheet.asked r (reader.search.map fun p => p.1))
    (hplaced : ∀ x ∈ reader.place, x ∈ order)
    (hreading : ∀ op search, reader.search = some (op, search) →
      Reading cmp sought s.list order lane reader.place op search) :
    Coherent cmp good sought { s.setReader r reader with history } { sheet with places, asked } order
      lane where
  writes := h.writes
  entries_eq := h.entries_eq
  writing_eq := h.writing_eq
  places_eq r' := by
    subst hplaces
    by_cases hr : r' = r
    · subst hr
      simp [System.setReader]
    · simp [System.setReader, Function.update_of_ne hr, h.places_eq r']
  asked_eq r' := by
    subst hasked
    by_cases hr : r' = r
    · subst hr
      simp [System.setReader]
    · simp [System.setReader, Function.update_of_ne hr, h.asked_eq r']
  placed r' := by
    by_cases hr : r' = r
    · subst hr
      simpa [System.setReader] using hplaced
    · simpa [System.setReader, Function.update_of_ne hr] using h.placed r'
  reading r' := by
    by_cases hr : r' = r
    · subst hr
      simpa [System.setReader] using hreading
    · simpa [System.setReader, Function.update_of_ne hr] using h.reading r'

theorem Coherent.call (h : Coherent cmp good sought s sheet order lane) (hc : TotalPreorder cmp)
    (hsub : ∀ k, good k → sought k) (r : Nat) (op : Op Key) (hop : op.Good sought) :
    ∃ s', s.act compare (.call r op) = .ok s' ∧ Matches cmp good sought s sheet s' := by
  cases hsearch : (s.readers r).search with
  | some p => exact ⟨s, by rw [System.act, hsearch]; rfl, h.stay⟩
  | none =>
      obtain ⟨o, hstart, hreading⟩ := start_reading (h.writes.shared hc) hsub hop (h.placed r)
      cases o with
      | none =>
          refine ⟨s, ?_, h.stay⟩
          rw [System.act, hsearch]
          dsimp only
          rw [hstart]
          rfl
      | some search =>
          have hidle : sheet.asked r = none := by rw [h.asked_eq r, hsearch, Option.map_none]
          refine ⟨{ s.setReader r { s.readers r with search := some (op, search) } with
            history := s.history ++ [.called r op] }, ?_, _, _, rfl, .one (.called r op hidle),
            order, lane, h.setReader r { s.readers r with search := some (op, search) } _ ?_ rfl
              (h.placed r) ?_⟩
          · rw [System.act, hsearch]
            dsimp only
            rw [hstart]
            rfl
          · rw [← h.places_eq r, Function.update_eq_self]
          · intro op' search' heq
            obtain ⟨rfl, rfl⟩ := Prod.mk.inj (Option.some.inj heq)
            exact hreading search rfl

theorem Coherent.load (h : Coherent cmp good sought s sheet order lane) (hc : TotalPreorder cmp)
    (hcompare : ∀ a b, good a → sought b → compare a b = .ok (cmp a b)) (r : Nat) :
    ∃ s', s.act compare (.load r) = .ok s' ∧ Matches cmp good sought s sheet s' := by
  cases hsearch : (s.readers r).search with
  | none => exact ⟨s, by rw [System.act, hsearch]; rfl, h.stay⟩
  | some p =>
      obtain ⟨op, search⟩ := p
      have hshared := h.writes.shared hc
      obtain ⟨o, hload, hreads⟩ :=
        (h.reading r op search hsearch).load hshared hc hcompare (h.placed r)
      have hasked : sheet.asked r = some op := by rw [h.asked_eq r, hsearch, Option.map_some]
      cases hreads with
      | on search' hreading =>
          refine ⟨s.setReader r { s.readers r with search := some (op, search') }, ?_, ?_⟩
          · rw [System.act, hsearch]
            dsimp only
            rw [hload]
            rfl
          · refine ⟨sheet, [], (List.append_nil _).symm, .nil, order, lane, ?_⟩
            refine h.setReader r { s.readers r with search := some (op, search') } s.history ?_ ?_
              (h.placed r) ?_
            · rw [← h.places_eq r, Function.update_eq_self]
            · rw [Option.map_some, ← hasked, Function.update_eq_self]
            · intro op' search'' heq
              obtain ⟨rfl, rfl⟩ := Prod.mk.inj (Option.some.inj heq)
              exact hreading
      | done found loads hle hanswer hfound =>
          have hread := readPlace_eq hshared found hfound
          rw [← h.entries_eq, ← h.places_eq r] at hanswer
          rw [← h.entries_length] at hle
          have hstep : Sheet.Step cmp sheet _ _ := .returned r op loads hasked hle
          rw [hanswer] at hstep
          refine ⟨{ s.setReader r ⟨found, none⟩ with
            history := s.history ++ [.returned r op (found.map fun x => (x, s.list.keyOf x)) loads] },
            ?_, _, _, rfl, .one hstep, order, lane, ?_⟩
          · rw [System.act, hsearch]
            dsimp only
            rw [hload, ok_bind]
            dsimp only
            rw [hread]
            rfl
          · refine h.setReader r ⟨found, none⟩ _ ?_ rfl hfound (by simp)
            rw [Option.map_map]
            congr 1
            cases found <;> rfl

theorem Coherent.act (h : Coherent cmp good sought s sheet order lane) (hc : TotalPreorder cmp)
    (hsub : ∀ k, good k → sought k)
    (hcompare : ∀ a b, good a → sought b → compare a b = .ok (cmp a b)) (a : Act Key)
    (ha : a.Good good sought) : ∃ s', s.act compare a = .ok s' ∧ Matches cmp good sought s sheet s' := by
  cases a with
  | insert height key => exact h.insert hc hsub hcompare height key ha
  | store => exact h.store hc
  | call r op => exact h.call hc hsub r op ha
  | load r => exact h.load hc hcompare r

theorem initial_coherent (cmp : Key → Key → Int) (good sought : Key → Prop) :
    Coherent cmp good sought System.initial Sheet.initial [] fun level =>
      (empty : SkipList Key).tower level [] where
  writes := .idle [] (empty_represents cmp) (by simp)
  entries_eq := rfl
  writing_eq := rfl
  places_eq _ := rfl
  asked_eq _ := rfl
  placed _ := by simp [System.initial]
  reading _ := by simp [System.initial]

-- Every run shows on a sheet: nothing fails, and the records are steps of the sheet.
theorem run_replays (hc : TotalPreorder cmp) (hsub : ∀ k, good k → sought k)
    (hcompare : ∀ a b, good a → sought b → compare a b = .ok (cmp a b)) (acts : List (Act Key))
    (hacts : ∀ a ∈ acts, a.Good good sought) :
    ∃ s sheet, System.run compare acts = .ok s ∧
      Replays (Sheet.Step cmp) Sheet.initial s.history sheet ∧
      ∃ order lane, Coherent cmp good sought s sheet order lane :=
  foldlM_replays (System.act compare) System.history (Sheet.Step cmp)
    (fun s sheet => ∃ order lane, Coherent cmp good sought s sheet order lane) acts (by
      rintro s sheet ⟨order, lane, h⟩ a ha
      obtain ⟨s', hact, sheet', new, hhistory, hreplays, h'⟩ :=
        h.act hc hsub hcompare a (hacts a ha)
      exact ⟨s', sheet', new, hact, hhistory, hreplays, h'⟩)
    System.initial Sheet.initial ⟨[], _, initial_coherent cmp good sought⟩ rfl

theorem entries_first (l : SkipList Key) (order : List Nat) :
    (entries l order).map (fun e => e.1) = order := by
  rw [entries, List.map_map]
  exact List.map_id order

-- Between two insertions the list holds what the sheet holds.
theorem Coherent.represents (h : Coherent cmp good sought s sheet order lane)
    (hidle : s.writer.call = none) : Represents cmp s.list order := by
  have hwrites := h.writes
  generalize s.writer = w at hwrites hidle
  cases hwrites with
  | idle _ hrep _ => exact hrep
  | allocating => cases hidle
  | linking => cases hidle

section Ledger

-- The keys of the nodes that came into the list, in the order in which they came.
def Record.key? : Record Key → Option Key
  | .inserted _ key => some key
  | _ => none

def insertedKeys (history : List (Record Key)) : List Key := history.filterMap Record.key?

omit [Inhabited Key] in
theorem insertedKeys_concat (history : List (Record Key)) (r : Record Key) :
    insertedKeys (history ++ [r]) = insertedKeys history ++ r.key?.toList := by
  rw [insertedKeys, List.filterMap_append, List.filterMap_cons, List.filterMap_nil, insertedKeys]
  cases r.key? <;> rfl

-- The elements after a run of insertions.
def ledger (cmp : Key → Key → Int) (keys : List Key) : List (Nat × Key) :=
  keys.foldl (fun es key => Sheet.insert cmp es (es.length + 1) key) []

omit [Inhabited Key] in
theorem ledger_concat (cmp : Key → Key → Int) (keys : List Key) (key : Key) :
    ledger cmp (keys ++ [key]) =
      Sheet.insert cmp (ledger cmp keys) ((ledger cmp keys).length + 1) key := by
  rw [ledger, List.foldl_append]
  rfl

omit [Inhabited Key] in
-- What is on the sheet is told by the insertions.
theorem replays_entries {records : List (Record Key)}
    (h : Replays (Sheet.Step cmp) Sheet.initial records sheet) :
    sheet.entries = ledger cmp (insertedKeys records) := by
  induction h with
  | nil => rfl
  | snoc _ hstep ih =>
      rw [insertedKeys_concat]
      cases hstep with
      | inserted key _ => rw [Record.key?, Option.toList_some, ledger_concat, ← ih]
      | insertCalled key _ => simpa [Record.key?] using ih
      | insertReturned key _ => simpa [Record.key?] using ih
      | called r op _ => simpa [Record.key?] using ih
      | returned r op loads _ _ => simpa [Record.key?] using ih

omit [Inhabited Key] in
theorem mem_ledger (cmp : Key → Key → Int) (keys : List Key) (key : Key) (hkey : key ∈ keys) :
    ∃ e ∈ ledger cmp keys, e.2 = key := by
  induction keys using List.reverseRecOn with
  | nil => cases hkey
  | append_singleton keys last ih =>
      rw [ledger_concat]
      rcases List.mem_append.mp hkey with hkey | hkey
      · obtain ⟨e, he, rfl⟩ := ih hkey
        refine ⟨e, ?_, rfl⟩
        by_cases hless : cmp e.2 last < 0 <;> simp [Sheet.insert, he, hless]
      · exact ⟨_, List.mem_append_right _ (List.mem_cons_self ..), (List.mem_singleton.mp hkey).symm⟩

-- A list that was built without readers holds the same.
theorem insertAll_entries (hc : TotalPreorder cmp) (inserts : List (Nat × Key))
    (hheights : ∀ p ∈ inserts, 1 ≤ p.1 ∧ p.1 ≤ kMaxHeight)
    (hcompare : ∀ p ∈ inserts, ∀ q ∈ inserts, compare p.2 q.2 = .ok (cmp p.2 q.2))
    {l : SkipList Key} (hl : insertAll compare inserts = .ok l) (hrep : Represents cmp l order) :
    entries l order = ledger cmp (inserts.map fun p => p.2) := by
  induction inserts using List.reverseRecOn generalizing l order with
  | nil =>
      obtain rfl : empty = l := Except.ok.inj hl
      have hnil : order = [] := by
        have hlength := hrep.length_order
        exact List.length_eq_zero_iff.mp (by simpa [empty] using hlength)
      rw [hnil]
      rfl
  | append_singleton inserts p ih =>
      obtain ⟨hpos, hle⟩ := hheights p (by simp)
      have hheights₁ : ∀ p ∈ inserts, 1 ≤ p.1 ∧ p.1 ≤ kMaxHeight := fun q hq =>
        hheights q (List.mem_append_left _ hq)
      have hcompare₁ : ∀ p ∈ inserts, ∀ q ∈ inserts, compare p.2 q.2 = .ok (cmp p.2 q.2) :=
        fun q hq q' hq' => hcompare q (List.mem_append_left _ hq) q' (List.mem_append_left _ hq')
      obtain ⟨l₁, hl₁, hhist₁, order₁, hrep₁⟩ :=
        insertAll_represents compare cmp hc inserts hheights₁ hcompare₁
      have ha : Agrees compare cmp l₁ order₁ p.2 := by
        intro x hx
        obtain ⟨k, hk, hkey⟩ :=
          (hrep₁.exists_node_iff hhist₁ fun k => k = l₁.keyOf x).mp ⟨x, hx, rfl⟩
        obtain ⟨q, hq, rfl⟩ := List.mem_map.mp hk
        rw [← hkey]
        exact hcompare q (List.mem_append_left _ hq) p (by simp)
      obtain ⟨l', hinsert, hrep', hlen, hmax, hheight, hkey⟩ := hrep₁.insert hc p.2 p.1 hpos hle ha
      obtain rfl : l' = l := by
        rw [insertAll, List.foldlM_append] at hl
        rw [insertAll] at hl₁
        rw [hl₁] at hl
        simpa [hinsert] using hl
      have horder := hrep.order_unique hrep' hc (hhist₁.insert hlen hmax hheight hkey)
        (hhist₁.insert hlen hmax hheight hkey) rfl
      rw [horder, hrep₁.entries_insertOrder hkey, ih hheights₁ hcompare₁ hl₁ hrep₁,
        List.map_append, List.map_singleton, ledger_concat, ← ih hheights₁ hcompare₁ hl₁ hrep₁]
      simp [entries]

end Ledger

omit [Inhabited Key] in
-- A comparison that never fails may get any keys.
theorem acts_good (acts : List (Act Key))
    (hheights : ∀ height key, .insert height key ∈ acts → 1 ≤ height ∧ height ≤ kMaxHeight) :
    ∀ a ∈ acts, a.Good (fun _ => True) fun _ => True := by
  intro a ha
  cases a with
  | insert height key =>
      obtain ⟨hpos, hle⟩ := hheights height key ha
      exact ⟨hpos, hle, trivial⟩
  | store => trivial
  | call r op => cases op <;> trivial
  | load r => trivial

-- However the stores of one writer and the loads of its readers follow each other, no step
-- fails, and every call takes effect at one moment between its call and its return.
theorem run_linearizes (cmp : Key → Key → Int) (hc : TotalPreorder cmp) (acts : List (Act Key))
    (hheights : ∀ height key, .insert height key ∈ acts → 1 ≤ height ∧ height ≤ kMaxHeight) :
    ∃ s sheet, System.run (fun a b => .ok (cmp a b)) acts = .ok s ∧
      Replays (Sheet.Step cmp) Sheet.initial s.history sheet ∧
      (∀ r, (s.readers r).place = sheet.places r) ∧
      (s.writer.call = none → Represents cmp s.list (sheet.entries.map fun e => e.1) ∧
        sheet.entries = entries s.list (sheet.entries.map fun e => e.1)) := by
  obtain ⟨s, sheet, hrun, hreplays, order, lane, hcoherent⟩ :=
    run_replays hc (fun _ _ => trivial) (fun _ _ _ _ => rfl) acts (acts_good acts hheights)
  refine ⟨s, sheet, hrun, hreplays, fun r => (hcoherent.places_eq r).symm, fun hidle => ?_⟩
  rw [hcoherent.entries_eq, entries_first]
  exact ⟨hcoherent.represents hidle, rfl⟩

-- A reader seeks 4 while 4 is linked: on level 1 it passes by, and level 0 leads to the node
-- before the insertion returns.
def overlappingActs : List (Act Int) :=
  [.insert 1 3] ++ List.replicate 4 .store ++ [.insert 2 4, .store, .call 0 (.seek 4), .load 0,
    .store, .store, .load 0, .call 1 (.seek 4), .load 1, .load 0, .load 1, .load 1, .call 0 .next,
    .store, .store, .store, .load 0]

theorem run_linearizes_sample : ∃ s sheet,
    System.run (fun a b => .ok (a - b)) overlappingActs = .ok s ∧
      Replays (Sheet.Step fun a b => a - b) Sheet.initial s.history sheet ∧
      s.history = [.insertCalled 3, .inserted 1 3, .insertReturned, .insertCalled 4, .called 0 (.seek 4),
        .inserted 2 4, .called 1 (.seek 4), .returned 0 (.seek 4) (some (2, 4)) 3,
        .returned 1 (.seek 4) (some (2, 4)) 3, .called 0 .next, .insertReturned,
        .returned 0 .next none 1] := by
  obtain ⟨s, sheet, hrun, hreplays, -, -⟩ := run_linearizes (fun a b : Int => a - b)
    subtract_totalPreorder overlappingActs (by
      intro height key hmem
      have hcases : (height = 1 ∧ key = 3) ∨ (height = 2 ∧ key = 4) := by
        simpa [overlappingActs] using hmem
      have hmax : kMaxHeight = 12 := rfl
      omega)
  refine ⟨s, sheet, hrun, hreplays, ?_⟩
  have hhistory : System.history <$> System.run (fun a b : Int => .ok (a - b)) overlappingActs =
      .ok s.history := by rw [hrun]; rfl
  exact Except.ok.inj (hhistory.symm.trans rfl)

end Mylldb.SkipList

import Mylldb.DbFormat.Separators
import Mylldb.MemTable.Cursor
import Mylldb.Table.Reading

namespace Mylldb

open Lib.Run Lib.ThreeWay

-- The comparator object over bytewise user keys. The code asserts that a key has room for
-- a tag, and `internalOrder` is what it computes there.
def internalKeyComparator : Comparator where
  compare := internalOrder bytewiseComparator
  findShortestSeparator start limit :=
    match InternalKeyComparator.findShortestSeparator bytewiseComparator start limit with
    | .ok separator => separator
    | .error _ => start

theorem internalKeyComparator_totalPreorder : TotalPreorder internalKeyComparator.compare :=
  internalOrder_totalPreorder Slice.compare_totalOrder.toTotalPreorder

-- A key without room for a tag trips the assertion.
theorem findShortestSeparator_short {start limit : Bytes}
    (hshort : start.length < 8 ∨ limit.length < 8) :
    InternalKeyComparator.findShortestSeparator bytewiseComparator start limit =
      .error .assertion := by
  have hfails (key : Bytes) (hkey : key.length < 8) :
      extractUserKey key = .error .assertion := by
    rw [extractUserKey, assertThat_neg (Nat.not_le_of_lt hkey), error_bind]
  unfold InternalKeyComparator.findShortestSeparator
  by_cases hstart : start.length < 8
  · rw [hfails start hstart, error_bind]
  · rw [extractUserKey_eq start (Nat.le_of_not_lt hstart), ok_bind,
      hfails limit (hshort.resolve_left hstart), error_bind]

theorem internalKeyComparator_separates : internalKeyComparator.Separates := by
  intro start limit hlt
  have hsame : internalOrder bytewiseComparator start start = 0 :=
    internalKeyComparator_totalPreorder.refl start
  unfold internalKeyComparator at hlt ⊢
  dsimp only at hlt ⊢
  by_cases hshort : start.length < 8 ∨ limit.length < 8
  · rw [findShortestSeparator_short hshort]
    exact ⟨hsame.le, hlt⟩
  · obtain ⟨result, hrun, -, -, rfl | ⟨hbelow, habove⟩⟩ :=
      InternalKeyComparator.findShortestSeparator_cases start limit (by omega) (by omega)
    · rw [hrun]
      exact ⟨hsame.le, hlt⟩
    · rw [hrun]
      exact ⟨hbelow.le, habove⟩

namespace TableBuilder

-- Entries in increasing order may be added one after the other.
theorem legal_adds {cmp : Comparator} (last : Option Bytes) (entries : List (Bytes × Bytes))
    (hsorted : entries.Pairwise fun a b => cmp.compare a.1 b.1 < 0)
    (hswap : ∀ a b, cmp.compare a b < 0 → 0 < cmp.compare b a)
    (hlast : ∀ k ∈ last, ∀ e ∈ entries, cmp.compare k e.1 < 0) :
    Legal cmp last (entries.map (fun e => Call.add e.1 e.2) ++ [.finish]) := by
  induction entries generalizing last with
  | nil => rfl
  | cons e entries ih =>
      obtain ⟨he, hrest⟩ := List.pairwise_cons.mp hsorted
      refine ⟨fun k hk => hswap _ _ (hlast k hk e (List.mem_cons_self ..)), ih _ hrest ?_⟩
      intro k hk e' he'
      obtain rfl := Option.some.inj hk
      exact he e' he'

theorem entriesOf_adds (entries : List (Bytes × Bytes)) :
    entriesOf (entries.map fun e => Call.add e.1 e.2) = entries := by
  induction entries with
  | nil => rfl
  | cons e entries ih => exact congrArg (e :: ·) ih

theorem optionsInForce_adds (options : Options) (entries : List (Bytes × Bytes)) :
    optionsInForce options (entries.map fun e => Call.add e.1 e.2) = options := by
  induction entries with
  | nil => rfl
  | cons e entries ih => exact ih

end TableBuilder

-- What a client reads where the iterator stands.
def MemTableIterator.entry (m : MemTable) (it : MemTableIterator) : Exec (Bytes × Bytes) := do
  let key ← it.key m
  let value ← it.value m
  pure (key, value)

namespace MemTable

open TableBuilder MemTableIterator

-- A walk over the whole table reads the additions in the order of their keys.
theorem Holds.forward_eq {user : Comparator} {adds : List Added} {m : MemTable} {order : List Nat}
    (h : Holds user adds m order) (hu : TotalPreorder user.compare)
    (hdistinct : Distinct user adds) :
    (machine user m).forward .diverges (MemTableIterator.entry m) (adds.length + 1) ⟨⟨none⟩⟩ =
      .ok ((listing adds order).map Added.pair) := by
  have himplements := h.implements hu hdistinct
  have hlen : ((listing adds order).map Added.pair).length = order.length := by
    rw [List.length_map, h.length_listing order (List.Subset.refl order)]
  rw [← hlen] at himplements
  refine himplements.forward_eq .diverges ?_ (p := none) rfl ?_
  · intro it i hstands
    obtain ⟨-, e, he, hkey, hvalue⟩ := h.shows_of_standsIn it (some i) hstands
    refine ⟨e.pair, by rw [List.getElem?_map, he]; rfl, ?_⟩
    rw [MemTableIterator.entry, hkey, ok_bind, hvalue, ok_bind, pure_eq]
    rfl
  · rw [List.length_map, h.listing_perm_adds.length_eq]
    exact Nat.lt_succ_self _

-- The calls of `Add` that hand the entries on.
def dumpCalls (entries : List (Bytes × Bytes)) : List Call := entries.map fun e => .add e.1 e.2

-- What the iterator over a memtable shows may be added to a table builder in that order,
-- and the finished table gives back all of it.
theorem dumped_scan (adds : List Added) (hdistinct : Distinct bytewiseComparator adds)
    (env : Environment) (file : WritableFile) {options : Options} {r : TableBuilder}
    (hnew : TableBuilder.new env options = .ok r)
    (hcmp : env.comparator options.comparator = internalKeyComparator)
    (hone : ∀ key, internalKeyComparator.compare key
      (env.findShortestSeparator options.comparator key) ≤ 0)
    (hdecodes : env.getVarint64.Decodes) (hplain : Plain options.compression) :
    ∃ m entries, addAll bytewiseComparator adds = .ok m ∧
      (machine bytewiseComparator m).forward .diverges (MemTableIterator.entry m)
        (adds.length + 1) ⟨⟨none⟩⟩ = .ok entries ∧
      entries.Perm (adds.map Added.pair) ∧
      (entries.Pairwise fun a b => internalKeyComparator.compare a.1 b.1 < 0) ∧
      Legal internalKeyComparator none (dumpCalls entries ++ [.finish]) ∧
      ∃ r₁ r', r.run env file (dumpCalls entries) = .ok r₁ ∧
        r₁.finish env file = .ok (r', none) ∧
        (r'.log.AllOk → Reopens env options (dumpCalls entries) r'.log.contents r'.fileSize
          fun _ _ t => ∀ readOptions,
            t.scan env readOptions (·.forward) = .ok (.ok, entries) ∧
            t.scan env readOptions (·.backward) = .ok (.ok, entries.reverse) ∧
            ∀ e ∈ entries, t.search env internalKeyComparator readOptions e.1 =
              .ok (.ok, some e.2)) := by
  have hu := Slice.compare_totalOrder.toTotalPreorder
  obtain ⟨m, order, hm, h⟩ := addAll_holds bytewiseComparator hu adds
  have hsorted : ((listing adds order).map Added.pair).Pairwise fun a b =>
      internalKeyComparator.compare a.1 b.1 < 0 :=
    List.pairwise_map.mpr (h.listing_ascends hu hdistinct)
  have hperm := h.listing_perm_adds.map Added.pair
  have hforward := h.forward_eq hu hdistinct
  generalize (listing adds order).map Added.pair = entries at hsorted hperm hforward
  have hpre := internalKeyComparator_totalPreorder
  have hlegal : Legal internalKeyComparator none (dumpCalls entries ++ [.finish]) :=
    legal_adds none entries hsorted (fun a b => (hpre.swap a b).mp) (by simp)
  refine ⟨m, entries, hm, hforward, hperm, hsorted, hlegal, ?_⟩
  have hsep := internalKeyComparator_separates
  rw [← hcmp] at hone hpre hlegal hsep
  have hinForce (before : List Call) (hbefore : before <+: dumpCalls entries) :
      Plain (optionsInForce options before).compression :=
    plain_inForce hplain (by simp [dumpCalls]) hbefore
  apply finished_reopens env file hnew hpre hsep hone hdecodes (dumpCalls entries) hlegal hinForce
  · rw [dumpCalls, optionsInForce_adds]
    exact id
  · intro contents blocks openOptions t _ hreadable readOptions
    have hentries : entriesOf (dumpCalls entries) = entries := entriesOf_adds entries
    rw [hentries] at hreadable
    refine ⟨hreadable.scan_forward hdecodes readOptions,
      hreadable.scan_backward hdecodes readOptions, fun e he => ?_⟩
    rw [hcmp] at hreadable
    rw [hreadable.search_eq hdecodes readOptions internalKeyComparator_totalPreorder,
      Lib.SparseIndex.find_self internalKeyComparator_totalPreorder hsorted he]
    rfl

def dumpEnvironment : Environment :=
  { filterEnvironment with comparator := fun _ => internalKeyComparator }

theorem dumped_scan_sample : ∃ m entries r r₁ r' bytes t,
    addAll bytewiseComparator sampleAdds = .ok m ∧
      TableBuilder.new dumpEnvironment filterOptions = .ok r ∧
        r.run dumpEnvironment reliable (dumpCalls entries) = .ok r₁ ∧
          r₁.finish dumpEnvironment reliable = .ok (r', none) ∧
          Table.openTable dumpEnvironment filterOptions (.ofContents (r'.log.contents ++ bytes))
            (r'.fileSize + Footer.kEncodedLength) = .ok (.ok, some t) ∧
          t.scan dumpEnvironment ⟨true⟩ (·.forward) = .ok (.ok, entries) := by
  obtain ⟨r, hnew⟩ : ∃ r, TableBuilder.new dumpEnvironment filterOptions = .ok r := ⟨_, rfl⟩
  obtain ⟨m, entries, hm, hforward, -, -, -, r₁, r', hrun, hfinish, hreopens⟩ :=
    dumped_scan sampleAdds (by unfold Distinct; decide) dumpEnvironment reliable hnew rfl
      (fun key => (internalKeyComparator_totalPreorder.refl key).le) decode_decodes rfl
  have hchecked : (addAll bytewiseComparator sampleAdds >>= fun m =>
      (machine bytewiseComparator m).forward .diverges (MemTableIterator.entry m)
        (sampleAdds.length + 1) ⟨⟨none⟩⟩ >>= fun entries =>
          TableBuilder.new dumpEnvironment filterOptions >>= fun r =>
            r.run dumpEnvironment reliable (dumpCalls entries) >>= fun r₁ =>
              (r₁.finish dumpEnvironment reliable).map fun f =>
                decide (f.1.log.AllOk ∧ f.1.log.contents.length < 2 ^ 32)) = .ok true := by
    decide +kernel
  rw [hm, ok_bind, hforward, ok_bind, hnew, ok_bind, hrun, ok_bind, hfinish] at hchecked
  obtain ⟨hall, hsize⟩ := of_decide_eq_true (Except.ok.inj hchecked)
  obtain ⟨bytes, -, t, hopen, ht⟩ := (hreopens hall).opens hsize filterOptions
  exact ⟨m, entries, r, r₁, r', bytes, t, hm, hnew, hrun, hfinish, hopen, (ht ⟨true⟩).1⟩

end MemTable

end Mylldb

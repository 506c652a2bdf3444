import Mylldb.Table.Ownership
import Mylldb.Table.Tolerance

namespace Mylldb

open Lib.Ownership Lib.Run Owning

variable {place : Placement Object} {before heap : Objects} {more : List (Nat × Object)}
  {file : RandomAccessFile} {handle : BlockHandle} {p : Nat} {data : Option Nat}

@[simp] theorem touch_ok {α : Type} (a : α) : touch (.ok a) = .ok a := rfl

-- The block is read, and its type says that it is compressed.
structure Compressed (file : RandomAccessFile) (handle : BlockHandle) : Prop where
  status : (blockRead file handle).status = .ok
  type : (blockRead file handle).contents[handle.size]? =
    some CompressionType.kSnappyCompression.toByte

-- Buffers that nothing points to any more.
def buffers (lost : List (Nat × BlockHandle)) : List (Nat × Object) :=
  lost.map fun l => (l.1, .chars l.2)

-- The buffer in which the data of a block lies.
def held (handle : BlockHandle) (data : Option Nat) : List (Nat × Object) :=
  data.toList.map (·, .chars handle)

-- What `ReadBlock` leaves: the buffer with the data in it, or the buffer of a compressed
-- block, which is lost.
structure BlockLeft (before : Objects) (more : List (Nat × Object)) (file : RandomAccessFile)
    (handle : BlockHandle) (o : Status × BlockContents) (o' : Objects × Status × BlockContents × Option Nat)
    (lost : List (Nat × BlockHandle)) : Prop where
  same : (o'.2.1, o'.2.2.1) = o
  heap : Extends before o'.1 (held handle o'.2.2.2 ++ buffers lost ++ more)
  owned : o.2.heapAllocated = o'.2.2.2.isSome
  failed : o.1 ≠ .ok → o'.2.2.2 = none ∧ lost = []
  lost : ∀ l ∈ lost, Compressed file l.2

theorem readBlockIn_follows (place : Placement Object) (h : Extends before heap more)
    (file : RandomAccessFile) (options : ReadOptions) (handle : BlockHandle) :
    Follows (readBlock file options handle) (readBlockIn place heap file options handle)
      fun o o' => ∃ lost, BlockLeft before more file handle o o' lost := by
  have hnew := h.new place (.chars handle)
  obtain ⟨heap', hdelete, hback⟩ := hnew.delete
  -- the buffer is given back
  have hgone (s : Status) (contents : BlockContents) (hcontents : contents.heapAllocated = false) :
      BlockLeft before more file handle (s, contents) (heap', s, contents, none) [] :=
    ⟨rfl, hback, hcontents, fun _ => ⟨rfl, rfl⟩, nofun⟩
  rw [readBlock_eq]
  unfold readBlockIn
  dsimp only
  rw [← blockRead]
  by_cases hstatus : (blockRead file handle).status = .ok
  · rw [if_neg (not_not_intro hstatus), if_neg (not_not_intro hstatus)]
    by_cases hlength : (blockRead file handle).contents.length = (handle.size + kBlockTrailerSize) % 2 ^ 64
    · rw [if_neg (not_not_intro hlength), if_neg (not_not_intro hlength)]
      refine .bind_lift fun intact _ => ?_
      cases intact with
      | false =>
          rw [if_neg (by decide), if_neg (by decide), hdelete]
          exact .ok ⟨[], hgone _ _ rfl⟩
      | true =>
          rw [if_pos rfl, if_pos rfl, typedContents]
          refine .bind_lift fun type htype => ?_
          have hget : (blockRead file handle).contents[handle.size]? = some type := by
            unfold readByte at htype
            split at htype
            · cases htype
            · rename_i b hb
              rw [hb, Except.ok.inj htype]
          split
          · split
            · rename_i hscratch
              rw [hscratch]
              exact .ok ⟨[], rfl, hnew, rfl, fun hs => absurd rfl hs, nofun⟩
            · rename_i hscratch
              rw [Bool.not_eq_true] at hscratch
              rw [hscratch, hdelete]
              exact .ok ⟨[], hgone _ _ rfl⟩
          · split
            · rename_i hsnappy
              exact .ok ⟨[((heap.new place (.chars handle)).2, handle)], rfl, hnew, rfl,
                fun hs => absurd rfl hs, by simpa using ⟨hstatus, hsnappy ▸ hget⟩⟩
            · rw [hdelete]
              exact .ok ⟨[], hgone _ _ rfl⟩
    · rw [if_pos hlength, if_pos hlength, hdelete]
      exact .ok ⟨[], hgone _ _ rfl⟩
  · rw [if_pos hstatus, if_pos hstatus, hdelete]
    exact .ok ⟨[], hgone _ _ rfl⟩

theorem touch_release (h : Extends before heap (held handle data ++ more)) :
    ∃ heap', touch (heap.release data) = .ok heap' ∧ Extends before heap' more := by
  cases data with
  | none => exact ⟨heap, rfl, h⟩
  | some d =>
      obtain ⟨heap', hdelete, h⟩ := Extends.delete (p := d) h
      exact ⟨heap', by rw [Heap.release, hdelete]; rfl, h⟩

theorem deleteBlock_ok (h : Extends before heap ((p, .block data data.isSome) :: (held handle data ++ more))) :
    ∃ heap', deleteBlock heap p = .ok heap' ∧ Extends before heap' more := by
  have hload := h.load
  have hdata : Extends before heap (held handle data ++ (p, .block data data.isSome) :: more) :=
    h.perm (by grind)
  obtain ⟨heap₁, hrelease, h₁⟩ := touch_release hdata
  obtain ⟨heap', hdelete, h'⟩ := h₁.delete
  refine ⟨heap', ?_, h'⟩
  have hdestroyed : touch (if data.isSome then heap.release data else .ok heap) = .ok heap₁ := by
    cases data with
    | none => exact hrelease
    | some d => exact hrelease
  rw [deleteBlock, hload, touch_ok, ok_bind]
  dsimp only
  rw [hdestroyed, ok_bind, hdelete]
  rfl

namespace Table

variable {env : Environment} {rep : Nat} {indexBlock : Option Nat}

-- The objects that a table answers for: those of the filter, beside the index block.
def filterObjects (filter filterData : Option Nat) (handle : BlockHandle) : List (Nat × Object) :=
  filter.toList.map (·, .filterBlockBuilder) ++ held handle filterData

-- The representation of a table, with its filter, besides `more` and what was lost.
def RepLeft (before heap : Objects) (more : List (Nat × Object)) (file : RandomAccessFile) (rep : Nat)
    (indexBlock : Option Nat) : Prop :=
  ∃ filter filterData filterHandle lost, (∀ l ∈ lost, Compressed file l.2) ∧
    Extends before heap ((rep, .rep filter filterData indexBlock) ::
      (filterObjects filter filterData filterHandle ++ buffers lost ++ more))

theorem RepLeft.bare (h : Extends before heap ((rep, .rep none none indexBlock) :: more)) :
    RepLeft before heap more file rep indexBlock :=
  ⟨none, none, ⟨0, 0⟩, [], nofun, h⟩

theorem RepLeft.perm {more' : List (Nat × Object)} (h : RepLeft before heap more file rep indexBlock)
    (hperm : more.Perm more') : RepLeft before heap more' file rep indexBlock := by
  obtain ⟨filter, filterData, filterHandle, lost, hlost, h⟩ := h
  exact ⟨filter, filterData, filterHandle, lost, hlost, h.perm ((hperm.append_left _).cons _)⟩

theorem RepLeft.cut {lost : List (Nat × BlockHandle)} (hlost : ∀ l ∈ lost, Compressed file l.2)
    (h : RepLeft before heap (buffers lost ++ more) file rep indexBlock) :
    RepLeft before heap more file rep indexBlock := by
  obtain ⟨filter, filterData, filterHandle, lost', hlost', h⟩ := h
  refine ⟨filter, filterData, filterHandle, lost' ++ lost, fun l hl => ?_, h.perm ?_⟩
  · rcases List.mem_append.mp hl with hl | hl
    · exact hlost' l hl
    · exact hlost l hl
  · rw [buffers, buffers, buffers, List.map_append]
    grind

theorem RepLeft.delete {b : Object} (h : RepLeft before heap ((p, b) :: more) file rep indexBlock) :
    ∃ heap', heap.delete p = .ok heap' ∧ RepLeft before heap' more file rep indexBlock := by
  obtain ⟨filter, filterData, filterHandle, lost, hlost, h⟩ := h
  have hfront : Extends before heap ((p, b) :: (rep, .rep filter filterData indexBlock) ::
      (filterObjects filter filterData filterHandle ++ buffers lost ++ more)) := h.perm (by grind)
  obtain ⟨heap', hdelete, h'⟩ := hfront.delete
  exact ⟨heap', hdelete, filter, filterData, filterHandle, lost, hlost, h'⟩

theorem RepLeft.deleteBlock
    (h : RepLeft before heap ((p, .block data data.isSome) :: (held handle data ++ more)) file rep
      indexBlock) :
    ∃ heap', Mylldb.deleteBlock heap p = .ok heap' ∧ RepLeft before heap' more file rep indexBlock := by
  obtain ⟨filter, filterData, filterHandle, lost, hlost, h⟩ := h
  have hfront : Extends before heap ((p, .block data data.isSome) :: (held handle data ++
      (rep, .rep filter filterData indexBlock) ::
        (filterObjects filter filterData filterHandle ++ buffers lost ++ more))) := h.perm (by grind)
  obtain ⟨heap', hdelete, h'⟩ := deleteBlock_ok hfront
  exact ⟨heap', hdelete, filter, filterData, filterHandle, lost, hlost, h'⟩

theorem readFilterIn_follows (place : Placement Object) (env : Environment) (t : Table)
    (policy : Nat) (value : Bytes) (h : Extends before heap ((rep, .rep none none indexBlock) :: more)) :
    Follows (t.readFilter env policy value) (t.readFilterIn place env heap rep policy value)
      fun t' o' => o'.2 = t' ∧ SameButFilter t t' ∧ RepLeft before o'.1 more t.file rep indexBlock := by
  unfold readFilter readFilterIn
  generalize env.blockHandle.decodeFrom env.getVarint64 value = decoded
  obtain ⟨decodeStatus, filterHandle, rest⟩ := decoded
  dsimp only
  split
  · exact .ok ⟨rfl, .refl t, .bare h⟩
  · refine (readBlockIn_follows place h t.file _ _).bind ?_
    rintro ⟨s, block⟩ ⟨heap₁, s', block', data⟩ ⟨lost, hleft⟩
    obtain ⟨rfl, rfl⟩ := Prod.mk.inj hleft.same
    dsimp only
    split
    · rename_i hs
      obtain ⟨hnone, hlost⟩ := hleft.failed hs
      have hheap := hleft.heap
      rw [hnone, hlost] at hheap
      exact .ok ⟨rfl, .refl t, .bare hheap⟩
    · have hheap : Extends before heap₁
          ((rep, .rep none none indexBlock) :: (held filterHandle data ++ buffers lost ++ more)) :=
        hleft.heap.perm (by grind)
      have hdata : (if block'.heapAllocated then data else none) = data := by
        rw [hleft.owned]
        cases data <;> rfl
      have hnew : Extends before (heap₁.new place .filterBlockBuilder).1
          ((rep, .rep none none indexBlock) :: ((heap₁.new place .filterBlockBuilder).2,
            .filterBlockBuilder) :: (held filterHandle data ++ buffers lost ++ more)) :=
        (hheap.new place .filterBlockBuilder).perm (by grind)
      obtain ⟨heap₂, hstore, hstored⟩ :=
        hnew.store (.rep (some (heap₁.new place .filterBlockBuilder).2) data indexBlock)
      rw [hheap.load, touch_ok, ok_bind]
      dsimp only
      rw [hdata, hstore, touch_ok, ok_bind]
      exact .ok ⟨rfl, rfl, _, _, _, lost, hleft.lost, hstored⟩

theorem readFoundIn_follows (place : Placement Object) (env : Environment) (t : Table) (policy : Nat)
    (key : Bytes) (iter : Block.BlockIterator)
    (h : Extends before heap ((rep, .rep none none indexBlock) :: more)) :
    Follows (if iter.valid then do
        let found ← iter.key
        if found = key then do
          let filterHandleValue ← iter.value
          t.readFilter env policy filterHandleValue
        else pure t
      else pure t) (t.readFoundIn place env heap rep policy key iter)
      fun t' o' => o'.2 = t' ∧ SameButFilter t t' ∧ RepLeft before o'.1 more t.file rep indexBlock := by
  unfold readFoundIn
  split
  · refine .bind_lift fun found _ => ?_
    split
    · exact .bind_lift fun value _ => readFilterIn_follows place env t policy value h
    · exact .ok ⟨rfl, .refl t, .bare h⟩
  · exact .ok ⟨rfl, .refl t, .bare h⟩

-- `ReadMeta` gets as far as the search in the metaindex block.
def SearchesMeta (t : Table) : Prop :=
  t.options.filterPolicy.isSome = true ∧
    ∃ contents, readBlock t.file (readOptions t.options) t.metaindexHandle = .ok (.ok, contents)

-- The search takes a comparator that is made for it and stays.
inductive Comparators (t : Table) : List (Nat × Object) → Prop where
  | none (h : ¬t.SearchesMeta) : Comparators t []
  | one (h : t.SearchesMeta) (p : Nat) : Comparators t [(p, .bytewiseComparatorImpl)]

theorem SameButFilter.searchesMeta {t t' : Table} (h : SameButFilter t t') :
    t'.SearchesMeta ↔ t.SearchesMeta := by
  rw [h]
  rfl

theorem Comparators.same {t t' : Table} {comparators : List (Nat × Object)}
    (h : Comparators t comparators) (hsame : SameButFilter t t') : Comparators t' comparators := by
  cases h with
  | none h => exact .none (hsame.searchesMeta.not.mpr h)
  | one h p => exact .one (hsame.searchesMeta.mpr h) p

theorem readMetaIn_follows (place : Placement Object) (env : Environment) (t : Table) (footer : Footer)
    (hmetaindex : t.metaindexHandle = footer.metaindexHandle)
    (h : Extends before heap ((rep, .rep none none indexBlock) :: more)) :
    Follows (t.readMeta env footer) (t.readMetaIn place env heap rep footer)
      fun t' o' => o'.2 = t' ∧ ∃ comparators, Comparators t' comparators ∧
        RepLeft before o'.1 (comparators ++ more) t.file rep indexBlock := by
  unfold readMeta readMetaIn
  cases hpolicy : t.options.filterPolicy with
  | none =>
      refine .ok ⟨rfl, [], .none fun hsearches => ?_, .bare h⟩
      rw [SearchesMeta, hpolicy] at hsearches
      cases hsearches.1
  | some policy =>
      dsimp only
      refine (readBlockIn_follows place h t.file _ _).self.bind ?_
      rintro ⟨s, contents⟩ ⟨heap₁, s', contents', data⟩ ⟨hread, lost, hleft⟩
      obtain ⟨rfl, rfl⟩ := Prod.mk.inj hleft.same
      rw [← hmetaindex] at hread
      dsimp only
      split
      · rename_i hs
        obtain ⟨hnone, hlost⟩ := hleft.failed hs
        have hheap := hleft.heap
        rw [hnone, hlost] at hheap
        refine .ok ⟨rfl, [], .none ?_, .bare hheap⟩
        rintro ⟨-, contents, hok⟩
        rw [hread] at hok
        exact hs (congrArg Prod.fst (Except.ok.inj hok))
      · rename_i hs
        have hsearches : t.SearchesMeta := by
          refine ⟨by rw [hpolicy]; rfl, contents', ?_⟩
          rw [hread, not_not.mp hs]
        refine .bind_lift fun metaBlock _ => .bind_lift fun iter _ => .bind_lift fun iter _ => ?_
        have howned : contents'.heapAllocated = data.isSome := hleft.owned
        rw [howned]
        -- the block and its iterator are there until the filter is read
        have hmeta := hleft.heap.new place (.block data data.isSome)
        have hcomparator := hmeta.new place .bytewiseComparatorImpl
        have hiter := hcomparator.new place .iterator
        generalize heap₁.new place (.block data data.isSome) = made at hmeta hcomparator hiter ⊢
        obtain ⟨heap₂, metaPtr⟩ := made
        dsimp only at hmeta hcomparator hiter ⊢
        generalize heap₂.new place .bytewiseComparatorImpl = made at hcomparator hiter ⊢
        obtain ⟨heap₃, comparatorPtr⟩ := made
        dsimp only at hcomparator hiter ⊢
        generalize heap₃.new place .iterator = made at hiter ⊢
        obtain ⟨heap₄, iterPtr⟩ := made
        dsimp only at hiter ⊢
        have hfront : Extends before heap₄ ((rep, .rep none none indexBlock) :: (iterPtr, .iterator) ::
            (metaPtr, .block data data.isSome) :: (held t.metaindexHandle data ++
              (buffers lost ++ (comparatorPtr, .bytewiseComparatorImpl) :: more))) := by
          rw [hmetaindex]
          exact hiter.perm (by grind)
        refine (readFoundIn_follows place env t policy _ iter hfront).after ?_
        rintro t' ⟨heap₅, t''⟩ ⟨rfl, hsame, hrep⟩
        obtain ⟨heap₆, hdelete, hrep⟩ := hrep.delete
        obtain ⟨heap₇, hblock, hrep⟩ := hrep.deleteBlock
        refine ⟨(heap₇, t''), ?_, rfl, _, (Comparators.one hsearches comparatorPtr).same hsame,
          hrep.cut hleft.lost⟩
        dsimp only
        rw [hdelete, touch_ok, ok_bind, hblock]
        rfl

-- A table gives back its filter, its index block and itself.
theorem delete_ok {table idx : Nat} (h : RepLeft before heap
      ((table, .table rep) :: (idx, .block data data.isSome) :: (held handle data ++ more)) file rep
        (some idx)) :
    ∃ heap' lost, Table.delete heap table = .ok heap' ∧ (∀ l ∈ lost, Compressed file l.2) ∧
      Extends before heap' (buffers lost ++ more) := by
  obtain ⟨filter, filterData, filterHandle, lost, hlost, h⟩ := h
  have htable := Heap.load_eq (h.find (p := table) (b := .table rep) (by simp))
  have hrep : Extends before heap ((rep, .rep filter filterData (some idx)) ::
      (filterObjects filter filterData filterHandle ++ (idx, .block data data.isSome) ::
        (held handle data ++ (table, .table rep) :: (buffers lost ++ more)))) :=
    h.perm (by grind)
  have hload := hrep.load
  have hfilter : ∃ heap₁, touch (heap.release filter) = .ok heap₁ ∧ Extends before heap₁
      (held filterHandle filterData ++ (rep, .rep filter filterData (some idx)) ::
        (idx, .block data data.isSome) ::
          (held handle data ++ (table, .table rep) :: (buffers lost ++ more))) := by
    cases filter with
    | none => exact ⟨heap, rfl, hrep.perm (by simp [filterObjects]; grind)⟩
    | some builder =>
        have hfront : Extends before heap ((builder, .filterBlockBuilder) ::
            (held filterHandle filterData ++ (rep, .rep (some builder) filterData (some idx)) ::
              (idx, .block data data.isSome) ::
                (held handle data ++ (table, .table rep) :: (buffers lost ++ more)))) :=
          hrep.perm (by simp [filterObjects]; grind)
        obtain ⟨heap₁, hdelete, h₁⟩ := hfront.delete
        exact ⟨heap₁, by rw [Heap.release, hdelete]; rfl, h₁⟩
  obtain ⟨heap₁, hrelease₁, h₁⟩ := hfilter
  obtain ⟨heap₂, hrelease₂, h₂⟩ := touch_release h₁
  have hblock : Extends before heap₂ ((idx, .block data data.isSome) :: (held handle data ++
      (rep, .rep filter filterData (some idx)) :: (table, .table rep) :: (buffers lost ++ more))) :=
    h₂.perm (by grind)
  obtain ⟨heap₃, hdelete₃, h₃⟩ := deleteBlock_ok hblock
  obtain ⟨heap₄, hdelete₄, h₄⟩ := h₃.delete
  obtain ⟨heap₅, hdelete₅, h₅⟩ := h₄.delete
  refine ⟨heap₅, lost, ?_, hlost, h₅⟩
  have hdeleteRep : deleteRep heap rep = .ok heap₄ := by
    rw [deleteRep, hload, touch_ok, ok_bind]
    dsimp only
    rw [hrelease₁, ok_bind, hrelease₂, ok_bind, hdelete₃, ok_bind, hdelete₄]
    rfl
  rw [Table.delete, htable, touch_ok, ok_bind]
  dsimp only
  rw [hdeleteRep, ok_bind, hdelete₅]
  rfl

-- `Open` and the destructor of the table use nothing after it was deleted, delete nothing
-- twice and give back all that they made, on an error at once, but for the buffers of
-- compressed blocks and a comparator.
theorem open_cleans (place : Placement Object) (env : Environment) (heap : Objects) (options : Options)
    (file : RandomAccessFile) (size : Nat) :
    Follows (openTable env options file size) (openIn place env heap options file size) fun o o' =>
      (o'.2.1, o'.2.2.map Prod.fst) = o ∧
        match o'.2.2 with
        | none => Extends heap o'.1 []
        | some (t, table) => ∃ heap' lost comparators, Table.delete o'.1 table = .ok heap' ∧
            (∀ l ∈ lost, Compressed file l.2) ∧ Comparators t comparators ∧
              Extends heap heap' (buffers lost ++ comparators) := by
  have hrefl := Extends.refl heap
  unfold openTable openIn
  split
  · exact .ok ⟨rfl, hrefl⟩
  · dsimp only
    split
    · exact .ok ⟨rfl, hrefl⟩
    · refine .bind_lift fun decoded _ => ?_
      obtain ⟨s, footer, rest⟩ := decoded
      dsimp only
      split
      · exact .ok ⟨rfl, hrefl⟩
      · refine (readBlockIn_follows place hrefl file _ _).bind ?_
        rintro ⟨s, contents⟩ ⟨heap₁, s', contents', data⟩ ⟨lost, hleft⟩
        obtain ⟨rfl, rfl⟩ := Prod.mk.inj hleft.same
        dsimp only
        split
        · refine .bind_lift fun indexBlock _ => ?_
          have howned : contents'.heapAllocated = data.isSome := hleft.owned
          rw [howned]
          have hindex := hleft.heap.new place (.block data data.isSome)
          generalize heap₁.new place (.block data data.isSome) = made at hindex ⊢
          obtain ⟨heap₂, idx⟩ := made
          dsimp only at hindex ⊢
          have hrep := hindex.new place (.rep none none (some idx))
          generalize heap₂.new place (.rep none none (some idx)) = made at hrep ⊢
          obtain ⟨heap₃, rep⟩ := made
          dsimp only at hrep ⊢
          have htable := hrep.new place (.table rep)
          generalize heap₃.new place (.table rep) = made at htable ⊢
          obtain ⟨heap₄, table⟩ := made
          dsimp only at htable ⊢
          have hfront : Extends heap heap₄ ((rep, .rep none none (some idx)) :: (table, .table rep) ::
              (idx, .block data data.isSome) :: (held footer.indexHandle data ++ buffers lost)) :=
            htable.perm (by grind)
          refine (readMetaIn_follows place env _ footer rfl hfront).bind ?_
          rintro t' ⟨heap₅, t''⟩ ⟨rfl, comparators, hcomparators, hmeta⟩
          have hback : RepLeft heap heap₅ ((table, .table rep) :: (idx, .block data data.isSome) ::
              (held footer.indexHandle data ++ (buffers lost ++ comparators))) file rep (some idx) :=
            hmeta.perm (by grind)
          obtain ⟨heap₆, lost', hdelete, hlost', h₆⟩ := delete_ok hback
          refine .ok ⟨rfl, heap₆, lost' ++ lost, comparators, hdelete, fun l hl => ?_, hcomparators, ?_⟩
          · rcases List.mem_append.mp hl with hl | hl
            · exact hlost' l hl
            · exact hleft.lost l hl
          · rwa [buffers, List.map_append, List.append_assoc]
        · rename_i hs
          obtain ⟨hnone, hlost⟩ := hleft.failed hs
          have hheap := hleft.heap
          rw [hnone, hlost] at hheap
          exact .ok ⟨rfl, hheap⟩

-- The index block and the metaindex block are one empty block that says it is compressed.
def compressedContents : Bytes := 1 :: List.replicate 4 0 ++ Footer.encoded ⟨⟨0, 0⟩, ⟨0, 0⟩⟩

theorem open_cleans_sample : ∃ heap t table heap' lost comparators,
    openIn (.above Object) TableBuilder.filterEnvironment .empty TableBuilder.filterOptions
        (.ofContents compressedContents) compressedContents.length =
      .ok (heap, .ok, some (t, table)) ∧
    Table.delete heap table = .ok heap' ∧
      (∀ l ∈ lost, Compressed (.ofContents compressedContents) l.2) ∧ Comparators t comparators ∧
        Extends .empty heap' (buffers lost ++ comparators) := by
  have hopen : (openTable TableBuilder.filterEnvironment TableBuilder.filterOptions
      (.ofContents compressedContents) compressedContents.length >>= fun o =>
        .ok (o.1, o.2.isSome)) = .ok (.ok, true) := by
    decide +kernel
  have hcleans := open_cleans (.above Object) TableBuilder.filterEnvironment .empty
    TableBuilder.filterOptions (.ofContents compressedContents) compressedContents.length
  obtain ⟨o, ho, hopened⟩ := bind_eq_ok.mp hopen
  obtain ⟨hs, hsome⟩ := Prod.mk.inj (Except.ok.inj hopened)
  rw [ho] at hcleans
  obtain ⟨⟨heap, s, opened⟩, ho', rfl, hleft⟩ := hcleans
  cases opened with
  | none => cases hsome
  | some opened =>
      obtain ⟨heap', lost, comparators, hdelete, hlost, hcomparators, hextends⟩ := hleft
      obtain rfl : s = .ok := hs
      exact ⟨heap, opened.1, opened.2, heap', lost, comparators, ho', hdelete, hlost,
        hcomparators, hextends⟩

end Table

end Mylldb

import Mylldb.Table.Footer

namespace Mylldb

open Lib.Run

-- The magic number is told by the one byte of it that is looked at here.
theorem Footer.magicBytes_ne (input : Bytes) (b : UInt8) (hb : input[43]? = some b)
    (hmagic : b ≠ 0x8b) : magicBytes input ≠ encodeFixed64 kTableMagicNumber := by
  intro heq
  have hplace : kEncodedLength - 8 = 40 := rfl
  have hget : (magicBytes input)[3]? = some b := by
    rw [magicBytes, hplace, List.getElem?_take_of_lt (by decide), List.getElem?_drop, hb]
  have hbyte : (encodeFixed64 kTableMagicNumber)[3]? = some 0x8b := by decide +kernel
  rw [heq, hbyte] at hget
  exact hmagic (Option.some.inj hget).symm

namespace Table

variable (env : Environment) (options : Options) (file : RandomAccessFile)

-- What `Open` says to a file that ends in a block.
def refusal (size : Nat) : Status :=
  if size < Footer.kEncodedLength then Status.corruption "file is too short to be an sstable" ""
  else Status.corruption "not an sstable (bad magic number)" ""

-- Five bytes before the end of a block with its trailer is the type byte, where the
-- footer has a byte of the magic number.
theorem openTable_block (before data : Bytes) (type : CompressionType)
    (hserves : file.Serves (before ++ (data ++ trailer data type))) :
    openTable env options file (before ++ (data ++ trailer data type)).length =
      .ok (refusal (before ++ (data ++ trailer data type)).length, none) := by
  have htype : (before ++ (data ++ trailer data type))[
      (before ++ (data ++ trailer data type)).length - 5]? = some type.toByte := by
    rw [← List.append_assoc, List.length_append, trailer_length, Nat.add_sub_cancel,
      List.getElem?_append_right (Nat.le_refl _), Nat.sub_self]
    rfl
  generalize before ++ (data ++ trailer data type) = contents at hserves htype ⊢
  unfold openTable refusal
  by_cases hshort : contents.length < Footer.kEncodedLength
  · rw [if_pos hshort, if_pos hshort, pure_eq]
  · have hlen : Footer.kEncodedLength ≤ contents.length := Nat.le_of_not_lt hshort
    have hread := hserves (contents.length - Footer.kEncodedLength) Footer.kEncodedLength (by
      rw [Nat.sub_add_cancel hlen])
    have hfull : (contents.drop (contents.length - Footer.kEncodedLength)).take
        Footer.kEncodedLength = contents.drop (contents.length - Footer.kEncodedLength) := by
      apply List.take_of_length_le
      rw [List.length_drop, Nat.sub_sub_self hlen]
    rw [hfull] at hread
    have hbyte : (contents.drop (contents.length - Footer.kEncodedLength))[43]? =
        some type.toByte := by
      rw [List.getElem?_drop, ← htype]
      congr 1
      dsimp only [Footer.kEncodedLength, BlockHandle.kMaxEncodedLength] at hlen ⊢
      omega
    have hfooter := Footer.decodeFrom_badMagic env.getVarint64 ⟨env.blockHandle, env.blockHandle⟩
      (contents.drop (contents.length - Footer.kEncodedLength))
      (by rw [List.length_drop, Nat.sub_sub_self hlen])
      (Footer.magicBytes_ne _ _ hbyte (by cases type <;> decide))
    rw [if_neg hshort, if_neg hshort]
    dsimp only
    rw [if_neg (not_not.mpr hread.1), hread.2, hfooter, ok_bind]
    dsimp only
    rw [if_pos (by decide), pure_eq]

end Table

namespace TableBuilder

variable {env : Environment} {r r' : TableBuilder}

theorem Finishes.ends_in_block (h : Finishes env r r') (hexact : Exact r) (hall : r'.log.AllOk) :
    ∃ before data type, r'.log.contents = before ++ (data ++ Mylldb.trailer data type) := by
  cases h with
  | flush r₁ hflush h₁ => exact absurd ((hexact.flushes hflush).log_ok.mpr hall) h₁
  | metaindex r₁ _ hflush h₁ hmeta h₂ => exact absurd hall (hmeta.not_allOk h₂)
  | index r₁ r₂ r₃ r₄ hflush h₁ hmeta h₂ hindex hwrite =>
      exact ⟨_, _, _, hwrite.contents_eq hall⟩

-- `Finish` hands back no status and writes no footer, so that `Open` refuses every
-- table.
theorem finished_refused (env : Environment) (file : WritableFile) {options : Options}
    (hnew : TableBuilder.new env options = .ok r) (hfilter : options.filterPolicy = none)
    (calls : List Call)
    (hlegal : Legal (env.comparator options.comparator) none (calls ++ [.finish])) :
    ∃ r₁ r', r.run env file calls = .ok r₁ ∧ r₁.finish env file = .ok (r', none) ∧
      (r'.log.AllOk → ∀ reader : RandomAccessFile, reader.Serves r'.log.contents →
        ∀ openOptions, Table.openTable env openOptions reader r'.fileSize =
          .ok (Table.refusal r'.fileSize, none)) := by
  obtain ⟨r₁, hrun, hready, -⟩ := (new_ready env hnew hfilter).run env file
    (fun _ _ => True) (fun _ _ _ _ _ _ _ _ h => h) [] calls hlegal trivial
  obtain ⟨r', hfinish, hfinishes⟩ := hready.finish env file
  refine ⟨r₁, r', hrun, hfinish, ?_⟩
  intro hall reader hserves openOptions
  have hexact := hready.toExact.finishes hfinishes
  obtain ⟨before, data, type, hcontents⟩ := hfinishes.ends_in_block hready.toExact hall
  rw [fileSize, hexact.offset_eq (hexact.log_ok.mpr hall)]
  rw [hcontents] at hserves ⊢
  exact Table.openTable_block env openOptions reader before data type hserves

-- Two data blocks make a file that is long enough for a footer.
def unopenedCalls : List Call := [.add [1] [7], .flush, .add [2] [8]]

theorem finished_refused_sample : ∃ r r₁ r',
    TableBuilder.new sampleEnvironment sampleOptions = .ok r ∧
      r.run sampleEnvironment reliable unopenedCalls = .ok r₁ ∧
        r₁.finish sampleEnvironment reliable = .ok (r', none) ∧
          Table.openTable sampleEnvironment sampleOptions (.ofContents r'.log.contents)
            r'.fileSize = .ok (Table.refusal r'.fileSize, none) := by
  obtain ⟨r, hnew⟩ : ∃ r, TableBuilder.new sampleEnvironment sampleOptions = .ok r := ⟨_, rfl⟩
  have hlegal : Legal bytewiseComparator none (unopenedCalls ++ [.finish]) := by
    simp only [unopenedCalls, List.cons_append, List.nil_append, Legal]
    decide
  obtain ⟨r₁, r', hrun, hfinish, hrefused⟩ :=
    finished_refused sampleEnvironment reliable hnew rfl unopenedCalls hlegal
  have hchecked : (TableBuilder.new sampleEnvironment sampleOptions >>= fun r =>
      r.run sampleEnvironment reliable unopenedCalls >>= fun r₁ =>
        (r₁.finish sampleEnvironment reliable).map fun f => decide f.1.log.AllOk) = .ok true := by
    decide +kernel
  rw [hnew, ok_bind, hrun, ok_bind, hfinish] at hchecked
  have hall : r'.log.AllOk := of_decide_eq_true (Except.ok.inj hchecked)
  exact ⟨r, r₁, r', hnew, hrun, hfinish,
    hrefused hall _ (RandomAccessFile.ofContents_serves _) sampleOptions⟩

-- No operation fails, `Finish` hands back nothing and `Open` misses the magic number.
theorem finished_unopened : ∃ r r₁ r',
    TableBuilder.new sampleEnvironment sampleOptions = .ok r ∧
      r.run sampleEnvironment reliable unopenedCalls = .ok r₁ ∧
        r₁.finish sampleEnvironment reliable = .ok (r', none) ∧ r'.log.AllOk ∧
          (Table.openTable sampleEnvironment sampleOptions (.ofContents r'.log.contents)
            r'.fileSize).map (fun o => (o.1, o.2.isSome)) =
              .ok (Status.corruption "not an sstable (bad magic number)" "", false) := by
  refine ⟨_, _, _, rfl, rfl, rfl, ?_, ?_⟩ <;> decide +kernel

end TableBuilder

end Mylldb

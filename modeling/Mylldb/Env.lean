import Mylldb.Status

namespace Mylldb

inductive FileCall where
  | append (data : Bytes)
  | flush
  deriving DecidableEq, Repr

-- The calls that reached a file, with what it answered.
abbrev FileLog := List (FileCall × Status)

namespace FileLog

-- The bytes that one call left in the file.
def written : FileCall × Status → Bytes
  | (.append data, .ok) => data
  | _ => []

-- The file starts out empty.
def contents (log : FileLog) : Bytes := log.flatMap written

end FileLog

-- A file may answer a call as it likes, by the calls before it. What was
-- appended to it has a size that a `uint64_t` can hold, which is the type of
-- `TableBuilder::FileSize` and of the size that `Table::Open` is given.
structure WritableFile where
  answer : FileLog → FileCall → Status
  size_lt : ∀ log data, answer log (.append data) = .ok →
    log.contents.length + data.length < 2 ^ 64

-- One call: the log with the call, and the answer.
def WritableFile.call (file : WritableFile) (log : FileLog) (c : FileCall) : FileLog × Status :=
  (log ++ [(c, file.answer log c)], file.answer log c)

-- A file that answers by the number of calls before, until it is full.
def WritableFile.scripted (answers : Nat → Status) : WritableFile where
  answer log c :=
    match c with
    | .append data =>
        if log.contents.length + data.length < 2 ^ 64 then answers log.length
        else .failed .kIOError "file too large"
    | .flush => answers log.length
  size_lt log data h := by
    dsimp only at h
    split at h
    · assumption
    · cases h

-- What `Read` hands back. The slice lies at `address`, which may be that of the
-- scratch buffer.
structure ReadResult where
  status : Status
  contents : Bytes
  address : Nat
  inScratch : Bool
  deriving DecidableEq, Repr

structure RandomAccessFile where
  read : Nat → Nat → ReadResult

-- The file returns exactly the bytes at the requested range.
def RandomAccessFile.Serves (file : RandomAccessFile) (contents : Bytes) : Prop :=
  ∀ offset n, offset + n ≤ contents.length →
    (file.read offset n).status = .ok ∧
      (file.read offset n).contents = (contents.drop offset).take n

-- A file with the given bytes, read into the scratch buffer.
def RandomAccessFile.ofContents (contents : Bytes) : RandomAccessFile where
  read offset n := ⟨.ok, (contents.drop offset).take n, 0, true⟩

theorem RandomAccessFile.ofContents_serves (contents : Bytes) :
    (ofContents contents).Serves contents :=
  fun _ _ _ => ⟨rfl, rfl⟩

end Mylldb

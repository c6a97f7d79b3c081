import IoxCore.Lib.Path
import IoxCore.Lib.Parse

/-!
# Parquet file paths

`TryFrom<&String> for ParquetFilePath` (parquet_file/src/lib.rs) reads an object
store location back into the ids of a parquet file. The locations the crate
writes have the shape `<namespace_id>/<table_id>/<partition>/<uuid>.parquet`; the
conversion splits on `/` and

* parses the first segment as an `i64` namespace id,
* parses the second as an `i64` table id,
* takes the third as the partition key (`TransitionPartitionId::new` derives the
  partition id from the table id and this key),
* parses the text of the fourth segment before its first `.` as a UUID.

Each missing segment is an `EmptySegment` error and each failed parse an
`InvalidPath` error, in that order.

## The model

`str::split('/')` is `Posix.segments` (both keep empty segments). The partition
id is kept as its key, and the object store id as the UUID's value.
-/

namespace IoxCore.ParquetFile

open Posix RustStr

/-- The variants of object_store's `path::Error` that the conversion returns. -/
inductive PathError
  | emptySegment (path : String)
  | invalidPath (path : String)
  deriving DecidableEq, Repr

/-- The ids of a parquet file, as its location names them. -/
structure ParquetFilePath where
  namespaceId : ℤ
  tableId : ℤ
  partitionKey : String
  objectStoreId : ℕ
  deriving DecidableEq, Repr

/-- `ParquetFilePath::try_from(&String)`. -/
def ParquetFilePath.tryFrom (path : String) : Except PathError ParquetFilePath :=
  match segments path.toList with
  | [] => .error (.emptySegment path)
  | ns :: parts =>
    match parseI64 ns with
    | none => .error (.invalidPath path)
    | some namespaceId =>
      match parts with
      | [] => .error (.emptySegment path)
      | ts :: parts =>
        match parseI64 ts with
        | none => .error (.invalidPath path)
        | some tableId =>
          match parts with
          | [] | [_] => .error (.emptySegment path)
          | part :: obj :: _ =>
            -- `object_store_id.split('.').next()`: the text before the first `.`
            match parseUuid (obj.takeWhile (· != '.')) with
            | none => .error (.invalidPath path)
            | some id => .ok ⟨namespaceId, tableId, String.ofList part, id⟩

/-- What the conversion accepts: four leading segments whose first two are `i64`s
and whose fourth begins with a UUID, followed by any further segments. -/
theorem tryFrom_eq_ok_iff (path : String) (f : ParquetFilePath) :
    ParquetFilePath.tryFrom path = .ok f ↔
      ∃ ns ts part obj rest, segments path.toList = ns :: ts :: part :: obj :: rest ∧
        parseI64 ns = some f.namespaceId ∧ parseI64 ts = some f.tableId ∧
        f.partitionKey = String.ofList part ∧
        parseUuid (obj.takeWhile (· != '.')) = some f.objectStoreId := by
  unfold ParquetFilePath.tryFrom
  constructor
  · intro h
    split at h
    · cases h
    · rename_i ns parts hs
      split at h
      · cases h
      · rename_i n hn
        split at h
        · cases h
        · rename_i ts parts
          split at h
          · cases h
          · rename_i t ht
            split at h
            · cases h
            · cases h
            · rename_i part obj rest
              split at h
              · cases h
              · rename_i id hid
                cases h
                exact ⟨ns, ts, part, obj, rest, by simp [hs], hn, ht, rfl, hid⟩
  · rintro ⟨ns, ts, part, obj, rest, hs, hn, ht, hp, hid⟩
    obtain ⟨n, t, k, i⟩ := f
    simp only at hn ht hp hid
    simp [hs, hn, ht, hid, hp]

@[simp]
theorem parseI64_nil : parseI64 [] = none := rfl

/-- An accepted location is relative: its first segment is a number, not the
empty segment before a leading `/`. -/
theorem isAbsolute_of_tryFrom_ok {path : String} {f : ParquetFilePath}
    (h : ParquetFilePath.tryFrom path = .ok f) : isAbsolute path = false := by
  obtain ⟨ns, ts, part, obj, rest, hs, hn, -⟩ := (tryFrom_eq_ok_iff path f).mp h
  cases hp : path.toList with
  | nil => simp [isAbsolute, hp]
  | cons c cs =>
    by_cases hc : c = '/'
    · rw [hp, segments, if_pos hc] at hs
      simp only [List.cons.injEq] at hs
      rw [← hs.1, parseI64_nil] at hn
      cases hn
    · simp [isAbsolute, hp, hc]

end IoxCore.ParquetFile

import IoxCore.MutableBatch.Column

/-!
# The writer of a mutable batch

`MutableBatch` of `mutable_batch` and its `Writer` (`mutable_batch::writer`): a writer is made
to append `to_insert` rows to a batch; each `write_*` call fills one column, found or created
by `column_mut`; `commit` pads the columns no call wrote with NULLs and sets the row count, and
dropping a writer that did not commit truncates every column back to the rows and columns the
batch had (`Drop for Writer`).

## The model

The map `column_names` from a name to its column index is the position of the name in the list
of columns. The statistics a writer collects for the commit are not modelled. An iterator of
values is the sequence of its items, `none` once it is exhausted. A write mutates the batch in
place, so a write that fails leaves what it did so far: each write returns the writer as it
is when it returns, with the failure (an error or a panic) if any. A session (`session`) is
how every caller of this repository drives a writer: the writes in turn up to the first that
fails, then a commit when none failed and the rollback of the drop otherwise. A panic inside a
write is taken to unwind into that rollback; a panic of the commit or of the rollback itself
leaves no batch. `Reachable` batches are those that sessions build from an empty batch.
-/

namespace IoxCore

/-- `MutableBatch`: the columns in the order of their indexes, each with its name, and the
number of rows. -/
structure MutableBatch (F : Type) where
  columns : List (List Char × MutableBatch.Column F)
  rowCount : ℕ

namespace MutableBatch

open ArrowUtil PackedBits

variable {F : Type}

def new : MutableBatch F := ⟨[], 0⟩

def rows (b : MutableBatch F) : ℕ := b.rowCount

/-- The column named `name`. -/
def column? (b : MutableBatch F) (name : List Char) : Option (Column F) :=
  (b.columns.find? fun p => p.1 == name).map Prod.snd

/-- `writer::Error`. -/
inductive Error
  | typeMismatch (column : List Char) (existing inserted : InfluxColumnType)
  | insufficientValues
  | keyNotFound (key : ℕ)
  deriving DecidableEq, Repr

/-- How a write fails: with an error, or with a panic. -/
inductive Failure
  | error (e : Error)
  | panic
  deriving DecidableEq, Repr

/-- `Writer`, without the statistics. -/
structure Writer (F : Type) where
  batch : MutableBatch F
  initialRows : ℕ
  initialCols : ℕ
  toInsert : ℕ

/-- `set_position_iterator`: `iter_set_positions` of the mask, which is the iterator from
offset `0`, taken while below `to_insert`, or every new row. -/
def setPositions (validMask : Option (List UInt8)) (toInsert : ℕ) : List ℕ :=
  match validMask with
  | some mask => (BitSet.iterSetPositionsWithOffset mask 0).takeWhile (· < toInsert)
  | none => List.range toInsert

/-- `append_valid_mask`. -/
def appendValidMask (valid : BitSet) (validMask : Option (List UInt8)) (toInsert : ℕ) :
    Option BitSet :=
  match validMask with
  | some mask => valid.appendBits toInsert mask
  | none => valid.appendSet toInsert

/-- The loop of a write: the `k`-th set position takes the `k`-th item of the iterator and
`store` keeps it; the data so far, with the failure that stopped the loop. -/
def writeValues {α β : Type} (store : β → ℕ → α → Except Failure β) (values : ℕ → Option α) :
    ℕ → List ℕ → β → β × Option Failure
  | _, [], data => (data, none)
  | k, idx :: rest, data =>
    match values k with
    | none => (data, some (.error .insufficientValues))
    | some v =>
      match store data idx v with
      | .error f => (data, some f)
      | .ok data => writeValues store values (k + 1) rest data

/-- `extend(len - data.len())`: pads a string array with empty strings up to `len`; the
subtraction underflows, a panic, when the array is longer. -/
def padTo (data : PackedStringArray) (len : ℕ) : Except Failure PackedStringArray :=
  if data.len ≤ len then .ok (data.extend (len - data.len)) else .error .panic

/-- `Option` to a failure: `none` is a panic. -/
def orPanic {α : Type} : Option α → Except Failure α
  | some a => .ok a
  | none => .error .panic

/-- The number of rows the data holds. -/
def ColumnData.length : ColumnData F → ℕ
  | .f64 d => d.length
  | .i64 d => d.length
  | .u64 d => d.length
  | .bool d => d.len
  | .string d => d.len
  | .tag d _ => d.length

/-- What the drop of a writer truncates a column to. -/
def Column.truncate (c : Column F) (n : ℕ) : Option (Column F) := do
  let valid ← c.valid.truncate n
  let data ← match c.data with
    | .f64 d => some (.f64 (d.take n))
    | .i64 d => some (.i64 (d.take n))
    | .u64 d => some (.u64 (d.take n))
    | .string d => (d.truncate n).map .string
    | .bool d => (d.truncate n).map .bool
    | .tag d dict =>
      (match (d.take n).max? with
        | some max => dict.truncate max
        | none => some dict.clear).map (.tag (d.take n))
  some { c with valid, data }

namespace Writer

def new (batch : MutableBatch F) (toInsert : ℕ) : Writer F :=
  ⟨batch, batch.rowCount, batch.columns.length, toInsert⟩

/-- Stores `col` as the column at `idx`. -/
def setColumn (w : Writer F) (idx : ℕ) (col : Column F) : Writer F :=
  { w with batch := { w.batch with columns := w.batch.columns.modify idx fun p => (p.1, col) } }

/-- The index of the column `name`, pushed with `initial_rows` NULL rows when missing. -/
def columnIndex [Zero F] (w : Writer F) (name : List Char) (influxType : InfluxColumnType) :
    ℕ × Writer F :=
  match w.batch.columns.findIdx? fun p => p.1 == name with
  | some idx => (idx, w)
  | none =>
    (w.batch.columns.length, { w with batch := { w.batch with
      columns := w.batch.columns ++ [(name, Column.new w.initialRows influxType)] } })

/-- `column_mut`: the index and the column of `name`. A column of another type is an error,
and a column this writer already wrote (its rows are not `initial_rows`) a panic. -/
def columnMut [Zero F] (w : Writer F) (name : List Char) (influxType : InfluxColumnType) :
    Writer F × Except Failure (ℕ × Column F) :=
  let found := w.columnIndex name influxType
  let w := found.2
  match w.batch.columns[found.1]? with
  | none => (w, .error .panic)
  | some (_, col) =>
    if col.influxType ≠ influxType then
      (w, .error (.error (.typeMismatch name col.influxType influxType)))
    else if col.valid.len ≠ w.initialRows then (w, .error .panic)
    else (w, .ok (found.1, col))

/-- The end of every write: the column stored back and, unless the loop failed, the mask
appended to its validity. -/
def finishWrite (w : Writer F) (idx : ℕ) (col : Column F) (validMask : Option (List UInt8))
    (failure : Option Failure) : Writer F × Option Failure :=
  match failure with
  | some f => (w.setColumn idx col, some f)
  | none =>
    match appendValidMask col.valid validMask w.toInsert with
    | none => (w.setColumn idx col, some .panic)
    | some valid => (w.setColumn idx { col with valid }, none)

/-- The writes of `Vec` data: the data resized to the new rows with `zero`, the value of each
set position stored at its row. -/
def writeVec {α : Type} [Zero F] (influxType : InfluxColumnType)
    (get : ColumnData F → Option (List α)) (mk : List α → ColumnData F) (zero : α)
    (w : Writer F) (name : List Char) (validMask : Option (List UInt8))
    (values : ℕ → Option α) : Writer F × Option Failure :=
  match w.columnMut name influxType with
  | (w, .error f) => (w, some f)
  | (w, .ok (idx, col)) =>
    match get col.data with
    | none => (w, some .panic)
    | some data =>
      let written := writeValues (fun data idx v => .ok (data.set (w.initialRows + idx) v))
        values 0 (setPositions validMask w.toInsert) (resize data (w.initialRows + w.toInsert) zero)
      w.finishWrite idx { col with data := mk written.1 } validMask written.2

/-- The `f64` data of a column. -/
def ColumnData.getF64 : ColumnData F → Option (List F)
  | .f64 d => some d
  | _ => none

/-- The `i64` data of a column. -/
def ColumnData.getI64 : ColumnData F → Option (List Int64)
  | .i64 d => some d
  | _ => none

/-- The `u64` data of a column. -/
def ColumnData.getU64 : ColumnData F → Option (List UInt64)
  | .u64 d => some d
  | _ => none

/-- `write_f64`. -/
def writeF64 [Zero F] (w : Writer F) (name : List Char) (validMask : Option (List UInt8))
    (values : ℕ → Option F) : Writer F × Option Failure :=
  w.writeVec (.field .float) ColumnData.getF64 .f64 0 name validMask values

/-- `write_i64`. -/
def writeI64 [Zero F] (w : Writer F) (name : List Char) (validMask : Option (List UInt8))
    (values : ℕ → Option Int64) : Writer F × Option Failure :=
  w.writeVec (.field .integer) ColumnData.getI64 .i64 0 name validMask values

/-- `write_u64`. -/
def writeU64 [Zero F] (w : Writer F) (name : List Char) (validMask : Option (List UInt8))
    (values : ℕ → Option UInt64) : Writer F × Option Failure :=
  w.writeVec (.field .uinteger) ColumnData.getU64 .u64 0 name validMask values

/-- `write_time`: every new row takes a value, `0..to_insert` being the set positions of no
mask. -/
def writeTime [Zero F] (w : Writer F) (name : List Char) (values : ℕ → Option Int64) :
    Writer F × Option Failure :=
  w.writeVec .timestamp ColumnData.getI64 .i64 0 name none values

/-- `write_bool`: the data gets unset bits for the new rows, and each set position whose value
is true is set. -/
def writeBool [Zero F] (w : Writer F) (name : List Char) (validMask : Option (List UInt8))
    (values : ℕ → Option Bool) : Writer F × Option Failure :=
  match w.columnMut name (.field .boolean) with
  | (w, .error f) => (w, some f)
  | (w, .ok (idx, col)) =>
    match col.data with
    | .bool data =>
      let written := writeValues
        (fun data idx v => if v then orPanic (data.set (w.initialRows + idx)) else .ok data)
        values 0 (setPositions validMask w.toInsert) (data.appendUnset w.toInsert)
      w.finishWrite idx { col with data := .bool written.1 } validMask written.2
    | _ => (w, some .panic)

/-- `write_string`: each set position pads the array with empty strings up to its row and
appends its value; the array is then padded to the new row count. -/
def writeString [Zero F] (w : Writer F) (name : List Char) (validMask : Option (List UInt8))
    (values : ℕ → Option (List Char)) : Writer F × Option Failure :=
  match w.columnMut name (.field .string) with
  | (w, .error f) => (w, some f)
  | (w, .ok (idx, col)) =>
    match col.data with
    | .string data =>
      let written := writeValues
        (fun data idx v => (padTo data (w.initialRows + idx)).map (·.append v))
        values 0 (setPositions validMask w.toInsert) data
      match written.2 with
      | some f => w.finishWrite idx { col with data := .string written.1 } validMask (some f)
      | none =>
        match padTo written.1 (w.initialRows + w.toInsert) with
        | .error f => w.finishWrite idx { col with data := .string written.1 } validMask (some f)
        | .ok data => w.finishWrite idx { col with data := .string data } validMask none
    | _ => (w, some .panic)

/-- `write_tag`: the ids resized with `NULL_DID`, each set position's value looked up in (or
added to) the dictionary. -/
def writeTag [Zero F] (w : Writer F) (name : List Char) (validMask : Option (List UInt8))
    (values : ℕ → Option (List Char)) : Writer F × Option Failure :=
  match w.columnMut name .tag with
  | (w, .error f) => (w, some f)
  | (w, .ok (idx, col)) =>
    match col.data with
    | .tag data dict =>
      let written := writeValues
        (fun (p : List ℤ × StringDictionary) idx v =>
          (orPanic (p.2.lookupValueOrInsert v)).map fun r =>
            (p.1.set (w.initialRows + idx) (r.1 : ℤ), r.2))
        values 0 (setPositions validMask w.toInsert)
        (resize data (w.initialRows + w.toInsert) nullDid, dict)
      w.finishWrite idx { col with data := .tag written.1.1 written.1.2 } validMask written.2
    | _ => (w, some .panic)

/-- One step of `write_tag_dict`: the key's entry of the mapping, looked up in the dictionary
the first time it is used. -/
def tagDictStore (initialRows : ℕ)
    (p : List ℤ × StringDictionary × List (List Char × Option ℤ)) (idx key : ℕ) :
    Except Failure (List ℤ × StringDictionary × List (List Char × Option ℤ)) :=
  match p.2.2[key]? with
  | none => .error (.error (.keyNotFound key))
  | some (_, some did) => .ok (p.1.set (initialRows + idx) did, p.2.1, p.2.2)
  | some (value, none) =>
    (orPanic (p.2.1.lookupValueOrInsert value)).map fun r =>
      (p.1.set (initialRows + idx) (r.1 : ℤ), r.2, p.2.2.set key (value, some (r.1 : ℤ)))

/-- `write_tag_dict`: the keys index a list of strings, each mapped to a dictionary id when
first used. -/
def writeTagDict [Zero F] (w : Writer F) (name : List Char) (validMask : Option (List UInt8))
    (keys : ℕ → Option ℕ) (values : List (List Char)) : Writer F × Option Failure :=
  match w.columnMut name .tag with
  | (w, .error f) => (w, some f)
  | (w, .ok (idx, col)) =>
    match col.data with
    | .tag data dict =>
      let written := writeValues (tagDictStore w.initialRows) keys 0
        (setPositions validMask w.toInsert)
        (resize data (w.initialRows + w.toInsert) nullDid, dict, values.map (·, none))
      w.finishWrite idx { col with data := .tag written.1.1 written.1.2.1 } validMask written.2
    | _ => (w, some .panic)

/-- `commit`: the columns no call wrote are padded with NULLs; a written column must hold the
new rows in its mask and its data. -/
def commit [Zero F] (w : Writer F) : Option (MutableBatch F) :=
  let finalRows := w.initialRows + w.toInsert
  (w.batch.columns.mapM fun (p : List Char × Column F) =>
    if p.2.valid.len = w.initialRows then (p.2.pushNullsToLen finalRows).map (p.1, ·)
    else if p.2.valid.len = finalRows ∧ p.2.data.length = finalRows then some p
    else none).map fun columns => ⟨columns, finalRows⟩

/-- `Drop for Writer` without a commit: the columns the writer added are removed and every
other is truncated to the rows the batch had. -/
def rollback (w : Writer F) : Option (MutableBatch F) :=
  ((w.batch.columns.take w.initialCols).mapM fun (p : List Char × Column F) =>
    (p.2.truncate w.initialRows).map (p.1, ·)).map fun columns => { w.batch with columns }

end Writer

/-! ## Sessions -/

/-- One call of the writer's API. -/
inductive Write (F : Type)
  | f64 (name : List Char) (validMask : Option (List UInt8)) (values : ℕ → Option F)
  | i64 (name : List Char) (validMask : Option (List UInt8)) (values : ℕ → Option Int64)
  | u64 (name : List Char) (validMask : Option (List UInt8)) (values : ℕ → Option UInt64)
  | bool (name : List Char) (validMask : Option (List UInt8)) (values : ℕ → Option Bool)
  | string (name : List Char) (validMask : Option (List UInt8))
      (values : ℕ → Option (List Char))
  | tag (name : List Char) (validMask : Option (List UInt8)) (values : ℕ → Option (List Char))
  | tagDict (name : List Char) (validMask : Option (List UInt8)) (keys : ℕ → Option ℕ)
      (values : List (List Char))
  | time (name : List Char) (values : ℕ → Option Int64)

/-- The call made on a writer. -/
def Write.apply [Zero F] : Write F → Writer F → Writer F × Option Failure
  | .f64 name validMask values, w => w.writeF64 name validMask values
  | .i64 name validMask values, w => w.writeI64 name validMask values
  | .u64 name validMask values, w => w.writeU64 name validMask values
  | .bool name validMask values, w => w.writeBool name validMask values
  | .string name validMask values, w => w.writeString name validMask values
  | .tag name validMask values, w => w.writeTag name validMask values
  | .tagDict name validMask keys values, w => w.writeTagDict name validMask keys values
  | .time name values, w => w.writeTime name values

/-- The calls in turn, up to the first that fails. -/
def runWrites [Zero F] : List (Write F) → Writer F → Writer F × Option Failure
  | [], w => (w, none)
  | op :: ops, w =>
    match op.apply w with
    | (w, none) => runWrites ops w
    | (w, some f) => (w, some f)

/-- A writer session on `batch` for `toInsert` rows: the calls in turn, then a commit when all
succeeded and the rollback of the drop when one failed. -/
def session [Zero F] (batch : MutableBatch F) (toInsert : ℕ) (writes : List (Write F)) :
    Option (MutableBatch F) :=
  match runWrites writes (Writer.new batch toInsert) with
  | (w, none) => w.commit
  | (w, some _) => w.rollback

/-- The batches that sessions build from an empty batch. -/
inductive Reachable [Zero F] : MutableBatch F → Prop
  | new : Reachable .new
  | session {b b' : MutableBatch F} {toInsert : ℕ} {writes : List (Write F)} :
      Reachable b → session b toInsert writes = some b' → Reachable b'

end MutableBatch

end IoxCore

import IoxCore.IoxQuery.Deduplicate

/-!
# Series set conversion

`SeriesSetConverter` of `iox_query::exec::seriesset::converter`: a stream of record batches
sorted by the tag columns is cut into series sets, each a range of rows of one batch with the
tags of its first row. `compute_changepoints` finds the rows where a tag value changes, with
arrow's `neq` and `or` kernels, and `SeriesSetConverterStream::poll_next` carries the rows
after the last change point from one input batch to the next.

## The model

A batch is a list of rows, a row one cell per column, `none` for NULL, as in
`IoxCore.IoxQuery.Deduplicate`; only the tag columns are read. arrow's `neq` and `or` answer
NULL where either side is NULL, and a NULL mask counts as a change point. A series set keeps
its tags, its first row and row count, and the batch it reads (the table name and field
indexes it also carries are the converter's constants).

The input stream is a list of batches that the stream is always ready to give; a failed
input or a failed `concat_batches` (impossible for batches of one schema) is not modelled.
One pass of the loop of `poll_next` either emits a series set, ends the stream, panics (the
`expect`s and `assert`s of the loop) or goes round; `run` collects the series sets of a run
of passes, as the stream's consumer does.

## Results

* `convert_splits_null_run`: two rows in a row with a NULL tag are two series sets, with the
  same tags: NULL is not equal to NULL for `neq`.
-/

namespace IoxCore.IoxQuery

/-- neq of arrow on two nullable cells: NULL where either side is NULL. -/
def neqNullable (a b : Option String) : Option Bool :=
  match a, b with
  | some x, some y => some (x != y)
  | _, _ => none

/-- or of arrow on two nullable booleans: NULL where either side is NULL. -/
def orNullable (a b : Option Bool) : Option Bool :=
  match a, b with
  | some x, some y => some (x || y)
  | _, _ => none

/-- compute_transitions: for each row of the batch whether the value of column `col` differs
from the row before; the first row is not a change, and NULL where a value is NULL. -/
def computeTransitions (batch : Batch String) (col : ℕ) : List (Option Bool) :=
  if batch = [] then []
  else
    some false :: List.zipWith neqNullable (batch.dropLast.map (·.getD col none))
      (batch.tail.map (·.getD col none))

/-- compute_changepoints: the rows where the tags change, the OR of the transitions of the tag
columns, a NULL mask counting as a change; none without tag columns. -/
def computeChangepoints (batch : Batch String) (tagIndexes : List ℕ) : List ℕ :=
  match tagIndexes.map (computeTransitions batch) with
  | [] => []
  | init :: rest =>
    (rest.foldl (List.zipWith orNullable) init).zipIdx.filterMap fun p =>
      if p.1.getD true then some p.2 else none

/-- get_tag_keys: the tag column names with the values of the row in them, NULLs left out. -/
def getTagKeys (batch : Batch String) (row : ℕ) (tagColumnNames : List String)
    (tagIndexes : List ℕ) : List (String × String) :=
  (tagColumnNames.zip tagIndexes).filterMap fun p =>
    (batch[row]?.bind (·.getD p.2 none)).map (p.1, ·)

/-- SeriesSet: the rows `start_row` to `start_row + num_rows` of `batch`, with their tags. -/
structure SeriesSet where
  tags : List (String × String)
  startRow : ℕ
  numRows : ℕ
  batch : Batch String
  deriving DecidableEq

/-- The rows a series set reads. -/
def SeriesSet.rows (s : SeriesSet) : Batch String := (s.batch.drop s.startRow).take s.numRows

/-- SeriesSetConverterStream: the series sets to emit, the open batches (those after the last
change point), whether a new input batch is needed, whether the stream is finished, and the
input still to read (`none` once drained). -/
structure ConverterStream where
  resultBuffer : List SeriesSet
  openBatches : List (Batch String)
  needNewBatch : Bool
  weFinished : Bool
  it : Option (List (Batch String))

/-- The stream before its first poll. -/
def ConverterStream.init (input : List (Batch String)) : ConverterStream :=
  { resultBuffer := [], openBatches := [], needNewBatch := true, weFinished := false,
    it := some input }

/-- What one pass of the loop of poll_next does. -/
inductive Pass where
  /-- Poll::Ready(Some(Ok(sset))). -/
  | emit (sset : SeriesSet) (s : ConverterStream)
  /-- Poll::Ready(None). -/
  | finish (s : ConverterStream)
  /-- An expect or an assert fails. -/
  | panic
  /-- The loop goes round. -/
  | again (s : ConverterStream)

/-- The inner loop of poll_next that pulls input: empty batches are skipped, the first other
batch is opened, and at the end of the input the stream is dropped. -/
def pullBatch (openBatches : List (Batch String)) :
    List (Batch String) → List (Batch String) × Option (List (Batch String))
  | [] => (openBatches, none)
  | batch :: rest =>
    if batch.length = 0 then pullBatch openBatches rest else (openBatches ++ [batch], some rest)

/-- The series sets emitted for the change points of the flushed batch, each from the end of
the one before. -/
def emitSeries (batch : Batch String) (changepoints : List ℕ) (tagColumnNames : List String)
    (tagIndexes : List ℕ) : List SeriesSet :=
  (changepoints.foldl (fun (acc : List SeriesSet × ℕ) endRow =>
    (acc.1 ++ [{
        tags := getTagKeys batch acc.2 tagColumnNames tagIndexes
        startRow := acc.2
        numRows := endRow - acc.2
        batch := batch }], endRow)) ([], 0)).1

section Poll

variable (tagColumnNames : List String) (tagIndexes : List ℕ)

/-- The part of a pass of poll_next after the input was pulled: the change points of the last
open batch, with the last row of the open batch before it, shifted to the rows of all open
batches; the rows up to the last change point are flushed as series sets, and the rest stays
open. -/
def processOpen (s : ConverterStream) : Pass :=
  match s.openBatches.reverse with
  | [] => if s.it.isNone then .finish { s with weFinished := true } else .panic
  | current :: before =>
    let forChangepoints : Option (Batch String × Bool) :=
      match before with
      | [] => some (current, false)
      | last :: _ => last.getLast?.map fun row => (row :: current, true)
    match forChangepoints with
    | none => .panic
    | some (batchForChangepoints, extraFirstRow) =>
      let changepoints := computeChangepoints batchForChangepoints tagIndexes ++
        if s.it.isNone then [batchForChangepoints.length] else []
      let prevSizes := (s.openBatches.dropLast.map List.length).sum
      let cpDelta := if extraFirstRow then prevSizes - 1 else prevSizes
      let changepoints := changepoints.map (· + cpDelta)
      let s := { s with needNewBatch := true, weFinished := s.it.isNone || s.weFinished }
      match changepoints.getLast? with
      | none => .again s
      | some lastCp =>
        let batchForFlush := s.openBatches.flatten
        -- all open rows are flushed only at the end of the input; the rest of the last batch
        -- starts at the last change point, which is not before it
        if lastCp = batchForFlush.length ∧ s.it.isSome then .panic
        else if lastCp ≠ batchForFlush.length ∧ lastCp < prevSizes then .panic
        else
          let openBatches :=
            if lastCp = batchForFlush.length then []
            else [current.drop (lastCp - prevSizes)]
          .again { s with
            openBatches := openBatches
            resultBuffer := emitSeries batchForFlush changepoints tagColumnNames tagIndexes }

/-- One pass of the loop of poll_next: emit a buffered series set, end a finished stream, or
pull the next input batch when one is needed and process the open batches. -/
def pass (s : ConverterStream) : Pass :=
  match s.resultBuffer with
  | sset :: rest => .emit sset { s with resultBuffer := rest }
  | [] =>
    if s.weFinished then .finish s
    else if s.needNewBatch then
      match s.it with
      | none => .panic
      | some input =>
        let pulled := pullBatch s.openBatches input
        processOpen tagColumnNames tagIndexes
          { s with openBatches := pulled.1, it := pulled.2, needNewBatch := false }
    else processOpen tagColumnNames tagIndexes s

/-- The series sets the stream emits in `fuel` passes of the loop. -/
def run : ℕ → ConverterStream → List SeriesSet
  | 0, _ => []
  | fuel + 1, s =>
    match pass tagColumnNames tagIndexes s with
    | .emit sset s => sset :: run fuel s
    | .finish _ => []
    | .panic => []
    | .again s => run fuel s

/-- SeriesSetConverter::convert, drained: the stream's passes are at most one per input batch,
one per row and three more. -/
def convert (input : List (Batch String)) : List SeriesSet :=
  run tagColumnNames tagIndexes (input.length + (input.map List.length).sum + 3)
    (ConverterStream.init input)

end Poll

/-- Two rows in a row whose tag is NULL are two series sets with the same tags. -/
theorem convert_splits_null_run :
    convert ["tag"] [0] [[[none], [none]]] =
      [{ tags := [], startRow := 0, numRows := 1, batch := [[none], [none]] },
        { tags := [], startRow := 0, numRows := 1, batch := [[none]] }] := by
  decide

end IoxCore.IoxQuery

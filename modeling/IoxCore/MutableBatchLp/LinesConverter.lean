import IoxCore.LineProtocol.RoundTrip
import IoxCore.MutableBatch.Writer

/-!
# Line protocol to mutable batches

`mutable_batch_lp`: `LinesConverter::write_lp` parses line protocol and writes each line as one
row of the batch of its measurement, through a `Writer` of its own. `write_line` writes the tags,
where a tag named twice is an error. It writes the fields from the last to the first: a field
named again is skipped when its value has the same type, so the last occurrence wins, and is an
error otherwise. Then it writes the time, which is the line's timestamp times `timestamp_base`,
or the default time. A line that fails is rolled back by the drop of its writer, and its error is
collected. `finish` keeps the batches that have rows.

The errors are collected by `take(MAXIMUM_RETURNED_ERRORS)` over a lazy `filter_map` that converts
the lines as a side effect. `take` stops pulling once it has a hundred errors, so the lines after
the hundredth failed line are never converted. `writeLp_ignores_lines_after_maximum_errors`
states this: after a hundred lines that do not parse, `write_lp` leaves the converter as it was,
whatever the lines that follow hold.

## The model

The `HashMap` of batches is an association list by measurement, and `finish` lists the batches
in its order. A line is a `ParsedLine` of `IoxCore.LineProtocol`, and its writes are the writer
calls of `IoxCore.MutableBatch` with the one-item iterator of `std::iter::once`. A panic of a
writer (inside a write, in the commit, or in the rollback) is a panic of the whole call, `none`.
-/

namespace IoxCore.LineProtocol

/-- `FieldValue::is_same_type`: the same variant. -/
def FieldValue.isSameType {F : Type} : FieldValue F → FieldValue F → Bool
  | .i64 _, .i64 _ | .u64 _, .u64 _ | .f64 _, .f64 _ | .string _, .string _
  | .boolean _, .boolean _ => true
  | _, _ => false

end IoxCore.LineProtocol

namespace IoxCore.MutableBatchLp

open LineProtocol MutableBatch RustStr

variable {F : Type}

/-- `MAXIMUM_RETURNED_ERRORS`. -/
def maximumReturnedErrors : ℕ := 100

/-- `LineWriteError`. -/
inductive LineWriteError
  | mutableBatch (source : MutableBatch.Error)
  | duplicateTag (name : List Char)
  | conflictedFieldTypes (name : List Char)

/-- `LineError`: the error of a line, with its 1-based number. -/
inductive LineError
  | lineProtocol (source : LineProtocol.Error) (line : ℕ)
  | write (source : LineWriteError) (line : ℕ)
  | timestampOverflow (line : ℕ)

/-- The crate's `Error`. -/
inductive Error
  | perLine (lines : List LineError)
  | emptyPayload

/-- `PayloadStatistics`. -/
structure PayloadStatistics where
  numFields : ℕ
  numLines : ℕ

/-- `LinesConverter`. -/
structure LinesConverter (F : Type) where
  defaultTime : Int64
  timestampBase : Int64
  stats : PayloadStatistics
  batches : AList (fun _ : List Char => MutableBatch F)

/-- `LinesConverter::new`. -/
def LinesConverter.new (defaultTime : Int64) : LinesConverter F := ⟨defaultTime, 1, ⟨0, 0⟩, ∅⟩

/-- `LinesConverter::set_timestamp_base`. -/
def LinesConverter.setTimestampBase (c : LinesConverter F) (timestampBase : Int64) :
    LinesConverter F :=
  { c with timestampBase }

/-! ### Writing one line -/

/-- `std::iter::once`. -/
def once {α : Type} (a : α) : ℕ → Option α := fun i => if i = 0 then some a else none

/-- How writing a line fails: with an error, or with a panic of its writer. -/
inductive LineFailure
  | error (e : LineWriteError)
  | panic

/-- `.context(MutableBatchSnafu)` on a failed write. -/
def LineFailure.ofWriter : MutableBatch.Failure → LineFailure
  | .error e => .error (.mutableBatch e)
  | .panic => .panic

/-- The tag loop of `write_line`: each tag is written, unless its key was seen before. -/
def writeTags [Zero F] : List (List Char) → List (List Char × List Char) → Writer F →
    Writer F × Option LineFailure
  | _, [], w => (w, none)
  | seen, (tagKey, tagValue) :: tags, w =>
    -- `seen.insert(tag_key)` is false for a key seen before
    if tagKey ∈ seen then (w, some (.error (.duplicateTag tagKey)))
    else
      match (Write.tag tagKey none (once tagValue)).apply w with
      | (w, none) => writeTags (tagKey :: seen) tags w
      | (w, some f) => (w, some (.ofWriter f))

/-- The write `write_line` makes for a field value. -/
def fieldWrite (fieldKey : List Char) : FieldValue F → Write F
  | .i64 v => .i64 fieldKey none (once v)
  | .u64 v => .u64 fieldKey none (once v)
  | .f64 v => .f64 fieldKey none (once v)
  | .string v => .string fieldKey none (once v)
  | .boolean v => .bool fieldKey none (once v)

/-- The field loop of `write_line`, over the fields from the last to the first: a key seen before
is skipped when its value has the type of the one written, and is an error otherwise. -/
def writeFields [Zero F] : List (List Char × FieldValue F) → List (List Char × FieldValue F) →
    Writer F → Writer F × Option LineFailure
  | _, [], w => (w, none)
  | seen, (fieldKey, fieldValue) :: fields, w =>
    match seen.lookup fieldKey with
    | some v =>
      if v.isSameType fieldValue then writeFields seen fields w
      else (w, some (.error (.conflictedFieldTypes fieldKey)))
    | none =>
      match (fieldWrite fieldKey fieldValue).apply w with
      | (w, none) => writeFields ((fieldKey, fieldValue) :: seen) fields w
      | (w, some f) => (w, some (.ofWriter f))

/-- `write_line`. -/
def writeLine [Zero F] (w : Writer F) (line : ParsedLine F) (defaultTime : Int64) :
    Writer F × Option LineFailure :=
  let (w, tagsFailure) := match line.series.tagSet with
    | some tags => writeTags [] tags w
    | none => (w, none)
  match tagsFailure with
  | some f => (w, some f)
  | none =>
    match writeFields [] line.fieldSet.reverse w with
    | (w, some f) => (w, some f)
    | (w, none) =>
      let time := line.timestamp.getD defaultTime
      match (Write.time "time".toList (once time)).apply w with
      | (w, none) => (w, none)
      | (w, some f) => (w, some (.ofWriter f))

/-! ### Converting lines -/

/-- `i64::checked_mul`. -/
def checkedMul (a b : Int64) : Option Int64 :=
  let p := a.toInt * b.toInt
  if -2 ^ 63 ≤ p ∧ p < 2 ^ 63 then some (Int64.ofInt p) else none

namespace LinesConverter

/-- `rebase_timestamp`. -/
def rebaseTimestamp (c : LinesConverter F) (line : ParsedLine F) (lineIdx : ℕ) :
    Except LineError (ParsedLine F) :=
  match line.timestamp with
  | none => .ok line
  | some t =>
    match checkedMul t c.timestampBase with
    | some t => .ok { line with timestamp := some t }
    | none => .error (.timestampOverflow (lineIdx + 1))

/-- `add_line_to_batch`: the line's error, if any; `none` when the writer panics. -/
def addLineToBatch [Zero F] (c : LinesConverter F) (line : ParsedLine F) (lineIdx : ℕ) :
    Option (LinesConverter F × Option LineError) :=
  let measurement := line.series.measurement
  -- `or_insert_with`: the batch is created, and stays, also when the line fails
  let batch := (c.batches.lookup measurement).getD .new
  match writeLine (Writer.new batch 1) line c.defaultTime with
  | (w, none) =>
    w.commit.map fun batch =>
      ({ c with
          batches := c.batches.insert measurement batch
          stats := ⟨c.stats.numFields + line.fieldSet.length, c.stats.numLines + 1⟩ }, none)
  | (w, some (.error e)) =>
    -- the drop of the writer rolls the line back
    w.rollback.map fun batch =>
      ({ c with batches := c.batches.insert measurement batch }, some (.write e (lineIdx + 1)))
  | (_, some .panic) => none

/-- The closure of `write_lp`'s `filter_map` on the line at `lineIdx`: its error, if any. -/
def convertLine [Zero F] (c : LinesConverter F)
    (maybeLine : Except LineProtocol.Error (ParsedLine F)) (lineIdx : ℕ) :
    Option (LinesConverter F × Option LineError) :=
  match maybeLine with
  | .error e => some (c, some (.lineProtocol e (lineIdx + 1)))
  | .ok line =>
    match c.rebaseTimestamp line lineIdx with
    | .error e => some (c, some e)
    | .ok line => c.addLineToBatch line lineIdx

/-- `take(MAXIMUM_RETURNED_ERRORS)` over the lazy `filter_map`: a line is converted only while
fewer errors than the maximum have been collected. -/
def convertLines [Zero F] : LinesConverter F →
    List (Except LineProtocol.Error (ParsedLine F) × ℕ) → List LineError →
      Option (LinesConverter F × List LineError)
  | c, [], errors => some (c, errors)
  | c, (maybeLine, lineIdx) :: lines, errors =>
    if errors.length = maximumReturnedErrors then some (c, errors)
    else
      match c.convertLine maybeLine lineIdx with
      | none => none
      | some (c, none) => convertLines c lines errors
      | some (c, some e) => convertLines c lines (errors ++ [e])

/-- `LinesConverter::write_lp`. -/
def writeLp [Zero F] (fl : FloatText F) (c : LinesConverter F) (lines : List Char) :
    Option (LinesConverter F × Except Error Unit) :=
  (convertLines c (parseLines fl lines).zipIdx []).map fun (c, errors) =>
    (c, if errors.isEmpty then .ok () else .error (.perLine errors))

/-- `LinesConverter::finish`: the batches that have rows, and the statistics. -/
def finish (c : LinesConverter F) :
    Except Error (List (List Char × MutableBatch F) × PayloadStatistics) :=
  let nonemptyBatches := (c.batches.entries.filter fun e => 0 < e.2.rows).map fun e => (e.1, e.2)
  if nonemptyBatches.isEmpty then .error .emptyPayload else .ok (nonemptyBatches, c.stats)

end LinesConverter

/-! ### The lines after the maximum of errors -/

section Take

variable [Zero F]

namespace LinesConverter

/-- Once the maximum of errors is collected, `take` pulls no more lines. -/
theorem convertLines_of_maximum (c : LinesConverter F)
    (lines : List (Except LineProtocol.Error (ParsedLine F) × ℕ)) {errors : List LineError}
    (h : errors.length = maximumReturnedErrors) : c.convertLines lines errors = some (c, errors) := by
  cases lines with
  | nil => rfl
  | cons p lines =>
    obtain ⟨maybeLine, lineIdx⟩ := p
    simp [convertLines, h]

/-- The lines of a concatenation are converted in turn. -/
theorem convertLines_append (c : LinesConverter F)
    (l₁ l₂ : List (Except LineProtocol.Error (ParsedLine F) × ℕ)) (errors : List LineError) :
    c.convertLines (l₁ ++ l₂) errors =
      (c.convertLines l₁ errors).bind fun (c, errors) => c.convertLines l₂ errors := by
  induction l₁ generalizing c errors with
  | nil => rfl
  | cons p l₁ ih =>
    obtain ⟨maybeLine, lineIdx⟩ := p
    by_cases h : errors.length = maximumReturnedErrors
    · simp [convertLines, h, convertLines_of_maximum c l₂ h]
    · simp only [List.cons_append, convertLines, if_neg h]
      cases c.convertLine maybeLine lineIdx with
      | none => rfl
      | some r =>
        obtain ⟨c', e⟩ := r
        cases e <;> simp [ih]

/-- Lines that do not parse leave the converter as it is, and each adds its error, up to the
maximum. -/
theorem convertLines_of_parse_errors (c : LinesConverter F) :
    ∀ (lines : List (Except LineProtocol.Error (ParsedLine F) × ℕ)) (errors : List LineError),
      (∀ p ∈ lines, p.1.isOk = false) → errors.length + lines.length ≤ maximumReturnedErrors →
        ∃ errors', c.convertLines lines errors = some (c, errors') ∧
          errors'.length = errors.length + lines.length
  | [], errors, _, _ => ⟨errors, rfl, rfl⟩
  | (maybeLine, lineIdx) :: lines, errors, hbad, hlen => by
    cases maybeLine with
    | ok line => simp [Except.isOk, Except.toBool] at hbad
    | error e =>
      simp only [List.length_cons] at hlen
      have hlt : errors.length ≠ maximumReturnedErrors := by omega
      obtain ⟨errors', h, hl⟩ := convertLines_of_parse_errors c lines
        (errors ++ [.lineProtocol e (lineIdx + 1)]) (fun p hp => hbad p (List.mem_cons_of_mem _ hp))
        (by simp only [List.length_append, List.length_singleton]; omega)
      have hl' : errors'.length = errors.length + (lines.length + 1) := by
        rw [hl, List.length_append, List.length_singleton]
        omega
      refine ⟨errors', ?_, by rw [List.length_cons, hl']⟩
      simp [convertLines, hlt, convertLine, h]

end LinesConverter

open LinesConverter in
/-- After `MAXIMUM_RETURNED_ERRORS` lines that do not parse, `write_lp` converts nothing more: it
leaves the converter as it was and returns those errors, whatever the lines after them hold. -/
theorem writeLp_ignores_lines_after_maximum_errors (fl : FloatText F) (c : LinesConverter F)
    (input : List Char) (pre post : List (Except LineProtocol.Error (ParsedLine F)))
    (hparse : parseLines fl input = pre ++ post) (hpre : ∀ r ∈ pre, r.isOk = false)
    (hlen : pre.length = maximumReturnedErrors) :
    ∃ errors, c.writeLp fl input = some (c, .error (.perLine errors)) ∧
      errors.length = maximumReturnedErrors := by
  obtain ⟨errors, hconv, herrs⟩ := convertLines_of_parse_errors c (pre.zipIdx 0) []
    (fun p hp => hpre p.1 (List.fst_mem_of_mem_zipIdx hp)) (by simp [hlen])
  have hmax : errors.length = maximumReturnedErrors := by simpa [hlen] using herrs
  have hne : errors ≠ [] := by
    intro hnil
    simp [hnil, maximumReturnedErrors] at hmax
  refine ⟨errors, ?_, hmax⟩
  rw [writeLp, hparse, List.zipIdx_append, convertLines_append, hconv]
  simp [convertLines_of_maximum c _ hmax, hne]

end Take

/-- A hundred lines that do not parse, then a good line. -/
def hundredBadLinesThenGood : List Char :=
  (List.replicate maximumReturnedErrors "x\n".toList).flatten ++ "m f=1i".toList

/-- The good line after a hundred bad ones parses, but `write_lp` leaves the converter empty. -/
theorem hundred_bad_lines_drop_good_line :
    (parseLines wholeFloat hundredBadLinesThenGood).drop maximumReturnedErrors =
        [.ok ⟨⟨"m".toList, "m".toList, none⟩, [("f".toList, .i64 1)], none⟩] ∧
      ∃ errors, (LinesConverter.new 0 : LinesConverter Int64).writeLp wholeFloat
          hundredBadLinesThenGood = some (LinesConverter.new 0, .error (.perLine errors)) ∧
        errors.length = maximumReturnedErrors := by
  have h := writeLp_ignores_lines_after_maximum_errors wholeFloat (LinesConverter.new 0)
    hundredBadLinesThenGood
    ((parseLines wholeFloat hundredBadLinesThenGood).take maximumReturnedErrors)
    ((parseLines wholeFloat hundredBadLinesThenGood).drop maximumReturnedErrors)
    (List.take_append_drop _ _).symm (by decide) (by decide)
  exact ⟨rfl, h⟩

/-- On its own, the same line is written: `finish` has one row for `m`. -/
example : ((LinesConverter.new 0 : LinesConverter Int64).writeLp wholeFloat "m f=1i".toList).map
    (fun r => r.1.finish.toOption.map fun b => b.1.map fun e => (e.1, e.2.rows)) =
      some (some [("m".toList, 1)]) := by
  decide +kernel

end IoxCore.MutableBatchLp

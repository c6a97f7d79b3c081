import IoxCore.Lib.Runs

/-!
# Deduplication of a sorted stream of record batches

The `RecordBatchDeduplicator` of `iox_query::provider::deduplicate::algo` and the
`deduplicate` task of `DeduplicateExec` that drives it: each input batch is first compared
with the run left open by the previous one (`last_batch_with_no_same_sort_key`), then
appended to it and deduplicated (`push`), and at the end of the stream the open run is
deduplicated too (`finish`).

What it is for: whole-input deduplication (`dedup`), which merges every maximal run of rows
with equal sort key tuples (`List.splitBy`) into one row holding the run's key values and, in
every other column, the last non-NULL value of the run.

## The model

A record batch is a list of rows, a row one cell per column, `none` for NULL; sort key columns
are given by their index. arrow's `partition` is `Runs.runs` of the rows' sort key tuples: it
compares NULL equal to NULL, and the order of the key columns does not change the runs. A panic
(an empty key column at the boundary check) or an error (`partition` without a column) ends the
stream: `none`. The metrics, `optimize_dictionaries` and the channel are not modelled.

## Results

* `deduplicate_eq_dedup`: with a sort key, no empty batch and no NULL key value, the rows sent
  downstream are `dedup` of the whole input, however the rows fall into batches, by the
  invariant `Sent`: the open run is the last group of the rows seen so far, and the rows sent
  are the merged groups before it.
* `deduplicate_splits_null_key_run`: a run of NULL keys that straddles a batch boundary is
  sent as two rows, since the boundary check takes NULL as different.
* `deduplicate_panics_on_empty_batch`: an empty batch after a nonempty one panics.
-/

namespace IoxCore.IoxQuery

open Runs

/-- A row of a record batch: one cell per column, `none` for NULL. -/
abbrev Row (V : Type) := List (Option V)

/-- A record batch, row by row. -/
abbrev Batch (V : Type) := List (Row V)

section Deduplicate

variable {V : Type} [DecidableEq V] {batch : Batch V}

/-- The sort key tuple of a row: its values in the sort key columns. -/
def sortKeyOf (sortKeys : List ℕ) (row : Row V) : List (Option V) :=
  sortKeys.map (row.getD · none)

/-- Two rows with the same sort key tuple, NULL equal to NULL. -/
def sameSortKey (sortKeys : List ℕ) (x y : Row V) : Bool :=
  decide (sortKeyOf sortKeys x = sortKeyOf sortKeys y)

/-! ### Whole-input deduplication -/

/-- A run of rows with equal sort keys merged into one row: the run's sort key values, and in
every other column the value of the last row of the run where it is non-NULL. -/
def mergeRun (sortKeys : List ℕ) (numColumns : ℕ) (run : Batch V) : Row V :=
  (List.range numColumns).map fun j =>
    if j ∈ sortKeys then (run.headD []).getD j none
    else ((run.map (·.getD j none)).filterMap id).getLast?

/-- One merged row per maximal run of rows with equal sort key tuples. -/
def dedup (sortKeys : List ℕ) (numColumns : ℕ) (rows : Batch V) : Batch V :=
  (rows.splitBy (sameSortKey sortKeys)).map (mergeRun sortKeys numColumns)

omit [DecidableEq V] in
/-- A run of one row merges to the row itself. -/
theorem mergeRun_singleton {sortKeys : List ℕ} {numColumns : ℕ} {row : Row V}
    (h : row.length = numColumns) : mergeRun sortKeys numColumns [row] = row := by
  apply List.ext_getElem
  · simp [mergeRun, h]
  · intro j h₁ h₂
    have hcell : ([row.getD j none].filterMap id).getLast? = row.getD j none := by
      cases row.getD j none <;> rfl
    simp only [mergeRun, List.getElem_map, List.getElem_range, List.headD_cons, List.map_cons,
      List.map_nil, hcell, ite_self]
    simp [List.getD_eq_getElem?_getD, h₂]

/-! ### arrow's kernels -/

namespace Arrow

/-- arrow's take kernel: the cells of a column at the indices. -/
def take (array : List (Option V)) (indices : List ℕ) : List (Option V) :=
  indices.map (array.getD · none)

/-- RecordBatch::try_new: the rows of a batch given by its columns, of `numRows` cells each. -/
def fromColumns (columns : List (List (Option V))) (numRows : ℕ) : Batch V :=
  (List.range numRows).map fun k => columns.map (·.getD k none)

end Arrow

/-! ### The deduplicator -/

/-- A deduplicator: the sort key columns, the number of columns of the schema, and the rows of
the run left open by the last push. -/
structure RecordBatchDeduplicator (V : Type) where
  /-- The index in the schema of each sort key column. -/
  sortKeys : List ℕ
  /-- The number of columns of the schema, which every batch of the stream has. -/
  numColumns : ℕ
  /-- The rows of the last run, which may go on in the next batch. -/
  lastBatch : Option (Batch V)

namespace RecordBatchDeduplicator

variable (d : RecordBatchDeduplicator V)

/-- compute_ranges: arrow's partition of the sort key columns, the ranges of the maximal runs
of rows with equal sort key tuples; partition refuses an empty list of columns. -/
def computeRanges (batch : Batch V) : Option (List (ℕ × ℕ)) :=
  if d.sortKeys = [] then none
  else some ((runs (batch.map (sortKeyOf d.sortKeys))).map (·.2))

/-- slice_record_batch: the `len` rows from `offset` on. -/
def sliceRecordBatch (batch : Batch V) (offset len : ℕ) : Batch V :=
  (batch.drop offset).take len

/-- compute_sort_key_indices: the first index of each range. -/
def computeSortKeyIndices (ranges : List (ℕ × ℕ)) : List ℕ :=
  ranges.map (·.1)

/-- compute_field_indices: for each range the last index where the column is non-NULL, or the
range's first index where there is none. -/
def computeFieldIndices (ranges : List (ℕ × ℕ)) (inputArray : List (Option V)) : List ℕ :=
  ranges.map fun r =>
    (((List.range' r.1 (r.2 - r.1)).filter fun i => (inputArray.getD i none).isSome).getLast?).getD
      r.1

/-- output_from_ranges: one row per range. Without duplicates, the first rows of the batch,
one per range; otherwise every column taken at the range's first index (a sort key column) or
at its last non-NULL index (any other column). -/
def outputFromRanges (batch : Batch V) (ranges : List (ℕ × ℕ)) : Batch V :=
  let numDupes := (ranges.map fun r => r.2 - r.1 - 1).sum
  if numDupes = 0 then sliceRecordBatch batch 0 ranges.length
  else
    let sortKeyIndices := computeSortKeyIndices ranges
    let newColumns := (List.range d.numColumns).map fun inputIndex =>
      let inputArray := batch.map (·.getD inputIndex none)
      if inputIndex ∈ d.sortKeys then Arrow.take inputArray sortKeyIndices
      else Arrow.take inputArray (computeFieldIndices ranges inputArray)
    Arrow.fromColumns newColumns ranges.length

/-- push: the batch appended to the open run and deduplicated; the last run is kept open. -/
def push (batch : Batch V) : Option (Batch V × RecordBatchDeduplicator V) := do
  let batch := match d.lastBatch with
    | some lastBatch => lastBatch ++ batch
    | none => batch
  let ranges ← d.computeRanges batch
  -- the last run may go on in the next batch
  let lastRange := ranges.getLast?
  let outputRecordBatch := d.outputFromRanges batch ranges.dropLast
  some (outputRecordBatch,
    { d with lastBatch := lastRange.map fun r => sliceRecordBatch batch r.1 (r.2 - r.1) })

/-- The comparison loop of last_batch_with_no_same_sort_key: the last row of the open run and
the first row of the batch hold equal values in every sort key column. -/
def sortKeysMatch (sortKeys : List ℕ) (lastRow row : Row V) : Bool :=
  sortKeys.all fun index =>
    match lastRow.getD index none, row.getD index none with
    | some l, some r => decide (l = r)
    -- at least one of the values is NULL: they are taken as different
    | _, _ => false

/-- last_batch_with_no_same_sort_key: the open run, deduplicated, when the batch does not
go on with its sort key; the open run stays open when it does. -/
def lastBatchWithNoSameSortKey (batch : Batch V) :
    Option (Option (Batch V) × RecordBatchDeduplicator V) :=
  match d.lastBatch with
  | none => some (none, d)
  | some lastBatch =>
    -- a sort key column with no data, of either batch, panics
    if d.sortKeys ≠ [] ∧ (lastBatch = [] ∨ batch = []) then none
    else if sortKeysMatch d.sortKeys (lastBatch.getLastD []) (batch.headD []) then some (none, d)
    else
      some (some (d.outputFromRanges lastBatch [(0, lastBatch.length)]),
        { d with lastBatch := none })

/-- finish: the open run, deduplicated. -/
def finish : Option (Option (Batch V)) :=
  match d.lastBatch with
  | none => some none
  | some lastBatch =>
    (d.computeRanges lastBatch).map fun ranges => some (d.outputFromRanges lastBatch ranges)

/-! ### Ranges, slices and the rows output for them -/

variable {d}

theorem computeRanges_of_ne_nil (h : d.sortKeys ≠ []) (batch : Batch V) :
    d.computeRanges batch = some ((runs (batch.map (sortKeyOf d.sortKeys))).map (·.2)) := by
  simp [computeRanges, h]

/-- Sliced out of the batch, the ranges of partition are the maximal runs of rows with equal
sort key tuples. -/
theorem map_slice_ranges (sortKeys : List ℕ) (batch : Batch V) :
    ((runs (batch.map (sortKeyOf sortKeys))).map (·.2)).map
        (fun r => sliceRecordBatch batch r.1 (r.2 - r.1)) =
      batch.splitBy (sameSortKey sortKeys) := by
  rw [List.map_map]
  exact map_slice_runs_map (sortKeyOf sortKeys) batch

theorem bounds_of_mem_ranges {sortKeys : List ℕ} {r : ℕ × ℕ}
    (hr : r ∈ (runs (batch.map (sortKeyOf sortKeys))).map (·.2)) :
    r.1 < r.2 ∧ r.2 ≤ batch.length := by
  obtain ⟨r', hr', rfl⟩ := List.mem_map.1 hr
  have hle := le_length_of_mem_runs hr'
  rw [List.length_map] at hle
  exact ⟨lt_of_mem_runs hr', hle⟩

omit [DecidableEq V] in
/-- Over the first `n` indices from `s`, the cell of the last non-NULL index is the last
non-NULL cell; the induction adds one index at the end. -/
theorem bind_getLast?_filter_range' (c : List (Option V)) (s : ℕ) : ∀ n, s + n ≤ c.length →
      (((List.range' s n).filter fun i => (c.getD i none).isSome).getLast?).bind
          (c.getD · none) =
        (((c.drop s).take n).filterMap id).getLast?
  | 0, _ => by simp
  | n + 1, h => by
    have ih := bind_getLast?_filter_range' c s n (by omega)
    have hcell : (c.drop s)[n]? = some (c.getD (s + n) none) := by
      rw [List.getElem?_drop, List.getD_eq_getElem?_getD,
        List.getElem?_eq_getElem (by omega), Option.getD_some]
    rw [List.range'_concat, Nat.one_mul, List.filter_append, List.take_add_one, hcell,
      List.filterMap_append, List.getLast?_append, List.getLast?_append, ← ih]
    cases hv : c.getD (s + n) none with
    | none => simp only [List.filter_cons, List.filter_nil, hv, Option.isSome_none,
        Bool.false_eq_true, if_false, List.getLast?_nil, Option.none_or, Option.toList_some,
        List.filterMap_cons, id, List.filterMap_nil]
    | some v => simp only [List.filter_cons, List.filter_nil, hv, Option.isSome_some, if_true,
        List.getLast?_singleton, Option.some_or, Option.bind_some, Option.toList_some,
        List.filterMap_cons, id, List.filterMap_nil]

omit [DecidableEq V] in
/-- The cell at a range's field index is the last non-NULL cell of the range. -/
theorem getD_fieldIndex (c : List (Option V)) {s e : ℕ} (hse : s < e) (he : e ≤ c.length) :
    c.getD ((((List.range' s (e - s)).filter fun i => (c.getD i none).isSome).getLast?).getD s)
        none =
      (((c.drop s).take (e - s)).filterMap id).getLast? := by
  rw [← bind_getLast?_filter_range' c s (e - s) (by omega)]
  cases hl : ((List.range' s (e - s)).filter fun i => (c.getD i none).isSome).getLast? with
  | some i => rfl
  | none =>
    -- no index of the range is non-NULL, its first one included
    rw [List.getLast?_eq_none_iff, List.filter_eq_nil_iff] at hl
    have hs := hl s (List.mem_range'.2 ⟨0, by omega, by omega⟩)
    simpa using hs

omit [DecidableEq V] in
/-- With duplicates, each range gives the merged row of its slice. -/
theorem outputFromRanges_of_numDupes_ne_zero {ranges : List (ℕ × ℕ)}
    (hdup : (ranges.map fun r => r.2 - r.1 - 1).sum ≠ 0)
    (hb : ∀ r ∈ ranges, r.1 < r.2 ∧ r.2 ≤ batch.length) :
    d.outputFromRanges batch ranges =
      ranges.map fun r => mergeRun d.sortKeys d.numColumns (sliceRecordBatch batch r.1 (r.2 - r.1)) := by
  simp only [outputFromRanges, if_neg hdup]
  apply List.ext_getElem
  · simp [Arrow.fromColumns]
  · intro k h₁ h₂
    have hk : k < ranges.length := by simpa using h₂
    obtain ⟨hs, he⟩ := hb ranges[k] (List.getElem_mem hk)
    have hi : ranges[k].1 < batch.length := by omega
    simp only [Arrow.fromColumns, List.getElem_map, List.getElem_range, mergeRun, List.map_map]
    apply List.map_congr_left
    intro j _
    by_cases hkey : j ∈ d.sortKeys
    · simp [hkey, Arrow.take, computeSortKeyIndices, sliceRecordBatch, hk, List.headD_eq_head?_getD,
        List.getD_eq_getElem?_getD, List.head?_take, List.head?_drop, Nat.sub_ne_zero_of_lt hs,
        List.getElem?_eq_getElem hi]
    · have hfield := getD_fieldIndex (batch.map (·.getD j none)) hs (by simpa using he)
      have hlen : k < (computeFieldIndices ranges (batch.map (·.getD j none))).length := by
        simpa [computeFieldIndices] using hk
      simp only [Function.comp, hkey, if_false]
      rw [Arrow.take, List.getD_eq_getElem _ _ (by simpa using hlen), List.getElem_map]
      simp only [computeFieldIndices, List.getElem_map]
      rw [hfield, sliceRecordBatch, List.map_take, List.map_drop]

/-- For a prefix of the ranges of partition, each range gives the merged row of its slice,
on the path without duplicates too: there every range has one row, and the first rows of the
batch are those rows. -/
theorem outputFromRanges_of_prefix_ranges {ranges : List (ℕ × ℕ)}
    (hpre : ranges <+: (runs (batch.map (sortKeyOf d.sortKeys))).map (·.2))
    (hw : ∀ row ∈ batch, row.length = d.numColumns) :
    d.outputFromRanges batch ranges =
      ranges.map fun r => mergeRun d.sortKeys d.numColumns (sliceRecordBatch batch r.1 (r.2 - r.1)) := by
  have hb : ∀ r ∈ ranges, r.1 < r.2 ∧ r.2 ≤ batch.length := fun r hr =>
    bounds_of_mem_ranges (hpre.subset hr)
  by_cases hdup : (ranges.map fun r => r.2 - r.1 - 1).sum = 0
  · have hone : ∀ r ∈ ranges, ∃ row ∈ batch, sliceRecordBatch batch r.1 (r.2 - r.1) = [row] := by
      intro r hr
      obtain ⟨hs, he⟩ := hb r hr
      have h0 := List.sum_eq_zero_iff_forall_eq_nat.1 hdup _ (List.mem_map_of_mem hr)
      refine ⟨batch[r.1], List.getElem_mem _, ?_⟩
      rw [sliceRecordBatch, show r.2 - r.1 = 1 by omega, List.take_one, List.head?_drop,
        List.getElem?_eq_getElem (by omega), Option.toList_some]
    have htake := (List.prefix_iff_eq_take.1 hpre).symm
    simp only [outputFromRanges, if_pos hdup]
    calc sliceRecordBatch batch 0 ranges.length
        = ((batch.splitBy (sameSortKey d.sortKeys)).flatten).take ranges.length := by
          rw [List.flatten_splitBy, sliceRecordBatch, List.drop_zero]
      _ = (ranges.map fun r => sliceRecordBatch batch r.1 (r.2 - r.1)).flatten := by
          rw [← map_slice_ranges, take_flatten_of_length_eq_one, ← List.map_take, htake]
          rw [← List.map_take, htake]
          intro g hg
          obtain ⟨r, hr, rfl⟩ := List.mem_map.1 hg
          obtain ⟨row, -, hrow⟩ := hone r hr
          simp [hrow]
      _ = _ := by
          rw [← List.flatMap_def, List.map_eq_flatMap]
          apply List.flatMap_congr
          intro r hr
          obtain ⟨row, hrow, hslice⟩ := hone r hr
          rw [hslice, mergeRun_singleton (hw row hrow)]
  · exact outputFromRanges_of_numDupes_ne_zero hdup hb

omit [DecidableEq V] in
/-- One range over a whole run gives the run merged. -/
theorem outputFromRanges_whole (hne : batch ≠ []) (hw : ∀ row ∈ batch, row.length = d.numColumns) :
    d.outputFromRanges batch [(0, batch.length)] = [mergeRun d.sortKeys d.numColumns batch] := by
  have hpos : 0 < batch.length := List.length_pos_iff.2 hne
  by_cases hdup : ([(0, batch.length)].map fun r => r.2 - r.1 - 1).sum = 0
  · obtain ⟨row, rfl⟩ : ∃ row, batch = [row] :=
      List.length_eq_one_iff.1 (by simp at hdup; omega)
    simp only [outputFromRanges, if_pos hdup]
    simp [sliceRecordBatch, mergeRun_singleton (hw row (by simp))]
  · rw [outputFromRanges_of_numDupes_ne_zero hdup (by simpa using hpos)]
    simp [sliceRecordBatch]

/-- push deduplicates the open run followed by the batch: every group but the last is output,
and the last is kept open. -/
theorem push_eq (hsk : d.sortKeys ≠ [])
    (hw : ∀ row ∈ d.lastBatch.getD [] ++ batch, row.length = d.numColumns) :
    d.push batch =
      some ((((d.lastBatch.getD [] ++ batch).splitBy (sameSortKey d.sortKeys)).dropLast).map
          (mergeRun d.sortKeys d.numColumns),
        { d with
          lastBatch := ((d.lastBatch.getD [] ++ batch).splitBy (sameSortKey d.sortKeys)).getLast? }) := by
  obtain ⟨B, rfl, hpush⟩ : ∃ B, B = d.lastBatch.getD [] ++ batch ∧
      d.push batch = (d.computeRanges B).bind fun ranges =>
        some (d.outputFromRanges B ranges.dropLast,
          { d with lastBatch := ranges.getLast?.map fun r => sliceRecordBatch B r.1 (r.2 - r.1) }) := by
    cases hd : d.lastBatch <;> exact ⟨_, rfl, by simp [push, hd]⟩
  rw [hpush, computeRanges_of_ne_nil hsk, Option.bind_some,
    outputFromRanges_of_prefix_ranges (List.dropLast_prefix _) hw, ← map_slice_ranges]
  simp only [List.map_dropLast, List.map_map, List.getLast?_map, Option.map_map]
  rfl

theorem sortKeysMatch_eq {sortKeys : List ℕ} {x y : Row V}
    (hx : ∀ j ∈ sortKeys, x.getD j none ≠ none) (hy : ∀ j ∈ sortKeys, y.getD j none ≠ none) :
    sortKeysMatch sortKeys x y = sameSortKey sortKeys x y := by
  induction sortKeys with
  | nil => rfl
  | cons j js ih =>
    obtain ⟨a, ha⟩ := Option.ne_none_iff_exists'.1 (hx j (by simp))
    obtain ⟨b, hb⟩ := Option.ne_none_iff_exists'.1 (hy j (by simp))
    have ih' := ih (fun i hi => hx i (by simp [hi])) (fun i hi => hy i (by simp [hi]))
    simp only [sortKeysMatch, sameSortKey, sortKeyOf] at ih' ⊢
    simp only [List.all_cons, ih', List.map_cons, ha, hb, List.cons.injEq, Option.some.injEq,
      Bool.decide_and]
    congr

/-- The boundary check with a run open: the batch goes on with the run's sort key, and the
run stays open; or it does not, and the run is sent merged. -/
theorem lastBatchWithNoSameSortKey_of_some {L batch : Batch V} (hd : d.lastBatch = some L)
    (hL : L ≠ []) (hb : batch ≠ [])
    (hx : ∀ j ∈ d.sortKeys, (L.getLast hL).getD j none ≠ none)
    (hy : ∀ j ∈ d.sortKeys, (batch.head hb).getD j none ≠ none) :
    d.lastBatchWithNoSameSortKey batch =
      if sameSortKey d.sortKeys (L.getLast hL) (batch.head hb) then some (none, d)
      else some (some (d.outputFromRanges L [(0, L.length)]), { d with lastBatch := none }) := by
  have hguard : ¬(d.sortKeys ≠ [] ∧ (L = [] ∨ batch = [])) := by simp [hL, hb]
  have hlast : L.getLastD [] = L.getLast hL := by
    rw [List.getLastD_eq_getLast?, List.getLast?_eq_some_getLast hL, Option.getD_some]
  have hhead : batch.headD [] = batch.head hb := by
    rw [List.headD_eq_head?_getD, List.head?_eq_some_head hb, Option.getD_some]
  simp only [lastBatchWithNoSameSortKey, hd, if_neg hguard, hlast, hhead, sortKeysMatch_eq hx hy]

end RecordBatchDeduplicator

variable {d : RecordBatchDeduplicator V}

/-! ### The driver -/

open RecordBatchDeduplicator

/-- The batches sent downstream: only those with rows. -/
def sendIfNonEmpty : Option (Batch V) → List (Batch V)
  | some batch => if 0 < batch.length then [batch] else []
  | none => []

/-- One turn of the loop of deduplicate: the batches sent for one input batch. -/
def deduplicateStep (d : RecordBatchDeduplicator V) (batch : Batch V) :
    Option (List (Batch V) × RecordBatchDeduplicator V) := do
  let (lastBatch, d) ← d.lastBatchWithNoSameSortKey batch
  let (outputBatch, d) ← d.push batch
  some (sendIfNonEmpty lastBatch ++ sendIfNonEmpty (some outputBatch), d)

/-- The loop of deduplicate over the input batches. -/
def deduplicateLoop (d : RecordBatchDeduplicator V) :
    List (Batch V) → Option (List (Batch V) × RecordBatchDeduplicator V)
  | [] => some ([], d)
  | batch :: batches => do
    let (sent, d) ← deduplicateStep d batch
    let (rest, d) ← deduplicateLoop d batches
    some (sent ++ rest, d)

/-- deduplicate: the batches sent downstream for a stream of input batches; `none` when a
panic or an error ends the stream. -/
def deduplicate (sortKeys : List ℕ) (numColumns : ℕ) (batches : List (Batch V)) :
    Option (List (Batch V)) := do
  let deduplicator : RecordBatchDeduplicator V := ⟨sortKeys, numColumns, none⟩
  let (sent, deduplicator) ← deduplicateLoop deduplicator batches
  let outputBatch ← deduplicator.finish
  some (sent ++ sendIfNonEmpty outputBatch)

/-! ### The loop keeps the groups -/

/-- A row as the deduplicator expects it: one cell per column, and a value in every sort key
column. -/
def RowFits (sortKeys : List ℕ) (numColumns : ℕ) (row : Row V) : Prop :=
  row.length = numColumns ∧ ∀ j ∈ sortKeys, row.getD j none ≠ none

omit [DecidableEq V] in
@[simp] theorem flatten_sendIfNonEmpty (batch : Option (Batch V)) :
    (sendIfNonEmpty batch).flatten = batch.getD [] := by
  cases batch with
  | none => rfl
  | some b =>
    by_cases h : 0 < b.length
    · simp [sendIfNonEmpty, h]
    · have hb : b = [] := List.length_eq_zero_iff.1 (by omega)
      simp [sendIfNonEmpty, hb]

/-- One turn of the loop sends the merged groups of the open run followed by the batch, all
but the last, which stays open. Without a common sort key at the boundary the open run is sent
first, on its own: it is the first of those groups. -/
theorem deduplicateStep_eq (hsk : d.sortKeys ≠ []) (hb : batch ≠ [])
    (hopen : ∀ L, d.lastBatch = some L → L ≠ [] ∧ L.splitBy (sameSortKey d.sortKeys) = [L])
    (hfit : ∀ row ∈ d.lastBatch.getD [] ++ batch, RowFits d.sortKeys d.numColumns row) :
    ∃ out, deduplicateStep d batch =
        some (out, { d with
          lastBatch := ((d.lastBatch.getD [] ++ batch).splitBy (sameSortKey d.sortKeys)).getLast? }) ∧
      out.flatten = (((d.lastBatch.getD [] ++ batch).splitBy (sameSortKey d.sortKeys)).dropLast).map
        (mergeRun d.sortKeys d.numColumns) := by
  have hw : ∀ row ∈ d.lastBatch.getD [] ++ batch, row.length = d.numColumns :=
    fun row hr => (hfit row hr).1
  have hpush := push_eq hsk hw
  cases hd : d.lastBatch with
  | none =>
    simp only [hd, Option.getD_none, List.nil_append] at hpush ⊢
    exact ⟨_, by
      simp only [deduplicateStep, lastBatchWithNoSameSortKey, hd, hpush, Option.bind_eq_bind,
        Option.bind_some]
      rfl, by simp⟩
  | some L =>
    obtain ⟨hL, hsplit⟩ := hopen L hd
    simp only [hd, Option.getD_some] at hw hfit hpush ⊢
    have hx : ∀ j ∈ d.sortKeys, (L.getLast hL).getD j none ≠ none :=
      (hfit _ (List.mem_append_left _ (List.getLast_mem hL))).2
    have hy : ∀ j ∈ d.sortKeys, (batch.head hb).getD j none ≠ none :=
      (hfit _ (List.mem_append_right _ (List.head_mem hb))).2
    have hcheck := lastBatchWithNoSameSortKey_of_some hd hL hb hx hy
    by_cases hsame : sameSortKey d.sortKeys (L.getLast hL) (batch.head hb)
    · -- the run goes on in the batch and stays open
      rw [if_pos hsame] at hcheck
      exact ⟨_, by
        simp only [deduplicateStep, hcheck, hpush, Option.bind_eq_bind, Option.bind_some]
        rfl, by simp⟩
    · -- the run ends at the boundary: it is sent, and the batch is pushed alone
      rw [if_neg hsame, outputFromRanges_whole hL (fun row hr => hw row (List.mem_append_left _ hr))]
        at hcheck
      have hpush' := push_eq (d := { d with lastBatch := none }) hsk
        (fun row hr => hw row (List.mem_append_right _ (by simpa using hr)))
      simp only [Option.getD_none, List.nil_append] at hpush'
      have hboundary : ∀ x ∈ L.getLast?, ∀ y ∈ batch.head?, sameSortKey d.sortKeys x y = false := by
        intro x hx' y hy'
        rw [List.getLast?_eq_some_getLast hL, Option.mem_some_iff] at hx'
        rw [List.head?_eq_some_head hb, Option.mem_some_iff] at hy'
        rw [← hx', ← hy']
        simpa using hsame
      have hS : batch.splitBy (sameSortKey d.sortKeys) ≠ [] := List.splitBy_ne_nil.2 hb
      rw [List.splitBy_append hboundary, hsplit, List.singleton_append,
        List.dropLast_cons_of_ne_nil hS, List.getLast?_cons,
        List.getLast?_eq_some_getLast hS, Option.getD_some, ← List.getLast?_eq_some_getLast hS]
      exact ⟨_, by
        simp only [deduplicateStep, hcheck, hpush', Option.bind_eq_bind, Option.bind_some]
        rfl, by simp⟩

/-- The invariant of the loop of deduplicate, after the rows `rows` with the rows `sent` sent
downstream: the open run is the last group of the rows, and the rows sent are the other groups
merged. -/
structure Sent (d : RecordBatchDeduplicator V) (rows sent : Batch V) : Prop where
  lastBatch_eq : d.lastBatch = (rows.splitBy (sameSortKey d.sortKeys)).getLast?
  sent_eq :
    sent = ((rows.splitBy (sameSortKey d.sortKeys)).dropLast).map (mergeRun d.sortKeys d.numColumns)

theorem sent_init (sortKeys : List ℕ) (numColumns : ℕ) :
    Sent (⟨sortKeys, numColumns, none⟩ : RecordBatchDeduplicator V) [] [] :=
  ⟨rfl, rfl⟩

/-- The open run is a whole group of the rows. -/
theorem Sent.open_group {rows sent : Batch V}
    (h : Sent d rows sent) (L : Batch V) (hL : d.lastBatch = some L) :
    L ≠ [] ∧ L.splitBy (sameSortKey d.sortKeys) = [L] ∧ L ⊆ rows := by
  rw [h.lastBatch_eq] at hL
  have hmem : L ∈ rows.splitBy (sameSortKey d.sortKeys) := List.mem_of_mem_getLast? hL
  have hne := List.ne_nil_of_mem_splitBy hmem
  refine ⟨hne, List.splitBy_of_isChain hne (List.isChain_of_mem_splitBy hmem), ?_⟩
  intro row hrow
  rw [← List.flatten_splitBy (sameSortKey d.sortKeys) rows]
  exact List.mem_flatten.2 ⟨L, hmem, hrow⟩

/-- The step lemma: one turn of the loop keeps the invariant. -/
theorem Sent.step {rows sent batch : Batch V}
    (h : Sent d rows sent) (hsk : d.sortKeys ≠ []) (hb : batch ≠ [])
    (hfit : ∀ row ∈ rows ++ batch, RowFits d.sortKeys d.numColumns row) :
    ∃ out d', deduplicateStep d batch = some (out, d') ∧ d'.sortKeys = d.sortKeys ∧
      d'.numColumns = d.numColumns ∧ Sent d' (rows ++ batch) (sent ++ out.flatten) := by
  have hopen := h.open_group
  have hfit' : ∀ row ∈ d.lastBatch.getD [] ++ batch, RowFits d.sortKeys d.numColumns row := by
    intro row hr
    rcases List.mem_append.1 hr with hr | hr
    · cases hd : d.lastBatch with
      | none => simp [hd] at hr
      | some L =>
        rw [hd, Option.getD_some] at hr
        exact hfit row (List.mem_append_left _ ((hopen L hd).2.2 hr))
    · exact hfit row (List.mem_append_right _ hr)
  obtain ⟨out, hstep, hout⟩ :=
    deduplicateStep_eq hsk hb (fun L hL => ⟨(hopen L hL).1, (hopen L hL).2.1⟩) hfit'
  have hopen_eq : d.lastBatch.getD [] = (rows.splitBy (sameSortKey d.sortKeys)).getLast?.getD [] := by
    rw [h.lastBatch_eq]
  have hS : (d.lastBatch.getD [] ++ batch).splitBy (sameSortKey d.sortKeys) ≠ [] :=
    List.splitBy_ne_nil.2 (by simp [hb])
  refine ⟨out, _, hstep, rfl, rfl, ⟨?_, ?_⟩⟩
  · show ((d.lastBatch.getD [] ++ batch).splitBy (sameSortKey d.sortKeys)).getLast? =
      ((rows ++ batch).splitBy (sameSortKey d.sortKeys)).getLast?
    rw [splitBy_append_reopen _ rows batch, ← hopen_eq, List.getLast?_append_of_ne_nil _ hS]
  · show sent ++ out.flatten =
      (((rows ++ batch).splitBy (sameSortKey d.sortKeys)).dropLast).map (mergeRun d.sortKeys d.numColumns)
    rw [hout, h.sent_eq, splitBy_append_reopen _ rows batch, ← hopen_eq,
      List.dropLast_append_of_ne_nil hS,
      List.map_append]

/-- The run lemma: the whole loop keeps the invariant. The induction is on the batches, from
any state that has it. -/
theorem Sent.loop : ∀ {d : RecordBatchDeduplicator V} {rows sent : Batch V}
    (batches : List (Batch V)), Sent d rows sent → d.sortKeys ≠ [] →
      (∀ batch ∈ batches, batch ≠ []) →
      (∀ row ∈ rows ++ batches.flatten, RowFits d.sortKeys d.numColumns row) →
      ∃ out d', deduplicateLoop d batches = some (out, d') ∧ d'.sortKeys = d.sortKeys ∧
        d'.numColumns = d.numColumns ∧ Sent d' (rows ++ batches.flatten) (sent ++ out.flatten)
  | d, _, _, [], h, _, _, _ => ⟨[], d, rfl, rfl, rfl, by simpa using h⟩
  | _, _, _, batch :: batches, h, hsk, hne, hfit => by
    obtain ⟨out, d₁, hstep, hsk₁, hnc₁, h₁⟩ := h.step hsk (hne batch (by simp))
      (fun row hr => hfit row (by simp only [List.flatten_cons, List.mem_append] at hr ⊢; tauto))
    obtain ⟨rest, d₂, hloop, hsk₂, hnc₂, h₂⟩ := Sent.loop batches h₁ (hsk₁ ▸ hsk)
      (fun b hb => hne b (List.mem_cons_of_mem _ hb))
      (by rw [hsk₁, hnc₁, List.append_assoc, ← List.flatten_cons]; exact hfit)
    refine ⟨out ++ rest, d₂, ?_, hsk₂.trans hsk₁, hnc₂.trans hnc₁, ?_⟩
    · simp [deduplicateLoop, hstep, hloop]
    · simpa [List.append_assoc] using h₂

/-- At the end of the stream, finish sends the last group merged. -/
theorem Sent.finish {rows sent : Batch V} (h : Sent d rows sent)
    (hsk : d.sortKeys ≠ []) (hw : ∀ row ∈ rows, row.length = d.numColumns) :
    ∃ last, d.finish = some last ∧
      sent ++ (sendIfNonEmpty last).flatten = dedup d.sortKeys d.numColumns rows := by
  cases hd : d.lastBatch with
  | none =>
    have hG : rows.splitBy (sameSortKey d.sortKeys) = [] := by
      rw [h.lastBatch_eq] at hd
      exact List.getLast?_eq_none_iff.1 hd
    refine ⟨none, by simp [RecordBatchDeduplicator.finish, hd], ?_⟩
    simp [h.sent_eq, hG, dedup]
  | some L =>
    obtain ⟨hL, hsplit, hsub⟩ := h.open_group L hd
    have hout : d.outputFromRanges L ((runs (L.map (sortKeyOf d.sortKeys))).map (·.2)) =
        [mergeRun d.sortKeys d.numColumns L] := by
      have hm := congrArg (List.map (mergeRun d.sortKeys d.numColumns)) (map_slice_ranges d.sortKeys L)
      rw [hsplit, List.map_map] at hm
      rw [outputFromRanges_of_prefix_ranges (List.prefix_refl _) fun row hr => hw row (hsub hr)]
      exact hm
    refine ⟨some [mergeRun d.sortKeys d.numColumns L], ?_, ?_⟩
    · simp [RecordBatchDeduplicator.finish, hd, computeRanges_of_ne_nil hsk, hout]
    · obtain ⟨G, hG⟩ := List.getLast?_eq_some_iff.1 (h.lastBatch_eq ▸ hd)
      rw [flatten_sendIfNonEmpty, Option.getD_some, h.sent_eq, dedup, hG, List.dropLast_concat,
        List.map_append, List.map_singleton]

/-- Streaming deduplication is whole-input deduplication: with a sort key, no empty batch, and
rows of the schema's width with a value in every sort key column, the rows sent downstream are
the merged maximal runs of equal sort keys of all the input rows, wherever the batch
boundaries fall. -/
theorem deduplicate_eq_dedup (sortKeys : List ℕ) (numColumns : ℕ) (batches : List (Batch V))
    (hsk : sortKeys ≠ []) (hne : ∀ batch ∈ batches, batch ≠ [])
    (hfit : ∀ batch ∈ batches, ∀ row ∈ batch,
      row.length = numColumns ∧ ∀ j ∈ sortKeys, row.getD j none ≠ none) :
    ∃ sent, deduplicate sortKeys numColumns batches = some sent ∧
      sent.flatten = dedup sortKeys numColumns batches.flatten := by
  have hfit' : ∀ row ∈ [] ++ batches.flatten, RowFits sortKeys numColumns row := by
    intro row hr
    obtain ⟨batch, hb, hrow⟩ := List.mem_flatten.1 (by simpa using hr)
    exact hfit batch hb row hrow
  obtain ⟨out, d, hloop, hsk', hnc', hsent⟩ :=
    Sent.loop batches (sent_init (V := V) sortKeys numColumns) hsk hne hfit'
  obtain ⟨last, hfin, hdedup⟩ := hsent.finish (hsk' ▸ hsk)
    (fun row hr => by rw [hnc']; exact (hfit' row hr).1)
  refine ⟨out ++ sendIfNonEmpty last, by simp [deduplicate, hloop, hfin], ?_⟩
  rw [hsk', hnc'] at hdedup
  simpa using hdedup

theorem deduplicate_eq_dedup_straddling :
    ∃ sent, deduplicate [0] 2 ([[[some 1, some 5], [some 1, none]], [[some 1, some 7],
        [some 2, none]], [[some 2, some 3]]] : List (Batch ℕ)) = some sent ∧
      sent.flatten = dedup [0] 2 [[some 1, some 5], [some 1, none], [some 1, some 7],
        [some 2, none], [some 2, some 3]] :=
  deduplicate_eq_dedup [0] 2 _ (by decide) (by decide) (by decide)

/-- A run of NULL sort keys that straddles a batch boundary is sent as two rows: the boundary
check takes NULL as different from NULL, where partition, and `dedup`, take it as equal. -/
theorem deduplicate_splits_null_key_run :
    deduplicate [0] 2 ([[[none, some 1]], [[none, some 2]]] : List (Batch ℕ)) =
        some [[[none, some 1]], [[none, some 2]]] ∧
      dedup [0] 2 ([[none, some 1], [none, some 2]] : Batch ℕ) = [[none, some 2]] := by
  decide

/-- An empty batch after a nonempty one panics: the boundary check finds a sort key column
with no data in it. -/
theorem deduplicate_panics_on_empty_batch (sortKeys : List ℕ) (numColumns : ℕ)
    (batch : Batch V) (batches : List (Batch V)) (hsk : sortKeys ≠ []) (hb : batch ≠ []) :
    deduplicate sortKeys numColumns (batch :: [] :: batches) = none := by
  -- the first push leaves a run open, as the first batch has a run
  have hruns : runs (batch.map (sortKeyOf sortKeys)) ≠ [] := by
    obtain ⟨row, rest, rfl⟩ := List.exists_cons_of_ne_nil hb
    obtain ⟨e, rest', h⟩ := head_runsAfter (rest.map (sortKeyOf sortKeys))
      (a := sortKeyOf sortKeys row) (s := 0) (e := 1)
    simp [runs, h]
  obtain ⟨r, hr⟩ := Option.ne_none_iff_exists'.1
    (mt List.getLast?_eq_none_iff.1 (mt List.map_eq_nil_iff.1 hruns) :
      ((runs (batch.map (sortKeyOf sortKeys))).map (·.2)).getLast? ≠ none)
  simp [deduplicate, deduplicateLoop, deduplicateStep, lastBatchWithNoSameSortKey, push,
    computeRanges, hsk, hr]

theorem deduplicate_panics_on_empty_batch_one_row :
    ([0] : List ℕ) ≠ [] ∧ ([[some 0]] : Batch ℕ) ≠ [] ∧
      deduplicate [0] 1 ([[[some 0]], []] : List (Batch ℕ)) = none :=
  ⟨by decide, by decide, deduplicate_panics_on_empty_batch [0] 1 [[some 0]] [] (by decide) (by decide)⟩

end Deduplicate

end IoxCore.IoxQuery

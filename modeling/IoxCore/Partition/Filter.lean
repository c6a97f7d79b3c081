import IoxCore.Partition.Write

/-!
# Filtering a write by time

`PartitionWrite::filter` keeps the rows of a write whose timestamp passes a predicate.
`filter_time` runs `filter_slice` over the timestamps of each range of the write and moves the
ranges it reports by the range's start; `filter_slice` reports the runs of values that pass as
ranges of the slice. The predicate `filter` hands over, `inspect`, also counts the rows it
passes and keeps their least and greatest timestamp.

## The model

The predicate is an `FnMut`, whose state is threaded through the calls (`σ → α → Bool × σ`).
`filterSliceLoop` is the iterator of `filter_slice` with its range `start..end`. `filterTime`
panics (`none`) on a batch without a time column and on a range outside the column. The outer
`Option` of `PartitionWrite.filter` is that panic, the inner one the source's `Option`.

## What is proved

`filterSlice_fst`: the ranges of `filter_slice` are those of the runs of `true` among the
verdicts (`Runs.runs`), so they are non-empty, in order, and hold exactly the indices that pass;
`filterSliceLoop_snd`: the predicate is called once on each value, in order. From them,
`filter_keeps_passing_rows`: on a write whose ranges are non-empty, within the time column and
in order (`SortedRanges`), `filter` returns `None` exactly when no row passes, and otherwise a
write whose ranges are again `SortedRanges` and hold exactly the rows that pass, with their
number and their least and greatest timestamp. `SortedRanges` holds of the writes of
`PartitionWrite::new` (`new_sortedRanges`) and `PartitionWrite::partition`
(`partition_sortedRanges`).
-/

namespace IoxCore.Partition

open Runs

/-! ### `filter_slice` -/

section FilterSlice

variable {σ α : Type}

/-- The iterator of `filter_slice` over the values left, with its range `start..end`
(`range`). A value that passes extends the range; one that fails reports a non-empty
range and restarts it after itself, or moves an empty range past itself. At the end, a
non-empty range is the last one reported. -/
def filterSliceLoop (predicate : σ → α → Bool × σ) :
    σ → ℕ × ℕ → List α → List (ℕ × ℕ) × σ
  | s, range, [] => (if range.1 ≠ range.2 then [range] else [], s)
  | s, range, value :: values =>
    match predicate s value with
    | (true, s) => filterSliceLoop predicate s (range.1, range.2 + 1) values
    | (false, s) =>
      if range.1 ≠ range.2 then
        let rest := filterSliceLoop predicate s (range.2 + 1, range.2 + 1) values
        (range :: rest.1, rest.2)
      else filterSliceLoop predicate s (range.1 + 1, range.2 + 1) values

/-- `filter_slice`: the ranges of the values that pass, and the predicate's state after
the values. -/
def filterSlice (predicate : σ → α → Bool × σ) (s : σ) (colData : List α) :
    List (ℕ × ℕ) × σ :=
  filterSliceLoop predicate s (0, 0) colData

variable {predicate : σ → α → Bool × σ} {p : α → Bool}

/-- The predicate is called once on each value, in order. -/
theorem filterSliceLoop_snd (values : List α) :
    ∀ s range, (filterSliceLoop predicate s range values).2 =
      values.foldl (fun s v => (predicate s v).2) s := by
  induction values with
  | nil => intro s range; rfl
  | cons v values ih =>
    intro s range
    rw [List.foldl_cons, filterSliceLoop]
    rcases predicate s v with ⟨_ | _, s'⟩
    · dsimp only
      split
      · exact ih _ _
      · exact ih _ _
    · exact ih _ _

/-- The ranges after a pending range `start..stop`: those of the runs of `true` among the
verdicts, after a pending run of `true` when the range is non-empty, and after one of
`false` (from any start) when it is empty. -/
theorem filterSliceLoop_fst (hp : ∀ s v, (predicate s v).1 = p v) (values : List α) :
    ∀ s start stop,
      (start < stop → (filterSliceLoop predicate s (start, stop) values).1 =
        ((runsAfter (true, start, stop) (values.map p)).filter (·.1 = true)).map (·.2)) ∧
      ∀ start', (filterSliceLoop predicate s (stop, stop) values).1 =
        ((runsAfter (false, start', stop) (values.map p)).filter (·.1 = true)).map (·.2) := by
  induction values with
  | nil =>
    intro s start stop
    refine ⟨fun h => ?_, fun start' => ?_⟩
    · simp [filterSliceLoop, runsAfter, h.ne]
    · simp [filterSliceLoop, runsAfter]
  | cons v values ih =>
    intro s start stop
    have hv : predicate s v = (p v, (predicate s v).2) := Prod.ext (hp s v) rfl
    rw [List.map_cons]
    cases hpv : p v with
    | true =>
      -- a passing value extends a pending range, or opens one after an empty range
      rw [hpv] at hv
      refine ⟨fun h => ?_, fun start' => ?_⟩
      · rw [filterSliceLoop, hv, runsAfter_cons_same]
        exact (ih _ _ _).1 (by omega)
      · rw [filterSliceLoop, hv, runsAfter_cons_ne _ (by decide)]
        simpa using (ih _ stop (stop + 1)).1 (by omega)
    | false =>
      -- a failing value ends a pending range, or moves an empty one past itself
      rw [hpv] at hv
      refine ⟨fun h => ?_, fun start' => ?_⟩
      · rw [filterSliceLoop, hv, runsAfter_cons_ne _ (by decide)]
        simpa [h.ne] using (ih _ 0 _).2 stop
      · rw [filterSliceLoop, hv, runsAfter_cons_same]
        simpa using (ih _ 0 _).2 start'

/-- The ranges of `filter_slice` are those of the runs of `true` among the verdicts. -/
theorem filterSlice_fst (hp : ∀ s v, (predicate s v).1 = p v) (s : σ) (values : List α) :
    (filterSlice predicate s values).1 =
      ((runs (values.map p)).filter (·.1 = true)).map (·.2) := by
  cases values with
  | nil => rfl
  | cons v values =>
    have hv : predicate s v = (p v, (predicate s v).2) := Prod.ext (hp s v) rfl
    rw [filterSlice, filterSliceLoop, List.map_cons, runs]
    cases hpv : p v with
    | true =>
      rw [hpv] at hv
      rw [hv]
      exact (filterSliceLoop_fst hp values _ 0 1).1 Nat.zero_lt_one
    | false =>
      rw [hpv] at hv
      rw [hv]
      simpa using (filterSliceLoop_fst hp values _ 0 1).2 0

/-- Each range of `filter_slice` is non-empty and within the slice. -/
theorem mem_filterSlice (hp : ∀ s v, (predicate s v).1 = p v) {s : σ} {values : List α}
    {r : ℕ × ℕ} (hr : r ∈ (filterSlice predicate s values).1) :
    r.1 < r.2 ∧ r.2 ≤ values.length := by
  rw [filterSlice_fst hp] at hr
  obtain ⟨run, hrun, rfl⟩ := List.mem_map.mp hr
  have hmem := (List.mem_filter.mp hrun).1
  exact ⟨lt_of_mem_runs hmem, by simpa using le_length_of_mem_runs hmem⟩

end FilterSlice

/-! ### `filter_time` -/

section FilterTime

variable {σ : Type}

/-- One range of `filter_time`: the ranges `filter_slice` reports for its timestamps,
moved by its start, after those before it. -/
def filterTimeStep (colData : List ℤ) (predicate : σ → ℤ → Bool × σ)
    (acc : List (ℕ × ℕ) × σ) (range : ℕ × ℕ) : Option (List (ℕ × ℕ) × σ) :=
  if range.1 ≤ range.2 ∧ range.2 ≤ colData.length then
    let ret := filterSlice predicate acc.2 (slice colData range)
    some (acc.1 ++ ret.1.map fun r => (r.1 + range.1, r.2 + range.1), ret.2)
  else none

/-- `filter_time`: the ranges of the rows of `ranges` that pass, and the predicate's
state after them. -/
def filterTime {K : Type} (batch : Batch K) (ranges : List (ℕ × ℕ))
    (predicate : σ → ℤ → Bool × σ) (s : σ) : Option (List (ℕ × ℕ) × σ) :=
  match batch.timeColumn with
  | .error _ => none
  | .ok colData => ranges.foldlM (filterTimeStep colData predicate) ([], s)

/-- The runs of the rows of a range whose timestamp passes `p`, as ranges of the
column. -/
def passingRuns (time : List ℤ) (p : ℤ → Bool) (range : ℕ × ℕ) : List (ℕ × ℕ) :=
  ((runs ((slice time range).map p)).filter (·.1 = true)).map fun r =>
    (r.2.1 + range.1, r.2.2 + range.1)

/-- The rows of `ranges` whose timestamp passes `p`, in order. -/
def passingRows (time : List ℤ) (ranges : List (ℕ × ℕ)) (p : ℤ → Bool) : List ℕ :=
  (ranges.flatMap indices).filter fun i => p (time.getD i 0)

variable {predicate : σ → ℤ → Bool × σ} {p : ℤ → Bool}

/-- The step lemma of `filter_time`: a range within the column adds its passing runs. -/
theorem filterTimeStep_eq (hp : ∀ s v, (predicate s v).1 = p v) {colData : List ℤ}
    {range : ℕ × ℕ} (hr : range.1 ≤ range.2 ∧ range.2 ≤ colData.length)
    (acc : List (ℕ × ℕ) × σ) :
    filterTimeStep colData predicate acc range =
      some (acc.1 ++ passingRuns colData p range,
        (slice colData range).foldl (fun s v => (predicate s v).2) acc.2) := by
  rw [filterTimeStep, if_pos hr]
  dsimp only
  rw [filterSlice_fst hp, List.map_map, filterSlice, filterSliceLoop_snd]
  rfl

/-- The run lemma of `filter_time`: over ranges within the column, the passing runs of
each range, and the predicate called on the timestamps of all of them, in order. -/
theorem foldlM_filterTimeStep (hp : ∀ s v, (predicate s v).1 = p v) {colData : List ℤ}
    (ranges : List (ℕ × ℕ)) (hr : ∀ r ∈ ranges, r.1 ≤ r.2 ∧ r.2 ≤ colData.length) :
    ∀ acc, ranges.foldlM (filterTimeStep colData predicate) acc =
      some (acc.1 ++ ranges.flatMap (passingRuns colData p),
        (ranges.flatMap (slice colData)).foldl (fun s v => (predicate s v).2) acc.2) := by
  induction ranges with
  | nil => intro acc; simp
  | cons r ranges ih =>
    intro acc
    rw [List.foldlM_cons, filterTimeStep_eq hp (hr r List.mem_cons_self), Option.bind_eq_bind,
      Option.bind_some, ih fun r' h => hr r' (List.mem_cons_of_mem _ h)]
    simp [List.foldl_append]

theorem filterTime_eq {K : Type} {batch : Batch K} {time : List ℤ}
    (htime : batch.timeColumn = .ok time) (hp : ∀ s v, (predicate s v).1 = p v)
    {ranges : List (ℕ × ℕ)} (hr : ∀ r ∈ ranges, r.1 ≤ r.2 ∧ r.2 ≤ time.length) (s : σ) :
    filterTime batch ranges predicate s =
      some (ranges.flatMap (passingRuns time p),
        (ranges.flatMap (slice time)).foldl (fun s v => (predicate s v).2) s) := by
  rw [filterTime, htime]
  simpa using foldlM_filterTimeStep hp ranges hr ([], s)

variable {time : List ℤ} {range : ℕ × ℕ}

/-- A passing run of a range is non-empty and within the range. -/
theorem mem_passingRuns {x : ℕ × ℕ} (hx : x ∈ passingRuns time p range) :
    range.1 ≤ x.1 ∧ x.1 < x.2 ∧ x.2 ≤ range.2 := by
  obtain ⟨run, hrun, rfl⟩ := List.mem_map.mp hx
  have hmem := (List.mem_filter.mp hrun).1
  have hlt := lt_of_mem_runs hmem
  have hlen := le_length_of_mem_runs hmem
  simp only [List.length_map, slice, List.length_take, List.length_drop] at hlen
  dsimp only
  omega

theorem pairwise_passingRuns (time : List ℤ) (p : ℤ → Bool) (range : ℕ × ℕ) :
    (passingRuns time p range).Pairwise fun x y => x.2 ≤ y.1 := by
  rw [passingRuns, List.pairwise_map]
  exact ((pairwise_runs _).filter _).imp fun h => by omega

/-- The passing runs of a range within the column hold exactly its rows that pass. -/
theorem flatMap_indices_passingRuns (hle : range.2 ≤ time.length) :
    (passingRuns time p range).flatMap indices =
      (indices range).filter fun i => p (time.getD i 0) := by
  have hshift : ∀ x : ℕ × ℕ,
      indices (x.1 + range.1, x.2 + range.1) = (indices x).map (· + range.1) := by
    intro x
    have hcomm : (fun i => i + range.1) = fun i => range.1 + i := funext fun i => Nat.add_comm _ _
    rw [indices, indices]
    dsimp only
    rw [Nat.add_sub_add_right, hcomm, List.map_add_range', Nat.add_comm]
  rw [passingRuns, List.flatMap_map]
  simp only [hshift]
  rw [← List.map_flatMap, flatMap_indices_filter_runs, map_add_indicesOf, Nat.zero_add,
    slice_eq_map hle, List.map_map, indices, indicesOf_map_range']
  simp

end FilterTime

/-! ### The ranges of a write -/

/-- Ranges of the rows of a column of `n` rows that are non-empty, within the column,
and in order, each ending at or before the next one starts: the ranges of every
`PartitionWrite`. -/
structure SortedRanges (n : ℕ) (ranges : List (ℕ × ℕ)) : Prop where
  nonempty : ∀ r ∈ ranges, r.1 < r.2
  le_length : ∀ r ∈ ranges, r.2 ≤ n
  sorted : ranges.Pairwise fun r r' => r.2 ≤ r'.1

section SortedRanges

variable {n : ℕ} {ranges : List (ℕ × ℕ)} {time : List ℤ} {p : ℤ → Bool}

/-- The passing runs of sorted ranges are sorted. -/
theorem SortedRanges.flatMap_passingRuns (hw : SortedRanges n ranges) (time : List ℤ)
    (p : ℤ → Bool) : SortedRanges n (ranges.flatMap (passingRuns time p)) where
  nonempty x hx := by
    obtain ⟨r, _, hx⟩ := List.mem_flatMap.mp hx
    exact (mem_passingRuns hx).2.1
  le_length x hx := by
    obtain ⟨r, hr, hx⟩ := List.mem_flatMap.mp hx
    exact (mem_passingRuns hx).2.2.trans (hw.le_length r hr)
  sorted := by
    rw [List.pairwise_flatMap]
    refine ⟨fun r _ => pairwise_passingRuns time p r, hw.sorted.imp fun h x hx y hy => ?_⟩
    -- a run of an earlier range ends before the range does, a later one starts after
    have hxr := (mem_passingRuns hx).2.2
    have hyr := (mem_passingRuns hy).1
    omega

/-- The passing runs of ranges within the column hold exactly their rows that pass. -/
theorem flatMap_indices_flatMap_passingRuns (hle : ∀ r ∈ ranges, r.2 ≤ time.length) :
    (ranges.flatMap (passingRuns time p)).flatMap indices = passingRows time ranges p := by
  rw [List.flatMap_assoc, List.flatMap_congr fun r hr => flatMap_indices_passingRuns (hle r hr),
    passingRows, List.filter_flatMap]

/-- The timestamps of the passing rows of ranges within the column, in order. -/
theorem filter_flatMap_slice (hle : ∀ r ∈ ranges, r.2 ≤ time.length) :
    (ranges.flatMap (slice time)).filter p = (passingRows time ranges p).map (time.getD · 0) := by
  rw [flatMap_slice_eq_map hle, passingRows, List.filter_map]
  rfl

end SortedRanges

/-! ### `PartitionWrite::filter` -/

/-- The state of the closure `inspect` of `PartitionWrite::filter`: the least and
greatest timestamp it passed and their number. -/
structure Inspected where
  minTimestamp : ℤ
  maxTimestamp : ℤ
  rowCount : ℕ
  deriving DecidableEq, Repr

/-- The closure `inspect`: the verdict of `predicate`, and a timestamp that passes taken
into the state. -/
def inspect (predicate : ℤ → Bool) (s : Inspected) (t : ℤ) : Bool × Inspected :=
  match predicate t with
  | true => (true, ⟨min s.minTimestamp t, max s.maxTimestamp t, s.rowCount + 1⟩)
  | false => (false, s)

/-- `PartitionWrite::filter`: the rows of the write whose timestamp passes, or `None`
when there are none (`NonZeroUsize::new(row_count)?`). -/
def PartitionWrite.filter {K : Type} (batch : Batch K) (w : PartitionWrite)
    (predicate : ℤ → Bool) : Option (Option PartitionWrite) :=
  (filterTime batch w.ranges (inspect predicate) ⟨i64Max, i64Min, 0⟩).map fun ret =>
    if ret.2.rowCount = 0 then none
    else some ⟨ret.1, ret.2.minTimestamp, ret.2.maxTimestamp, ret.2.rowCount⟩

/-- `PartitionWrite::new`: the whole batch, which must have rows
(`NonZeroUsize::new(..).unwrap()`), as one range. -/
def PartitionWrite.new {K : Type} (batch : Batch K) :
    Option (Except PartitionWriteError PartitionWrite) :=
  if batch.numRows = 0 then none
  else
    match batch.timeColumn with
    | .error e => some (.error (.timeColumn e))
    | .ok time =>
      some (.ok ⟨[(0, batch.numRows)], (minMaxTime time).1, (minMaxTime time).2, batch.numRows⟩)

theorem inspect_fst (predicate : ℤ → Bool) (s : Inspected) (t : ℤ) :
    (inspect predicate s t).1 = predicate t := by
  cases h : predicate t <;> simp [inspect, h]

/-- The state of `inspect` after some timestamps: the fold of `min` and `max` over those
that pass, and their number. -/
theorem foldl_inspect (predicate : ℤ → Bool) (values : List ℤ) :
    ∀ s : Inspected, values.foldl (fun s v => (inspect predicate s v).2) s =
      ⟨(values.filter predicate).foldl min s.minTimestamp,
        (values.filter predicate).foldl max s.maxTimestamp,
        s.rowCount + (values.filter predicate).length⟩ := by
  induction values with
  | nil => intro s; rfl
  | cons v values ih =>
    intro s
    rw [List.foldl_cons, ih, List.filter_cons]
    cases h : predicate v
    · simp [inspect, h]
    · simp [inspect, h]
      omega

section Filter

variable {K : Type} {batch : Batch K} {time : List ℤ} {w : PartitionWrite}

/-- `PartitionWrite::filter` on sorted ranges: the passing runs of the ranges, with the
fold of `min` and `max` over the timestamps of the rows that pass and their number. -/
theorem filter_eq (htime : batch.timeColumn = .ok time) (hw : SortedRanges time.length w.ranges)
    (predicate : ℤ → Bool) :
    w.filter batch predicate = some
      (if passingRows time w.ranges predicate = [] then none
      else some ⟨w.ranges.flatMap (passingRuns time predicate),
        ((passingRows time w.ranges predicate).map (time.getD · 0)).foldl min i64Max,
        ((passingRows time w.ranges predicate).map (time.getD · 0)).foldl max i64Min,
        (passingRows time w.ranges predicate).length⟩) := by
  have hle : ∀ r ∈ w.ranges, r.2 ≤ time.length := hw.le_length
  rw [PartitionWrite.filter, filterTime_eq htime (inspect_fst predicate)
    (fun r hr => ⟨(hw.nonempty r hr).le, hle r hr⟩), Option.map_some, foldl_inspect,
    filter_flatMap_slice hle]
  simp only [List.length_map, Nat.zero_add, List.length_eq_zero_iff]

/-- The timestamps of the rows of ranges within the column are those of `i64`. -/
theorem timestamps_passingRows (htime : batch.timeColumn = .ok time)
    (hw : SortedRanges time.length w.ranges) (predicate : ℤ → Bool) :
    ∀ x ∈ (passingRows time w.ranges predicate).map (time.getD · 0),
      -2 ^ 63 ≤ x ∧ x < 2 ^ 63 := by
  intro x hx
  obtain ⟨i, hi, rfl⟩ := List.mem_map.mp hx
  obtain ⟨r, hr, hir⟩ := List.mem_flatMap.mp (List.mem_filter.mp hi).1
  have hi' : i < time.length := by
    have := hw.le_length r hr
    simp only [indices, List.mem_range'_1] at hir
    omega
  rw [List.getD_eq_getElem _ _ hi']
  exact batch.timeColumn_bounds time htime _ (List.getElem_mem hi')

/-- `PartitionWrite::filter` on a write with sorted ranges: `None` exactly when no row of
the write passes, and otherwise a write with sorted ranges that hold exactly the rows that
pass, in order, their number and their least and greatest timestamp. -/
theorem filter_keeps_passing_rows (htime : batch.timeColumn = .ok time)
    (hw : SortedRanges time.length w.ranges) (predicate : ℤ → Bool) :
    ∃ result, w.filter batch predicate = some result ∧
      (result = none ↔ passingRows time w.ranges predicate = []) ∧
      ∀ w', result = some w' →
        SortedRanges time.length w'.ranges ∧
        w'.ranges.flatMap indices = passingRows time w.ranges predicate ∧
        w'.rowCount = (passingRows time w.ranges predicate).length ∧
        ((passingRows time w.ranges predicate).map (time.getD · 0)).min? =
          some w'.minTimestamp ∧
        ((passingRows time w.ranges predicate).map (time.getD · 0)).max? =
          some w'.maxTimestamp := by
  refine ⟨_, filter_eq htime hw predicate, ?_, fun w' hw' => ?_⟩
  · split_ifs with hrows <;> simp [hrows]
  · split_ifs at hw' with hrows
    cases hw'
    have hne : (passingRows time w.ranges predicate).map (time.getD · 0) ≠ [] := by
      simpa using hrows
    have hmm := minMaxTime_eq_min?_max? hne (timestamps_passingRows htime hw predicate)
    rw [minMaxTime_eq] at hmm
    exact ⟨hw.flatMap_passingRuns time predicate,
      flatMap_indices_flatMap_passingRuns hw.le_length, rfl, hmm.1, hmm.2⟩

/-- Four rows, at times 5, 30, 10 and 40. -/
def clockBatch : Batch ℕ where
  numRows := 4
  column _ := none
  timeColumn := .ok [5, 30, 10, 40]
  timeColumn_length t h := by cases h; rfl
  timeColumn_bounds t h := by cases h; decide

theorem filter_from_ten :
    clockBatch.timeColumn = .ok [5, 30, 10, 40] ∧ SortedRanges [5, 30, 10, 40].length [(0, 4)] ∧
      ∃ result, (PartitionWrite.mk [(0, 4)] 5 40 4).filter clockBatch (fun t => 10 ≤ t) =
          some result ∧
        (result = none ↔ passingRows [5, 30, 10, 40] [(0, 4)] (fun t => 10 ≤ t) = []) ∧
        ∀ w', result = some w' →
          SortedRanges [5, 30, 10, 40].length w'.ranges ∧
          w'.ranges.flatMap indices = passingRows [5, 30, 10, 40] [(0, 4)] (fun t => 10 ≤ t) ∧
          w'.rowCount = (passingRows [5, 30, 10, 40] [(0, 4)] (fun t => 10 ≤ t)).length ∧
          ((passingRows [5, 30, 10, 40] [(0, 4)] (fun t => 10 ≤ t)).map
            ([5, 30, 10, 40].getD · 0)).min? = some w'.minTimestamp ∧
          ((passingRows [5, 30, 10, 40] [(0, 4)] (fun t => 10 ≤ t)).map
            ([5, 30, 10, 40].getD · 0)).max? = some w'.maxTimestamp := by
  have hw : SortedRanges [5, 30, 10, 40].length [(0, 4)] :=
    ⟨by decide, by decide, by decide⟩
  exact ⟨rfl, hw, filter_keeps_passing_rows rfl hw _⟩

/-! ### The writes that have sorted ranges -/

/-- The write of `PartitionWrite::new` has sorted ranges. -/
theorem new_sortedRanges (htime : batch.timeColumn = .ok time)
    (hnew : PartitionWrite.new batch = some (.ok w)) : SortedRanges time.length w.ranges := by
  rw [PartitionWrite.new] at hnew
  split_ifs at hnew with hn
  rw [htime] at hnew
  cases hnew
  have hlen := batch.timeColumn_length time htime
  refine ⟨?_, ?_, List.pairwise_singleton _ _⟩
  · intro r hr
    rw [List.mem_singleton.mp hr]
    exact Nat.pos_of_ne_zero hn
  · intro r hr
    rw [List.mem_singleton.mp hr, hlen]

/-- The writes of `PartitionWrite::partition` have sorted ranges. -/
theorem partition_sortedRanges [DecidableEq K] {libs : Libs} {parts : List TemplatePart}
    {writes : List (List Char × PartitionWrite)} (htime : batch.timeColumn = .ok time)
    (hn : 0 < batch.numRows) (hpart : PartitionWrite.partition libs batch parts = some (.ok writes)) :
    ∀ key w, (key, w) ∈ writes → SortedRanges time.length w.ranges := by
  obtain ⟨hlen, hok⟩ := rowKey_ok_of_partition htime hpart
  obtain ⟨m, hm, ks, -, -, rfl⟩ := partition_eq_writes htime hn hlen hok
  rw [hm] at hpart
  cases hpart
  intro key w hw
  obtain ⟨k, -, hkw⟩ := List.mem_map.mp hw
  cases hkw
  -- the ranges of a key are some of the runs of the row keys, in order
  have hlenRuns : (rowKeys libs batch time parts).length = time.length := by
    rw [rowKeys, List.length_map, List.length_range, batch.timeColumn_length time htime]
  refine ⟨?_, ?_, ?_⟩
  · intro r hr
    obtain ⟨q, hq, rfl⟩ := List.mem_map.mp hr
    exact lt_of_mem_runs (List.mem_filter.mp hq).1
  · intro r hr
    obtain ⟨q, hq, rfl⟩ := List.mem_map.mp hr
    exact hlenRuns ▸ le_length_of_mem_runs (List.mem_filter.mp hq).1
  · rw [writeOf_ranges, rangesOf, List.pairwise_map]
    exact (pairwise_runs _).filter _

end Filter

end IoxCore.Partition

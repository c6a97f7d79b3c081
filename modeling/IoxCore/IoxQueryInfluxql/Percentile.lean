import IoxCore.Lib.Binary64
import Mathlib.Data.List.Sort

/-!
# The InfluxQL percentile

`PercentileAccumulator` (src/iox_query_influxql/src/aggregate/percentile.rs), the accumulator of
the `percentile` aggregate, and `PercentRowNumberPartitionEvaluator`
(src/iox_query_influxql/src/window/percent_row_number.rs), the window function behind the
`PERCENTILE` selector: the planner keeps the row whose `ROW_NUMBER` over the field, ascending,
equals `percent_row_number`. Each computes the position of the percentile with its own
`percentile_idx`.

## The model

A `ScalarValue` is one of the three numeric types of `crate::NUMERICS`, `none` for NULL; an
`f64` is its finite value. An array is its data type and its rows. `percentile_idx` computes in
`f64`, each operation rounded by `Binary64.round`; `floor` is exact, `as isize` is
`Binary64.toI64`, the `- 1` wraps as in a release build and `try_into::<usize>` fails on a
negative index. `sort_to_indices` sorts the values ascending by their numbers.
`ScalarValue::iter_to_array` is not modelled: `evaluate` reaches it only with values.

## Results

* `updateBatch_data`, `mergeBatch_data`: the accumulator keeps the non-NULL values of every
  batch, in order, and the percentile of the first batch whose row 0 has one;
  `mergeBatch_state`: merging a partial accumulator's `state` adds its values and, if unset, its
  percentile.
* `evaluate_of_index_none`: where the index is outside the values, `evaluate` returns a NULL of
  type `Float64`, whatever the type of the values.
* `percentile_full_row_number_zero`: at `p = 100` over `n` values the aggregate takes the last
  one (`evaluate_hundred`), but `percent_row_number` answers `0` on every row, as its range
  check leaves out `n`, so the selector keeps no row.
-/

namespace IoxCore.IoxQueryInfluxql

/-- The `DataType`s the accumulator meets: those of `crate::NUMERICS`, and any other. -/
inductive DataType
  | int64
  | uint64
  | float64
  | other (name : String)
  deriving DecidableEq, Repr

/-- A `ScalarValue` of a numeric type; `none` is NULL. -/
inductive ScalarValue
  | int64 (v : Option ℤ)
  | uint64 (v : Option ℕ)
  | float64 (v : Option ℚ)
  deriving DecidableEq, Repr

namespace ScalarValue

def dataType : ScalarValue → DataType
  | int64 _ => .int64
  | uint64 _ => .uint64
  | float64 _ => .float64

def isNull : ScalarValue → Bool
  | int64 v => v.isNone
  | uint64 v => v.isNone
  | float64 v => v.isNone

/-- The number a value stands for, the key `sort_to_indices` sorts by; `0` for NULL. -/
def number : ScalarValue → ℚ
  | int64 v => (v.getD 0 : ℚ)
  | uint64 v => (v.getD 0 : ℚ)
  | float64 v => v.getD 0

end ScalarValue

/-- An array: its data type and its rows, each of that type. -/
structure Array where
  dataType : DataType
  rows : List ScalarValue
  typed : ∀ v ∈ rows, v.dataType = dataType

/-- The failures of the accumulator and of the window function. -/
inductive Failure
  /-- `"invalid data type ({dt}) for PERCENTILE n argument"` -/
  | invalidPercentileType (dt : DataType)
  /-- A panic: an `assert_eq!`, or a read past the end of an array. -/
  | panic
  deriving DecidableEq, Repr

/-! ### The two `percentile_idx` -/

/-- `((len as f64) * percentile / 100.0 + 0.5).floor() as isize`, the common part. -/
def percentileRank (len : ℕ) (percentile : ℚ) : ℤ :=
  Binary64.toI64 ⌊Binary64.round (Binary64.round (Binary64.round (Binary64.round (len : ℤ) *
    percentile) / 100) + 1 / 2)⌋

/-- `percentile_idx` of the aggregate: the 0-based position, kept when below `len`. The `- 1`
wraps on `isize::MIN`. -/
def percentileIdx (len : ℕ) (percentile : ℚ) : Option ℕ :=
  let rank := percentileRank len percentile
  let idx := if rank = -2 ^ 63 then 2 ^ 63 - 1 else rank - 1
  if 0 ≤ idx ∧ idx < len then some idx.toNat else none

/-- `percentile_idx` of `percent_row_number`: the 1-based row number, kept when it is strictly
between `0` and `len`. -/
def percentRowIdx (len : ℕ) (percentile : ℚ) : Option ℕ :=
  let idx := percentileRank len percentile
  if 0 < idx ∧ idx < len then some idx.toNat else none

/-! ### The index at `p = 100` -/

/-- At `p = 100` every step of the `f64` arithmetic is exact, and the rank is `n`. -/
theorem percentileRank_hundred {n : ℕ} (hn : n < 2 ^ 46) : percentileRank n 100 = n := by
  have hround : ∀ m : ℕ, m ≤ 2 ^ 53 → Binary64.round (m : ℚ) = m := fun m hm => by
    have h := Binary64.round_intCast (n := m) (by rw [abs_of_nonneg (by positivity)]; exact_mod_cast hm)
    exact_mod_cast h
  have h1 : Binary64.round ((n : ℤ) : ℚ) = n := by
    rw [Int.cast_natCast]
    exact hround n (by omega)
  have h2 : Binary64.round ((n : ℚ) * 100) = (n : ℚ) * 100 := by
    have h := hround (n * 100) (by omega)
    push_cast at h
    exact h
  have h3 : Binary64.round ((n : ℚ) * 100 / 100) = n := by
    rw [mul_div_cancel_right₀ _ (by norm_num)]
    exact hround n (by omega)
  have h4 : Binary64.round ((n : ℚ) + 1 / 2) = (n : ℚ) + 1 / 2 := by
    have heq : (((2 * n + 1 : ℕ) : ℤ) : ℚ) * 2 ^ (-1 : ℤ) = (n : ℚ) + 1 / 2 := by
      rw [zpow_neg_one]
      push_cast
      ring
    have h := Binary64.round_mul_zpow (m := ((2 * n + 1 : ℕ) : ℤ)) (-1)
      (by rw [abs_of_nonneg (by positivity)]; push_cast; omega)
    rw [heq] at h
    exact h
  have hfloor : ⌊(n : ℚ) + 1 / 2⌋ = n := by
    rw [Int.floor_eq_iff]
    push_cast
    constructor <;> linarith
  rw [percentileRank, h1, h2, h3, h4, hfloor, Binary64.toI64_of_nonneg (by positivity)
    (by push_cast; exact_mod_cast (by omega : n < 2 ^ 63)), Int.floor_intCast]

/-- The aggregate takes the last of `n` values at `p = 100`. -/
theorem percentileIdx_hundred {n : ℕ} (hn : 1 ≤ n) (hn' : n < 2 ^ 46) :
    percentileIdx n 100 = some (n - 1) := by
  have hidx : (if (n : ℤ) = -2 ^ 63 then 2 ^ 63 - 1 else (n : ℤ) - 1) = ((n - 1 : ℕ) : ℤ) := by
    rw [if_neg (by omega)]
    omega
  simp only [percentileIdx, percentileRank_hundred hn', hidx]
  rw [if_pos ⟨by omega, by omega⟩, Int.toNat_natCast]

/-- `percent_row_number` has no row number at `p = 100`: the rank `n` fails `idx < len`. -/
theorem percentRowIdx_hundred {n : ℕ} (hn' : n < 2 ^ 46) : percentRowIdx n 100 = none := by
  simp only [percentRowIdx, percentileRank_hundred hn']
  rw [if_neg (by omega)]

/-- An argument array `set_percentile` reads without failing: of type `Int64` or `Float64`, with
a row 0. -/
def Array.IsPercentileArg (array : Array) : Prop :=
  (array.dataType = .int64 ∨ array.dataType = .float64) ∧ array.rows ≠ []

/-- The percentile that row 0 of an argument array carries, if it has one. -/
def firstPercentile (array : Array) : Option ℚ :=
  match array.rows.head? with
  | some (.int64 (some x)) => some (Binary64.round x)
  | some (.float64 (some x)) => some x
  | _ => none

/-! ### The accumulator -/

/-- `PercentileAccumulator`: the values kept, all of its data type, and the percentile once
known. -/
structure PercentileAccumulator where
  dataType : DataType
  data : List ScalarValue
  percentile : Option ℚ
  typed : ∀ v ∈ data, v.dataType = dataType
  nonNull : ∀ v ∈ data, v.isNull = false

namespace PercentileAccumulator

def new (dataType : DataType) : PercentileAccumulator := ⟨dataType, [], none, by simp, by simp⟩

/-- `update`: the valid rows of `array`, which must have the accumulator's type (an
`assert_eq!`), pushed in order. -/
def update (acc : PercentileAccumulator) (array : Array) : Except Failure PercentileAccumulator :=
  if h : array.dataType = acc.dataType then
    .ok ⟨acc.dataType, acc.data ++ array.rows.filter (fun v => !v.isNull), acc.percentile,
      fun v hv => by
        rcases List.mem_append.1 hv with hv | hv
        · exact acc.typed v hv
        · rw [← h]
          exact array.typed v (List.mem_filter.1 hv).1,
      fun v hv => by
        rcases List.mem_append.1 hv with hv | hv
        · exact acc.nonNull v hv
        · simpa using (List.mem_filter.1 hv).2⟩
  else .error .panic

/-- `set_percentile`: the percentile from row 0 of `array`, unless one is set. Row 0 of an empty
array is out of bounds. -/
def setPercentile (acc : PercentileAccumulator) (array : Array) :
    Except Failure PercentileAccumulator :=
  if acc.percentile.isSome then .ok acc
  else
    match array.rows with
    | [] => .error .panic
    | v :: _ =>
      if v.isNull then .ok acc
      else
        match array.dataType, v with
        | .int64, .int64 (some x) => .ok { acc with percentile := some (Binary64.round x) }
        | .float64, .float64 (some x) => .ok { acc with percentile := some x }
        | dt, _ => .error (.invalidPercentileType dt)

/-- `update_batch` on the values and the percentile argument. -/
def updateBatch (acc : PercentileAccumulator) (values percentile : Array) :
    Except Failure PercentileAccumulator := do
  let acc ← acc.setPercentile percentile
  acc.update values

/-- `state`: the values as the one row of a list array, and the percentile. -/
def state (acc : PercentileAccumulator) : List Array × Array :=
  ([⟨acc.dataType, acc.data, acc.typed⟩],
    ⟨.float64, [.float64 acc.percentile], by simp [ScalarValue.dataType]⟩)

/-- `merge_batch` on the rows of the list array of values, and the percentiles, of partial
accumulators. -/
def mergeBatch (acc : PercentileAccumulator) (values : List Array) (percentile : Array) :
    Except Failure PercentileAccumulator := do
  let acc ← acc.setPercentile percentile
  values.foldlM update acc

/-- The values as `sort_to_indices` orders them. -/
def sorted (acc : PercentileAccumulator) : List ScalarValue :=
  acc.data.mergeSort fun a b => decide (a.number ≤ b.number)

/-- `evaluate`. -/
def evaluate (acc : PercentileAccumulator) : Except Failure ScalarValue :=
  match acc.percentile.bind (percentileIdx acc.data.length) with
  | none => .ok (.float64 none)
  | some idx =>
    match acc.sorted[idx]? with
    | some v => .ok v
    | none => .error .panic

/-! ### Runs of the accumulator -/

theorem setPercentile_ok (acc : PercentileAccumulator) {array : Array}
    (harg : array.IsPercentileArg) :
    ∃ acc', acc.setPercentile array = .ok acc' ∧ acc'.dataType = acc.dataType ∧
      acc'.data = acc.data ∧ acc'.percentile = acc.percentile.or (firstPercentile array) := by
  obtain ⟨hdt, hne⟩ := harg
  obtain ⟨v, rest, hrows⟩ := List.exists_cons_of_ne_nil hne
  have hv : v.dataType = array.dataType := array.typed v (by simp [hrows])
  cases hp : acc.percentile with
  | some p => exact ⟨acc, by simp [setPercentile, hp], rfl, rfl, by simp [hp]⟩
  | none =>
    simp only [setPercentile, firstPercentile, hp, hrows, Option.isSome_none,
      Bool.false_eq_true, if_false, List.head?_cons, Option.none_or]
    -- row 0 has the argument's type: a NULL leaves the percentile unset, a value sets it
    cases v with
    | uint64 o => rcases hdt with hdt | hdt <;> simp [ScalarValue.dataType, hdt] at hv
    | int64 o =>
      have hdt : array.dataType = .int64 := hv.symm
      cases o <;> simp [ScalarValue.isNull, hdt, hp]
    | float64 o =>
      have hdt : array.dataType = .float64 := hv.symm
      cases o <;> simp [ScalarValue.isNull, hdt, hp]

theorem update_ok (acc : PercentileAccumulator) {array : Array}
    (h : array.dataType = acc.dataType) :
    ∃ acc', acc.update array = .ok acc' ∧ acc'.dataType = acc.dataType ∧
      acc'.data = acc.data ++ array.rows.filter (fun v => !v.isNull) ∧
      acc'.percentile = acc.percentile :=
  ⟨_, dif_pos h, rfl, rfl, rfl⟩

theorem updateBatch_ok (acc : PercentileAccumulator) {values percentile : Array}
    (hv : values.dataType = acc.dataType) (hp : percentile.IsPercentileArg) :
    ∃ acc', acc.updateBatch values percentile = .ok acc' ∧ acc'.dataType = acc.dataType ∧
      acc'.data = acc.data ++ values.rows.filter (fun v => !v.isNull) ∧
      acc'.percentile = acc.percentile.or (firstPercentile percentile) := by
  obtain ⟨acc₁, h₁, hdt₁, hdata₁, hp₁⟩ := acc.setPercentile_ok hp
  obtain ⟨acc₂, h₂, hdt₂, hdata₂, hp₂⟩ := acc₁.update_ok (hv.trans hdt₁.symm)
  refine ⟨acc₂, ?_, hdt₂.trans hdt₁, by rw [hdata₂, hdata₁], hp₂.trans hp₁⟩
  rw [updateBatch, h₁]
  exact h₂

/-- A run of `update_batch`: the accumulator keeps the non-NULL values of every batch, in order,
and the percentile of the first batch whose row 0 has one. -/
theorem updateBatch_data (batches : List (Array × Array)) (acc : PercentileAccumulator)
    (hb : ∀ b ∈ batches, b.1.dataType = acc.dataType ∧ b.2.IsPercentileArg) :
    ∃ acc', batches.foldlM (fun acc b => acc.updateBatch b.1 b.2) acc = .ok acc' ∧
      acc'.dataType = acc.dataType ∧
      acc'.data = acc.data ++ (batches.map fun b => b.1.rows.filter fun v => !v.isNull).flatten ∧
      acc'.percentile = (batches.map fun b => firstPercentile b.2).foldl Option.or acc.percentile := by
  induction batches generalizing acc with
  | nil => exact ⟨acc, rfl, rfl, by simp, rfl⟩
  | cons b batches ih =>
    obtain ⟨hb₁, hb₂⟩ := hb b (by simp)
    obtain ⟨acc₁, h₁, hdt₁, hdata₁, hp₁⟩ := acc.updateBatch_ok hb₁ hb₂
    obtain ⟨acc₂, h₂, hdt₂, hdata₂, hp₂⟩ := ih acc₁ fun b' hb' => by
      rw [hdt₁]
      exact hb b' (List.mem_cons_of_mem _ hb')
    refine ⟨acc₂, ?_, hdt₂.trans hdt₁, ?_, ?_⟩
    · rw [List.foldlM_cons, h₁]
      exact h₂
    · rw [hdata₂, hdata₁]
      simp
    · rw [hp₂, hp₁]
      simp

/-- `update` over the rows of a list array, as `merge_batch` runs it. -/
theorem foldlM_update (values : List Array) (acc : PercentileAccumulator)
    (hv : ∀ a ∈ values, a.dataType = acc.dataType) :
    ∃ acc', values.foldlM update acc = .ok acc' ∧ acc'.dataType = acc.dataType ∧
      acc'.data = acc.data ++ (values.map fun a => a.rows.filter fun v => !v.isNull).flatten ∧
      acc'.percentile = acc.percentile := by
  induction values generalizing acc with
  | nil => exact ⟨acc, rfl, rfl, by simp, rfl⟩
  | cons a values ih =>
    obtain ⟨acc₁, h₁, hdt₁, hdata₁, hp₁⟩ := acc.update_ok (hv a (by simp))
    obtain ⟨acc₂, h₂, hdt₂, hdata₂, hp₂⟩ := ih acc₁ fun a' ha' => by
      rw [hdt₁]
      exact hv a' (List.mem_cons_of_mem _ ha')
    refine ⟨acc₂, ?_, hdt₂.trans hdt₁, ?_, hp₂.trans hp₁⟩
    · rw [List.foldlM_cons, h₁]
      exact h₂
    · rw [hdata₂, hdata₁]
      simp

/-- `merge_batch`: the values of every row of the list array, and the percentile of row 0 of
the percentiles if none is set. -/
theorem mergeBatch_data (acc : PercentileAccumulator) {values : List Array} {percentile : Array}
    (hv : ∀ a ∈ values, a.dataType = acc.dataType) (hp : percentile.IsPercentileArg) :
    ∃ acc', acc.mergeBatch values percentile = .ok acc' ∧ acc'.dataType = acc.dataType ∧
      acc'.data = acc.data ++ (values.map fun a => a.rows.filter fun v => !v.isNull).flatten ∧
      acc'.percentile = acc.percentile.or (firstPercentile percentile) := by
  obtain ⟨acc₁, h₁, hdt₁, hdata₁, hp₁⟩ := acc.setPercentile_ok hp
  obtain ⟨acc₂, h₂, hdt₂, hdata₂, hp₂⟩ := foldlM_update values acc₁ fun a ha => by
    rw [hdt₁]
    exact hv a ha
  refine ⟨acc₂, ?_, hdt₂.trans hdt₁, by rw [hdata₂, hdata₁], hp₂.trans hp₁⟩
  rw [mergeBatch, h₁]
  exact h₂

/-- The `state` of an accumulator is a valid input of `merge_batch`. -/
theorem state_isPercentileArg (acc : PercentileAccumulator) : acc.state.2.IsPercentileArg :=
  ⟨.inr rfl, by simp [state]⟩

theorem firstPercentile_state (acc : PercentileAccumulator) :
    firstPercentile acc.state.2 = acc.percentile := by
  cases h : acc.percentile <;> simp [firstPercentile, state, h]

/-- Merging the `state` of a partial accumulator of the same type adds its values and, if none
is set, its percentile. -/
theorem mergeBatch_state (acc other : PercentileAccumulator)
    (h : other.dataType = acc.dataType) :
    ∃ acc', acc.mergeBatch other.state.1 other.state.2 = .ok acc' ∧
      acc'.dataType = acc.dataType ∧ acc'.data = acc.data ++ other.data ∧
      acc'.percentile = acc.percentile.or other.percentile := by
  have hv : ∀ a ∈ other.state.1, a.dataType = acc.dataType := by simpa [state] using h
  obtain ⟨acc', h', hdt, hdata, hp⟩ := acc.mergeBatch_data hv other.state_isPercentileArg
  refine ⟨acc', h', hdt, ?_, by rw [hp, firstPercentile_state]⟩
  -- the values of an accumulator are not NULL, so the filter of `update` keeps them all
  have hkeep : other.data.filter (fun v => !v.isNull) = other.data :=
    List.filter_eq_self.2 fun v hv => by simp [other.nonNull v hv]
  simp [hdata, state, hkeep]

/-- Where the index is outside the values, `evaluate` returns a NULL of type `Float64`. -/
theorem evaluate_of_index_none (acc : PercentileAccumulator)
    (h : acc.percentile.bind (percentileIdx acc.data.length) = none) :
    acc.evaluate = .ok (.float64 none) := by
  rw [evaluate, h]

theorem length_sorted (acc : PercentileAccumulator) : acc.sorted.length = acc.data.length :=
  List.length_mergeSort _

/-- At `p = 100` the aggregate returns the greatest value. -/
theorem evaluate_hundred (acc : PercentileAccumulator) (hn : 1 ≤ acc.data.length)
    (hn' : acc.data.length < 2 ^ 46) (hp : acc.percentile = some 100) :
    ∃ v, acc.sorted.getLast? = some v ∧ acc.evaluate = .ok v := by
  have hidx : acc.percentile.bind (percentileIdx acc.data.length) = some (acc.data.length - 1) := by
    rw [hp, Option.bind_some, percentileIdx_hundred hn hn']
  have hlast : acc.sorted[acc.data.length - 1]? = acc.sorted.getLast? := by
    rw [List.getLast?_eq_getElem?, length_sorted]
  have hne : acc.sorted ≠ [] := List.ne_nil_of_length_pos (by rw [length_sorted]; omega)
  obtain ⟨v, hv⟩ := Option.isSome_iff_exists.1 (List.getLast?_isSome.2 hne)
  refine ⟨v, hv, ?_⟩
  rw [evaluate, hidx]
  simp only [hlast, hv]

end PercentileAccumulator

/-! ### `percent_row_number` -/

/-- `PercentRowNumberPartitionEvaluator::evaluate_all` over the percentile argument of a
partition of `numRows` rows: the row number of the percentile on every row, `0` where there is
none. -/
def percentRowNumber (numRows : ℕ) (array : Array) : Except Failure (List ℕ) :=
  match array.dataType with
  | .int64 =>
    .ok (array.rows.map fun
      | .int64 (some x) => (percentRowIdx numRows (Binary64.round x)).getD 0
      | _ => 0)
  | .float64 =>
    .ok (array.rows.map fun
      | .float64 (some x) => (percentRowIdx numRows x).getD 0
      | _ => 0)
  | dt => .error (.invalidPercentileType dt)

/-- At an `Int64` percentile of `100`, `percent_row_number` answers `0` on every row. -/
theorem percentRowNumber_hundred {n : ℕ} (hn' : n < 2 ^ 46) (args : Array)
    (hargs : args.dataType = .int64) (hrows : ∀ v ∈ args.rows, v = .int64 (some 100)) :
    percentRowNumber n args = .ok (args.rows.map fun _ => 0) := by
  have hround : Binary64.round ((100 : ℤ) : ℚ) = 100 := by
    rw [Binary64.round_intCast (by norm_num)]
    norm_num
  simp only [percentRowNumber, hargs]
  congr 1
  apply List.map_congr_left
  intro v hv
  rw [hrows v hv]
  simp only [hround, percentRowIdx_hundred hn', Option.getD_none]

/-- `PERCENTILE(field, 100)` over `n` rows: the aggregate returns the greatest value, but
`percent_row_number` answers `0` on every row, so the selector keeps none; and an index outside
the values gives a `Float64` NULL whatever the type of the values. -/
theorem percentile_full_row_number_zero (n : ℕ) (hn : 1 ≤ n) (hn' : n < 2 ^ 46) (args : Array)
    (hargs : args.dataType = .int64) (hrows : ∀ v ∈ args.rows, v = .int64 (some 100)) :
    (∀ acc : PercentileAccumulator, acc.data.length = n → acc.percentile = some 100 →
        ∃ v, acc.sorted.getLast? = some v ∧ acc.evaluate = .ok v) ∧
      percentRowNumber n args = .ok (args.rows.map fun _ => 0) ∧
      ∀ acc : PercentileAccumulator, acc.percentile.bind (percentileIdx acc.data.length) = none →
        acc.evaluate = .ok (.float64 none) := by
  refine ⟨fun acc hlen hp => ?_, percentRowNumber_hundred hn' args hargs hrows,
    PercentileAccumulator.evaluate_of_index_none⟩
  subst hlen
  exact acc.evaluate_hundred hn hn' hp

/-- One row at `p = 100`: its row number is `1`, and `percent_row_number` answers `0`. -/
theorem percentRowNumber_one_row_hundred :
    percentRowNumber 1 ⟨.int64, [.int64 (some 100)], by simp [ScalarValue.dataType]⟩ = .ok [0] :=
  (percentile_full_row_number_zero 1 le_rfl (by norm_num) _ rfl (by simp)).2.1

end IoxCore.IoxQueryInfluxql

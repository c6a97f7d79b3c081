import Mathlib.Data.List.Range
import Mathlib.Data.Option.Basic
import Mathlib.Data.Int.Notation

/-!
# The InfluxQL window functions

A model of the `evaluate_all` of the InfluxQL window functions
(src/iox_query_influxql/src/window/): `difference`, `derivative`, `moving_average`,
`cumulative_sum`, and the `non_negative` wrapper of `non_negative_difference` and
`non_negative_derivative`. Each reads the values of one partition, in order, as an array with
NULLs, and writes one output row per input row.

## The model

An array is a list of `Option`s, `none` for NULL. The arithmetic is a parameter: `sub` is
`ScalarValue::sub` and arrow's `sub_wrapping`, wrapping on `Int64` and `UInt64` and IEEE on
`Float64`, and so are `add` and the conversions and divisions to `Float64`. Every statement
holds for every choice of them, so for all three input types. `isNegative` is the arrow kernel
`lt(x, 0)`, which on `Float64` follows IEEE's total order and so holds for `-0.0` and for a
negative NaN. A timestamp is an `i64` held in `ℤ`; the derivative's unit is a parameter.

## What is proved

`windowFunctions_spec`: for every array, each function computes its sequence definition.
`p(i)` is the last row before `i` whose value is not NULL (`lastNonNull`). `difference` is
`v_i - v_{p(i)}`, and its fast path on an array without NULLs agrees with the row loop
(`difference_fastPath`). `derivative` is the quotient of the value and time deltas to `p(i)`,
`moving_average` the mean of the last `N` non-NULL values, `cumulative_sum` the sum of the
non-NULL values so far; the `non_negative` forms NULL out what `isNegative` marks. A NULL input
row is NULL in every output. Each proof generalizes the loop's state over the rest of the array
and takes one step per row.
-/

namespace IoxCore.IoxQueryInfluxql

variable {α β : Type}

/-! ### The last non-NULL row before a row -/

/-- The value of `p(i)`: the last non-NULL value among the rows before `i`. -/
def lastNonNull (array : List (Option α)) (i : ℕ) : Option α :=
  ((array.take i).filterMap id).getLast?

@[simp] theorem lastNonNull_zero (array : List (Option α)) : lastNonNull array 0 = none := rfl

/-- One row more in front: the rows after it win, and the row itself counts when they are all
NULL. -/
theorem lastNonNull_cons (x : Option α) (l : List (Option α)) (i : ℕ) :
    lastNonNull (x :: l) (i + 1) = (lastNonNull l i).or x := by
  cases x with
  | none => simp [lastNonNull]
  | some v =>
    show ((some v :: l.take i).filterMap id).getLast? = (((l.take i).filterMap id).getLast?).or _
    rw [List.filterMap_cons_some (f := id) rfl, List.getLast?_cons]
    cases ((l.take i).filterMap id).getLast? <;> rfl

/-- The non-NULL values of the rows up to and including row `i`. -/
def nonNullUpTo (array : List (Option α)) (i : ℕ) : List α := (array.take (i + 1)).filterMap id

@[simp] theorem nonNullUpTo_zero (x : Option α) (l : List (Option α)) :
    nonNullUpTo (x :: l) 0 = x.toList := by
  cases x <;> rfl

theorem nonNullUpTo_cons (x : Option α) (l : List (Option α)) (i : ℕ) :
    nonNullUpTo (x :: l) (i + 1) = x.toList ++ nonNullUpTo l i := by
  cases x <;> simp [nonNullUpTo]

/-- A row-by-row definition over an array: row `i` of the output from row `i` of the input and
its index. -/
def byRow (array : List (Option α)) (f : Option α → ℕ → Option β) : List (Option β) :=
  (List.range array.length).map fun i => f (array[i]?.join) i

@[simp] theorem byRow_nil (f : Option α → ℕ → Option β) : byRow [] f = [] := rfl

theorem byRow_cons (x : Option α) (l : List (Option α)) (f : Option α → ℕ → Option β) :
    byRow (x :: l) f = f x 0 :: byRow l fun y i => f y (i + 1) := by
  simp [byRow, List.range_succ_eq_map, Function.comp_def]

@[simp] theorem length_byRow (array : List (Option α)) (f : Option α → ℕ → Option β) :
    (byRow array f).length = array.length := by
  simp [byRow]

/-! ### `difference` -/

section Difference

variable (sub : α → α → β)

/-- The second loop of `DifferencePartitionEvaluator::evaluate_all`: `last` is the latest
non-NULL value. -/
def differenceFrom (last : α) : List (Option α) → List (Option β)
  | [] => []
  | none :: rest => none :: differenceFrom last rest
  | some v :: rest => some (sub v last) :: differenceFrom v rest

/-- The first loop: NULL up to and including the first non-NULL value, then the second loop. -/
def differenceLoop : List (Option α) → List (Option β)
  | [] => []
  | none :: rest => none :: differenceLoop rest
  | some v :: rest => none :: differenceFrom sub v rest

/-- arrow's `shift(array, 1)`: a NULL in front, the last row dropped. -/
def shift (array : List (Option α)) : List (Option α) := (none :: array).take array.length

/-- arrow's `sub_wrapping` of two arrays: NULL where either side is NULL. -/
def subArrays (a b : List (Option α)) : List (Option β) :=
  List.zipWith (fun x y => x.bind fun x => y.map (sub x)) a b

/-- `DifferencePartitionEvaluator::evaluate_all`: the arrow kernels when there is no NULL, the
row loops otherwise. -/
def difference (array : List (Option α)) : List (Option β) :=
  if array.all Option.isSome then subArrays sub array (shift array) else differenceLoop sub array

/-- Row `i` of the sequence definition: NULL for a NULL row and for a row with no non-NULL row
before it, `v_i - v_{p(i)}` otherwise. -/
def differenceAt (array : List (Option α)) (v : Option α) (i : ℕ) : Option β :=
  v.bind fun v => (lastNonNull array i).map (sub v)

def differenceSpec (array : List (Option α)) : List (Option β) :=
  byRow array fun v i => differenceAt sub array v i

/-- Both loops are the definition, with the last value of the rows already read as the
starting point of `p`. -/
theorem differenceFrom_eq (last : α) (l : List (Option α)) :
    differenceFrom sub last l =
      byRow l fun v i => v.bind fun v => ((lastNonNull l i).or (some last)).map (sub v) := by
  induction l generalizing last with
  | nil => rfl
  | cons x l ih =>
    rw [byRow_cons]
    cases x with
    | none => simp [differenceFrom, ih, lastNonNull_cons]
    | some v => simp [differenceFrom, ih, lastNonNull_cons]

theorem differenceLoop_eq (l : List (Option α)) : differenceLoop sub l = differenceSpec sub l := by
  induction l with
  | nil => rfl
  | cons x l ih =>
    rw [differenceSpec, byRow_cons]
    cases x with
    | none => simp [differenceLoop, ih, differenceSpec, differenceAt, lastNonNull_cons]
    | some v => simp [differenceLoop, differenceFrom_eq, differenceAt, lastNonNull_cons]

/-- On values without NULLs, the second loop subtracts from each value the one before it. -/
theorem differenceFrom_map_some (last : α) (vs : List α) :
    differenceFrom sub last (vs.map some) = List.zipWith (fun x y => some (sub x y)) vs (last :: vs) := by
  induction vs generalizing last with
  | nil => rfl
  | cons v vs ih => simp [differenceFrom, ih]

/-- Only the first `a.length` rows of the right operand are read. -/
theorem zipWith_take_length {γ : Type} (f : α → β → γ) (a : List α) (b : List β) :
    List.zipWith f a (b.take a.length) = List.zipWith f a b := by
  induction a generalizing b with
  | nil => rfl
  | cons x a ih => cases b <;> simp [ih]

/-- The kernel on two arrays without NULLs subtracts row by row. -/
theorem subArrays_map_some (a b : List α) :
    subArrays sub (a.map some) (b.map some) = List.zipWith (fun x y => some (sub x y)) a b := by
  simp [subArrays, List.zipWith_map]

/-- `shift` drops a row that the kernel never reads. -/
theorem subArrays_shift (array : List (Option α)) :
    subArrays sub array (shift array) = subArrays sub array (none :: array) :=
  zipWith_take_length _ array (none :: array)

/-- On an array without NULLs, the arrow kernels give what the row loops give. -/
theorem difference_fastPath (array : List (Option α)) (h : array.all Option.isSome) :
    subArrays sub array (shift array) = differenceLoop sub array := by
  -- the array is its values, each one `some`
  obtain ⟨vs, rfl⟩ : ∃ vs : List α, array = vs.map some := by
    refine ⟨array.filterMap id, ?_⟩
    induction array with
    | nil => rfl
    | cons x l ih =>
      simp only [List.all_cons, Bool.and_eq_true] at h
      obtain ⟨v, rfl⟩ := Option.isSome_iff_exists.1 h.1
      rw [List.filterMap_cons_some (f := id) rfl, List.map_cons, ← ih h.2]
  cases vs with
  | nil => rfl
  | cons v vs =>
    -- the first row meets the NULL that `shift` puts in front; the others meet their predecessor
    have hfront : subArrays sub ((v :: vs).map some) (none :: (v :: vs).map some) =
        none :: subArrays sub (vs.map some) ((v :: vs).map some) := rfl
    rw [subArrays_shift, hfront, subArrays_map_some, List.map_cons, differenceLoop,
      differenceFrom_map_some]

theorem difference_eq (array : List (Option α)) : difference sub array = differenceSpec sub array := by
  unfold difference
  split
  · rename_i h
    rw [difference_fastPath sub array h, differenceLoop_eq]
  · exact differenceLoop_eq sub array

example : difference (fun a b : ℤ => a - b) [none, some 3, none, some 5, some 4] =
    [none, none, none, some 2, some (-1)] := by decide

end Difference

/-! ### `derivative` -/

section Derivative

variable {F : Type} (toF64 : α → F) (timeToF64 : ℤ → F) (subF divF : F → F → F) (unit : F)

/-- The rows of a partition as the evaluator reads them: the value with its time, NULL where
the value is NULL. -/
def timedRows (rows : List (Option α × ℤ)) : List (Option (α × ℤ)) :=
  rows.map fun r => r.1.map (·, r.2)

/-- `delta(curr, prev) / delta_time(curr_t, prev_t, unit)`. -/
def derivativeStep (curr prev : α × ℤ) : F :=
  divF (subF (toF64 curr.1) (toF64 prev.1)) (divF (subF (timeToF64 curr.2) (timeToF64 prev.2)) unit)

/-- `DerivativePartitionEvaluator::evaluate_all`. Its two loops are those of `difference`, with
`last` and `last_time` advancing together, so the value and its time travel as one row. -/
def derivative (rows : List (Option α × ℤ)) : List (Option F) :=
  differenceLoop (derivativeStep toF64 timeToF64 subF divF unit) (timedRows rows)

/-- Row `i` of the sequence definition: `(v_i - v_{p(i)}) / ((t_i - t_{p(i)}) / unit)`, NULL where
`v_i` is NULL or `p(i)` is undefined. -/
def derivativeAt (timed : List (Option (α × ℤ))) (r : Option (α × ℤ)) (i : ℕ) : Option F :=
  r.bind fun (v, t) => (lastNonNull timed i).map fun (vp, tp) =>
    divF (subF (toF64 v) (toF64 vp)) (divF (subF (timeToF64 t) (timeToF64 tp)) unit)

def derivativeSpec (rows : List (Option α × ℤ)) : List (Option F) :=
  byRow (timedRows rows) fun r i => derivativeAt toF64 timeToF64 subF divF unit (timedRows rows) r i

theorem derivative_eq (rows : List (Option α × ℤ)) :
    derivative toF64 timeToF64 subF divF unit rows =
      derivativeSpec toF64 timeToF64 subF divF unit rows := by
  rw [derivative, differenceLoop_eq]
  rfl

end Derivative

/-! ### `moving_average` -/

section MovingAverage

variable {F : Type} (toF64 : α → F) (addF : F → F → F) (sumStart : F) (divN : F → ℕ → F)

/-- `push_back`, then `pop_front` once the deque holds more than `n` values. -/
def pushBounded (n : ℕ) (deq : List F) (x : F) : List F :=
  if (deq ++ [x]).length > n then (deq ++ [x]).tail else deq ++ [x]

/-- The loop of `AvgNPartitionEvaluator::evaluate_all` from the deque `deq`: `sumStart` is where
`Iterator::sum` of `f64`s starts and `divN s n` is `s / n as f64`. -/
def movingAverageFrom (n : ℕ) (deq : List F) : List (Option α) → List (Option F)
  | [] => []
  | none :: rest => none :: movingAverageFrom n deq rest
  | some v :: rest =>
    let deq' := pushBounded n deq (toF64 v)
    (if deq'.length ≠ n then none else some (divN (deq'.foldl addF sumStart) n)) ::
      movingAverageFrom n deq' rest

def movingAverage (n : ℕ) (array : List (Option α)) : List (Option F) :=
  movingAverageFrom toF64 addF sumStart divN n [] array

/-- The mean of the last `n` of `vals`, or NULL when there are fewer. -/
def meanOfLast (n : ℕ) (vals : List F) : Option F :=
  if vals.length < n then none
  else some (divN ((vals.drop (vals.length - n)).foldl addF sumStart) n)

/-- The sequence definition: the mean of the last `n` non-NULL values up to row `i`. -/
def movingAverageSpec (n : ℕ) (array : List (Option α)) : List (Option F) :=
  byRow array fun v i => v.bind fun _ => meanOfLast addF sumStart divN n ((nonNullUpTo array i).map toF64)

/-- The deque is always the last `n` of the values read so far. -/
theorem pushBounded_drop (n : ℕ) (vs : List F) (x : F) :
    pushBounded n (vs.drop (vs.length - n)) x = (vs ++ [x]).drop ((vs ++ [x]).length - n) := by
  have happ : vs.drop (vs.length - n) ++ [x] = (vs ++ [x]).drop (vs.length - n) :=
    (List.drop_append_of_le_length (by omega)).symm
  rw [pushBounded, happ, List.length_append, List.length_singleton]
  by_cases h : vs.length < n
  · -- the deque still has room: nothing is dropped
    rw [if_neg (by simp; omega)]
    congr 1
    omega
  · -- it was full: the oldest value goes
    rw [if_pos (by simp; omega), List.tail_drop]
    congr 1
    omega

/-- The row the loop writes from the deque is the mean of the last `n` values: the deque is short
of `n` exactly when fewer than `n` values were read. -/
theorem window_mean_eq_meanOfLast (n : ℕ) (ws : List F) :
    (if (ws.drop (ws.length - n)).length ≠ n then none
      else some (divN ((ws.drop (ws.length - n)).foldl addF sumStart) n)) =
      meanOfLast addF sumStart divN n ws := by
  by_cases h : ws.length < n
  · rw [meanOfLast, if_pos h, if_pos (by simp; omega)]
  · rw [meanOfLast, if_neg h, if_neg (by simp; omega)]

theorem movingAverageFrom_eq (n : ℕ) (vs : List F) (l : List (Option α)) :
    movingAverageFrom toF64 addF sumStart divN n (vs.drop (vs.length - n)) l =
      byRow l fun v i => v.bind fun _ =>
        meanOfLast addF sumStart divN n (vs ++ (nonNullUpTo l i).map toF64) := by
  induction l generalizing vs with
  | nil => rfl
  | cons x l ih =>
    rw [byRow_cons]
    cases x with
    | none => simp [movingAverageFrom, ih, nonNullUpTo_cons]
    | some v =>
      -- after the push the deque is the last `n` of the values with `v`
      have hrow := window_mean_eq_meanOfLast addF sumStart divN n (vs ++ [toF64 v])
      have hrest := ih (vs ++ [toF64 v])
      simp only [movingAverageFrom, pushBounded_drop, hrow, hrest, nonNullUpTo_cons, nonNullUpTo_zero,
        Option.toList_some, Option.bind_some, List.map_cons, List.map_nil,
        List.append_assoc, List.singleton_append]

theorem movingAverage_eq (n : ℕ) (array : List (Option α)) :
    movingAverage toF64 addF sumStart divN n array = movingAverageSpec toF64 addF sumStart divN n array := by
  have h := movingAverageFrom_eq toF64 addF sumStart divN n [] array
  rw [movingAverage, movingAverageSpec]
  simpa using h

end MovingAverage

/-! ### `cumulative_sum` -/

section CumulativeSum

variable (add : α → α → α) (zero : α)

/-- The loop of `CumulativeSumPartitionEvaluator::evaluate_all` from the running sum `sum`. -/
def cumulativeSumFrom (sum : α) : List (Option α) → List (Option α)
  | [] => []
  | none :: rest => none :: cumulativeSumFrom sum rest
  | some v :: rest => some (add sum v) :: cumulativeSumFrom (add sum v) rest

/-- `CumulativeSumPartitionEvaluator::evaluate_all`: `num_rows` is the length of the partition's
array, and `zero` is `ScalarValue::new_zero` of its type. -/
def cumulativeSum (array : List (Option α)) : List (Option α) :=
  cumulativeSumFrom add zero array

/-- The sequence definition: the sum of the non-NULL values up to row `i`. -/
def cumulativeSumSpec (array : List (Option α)) : List (Option α) :=
  byRow array fun v i => v.map fun _ => (nonNullUpTo array i).foldl add zero

theorem cumulativeSumFrom_eq (sum : α) (l : List (Option α)) :
    cumulativeSumFrom add sum l = byRow l fun v i => v.map fun _ => (nonNullUpTo l i).foldl add sum := by
  induction l generalizing sum with
  | nil => rfl
  | cons x l ih =>
    rw [byRow_cons]
    cases x with
    | none => simp [cumulativeSumFrom, ih, nonNullUpTo_cons]
    | some v => simp [cumulativeSumFrom, ih, nonNullUpTo_cons]

theorem cumulativeSum_eq (array : List (Option α)) :
    cumulativeSum add zero array = cumulativeSumSpec add zero array :=
  cumulativeSumFrom_eq add zero array

end CumulativeSum

/-! ### The `non_negative` wrapper -/

section NonNegative

variable (isNegative : β → Bool)

/-- arrow's `nullif`: NULL where the predicate is true, the row otherwise. -/
def nullif (array : List (Option β)) (predicate : List (Option Bool)) : List (Option β) :=
  List.zipWith (fun x p => if p = some true then none else x) array predicate

/-- `NonNegative::evaluate_all` on the array the wrapped evaluator returned: `isNegative` is arrow's
`lt(x, new_zero)`, NULL on a NULL row. -/
def nonNegative (array : List (Option β)) : List (Option β) :=
  nullif array (array.map fun x => x.map isNegative)

/-- One row of the wrapper: a negative value becomes NULL. -/
def dropNegative (y : β) : Option β := if isNegative y then none else some y

/-- `nullif` on one row: NULL where `lt` is true, and a NULL row stays NULL as `lt` is NULL there. -/
theorem nullif_row (y : Option β) :
    (if y.map isNegative = some true then none else y) = y.bind (dropNegative isNegative) := by
  cases y with
  | none => rfl
  | some v => cases h : isNegative v <;> simp [dropNegative, h]

theorem nonNegative_byRow (array : List (Option α)) (f : Option α → ℕ → Option β) :
    nonNegative isNegative (byRow array f) = byRow array fun v i => (f v i).bind (dropNegative isNegative) := by
  rw [nonNegative, nullif, List.zipWith_map_right, List.zipWith_self, byRow, byRow, List.map_map]
  simp only [Function.comp_def, nullif_row]

end NonNegative

/-! ### The window functions together -/

section Spec

variable {F : Type} (sub add : α → α → α) (zero : α) (toF64 : α → F) (timeToF64 : ℤ → F)
  (subF divF addF : F → F → F) (unit sumStart : F) (divN : F → ℕ → F)
  (isNegative : α → Bool) (isNegativeF : F → Bool)

theorem windowFunctions_spec (array : List (Option α)) (rows : List (Option α × ℤ)) (n : ℕ) :
    difference sub array = differenceLoop sub array ∧
    differenceLoop sub array = differenceSpec sub array ∧
    derivative toF64 timeToF64 subF divF unit rows =
      derivativeSpec toF64 timeToF64 subF divF unit rows ∧
    movingAverage toF64 addF sumStart divN n array =
      movingAverageSpec toF64 addF sumStart divN n array ∧
    cumulativeSum add zero array = cumulativeSumSpec add zero array ∧
    nonNegative isNegative (difference sub array) =
      byRow array (fun v i => (differenceAt sub array v i).bind (dropNegative isNegative)) ∧
    nonNegative isNegativeF (derivative toF64 timeToF64 subF divF unit rows) =
      byRow (timedRows rows) fun r i =>
        (derivativeAt toF64 timeToF64 subF divF unit (timedRows rows) r i).bind (dropNegative isNegativeF) := by
  have hdiff := difference_eq sub array
  have hloop := differenceLoop_eq sub array
  have hderiv := derivative_eq toF64 timeToF64 subF divF unit rows
  refine ⟨hdiff.trans hloop.symm, hloop, hderiv, movingAverage_eq toF64 addF sumStart divN n array,
    cumulativeSum_eq add zero array, ?_, ?_⟩
  · rw [hdiff, differenceSpec, nonNegative_byRow]
  · rw [hderiv, derivativeSpec, nonNegative_byRow]

end Spec

end IoxCore.IoxQueryInfluxql

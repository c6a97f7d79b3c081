import Mathlib.Data.List.GetD
import Mathlib.Data.Int.Notation

/-!
# iox_query: splitting a stream by expressions

A model of `StreamSplitExec` (src/iox_query/src/exec/split.rs): every input batch is split
over `n + 1` output partitions by `n` boolean split expressions, and of the split expressions
`ReorgPlanner::split_plan` builds from a list of split times (src/iox_query/src/frontend/reorg.rs).

## The model

A batch is the list of its rows, of any type `α`. A split expression is what
`PhysicalExpr::evaluate` makes of a batch: a boolean array (`ColumnarValue::Array` of a
`BooleanArray`, with NULLs) or a boolean scalar. Evaluation errors, `?` on the input stream
and receivers that hang up are not modelled; every panic of the code is `none`. The output
of a batch is the list of the `n + 1` batches sent, partition by partition.

## What is proved

`splitBatch_uniform`: when the expressions all evaluate to arrays of the batch's length, or all
to non-NULL scalars, partition `i < n` receives the rows where expression `i` is TRUE,
whatever the other expressions say, and partition `n` the rows where some expression is NULL
or every expression is FALSE; `splitTheStream_uniform` lifts this to a whole stream. The
documented rule, the least `i` whose expression is TRUE, holds only where no row has two TRUE
expressions and none is NULL (`splitBatch_route`); those are the expressions of `split_plan`,
which route each row to the range of split times that holds its time
(`splitPlan_splitBatch`). A mix of arrays and scalars panics (`splitBatch_mixed`).
-/

namespace IoxCore.IoxQuery

/-- A boolean `ColumnarValue`. -/
inductive ColumnarValue where
  | array (values : List (Option Bool))
  | scalar (value : Option Bool)
  deriving Repr, DecidableEq

namespace ColumnarValue

/-- The value at row `r`; an array has NULL past its end. -/
def valueAt : ColumnarValue → ℕ → Option Bool
  | array values, r => values.getD r none
  | scalar value, _ => value

/-- The two kinds of values the code combines: arrays with one value per row of a batch of
`n` rows, and non-NULL scalars. -/
inductive Kind where
  | array
  | literal
  deriving DecidableEq

def HasKind (n : ℕ) : Kind → ColumnarValue → Prop
  | .array, array values => values.length = n
  | .literal, scalar (some _) => True
  | _, _ => False

end ColumnarValue

open ColumnarValue

/-- arrow's `and` kernel on one pair of values: NULL if either is NULL (not Kleene logic). -/
def andNull : Option Bool → Option Bool → Option Bool
  | some a, some b => some (a && b)
  | _, _ => none

/-- `negate`: arrow's `not`, which keeps NULLs. -/
def negate : ColumnarValue → ColumnarValue
  | array values => array (values.map (Option.map (!·)))
  | scalar value => scalar (value.map (!·))

/-- `and`: an `Err` of the code is `.error`, the panic on an array and a scalar is `none`. -/
def and : ColumnarValue → ColumnarValue → Option (Except String ColumnarValue)
  -- arrow's kernel; both arrays have the batch's length
  | array left, array right => some (.ok (array (List.zipWith andNull left right)))
  | scalar (some left), scalar (some right) => some (.ok (scalar (some (left && right))))
  | scalar _, scalar _ =>
    some (.error "Expected two boolean literals, but got type Boolean and type Boolean")
  | _, _ => none

/-- `filter_record_batch`: the rows whose predicate value is TRUE. -/
def filterRecordBatch {α : Type} (batch : List α) (predicate : List (Option Bool)) : List α :=
  ((batch.zip predicate).filter fun p => p.2 = some true).map Prod.fst

def nullCount (values : List (Option Bool)) : ℕ := values.countP (·.isNone)

/-- `compute_batch`; `none` is the panic on a NULL scalar. -/
def computeBatch {α : Type} (inputBatch : List α) (indices : ColumnarValue) (lastBatch : Bool) :
    Option (List α) :=
  match indices with
  | array indices =>
    -- the last partition takes the NULLs as well
    if lastBatch && nullCount indices > 0 then
      some (filterRecordBatch inputBatch (indices.map (·.or (some true))))
    else some (filterRecordBatch inputBatch indices)
  | scalar (some true) => some inputBatch
  | scalar (some false) => some []
  | scalar none => none

section Split

variable {α : Type}

/-- The loop of `split_the_stream` over the split expressions on one batch: the batch sent to
each partition, and the rows that no expression so far has made TRUE. -/
def splitLoop (batch : List α) :
    List (List α → ColumnarValue) → Option ColumnarValue →
      Option (List (List α) × Option ColumnarValue)
  | [], remainingIndices => some ([], remainingIndices)
  | expr :: splitExprs, remainingIndices => do
    let trueIndices := expr batch
    let notTrueIndices := negate trueIndices
    -- `expect` turns an error of `and` into a panic
    let remainingIndices ← (match remainingIndices with
      | some notTrue => match and notTrue notTrueIndices with
        | some (.ok combined) => some combined
        | _ => none
      | none => some notTrueIndices)
    let trueBatch ← computeBatch batch trueIndices false
    let (batches, remainingIndices) ← splitLoop batch splitExprs (some remainingIndices)
    some (trueBatch :: batches, remainingIndices)

/-- One batch through `split_the_stream`: the batches sent to the `n + 1` partitions. -/
def splitBatch (splitExprs : List (List α → ColumnarValue)) (batch : List α) :
    Option (List (List α)) := do
  let (batches, remainingIndices) ← splitLoop batch splitExprs none
  -- `expect`: there is no remaining set without a split expression
  let remainingIndices ← remainingIndices
  let finalNotTrueBatch ← computeBatch batch remainingIndices true
  some (batches ++ [finalNotTrueBatch])

/-- `split_the_stream`: for each input batch in order, the batches sent to the partitions. -/
def splitTheStream (splitExprs : List (List α → ColumnarValue)) :
    List (List α) → Option (List (List (List α)))
  | [] => some []
  | batch :: batches => do
    let out ← splitBatch splitExprs batch
    let rest ← splitTheStream splitExprs batches
    some (out :: rest)

/-- The rows partition `i` receives, in order, from the output of a stream. -/
def partitionRows (outs : List (List (List α))) (i : ℕ) : List α :=
  (outs.map fun out => out.getD i []).flatten

end Split

/-! ## The kernels -/

namespace ColumnarValue

variable {n : ℕ} {k k' : Kind} {c v : ColumnarValue}

/-- A value has one kind at most. -/
theorem HasKind.unique (h : c.HasKind n k) (h' : c.HasKind n k') : k = k' := by
  cases k <;> cases k' <;> cases c with
  | array => first | rfl | exact absurd h' id | exact absurd h id
  | scalar value => cases value <;> first | rfl | exact absurd h' id | exact absurd h id

end ColumnarValue

@[simp] theorem andNull_some_true (v : Option Bool) : andNull (some true) v = v := by
  cases v <;> rfl

@[simp] theorem andNull_none_left (v : Option Bool) : andNull none v = none := rfl

@[simp] theorem andNull_none_right (v : Option Bool) : andNull v none = none := by
  cases v <;> rfl

@[simp] theorem valueAt_negate (c : ColumnarValue) (r : ℕ) :
    (negate c).valueAt r = (c.valueAt r).map (!·) := by
  cases c with
  | array values =>
    simp only [negate, valueAt]
    exact List.getD_map values none (Option.map (!·))
  | scalar value => rfl

theorem hasKind_negate {n : ℕ} {k : Kind} {c : ColumnarValue} (h : c.HasKind n k) :
    (negate c).HasKind n k := by
  cases c with
  | array values => cases k <;> simp_all [negate, HasKind]
  | scalar value => cases k <;> cases value <;> simp_all [negate, HasKind]

/-- Two values of one kind combine into a value of that kind, row by row by `andNull`. -/
theorem and_of_hasKind {n : ℕ} {k : Kind} {c v : ColumnarValue} (hc : c.HasKind n k)
    (hv : v.HasKind n k) :
    ∃ c', and c v = some (.ok c') ∧ c'.HasKind n k ∧
      ∀ r, c'.valueAt r = andNull (c.valueAt r) (v.valueAt r) := by
  cases k with
  | array =>
    obtain ⟨left, rfl⟩ : ∃ left, c = array left := by cases c <;> simp_all [HasKind]
    obtain ⟨right, rfl⟩ : ∃ right, v = array right := by cases v <;> simp_all [HasKind]
    simp only [HasKind] at hc hv
    refine ⟨_, rfl, by simp [HasKind, hc, hv], fun r => ?_⟩
    simp only [valueAt, List.getD_eq_getElem?_getD, List.getElem?_zipWith]
    cases left[r]? <;> cases right[r]? <;> simp
  | literal =>
    obtain ⟨a, rfl⟩ : ∃ a, c = scalar (some a) := by
      cases c with
      | array => simp [HasKind] at hc
      | scalar value => cases value <;> simp_all [HasKind]
    obtain ⟨b, rfl⟩ : ∃ b, v = scalar (some b) := by
      cases v with
      | array => simp [HasKind] at hv
      | scalar value => cases value <;> simp_all [HasKind]
    exact ⟨_, rfl, trivial, fun r => rfl⟩

/-- An array and a scalar: the panic of `and`. -/
theorem and_of_ne_kind {n : ℕ} {k k' : Kind} {c v : ColumnarValue} (hc : c.HasKind n k)
    (hv : v.HasKind n k') (hk : k ≠ k') : and c v = none := by
  cases k <;> cases k' <;> simp at hk <;> cases c <;> cases v <;> simp_all [HasKind, and]

section Rows

variable {α : Type}

theorem filterRecordBatch_cons (x : α) (xs : List α) (a : Option Bool) (m : List (Option Bool)) :
    filterRecordBatch (x :: xs) (a :: m) =
      if a = some true then x :: filterRecordBatch xs m else filterRecordBatch xs m := by
  by_cases h : a = some true <;> simp [filterRecordBatch, h]

/-- Two predicates TRUE at the same rows keep the same rows. -/
theorem filterRecordBatch_congr :
    ∀ {batch : List α} {m₁ m₂ : List (Option Bool)}, m₁.length = batch.length →
      m₂.length = batch.length →
      (∀ r < batch.length, (m₁.getD r none = some true ↔ m₂.getD r none = some true)) →
      filterRecordBatch batch m₁ = filterRecordBatch batch m₂
  | [], _, _, _, _, _ => by simp [filterRecordBatch]
  | _ :: _, [], _, h₁, _, _ => by simp at h₁
  | _ :: _, _ :: _, [], _, h₂, _ => by simp at h₂
  | x :: xs, a :: m₁, b :: m₂, h₁, h₂, h => by
    have hrest : filterRecordBatch xs m₁ = filterRecordBatch xs m₂ :=
      filterRecordBatch_congr (by simpa using h₁) (by simpa using h₂) (fun r hr => by
        simpa using h (r + 1) (by simpa using hr))
    have h0 : a = some true ↔ b = some true := by simpa using h 0 (by simp)
    rw [filterRecordBatch_cons, filterRecordBatch_cons, hrest]
    by_cases ha : a = some true
    · simp [ha, h0.mp ha]
    · simp [ha, mt h0.mpr ha]

/-- The rows of a batch whose index satisfies `p`, in order. -/
def rowsWhere (batch : List α) (p : ℕ → Prop) [DecidablePred p] : List α :=
  filterRecordBatch batch ((List.range batch.length).map fun r => some (decide (p r)))

theorem filterRecordBatch_eq_rowsWhere {batch : List α} {predicate : List (Option Bool)}
    (h : predicate.length = batch.length) :
    filterRecordBatch batch predicate = rowsWhere batch (fun r => predicate.getD r none = some true) := by
  apply filterRecordBatch_congr h (by simp)
  intro r hr
  simp [List.getD_eq_getElem?_getD, hr]

theorem rowsWhere_congr {batch : List α} {p q : ℕ → Prop} [DecidablePred p] [DecidablePred q]
    (h : ∀ r < batch.length, (p r ↔ q r)) : rowsWhere batch p = rowsWhere batch q := by
  apply filterRecordBatch_congr (by simp) (by simp)
  intro r hr
  simp [List.getD_eq_getElem?_getD, hr, h r hr]

theorem filterRecordBatch_of_forall_true :
    ∀ {batch : List α} {predicate : List (Option Bool)}, predicate.length = batch.length →
      (∀ v ∈ predicate, v = some true) → filterRecordBatch batch predicate = batch
  | [], _, _, _ => by simp [filterRecordBatch]
  | _ :: _, [], h, _ => by simp at h
  | x :: xs, a :: m, h, ht => by
    rw [filterRecordBatch_cons, if_pos (ht a (by simp)),
      filterRecordBatch_of_forall_true (by simpa using h) (fun v hv => ht v (by simp [hv]))]

theorem filterRecordBatch_of_forall_ne_true :
    ∀ {batch : List α} {predicate : List (Option Bool)},
      (∀ v ∈ predicate, v ≠ some true) → filterRecordBatch batch predicate = []
  | [], _, _ => by simp [filterRecordBatch]
  | _ :: _, [], _ => by simp [filterRecordBatch]
  | x :: xs, a :: m, ht => by
    rw [filterRecordBatch_cons, if_neg (ht a (by simp)),
      filterRecordBatch_of_forall_ne_true (fun v hv => ht v (by simp [hv]))]

theorem rowsWhere_true (batch : List α) : rowsWhere batch (fun _ => True) = batch :=
  filterRecordBatch_of_forall_true (by simp) (by simp)

theorem rowsWhere_false (batch : List α) : rowsWhere batch (fun _ => False) = [] :=
  filterRecordBatch_of_forall_ne_true (by simp)

theorem rowsWhere_cons (x : α) (xs : List α) (p : ℕ → Prop) [DecidablePred p] :
    rowsWhere (x :: xs) p = if p 0 then x :: rowsWhere xs (fun r => p (r + 1))
      else rowsWhere xs (fun r => p (r + 1)) := by
  rw [rowsWhere, List.length_cons, List.range_succ_eq_map, List.map_cons, List.map_map,
    filterRecordBatch_cons]
  by_cases h : p 0 <;> simp [h, rowsWhere, Function.comp_def]

/-- Rows picked by a property of the row itself. -/
theorem rowsWhere_eq_filter {q : α → Bool} :
    ∀ {batch : List α} {p : ℕ → Prop} [DecidablePred p],
      (∀ r (hr : r < batch.length), p r ↔ q batch[r] = true) → rowsWhere batch p = batch.filter q
  | [], _, _, _ => rfl
  | x :: xs, p, _, h => by
    rw [rowsWhere_cons, rowsWhere_eq_filter (fun r hr => h (r + 1) (by simpa using hr)),
      List.filter_cons]
    have h0 : p 0 ↔ q x = true := h 0 (by simp)
    by_cases hx : q x = true <;> simp [hx, h0]

/-- `compute_batch` on an expression's value: the rows where it is TRUE. -/
theorem computeBatch_of_hasKind {batch : List α} {k : Kind} {c : ColumnarValue}
    (hc : c.HasKind batch.length k) :
    computeBatch batch c false = some (rowsWhere batch (fun r => c.valueAt r = some true)) := by
  cases k with
  | array =>
    obtain ⟨values, rfl⟩ : ∃ values, c = array values := by cases c <;> simp_all [HasKind]
    simp only [HasKind] at hc
    simp [computeBatch, filterRecordBatch_eq_rowsWhere hc, valueAt]
  | literal =>
    obtain ⟨b, rfl⟩ : ∃ b, c = scalar (some b) := by
      cases c with
      | array => simp [HasKind] at hc
      | scalar value => cases value <;> simp_all [HasKind]
    cases b
    · simp [computeBatch, valueAt, rowsWhere_false]
    · simp [computeBatch, valueAt, rowsWhere_true]

/-- `compute_batch` on the remaining value, for the last partition: the rows where it is TRUE
or NULL. -/
theorem computeBatch_last_of_hasKind {batch : List α} {k : Kind} {c : ColumnarValue}
    (hc : c.HasKind batch.length k) :
    computeBatch batch c true = some (rowsWhere batch (fun r => c.valueAt r ≠ some false)) := by
  cases k with
  | array =>
    obtain ⟨values, rfl⟩ : ∃ values, c = array values := by cases c <;> simp_all [HasKind]
    simp only [HasKind] at hc
    simp only [computeBatch, Bool.true_and]
    -- with or without NULLs, mapping NULL to TRUE keeps the rows TRUE or NULL
    have hmap : filterRecordBatch batch (values.map (·.or (some true))) =
        rowsWhere batch (fun r => (array values).valueAt r ≠ some false) := by
      rw [filterRecordBatch_eq_rowsWhere (by simp [hc])]
      apply rowsWhere_congr
      intro r hr
      simp only [valueAt, List.getD_eq_getElem?_getD, List.getElem?_map,
        List.getElem?_eq_getElem (hc ▸ hr : r < values.length)]
      cases values[r] with
      | none => simp
      | some v => cases v <;> simp
    split
    · exact congrArg some hmap
    · rename_i hnull
      rw [← hmap]
      -- no NULL: mapping NULL to TRUE changes nothing
      have hsome : ∀ v ∈ values, v.or (some true) = v := by
        intro v hv
        cases v with
        | none =>
          simp only [decide_eq_true_eq, nullCount, gt_iff_lt, List.countP_pos_iff, not_exists,
            not_and] at hnull
          exact absurd rfl (hnull none hv)
        | some b => rfl
      rw [List.map_congr_left hsome, List.map_id']
  | literal =>
    obtain ⟨b, rfl⟩ : ∃ b, c = scalar (some b) := by
      cases c with
      | array => simp [HasKind] at hc
      | scalar value => cases value <;> simp_all [HasKind]
    cases b
    · simp [computeBatch, valueAt, rowsWhere_false]
    · simp [computeBatch, valueAt, rowsWhere_true]

end Rows

/-! ## One batch -/

section Batch

variable {α : Type} {batch : List α} {splitExprs : List (List α → ColumnarValue)} {k : Kind}
    {splitTimes : List ℤ}

/-- The remaining value of row `r` after the expressions, from `acc`: the conjunction, NULL
absorbing, of the negations of their values. -/
def remainingAt (splitExprs : List (List α → ColumnarValue)) (batch : List α)
    (acc : Option Bool) (r : ℕ) : Option Bool :=
  splitExprs.foldl (fun acc expr => andNull acc (((expr batch).valueAt r).map (!·))) acc

theorem remainingAt_eq_none :
    ∀ (splitExprs : List (List α → ColumnarValue)) (acc : Option Bool) (r : ℕ),
      remainingAt splitExprs batch acc r = none ↔
        acc = none ∨ ∃ expr ∈ splitExprs, (expr batch).valueAt r = none
  | [], acc, r => by simp [remainingAt]
  | expr :: splitExprs, acc, r => by
    rw [remainingAt, List.foldl_cons, ← remainingAt, remainingAt_eq_none splitExprs]
    cases acc with
    | none => simp
    | some a => cases hv : (expr batch).valueAt r <;> simp [andNull, hv]

theorem remainingAt_eq_some_true :
    ∀ (splitExprs : List (List α → ColumnarValue)) (acc : Option Bool) (r : ℕ),
      remainingAt splitExprs batch acc r = some true ↔
        acc = some true ∧ ∀ expr ∈ splitExprs, (expr batch).valueAt r = some false
  | [], acc, r => by simp [remainingAt]
  | expr :: splitExprs, acc, r => by
    rw [remainingAt, List.foldl_cons, ← remainingAt, remainingAt_eq_some_true splitExprs]
    cases acc with
    | none => simp
    | some a =>
      cases hv : (expr batch).valueAt r with
      | none => simp [andNull, hv]
      | some b => cases a <;> cases b <;> simp [andNull, hv]

/-- What the last partition takes from the remaining value: the rows where some expression is
NULL or every expression is FALSE. -/
theorem remainingAt_ne_some_false (r : ℕ) :
    remainingAt splitExprs batch (some true) r ≠ some false ↔
      (∃ expr ∈ splitExprs, (expr batch).valueAt r = none) ∨
        ∀ expr ∈ splitExprs, (expr batch).valueAt r = some false := by
  have hnone : remainingAt splitExprs batch (some true) r = none ↔ _ :=
    remainingAt_eq_none splitExprs (some true) r
  have htrue : remainingAt splitExprs batch (some true) r = some true ↔ _ :=
    remainingAt_eq_some_true splitExprs (some true) r
  simp only [reduceCtorEq, false_or, true_and] at hnone htrue
  rw [← hnone, ← htrue]
  cases remainingAt splitExprs batch (some true) r with
  | none => simp
  | some b => cases b <;> simp

/-- The loop over expressions of one kind: partition `i` gets the rows where expression `i` is
TRUE, and the remaining value keeps the kind. -/
theorem splitLoop_of_hasKind : ∀ (splitExprs : List (List α → ColumnarValue)) (c : ColumnarValue),
      (∀ expr ∈ splitExprs, (expr batch).HasKind batch.length k) →
      c.HasKind batch.length k →
      ∃ c', c'.HasKind batch.length k ∧
        (∀ r, c'.valueAt r = remainingAt splitExprs batch (c.valueAt r) r) ∧
        splitLoop batch splitExprs (some c) =
          some (splitExprs.map (fun expr => rowsWhere batch (fun r => (expr batch).valueAt r = some true)),
            some c')
  | [], c, _, hc => ⟨c, hc, fun _ => rfl, rfl⟩
  | expr :: splitExprs, c, hk, hc => by
    have hexpr := hk expr List.mem_cons_self
    obtain ⟨c₁, hand, hc₁, hv₁⟩ := and_of_hasKind hc (hasKind_negate hexpr)
    obtain ⟨c', hc', hv', hloop⟩ :=
      splitLoop_of_hasKind splitExprs c₁ (fun e he => hk e (List.mem_cons_of_mem _ he)) hc₁
    refine ⟨c', hc', fun r => ?_, ?_⟩
    · rw [hv', hv₁, valueAt_negate]
      rfl
    · simp only [splitLoop, hand, computeBatch_of_hasKind hexpr, hloop, Option.bind_eq_bind,
        Option.bind_some, List.map_cons]

/-- The split of one batch by expressions of one kind: partition `i < n` receives the rows where
expression `i` is TRUE, whatever the other expressions say, and partition `n` the rows where
some expression is NULL or every expression is FALSE. -/
theorem splitBatch_uniform (hne : splitExprs ≠ [])
    (hk : ∀ expr ∈ splitExprs, (expr batch).HasKind batch.length k) :
    splitBatch splitExprs batch =
      some (splitExprs.map (fun expr => rowsWhere batch (fun r => (expr batch).valueAt r = some true)) ++
        [rowsWhere batch (fun r => (∃ expr ∈ splitExprs, (expr batch).valueAt r = none) ∨
          ∀ expr ∈ splitExprs, (expr batch).valueAt r = some false)]) := by
  obtain ⟨expr, splitExprs, rfl⟩ := List.exists_cons_of_ne_nil hne
  have hexpr := hk expr List.mem_cons_self
  -- the first expression starts the remaining value with its negation
  obtain ⟨c', hc', hv', hloop⟩ := splitLoop_of_hasKind splitExprs (negate (expr batch))
    (fun e he => hk e (List.mem_cons_of_mem _ he)) (hasKind_negate hexpr)
  have hlast : rowsWhere batch (fun r => c'.valueAt r ≠ some false) =
      rowsWhere batch (fun r => (∃ e ∈ expr :: splitExprs, (e batch).valueAt r = none) ∨
        ∀ e ∈ expr :: splitExprs, (e batch).valueAt r = some false) := by
    apply rowsWhere_congr
    intro r _
    rw [hv', valueAt_negate, ← remainingAt_ne_some_false]
    simp [remainingAt]
  simp only [splitBatch, splitLoop, computeBatch_of_hasKind hexpr, hloop,
    computeBatch_last_of_hasKind hc', hlast, Option.bind_eq_bind, Option.bind_some, List.map_cons,
    List.cons_append]

/-- Two split expressions TRUE on the one row of a batch: the row is sent to both partitions,
and the last one gets nothing. -/
theorem splitBatch_sends_true_row_twice :
    splitBatch [fun _ => .array [some true], fun _ => .array [some true]] [0] =
      some [[0], [0], []] := by
  decide

example : splitBatch [fun _ => .array [none], fun _ => .array [some true]] [0] =
    some [[], [0], [0]] := by
  decide

/-- Expressions of both kinds: the first one of the kind the first expression does not have
makes `and` panic. -/
theorem splitLoop_of_ne_kind {k k' : Kind} (hk : k ≠ k') :
    ∀ (splitExprs : List (List α → ColumnarValue)) (c : ColumnarValue),
      (∀ expr ∈ splitExprs, ∃ k'', (expr batch).HasKind batch.length k'') →
      c.HasKind batch.length k → (∃ expr ∈ splitExprs, (expr batch).HasKind batch.length k') →
      splitLoop batch splitExprs (some c) = none
  | [], _, _, _, ⟨_, he, _⟩ => absurd he List.not_mem_nil
  | expr :: splitExprs, c, hall, hc, ⟨e', he', hke'⟩ => by
    obtain ⟨k₀, hk₀⟩ := hall expr List.mem_cons_self
    by_cases h₀ : k₀ = k
    -- the kind of the remaining value: the loop goes on with the rest
    · subst h₀
      obtain ⟨c₁, hand, hc₁, -⟩ := and_of_hasKind hc (hasKind_negate hk₀)
      have hrest : ∃ e ∈ splitExprs, (e batch).HasKind batch.length k' := by
        rcases List.mem_cons.mp he' with rfl | he'
        · exact absurd (hk₀.unique hke') hk
        · exact ⟨e', he', hke'⟩
      have hnone := splitLoop_of_ne_kind hk splitExprs c₁
        (fun e he => hall e (List.mem_cons_of_mem _ he)) hc₁ hrest
      simp only [splitLoop, hand, computeBatch_of_hasKind hk₀, hnone, Option.bind_eq_bind,
        Option.bind_some, Option.bind_none]
    -- the other kind: `and` panics here
    · have hand := and_of_ne_kind hc (hasKind_negate hk₀) (Ne.symm h₀)
      simp only [splitLoop, hand, Option.bind_eq_bind, Option.bind_none]

/-- A split expression that evaluates to an array and one that evaluates to a scalar on the same
batch: the split panics. -/
theorem splitBatch_mixed (hall : ∀ expr ∈ splitExprs, ∃ k, (expr batch).HasKind batch.length k)
    {e₁ e₂ : List α → ColumnarValue} (he₁ : e₁ ∈ splitExprs) (he₂ : e₂ ∈ splitExprs)
    (hk₁ : (e₁ batch).HasKind batch.length .array) (hk₂ : (e₂ batch).HasKind batch.length .literal) :
    splitBatch splitExprs batch = none := by
  obtain ⟨expr, rest, rfl⟩ := List.exists_cons_of_ne_nil (List.ne_nil_of_mem he₁)
  obtain ⟨k₀, hk₀⟩ := hall expr List.mem_cons_self
  -- the expression of the other kind than the first one comes later
  have hother : ∃ k', k₀ ≠ k' ∧ ∃ e ∈ rest, (e batch).HasKind batch.length k' := by
    cases k₀ with
    | array =>
      rcases List.mem_cons.mp he₂ with rfl | he₂
      · exact absurd (hk₀.unique hk₂) (by decide)
      · exact ⟨.literal, by decide, e₂, he₂, hk₂⟩
    | literal =>
      rcases List.mem_cons.mp he₁ with rfl | he₁
      · exact absurd (hk₀.unique hk₁) (by decide)
      · exact ⟨.array, by decide, e₁, he₁, hk₁⟩
  obtain ⟨k', hk', hrest⟩ := hother
  have hnone := splitLoop_of_ne_kind hk' rest (negate (expr batch))
    (fun e he => hall e (List.mem_cons_of_mem _ he)) (hasKind_negate hk₀) hrest
  simp only [splitBatch, splitLoop, computeBatch_of_hasKind hk₀, hnone, Option.bind_eq_bind,
    Option.bind_some, Option.bind_none]

/-! ## The documented routing -/

/-- The partition the documentation promises a row: the least `i` whose expression is TRUE on
it, `n` when none is. -/
def route (values : List (Option Bool)) : ℕ := values.findIdx (· = some true)

/-- Where no row has a NULL value or two TRUE values, the code routes as documented. -/
theorem splitBatch_route (hne : splitExprs ≠ [])
    (hk : ∀ expr ∈ splitExprs, (expr batch).HasKind batch.length k)
    (hnull : ∀ expr ∈ splitExprs, ∀ r < batch.length, (expr batch).valueAt r ≠ none)
    (hone : ∀ r < batch.length, ∀ i j (hi : i < splitExprs.length) (hj : j < splitExprs.length),
      (splitExprs[i] batch).valueAt r = some true → (splitExprs[j] batch).valueAt r = some true →
        i = j) :
    splitBatch splitExprs batch = some ((List.range (splitExprs.length + 1)).map fun i =>
      rowsWhere batch (fun r => route (splitExprs.map fun expr => (expr batch).valueAt r) = i)) := by
  rw [splitBatch_uniform hne hk]
  congr 1
  apply List.ext_getElem (by simp)
  intro i h₁ h₂
  rw [List.getElem_map, List.getElem_range, List.getElem_append]
  split
  -- partition `i < n`: TRUE at `i` is the least TRUE, there being no other
  · rename_i hi
    simp only [List.length_map] at hi
    rw [List.getElem_map]
    apply rowsWhere_congr
    intro r hr
    rw [route, List.findIdx_eq (by simpa using hi)]
    simp only [List.getElem_map, decide_eq_true_eq, decide_eq_false_iff_not]
    constructor
    · intro htrue
      exact ⟨htrue, fun j hj hjtrue => absurd (hone r hr j i (by omega) hi hjtrue htrue) (by omega)⟩
    · exact And.left
  -- partition `n`: no TRUE at all
  · rename_i hi
    simp only [List.length_map, List.length_range] at hi h₂
    have hn : i = splitExprs.length := by omega
    subst hn
    simp only [List.length_map, Nat.sub_self, List.getElem_singleton]
    apply rowsWhere_congr
    intro r hr
    have hlen : (splitExprs.map fun expr => (expr batch).valueAt r).length = splitExprs.length :=
      List.length_map _
    rw [route, ← hlen, List.findIdx_eq_length]
    simp only [List.mem_map, forall_exists_index, and_imp, forall_apply_eq_imp_iff₂,
      decide_eq_false_iff_not]
    constructor
    · rintro (⟨e, he, hnone⟩ | hfalse) e' he'
      · exact absurd hnone (hnull e he r hr)
      · simp [hfalse e' he']
    · intro hnottrue
      right
      intro e he
      have := hnull e he r hr
      cases hv : (e batch).valueAt r with
      | none => exact absurd hv this
      | some b => cases b <;> simp_all

/-! ## `split_plan` -/

/-- The split expressions `ReorgPlanner::split_plan` builds, for rows whose time is `time`:
`time <= split_times[0]`, then `split_times[i-1] < time AND time <= split_times[i]`; `none`
for its panics on empty or not strictly increasing split times. -/
def splitPlanExprs (time : α → ℤ) (splitTimes : List ℤ) :
    Option (List (List α → ColumnarValue)) :=
  match splitTimes with
  | [] => none
  | first :: later =>
    if (splitTimes.zip later).all (fun p => p.1 < p.2) then
      some ((fun batch => .array (batch.map fun row => some (decide (time row ≤ first)))) ::
        (splitTimes.zip later).map fun p => fun batch =>
          .array (batch.map fun row => some (decide (p.1 < time row) && decide (time row ≤ p.2))))
    else none

/-- The times partition `i` of a split plan stands for: `split_times[i-1] < t <= split_times[i]`,
open below for the first partition and above for the last. -/
def InRange (splitTimes : List ℤ) (i : ℕ) (t : ℤ) : Prop :=
  (i = 0 ∨ splitTimes.getD (i - 1) 0 < t) ∧ (i = splitTimes.length ∨ t ≤ splitTimes.getD i 0)

instance (splitTimes : List ℤ) (i : ℕ) (t : ℤ) : Decidable (InRange splitTimes i t) :=
  inferInstanceAs (Decidable (_ ∧ _))

/-- The least split time at or above `t` marks a range that holds `t`. -/
theorem inRange_findIdx (splitTimes : List ℤ) (t : ℤ) :
    InRange splitTimes (splitTimes.findIdx (t ≤ ·)) t := by
  have hle : splitTimes.findIdx (t ≤ ·) ≤ splitTimes.length := List.findIdx_le_length
  constructor
  · by_cases h0 : splitTimes.findIdx (t ≤ ·) = 0
    · exact .inl h0
    · right
      have hlt : splitTimes.findIdx (t ≤ ·) - 1 < splitTimes.findIdx (t ≤ ·) := by omega
      have hnot := List.not_of_lt_findIdx hlt
      rw [List.getD_eq_getElem _ _ (by omega)]
      simpa using hnot
  · by_cases hn : splitTimes.findIdx (t ≤ ·) = splitTimes.length
    · exact .inl hn
    · right
      have hlt : splitTimes.findIdx (t ≤ ·) < splitTimes.length := by omega
      rw [List.getD_eq_getElem _ _ hlt]
      simpa using List.findIdx_getElem (w := hlt)

/-- Over strictly increasing split times the ranges are disjoint. -/
theorem inRange_unique (hs : splitTimes.Pairwise (· < ·)) {i j : ℕ} {t : ℤ}
    (hi : InRange splitTimes i t) (hj : InRange splitTimes j t) (hin : i ≤ splitTimes.length)
    (hjn : j ≤ splitTimes.length) : i = j := by
  -- the lower range ends at or below where the higher one starts
  have key : ∀ {a b}, a < b → b ≤ splitTimes.length → InRange splitTimes a t →
      InRange splitTimes b t → False := by
    intro a b hab hb ha hb'
    rcases ha.2 with ha | ha
    · omega
    rcases hb'.1 with hb0 | hb1
    · omega
    rw [List.getD_eq_getElem _ _ (by omega)] at ha
    rw [List.getD_eq_getElem _ _ (by omega)] at hb1
    have hmono : splitTimes[a] ≤ splitTimes[b - 1] := by
      rcases Nat.lt_or_eq_of_le (show a ≤ b - 1 by omega) with hlt | heq
      · exact Int.le_of_lt (List.pairwise_iff_getElem.mp hs a (b - 1) _ _ hlt)
      · simp [heq]
    omega
  rcases Nat.lt_trichotomy i j with h | h | h
  · exact (key h hjn hi hj).elim
  · exact h
  · exact (key h hin hj hi).elim

/-- Over strictly increasing split times, `split_plan` builds one range expression per split
time. -/
theorem splitPlanExprs_eq (time : α → ℤ) (hne : splitTimes ≠ [])
    (hs : splitTimes.Pairwise (· < ·)) :
    splitPlanExprs time splitTimes = some ((List.range splitTimes.length).map fun i batch =>
      .array (batch.map fun row => some (decide (InRange splitTimes i (time row))))) := by
  obtain ⟨first, later, rfl⟩ := List.exists_cons_of_ne_nil hne
  have hcheck : ((first :: later).zip later).all (fun p => p.1 < p.2) = true := by
    rw [List.all_eq_true]
    intro p hp
    obtain ⟨i, hi, rfl⟩ := List.mem_iff_getElem.mp hp
    simp only [List.length_zip, List.length_cons] at hi
    rw [List.getElem_zip]
    have := List.pairwise_iff_getElem.mp hs i (i + 1) (by simp; omega) (by simp; omega) (by omega)
    simpa using this
  rw [splitPlanExprs, if_pos hcheck, List.length_cons, List.range_succ_eq_map, List.map_cons,
    List.map_map]
  congr 2
  -- the first expression: `time <= split_times[0]`
  · funext batch
    congr 1
    apply List.map_congr_left
    intro row _
    simp [InRange]
  -- the later ones: `split_times[i-1] < time AND time <= split_times[i]`
  · apply List.ext_getElem (by simp)
    intro i h₁ h₂
    simp only [List.length_map, List.length_zip, List.length_cons] at h₁
    rw [List.getElem_map, List.getElem_map, List.getElem_zip, List.getElem_range]
    funext batch
    congr 1
    apply List.map_congr_left
    intro row _
    simp only [Nat.succ_eq_add_one, InRange, Nat.add_sub_cancel,
      List.length_cons, Nat.add_right_cancel_iff]
    rw [List.getD_eq_getElem _ _ (by simp; omega), List.getD_eq_getElem _ _ (by simp; omega)]
    simp [show i ≠ later.length by omega]

/-- The split of a batch by `split_plan`'s expressions: each row goes to the partition of the
range of split times that holds its time, and to no other. -/
theorem splitPlan_splitBatch (time : α → ℤ) (hne : splitTimes ≠ [])
    (hs : splitTimes.Pairwise (· < ·)) (batch : List α) :
    ∃ splitExprs, splitPlanExprs time splitTimes = some splitExprs ∧
      splitBatch splitExprs batch = some ((List.range (splitTimes.length + 1)).map fun i =>
        batch.filter fun row => decide (InRange splitTimes i (time row))) := by
  refine ⟨_, splitPlanExprs_eq time hne hs, ?_⟩
  have hvalue : ∀ i r (hr : r < batch.length), ColumnarValue.valueAt
      (.array (batch.map fun row => some (decide (InRange splitTimes i (time row))))) r =
        some (decide (InRange splitTimes i (time batch[r]))) := by
    intro i r hr
    simp [valueAt, List.getD_eq_getElem?_getD, hr]
  rw [splitBatch_uniform (k := .array) (by simpa using hne) (by simp [HasKind])]
  congr 1
  apply List.ext_getElem (by simp)
  intro i h₁ h₂
  rw [List.getElem_map, List.getElem_range, List.getElem_append]
  split
  -- partition `i < n`: its range expression is TRUE
  · rename_i hi
    simp only [List.length_map, List.length_range] at hi
    rw [List.getElem_map, List.getElem_map, List.getElem_range]
    apply rowsWhere_eq_filter
    intro r hr
    simp [hvalue i r hr]
  -- partition `n`: every range expression is FALSE, so the time is past the last split time
  · rename_i hi
    simp only [List.length_map, List.length_range] at hi h₂
    have hn : i = splitTimes.length := by omega
    subst hn
    simp only [List.length_map, List.length_range, Nat.sub_self, List.getElem_singleton]
    apply rowsWhere_eq_filter
    intro r hr
    simp only [List.mem_map, List.mem_range, exists_exists_and_eq_and, forall_exists_index,
      and_imp, forall_apply_eq_imp_iff₂, hvalue _ r hr, reduceCtorEq, and_false, exists_false,
      false_or, Option.some.injEq, decide_eq_false_iff_not, decide_eq_true_eq]
    constructor
    · intro hnone
      have hfound := inRange_findIdx splitTimes (time batch[r])
      have hle : splitTimes.findIdx (time batch[r] ≤ ·) ≤ splitTimes.length :=
        List.findIdx_le_length
      rcases Nat.lt_or_eq_of_le hle with hlt | heq
      · exact absurd hfound (hnone _ hlt)
      · rwa [heq] at hfound
    · intro hlast j hj hin
      exact absurd (inRange_unique hs hin hlast (by omega) (Nat.le_refl _)) (by omega)

/-! ## The stream -/

/-- The run of `split_the_stream`: every batch is split in turn. -/
theorem splitTheStream_eq_some {f : List α → List (List α)} :
    ∀ batches : List (List α), (∀ batch ∈ batches, splitBatch splitExprs batch = some (f batch)) →
      splitTheStream splitExprs batches = some (batches.map f)
  | [], _ => rfl
  | batch :: batches, h => by
    rw [splitTheStream, h batch List.mem_cons_self,
      splitTheStream_eq_some batches (fun b hb => h b (List.mem_cons_of_mem _ hb))]
    rfl

/-- `split_plan` over a whole stream: partition `i` receives, in input order, exactly the rows
whose time lies in range `i`. -/
theorem splitPlan_partitionRows (time : α → ℤ) {splitTimes : List ℤ} (hne : splitTimes ≠ [])
    (hs : splitTimes.Pairwise (· < ·)) (batches : List (List α)) :
    ∃ splitExprs outs, splitPlanExprs time splitTimes = some splitExprs ∧
      splitTheStream splitExprs batches = some outs ∧
      ∀ i ≤ splitTimes.length,
        partitionRows outs i = batches.flatten.filter fun row => decide (InRange splitTimes i (time row)) := by
  obtain ⟨splitExprs, hexprs, -⟩ := splitPlan_splitBatch time hne hs []
  have hbatch : ∀ batch ∈ batches, splitBatch splitExprs batch = some
      ((List.range (splitTimes.length + 1)).map fun i =>
        batch.filter fun row => decide (InRange splitTimes i (time row))) := by
    intro batch _
    obtain ⟨splitExprs', hexprs', hsplit⟩ := splitPlan_splitBatch time hne hs batch
    rw [hexprs] at hexprs'
    cases hexprs'
    exact hsplit
  refine ⟨splitExprs, _, hexprs, splitTheStream_eq_some batches hbatch, fun i hi => ?_⟩
  rw [partitionRows, List.map_map, List.filter_flatten]
  congr 1
  apply List.map_congr_left
  intro batch _
  simp [List.getD_eq_getElem?_getD, show i < splitTimes.length + 1 by omega]

/-- Split at `5`, the rows at times `1` and `7` of one batch go to the first and second stream. -/
theorem splitPlan_at_five : ∃ splitExprs outs, splitPlanExprs id [5] = some splitExprs ∧
      splitTheStream splitExprs [[(1 : ℤ), 7]] = some outs ∧
      partitionRows outs 0 = [1] ∧ partitionRows outs 1 = [7] := by
  obtain ⟨e, o, he, ho, h⟩ := @splitPlan_partitionRows ℤ id [5] (by decide) (by decide) [[1, 7]]
  exact ⟨e, o, he, ho, by rw [h 0 (by decide)]; decide, by rw [h 1 (by decide)]; decide⟩

end Batch

end IoxCore.IoxQuery

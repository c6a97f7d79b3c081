import IoxCore.Influxql.Expression

/-!
# Splitting the time range off a condition

`split_cond` of `influxdb_influxql_parser::time_range`: a post-order walk over a `WHERE`
condition that reads every comparison of `time` with an expression as a bound of the time
range, and rebuilds the rest of the condition on a stack: a comparison or a boolean literal
pushes itself (or `None` for a time comparison), and an `AND` or `OR` pops its two operands
and pushes what is left of them.

## The model

`reduce_time_expr` (which evaluates the other side of a time comparison, `now()` included)
is a parameter, `reduceTimeExpr`. The walk's stack is a list with its top first. A time bound
is an `i64` held in `ℤ`; `ts + 1` and `ts - 1` wrap as they do in a release build
(`wrapI64`). The error for an expression that does not reduce to a timestamp carries the
expression's text in the source; here it carries the prefix only.

## Results

* `splitCond_timeRange`: the time range is the intersection of the exact sets of the time
  comparisons, provided no bound is `ts + 1` at `i64::MAX` or `ts - 1` at `i64::MIN`.
* `splitCond_rest`: for a condition whose comparisons have no boolean literal as an operand,
  the rest is the condition with its time comparisons deleted (`withoutTime`).
* `splitCond_keeps_literal_operand`: without the first proviso, the rest gains a node.
-/

namespace IoxCore.Influxql

/-- An `i64` arithmetic result as a release build wraps it. -/
def wrapI64 (x : ℤ) : ℤ := (x + 2 ^ 63) % 2 ^ 64 - 2 ^ 63

/-- A value of `i64`. -/
def InI64 (x : ℤ) : Prop := -2 ^ 63 ≤ x ∧ x < 2 ^ 63

instance : DecidablePred InI64 := fun x => inferInstanceAs (Decidable (-2 ^ 63 ≤ x ∧ x < 2 ^ 63))

theorem wrapI64_of_inI64 {x : ℤ} (h : InI64 x) : wrapI64 x = x := by
  obtain ⟨h₁, h₂⟩ := h
  unfold wrapI64
  omega

/-- timestamp_nanos_opt: the nanoseconds of a timestamp, when they fit in `i64`. -/
def timestampNanosOpt (ts : ℤ) : Option ℤ :=
  if -2 ^ 63 ≤ ts ∧ ts < 2 ^ 63 then some ts else none

/-- str::eq_ignore_ascii_case. -/
def eqIgnoreAsciiCase (a b : String) : Bool :=
  decide (a.toList.map Char.toLower = b.toList.map Char.toLower)

/-- is_time_field: a reference to the `time` column, in any case. -/
def isTimeField : ConditionalExpression → Bool
  | .expr (.varRef name) => eqIgnoreAsciiCase name "time"
  | _ => false

/-- The comparisons split_cond reads as a time bound when one side is time. -/
def ConditionalOperator.isComparison : ConditionalOperator → Bool
  | .eq | .notEq | .gt | .lt | .gtEq | .ltEq => true
  | _ => false

/-- has_time_range: some node of the condition is a reference to `time`. -/
def hasTimeRange (cond : ConditionalExpression) : Bool :=
  match walkExpression (fun (_ : Unit) e => match e with
      | .conditional c => if isTimeField c then .error () else .ok ()
      | .arithmetic _ => .ok ()) () cond with
  | .error () => true
  | .ok () => false

/-! ### Time ranges -/

/-- TimeRange: the bounds `[lower, upper]`, `none` unbounded. -/
structure TimeRange where
  lower : Option ℤ := none
  upper : Option ℤ := none
  deriving DecidableEq

namespace TimeRange

/-- intersected: the intersection with `other`. -/
def intersected (r other : TimeRange) : TimeRange :=
  let lower := match other.lower with
    | none => r.lower
    | some other => match r.lower with
      | none => some other
      | some existing => if other > existing then some other else r.lower
  let upper := match other.upper with
    | none => r.upper
    | some other => match r.upper with
      | none => some other
      | some existing => if other < existing then some other else r.upper
  { lower, upper }

/-- The times a range holds. -/
def Contains (r : TimeRange) (t : ℤ) : Prop :=
  (∀ l, r.lower = some l → l ≤ t) ∧ (∀ u, r.upper = some u → t ≤ u)

theorem lower_intersected {r other : TimeRange} {t : ℤ} :
    (∀ l, (r.intersected other).lower = some l → l ≤ t) ↔
      (∀ l, r.lower = some l → l ≤ t) ∧ (∀ l, other.lower = some l → l ≤ t) := by
  obtain ⟨l, u⟩ := r
  obtain ⟨l', u'⟩ := other
  cases l with
  | none => cases l' <;> simp [intersected]
  | some a =>
    cases l' with
    | none => simp [intersected]
    | some b =>
      by_cases h : b > a
      · simp [intersected, h]; omega
      · simp [intersected, h]; omega

theorem upper_intersected {r other : TimeRange} {t : ℤ} :
    (∀ u, (r.intersected other).upper = some u → t ≤ u) ↔
      (∀ u, r.upper = some u → t ≤ u) ∧ (∀ u, other.upper = some u → t ≤ u) := by
  obtain ⟨l, u⟩ := r
  obtain ⟨l', u'⟩ := other
  cases u with
  | none => cases u' <;> simp [intersected]
  | some a =>
    cases u' with
    | none => simp [intersected]
    | some b =>
      by_cases h : b < a
      · simp [intersected, h]; omega
      · simp [intersected, h]; omega

theorem contains_intersected {r other : TimeRange} {t : ℤ} :
    (r.intersected other).Contains t ↔ r.Contains t ∧ other.Contains t := by
  simp only [Contains, lower_intersected, upper_intersected]
  exact and_and_and_comm

end TimeRange

/-! ### The walk -/

/-- The operators of a time comparison, in the source a local `Op`. -/
inductive TimeOp where
  | eq | gt | gtEq | lt | ltEq

/-- The time operator of a comparison other than `!=`. -/
def TimeOp.ofOperator : ConditionalOperator → Option TimeOp
  | .eq => some .eq
  | .gt => some .gt
  | .gtEq => some .gtEq
  | .lt => some .lt
  | .ltEq => some .ltEq
  | _ => none

/-- The operator with its sides swapped, for `expression OP time`. -/
def TimeOp.swap : TimeOp → TimeOp
  | .eq => .eq
  | .gt => .lt
  | .gtEq => .ltEq
  | .lt => .gt
  | .ltEq => .gtEq

/-- The range of `time OP ts`, with the bounds InfluxQL OG gives it. -/
def TimeOp.toRange : TimeOp → ℤ → TimeRange
  | .eq, ts => { lower := some ts, upper := some ts }
  | .gt, ts => { lower := some (wrapI64 (ts + 1)) }
  | .gtEq, ts => { lower := some ts }
  | .lt, ts => { upper := some (wrapI64 (ts - 1)) }
  | .ltEq, ts => { upper := some ts }

/-- ExprError: an error of the client's expression, or an internal one. -/
inductive ExprError where
  | expression (msg : String)
  | internal (msg : String)

/-- The state of split_cond's visitor: the time range so far and the stack of what is left
of the condition, top first. -/
structure SplitState where
  timeRange : TimeRange
  stack : List (Option ConditionalExpression)

/-- The two operands of an `AND` or `OR`, with what is left of them. -/
def combine (left : Option ConditionalExpression) (op : ConditionalOperator)
    (right : Option ConditionalExpression) : Option ConditionalExpression :=
  match left, right with
  | some left, some right => some (.binary left op right)
  | none, some node | some node, none => some node
  | none, none => none

section Split

variable (reduceTimeExpr : Expr → Except ExprError Expr) {lhs rhs : ConditionalExpression}
    {op : ConditionalOperator} {cond : ConditionalExpression} {s s' : SplitState}

/-- The bound of a time comparison: the side that is not time, reduced to a timestamp, and
the operator read with time on the left. -/
def timeComparison (lhs : ConditionalExpression) (op : TimeOp) (rhs : ConditionalExpression) :
    Except ExprError (TimeOp × ℤ) := do
  let (expr, op) := if isTimeField lhs then (rhs, op) else (lhs, op.swap)
  let some expr := expr.expr? | throw (.internal "expected Expr")
  -- simplify binary expressions to a constant, including resolve now()
  let expr ← reduceTimeExpr expr
  match expr with
  | .literal (.timestamp ts) =>
    match timestampNanosOpt ts with
    | some ts => pure (op, ts)
    | none => throw (.internal "timestamp out o range")
  | _ => throw (.internal "expected Timestamp")

/-- The visitor of split_cond. -/
def splitCondVisit (s : SplitState) : Expression → Except ExprError SplitState
  | .arithmetic _ => pure s
  | .conditional cond =>
    match cond with
    | .binary lhs op rhs =>
      if op.isComparison && (isTimeField lhs || isTimeField rhs) then
        if op = .notEq then throw (.expression "invalid time comparison operator: !=")
        else
          match TimeOp.ofOperator op with
          | some op => do
            let (op, ts) ← timeComparison reduceTimeExpr lhs op rhs
            pure { timeRange := s.timeRange.intersected (op.toRange ts), stack := none :: s.stack }
          | none => pure s
      else if op.isComparison || op = .eqRegex || op = .notEqRegex then
        pure { s with stack := some cond :: s.stack }
      else if op = .and || op = .or then
        match s.stack with
        | right :: left :: stack => pure { s with stack := combine left op right :: stack }
        | _ => throw (.internal "invalid expr stack")
      else pure s
    | .expr (.literal (.boolean _)) => pure { s with stack := some cond :: s.stack }
    | _ => pure s

/-- split_cond: what is left of the condition without its time comparisons, and the time
range they give. -/
def splitCond (cond : ConditionalExpression) :
    Except ExprError (Option ConditionalExpression × TimeRange) :=
  if !hasTimeRange cond then pure (some cond, {})
  else do
    let s ← walkExpression (splitCondVisit reduceTimeExpr) ⟨{}, []⟩ cond
    match s.stack with
    | cond :: _ => pure (cond, s.timeRange)
    | [] => throw (.internal "expected an element on stack")

/-! ### What one visit does -/

/-- The time comparison a node is, if any: its operands and the operator split_cond reads. -/
def timeLeaf : ConditionalExpression → Option (ConditionalExpression × TimeOp × ConditionalExpression)
  | .binary lhs op rhs =>
    if op.isComparison && (isTimeField lhs || isTimeField rhs) then
      (TimeOp.ofOperator op).map fun op => (lhs, op, rhs)
    else none
  | _ => none

/-- The time comparisons of a condition, in the order of the walk. -/
def timeLeaves (c : ConditionalExpression) :
    List (ConditionalExpression × TimeOp × ConditionalExpression) :=
  c.nodes.filterMap timeLeaf

theorem splitCondVisit_arithmetic (s : SplitState) (n : Expr) :
    splitCondVisit reduceTimeExpr s (.arithmetic n) = pure s := rfl

/-- A boolean literal. -/
def isBooleanLiteral : Expr → Bool
  | .literal (.boolean _) => true
  | _ => false

@[simp] theorem isBooleanLiteral_varRef (name : String) :
    isBooleanLiteral (.varRef name) = false := rfl

@[simp] theorem isBooleanLiteral_boolean (b : Bool) :
    isBooleanLiteral (.literal (.boolean b)) = true := rfl

/-- An arithmetic node in a condition pushes itself when it is a boolean literal. -/
theorem splitCondVisit_expr (s : SplitState) (e : Expr) :
    splitCondVisit reduceTimeExpr s (.conditional (.expr e)) =
      pure (if isBooleanLiteral e then { s with stack := some (.expr e) :: s.stack } else s) := by
  cases e with
  | literal v => cases v <;> rfl
  | _ => rfl

/-- A node that is not a time comparison leaves the time range alone. -/
theorem timeRange_of_timeLeaf_none {c : ConditionalExpression}
    (hleaf : timeLeaf c = none) (h : splitCondVisit reduceTimeExpr s (.conditional c) = .ok s') :
    s'.timeRange = s.timeRange := by
  cases c with
  | expr e =>
    rw [splitCondVisit_expr] at h
    cases h
    split <;> rfl
  | grouped c => cases h; rfl
  | binary lhs op rhs =>
    simp only [splitCondVisit] at h
    split at h
    · -- a time comparison with no time operator is `!=`, which fails
      rename_i ht
      simp only [timeLeaf, ht, if_true, Option.map_eq_none_iff] at hleaf
      split at h
      · cases h
      · rw [hleaf] at h
        cases h; rfl
    · split at h
      · cases h; rfl
      · split at h
        · split at h
          · cases h; rfl
          · cases h
        · cases h; rfl

/-- A time comparison intersects the time range with its bound. -/
theorem timeLeaf_eq_some {c lhs rhs : ConditionalExpression} {op : TimeOp}
    (hleaf : timeLeaf c = some (lhs, op, rhs)) :
    ∃ op₀, c = .binary lhs op₀ rhs ∧
      (op₀.isComparison && (isTimeField lhs || isTimeField rhs)) = true ∧ op₀ ≠ .notEq ∧
      TimeOp.ofOperator op₀ = some op := by
  cases c with
  | expr e => simp [timeLeaf] at hleaf
  | grouped c => simp [timeLeaf] at hleaf
  | binary lhs' op₀ rhs' =>
    simp only [timeLeaf] at hleaf
    split at hleaf
    · rename_i ht
      obtain ⟨op₁, hop, hdef⟩ := Option.map_eq_some_iff.1 hleaf
      simp only [Prod.mk.injEq] at hdef
      obtain ⟨rfl, rfl, rfl⟩ := hdef
      refine ⟨op₀, rfl, ht, ?_, hop⟩
      rintro rfl
      simp [TimeOp.ofOperator] at hop
    · cases hleaf

/-- A time comparison intersects the time range with its bound and pushes `None`. -/
theorem splitCondVisit_of_timeLeaf {s : SplitState} {c lhs rhs : ConditionalExpression}
    {op op' : TimeOp} {ts : ℤ} (hleaf : timeLeaf c = some (lhs, op, rhs))
    (hcmp : timeComparison reduceTimeExpr lhs op rhs = .ok (op', ts)) :
    splitCondVisit reduceTimeExpr s (.conditional c) =
      .ok ⟨s.timeRange.intersected (op'.toRange ts), none :: s.stack⟩ := by
  obtain ⟨op₀, rfl, ht, hne, hop⟩ := timeLeaf_eq_some hleaf
  simp only [splitCondVisit, ht, if_true, if_neg hne, hop, hcmp]
  rfl

/-- A time comparison the walk gets past had a bound. -/
theorem timeRange_of_timeLeaf_some {c lhs rhs : ConditionalExpression}
    {op : TimeOp} (hleaf : timeLeaf c = some (lhs, op, rhs))
    (h : splitCondVisit reduceTimeExpr s (.conditional c) = .ok s') :
    ∃ op' ts, timeComparison reduceTimeExpr lhs op rhs = .ok (op', ts) ∧
      s' = ⟨s.timeRange.intersected (op'.toRange ts), none :: s.stack⟩ := by
  obtain ⟨op₀, rfl, ht, hne, hop⟩ := timeLeaf_eq_some hleaf
  cases hcmp : timeComparison reduceTimeExpr lhs op rhs with
  | error err =>
    simp only [splitCondVisit, ht, if_true, if_neg hne, hop, hcmp] at h
    cases h
  | ok b =>
    obtain ⟨op', ts⟩ := b
    rw [splitCondVisit_of_timeLeaf reduceTimeExpr hleaf hcmp] at h
    cases h
    exact ⟨op', ts, rfl, rfl⟩

/-! ### The time range -/

/-- The exact set of `time OP ts`. -/
def TimeOp.Holds : TimeOp → ℤ → ℤ → Prop
  | .eq, t, ts => t = ts
  | .gt, t, ts => ts < t
  | .gtEq, t, ts => ts ≤ t
  | .lt, t, ts => t < ts
  | .ltEq, t, ts => t ≤ ts

/-- The bound `ts + 1` or `ts - 1` of `time OP ts` leaves `i64`. -/
def TimeOp.Overflows : TimeOp → ℤ → Prop
  | .gt, ts => ts = 2 ^ 63 - 1
  | .lt, ts => ts = -2 ^ 63
  | _, _ => False

/-- Within `i64`, the range of `time OP ts` is its exact set. -/
theorem contains_toRange {op : TimeOp} {ts t : ℤ} (hts : InI64 ts) (hno : ¬op.Overflows ts) :
    (op.toRange ts).Contains t ↔ op.Holds t ts := by
  obtain ⟨h₁, h₂⟩ := hts
  cases op with
  | eq => simp [TimeOp.toRange, TimeRange.Contains, TimeOp.Holds]; omega
  | gt =>
    have hw : wrapI64 (ts + 1) = ts + 1 :=
      wrapI64_of_inI64 ⟨by omega, by simp only [TimeOp.Overflows] at hno; omega⟩
    simp [TimeOp.toRange, TimeRange.Contains, TimeOp.Holds, hw]
  | gtEq => simp [TimeOp.toRange, TimeRange.Contains, TimeOp.Holds]
  | lt =>
    have hw : wrapI64 (ts - 1) = ts - 1 :=
      wrapI64_of_inI64 ⟨by simp only [TimeOp.Overflows] at hno; omega, by omega⟩
    simp [TimeOp.toRange, TimeRange.Contains, TimeOp.Holds, hw]
  | ltEq => simp [TimeOp.toRange, TimeRange.Contains, TimeOp.Holds]

theorem contains_empty (t : ℤ) : ({} : TimeRange).Contains t := by
  simp [TimeRange.Contains]

/-- A bound is an `i64`: timestamp_nanos_opt has checked it. -/
theorem inI64_of_timeComparison {op op' : TimeOp} {ts : ℤ}
    (h : timeComparison reduceTimeExpr lhs op rhs = .ok (op', ts)) : InI64 ts := by
  simp only [timeComparison] at h
  split at h
  · obtain ⟨v, -, hk⟩ := Except.bind_eq_ok_iff.1 h
    split at hk
    · rename_i T
      by_cases hin : -2 ^ 63 ≤ T ∧ T < 2 ^ 63
      · simp only [timestampNanosOpt, if_pos hin] at hk
        cases hk
        exact hin
      · simp only [timestampNanosOpt, if_neg hin] at hk
        cases hk
    · cases hk
  · cases h

/-- The run of the visitor over a list of nodes: every time comparison on the way has a
bound, and the range at the end holds the times of the range at the start that are within
every one of them. The induction is on the nodes. -/
theorem foldlM_splitCondVisit_timeRange : ∀ (L : List ConditionalExpression) (s s' : SplitState),
      L.foldlM (fun s n => splitCondVisit reduceTimeExpr s (.conditional n)) s = .ok s' →
      (∀ x ∈ L.filterMap timeLeaf, ∃ b, timeComparison reduceTimeExpr x.1 x.2.1 x.2.2 = .ok b) ∧
      ∀ t, s'.timeRange.Contains t ↔ s.timeRange.Contains t ∧
        ∀ x ∈ L.filterMap timeLeaf, ∀ op ts,
          timeComparison reduceTimeExpr x.1 x.2.1 x.2.2 = .ok (op, ts) → (op.toRange ts).Contains t
  | [], s, s', h => by
    cases h
    simp
  | n :: L, s, s', h => by
    rw [List.foldlM_cons] at h
    obtain ⟨s₁, hvisit, hrest⟩ := Except.bind_eq_ok_iff.1 h
    obtain ⟨hok, hrange⟩ := foldlM_splitCondVisit_timeRange L s₁ s' hrest
    cases hleaf : timeLeaf n with
    | none =>
      have hsame := timeRange_of_timeLeaf_none reduceTimeExpr hleaf hvisit
      simp only [List.filterMap_cons, hleaf]
      exact ⟨hok, fun t => by rw [hrange t, hsame]⟩
    | some x =>
      obtain ⟨lhs, op, rhs⟩ := x
      obtain ⟨op', ts, hcmp, rfl⟩ := timeRange_of_timeLeaf_some reduceTimeExpr hleaf hvisit
      simp only [List.filterMap_cons, hleaf, List.mem_cons, forall_eq_or_imp, hcmp,
        Except.ok.injEq, Prod.mk.injEq]
      refine ⟨⟨⟨_, rfl⟩, hok⟩, fun t => ?_⟩
      rw [hrange t, TimeRange.contains_intersected]
      constructor
      · rintro ⟨⟨hs, ho⟩, hL⟩
        exact ⟨hs, fun op ts h => by obtain ⟨rfl, rfl⟩ := h; exact ho, hL⟩
      · rintro ⟨hs, ho, hL⟩
        exact ⟨⟨hs, ho op' ts ⟨rfl, rfl⟩⟩, hL⟩

/-- Without a reference to time, no node of the condition is one. -/
theorem isTimeField_of_hasTimeRange_eq_false
    (h : hasTimeRange cond = false) : ∀ n ∈ cond.nodes, isTimeField n = false := by
  unfold hasTimeRange at h
  split at h
  · cases h
  · rename_i hwalk
    rw [walkExpression_eq_foldlM (fun _ _ => rfl)] at hwalk
    generalize cond.nodes = L at hwalk ⊢
    induction L with
    | nil => simp
    | cons n L ih =>
      rw [List.foldlM_cons] at hwalk
      obtain ⟨u, hn, hrest⟩ := Except.bind_eq_ok_iff.1 hwalk
      have hn' : isTimeField n = false := by
        cases ht : isTimeField n
        · rfl
        · simp [ht] at hn
      intro m hm
      rcases List.mem_cons.1 hm with rfl | hm
      · exact hn'
      · exact ih hrest m hm

theorem timeLeaves_eq_nil_of_hasTimeRange_eq_false
    (h : hasTimeRange cond = false) : timeLeaves cond = [] := by
  have hno := isTimeField_of_hasTimeRange_eq_false h
  rw [timeLeaves, List.filterMap_eq_nil_iff]
  intro n hn
  cases n with
  | binary lhs op rhs =>
    have hsub := ConditionalExpression.nodes_subset_of_mem hn
    have hl := hno lhs (hsub (by simp [ConditionalExpression.nodes, ConditionalExpression.mem_nodes_self]))
    have hr := hno rhs (hsub (by simp [ConditionalExpression.nodes, ConditionalExpression.mem_nodes_self]))
    simp [timeLeaf, hl, hr]
  | expr e => rfl
  | grouped c => rfl

/-- The time range split_cond returns holds the times within every time comparison of the
condition, in their exact sets, as long as no bound overflows. -/
theorem splitCond_timeRange {rest : Option ConditionalExpression}
    {range : TimeRange} (h : splitCond reduceTimeExpr cond = .ok (rest, range))
    (hno : ∀ x ∈ timeLeaves cond, ∀ op ts,
      timeComparison reduceTimeExpr x.1 x.2.1 x.2.2 = .ok (op, ts) → ¬op.Overflows ts)
    (t : ℤ) :
    range.Contains t ↔ ∀ x ∈ timeLeaves cond, ∃ op ts,
      timeComparison reduceTimeExpr x.1 x.2.1 x.2.2 = .ok (op, ts) ∧ op.Holds t ts := by
  unfold splitCond at h
  by_cases ht : hasTimeRange cond
  · rw [if_neg (by simp [ht])] at h
    obtain ⟨s, hwalk, hpop⟩ := Except.bind_eq_ok_iff.1 h
    have hrange : range = s.timeRange := by
      split at hpop
      · cases hpop; rfl
      · cases hpop
    rw [walkExpression_eq_foldlM (splitCondVisit_arithmetic reduceTimeExpr)] at hwalk
    obtain ⟨hok, hcontains⟩ := foldlM_splitCondVisit_timeRange reduceTimeExpr _ _ _ hwalk
    rw [hrange, hcontains t]
    simp only [contains_empty, true_and]
    constructor
    · intro hall x hx
      obtain ⟨⟨op, ts⟩, hcmp⟩ := hok x hx
      have hin := inI64_of_timeComparison reduceTimeExpr hcmp
      exact ⟨op, ts, hcmp, (contains_toRange hin (hno x hx op ts hcmp)).1 (hall x hx op ts hcmp)⟩
    · intro hall x hx op ts hcmp
      obtain ⟨op', ts', hcmp', hholds⟩ := hall x hx
      rw [hcmp] at hcmp'
      cases hcmp'
      have hin := inI64_of_timeComparison reduceTimeExpr hcmp
      exact (contains_toRange hin (hno x hx op ts hcmp)).2 hholds
  · rw [if_pos (by simp [ht])] at h
    cases h
    simp [contains_empty, timeLeaves_eq_nil_of_hasTimeRange_eq_false (by simpa using ht)]

/-! ### The rest of the condition -/

/-- A condition in the shape split_cond's stack rebuilds: `AND` and `OR` over comparisons
whose sides are arithmetic expressions other than boolean literals, boolean literals, and
parentheses. -/
def shaped : ConditionalExpression → Bool
  | .binary lhs op rhs =>
    if op = .and || op = .or then shaped lhs && shaped rhs
    else (op.isComparison || op = .eqRegex || op = .notEqRegex) && isOperand lhs && isOperand rhs
  | .grouped c => shaped c
  | .expr e => isBooleanLiteral e
where
  /-- A side of a comparison: an arithmetic expression other than a boolean literal. -/
  isOperand : ConditionalExpression → Bool
    | .expr e => !isBooleanLiteral e
    | _ => false

/-- A condition with its time comparisons deleted, an `AND` or `OR` that lost an operand replaced
by the other, and its parentheses dropped: what `split_cond` is meant to leave. -/
def withoutTime : ConditionalExpression → Option ConditionalExpression
  | .binary lhs op rhs =>
    if op.isComparison && (isTimeField lhs || isTimeField rhs) then none
    else if op = .and || op = .or then
      match withoutTime lhs, withoutTime rhs with
      | some l, some r => some (.binary l op r)
      | some l, none => some l
      | none, some r => some r
      | none, none => none
    else some (.binary lhs op rhs)
  | .grouped c => withoutTime c
  | .expr e => some (.expr e)

/-- The condition with its parentheses dropped. -/
def stripGrouped : ConditionalExpression → ConditionalExpression
  | .binary lhs op rhs =>
    if op = .and || op = .or then .binary (stripGrouped lhs) op (stripGrouped rhs)
    else .binary lhs op rhs
  | .grouped c => stripGrouped c
  | .expr e => .expr e

theorem withoutTime_andOr (hop : (op = .and || op = .or) = true) :
    withoutTime (.binary lhs op rhs) = combine (withoutTime lhs) op (withoutTime rhs) := by
  have hcmp : op.isComparison = false := by
    simp only [Bool.or_eq_true, decide_eq_true_eq] at hop
    rcases hop with rfl | rfl <;> rfl
  rw [withoutTime, if_neg (by simp [hcmp]), if_pos hop]
  cases withoutTime lhs <;> cases withoutTime rhs <;> rfl

/-- What is left has no parentheses. -/
theorem map_stripGrouped_withoutTime :
    ∀ c : ConditionalExpression, (withoutTime c).map stripGrouped = withoutTime c
  | .expr e => rfl
  | .grouped c => map_stripGrouped_withoutTime c
  | .binary lhs op rhs => by
    have ihl := map_stripGrouped_withoutTime lhs
    have ihr := map_stripGrouped_withoutTime rhs
    by_cases ht : (op.isComparison && (isTimeField lhs || isTimeField rhs)) = true
    · rw [withoutTime, if_pos ht]; rfl
    · by_cases hop : (op = .and || op = .or) = true
      · rw [withoutTime_andOr hop]
        cases hl : withoutTime lhs <;> cases hr : withoutTime rhs <;>
          simp_all [combine, stripGrouped]
      · rw [withoutTime, if_neg ht, if_neg hop]
        simp [stripGrouped, hop]

/-- Without a time reference, only the parentheses go. -/
theorem withoutTime_of_isTimeField_eq_false :
    ∀ c : ConditionalExpression, (∀ n ∈ c.nodes, isTimeField n = false) →
      withoutTime c = some (stripGrouped c)
  | .expr e, _ => rfl
  | .grouped c, h => withoutTime_of_isTimeField_eq_false c fun n hn =>
      h n (by simp [ConditionalExpression.nodes, hn])
  | .binary lhs op rhs, h => by
    have hl := h lhs (by simp [ConditionalExpression.nodes, ConditionalExpression.mem_nodes_self])
    have hr := h rhs (by simp [ConditionalExpression.nodes, ConditionalExpression.mem_nodes_self])
    have ihl := withoutTime_of_isTimeField_eq_false lhs fun n hn =>
      h n (by simp [ConditionalExpression.nodes, hn])
    have ihr := withoutTime_of_isTimeField_eq_false rhs fun n hn =>
      h n (by simp [ConditionalExpression.nodes, hn])
    have ht : ¬(op.isComparison && (isTimeField lhs || isTimeField rhs)) = true := by simp [hl, hr]
    by_cases hop : (op = .and || op = .or) = true
    · rw [withoutTime_andOr hop, ihl, ihr]
      simp [combine, stripGrouped, hop]
    · rw [withoutTime, if_neg ht, if_neg hop]
      simp [stripGrouped, hop]

/-- A side of a shaped comparison pushes nothing. -/
theorem walk_isOperand {c : ConditionalExpression} (hc : shaped.isOperand c = true)
    (s : SplitState) : walkExpression (splitCondVisit reduceTimeExpr) s c = .ok s := by
  cases c with
  | expr e =>
    simp only [shaped.isOperand, Bool.not_eq_true'] at hc
    rw [walkExpression_expr (splitCondVisit_arithmetic reduceTimeExpr), splitCondVisit_expr,
      if_neg (by simp [hc])]
    rfl
  | binary => cases hc
  | grouped => cases hc

/-- An `AND` or `OR` pops its two operands and pushes what is left of them. -/
theorem splitCondVisit_andOr (hop : (op = .and || op = .or) = true) (timeRange : TimeRange)
    (right left : Option ConditionalExpression) (rest : List (Option ConditionalExpression)) :
    splitCondVisit reduceTimeExpr ⟨timeRange, right :: left :: rest⟩
        (.conditional (.binary lhs op rhs)) =
      .ok ⟨timeRange, combine left op right :: rest⟩ := by
  have hcmp : op.isComparison = false ∧ op ≠ .eqRegex ∧ op ≠ .notEqRegex := by
    simp only [Bool.or_eq_true, decide_eq_true_eq] at hop
    rcases hop with rfl | rfl <;> exact ⟨rfl, by decide, by decide⟩
  simp only [splitCondVisit, hcmp.1, Bool.false_and, hop]
  simp [hcmp.2.1, hcmp.2.2]

/-- A comparison that is not a time comparison pushes itself. -/
theorem splitCondVisit_comparison {s : SplitState}
    (ht : (op.isComparison && (isTimeField lhs || isTimeField rhs)) = false)
    (hcmp : (op.isComparison || op = .eqRegex || op = .notEqRegex) = true) :
    splitCondVisit reduceTimeExpr s (.conditional (.binary lhs op rhs)) =
      .ok { s with stack := some (.binary lhs op rhs) :: s.stack } := by
  simp only [splitCondVisit, ht, hcmp]
  rfl

/-- A shaped comparison pushes what is left of it: `None` for a time comparison, itself
otherwise. -/
theorem stack_of_splitCondVisit_comparison (hop : (op = .and || op = .or) = false)
    (hcmp : (op.isComparison || op = .eqRegex || op = .notEqRegex) = true)
    (h : splitCondVisit reduceTimeExpr s (.conditional (.binary lhs op rhs)) = .ok s') :
    s'.stack = withoutTime (.binary lhs op rhs) :: s.stack := by
  by_cases ht : (op.isComparison && (isTimeField lhs || isTimeField rhs)) = true
  · -- a time comparison: `!=` fails, every other operator has a bound
    have hne : op ≠ .notEq := by
      rintro rfl
      simp [splitCondVisit, ht] at h
    obtain ⟨op', hop'⟩ : ∃ op', TimeOp.ofOperator op = some op' := by
      simp only [Bool.and_eq_true] at ht
      cases op <;> simp_all [TimeOp.ofOperator, ConditionalOperator.isComparison]
    have hleaf : timeLeaf (.binary lhs op rhs) = some (lhs, op', rhs) := by
      simp [timeLeaf, ht, hop']
    obtain ⟨_, _, _, rfl⟩ := timeRange_of_timeLeaf_some reduceTimeExpr hleaf h
    rw [withoutTime, if_pos ht]
  · rw [splitCondVisit_comparison reduceTimeExpr (by simpa using ht) hcmp] at h
    cases h
    rw [withoutTime, if_neg ht, if_neg (by simp [hop])]

/-- The stack lemma: walking a shaped condition from any state pushes exactly what is left of
it. The induction is on the condition, with the state generalized. -/
theorem walk_stack_of_shaped : ∀ (c : ConditionalExpression), shaped c = true →
    ∀ (s s' : SplitState), walkExpression (splitCondVisit reduceTimeExpr) s c = .ok s' →
      s'.stack = withoutTime c :: s.stack
  | .expr e, hs, s, s', h => by
    rw [walkExpression_expr (splitCondVisit_arithmetic reduceTimeExpr), splitCondVisit_expr,
      if_pos (show isBooleanLiteral e = true from hs)] at h
    cases h
    rfl
  | .grouped c, hs, s, s', h => by
    obtain ⟨s₁, h₁, h⟩ := walkExpression_grouped h
    cases h
    exact walk_stack_of_shaped c hs s _ h₁
  | .binary lhs op rhs, hs, s, s', h => by
    obtain ⟨s₁, s₂, h₁, h₂, h⟩ := walkExpression_binary h
    simp only [shaped] at hs
    by_cases hop : (op = .and || op = .or) = true
    · -- the operands each push one entry, which the node pops
      rw [if_pos hop, Bool.and_eq_true] at hs
      have e₁ := walk_stack_of_shaped lhs hs.1 s s₁ h₁
      have e₂ := walk_stack_of_shaped rhs hs.2 s₁ s₂ h₂
      rw [e₁] at e₂
      obtain ⟨timeRange, stack⟩ := s₂
      dsimp only at e₂
      subst e₂
      rw [splitCondVisit_andOr reduceTimeExpr hop] at h
      cases h
      rw [withoutTime_andOr hop]
    · -- the operands push nothing, and the comparison pushes what is left of it
      rw [if_neg hop, Bool.and_eq_true, Bool.and_eq_true] at hs
      obtain ⟨⟨hcmp, hl⟩, hr⟩ := hs
      rw [walk_isOperand reduceTimeExpr hl] at h₁
      cases h₁
      rw [walk_isOperand reduceTimeExpr hr] at h₂
      cases h₂
      exact stack_of_splitCondVisit_comparison reduceTimeExpr (by simpa using hop) hcmp h

/-- For a shaped condition, what split_cond leaves is, up to parentheses, the condition with
its time comparisons deleted. -/
theorem splitCond_rest {rest : Option ConditionalExpression}
    {range : TimeRange} (hs : shaped cond = true)
    (h : splitCond reduceTimeExpr cond = .ok (rest, range)) :
    rest.map stripGrouped = withoutTime cond := by
  unfold splitCond at h
  by_cases ht : hasTimeRange cond
  · rw [if_neg (by simp [ht])] at h
    obtain ⟨s, hwalk, hpop⟩ := Except.bind_eq_ok_iff.1 h
    have hstack := walk_stack_of_shaped reduceTimeExpr cond hs _ s hwalk
    rw [hstack] at hpop
    cases hpop
    exact map_stripGrouped_withoutTime cond
  · rw [if_pos (by simp [ht])] at h
    cases h
    rw [withoutTime_of_isTimeField_eq_false cond
      (isTimeField_of_hasTimeRange_eq_false (by simpa using ht))]
    rfl

/-! ### Where a boolean literal is an operand -/

theorem isTimeField_time : isTimeField (.expr (.varRef "time")) = true := by decide

/-- A condition with a node that refers to time has a time range. -/
theorem hasTimeRange_of_mem {cond n : ConditionalExpression} (hn : n ∈ cond.nodes)
    (ht : isTimeField n = true) : hasTimeRange cond = true := by
  cases hh : hasTimeRange cond
  · have := isTimeField_of_hasTimeRange_eq_false hh n hn
    rw [ht] at this
    cases this
  · rfl

/-- A boolean literal on a side of a comparison is pushed as well, and the next `AND` pops it
as an operand: after a time comparison, `name = b` comes back as `b AND name = b`. -/
theorem splitCond_keeps_literal_operand {e : Expr} {ts : ℤ} {name : String} (b : Bool)
    (he : isBooleanLiteral e = false)
    (hreduce : reduceTimeExpr e = .ok (.literal (.timestamp ts))) (hts : InI64 ts)
    (hname : eqIgnoreAsciiCase name "time" = false) :
    splitCond reduceTimeExpr
        (.binary (.binary (.expr (.varRef "time")) .gt (.expr e)) .and
          (.binary (.expr (.varRef name)) .eq (.expr (.literal (.boolean b))))) =
      .ok (some (.binary (.expr (.literal (.boolean b))) .and
          (.binary (.expr (.varRef name)) .eq (.expr (.literal (.boolean b))))),
        { lower := some (wrapI64 (ts + 1)) }) ∧
    withoutTime (.binary (.binary (.expr (.varRef "time")) .gt (.expr e)) .and
        (.binary (.expr (.varRef name)) .eq (.expr (.literal (.boolean b))))) =
      some (.binary (.expr (.varRef name)) .eq (.expr (.literal (.boolean b)))) := by
  have hname' : isTimeField (.expr (.varRef name)) = false := hname
  have hnanos : timestampNanosOpt ts = some ts := if_pos hts
  have hleaf : timeLeaf (.binary (.expr (.varRef "time")) .gt (.expr e)) =
      some (.expr (.varRef "time"), .gt, .expr e) := by
    simp [timeLeaf, isTimeField_time, ConditionalOperator.isComparison, TimeOp.ofOperator]
  have hcmp : timeComparison reduceTimeExpr (.expr (.varRef "time")) .gt (.expr e) =
      .ok (.gt, ts) := by
    simp [timeComparison, isTimeField_time, ConditionalExpression.expr?, hreduce, hnanos]
  have hnot : (ConditionalOperator.eq.isComparison &&
      (isTimeField (.expr (.varRef name)) || isTimeField (.expr (.literal (.boolean b))))) = false := by
    rw [hname']
    rfl
  have hand : (ConditionalOperator.and = .and || ConditionalOperator.and = .or) = true := rfl
  constructor
  · rw [splitCond, hasTimeRange_of_mem (by simp [ConditionalExpression.nodes]) isTimeField_time,
      walkExpression_eq_foldlM (splitCondVisit_arithmetic reduceTimeExpr)]
    simp only [ConditionalExpression.nodes, List.cons_append, List.nil_append, List.foldlM_cons,
      List.foldlM_nil, Bool.not_true, Bool.false_eq_true, if_false, splitCondVisit_expr, he,
      isBooleanLiteral_varRef, isBooleanLiteral_boolean, if_true, pure_bind,
      splitCondVisit_of_timeLeaf reduceTimeExpr hleaf hcmp,
      splitCondVisit_comparison reduceTimeExpr hnot rfl, bind_pure]
    -- the `AND` pops the pushed literal together with the comparison
    rfl
  · have htime : withoutTime (.binary (.expr (.varRef "time")) .gt (.expr e)) = none := by
      rw [withoutTime, if_pos (by simp [isTimeField_time, ConditionalOperator.isComparison])]
    have hrest : withoutTime (.binary (.expr (.varRef name)) .eq (.expr (.literal (.boolean b)))) =
        some (.binary (.expr (.varRef name)) .eq (.expr (.literal (.boolean b)))) := by
      rw [withoutTime, if_neg (by simp [hnot]), if_neg (by decide)]
    rw [withoutTime_andOr hand, htime, hrest]
    rfl

/-- reduce_time_expr on a literal: an integer or a duration counts nanoseconds, a timestamp
is itself. Strings, floats, arithmetic and `now()` are not modelled: they fail. -/
def reduceLiteralTimeExpr : Expr → Except ExprError Expr
  | .literal (.timestamp ts) => .ok (.literal (.timestamp ts))
  | .literal (.integer v) => .ok (.literal (.timestamp v))
  | .literal (.duration v) => .ok (.literal (.timestamp v))
  | _ => .error (.expression "invalid time range expression")

theorem splitCond_keeps_literal_operand_b : splitCond reduceLiteralTimeExpr
        (.binary (.binary (.expr (.varRef "time")) .gt (.expr (.literal (.integer 0)))) .and
          (.binary (.expr (.varRef "b")) .eq (.expr (.literal (.boolean true))))) =
      .ok (some (.binary (.expr (.literal (.boolean true))) .and
          (.binary (.expr (.varRef "b")) .eq (.expr (.literal (.boolean true))))),
        { lower := some (wrapI64 (0 + 1)) }) ∧
    withoutTime (.binary (.binary (.expr (.varRef "time")) .gt (.expr (.literal (.integer 0))))
        .and (.binary (.expr (.varRef "b")) .eq (.expr (.literal (.boolean true))))) =
      some (.binary (.expr (.varRef "b")) .eq (.expr (.literal (.boolean true)))) :=
  splitCond_keeps_literal_operand reduceLiteralTimeExpr true rfl rfl (by decide) (by decide)

end Split

end IoxCore.Influxql

import IoxCore.Influxql.TimeRange

/-!
# Reducing InfluxQL time expressions

A model of `reduce_time_expr` and `duration_expr_to_nanoseconds`
(src/influxdb_influxql_parser/src/time_range.rs), which fold an expression, such as the other side
of a time comparison, to a timestamp. `reduce_expr` reduces the operands of a binary expression
to literals, and `reduce_binary_lhs_*` combines them according to the kind of the left one.
Two integers are combined by `BinaryOperator::reduce` (expression/arithmetic.rs).

## The model

A timestamp is its nanoseconds since the epoch, in `ℤ`, within chrono's range; an integer and a
duration are `i64`s held in `ℤ`. Checked arithmetic returns its error, and unchecked `i64`
arithmetic wraps as in a release build (`wrapI64`). An integer division or remainder by zero, or
of `i64::MIN` by `-1`, panics in every build, and so does `DateTime + Duration` out of chrono's
range. The `f64` arithmetic and casts are parameters (`F64`), on bit patterns, and so is the
parsing of timestamp strings (`ReduceContext`). Error messages keep their fixed text only.

## What is proved

`reduceExpr_durations`: on durations joined by `+` and `-`, the reduction gives the value over
the integers when every intermediate value is an `i64`, and an error otherwise;
`duration_expr_to_nanoseconds` then gives that value (`durationExprToNanoseconds_durations`).
The other operations are not all checked. `duration / integer` divides without the zero test
`reduce_number` makes, so a divisor that reduces to zero panics
(`reduceExpr_duration_div_zero`); so does an integer remainder by zero
(`reduceExpr_integer_mod_zero`). `duration * integer` and the integer operations wrap instead of
failing (`reduceExpr_duration_mul`).
-/

namespace IoxCore.Influxql

/-- How a reduction fails: with the `ExprError` it returns, or with a panic. -/
inductive ReduceFailure where
  | error (e : ExprError)
  | panic

/-- `ExprResult`, with panics. -/
abbrev ExprResult := Except ReduceFailure Expr

/-- `error::expr`. -/
def exprErr {α : Type} (msg : String) : Except ReduceFailure α := .error (.error (.expression msg))

/-- `error::internal`. -/
def internalErr {α : Type} (msg : String) : Except ReduceFailure α :=
  .error (.error (.internal msg))

/-- `map_expr_err`: an error of a binary expression, reported as an error of the client's
expression. A panic is not an error and goes through. -/
def mapExprErr : ReduceFailure → ReduceFailure
  | .error (.expression msg) => .error (.expression ("invalid expression: " ++ msg))
  | .error (.internal msg) => .error (.expression ("invalid expression: " ++ msg))
  | .panic => .panic

/-! ## Arithmetic -/

/-- The first nanosecond of chrono's `DateTime`, `-262144-01-01T00:00:00Z`. -/
def minDateTimeNanos : ℤ := -8334632937600000000000

/-- The last nanosecond of chrono's `DateTime`, `+262143-12-31T23:59:59.999999999Z`. -/
def maxDateTimeNanos : ℤ := 8210298412799999999999

/-- `DateTime + chrono::Duration::nanoseconds(d)`, which panics out of chrono's range. -/
def addNanos (ts d : ℤ) : Except ReduceFailure ℤ :=
  if minDateTimeNanos ≤ ts + d ∧ ts + d ≤ maxDateTimeNanos then pure (ts + d) else .error .panic

/-- `nanos_to_timestamp`: every `i64` of nanoseconds is a timestamp. -/
def nanosToTimestamp (nanos : ℤ) : ℤ := nanos

/-- `i64::checked_add` or `checked_sub` of a duration, with its error. -/
def checkedI64 (x : ℤ) : Except ReduceFailure ℤ :=
  if InI64 x then pure x else exprErr "overflow"

/-- `i64` division, rounding towards zero; it panics on a zero divisor and on `i64::MIN / -1`. -/
def divI64 (a b : ℤ) : Except ReduceFailure ℤ :=
  if b = 0 ∨ (a = -2 ^ 63 ∧ b = -1) then .error .panic else pure (a.tdiv b)

/-- `i64` remainder, with the sign of the dividend; it panics as `divI64` does. -/
def remI64 (a b : ℤ) : Except ReduceFailure ℤ :=
  if b = 0 ∨ (a = -2 ^ 63 ∧ b = -1) then .error .panic else pure (a.tmod b)

/-- `BinaryOperator::reduce` on `i64`, through `reduce_number` for the arithmetic: `+`, `-` and
`*` wrap, a division by zero gives zero, and the rest is `divI64` and `remI64`. -/
def BinaryOperator.reduceI64 : BinaryOperator → ℤ → ℤ → Except ReduceFailure ℤ
  | .add, lhs, rhs => pure (wrapI64 (lhs + rhs))
  | .sub, lhs, rhs => pure (wrapI64 (lhs - rhs))
  | .mul, lhs, rhs => pure (wrapI64 (lhs * rhs))
  | .div, lhs, rhs => if rhs = 0 then pure 0 else divI64 lhs rhs
  | .mod, lhs, rhs => remI64 lhs rhs
  | .bitwiseAnd, lhs, rhs => pure (Int.land lhs rhs)
  | .bitwiseOr, lhs, rhs => pure (Int.lor lhs rhs)
  | .bitwiseXor, lhs, rhs => pure (Int.xor lhs rhs)

/-- The `f64` operations the reduction uses, on bit patterns: IEEE arithmetic, `i64 as f64` and
the saturating `f64 as i64`. -/
structure F64 where
  add : UInt64 → UInt64 → UInt64
  sub : UInt64 → UInt64 → UInt64
  mul : UInt64 → UInt64 → UInt64
  div : UInt64 → UInt64 → UInt64
  rem : UInt64 → UInt64 → UInt64
  ofI64 : ℤ → UInt64
  toI64 : UInt64 → ℤ

/-- `f64::is_zero`: `0.0` or `-0.0`. -/
def isZeroF64 (bits : UInt64) : Bool := bits &&& 0x7FFFFFFFFFFFFFFF == 0

/-- `BinaryOperator::try_reduce` on an `f64`, through `reduce_number`: a division by zero gives
zero, and a bitwise operator gives `None`. -/
def F64.tryReduce (f : F64) : BinaryOperator → UInt64 → UInt64 → Option UInt64
  | .add, lhs, rhs => some (f.add lhs rhs)
  | .sub, lhs, rhs => some (f.sub lhs rhs)
  | .mul, lhs, rhs => some (f.mul lhs rhs)
  | .div, lhs, rhs => some (if isZeroF64 rhs then 0 else f.div lhs rhs)
  | .mod, lhs, rhs => some (f.rem lhs rhs)
  | _, _, _ => none

/-! ## The reduction -/

/-- `ReduceContext`: the value of `now()`, and `parse_timestamp` in the context's time zone. -/
structure ReduceContext where
  now : Option ℤ
  parseTimestamp : String → Option ℤ

/-- `is_now_function`. -/
def isNowFunction (name : String) : Bool := name == "now"

/-- A literal expression. -/
def lit (v : Literal) : Expr := .literal v

/-- Whether a literal needs one more step before `reduce_binary_lhs_duration` or
`reduce_binary_lhs_timestamp` combines it: a float, a string, an integer or a timestamp is
converted first, to an integer, a timestamp or a duration. -/
def Expr.conversions : Expr → ℕ
  | .literal (.float _) | .literal (.string _) => 2
  | .literal (.integer _) | .literal (.timestamp _) => 1
  | _ => 0

namespace Reduce

variable (f : F64) (ctx : ReduceContext)

/-- `parse_timestamp_nanos`. -/
def parseTimestampNanos (s : String) : Except ReduceFailure ℤ :=
  match ctx.parseTimestamp s with
  | some ts => pure ts
  | none => exprErr "is not a valid timestamp"

/-- `parse_timestamp_expr`. -/
def parseTimestampExpr (s : String) : ExprResult := do
  pure (lit (.timestamp (← parseTimestampNanos ctx s)))

/-- `reduce_binary_lhs_duration`: a duration added to or subtracted from a duration with
`checked_add` and `checked_sub`, multiplied by an integer and divided by one unchecked, and added
to a timestamp. A float is first truncated to an integer, and a string parsed as a timestamp. -/
def reduceBinaryLhsDuration (lhs : ℤ) (op : BinaryOperator) (rhs : Expr) : ExprResult :=
  match rhs with
  | .literal val =>
    match val with
    | .duration v =>
      match op with
      | .add => do pure (lit (.duration (← checkedI64 (lhs + v))))
      | .sub => do pure (lit (.duration (← checkedI64 (lhs - v))))
      | _ => exprErr "found operator, expected +, -"
    | .float v => reduceBinaryLhsDuration lhs op (lit (.integer (f.toI64 v)))
    | .integer v =>
      match op with
      | .mul => pure (lit (.duration (wrapI64 (lhs * v))))
      | .div => do pure (lit (.duration (← divI64 lhs v)))
      | _ => exprErr "found operator, expected *, /"
    | .timestamp v =>
      if op = .add then do pure (lit (.timestamp (← addNanos v lhs)))
      else internalErr "unexpected literal for duration expression"
    | .string v => do
      let ts ← parseTimestampNanos ctx v
      reduceBinaryLhsDuration lhs op (lit (.timestamp ts))
    | _ => internalErr "unexpected literal for duration expression"
  | _ => exprErr "invalid duration expression"
termination_by rhs.conversions
decreasing_by all_goals simp [Expr.conversions, lit]

/-- `expr_to_duration`: the nanoseconds of a duration, an integer, a timestamp or a timestamp
string, which the source wraps in a duration literal. -/
def exprToDuration (expr : Expr) : Except ReduceFailure ℤ :=
  match expr with
  | .literal (.duration v) => pure v
  | .literal (.integer v) => pure v
  | .literal (.timestamp v) =>
    match timestampNanosOpt v with
    | some nanos => pure nanos
    | none => exprErr "timestamp out of range"
  | .literal (.string v) => do
    match timestampNanosOpt (← parseTimestampNanos ctx v) with
    | some nanos => pure nanos
    | none => exprErr "timestamp out of range"
  | _ => exprErr "unable to cast to duration"

/-- `reduce_binary_lhs_timestamp`: a duration added to or subtracted from a timestamp; an
integer, a timestamp or a timestamp string is first read as a duration. -/
def reduceBinaryLhsTimestamp (lhs : ℤ) (op : BinaryOperator) (rhs : Expr) : ExprResult :=
  match rhs with
  | .literal (.duration d) =>
    match op with
    | .add => do pure (lit (.timestamp (← addNanos lhs d)))
    | .sub => do pure (lit (.timestamp (← addNanos lhs (-d))))
    | _ => exprErr "invalid operator for timestamp and duration: expected +, -"
  | .literal (.integer v) => do
    let d ← exprToDuration ctx (lit (.integer v))
    reduceBinaryLhsTimestamp lhs op (lit (.duration d))
  | .literal (.timestamp v) => do
    let d ← exprToDuration ctx (lit (.timestamp v))
    reduceBinaryLhsTimestamp lhs op (lit (.duration d))
  | .literal (.string v) => do
    let d ← exprToDuration ctx (lit (.string v))
    reduceBinaryLhsTimestamp lhs op (lit (.duration d))
  | _ => exprErr "invalid expression: expected duration, integer or timestamp string"
termination_by rhs.conversions
decreasing_by all_goals simp [Expr.conversions, lit]

/-- `reduce_binary_lhs_float`: `try_reduce` with a float or an integer. -/
def reduceBinaryLhsFloat (lhs : UInt64) (op : BinaryOperator) (rhs : Expr) : ExprResult :=
  match rhs with
  | .literal (.float v) =>
    match f.tryReduce op lhs v with
    | some r => pure (lit (.float r))
    | none => exprErr "invalid operator for float expression"
  | .literal (.integer v) =>
    match f.tryReduce op lhs (f.ofI64 v) with
    | some r => pure (lit (.float r))
    | none => exprErr "invalid operator for float expression"
  | _ => exprErr "invalid float expression"

/-- `reduce_binary_lhs_integer`: `BinaryOperator::reduce` with an integer; with a float, the
integer as a float; with a duration, the integer as a timestamp; with a string, the integer as a
duration and the string as a timestamp. -/
def reduceBinaryLhsInteger (lhs : ℤ) (op : BinaryOperator) (rhs : Expr) : ExprResult :=
  match rhs with
  | .literal (.float _) => reduceBinaryLhsFloat f (f.ofI64 lhs) op rhs
  | .literal (.integer v) => do pure (lit (.integer (← op.reduceI64 lhs v)))
  | .literal (.duration _) => reduceBinaryLhsTimestamp ctx (nanosToTimestamp lhs) op rhs
  | .literal (.string v) => do
    let ts ← parseTimestampNanos ctx v
    reduceBinaryLhsDuration f ctx lhs op (lit (.timestamp ts))
  | _ => exprErr "invalid integer expression"

/-- `reduce_binary_lhs_string`: two strings are concatenated by `+`; otherwise the string is
parsed as a timestamp. -/
def reduceBinaryLhsString (lhs : String) (op : BinaryOperator) (rhs : Expr) : ExprResult :=
  match rhs with
  | .literal (.string s) =>
    match op with
    | .add => pure (lit (.string (lhs ++ s)))
    | _ => do reduceBinaryLhsTimestamp ctx (← parseTimestampNanos ctx lhs) op rhs
  | .literal (.duration _) | .literal (.timestamp _) | .literal (.integer _) => do
    reduceBinaryLhsTimestamp ctx (← parseTimestampNanos ctx lhs) op rhs
  | _ => exprErr "found literal, expected duration, integer or timestamp string"

/-- The `match lhs` of `reduce_binary_expr`, on the reduced operands. -/
def reduceBinaryOperands (lhs : Expr) (op : BinaryOperator) (rhs : Expr) : ExprResult :=
  match lhs with
  | .literal (.duration v) => reduceBinaryLhsDuration f ctx v op rhs
  | .literal (.integer v) => reduceBinaryLhsInteger f ctx v op rhs
  | .literal (.float v) => reduceBinaryLhsFloat f v op rhs
  | .literal (.timestamp v) => reduceBinaryLhsTimestamp ctx v op rhs
  | .literal (.string v) => reduceBinaryLhsString ctx v op rhs
  | _ => pure (.binary lhs op rhs)

/-- `reduce_expr`, with `reduce_binary_expr`: a binary expression reduces both operands and
combines them, its errors mapped by `map_expr_err`. -/
def reduceExpr : Expr → ExprResult
  | .binary lhs op rhs =>
    (do
      let lhs ← reduceExpr lhs
      let rhs ← reduceExpr rhs
      reduceBinaryOperands f ctx lhs op rhs).mapError mapExprErr
  | .call name _ =>
    if isNowFunction name then
      match ctx.now with
      | some now => pure (lit (.timestamp now))
      | none => internalErr "unable to resolve now"
    else exprErr "invalid function call"
  | .nested e => reduceExpr e
  | .literal val =>
    match val with
    | .integer _ | .float _ | .string _ | .timestamp _ | .duration _ => pure (.literal val)
    | _ => exprErr "found literal, expected duration, float, integer, or timestamp string"
  | .varRef _ | .bindParameter _ | .wildcard | .distinct _ =>
    exprErr "found symbol, expected now() or a literal duration, float, integer and timestamp string"

/-- `reduce_time_expr`: the reduced expression read as a timestamp. -/
def reduceTimeExpr (expr : Expr) : ExprResult := do
  match ← reduceExpr f ctx expr with
  | .literal (.timestamp v) => pure (lit (.timestamp v))
  | .literal (.string s) => (parseTimestampExpr ctx s).mapError mapExprErr
  | .literal (.duration v) => pure (lit (.timestamp (nanosToTimestamp v)))
  | .literal (.float v) => pure (lit (.timestamp (nanosToTimestamp (f.toI64 v))))
  | .literal (.integer v) => pure (lit (.timestamp (nanosToTimestamp v)))
  | _ => exprErr "invalid time range expression"

/-- `duration_expr_to_nanoseconds`. -/
def durationExprToNanoseconds (expr : Expr) : Except ReduceFailure ℤ := do
  match ← reduceTimeExpr f ctx expr with
  | .literal (.timestamp v) =>
    match timestampNanosOpt v with
    | some nanos => pure nanos
    | none => exprErr "timestamp out of range"
  | _ => exprErr "invalid duration expression"

end Reduce

/-! ## Durations joined by `+` and `-` -/

/-- The sum or the difference of two durations over the integers; `none` for another operator. -/
def durationArith : BinaryOperator → ℤ → ℤ → Option ℤ
  | .add, a, b => some (a + b)
  | .sub, a, b => some (a - b)
  | _, _, _ => none

/-- An expression of `i64` duration literals joined by `+` and `-`, in parentheses or not: its
value over the integers, and whether the value of every subexpression is an `i64`. -/
def durationValue : Expr → Option (ℤ × Bool)
  | .literal (.duration v) => if InI64 v then some (v, true) else none
  | .nested e => durationValue e
  | .binary lhs op rhs => do
    let (a, p) ← durationValue lhs
    let (b, q) ← durationValue rhs
    let x ← durationArith op a b
    pure (x, p && q && decide (InI64 x))
  | _ => none

namespace Reduce

variable (f : F64) (ctx : ReduceContext)

/-- A checked sum or difference of two durations: the exact value, or an error of the client's
expression. -/
theorem reduceBinaryLhsDuration_checked {a b x : ℤ} {op : BinaryOperator}
    (hx : durationArith op a b = some x) :
    (InI64 x → reduceBinaryLhsDuration f ctx a op (.literal (.duration b)) =
        .ok (.literal (.duration x))) ∧
      (¬ InI64 x → reduceBinaryLhsDuration f ctx a op (.literal (.duration b)) = exprErr "overflow") := by
  cases op <;> simp only [durationArith, Option.some.injEq, reduceCtorEq] at hx <;>
    subst hx <;>
    exact ⟨fun h => by simp [reduceBinaryLhsDuration, lit, checkedI64, h],
      fun h => by simp [reduceBinaryLhsDuration, lit, checkedI64, h, exprErr]⟩

/-- A binary expression whose left operand fails with an error fails with an error of the
client's expression. -/
theorem reduceExpr_binary_of_error {lhs rhs : Expr} {op : BinaryOperator} {e : ExprError}
    (hl : reduceExpr f ctx lhs = .error (.error e)) :
    ∃ msg, reduceExpr f ctx (.binary lhs op rhs) = .error (.error (.expression msg)) := by
  cases e with
  | expression m | internal m => exact ⟨"invalid expression: " ++ m, by simp [reduceExpr, hl, mapExprErr]⟩

/-- On durations joined by `+` and `-` the reduction is exact: their value over the integers
when every intermediate value is an `i64`, an error of the client's expression otherwise. The
proof follows `durationValue`, one case per node. -/
theorem reduceExpr_durations : ∀ {e : Expr} {v : ℤ} {fits : Bool},
    durationValue e = some (v, fits) →
      (fits = true → reduceExpr f ctx e = .ok (.literal (.duration v))) ∧
        (fits = false → ∃ msg, reduceExpr f ctx e = .error (.error (.expression msg)))
  | .literal (.duration w), v, fits, h => by
    simp only [durationValue] at h
    split_ifs at h
    obtain ⟨rfl, rfl⟩ := Prod.mk.inj (Option.some.inj h)
    exact ⟨fun _ => rfl, fun h => by simp at h⟩
  | .nested e, v, fits, h => by
    simpa [reduceExpr] using reduceExpr_durations (e := e) h
  | .binary lhs op rhs, v, fits, h => by
    simp only [durationValue, Option.bind_eq_bind, Option.bind_eq_some_iff, Option.pure_def,
      Option.some.injEq, Prod.exists] at h
    obtain ⟨a, p, hlhs, b, q, hrhs, x, hx, rfl, rfl⟩ := h
    have ihl := reduceExpr_durations (e := lhs) hlhs
    have ihr := reduceExpr_durations (e := rhs) hrhs
    -- a failing operand fails the expression, before the operation is checked
    cases p with
    | false =>
      obtain ⟨msg, hmsg⟩ := ihl.2 rfl
      exact ⟨fun h => by simp at h, fun _ => reduceExpr_binary_of_error f ctx hmsg⟩
    | true =>
      cases q with
      | false =>
        obtain ⟨msg, hmsg⟩ := ihr.2 rfl
        refine ⟨fun h => by simp at h, fun _ => ⟨"invalid expression: " ++ msg, ?_⟩⟩
        simp [reduceExpr, ihl.1 rfl, hmsg, mapExprErr]
      | true =>
        have hchk := reduceBinaryLhsDuration_checked f ctx hx
        refine ⟨fun hfit => ?_, fun hfit => ⟨"invalid expression: overflow", ?_⟩⟩
        · simp only [Bool.true_and, decide_eq_true_eq] at hfit
          simp [reduceExpr, ihl.1 rfl, ihr.1 rfl, reduceBinaryOperands, hchk.1 hfit]
        · simp only [Bool.true_and, decide_eq_false_iff_not] at hfit
          simp [reduceExpr, ihl.1 rfl, ihr.1 rfl, reduceBinaryOperands, hchk.2 hfit, exprErr,
            mapExprErr]
  | .literal (.integer _), _, _, h | .literal (.unsigned _), _, _, h | .literal (.float _), _, _, h
  | .literal (.string _), _, _, h | .literal (.boolean _), _, _, h | .literal (.regex _), _, _, h
  | .literal (.timestamp _), _, _, h | .varRef _, _, _, h | .bindParameter _, _, _, h
  | .wildcard, _, _, h | .distinct _, _, _, h | .call _ _, _, _, h => by
    simp [durationValue] at h

/-- The value `durationValue` gives with every intermediate value an `i64` is an `i64`. -/
theorem inI64_of_durationValue : ∀ {e : Expr} {v : ℤ}, durationValue e = some (v, true) → InI64 v
  | .literal (.duration w), v, h => by
    simp only [durationValue] at h
    split_ifs at h with hw
    obtain ⟨rfl, -⟩ := Prod.mk.inj (Option.some.inj h)
    exact hw
  | .nested e, v, h => inI64_of_durationValue (e := e) h
  | .binary lhs op rhs, v, h => by
    simp only [durationValue, Option.bind_eq_bind, Option.bind_eq_some_iff, Option.pure_def,
      Option.some.injEq, Prod.exists, Prod.mk.injEq, Bool.and_eq_true, decide_eq_true_eq] at h
    obtain ⟨a, p, -, b, q, -, x, -, rfl, -, hx⟩ := h
    exact hx
  | .literal (.integer _), _, h | .literal (.unsigned _), _, h | .literal (.float _), _, h
  | .literal (.string _), _, h | .literal (.boolean _), _, h | .literal (.regex _), _, h
  | .literal (.timestamp _), _, h | .varRef _, _, h | .bindParameter _, _, h
  | .wildcard, _, h | .distinct _, _, h | .call _ _, _, h => by
    simp [durationValue] at h

/-- A reduction that panics makes `reduce_time_expr` and `duration_expr_to_nanoseconds` panic. -/
theorem durationExprToNanoseconds_of_panic {e : Expr} (h : reduceExpr f ctx e = .error .panic) :
    reduceTimeExpr f ctx e = .error .panic ∧ durationExprToNanoseconds f ctx e = .error .panic := by
  have ht : reduceTimeExpr f ctx e = .error .panic := by simp [reduceTimeExpr, h]
  exact ⟨ht, by simp [durationExprToNanoseconds, ht]⟩

/-- On durations joined by `+` and `-`, `duration_expr_to_nanoseconds` gives the value over the
integers when every intermediate value is an `i64`, and an error otherwise. -/
theorem durationExprToNanoseconds_durations {e : Expr} {v : ℤ} {fits : Bool}
    (h : durationValue e = some (v, fits)) :
    (fits = true → durationExprToNanoseconds f ctx e = .ok v) ∧
      (fits = false → ∃ msg, durationExprToNanoseconds f ctx e = .error (.error (.expression msg))) := by
  obtain ⟨hok, herr⟩ := reduceExpr_durations f ctx h
  constructor
  · rintro rfl
    have hv : timestampNanosOpt v = some v := if_pos (inI64_of_durationValue h)
    simp [durationExprToNanoseconds, reduceTimeExpr, hok rfl, lit, nanosToTimestamp, hv]
  · rintro rfl
    obtain ⟨msg, hmsg⟩ := herr rfl
    exact ⟨msg, by simp [durationExprToNanoseconds, reduceTimeExpr, hmsg]⟩

/-! ## The unchecked operations -/

/-- A duration divided by an operand that reduces to the integer zero panics: unlike
`reduce_number`, the division of a duration makes no zero test. -/
theorem reduceExpr_duration_div_zero {lhs rhs : Expr} {d : ℤ}
    (hl : reduceExpr f ctx lhs = .ok (.literal (.duration d)))
    (hr : reduceExpr f ctx rhs = .ok (.literal (.integer 0))) :
    reduceExpr f ctx (.binary lhs .div rhs) = .error .panic := by
  simp [reduceExpr, hl, hr, reduceBinaryOperands, reduceBinaryLhsDuration, divI64, mapExprErr]

theorem durationExprToNanoseconds_duration_div_zero {lhs rhs : Expr} {d : ℤ}
    (hl : reduceExpr f ctx lhs = .ok (.literal (.duration d)))
    (hr : reduceExpr f ctx rhs = .ok (.literal (.integer 0))) :
    durationExprToNanoseconds f ctx (.binary lhs .div rhs) = .error .panic :=
  (durationExprToNanoseconds_of_panic f ctx (reduceExpr_duration_div_zero f ctx hl hr)).2

/-- An integer remainder by an operand that reduces to zero panics. -/
theorem reduceExpr_integer_mod_zero {lhs rhs : Expr} {a : ℤ}
    (hl : reduceExpr f ctx lhs = .ok (.literal (.integer a)))
    (hr : reduceExpr f ctx rhs = .ok (.literal (.integer 0))) :
    reduceExpr f ctx (.binary lhs .mod rhs) = .error .panic := by
  simp [reduceExpr, hl, hr, reduceBinaryOperands, reduceBinaryLhsInteger,
    BinaryOperator.reduceI64, remI64, mapExprErr]

/-- A duration times an integer wraps: the product is reduced modulo `2^64`, with no error when
it leaves `i64`. -/
theorem reduceExpr_duration_mul {lhs rhs : Expr} {d v : ℤ}
    (hl : reduceExpr f ctx lhs = .ok (.literal (.duration d)))
    (hr : reduceExpr f ctx rhs = .ok (.literal (.integer v))) :
    reduceExpr f ctx (.binary lhs .mul rhs) = .ok (.literal (.duration (wrapI64 (d * v)))) := by
  simp [reduceExpr, hl, hr, reduceBinaryOperands, reduceBinaryLhsDuration, lit]

end Reduce

open Reduce in
/-- `1s / 0` panics, in every context and with any `f64` arithmetic; here with none of either. -/
theorem durationExprToNanoseconds_one_second_div_zero :
    let f : F64 := ⟨fun a _ => a, fun a _ => a, fun a _ => a, fun a _ => a, fun a _ => a,
      fun _ => 0, fun _ => 0⟩
    let ctx : ReduceContext := ⟨none, fun _ => none⟩
    reduceExpr f ctx (.literal (.duration 1000000000)) = .ok (.literal (.duration 1000000000)) ∧
      reduceExpr f ctx (.literal (.integer 0)) = .ok (.literal (.integer 0)) ∧
      durationExprToNanoseconds f ctx
        (.binary (.literal (.duration 1000000000)) .div (.literal (.integer 0))) = .error .panic :=
  ⟨rfl, rfl, durationExprToNanoseconds_duration_div_zero _ _ rfl rfl⟩

end IoxCore.Influxql

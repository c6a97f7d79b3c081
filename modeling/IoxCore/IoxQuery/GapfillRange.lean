import IoxCore.Lib.Except
import Mathlib.Data.List.FinRange

/-!
# iox_query: the time range of a gap-filling query

A model of `find_time_range`
(src/iox_query/src/logical_optimizer/handle_gapfill/range_predicate.rs), which reads the
bounds of the time column of a `DATE_BIN_GAPFILL` query off the filters of its logical plan,
and of `validate_time_range` (handle_gapfill.rs), which then requires both bounds.

## The model

DataFusion's types are kept to what the visitor reads. A column is a name with an optional
relation; a schema is the list of its fields' columns, and `index_of_column` finds the one
field that a column names. An expression is a column, a timestamp literal, an alias, a binary
expression, a `BETWEEN`, or something else with the columns it mentions. A plan node carries
its input; a node the visitor stops at is a leaf with its schema, since the visitor never looks
below it. A projection carries the proof that it has one expression per field of its schema,
so the code's `p.expr[idx]` is always in range.

## What is proved

`findTimeRange_admits`: a timestamp that every time comparison in the filters the visitor
reads admits lies in the range `find_time_range` returns. The range is not their intersection:
`with_lower` and `with_upper` overwrite the bound they set, so when two conjuncts bound the
same side the later one wins, however loose it is.
-/

namespace IoxCore.IoxQuery.Gapfill

/-- A DataFusion `Column`: a name, qualified by a relation or not. -/
structure Column where
  relation : Option (List Char)
  name : List Char
  deriving DecidableEq, Repr

/-- A `DFSchema`, as the columns of its fields in order. -/
abbrev DFSchema := List Column

/-- DataFusion's errors as far as this code raises them: the two schema errors of a column
lookup and a plan error with its message. -/
inductive Error where
  | fieldNotFound (col : Column)
  | ambiguousReference (col : Column)
  | plan (message : String)
  deriving DecidableEq, Repr

/-- The filter of `DFSchema::index_of_column_by_name`: whether `field` answers to `col`. A
qualified column needs a field of that relation; DataFusion also reads an unqualified field's
name as a qualified name there, which is not modelled (such a field never matches). -/
def fieldMatches (col field : Column) : Bool :=
  match col.relation, field.relation with
  | some q, some fq => q == fq && field.name == col.name
  | some _, none => false
  | none, _ => field.name == col.name

/-- `DFSchema::index_of_column`: the one field that `col` names, an error when there is none
or more than one. -/
def indexOfColumn (schema : DFSchema) (col : Column) : Except Error (Fin schema.length) :=
  match (List.finRange schema.length).filter (fun i => fieldMatches col schema[i]) with
  | [] => .error (.fieldNotFound col)
  | [i] => .ok i
  | _ => .error (.ambiguousReference col)

/-- The binary operators the visitor tells apart; `other` stands for the rest (`=`, `OR`, …). -/
inductive Operator where
  | lt
  | ltEq
  | gt
  | gtEq
  | and
  | other
  deriving DecidableEq, Repr

/-- A DataFusion `Expr`. A literal is a timestamp in nanoseconds; any other expression is
`other`, with the columns it mentions. -/
inductive Expr where
  | column (c : Column)
  | literal (ts : ℤ)
  | alias (expr : Expr) (name : List Char)
  | binaryExpr (left : Expr) (op : Operator) (right : Expr)
  | between (expr : Expr) (negated : Bool) (low high : Expr)
  | other (columns : List Column)
  deriving DecidableEq, Repr

namespace Expr

/-- `Expr::try_into_col`: only a bare column is one. -/
def tryIntoCol : Expr → Option Column
  | column c => some c
  | _ => none

/-- The value of a timestamp literal. -/
def timestamp? : Expr → Option ℤ
  | literal ts => some ts
  | _ => none

end Expr

/-- `unwrap_alias` (handle_gapfill.rs): the expression under any number of aliases. -/
def unwrapAlias : Expr → Expr
  | .alias e _ => unwrapAlias e
  | e => e

/-- `split_conjunction`: the conjuncts of an `AND` tree, left to right, looking through
aliases. The code pushes them onto an accumulator; here they are appended. -/
def splitConjunction : Expr → List Expr
  | .binaryExpr left .and right => splitConjunction left ++ splitConjunction right
  | .alias e _ => splitConjunction e
  | e => [e]

/-- `expr_to_columns`: the columns an expression mentions. -/
def exprToColumns : Expr → List Column
  | .column c => [c]
  | .literal _ => []
  | .alias e _ => exprToColumns e
  | .binaryExpr left _ right => exprToColumns left ++ exprToColumns right
  | .between e _ low high => exprToColumns e ++ exprToColumns low ++ exprToColumns high
  | .other columns => columns

/-- Rust's `std::ops::Bound`. -/
inductive Bound (α : Type) where
  | included (a : α)
  | excluded (a : α)
  | unbounded
  deriving DecidableEq, Repr

/-- The expression of a bound, if it has one. -/
def Bound.value? {α : Type} : Bound α → Option α
  | .included a => some a
  | .excluded a => some a
  | .unbounded => none

/-- `TimeRange`: a `Range<Bound<Expr>>`; `stop` is the source's `end`. -/
structure TimeRange where
  start : Bound Expr
  stop : Bound Expr
  deriving DecidableEq, Repr

namespace TimeRange

/-- `TimeRange::default`: unbounded on both sides. -/
def default : TimeRange := ⟨.unbounded, .unbounded⟩

/-- `with_lower`: the lower bound replaced, not intersected. -/
def withLower (self : TimeRange) (start : Bound Expr) : TimeRange := { self with start }

/-- `with_upper`: the upper bound replaced, not intersected. -/
def withUpper (self : TimeRange) (stop : Bound Expr) : TimeRange := { self with stop }

/-- The first arm of `with_expr`: `time op right`. -/
def withTimeOnLeft (self : TimeRange) (op : Operator) (right : Expr) : TimeRange :=
  match op with
  | .lt => self.withUpper (.excluded right)
  | .ltEq => self.withUpper (.included right)
  | .gt => self.withLower (.excluded right)
  | .gtEq => self.withLower (.included right)
  | _ => self

/-- The second arm of `with_expr`: `left op time`, each comparison read the other way. -/
def withTimeOnRight (self : TimeRange) (op : Operator) (left : Expr) : TimeRange :=
  match op with
  | .lt => self.withLower (.excluded left)
  | .ltEq => self.withLower (.included left)
  | .gt => self.withUpper (.excluded left)
  | .gtEq => self.withUpper (.included left)
  | _ => self

end TimeRange

/-- The closure `is_time_col` of `with_expr`: whether `e` is a column at the time column's
index. Either lookup can fail; the column's own comes first. -/
def isTimeCol (schema : DFSchema) (timeCol : Column) (e : Expr) : Except Error Bool :=
  match e.tryIntoCol with
  | some col => do
    let i ← indexOfColumn schema col
    let j ← indexOfColumn schema timeCol
    pure (i == j)
  | none => pure false

/-- `TimeRange::with_expr`: one conjunct folded into the range. The arms are tried in the
source's order, each guard evaluated only when its pattern matches, and an error of a guard
is the result. -/
def TimeRange.withExpr (self : TimeRange) (schema : DFSchema) (timeCol : Column) :
    Expr → Except Error TimeRange
  | .binaryExpr left op right => do
    if ← isTimeCol schema timeCol left then pure (self.withTimeOnLeft op right)
    else if ← isTimeCol schema timeCol right then pure (self.withTimeOnRight op left)
    else pure self
  | .between e false low high => do
    if ← isTimeCol schema timeCol e then
      pure ((self.withLower (.included low)).withUpper (.included high))
    else pure self
  | _ => pure self

/-- A `LogicalPlan`, with what the visitor reads of each node. `tableScan` keeps its table's
name, the field names of its source, the optional projection (indices into the source) and the
pushed-down filters. The visitor stops at every other node, so `other` is a leaf with its
schema. -/
inductive LogicalPlan where
  | projection (expr : List Expr) (schema : DFSchema) (input : LogicalPlan)
      (hlen : expr.length = schema.length)
  | filter (predicate : Expr) (input : LogicalPlan)
  | tableScan (tableName : List Char) (source : List (List Char))
      (projection : Option (List (Fin source.length))) (filters : List Expr)
  | subqueryAlias (name : List Char) (input : LogicalPlan)
  | sort (input : LogicalPlan)
  | repartition (input : LogicalPlan)
  | limit (input : LogicalPlan)
  | distinct (input : LogicalPlan)
  | other (schema : DFSchema)

/-- The schema of a scan of the whole table, qualified by the table's name: what
`LogicalPlanBuilder::scan_with_filters` rebuilds for the filters. -/
def tableSchema (tableName : List Char) (source : List (List Char)) : DFSchema :=
  source.map (Column.mk (some tableName))

/-- `LogicalPlan::schema`. An alias requalifies its input's fields; the nodes that keep their
input's schema pass it on. -/
def LogicalPlan.schema : LogicalPlan → DFSchema
  | .projection _ schema _ _ => schema
  | .filter _ input => input.schema
  | .tableScan tableName source indices _ =>
    match indices with
    | none => tableSchema tableName source
    | some ps => ps.map fun i => ⟨some tableName, source[i]⟩
  | .subqueryAlias name input => input.schema.map fun c => { c with relation := some name }
  | .sort input | .repartition input | .limit input | .distinct input => input.schema
  | .other schema => schema

/-- `VisitRecursion`, as far as this visitor returns it. -/
inductive VisitRecursion where
  | continue
  | stop
  deriving DecidableEq, Repr

/-- `TimeRangeVisitor`: the column the time column is called at the current node, and the range
so far. -/
structure TimeRangeVisitor where
  col : Column
  range : TimeRange

/-- `TimeRangeVisitor::pre_visit`. -/
def TimeRangeVisitor.preVisit (v : TimeRangeVisitor) :
    LogicalPlan → Except Error (VisitRecursion × TimeRangeVisitor)
  | .projection expr schema _ hlen => do
    let idx ← indexOfColumn schema v.col
    -- a projection that computes the time column ends the search
    match unwrapAlias expr[idx.cast hlen.symm] with
    | .column c => pure (.continue, { v with col := c })
    | _ => pure (.stop, v)
  | .filter predicate input => do
    let range ← (splitConjunction predicate).foldlM
      (fun range expr => range.withExpr input.schema v.col expr) v.range
    pure (.continue, { v with range })
  | .tableScan tableName source _ filters => do
    let range ← (filters.flatMap splitConjunction).foldlM
      (fun range expr => range.withExpr (tableSchema tableName source) v.col expr) v.range
    pure (.continue, { v with range })
  | .subqueryAlias _ _ => pure (.continue, { v with col := { v.col with relation := none } })
  | .sort _ | .repartition _ | .limit _ | .distinct _ => pure (.continue, v)
  | .other _ => pure (.stop, v)

/-- `LogicalPlan::visit` with this visitor: `pre_visit`, then the input unless it said `Stop`.
The visitor's `post_visit` is the default, which changes nothing. -/
def LogicalPlan.visit (v : TimeRangeVisitor) : LogicalPlan → Except Error TimeRangeVisitor
  | plan@(.projection _ _ input _) | plan@(.filter _ input) | plan@(.subqueryAlias _ input)
  | plan@(.sort input) | plan@(.repartition input) | plan@(.limit input)
  | plan@(.distinct input) => do
    let (recursion, v) ← v.preVisit plan
    match recursion with
    | .stop => pure v
    | .continue => input.visit v
  -- the nodes without an input the visitor would go on to
  | plan@(.tableScan ..) | plan@(.other _) => do
    let (_, v) ← v.preVisit plan
    pure v

/-- The input the visitor goes on to: `LogicalPlan::inputs` of the nodes it does not stop at,
each of which has at most one. -/
def LogicalPlan.input? : LogicalPlan → Option LogicalPlan
  | .projection _ _ input _ | .filter _ input | .subqueryAlias _ input | .sort input
  | .repartition input | .limit input | .distinct input => some input
  | .tableScan .. | .other _ => none

/-- `find_time_range`. -/
def findTimeRange (plan : LogicalPlan) (timeCol : Column) : Except Error TimeRange := do
  let v ← plan.visit ⟨timeCol, .default⟩
  pure v.range

/-- `validate_scalar_expr`. -/
def validateScalarExpr (what : String) (e : Expr) : Except Error Unit :=
  if (exprToColumns e).isEmpty then pure ()
  else .error (.plan (what ++ " for gap fill query must evaluate to a scalar"))

/-- `validate_time_range`: both bounds present, and neither mentions a column. -/
def validateTimeRange (range : TimeRange) : Except Error Unit :=
  match range.start.value?, range.stop.value? with
  | none, none => .error (.plan "gap-filling query is missing both upper and lower time bounds")
  | none, some _ => .error (.plan "gap-filling query is missing lower time bound")
  | some _, none => .error (.plan "gap-filling query is missing upper time bound")
  | some start, some stop => do
    validateScalarExpr "lower time bound" start
    validateScalarExpr "upper time bound" stop

/-! ## Which timestamps a range and a filter admit -/

/-- How a comparison orders two timestamps; an operator that compares nothing admits all. -/
def Operator.compare : Operator → ℤ → ℤ → Bool
  | .lt, a, b => decide (a < b)
  | .ltEq, a, b => decide (a ≤ b)
  | .gt, a, b => decide (b < a)
  | .gtEq, a, b => decide (b ≤ a)
  | _, _, _ => true

namespace Bound

/-- Whether `t` lies above a lower bound. A bound that is not a timestamp literal is not
evaluated here and admits everything. -/
def admitsAbove (t : ℤ) : Bound Expr → Bool
  | included e => e.timestamp?.all fun a => decide (a ≤ t)
  | excluded e => e.timestamp?.all fun a => decide (a < t)
  | unbounded => true

/-- Whether `t` lies below an upper bound. -/
def admitsBelow (t : ℤ) : Bound Expr → Bool
  | included e => e.timestamp?.all fun a => decide (t ≤ a)
  | excluded e => e.timestamp?.all fun a => decide (t < a)
  | unbounded => true

end Bound

/-- Whether `t` lies in the range. -/
def TimeRange.contains (r : TimeRange) (t : ℤ) : Bool :=
  r.start.admitsAbove t && r.stop.admitsBelow t

/-- Whether a conjunct admits `t` as far as it compares the time column with a timestamp
literal: every such comparison holds with `t` put for the time column. A conjunct that does
not compare the time column admits every timestamp. -/
def conjunctAdmits (schema : DFSchema) (timeCol : Column) (t : ℤ) : Expr → Bool
  | .binaryExpr left op right =>
    (isTimeCol schema timeCol left != .ok true || right.timestamp?.all (op.compare t)) &&
      (isTimeCol schema timeCol right != .ok true || left.timestamp?.all (op.compare · t))
  | .between e false low high =>
    isTimeCol schema timeCol e != .ok true ||
      (low.timestamp?.all fun a => decide (a ≤ t)) && (high.timestamp?.all fun b => decide (t ≤ b))
  | _ => true

/-- Whether `t` passes every time comparison of the filters that `find_time_range` reads: those
of each `Filter` and `TableScan` down the plan until the visitor stops, with the time column
followed through projections and aliases as the visitor follows it. -/
def admittedBy (timeCol : Column) (t : ℤ) : LogicalPlan → Bool
  | .projection expr schema input hlen =>
    match indexOfColumn schema timeCol with
    | .ok idx =>
      match unwrapAlias expr[idx.cast hlen.symm] with
      | .column c => admittedBy c t input
      | _ => true
    | .error _ => true
  | .filter predicate input =>
    (splitConjunction predicate).all (conjunctAdmits input.schema timeCol t) &&
      admittedBy timeCol t input
  | .tableScan tableName source _ filters =>
    (filters.flatMap splitConjunction).all (conjunctAdmits (tableSchema tableName source) timeCol t)
  | .subqueryAlias _ input => admittedBy { timeCol with relation := none } t input
  | .sort input | .repartition input | .limit input | .distinct input => admittedBy timeCol t input
  | .other _ => true

/-! ## Every admitted timestamp stays in the range -/

namespace TimeRange

@[simp] theorem contains_withLower (r : TimeRange) (b : Bound Expr) (t : ℤ) :
    (r.withLower b).contains t = (b.admitsAbove t && r.stop.admitsBelow t) := rfl

@[simp] theorem contains_withUpper (r : TimeRange) (b : Bound Expr) (t : ℤ) :
    (r.withUpper b).contains t = (r.start.admitsAbove t && b.admitsBelow t) := rfl

theorem contains_iff {r : TimeRange} {t : ℤ} :
    r.contains t = true ↔ r.start.admitsAbove t = true ∧ r.stop.admitsBelow t = true := by
  simp [contains]

/-- The first arm keeps a timestamp that passes `time op right`. -/
theorem contains_withTimeOnLeft {r : TimeRange} {t : ℤ} (op : Operator) (right : Expr)
    (hr : r.contains t = true) (hop : right.timestamp?.all (op.compare t) = true) :
    (r.withTimeOnLeft op right).contains t = true := by
  obtain ⟨hs, he⟩ := contains_iff.1 hr
  cases hv : right.timestamp? <;> cases op <;>
    simp_all [withTimeOnLeft, Bound.admitsAbove, Bound.admitsBelow, Operator.compare]

/-- The second arm keeps a timestamp that passes `left op time`. -/
theorem contains_withTimeOnRight {r : TimeRange} {t : ℤ} (op : Operator) (left : Expr)
    (hr : r.contains t = true) (hop : left.timestamp?.all (op.compare · t) = true) :
    (r.withTimeOnRight op left).contains t = true := by
  obtain ⟨hs, he⟩ := contains_iff.1 hr
  cases hv : left.timestamp? <;> cases op <;>
    simp_all [withTimeOnRight, Bound.admitsAbove, Bound.admitsBelow, Operator.compare]

/-- One conjunct folded in keeps every timestamp it admits. -/
theorem contains_withExpr {r r' : TimeRange} {schema : DFSchema} {timeCol : Column} {t : ℤ}
    {e : Expr} (h : r.withExpr schema timeCol e = .ok r')
    (he : conjunctAdmits schema timeCol t e = true) (hr : r.contains t = true) :
    r'.contains t = true := by
  cases e with
  | binaryExpr left op right =>
    simp only [withExpr] at h
    -- the arms in the source's order: the time column on the left, then on the right
    rcases hl : isTimeCol schema timeCol left with _ | _ | _ <;> simp only [hl] at h
    · cases h
    · rcases hri : isTimeCol schema timeCol right with _ | _ | _ <;> simp only [hri] at h
      · cases h
      · cases h
        exact hr
      · cases h
        exact contains_withTimeOnRight op left hr (by simpa [conjunctAdmits, hl, hri] using he)
    · cases h
      simp only [conjunctAdmits, hl, Bool.and_eq_true] at he
      exact contains_withTimeOnLeft op right hr (by simpa using he.1)
  | between e negated low high =>
    cases negated with
    | true =>
      cases h
      exact hr
    | false =>
      simp only [withExpr] at h
      rcases hb : isTimeCol schema timeCol e with _ | _ | _ <;> simp only [hb] at h
      · cases h
      · cases h
        exact hr
      · cases h
        have hlh := by simpa [conjunctAdmits, hb] using he
        obtain ⟨hs, -⟩ := contains_iff.1 hr
        simp [withLower, Bound.admitsAbove, Bound.admitsBelow, hlh]
  | _ =>
    cases h
    exact hr

/-- A `try_fold` of `with_expr` over conjuncts that all admit `t` keeps `t` in the range. -/
theorem contains_foldlM_withExpr {schema : DFSchema} {timeCol : Column} {t : ℤ} {es : List Expr}
    {r r' : TimeRange} (h : es.foldlM (fun range expr => range.withExpr schema timeCol expr) r = .ok r')
    (hes : es.all (conjunctAdmits schema timeCol t) = true) (hr : r.contains t = true) :
    r'.contains t = true :=
  Except.foldlM_invariant (fun r => r.contains t = true)
    (fun e he _ _ hstep => contains_withExpr hstep (List.all_eq_true.1 hes e he)) h hr

end TimeRange

/-- One `pre_visit` keeps in the range every timestamp that the node's filters admit, and where
the visitor goes on, the input's filters admit it under the time column's new name. -/
theorem preVisit_contains {v w : TimeRangeVisitor} {plan : LogicalPlan} {rec : VisitRecursion}
    {t : ℤ} (h : v.preVisit plan = .ok (rec, w)) (ht : admittedBy v.col t plan = true)
    (hr : v.range.contains t = true) :
    w.range.contains t = true ∧
      ∀ input, plan.input? = some input → rec = .continue → admittedBy w.col t input = true := by
  cases plan with
  | projection expr schema input hlen =>
    simp only [TimeRangeVisitor.preVisit] at h
    rcases hidx : indexOfColumn schema v.col with _ | idx <;> simp only [hidx, Except.ok_bind] at h
    · cases h
    simp only [admittedBy, hidx] at ht
    split at h
    · next c hc =>
      cases h
      simp only [hc] at ht
      exact ⟨hr, fun _ hin _ => by cases hin; exact ht⟩
    · cases h
      exact ⟨hr, fun _ _ hrec => by cases hrec⟩
  | filter predicate input =>
    simp only [TimeRangeVisitor.preVisit] at h
    obtain ⟨range, hfold, hpure⟩ := Except.bind_eq_ok_iff.1 h
    cases hpure
    simp only [admittedBy, Bool.and_eq_true] at ht
    exact ⟨TimeRange.contains_foldlM_withExpr hfold ht.1 hr,
      fun _ hin _ => by cases hin; exact ht.2⟩
  | tableScan tableName source indices filters =>
    simp only [TimeRangeVisitor.preVisit] at h
    obtain ⟨range, hfold, hpure⟩ := Except.bind_eq_ok_iff.1 h
    cases hpure
    exact ⟨TimeRange.contains_foldlM_withExpr hfold ht hr, fun _ hin => by cases hin⟩
  | subqueryAlias name input =>
    cases h
    exact ⟨hr, fun _ hin _ => by cases hin; exact ht⟩
  | sort input | repartition input | limit input | distinct input =>
    cases h
    exact ⟨hr, fun _ hin _ => by cases hin; exact ht⟩
  | other schema =>
    cases h
    exact ⟨hr, fun _ hin => by cases hin⟩

/-- `visit` is `pre_visit` and then, unless it stopped, a visit of the input. -/
theorem visit_eq (v : TimeRangeVisitor) (plan : LogicalPlan) :
    plan.visit v = (do
      let (recursion, w) ← v.preVisit plan
      match recursion, plan.input? with
      | .continue, some input => input.visit w
      | _, _ => pure w) := by
  cases plan <;> simp only [LogicalPlan.visit, LogicalPlan.input?] <;> congr 1 <;> funext ⟨rec, w⟩ <;>
    cases rec <;> rfl

/-- A whole visit keeps in the range every timestamp that the filters it reads admit: induction
on the plan, one `pre_visit` at a time. -/
theorem visit_contains {t : ℤ} :
    ∀ (plan : LogicalPlan) {v v' : TimeRangeVisitor}, plan.visit v = .ok v' →
      admittedBy v.col t plan = true → v.range.contains t = true → v'.range.contains t = true := by
  intro plan
  induction plan with
  | projection _ _ input _ ih | filter _ input ih | subqueryAlias _ input ih | sort input ih
  | repartition input ih | limit input ih | distinct input ih =>
    intro v v' h ht hr
    rw [visit_eq] at h
    obtain ⟨⟨rec, w⟩, hpre, hrest⟩ := Except.bind_eq_ok_iff.1 h
    obtain ⟨hw, hin⟩ := preVisit_contains hpre ht hr
    cases rec
    · exact ih hrest (hin input rfl rfl) hw
    · cases hrest
      exact hw
  | tableScan _ _ _ _ | other _ =>
    intro v v' h ht hr
    rw [visit_eq] at h
    obtain ⟨⟨rec, w⟩, hpre, hrest⟩ := Except.bind_eq_ok_iff.1 h
    cases rec <;> cases hrest <;> exact (preVisit_contains hpre ht hr).1

theorem findTimeRange_admits {plan : LogicalPlan} {timeCol : Column} {r : TimeRange} {t : ℤ}
    (h : findTimeRange plan timeCol = .ok r) (ht : admittedBy timeCol t plan = true) :
    r.contains t = true := by
  obtain ⟨v, hv, hr⟩ := Except.bind_eq_ok_iff.1 h
  cases hr
  exact visit_contains plan hv ht rfl

/-- `… FROM cpu WHERE time >= 20 AND time >= 10 AND time < 30`: two lower bounds on the time
column, the tighter one first. -/
def twoLowerBounds : LogicalPlan :=
  .filter
    (.binaryExpr
      (.binaryExpr (.binaryExpr (.column ⟨none, ['t', 'i', 'm', 'e']⟩) .gtEq (.literal 20)) .and
        (.binaryExpr (.column ⟨none, ['t', 'i', 'm', 'e']⟩) .gtEq (.literal 10)))
      .and (.binaryExpr (.column ⟨none, ['t', 'i', 'm', 'e']⟩) .lt (.literal 30)))
    (.tableScan ['c', 'p', 'u'] [['t', 'i', 'm', 'e']] none [])

/-- The range of `twoLowerBounds` starts at the later, looser bound: it holds `25`, which every
filter admits, and also `15`, which `time >= 20` rejects. -/
theorem findTimeRange_keeps_later_lower_bound :
    findTimeRange twoLowerBounds ⟨none, ['t', 'i', 'm', 'e']⟩ =
        .ok ⟨.included (.literal 10), .excluded (.literal 30)⟩ ∧
      TimeRange.contains ⟨.included (.literal 10), .excluded (.literal 30)⟩ 25 = true ∧
      TimeRange.contains ⟨.included (.literal 10), .excluded (.literal 30)⟩ 15 = true ∧
      admittedBy ⟨none, ['t', 'i', 'm', 'e']⟩ 15 twoLowerBounds = false :=
  have h : findTimeRange twoLowerBounds ⟨none, ['t', 'i', 'm', 'e']⟩ =
      .ok ⟨.included (.literal 10), .excluded (.literal 30)⟩ := by rfl
  ⟨h, findTimeRange_admits h (by rfl), by rfl, by rfl⟩

end IoxCore.IoxQuery.Gapfill

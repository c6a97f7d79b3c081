import Mathlib.Data.List.Basic

/-!
# predicate: the IOx rewrites of RPC predicates

A model of `iox_expr_rewrite` and `simplify_predicate` (src/predicate/src/rpc_predicate/rewrite.rs),
two of the rewrites that `normalize_predicate` applies to each expression of a storage RPC
predicate. The first pushes a comparison with a searched `CASE` into the `CASE`'s branches; the
second drops a `col IS NOT NULL` that stands next to a comparison of `col` with a literal, since
a filter keeps only the rows where the predicate is true.

## The model

`Expr` is DataFusion's `Expr` with the nodes these functions read: columns, literals, binary
expressions, `NOT`, `IS NULL`, `IS NOT NULL`, `LIKE`, casts and `CASE`. `TreeNode::transform` is
`transform_up`: it rewrites the children of a node, then the node. A value is a `ScalarValue`,
NULL being `none`: a boolean, or a value of another type in `V`; the data types of casts are `D`.
An expression is evaluated over a row by SQL's three-valued logic: `AND`, `OR` and `NOT` are
Kleene's connectives, `IS [NOT] DISTINCT FROM` compares NULL as a value, and a `CASE` takes the
branch of its first `WHEN` that is true, else its `ELSE`, else NULL. The kernels of the other
operators, of `LIKE` and of casts are parameters (`Kernels`), applied to non-NULL operands: a
NULL operand gives NULL, as arrow's kernels do.

## What is proved

`ioxExprRewrite_eval`: when every `CASE` has an `ELSE`, the rewrite keeps the value of the
expression on every row. The proof runs `transform_up` by its recursion, one node at a time
(`ioxExprRewriteInner_spec`), and an `ELSE` lets every operator through (`eval_inlineCase`).
Without the `ELSE` it fails: a `CASE` whose `WHEN`s all fail is NULL, and `is_comparison` also
accepts `AND`, `OR` and `IS [NOT] DISTINCT FROM`, which do not map NULL to NULL, so
`NULL OR TRUE`, which is true, becomes a `CASE` that stays NULL
(`eval_inlineCase_or_without_else`, `ioxExprRewrite_needs_else`). `simplify_predicate` is not
sound for filters either. It compares the columns by name only, and it accepts any operator, so
it drops `NOT (a.x IS NULL)` next to `b.x = 1`, or next to `a.x IS DISTINCT FROM 1`
(`simplifyPredicate_other_relation`). It also rewrites under `NOT`, which turns the false guard
into a NULL that `NOT` keeps NULL (`simplifyPredicate_under_not`).
-/

namespace IoxCore.Predicate

/-- `Operator`, with every variant `is_comparison` lists. -/
inductive Operator where
  | eq | notEq | lt | ltEq | gt | gtEq | plus | minus | multiply | divide | modulo | and | or
  | isDistinctFrom | isNotDistinctFrom | regexMatch | regexIMatch | regexNotMatch | regexNotIMatch
  | bitwiseAnd | bitwiseOr | bitwiseXor | bitwiseShiftRight | bitwiseShiftLeft | stringConcat
  | arrowAt | atArrow
  deriving DecidableEq, Repr

/-- `Column`: a name, with the relation that qualifies it, if any. -/
structure Column where
  relation : Option String
  name : String
  deriving DecidableEq, Repr

/-- A non-NULL `ScalarValue`: a boolean, or a value of another type. -/
inductive Scalar (V : Type) where
  | boolean (b : Bool)
  | other (v : V)
  deriving DecidableEq, Repr

/-- `Expr`, with the nodes the rewrites read. `like` is `Like { negated, expr, pattern,
escape_char, case_insensitive }`; `case` is `Case { expr, when_then_expr, else_expr }`. -/
inductive Expr (V D : Type) where
  | column (c : Column)
  | literal (v : Option (Scalar V))
  | binaryExpr (left : Expr V D) (op : Operator) (right : Expr V D)
  | not (e : Expr V D)
  | isNull (e : Expr V D)
  | isNotNull (e : Expr V D)
  | like (negated : Bool) (expr pattern : Expr V D) (escapeChar : Option Char)
      (caseInsensitive : Bool)
  | cast (expr : Expr V D) (dataType : D)
  | case (expr : Option (Expr V D)) (whenThenExpr : List (Expr V D × Expr V D))
      (elseExpr : Option (Expr V D))

variable {V D : Type}

/-! ## `TreeNode::transform` -/

section Transform

variable (f : Expr V D → Expr V D)

mutual

/-- `transform_up`: the children first, then `f` at the node. -/
def transformUp : Expr V D → Expr V D
  | .column c => f (.column c)
  | .literal v => f (.literal v)
  | .binaryExpr left op right => f (.binaryExpr (transformUp left) op (transformUp right))
  | .not e => f (.not (transformUp e))
  | .isNull e => f (.isNull (transformUp e))
  | .isNotNull e => f (.isNotNull (transformUp e))
  | .like negated expr pattern escapeChar caseInsensitive =>
    f (.like negated (transformUp expr) (transformUp pattern) escapeChar caseInsensitive)
  | .cast expr dataType => f (.cast (transformUp expr) dataType)
  | .case expr whenThenExpr elseExpr =>
    f (.case (transformUpOpt expr) (transformUpList whenThenExpr) (transformUpOpt elseExpr))

/-- `transform_up` of an optional child. -/
def transformUpOpt : Option (Expr V D) → Option (Expr V D)
  | none => none
  | some e => some (transformUp e)

/-- `transform_up` of the `WHEN`/`THEN` pairs of a `CASE`. -/
def transformUpList : List (Expr V D × Expr V D) → List (Expr V D × Expr V D)
  | [] => []
  | p :: rest => transformUpPair p :: transformUpList rest

/-- `transform_up` of one `WHEN`/`THEN` pair. -/
def transformUpPair : Expr V D × Expr V D → Expr V D × Expr V D
  | (w, t) => (transformUp w, transformUp t)

end

end Transform

/-! ## `iox_expr_rewrite` -/

/-- `is_case`: a `CASE` without an operand. -/
def isCase : Expr V D → Bool
  | .case none _ _ => true
  | _ => false

/-- `is_comparison`: the operators that return a boolean. -/
def isComparison : Operator → Bool
  | .bitwiseAnd => false
  | .bitwiseOr => false
  | .bitwiseShiftLeft => false
  | .bitwiseShiftRight => false
  | .bitwiseXor => false
  | .eq => true
  | .notEq => true
  | .lt => true
  | .ltEq => true
  | .gt => true
  | .gtEq => true
  | .plus => false
  | .minus => false
  | .multiply => false
  | .divide => false
  | .modulo => false
  | .and => true
  | .or => true
  | .isDistinctFrom => true
  | .isNotDistinctFrom => true
  | .regexMatch => true
  | .regexIMatch => true
  | .regexNotMatch => true
  | .regexNotIMatch => true
  | .stringConcat => false
  | .arrowAt => true
  | .atArrow => true

/-- `binary_expr` of a branch of the `CASE` with the other operand, on the side the `CASE`
was. -/
def inlineBranch (caseOnLeft : Bool) (op : Operator) (other branch : Expr V D) : Expr V D :=
  if caseOnLeft then .binaryExpr branch op other else .binaryExpr other op branch

/-- `inline_case`: `op other` pushed into every `THEN` and the `ELSE`. The arm `unreachable!()`,
which the caller's `is_case` excludes, is the expression left as it is. -/
def inlineCase (caseOnLeft : Bool) (left right : Expr V D) (op : Operator) : Expr V D :=
  match caseOnLeft, left, right with
  | true, .case none whenThenExpr elseExpr, right =>
    .case none (whenThenExpr.map fun (w, t) => (w, inlineBranch true op right t))
      (elseExpr.map (inlineBranch true op right))
  | false, left, .case none whenThenExpr elseExpr =>
    .case none (whenThenExpr.map fun (w, t) => (w, inlineBranch false op left t))
      (elseExpr.map (inlineBranch false op left))
  | _, left, right => .binaryExpr left op right

/-- `iox_expr_rewrite_inner`. -/
def ioxExprRewriteInner : Expr V D → Expr V D
  | .binaryExpr left op right =>
    if isCase left && isComparison op then inlineCase true left right op
    else if isCase right && isComparison op then inlineCase false left right op
    else .binaryExpr left op right
  | expr => expr

/-- `iox_expr_rewrite`. -/
def ioxExprRewrite : Expr V D → Expr V D := transformUp ioxExprRewriteInner

/-! ## `simplify_predicate` -/

/-- `is_col`: the name of a column, under casts. -/
def isCol : Expr V D → Option String
  | .column c => some c.name
  | .cast expr _ => isCol expr
  | _ => none

/-- `is_col_null`: the column of `col IS NULL`. -/
def isColNull : Expr V D → Option String
  | .isNull arg => isCol arg
  | _ => none

/-- `is_col_not_null`: the column of `col IS NOT NULL` or `NOT (col IS NULL)`. -/
def isColNotNull : Expr V D → Option String
  | .isNotNull arg => isCol arg
  | .not arg => isColNull arg
  | _ => none

/-- `is_lit`. -/
def isLit : Expr V D → Bool
  | .literal _ => true
  | _ => false

/-- `is_col_op_lit`: the column of `col <op> lit`, `lit <op> col` or `col LIKE lit`, for any
operator. The first arm's guard is on the right operand only, so `lit <op> lit` gives `None`. -/
def isColOpLit : Expr V D → Option String
  | .binaryExpr left _ right =>
    if isLit right then isCol left else if isLit left then isCol right else none
  | .like _ expr pattern _ _ => if isLit pattern then isCol expr else none
  | _ => none

/-- `simplify_predicate_inner`: when the left operand of an `AND` is a not-NULL test and the
right one a comparison with a literal, the second test is not made, even if the names differ. -/
def simplifyPredicateInner : Expr V D → Expr V D
  | .binaryExpr left .and right =>
    match isColNotNull left, isColOpLit right with
    | some coll, some colr => if colr = coll then right else .binaryExpr left .and right
    | _, _ =>
      match isColOpLit left, isColNotNull right with
      | some coll, some colr => if colr = coll then left else .binaryExpr left .and right
      | _, _ => .binaryExpr left .and right
  | expr => expr

/-- `simplify_predicate`. -/
def simplifyPredicate : Expr V D → Expr V D := transformUp simplifyPredicateInner

/-! ## Evaluation -/

/-- The kernels of the operators other than `AND`, `OR` and `IS [NOT] DISTINCT FROM`, of
`LIKE` (negated, case-insensitive, escape character) and of casts, on non-NULL operands. -/
structure Kernels (V D : Type) where
  binary : Operator → Scalar V → Scalar V → Option (Scalar V)
  like : Bool → Bool → Option Char → Scalar V → Scalar V → Option (Scalar V)
  cast : D → Scalar V → Option (Scalar V)

/-- A value read as a boolean: NULL, or a value of another type, is unknown. -/
def asBool : Option (Scalar V) → Option Bool
  | some (.boolean b) => some b
  | _ => none

/-- Kleene's `AND`: false wins over unknown. -/
def and3 : Option Bool → Option Bool → Option Bool
  | some false, _ => some false
  | _, some false => some false
  | some true, some true => some true
  | _, _ => none

/-- Kleene's `OR`: true wins over unknown. -/
def or3 : Option Bool → Option Bool → Option Bool
  | some true, _ => some true
  | _, some true => some true
  | some false, some false => some false
  | _, _ => none

section Eval

variable [DecidableEq V] (k : Kernels V D)

/-- A binary operator on the values of its operands. -/
def evalBinary (op : Operator) (l r : Option (Scalar V)) : Option (Scalar V) :=
  match op with
  | .and => (and3 (asBool l) (asBool r)).map .boolean
  | .or => (or3 (asBool l) (asBool r)).map .boolean
  | .isDistinctFrom => some (.boolean (decide (l ≠ r)))
  | .isNotDistinctFrom => some (.boolean (decide (l = r)))
  | op =>
    match l, r with
    | some a, some b => k.binary op a b
    | _, _ => none

variable (row : Column → Option (Scalar V))

mutual

/-- The value of an expression on a row. -/
def eval : Expr V D → Option (Scalar V)
  | .column c => row c
  | .literal v => v
  | .binaryExpr left op right => evalBinary k op (eval left) (eval right)
  | .not e => (asBool (eval e)).map fun b => .boolean !b
  | .isNull e => some (.boolean (eval e).isNone)
  | .isNotNull e => some (.boolean (eval e).isSome)
  | .like negated expr pattern escapeChar caseInsensitive =>
    match eval expr, eval pattern with
    | some v, some p => k.like negated caseInsensitive escapeChar v p
    | _, _ => none
  | .cast expr dataType => (eval expr).bind (k.cast dataType)
  | .case none whenThenExpr elseExpr => evalSearched (evalElse elseExpr) whenThenExpr
  | .case (some base) whenThenExpr elseExpr =>
    evalSimple (eval base) (evalElse elseExpr) whenThenExpr

/-- The value of the `ELSE`, NULL without one. -/
def evalElse : Option (Expr V D) → Option (Scalar V)
  | none => none
  | some e => eval e

/-- A searched `CASE`: the `THEN` of the first `WHEN` that is true, else `otherwise`. -/
def evalSearched (otherwise : Option (Scalar V)) : List (Expr V D × Expr V D) → Option (Scalar V)
  | [] => otherwise
  | p :: rest => evalWhen p (evalSearched otherwise rest)

/-- One `WHEN`/`THEN` of a searched `CASE`, before the value of the rest. -/
def evalWhen : Expr V D × Expr V D → Option (Scalar V) → Option (Scalar V)
  | (w, t), next => if asBool (eval w) = some true then eval t else next

/-- A `CASE` with an operand: the `THEN` of the first `WHEN` equal to it. -/
def evalSimple (base otherwise : Option (Scalar V)) :
    List (Expr V D × Expr V D) → Option (Scalar V)
  | [] => otherwise
  | p :: rest => evalMatch base p (evalSimple base otherwise rest)

/-- One `WHEN`/`THEN` of a `CASE` with an operand, compared with `=`. -/
def evalMatch (base : Option (Scalar V)) :
    Expr V D × Expr V D → Option (Scalar V) → Option (Scalar V)
  | (w, t), next => if asBool (evalBinary k .eq base (eval w)) = some true then eval t else next

end

end Eval

/-! ## Inlining a comparison into a `CASE` -/

/-- The operators whose value is NULL on a NULL operand: all but `AND`, `OR` and
`IS [NOT] DISTINCT FROM`. -/
def Operator.PropagatesNull (op : Operator) : Prop :=
  op ≠ .and ∧ op ≠ .or ∧ op ≠ .isDistinctFrom ∧ op ≠ .isNotDistinctFrom

mutual

/-- Every `CASE` of the expression has an `ELSE`. -/
def Expr.allElse : Expr V D → Bool
  | .column _ => true
  | .literal _ => true
  | .binaryExpr left _ right => left.allElse && right.allElse
  | .not e => e.allElse
  | .isNull e => e.allElse
  | .isNotNull e => e.allElse
  | .like _ expr pattern _ _ => expr.allElse && pattern.allElse
  | .cast expr _ => expr.allElse
  | .case expr whenThenExpr elseExpr =>
    elseExpr.isSome && allElseOpt expr && allElseList whenThenExpr && allElseOpt elseExpr

/-- `Expr.allElse` of an optional child. -/
def allElseOpt : Option (Expr V D) → Bool
  | none => true
  | some e => e.allElse

/-- `Expr.allElse` of the `WHEN`/`THEN` pairs of a `CASE`. -/
def allElseList : List (Expr V D × Expr V D) → Bool
  | [] => true
  | p :: rest => allElsePair p && allElseList rest

/-- `Expr.allElse` of one `WHEN`/`THEN` pair. -/
def allElsePair : Expr V D × Expr V D → Bool
  | (w, t) => w.allElse && t.allElse

end

section Eval

variable [DecidableEq V] (k : Kernels V D) (row : Column → Option (Scalar V))

theorem evalBinary_none_left {op : Operator} (h : op.PropagatesNull) (r : Option (Scalar V)) :
    evalBinary k op none r = none := by
  obtain ⟨h₁, h₂, h₃, h₄⟩ := h
  cases op <;> simp_all [evalBinary]

theorem evalBinary_none_right {op : Operator} (h : op.PropagatesNull) (l : Option (Scalar V)) :
    evalBinary k op l none = none := by
  obtain ⟨h₁, h₂, h₃, h₄⟩ := h
  cases op <;> cases l <;> simp_all [evalBinary]

/-- The value of a branch with the other operand: `op` on the branch's value. -/
def branchValue (caseOnLeft : Bool) (op : Operator) (other : Option (Scalar V))
    (v : Option (Scalar V)) : Option (Scalar V) :=
  if caseOnLeft then evalBinary k op v other else evalBinary k op other v

theorem eval_inlineBranch (caseOnLeft : Bool) (op : Operator) (other t : Expr V D) :
    eval k row (inlineBranch caseOnLeft op other t) =
      branchValue k caseOnLeft op (eval k row other) (eval k row t) := by
  cases caseOnLeft <;> simp [inlineBranch, branchValue, eval]

/-- A searched `CASE` whose branches all get the same operation: the operation of the value of
the `CASE`. Induction on the pairs, the first true `WHEN` choosing the same branch in both. -/
theorem evalSearched_map_branch (g : Expr V D → Expr V D)
    (F : Option (Scalar V) → Option (Scalar V)) (hg : ∀ t, eval k row (g t) = F (eval k row t))
    (otherwise : Option (Scalar V)) :
    ∀ whenThenExpr : List (Expr V D × Expr V D),
      evalSearched k row (F otherwise) (whenThenExpr.map fun (w, t) => (w, g t)) =
        F (evalSearched k row otherwise whenThenExpr)
  | [] => rfl
  | (w, t) :: rest => by
    simp only [List.map_cons, evalSearched, evalWhen, evalSearched_map_branch g F hg otherwise rest,
      hg, apply_ite F]

/-- The value of the inlined `CASE` is `op` on the value of the `CASE`, when the `CASE` has an
`ELSE` or `op` maps NULL to NULL: without an `ELSE`, a `CASE` whose `WHEN`s all fail is NULL on
both sides only then. -/
theorem eval_inlineCase (caseOnLeft : Bool) (op : Operator) (other : Expr V D)
    (whenThenExpr : List (Expr V D × Expr V D)) (elseExpr : Option (Expr V D))
    (h : elseExpr.isSome ∨ op.PropagatesNull) :
    eval k row (.case none (whenThenExpr.map fun (w, t) => (w, inlineBranch caseOnLeft op other t))
        (elseExpr.map (inlineBranch caseOnLeft op other))) =
      branchValue k caseOnLeft op (eval k row other) (eval k row (.case none whenThenExpr elseExpr)) := by
  have helse : evalElse k row (elseExpr.map (inlineBranch caseOnLeft op other)) =
      branchValue k caseOnLeft op (eval k row other) (evalElse k row elseExpr) := by
    rcases elseExpr with _ | e
    · -- no `ELSE`: NULL on both sides, as `op` maps NULL to NULL
      have hop : op.PropagatesNull := by simpa using h
      cases caseOnLeft <;>
        simp [evalElse, branchValue, evalBinary_none_left k hop, evalBinary_none_right k hop]
    · simp [evalElse, eval_inlineBranch]
  simp only [eval, helse]
  exact evalSearched_map_branch k row _ _ (eval_inlineBranch k row caseOnLeft op other) _ _

end Eval

theorem isCase_iff {e : Expr V D} :
    isCase e = true ↔ ∃ whenThenExpr elseExpr, e = .case none whenThenExpr elseExpr := by
  constructor
  · intro h
    match e, h with
    | .case none whenThenExpr elseExpr, _ => exact ⟨whenThenExpr, elseExpr, rfl⟩
  · rintro ⟨whenThenExpr, elseExpr, rfl⟩
    rfl

theorem allElse_inlineBranch (caseOnLeft : Bool) (op : Operator) (other t : Expr V D) :
    (inlineBranch caseOnLeft op other t).allElse = (t.allElse && other.allElse) := by
  cases caseOnLeft <;> simp [inlineBranch, Expr.allElse, Bool.and_comm]

theorem allElseList_map_branch (caseOnLeft : Bool) (op : Operator) {other : Expr V D}
    (ho : other.allElse = true) :
    ∀ whenThenExpr : List (Expr V D × Expr V D), allElseList whenThenExpr = true →
      allElseList (whenThenExpr.map fun (w, t) => (w, inlineBranch caseOnLeft op other t)) = true
  | [], _ => rfl
  | (w, t) :: rest, h => by
    simp only [allElseList, allElsePair, Bool.and_eq_true] at h
    simp only [List.map_cons, allElseList, allElsePair, allElse_inlineBranch, ho, h.1.1, h.1.2,
      allElseList_map_branch caseOnLeft op ho rest h.2, Bool.and_self]

section Eval

variable [DecidableEq V] (k : Kernels V D) (row : Column → Option (Scalar V))

/-- One inlining, when every `CASE` has an `ELSE`: each `CASE` it builds has one, and the value
is kept. -/
theorem inlineCase_spec (caseOnLeft : Bool) (op : Operator) (other : Expr V D)
    (whenThenExpr : List (Expr V D × Expr V D)) (elseExpr : Option (Expr V D))
    (hcase : (Expr.case none whenThenExpr elseExpr).allElse = true) (ho : other.allElse = true) :
    (Expr.case none (whenThenExpr.map fun (w, t) => (w, inlineBranch caseOnLeft op other t))
        (elseExpr.map (inlineBranch caseOnLeft op other))).allElse = true ∧
      eval k row (.case none (whenThenExpr.map fun (w, t) => (w, inlineBranch caseOnLeft op other t))
        (elseExpr.map (inlineBranch caseOnLeft op other))) =
      branchValue k caseOnLeft op (eval k row other) (eval k row (.case none whenThenExpr elseExpr)) := by
  simp only [Expr.allElse, allElseOpt, Bool.and_eq_true] at hcase
  obtain ⟨⟨⟨hsome, -⟩, hlist⟩, helse⟩ := hcase
  refine ⟨?_, eval_inlineCase k row caseOnLeft op other whenThenExpr elseExpr (.inl hsome)⟩
  obtain ⟨e, rfl⟩ := Option.isSome_iff_exists.1 hsome
  simp only [allElseOpt] at helse
  simp [Expr.allElse, allElseOpt, allElse_inlineBranch, helse, ho,
    allElseList_map_branch caseOnLeft op ho whenThenExpr hlist]

/-- `iox_expr_rewrite_inner` at one node, when every `CASE` has an `ELSE`: every `CASE` of the
result has one, and the value is kept. -/
theorem ioxExprRewriteInner_spec {e : Expr V D} (he : e.allElse = true) :
    (ioxExprRewriteInner e).allElse = true ∧ eval k row (ioxExprRewriteInner e) = eval k row e := by
  match e with
  | .binaryExpr left op right =>
    simp only [Expr.allElse, Bool.and_eq_true] at he
    simp only [ioxExprRewriteInner]
    split_ifs with hleft hright
    · -- the `CASE` on the left
      obtain ⟨whenThenExpr, elseExpr, rfl⟩ := isCase_iff.1 (Bool.and_eq_true_iff.1 hleft).1
      exact inlineCase_spec k row true op right whenThenExpr elseExpr he.1 he.2
    · -- the `CASE` on the right
      obtain ⟨whenThenExpr, elseExpr, rfl⟩ := isCase_iff.1 (Bool.and_eq_true_iff.1 hright).1
      exact inlineCase_spec k row false op left whenThenExpr elseExpr he.2 he.1
    · exact ⟨by simp [Expr.allElse, he.1, he.2], rfl⟩
  | .column _ | .literal _ | .not _ | .isNull _ | .isNotNull _ | .like .. | .cast .. | .case .. =>
    exact ⟨he, rfl⟩

/-- `ioxExprRewriteInner_spec` at a node whose children have been rewritten already. -/
theorem ioxExprRewriteInner_spec_of {e' e : Expr V D} (hall : e'.allElse = true)
    (heq : eval k row e' = eval k row e) :
    (ioxExprRewriteInner e').allElse = true ∧ eval k row (ioxExprRewriteInner e') = eval k row e :=
  have h := ioxExprRewriteInner_spec k row hall
  ⟨h.1, h.2.trans heq⟩

mutual

/-- The whole rewrite, when every `CASE` has an `ELSE`: by the recursion of `transform_up`, the
children first, each keeping its value and its `ELSE`s, then `ioxExprRewriteInner_spec` at the
node. -/
theorem transformUp_ioxExprRewriteInner :
    ∀ e : Expr V D, e.allElse = true →
      (transformUp ioxExprRewriteInner e).allElse = true ∧
        eval k row (transformUp ioxExprRewriteInner e) = eval k row e
  | .column _, he => ioxExprRewriteInner_spec k row he
  | .literal _, he => ioxExprRewriteInner_spec k row he
  | .binaryExpr left op right, he => by
    simp only [Expr.allElse, Bool.and_eq_true] at he
    obtain ⟨hl, hl'⟩ := transformUp_ioxExprRewriteInner left he.1
    obtain ⟨hr, hr'⟩ := transformUp_ioxExprRewriteInner right he.2
    exact ioxExprRewriteInner_spec_of k row (by simp [Expr.allElse, hl, hr]) (by simp [eval, hl', hr'])
  | .not e, he | .isNull e, he | .isNotNull e, he => by
    obtain ⟨h, h'⟩ := transformUp_ioxExprRewriteInner e he
    exact ioxExprRewriteInner_spec_of k row h (by simp [eval, h'])
  | .like negated expr pattern escapeChar caseInsensitive, he => by
    simp only [Expr.allElse, Bool.and_eq_true] at he
    obtain ⟨hx, hx'⟩ := transformUp_ioxExprRewriteInner expr he.1
    obtain ⟨hp, hp'⟩ := transformUp_ioxExprRewriteInner pattern he.2
    exact ioxExprRewriteInner_spec_of k row (by simp [Expr.allElse, hx, hp]) (by simp [eval, hx', hp'])
  | .cast expr dataType, he => by
    obtain ⟨h, h'⟩ := transformUp_ioxExprRewriteInner expr he
    exact ioxExprRewriteInner_spec_of k row h (by simp [eval, h'])
  | .case none whenThenExpr elseExpr, he => by
    simp only [Expr.allElse, allElseOpt, Bool.and_eq_true, Bool.and_true] at he
    obtain ⟨⟨hsome, hlist⟩, helse⟩ := he
    obtain ⟨hl, hl', -⟩ := transformUpList_ioxExprRewriteInner whenThenExpr hlist
    obtain ⟨he, he', hs⟩ := transformUpOpt_ioxExprRewriteInner elseExpr helse
    exact ioxExprRewriteInner_spec_of k row
      (by simp [transformUpOpt, Expr.allElse, allElseOpt, hl, he, hs, hsome])
      (by simp [transformUpOpt, eval, hl', he'])
  | .case (some base) whenThenExpr elseExpr, he => by
    simp only [Expr.allElse, allElseOpt, Bool.and_eq_true] at he
    obtain ⟨⟨⟨hsome, hbase⟩, hlist⟩, helse⟩ := he
    obtain ⟨hb, hb'⟩ := transformUp_ioxExprRewriteInner base hbase
    obtain ⟨hl, -, hl'⟩ := transformUpList_ioxExprRewriteInner whenThenExpr hlist
    obtain ⟨he, he', hs⟩ := transformUpOpt_ioxExprRewriteInner elseExpr helse
    exact ioxExprRewriteInner_spec_of k row
      (by simp [transformUpOpt, Expr.allElse, allElseOpt, hb, hl, he, hs, hsome])
      (by simp [transformUpOpt, eval, hb', hl', he'])

/-- The rewrite of an optional child keeps its presence, its value and its `ELSE`s. -/
theorem transformUpOpt_ioxExprRewriteInner :
    ∀ o : Option (Expr V D), allElseOpt o = true →
      allElseOpt (transformUpOpt ioxExprRewriteInner o) = true ∧
        evalElse k row (transformUpOpt ioxExprRewriteInner o) = evalElse k row o ∧
        (transformUpOpt ioxExprRewriteInner o).isSome = o.isSome
  | none, _ => ⟨rfl, rfl, rfl⟩
  | some e, he => by
    obtain ⟨h, h'⟩ := transformUp_ioxExprRewriteInner e he
    exact ⟨h, h', rfl⟩

/-- The rewrite of the `WHEN`/`THEN` pairs keeps the value of either kind of `CASE`. -/
theorem transformUpList_ioxExprRewriteInner :
    ∀ whenThenExpr : List (Expr V D × Expr V D), allElseList whenThenExpr = true →
      allElseList (transformUpList ioxExprRewriteInner whenThenExpr) = true ∧
        (∀ otherwise, evalSearched k row otherwise (transformUpList ioxExprRewriteInner whenThenExpr) =
          evalSearched k row otherwise whenThenExpr) ∧
        ∀ base otherwise,
          evalSimple k row base otherwise (transformUpList ioxExprRewriteInner whenThenExpr) =
            evalSimple k row base otherwise whenThenExpr
  | [], _ => ⟨rfl, fun _ => rfl, fun _ _ => rfl⟩
  | (w, t) :: rest, h => by
    simp only [allElseList, Bool.and_eq_true] at h
    obtain ⟨hp, hw, ht⟩ := transformUpPair_ioxExprRewriteInner (w, t) h.1
    obtain ⟨hl, hs, hm⟩ := transformUpList_ioxExprRewriteInner rest h.2
    refine ⟨by simp [transformUpList, allElseList, hp, hl], fun otherwise => ?_, fun base otherwise => ?_⟩
    · simp only [transformUpList, transformUpPair, evalSearched, evalWhen, hs] at hw ht ⊢
      rw [hw, ht]
    · simp only [transformUpList, transformUpPair, evalSimple, evalMatch, hm] at hw ht ⊢
      rw [hw, ht]

/-- The rewrite of one pair keeps the values of its `WHEN` and its `THEN`. -/
theorem transformUpPair_ioxExprRewriteInner :
    ∀ p : Expr V D × Expr V D, allElsePair p = true →
      allElsePair (transformUpPair ioxExprRewriteInner p) = true ∧
        eval k row (transformUpPair ioxExprRewriteInner p).1 = eval k row p.1 ∧
        eval k row (transformUpPair ioxExprRewriteInner p).2 = eval k row p.2
  | (w, t), h => by
    simp only [allElsePair, Bool.and_eq_true] at h
    obtain ⟨hw, hw'⟩ := transformUp_ioxExprRewriteInner w h.1
    obtain ⟨ht, ht'⟩ := transformUp_ioxExprRewriteInner t h.2
    exact ⟨by simp [transformUpPair, allElsePair, hw, ht], hw', ht'⟩

end

theorem ioxExprRewrite_eval (e : Expr V D) (he : e.allElse = true) :
    eval k row (ioxExprRewrite e) = eval k row e :=
  (transformUp_ioxExprRewriteInner k row e he).2

/-- `CASE WHEN FALSE THEN TRUE ELSE NULL END OR TRUE` keeps its value, true; the same without
the `ELSE`, which SQL reads as `ELSE NULL`, is true but its rewrite is NULL. -/
theorem ioxExprRewrite_needs_else :
    let k : Kernels Unit Unit := ⟨fun _ _ _ => none, fun _ _ _ _ _ => none, fun _ _ => none⟩
    let withElse : Expr Unit Unit := .binaryExpr
      (.case none [(.literal (some (.boolean false)), .literal (some (.boolean true)))]
        (some (.literal none))) .or (.literal (some (.boolean true)))
    let withoutElse : Expr Unit Unit := .binaryExpr
      (.case none [(.literal (some (.boolean false)), .literal (some (.boolean true)))] none)
        .or (.literal (some (.boolean true)))
    withElse.allElse = true ∧
      eval k (fun _ => none) (ioxExprRewrite withElse) = eval k (fun _ => none) withElse ∧
      eval k (fun _ => none) withElse = some (.boolean true) ∧
      eval k (fun _ => none) withoutElse = some (.boolean true) ∧
      eval k (fun _ => none) (ioxExprRewrite withoutElse) = none :=
  ⟨rfl, ioxExprRewrite_eval _ _ _ rfl, rfl, rfl, rfl⟩

/-- A searched `CASE` none of whose `WHEN`s is true takes its `ELSE`. -/
theorem evalSearched_of_forall_not_true (otherwise : Option (Scalar V)) :
    ∀ whenThenExpr : List (Expr V D × Expr V D),
      (∀ p ∈ whenThenExpr, asBool (eval k row p.1) ≠ some true) →
        evalSearched k row otherwise whenThenExpr = otherwise
  | [], _ => rfl
  | (w, t) :: rest, h => by
    have hw : asBool (eval k row w) ≠ some true := h (w, t) List.mem_cons_self
    rw [evalSearched, evalWhen, if_neg hw,
      evalSearched_of_forall_not_true otherwise rest fun p hp => h p (List.mem_cons_of_mem _ hp)]

/-- Without an `ELSE`, inlining `OR` into a `CASE` whose `WHEN`s all fail turns `NULL OR TRUE`,
which is true, into NULL. -/
theorem eval_inlineCase_or_without_else (other : Expr V D)
    (whenThenExpr : List (Expr V D × Expr V D))
    (hwhen : ∀ p ∈ whenThenExpr, asBool (eval k row p.1) ≠ some true)
    (hother : asBool (eval k row other) = some true) :
    eval k row (.binaryExpr (.case none whenThenExpr none) .or other) = some (.boolean true) ∧
      eval k row (inlineCase true (.case none whenThenExpr none) other .or) = none := by
  have hmapped : ∀ p ∈ whenThenExpr.map (fun (w, t) => (w, inlineBranch true .or other t)),
      asBool (eval k row p.1) ≠ some true := by
    simp only [List.mem_map]
    rintro _ ⟨⟨w, t⟩, hp, rfl⟩
    exact hwhen (w, t) hp
  constructor
  · simp only [eval, evalElse, evalBinary, evalSearched_of_forall_not_true k row _ _ hwhen, hother]
    rfl
  · simp only [inlineCase, eval, evalElse, Option.map_none]
    exact evalSearched_of_forall_not_true k row _ _ hmapped

/-! ## Dropping a not-NULL guard -/

/-- The guarded comparison `NOT (a IS NULL) AND b <op> lit`. -/
def guarded (a b : Column) (op : Operator) (lit : Option (Scalar V)) : Expr V D :=
  .binaryExpr (.not (.isNull (.column a))) .and (.binaryExpr (.column b) op (.literal lit))

omit [DecidableEq V] in
/-- `simplify_predicate` drops the guard whenever the two columns have the same name, whatever
their relations and whatever the operator. -/
theorem simplifyPredicate_guarded {a b : Column} (op : Operator) (lit : Option (Scalar V))
    (h : a.name = b.name) :
    simplifyPredicate (guarded a b op lit : Expr V D) = .binaryExpr (.column b) op (.literal lit) := by
  cases op <;>
    simp [simplifyPredicate, guarded, transformUp, simplifyPredicateInner, isColNotNull, isColNull,
      isCol, isColOpLit, isLit, h]

/-- When `a` is NULL and `b <op> lit` is true, the guarded comparison is false and its
simplification true. That happens for a column `b` of another relation than `a`, or for `a`
itself with an operator that does not map NULL to NULL, such as `IS DISTINCT FROM`. -/
theorem simplifyPredicate_other_relation {a b : Column} (op : Operator) (lit : Option (Scalar V))
    (h : a.name = b.name) (ha : row a = none)
    (hb : asBool (evalBinary k op (row b) lit) = some true) :
    eval k row (guarded a b op lit : Expr V D) = some (.boolean false) ∧
      asBool (eval k row (simplifyPredicate (guarded a b op lit : Expr V D))) = some true := by
  rw [simplifyPredicate_guarded op lit h]
  exact ⟨by simp [guarded, eval, ha, evalBinary, asBool, and3], hb⟩

/-- Under `NOT` the rewrite is wrong even on one column and an operator that maps NULL to NULL:
when the column is NULL, `NOT (false AND NULL)` is true, and its rewrite `NOT NULL` is NULL. -/
theorem simplifyPredicate_under_not {c : Column} {op : Operator} (hop : op.PropagatesNull)
    (lit : Option (Scalar V)) (hc : row c = none) :
    eval k row (.not (guarded c c op lit) : Expr V D) = some (.boolean true) ∧
      eval k row (simplifyPredicate (.not (guarded c c op lit) : Expr V D)) = none := by
  have hnull : evalBinary k op none lit = none := evalBinary_none_left k hop lit
  constructor
  · simp [guarded, eval, hc, evalBinary, asBool, and3]
  · have hinner : simplifyPredicate (.not (guarded c c op lit) : Expr V D) =
        .not (.binaryExpr (.column c) op (.literal lit)) := by
      rw [simplifyPredicate, transformUp, ← simplifyPredicate, simplifyPredicate_guarded op lit rfl]
      rfl
    simp [hinner, eval, hc, hnull, asBool]

end Eval

end IoxCore.Predicate

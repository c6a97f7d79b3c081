import Mathlib
import IoxCore.Lib.Except

/-!
# InfluxQL expressions and their traversal

The expression syntax of `influxdb_influxql_parser`: literals (`literal.rs`), arithmetic
expressions (`expression/arithmetic.rs`), conditional expressions
(`expression/conditional.rs`), and the depth-first traversal `walk_expression` of
`expression/walk.rs`, on which the rewrites of conditions are built.

## The model

A visitor of the Rust traversal is a closure that mutates what it captures and answers
`ControlFlow::Break` to stop; here it threads its state `σ` explicitly and stops with an
error `ε`. The traversal is post-order: the children of a node, left to right, then the node.
A timestamp literal is its count of nanoseconds since the epoch, which may lie outside `i64`;
a float literal is its bit pattern; a variable reference is its name (its data type is not
read by any modelled function).

## Results

* `walkExpr_of_forall` and `walkExpression_expr`: a visitor that ignores arithmetic nodes
  walks past an arithmetic expression without a change.
-/

namespace IoxCore.Influxql

/-- Literal: a literal value of an expression. -/
inductive Literal where
  | integer (v : ℤ)
  | unsigned (v : ℕ)
  | float (bits : UInt64)
  | string (v : String)
  | boolean (v : Bool)
  | duration (nanos : ℤ)
  | regex (v : String)
  | timestamp (nanos : ℤ)

/-- BinaryOperator: the operators of arithmetic expressions. -/
inductive BinaryOperator where
  | add | sub | mul | div | mod | bitwiseAnd | bitwiseOr | bitwiseXor
  deriving DecidableEq

/-- Expr: an arithmetic expression. -/
inductive Expr where
  | varRef (name : String)
  | bindParameter (name : String)
  | literal (v : Literal)
  | wildcard
  | distinct (name : String)
  | call (name : String) (args : List Expr)
  | binary (lhs : Expr) (op : BinaryOperator) (rhs : Expr)
  | nested (e : Expr)

/-- ConditionalOperator: the comparison, regex and boolean operators of conditions. -/
inductive ConditionalOperator where
  | eq | notEq | eqRegex | notEqRegex | lt | ltEq | gt | gtEq | in_ | and | or
  deriving DecidableEq

/-- ConditionalExpression: a condition, built from arithmetic expressions with comparisons,
`AND`, `OR` and parentheses. -/
inductive ConditionalExpression where
  | expr (e : Expr)
  | binary (lhs : ConditionalExpression) (op : ConditionalOperator) (rhs : ConditionalExpression)
  | grouped (e : ConditionalExpression)

/-- ConditionalExpression::expr: the arithmetic expression of an `Expr` node. -/
def ConditionalExpression.expr? : ConditionalExpression → Option Expr
  | .expr e => some e
  | _ => none

/-- The conditional nodes of a condition in the order the traversal visits them. -/
def ConditionalExpression.nodes : ConditionalExpression → List ConditionalExpression
  | .expr e => [.expr e]
  | .binary lhs op rhs => lhs.nodes ++ rhs.nodes ++ [.binary lhs op rhs]
  | .grouped n => n.nodes ++ [.grouped n]

theorem ConditionalExpression.mem_nodes_self (c : ConditionalExpression) : c ∈ c.nodes := by
  cases c <;> simp [nodes]

/-- The nodes of a node of a condition are nodes of the condition. -/
theorem ConditionalExpression.nodes_subset_of_mem {n : ConditionalExpression} :
    ∀ {c : ConditionalExpression}, n ∈ c.nodes → n.nodes ⊆ c.nodes
  | .expr e, h => by
    rw [nodes, List.mem_singleton] at h
    subst h
    exact List.Subset.refl _
  | .binary lhs op rhs, h => by
    rw [nodes, List.mem_append, List.mem_append, List.mem_singleton] at h
    rcases h with (h | h) | rfl
    · exact List.Subset.trans (nodes_subset_of_mem h) (by simp [nodes])
    · exact List.Subset.trans (nodes_subset_of_mem h) (by simp [nodes])
    · exact List.Subset.refl _
  | .grouped c, h => by
    rw [nodes, List.mem_append, List.mem_singleton] at h
    rcases h with h | rfl
    · exact List.Subset.trans (nodes_subset_of_mem h) (by simp [nodes])
    · exact List.Subset.refl _

/-- Expression: a node the traversal visits. -/
inductive Expression where
  | conditional (c : ConditionalExpression)
  | arithmetic (e : Expr)

/-! ### The traversal -/

section Walk

variable {σ ε : Type} {visit : σ → Expression → Except ε σ}

mutual

/-- walk_expr: the post-order traversal of an arithmetic expression. -/
def walkExpr (visit : σ → Expr → Except ε σ) (s : σ) : Expr → Except ε σ
  | .binary lhs op rhs => do
    let s ← walkExpr visit s lhs
    let s ← walkExpr visit s rhs
    visit s (.binary lhs op rhs)
  | .nested n => do
    let s ← walkExpr visit s n
    visit s (.nested n)
  | .call name args => do
    let s ← walkExprs visit s args
    visit s (.call name args)
  | .varRef name => visit s (.varRef name)
  | .bindParameter name => visit s (.bindParameter name)
  | .literal v => visit s (.literal v)
  | .wildcard => visit s .wildcard
  | .distinct name => visit s (.distinct name)

/-- The arguments of a call, walked left to right. -/
def walkExprs (visit : σ → Expr → Except ε σ) (s : σ) : List Expr → Except ε σ
  | [] => pure s
  | e :: es => do
    let s ← walkExpr visit s e
    walkExprs visit s es

end

/-- walk_expression: the post-order traversal of a condition, arithmetic operands included. -/
def walkExpression (visit : σ → Expression → Except ε σ) (s : σ) :
    ConditionalExpression → Except ε σ
  | .expr n => do
    let s ← walkExpr (fun s n => visit s (.arithmetic n)) s n
    visit s (.conditional (.expr n))
  | .binary lhs op rhs => do
    let s ← walkExpression visit s lhs
    let s ← walkExpression visit s rhs
    visit s (.conditional (.binary lhs op rhs))
  | .grouped n => do
    let s ← walkExpression visit s n
    visit s (.conditional (.grouped n))

mutual

/-- A visitor that leaves its state alone walks past an arithmetic expression. -/
theorem walkExpr_of_forall {visit : σ → Expr → Except ε σ} (h : ∀ s n, visit s n = pure s) :
    ∀ (s : σ) (e : Expr), walkExpr visit s e = pure s
  | s, .binary lhs op rhs => by
    have hl : ∀ s, walkExpr visit s lhs = pure s := fun s => walkExpr_of_forall h s lhs
    have hr : ∀ s, walkExpr visit s rhs = pure s := fun s => walkExpr_of_forall h s rhs
    simp only [walkExpr, hl, hr, h, pure_bind]
  | s, .nested n => by simp only [walkExpr, walkExpr_of_forall h s n, h, pure_bind]
  | s, .call name args => by simp only [walkExpr, walkExprs_of_forall h s args, h, pure_bind]
  | s, .varRef _ | s, .bindParameter _ | s, .literal _ | s, .wildcard | s, .distinct _ => h s _

theorem walkExprs_of_forall {visit : σ → Expr → Except ε σ} (h : ∀ s n, visit s n = pure s) :
    ∀ (s : σ) (es : List Expr), walkExprs visit s es = pure s
  | s, [] => rfl
  | s, e :: es => by simp only [walkExprs, walkExpr_of_forall h s e, walkExprs_of_forall h s es, pure_bind]

end

/-- For a visitor that ignores arithmetic nodes, an `Expr` node is one visit. -/
theorem walkExpression_expr (h : ∀ s n, visit s (.arithmetic n) = pure s) (s : σ) (n : Expr) :
    walkExpression visit s (.expr n) = visit s (.conditional (.expr n)) := by
  simp only [walkExpression, walkExpr_of_forall h s n, pure_bind]

/-- For a visitor that ignores arithmetic nodes, the walk is a fold over the conditional
nodes in post-order. -/
theorem walkExpression_eq_foldlM (h : ∀ s n, visit s (.arithmetic n) = pure s) :
    ∀ (s : σ) (c : ConditionalExpression),
      walkExpression visit s c = c.nodes.foldlM (fun s n => visit s (.conditional n)) s
  | s, .expr n => by
    simp only [walkExpression_expr h, ConditionalExpression.nodes, List.foldlM_cons,
      List.foldlM_nil, bind_pure]
  | s, .binary lhs op rhs => by
    have hl := walkExpression_eq_foldlM h s lhs
    have hr : ∀ s, walkExpression visit s rhs = rhs.nodes.foldlM _ s :=
      fun s => walkExpression_eq_foldlM h s rhs
    simp only [walkExpression, ConditionalExpression.nodes, List.foldlM_append, hl, hr,
      List.foldlM_cons, List.foldlM_nil, bind_pure, bind_assoc]
  | s, .grouped n => by
    have hn := walkExpression_eq_foldlM h s n
    simp only [walkExpression, ConditionalExpression.nodes, List.foldlM_append, hn,
      List.foldlM_cons, List.foldlM_nil, bind_pure]

/-- A node is walked when its children are: the bind of a binary node. -/
theorem walkExpression_binary {s s' : σ}
    {lhs rhs : ConditionalExpression} {op : ConditionalOperator}
    (h : walkExpression visit s (.binary lhs op rhs) = .ok s') :
    ∃ s₁ s₂, walkExpression visit s lhs = .ok s₁ ∧ walkExpression visit s₁ rhs = .ok s₂ ∧
      visit s₂ (.conditional (.binary lhs op rhs)) = .ok s' := by
  simp only [walkExpression] at h
  obtain ⟨s₁, h₁, h⟩ := Except.bind_eq_ok_iff.1 h
  obtain ⟨s₂, h₂, h⟩ := Except.bind_eq_ok_iff.1 h
  exact ⟨s₁, s₂, h₁, h₂, h⟩

/-- The bind of a parenthesized node. -/
theorem walkExpression_grouped {s s' : σ}
    {n : ConditionalExpression} (h : walkExpression visit s (.grouped n) = .ok s') :
    ∃ s₁, walkExpression visit s n = .ok s₁ ∧ visit s₁ (.conditional (.grouped n)) = .ok s' := by
  simp only [walkExpression] at h
  exact Except.bind_eq_ok_iff.1 h

end Walk

end IoxCore.Influxql

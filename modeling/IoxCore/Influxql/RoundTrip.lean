import IoxCore.Influxql.Arithmetic

/-!
# Printing and reparsing arithmetic expressions

`Display for Expr` prints a binary expression as `lhs op rhs` with no parentheses, and the
parser groups operators by precedence and to the left. The printed text is read back as the
same tree exactly when the tree has the shape the parser builds: `Printable` is that shape,
level by level of the grammar (factor, term, sum).

## The model

The operand parser is any parser of the crate's kind. What is asked of it is said for each
leaf by `Leaf`: the display of the leaf starts with a character that opens no comment, no
sign and no parenthesis, and the operand reads the display back, after any whitespace, before
text that may follow an operand. Leaves are variables, literals, bind parameters and so on;
call expressions, whose arguments the operand reads with the arithmetic parser, are left out.

## Results

* `arithmetic_display`: the display of every printable expression parses back to it.
* `arithmetic_reprint_regroups`: a unary minus before a parenthesized expression, after a
  division, is parsed to a tree that is not printable: `1 / -(2)` is read as `1 / (-1 * (2))`,
  printed as `1 / -1 * (2)`, and that text is read as `(1 / -1) * (2)`.
-/

namespace IoxCore.Influxql

open Nom RustStr

variable {r : List Char}

/-- Text that may follow an operand: nothing, a blank or a closing parenthesis. -/
def EndsOperand (r : List Char) : Prop := r = [] ∨ r.head? = some ' ' ∨ r.head? = some ')'

/-- Text that ends an arithmetic expression: nothing, a closing parenthesis, or a blank before
text that starts with neither a blank nor an operator. -/
def EndsExpr (r : List Char) : Prop :=
  r = [] ∨ r.head? = some ')' ∨
    ∃ c t, r = ' ' :: c :: t ∧ isBlank c = false ∧ c ∉ "+-*/%&|^".toList

/-- The operators of precedence 2 and 3 have no character in common with a closing
parenthesis, a blank or a letter that is not an operator. -/
theorem text_ne_of_not_mem {c : Char} (hc : c ∉ "+-*/%&|^".toList) (a : BinaryOperator) :
    c ≠ a.text := by
  rintro rfl
  cases a <;> simp [BinaryOperator.text] at hc

/-- After an expression, ws0 stops before something that is not an operator. -/
theorem ws0_of_endsExpr (hr : EndsExpr r) :
    ∃ t, ws0 r = .ok (t, ()) ∧ ∀ a : BinaryOperator, t.head? ≠ some a.text := by
  rcases hr with rfl | hr | ⟨c, t, rfl, hb, hc⟩
  · exact ⟨[], ws0_of_wsStop wsStop_nil, by simp⟩
  · obtain ⟨t, rfl⟩ : ∃ t, r = ')' :: t := by
      cases r with
      | nil => simp at hr
      | cons c t => exact ⟨t, by simpa using hr⟩
    refine ⟨')' :: t, ws0_of_wsStop (wsStop_of_head rfl (by decide) (by decide)), ?_⟩
    intro a
    cases a <;> simp [BinaryOperator.text]
  · have hstop : WsStop (c :: t) :=
      wsStop_of_head hb (fun h => hc (by simp [h])) (fun h => hc (by simp [h]))
    exact ⟨c :: t, ws0_space hstop, fun a => by simpa using text_ne_of_not_mem hc a⟩

theorem endsOperand_of_endsExpr (hr : EndsExpr r) : EndsOperand r := by
  rcases hr with rfl | hr | ⟨c, t, rfl, -, -⟩
  · exact Or.inl rfl
  · exact Or.inr (Or.inr hr)
  · exact Or.inr (Or.inl rfl)

/-- Text that ends a term: an operand may end there and no operator of precedence 2 follows. -/
def EndsTerm (r : List Char) : Prop := EndsOperand r ∧ Fails termOperator r

theorem endsTerm_of_endsExpr (hr : EndsExpr r) : EndsTerm r := by
  obtain ⟨t, hws, ht⟩ := ws0_of_endsExpr hr
  exact ⟨endsOperand_of_endsExpr hr, termOperator_fails hws fun a _ => ht a⟩

/-- An operator of precedence 3 ends the term before it. -/
theorem endsTerm_operator {op : BinaryOperator} (hop : op ∈ arithmeticOperators)
    (r : List Char) : EndsTerm (' ' :: op.text :: ' ' :: r) := by
  refine ⟨Or.inr (Or.inl rfl), termOperator_fails (ws0_operator op r) ?_⟩
  intro a ha
  simp only [termOperators, arithmeticOperators, List.mem_cons, List.not_mem_nil] at ha hop
  rcases hop with rfl | rfl | rfl | rfl | hop <;> rcases ha with rfl | rfl | rfl | rfl | ha <;>
    simp_all [BinaryOperator.text]

theorem arithmeticOperator_fails_of_endsExpr (hr : EndsExpr r) : Fails arithmeticOperator r := by
  obtain ⟨t, hws, ht⟩ := ws0_of_endsExpr hr
  exact arithmeticOperator_fails hws fun a _ => ht a

/-- The text of an operator and its operand, before any text. -/
theorem itemText_append (fmt : LiteralFormats) (x : BinaryOperator × Expr) (r : List Char) :
    itemText fmt x ++ r = ' ' :: x.1.text :: ' ' :: (x.2.display fmt ++ r) := by
  simp [itemText]

/-- Each operand of a chain is printed in the chain's display. -/
theorem length_display_lt_of_mem (fmt : LiteralFormats) {x : BinaryOperator × Expr}
    {items : List (BinaryOperator × Expr)} (hx : x ∈ items) (e : Expr) :
    (x.2.display fmt).length < ((reduceExpr e items).display fmt).length := by
  have hin : itemText fmt x <:+: items.flatMap (itemText fmt) := by
    rw [List.flatMap_def]
    exact List.infix_of_mem_flatten (List.mem_map_of_mem hx)
  have hle := hin.length_le
  rw [display_reduceExpr, List.length_append]
  simp only [itemText, List.length_cons] at hle
  omega

theorem length_display_le_reduceExpr (fmt : LiteralFormats) (e : Expr)
    (items : List (BinaryOperator × Expr)) :
    (e.display fmt).length ≤ ((reduceExpr e items).display fmt).length := by
  rw [display_reduceExpr, List.length_append]
  omega

/-- Each item takes at least one character. -/
theorem length_le_flatMap_itemText (fmt : LiteralFormats) :
    ∀ items : List (BinaryOperator × Expr), items.length ≤ (items.flatMap (itemText fmt)).length
  | [] => by simp
  | x :: xs => by
    have := length_le_flatMap_itemText fmt xs
    simp only [List.flatMap_cons, List.length_append, List.length_cons, itemText] at this ⊢
    omega

/-! ### The printable expressions -/

section Printable

variable (operand : Parser Char Error Expr → Parser Char Error Expr) (fmt : LiteralFormats)

/-- Leaf: the operand reads the display of `e` back. The display starts with a character that
opens no comment, no sign and no parenthesis, and after any whitespace the operand consumes
exactly the display, before text that may follow an operand. -/
structure Leaf (e : Expr) : Prop where
  head : ∃ c t, e.display fmt = c :: t ∧ isBlank c = false ∧ c ∉ "+-/(".toList
  reads : ∀ arith i r, ws0 i = .ok (e.display fmt ++ r, ()) → EndsOperand r →
    operand arith i = .ok (r, e)

/-- The levels of the grammar: factors, terms of precedence 2, sums of precedence 3. -/
inductive Level where
  | factor
  | term
  | sum

/-- Printable: the expressions whose display the parser reads back, by the level of the
grammar they are read at. -/
inductive Printable : Level → Expr → Prop
  /-- A leaf the operand reads. -/
  | leaf {e : Expr} : Leaf operand fmt e → Printable .factor e
  /-- A literal negated by a unary minus, printed as the minus and the literal. -/
  | negated {e e' : Expr} : Leaf operand fmt e → (∀ i, negate i e = .ok e') →
      e'.display fmt = '-' :: e.display fmt → Printable .factor e'
  /-- A sum in parentheses. -/
  | nested {e : Expr} : Printable .sum e → Printable .factor (.nested e)
  /-- A factor is a term. -/
  | factor {e : Expr} : Printable .factor e → Printable .term e
  /-- A term, an operator of precedence 2 and a factor. -/
  | product {l f : Expr} {op : BinaryOperator} : Printable .term l → op ∈ termOperators →
      Printable .factor f → Printable .term (.binary l op f)
  /-- A term is a sum. -/
  | term {e : Expr} : Printable .term e → Printable .sum e
  /-- A sum, an operator of precedence 3 and a term. -/
  | sum {l t : Expr} {op : BinaryOperator} : Printable .sum l → op ∈ arithmeticOperators →
      Printable .term t → Printable .sum (.binary l op t)

/-- What the factor parser makes of the display of `e`: at every fuel beyond its length and
after any whitespace, it reads the display back before text that may follow an operand; and
the display starts where ws0 stops. -/
def FactorReads (e : Expr) : Prop :=
  (∀ n, (e.display fmt).length < n → ∀ i r, ws0 i = .ok (e.display fmt ++ r, ()) →
    EndsOperand r → factor operand n i = .ok (r, e)) ∧
  ∀ r, WsStop (e.display fmt ++ r)

/-- A chain of operands that satisfy `P`, joined by operators of `ops` and folded to the
left as reduce_expr folds it. -/
def Chain (ops : List BinaryOperator) (P : Expr → Prop) (e : Expr) : Prop :=
  ∃ e₀ items, e = reduceExpr e₀ items ∧ P e₀ ∧ ∀ x ∈ items, x.1 ∈ ops ∧ P x.2

/-- What the parser makes of a printable expression, by level: a factor is read back, a term
is a chain of such factors, a sum a chain of such terms. -/
def Reads : Level → Expr → Prop
  | .factor => FactorReads operand fmt
  | .term => Chain termOperators (FactorReads operand fmt)
  | .sum => Chain arithmeticOperators (Chain termOperators (FactorReads operand fmt))

variable {operand fmt}

variable {e : Expr} {ops : List BinaryOperator} {P : Expr → Prop}

theorem Chain.single (h : P e) : Chain ops P e :=
  ⟨e, [], rfl, h, by simp⟩

theorem Chain.snoc {l f : Expr}
    {op : BinaryOperator} (hl : Chain ops P l) (hop : op ∈ ops) (hf : P f) :
    Chain ops P (.binary l op f) := by
  obtain ⟨e₀, items, rfl, h₀, hitems⟩ := hl
  refine ⟨e₀, items ++ [(op, f)], (reduceExpr_append_singleton e₀ items (op, f)).symm, h₀, ?_⟩
  intro x hx
  rcases List.mem_append.1 hx with hx | hx
  · exact hitems x hx
  · obtain rfl : x = (op, f) := by simpa using hx
    exact ⟨hop, hf⟩

/-- The display of a chain starts where ws0 stops, as its first operand's does. -/
theorem Chain.wsStop
    (h : Chain ops P e) (hP : ∀ e, P e → ∀ r, WsStop (e.display fmt ++ r)) (r : List Char) :
    WsStop (e.display fmt ++ r) := by
  obtain ⟨e₀, items, rfl, h₀, -⟩ := h
  rw [display_reduceExpr, List.append_assoc]
  exact hP e₀ h₀ _

/-- An operator of precedence 2 and a factor after it, read by one pass of term's loop. -/
theorem termItem_reads {x : BinaryOperator × Expr} (hop : x.1 ∈ termOperators)
    (hx : FactorReads operand fmt x.2) {n : ℕ} (hn : (x.2.display fmt).length < n)
    (rest : List Char) (hrest : EndsOperand rest) :
    pair termOperator (factor operand n) (itemText fmt x ++ rest) = .ok (rest, x) := by
  have hf : factor operand n (' ' :: (x.2.display fmt ++ rest)) = .ok (rest, x.2) :=
    hx.1 n hn _ rest (ws0_space (hx.2 rest)) hrest
  rw [itemText_append, pair_of_ok (termOperator_text hop _), map_of_ok hf]

/-- Term: a chain of factors that read back is read back by term, at every fuel beyond its
length, before text that ends a term. -/
theorem term_reads (h : Chain termOperators (FactorReads operand fmt) e) {n : ℕ}
    (hn : (e.display fmt).length < n) {i r : List Char} (hws : ws0 i = .ok (e.display fmt ++ r, ()))
    (hr : EndsTerm r) : term (factor operand n) i = .ok (r, e) := by
  obtain ⟨f₀, items, rfl, h₀, hitems⟩ := h
  rw [display_reduceExpr, List.append_assoc] at hws
  have hend : EndsOperand (items.flatMap (itemText fmt) ++ r) := by
    cases items with
    | nil => simpa using hr.1
    | cons x xs => exact Or.inr (Or.inl (by simp [itemText]))
  have hfirst := h₀.1 n (lt_of_le_of_lt (length_display_le_reduceExpr fmt f₀ items) hn) i _ hws hend
  have hitem : ∀ x ∈ items, itemText fmt x ≠ [] ∧ ∀ rest, EndsOperand rest →
      pair termOperator (factor operand n) (itemText fmt x ++ rest) = .ok (rest, x) := by
    intro x hx
    obtain ⟨hop, hx₂⟩ := hitems x hx
    exact ⟨itemText_ne_nil fmt x,
      termItem_reads hop hx₂ (lt_trans (length_display_lt_of_mem fmt hx f₀) hn)⟩
  have hloop := many0Loop_flatMap (Q := EndsOperand) hr.1 items hitem
    (fun x _ rest => Or.inr (Or.inl (by simp [itemText])))
    ((items.flatMap (itemText fmt) ++ r).length + 1 - items.length) []
  have hle := length_le_flatMap_itemText fmt items
  have hfuel : (items.flatMap (itemText fmt) ++ r).length + 1 =
      (items.flatMap (itemText fmt) ++ r).length + 1 - items.length + items.length := by
    rw [List.length_append]
    omega
  rw [term_of_ok hfirst, many0, hfuel, hloop,
    many0Loop_stop (pair_fails_left hr.2) (by rw [List.length_append]; omega)]
  rfl

/-- Arithmetic: a chain of terms read back is read back by arithmetic, at every fuel beyond
its length, before text that ends an expression. -/
theorem arithmeticOf_reads
    (h : Chain arithmeticOperators (Chain termOperators (FactorReads operand fmt)) e) {n : ℕ}
    (hn : (e.display fmt).length < n) {i r : List Char}
    (hws : ws0 i = .ok (e.display fmt ++ r, ())) (hr : EndsExpr r) :
    arithmeticOf (factor operand n) i = .ok (r, e) := by
  obtain ⟨t₀, items, rfl, h₀, hitems⟩ := h
  rw [display_reduceExpr, List.append_assoc] at hws
  have hend : EndsTerm (items.flatMap (itemText fmt) ++ r) := by
    cases items with
    | nil => simpa using endsTerm_of_endsExpr hr
    | cons x xs =>
      rw [List.flatMap_cons, List.append_assoc, itemText_append]
      exact endsTerm_operator (hitems x List.mem_cons_self).1 _
  have hfirst := term_reads h₀ (lt_of_le_of_lt (length_display_le_reduceExpr fmt t₀ items) hn)
    hws hend
  have hitem : ∀ x ∈ items, itemText fmt x ≠ [] ∧ ∀ rest, EndsTerm rest →
      pair arithmeticOperator (cut (term (factor operand n))) (itemText fmt x ++ rest) =
        .ok (rest, x) := by
    intro x hx
    obtain ⟨hop, hx₂⟩ := hitems x hx
    refine ⟨itemText_ne_nil fmt x, fun rest hrest => ?_⟩
    have hstop : WsStop (x.2.display fmt ++ rest) := hx₂.wsStop (fun e he => he.2) rest
    have ht : term (factor operand n) (' ' :: (x.2.display fmt ++ rest)) = .ok (rest, x.2) :=
      term_reads hx₂ (lt_trans (length_display_lt_of_mem fmt hx t₀) hn) (ws0_space hstop) hrest
    rw [itemText_append, pair_of_ok (arithmeticOperator_text hop _), map_of_ok (cut_of_ok ht)]
  have hloop := many0Loop_flatMap (Q := EndsTerm) (endsTerm_of_endsExpr hr) items hitem
    (fun x hx rest => by
      rw [itemText_append]
      exact endsTerm_operator (hitems x hx).1 _)
    ((items.flatMap (itemText fmt) ++ r).length + 1 - items.length) []
  have hle := length_le_flatMap_itemText fmt items
  have hfuel : (items.flatMap (itemText fmt) ++ r).length + 1 =
      (items.flatMap (itemText fmt) ++ r).length + 1 - items.length + items.length := by
    rw [List.length_append]
    omega
  rw [arithmeticOf_of_ok hfirst, many0, hfuel, hloop,
    many0Loop_stop (pair_fails_left (arithmeticOperator_fails_of_endsExpr hr))
      (by rw [List.length_append]; omega)]
  rfl

/-- A leaf is read back by the factor parser, through the operand. -/
theorem factorReads_leaf (h : Leaf operand fmt e) : FactorReads operand fmt e := by
  obtain ⟨c, t, hd, hb, hc⟩ := h.head
  have hstop : ∀ r, WsStop (e.display fmt ++ r) := by
    intro r
    rw [hd, List.cons_append]
    exact wsStop_of_head hb (fun h => hc (by simp [h])) (fun h => hc (by simp [h]))
  refine ⟨fun n hn i r hws hr => ?_, hstop⟩
  obtain ⟨m, rfl⟩ : ∃ m, n = m + 1 := ⟨n - 1, by omega⟩
  rw [hd, List.cons_append] at hws
  have hu : Fails (unary (factor operand m)) i :=
    unary_fails hws (fun h => hc (by simp_all)) (fun h => hc (by simp_all))
  have hp : Fails (parens (arithmeticOf (factor operand m))) i :=
    parens_fails hws (fun h => hc (by simp_all))
  rw [factor_of_operand hu hp]
  exact h.reads _ i r (by rw [hd, List.cons_append]; exact hws) hr

/-- A negated literal is read back as the minus and the literal. -/
theorem factorReads_negated {e e' : Expr} (h : Leaf operand fmt e)
    (hneg : ∀ i, negate i e = .ok e') (hd : e'.display fmt = '-' :: e.display fmt) :
    FactorReads operand fmt e' := by
  obtain ⟨hreads, hstop⟩ := factorReads_leaf h
  obtain ⟨c, t, hde, -, hc⟩ := h.head
  refine ⟨fun n hn i r hws hr => ?_, fun r => ?_⟩
  · obtain ⟨m, rfl⟩ : ∃ m, n = m + 1 := ⟨n - 1, by omega⟩
    rw [hd, List.cons_append] at hws
    have hf : factor operand m (e.display fmt ++ r) = .ok (r, e) :=
      hreads m (by rw [hd, List.length_cons] at hn; omega) _ r (ws0_of_wsStop (hstop r)) hr
    have hu : unary (factor operand m) i = .ok (r, e') := by
      rw [unary_minus hws hf, hneg]
      rfl
    exact factor_of_unary hu
  · rw [hd, hde, List.cons_append, List.cons_append]
    exact wsStop_minus fun h => hc (by simp [h])

/-- A sum in parentheses is read back by the factor parser. -/
theorem factorReads_nested
    (h : Chain arithmeticOperators (Chain termOperators (FactorReads operand fmt)) e) :
    FactorReads operand fmt (.nested e) := by
  refine ⟨fun n hn i r hws hr => ?_, fun r => ?_⟩
  · obtain ⟨m, rfl⟩ : ∃ m, n = m + 1 := ⟨n - 1, by omega⟩
    simp only [display_nested, List.cons_append, List.append_assoc] at hws hn
    have hclose : ws0 (')' :: r) = .ok (')' :: r, ()) :=
      ws0_of_wsStop (wsStop_of_head rfl (by decide) (by decide))
    have hinner : arithmeticOf (factor operand m) (e.display fmt ++ ')' :: r) =
        .ok (')' :: r, e) :=
      arithmeticOf_reads h (by simp at hn; omega)
        (ws0_of_wsStop ((h.wsStop (fun t ht => ht.wsStop fun f hf => hf.2)) _))
        (Or.inr (Or.inl rfl))
    have hu : Fails (unary (factor operand m)) i := unary_fails hws (by simp) (by simp)
    exact factor_of_parens hu (parens_of_ok hws hinner hclose)
  · rw [display_nested, List.cons_append]
    exact wsStop_of_head rfl (by decide) (by decide)

/-- Every printable expression is read back at its level. -/
theorem reads_of_printable {lv : Level} (h : Printable operand fmt lv e) :
    Reads operand fmt lv e := by
  induction h with
  | leaf hl => exact factorReads_leaf hl
  | negated hl hneg hd => exact factorReads_negated hl hneg hd
  | nested _ ih => exact factorReads_nested ih
  | factor _ ih => exact Chain.single ih
  | product _ hop _ ihl ihf => exact ihl.snoc hop ihf
  | term _ ih => exact Chain.single ih
  | sum _ hop _ ihl iht => exact ihl.snoc hop iht

/-- The display of every printable expression, before text that ends an expression, parses
back to the expression. -/
theorem arithmetic_display (h : Printable operand fmt .sum e) {r : List Char}
    (hr : EndsExpr r) : arithmetic operand (e.display fmt ++ r) = .ok (r, e) := by
  have hreads : Chain arithmeticOperators (Chain termOperators (FactorReads operand fmt)) e :=
    reads_of_printable h
  have hstop : WsStop (e.display fmt ++ r) :=
    hreads.wsStop (fun t ht => ht.wsStop fun f hf => hf.2) r
  exact arithmeticOf_reads hreads (by rw [List.length_append]; omega) (ws0_of_wsStop hstop) hr

/-! ### A unary minus the printer regroups -/

/-- `l op -(s)` is read as `l op (-1 * (s))`: term reads `l`, then the operator, and the
unary minus makes the product of `-1` and the parenthesized sum. -/
theorem arithmetic_unary_nested {l s : Expr} {op : BinaryOperator}
    (hl : Printable operand fmt .term l) (hop : op ∈ termOperators)
    (hs : Printable operand fmt .sum s) :
    arithmetic operand
        (l.display fmt ++ ' ' :: op.text :: ' ' :: '-' :: (Expr.nested s).display fmt) =
      .ok ([], .binary l op (.binary (.literal (.integer (-1))) .mul (.nested s))) := by
  obtain ⟨f₀, items, rfl, h₀, hitems⟩ : Chain termOperators (FactorReads operand fmt) l :=
    reads_of_printable hl
  have hs' : FactorReads operand fmt (.nested s) := reads_of_printable (Printable.nested hs)
  have hle := length_le_flatMap_itemText fmt items
  have hlen₀ := length_display_le_reduceExpr fmt f₀ items
  have hlen : ((reduceExpr f₀ items).display fmt ++
      ' ' :: op.text :: ' ' :: '-' :: (Expr.nested s).display fmt).length =
      ((reduceExpr f₀ items).display fmt).length + ((Expr.nested s).display fmt).length + 4 := by
    simp only [List.length_append, List.length_cons]
    omega
  -- the fuel of the whole text, and the passes term's loop has when it reaches the items
  obtain ⟨n, hn⟩ : ∃ n, n = ((reduceExpr f₀ items).display fmt ++
      ' ' :: op.text :: ' ' :: '-' :: (Expr.nested s).display fmt).length + 1 := ⟨_, rfl⟩
  have hrest : (items.flatMap (itemText fmt) ++
      ' ' :: op.text :: ' ' :: '-' :: (Expr.nested s).display fmt).length + 1 =
      ((items.flatMap (itemText fmt) ++
        ' ' :: op.text :: ' ' :: '-' :: (Expr.nested s).display fmt).length - items.length) +
        1 + items.length := by
    simp only [List.length_append, List.length_cons]
    omega
  have hlenD : ((reduceExpr f₀ items).display fmt).length =
      (f₀.display fmt).length + (items.flatMap (itemText fmt)).length := by
    rw [display_reduceExpr, List.length_append]
  have hfirst : factor operand n ((reduceExpr f₀ items).display fmt ++
      ' ' :: op.text :: ' ' :: '-' :: (Expr.nested s).display fmt) =
      .ok (items.flatMap (itemText fmt) ++
        ' ' :: op.text :: ' ' :: '-' :: (Expr.nested s).display fmt, f₀) := by
    rw [display_reduceExpr, List.append_assoc]
    refine h₀.1 n (by omega) _ _ (ws0_of_wsStop (h₀.2 _)) ?_
    cases items with
    | nil => exact Or.inr (Or.inl rfl)
    | cons x xs => exact Or.inr (Or.inl (by simp [itemText]))
  have hloop := many0Loop_flatMap (p := pair termOperator (factor operand n))
    (Q := EndsOperand) (r := ' ' :: op.text :: ' ' :: '-' :: (Expr.nested s).display fmt)
    (Or.inr (Or.inl rfl)) items
    (fun x hx => ⟨itemText_ne_nil fmt x, termItem_reads (hitems x hx).1 (hitems x hx).2
      (by have := length_display_lt_of_mem fmt hx f₀; omega)⟩)
    (fun x _ rest => Or.inr (Or.inl (by simp [itemText])))
    ((items.flatMap (itemText fmt) ++
      ' ' :: op.text :: ' ' :: '-' :: (Expr.nested s).display fmt).length - items.length + 1) []
  -- the unary minus before the parenthesized sum
  have hminus : factor operand n (' ' :: '-' :: (Expr.nested s).display fmt) =
      .ok ([], .binary (.literal (.integer (-1))) .mul (.nested s)) := by
    obtain ⟨m, rfl⟩ : ∃ m, n = m + 1 := ⟨n - 1, by omega⟩
    have hf := hs'.1 m (by omega) _ [] (ws0_of_wsStop (hs'.2 [])) (Or.inl rfl)
    rw [List.append_nil] at hf
    have hws : ws0 (' ' :: '-' :: (Expr.nested s).display fmt) =
        .ok ('-' :: (Expr.nested s).display fmt, ()) := by
      rw [display_nested]
      exact ws0_space (wsStop_minus (by decide))
    refine factor_of_unary ?_
    rw [unary_minus hws hf]
    rfl
  have hlast : pair termOperator (factor operand n)
      (' ' :: op.text :: ' ' :: '-' :: (Expr.nested s).display fmt) =
      .ok ([], (op, .binary (.literal (.integer (-1))) .mul (.nested s))) := by
    rw [pair_of_ok (termOperator_text hop _), map_of_ok hminus]
  have hstop : Fails (pair termOperator (factor operand n)) [] :=
    pair_fails_left (termOperator_fails (ws0_of_wsStop wsStop_nil) (by simp))
  have hterm : term (factor operand n) ((reduceExpr f₀ items).display fmt ++
      ' ' :: op.text :: ' ' :: '-' :: (Expr.nested s).display fmt) =
      .ok ([], .binary (reduceExpr f₀ items) op
        (.binary (.literal (.integer (-1))) .mul (.nested s))) := by
    rw [term_of_ok hfirst, many0, hrest, hloop, many0Loop_of_ok hlast (by simp),
      many0Loop_stop hstop (by simp only [List.length_append, List.length_cons]; omega)]
    simp only [List.nil_append, reduceExpr_append_singleton]
  have hsum : Fails (pair arithmeticOperator (cut (term (factor operand n)))) [] :=
    pair_fails_left (arithmeticOperator_fails (ws0_of_wsStop wsStop_nil) (by simp))
  show arithmeticOf (factor operand (_ + 1)) _ = _
  rw [← hn, arithmeticOf_of_ok hterm, many0, many0Loop_stop hsum (by simp)]
  rfl

/-- A unary minus before a parenthesized sum, after an operator of precedence 2, is read as
`-1 *` the sum, a product the printer writes without parentheses: the display of what
`l op -(s)` is read as, read again, is `(l op -1) * (s)`. -/
theorem arithmetic_reprint_regroups {l s : Expr} {op : BinaryOperator}
    (hl : Printable operand fmt .term l) (hop : op ∈ termOperators)
    (hs : Printable operand fmt .sum s) (hone : Leaf operand fmt (.literal (.integer 1))) :
    arithmetic operand
        (l.display fmt ++ ' ' :: op.text :: ' ' :: '-' :: (Expr.nested s).display fmt) =
      .ok ([], .binary l op (.binary (.literal (.integer (-1))) .mul (.nested s))) ∧
    arithmetic operand
        ((Expr.binary l op (.binary (.literal (.integer (-1))) .mul (.nested s))).display fmt) =
      .ok ([], .binary (.binary l op (.literal (.integer (-1)))) .mul (.nested s)) ∧
    Expr.binary (.binary l op (.literal (.integer (-1)))) .mul (.nested s) ≠
      .binary l op (.binary (.literal (.integer (-1))) .mul (.nested s)) := by
  have hneg : Printable operand fmt .factor (.literal (.integer (-1))) :=
    .negated hone (fun _ => rfl) rfl
  refine ⟨?_, ?_, fun h => by simp at h⟩
  · exact arithmetic_unary_nested hl hop hs
  · have hprint : Printable operand fmt .sum
        (.binary (.binary l op (.literal (.integer (-1)))) .mul (.nested s)) :=
      .term (.product (.product hl hop hneg) (by decide) (.nested hs))
    have hd : (Expr.binary l op (.binary (.literal (.integer (-1))) .mul (.nested s))).display fmt =
        (Expr.binary (.binary l op (.literal (.integer (-1)))) .mul (.nested s)).display fmt := by
      simp [itemText]
    have h := arithmetic_display hprint (r := []) (Or.inl rfl)
    rwa [List.append_nil, ← hd] at h

end Printable

/-- The formats of an operand that reads integers only: no float or timestamp is printed. -/
def noFormats : LiteralFormats := ⟨fun _ => [], fun _ => []⟩

/-- An operand that reads integer literals after any whitespace. -/
def integerOperand : Parser Char Error Expr → Parser Char Error Expr := fun _ =>
  preceded ws0 (map integerLiteral .literal)

theorem display_integer_of_nonneg (fmt : LiteralFormats) {v : ℤ} (h : 0 ≤ v) :
    (Expr.literal (.integer v)).display fmt = natText v.toNat := by
  show intText v = _
  rw [intText, if_neg (Int.not_lt.2 h)]

/-- The integer operand reads back every non-negative `i64`. -/
theorem leaf_integerOperand (fmt : LiteralFormats) {v : ℤ} (h0 : 0 ≤ v) (h : v < 2 ^ 63) :
    Leaf integerOperand fmt (.literal (.integer v)) := by
  obtain ⟨c, t, hct⟩ := List.exists_cons_of_ne_nil (natText_ne_nil v.toNat)
  have hc : c.isDigit = true := isDigit_of_mem_natText (hct ▸ List.mem_cons_self)
  refine ⟨⟨c, t, by rw [display_integer_of_nonneg fmt h0, hct], isBlank_of_isDigit hc, ?_⟩, ?_⟩
  · intro hm
    have hm' : c = '+' ∨ c = '-' ∨ c = '/' ∨ c = '(' := by simpa using hm
    rcases hm' with rfl | rfl | rfl | rfl <;> revert hc <;> decide
  · intro arith i r hws hr
    have hdig : HeadNot Char.isDigit r := by
      rcases hr with rfl | hr | hr
      · exact headNot_nil _
      · intro c hc
        rw [hr, Option.mem_some_iff] at hc
        subst hc
        rfl
      · intro c hc
        rw [hr, Option.mem_some_iff] at hc
        subst hc
        rfl
    have hv : v.toNat < 2 ^ 63 := by omega
    rw [integerOperand, preceded_of_ok hws, display_integer_of_nonneg fmt h0,
      map_of_ok (integerLiteral_natText hv hdig), Int.toNat_of_nonneg h0]

theorem arithmetic_reprint_regroups_one_div_two :
    arithmetic integerOperand "1 / -(2)".toList =
        .ok ([], .binary (.literal (.integer 1)) .div
          (.binary (.literal (.integer (-1))) .mul (.nested (.literal (.integer 2))))) ∧
      arithmetic integerOperand "1 / -1 * (2)".toList =
        .ok ([], .binary (.binary (.literal (.integer 1)) .div (.literal (.integer (-1)))) .mul
          (.nested (.literal (.integer 2)))) ∧
      Expr.binary (.binary (.literal (.integer 1)) .div (.literal (.integer (-1)))) .mul
          (.nested (.literal (.integer 2))) ≠
        .binary (.literal (.integer 1)) .div
          (.binary (.literal (.integer (-1))) .mul (.nested (.literal (.integer 2)))) := by
  have h := arithmetic_reprint_regroups
    (.factor (.leaf (leaf_integerOperand noFormats (v := 1) (by decide) (by decide))))
    (by decide : BinaryOperator.div ∈ termOperators)
    (.term (.factor (.leaf (leaf_integerOperand noFormats (v := 2) (by decide) (by decide)))))
    (leaf_integerOperand noFormats (v := 1) (by decide) (by decide))
  have hread : (Expr.literal (.integer 1)).display noFormats ++ ' ' :: BinaryOperator.div.text ::
      ' ' :: '-' :: (Expr.nested (.literal (.integer 2))).display noFormats =
      "1 / -(2)".toList := by decide
  have hprint : (Expr.binary (.literal (.integer 1)) .div (.binary (.literal (.integer (-1))) .mul
      (.nested (.literal (.integer 2))))).display noFormats = "1 / -1 * (2)".toList := by decide
  rwa [hread, hprint] at h

end IoxCore.Influxql

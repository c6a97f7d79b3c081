import IoxCore.Influxql.Lexical

/-!
# Arithmetic expressions: the parser and the printer

The precedence parser of `expression/arithmetic.rs` (`unary`, `parens`, `factor`, `term`,
`arithmetic` and `reduce_expr`) and the `Display` of `Expr`, `Binary`, `Call` and
`BinaryOperator`.

## The model

The parser is generic in its operand, as the crate's is in `ArithmeticParsers::operand`; the
operand is given the arithmetic parser, since a call expression parses its arguments with
it. The mutual recursion of `factor` through `unary` and `parens` is bounded by a fuel, one
more than the length of the input: each level consumes a sign or a parenthesis before the
next (and an operand its call name and parenthesis), so an operand that consumes before it
recurses never meets the bound.

A unary minus negates a literal, `i64` and durations wrapping at `i64::MIN` as a release
build does and a float by its sign bit; before a variable, a call, a parenthesized
expression or a bind parameter it becomes `-1 * e`.

A variable reference is printed without a cast and a wildcard without a type, the two
fields `Expr` leaves out.
-/

namespace IoxCore.Influxql

open Nom RustStr

/-- UnaryOperator. -/
inductive UnaryOperator where
  | plus
  | minus
  deriving DecidableEq

/-- Display for BinaryOperator: the character of the operator. -/
def BinaryOperator.text : BinaryOperator → Char
  | .add => '+'
  | .sub => '-'
  | .mul => '*'
  | .div => '/'
  | .mod => '%'
  | .bitwiseAnd => '&'
  | .bitwiseOr => '|'
  | .bitwiseXor => '^'

/-! ### The printer -/

section Display

variable (fmt : LiteralFormats)

mutual

/-- Display for Expr. -/
def Expr.display : Expr → List Char
  | .varRef name => identifierText name.toList
  | .bindParameter name => bindParameterText name.toList
  | .literal v => v.display fmt
  | .wildcard => ['*']
  | .distinct name => "DISTINCT ".toList ++ identifierText name.toList
  | .call name args => name.toList ++ '(' :: Expr.displayArgs args ++ [')']
  | .binary lhs op rhs => Expr.display lhs ++ ' ' :: op.text :: ' ' :: Expr.display rhs
  | .nested e => '(' :: Expr.display e ++ [')']

/-- Display for Call: the arguments, separated by `, `. -/
def Expr.displayArgs : List Expr → List Char
  | [] => []
  | [e] => Expr.display e
  | e :: es => Expr.display e ++ ',' :: ' ' :: Expr.displayArgs es

end

/-- The text an operator and its right operand add to a binary expression. -/
def itemText (x : BinaryOperator × Expr) : List Char := ' ' :: x.1.text :: ' ' :: x.2.display fmt

end Display

/-! ### The parser -/

/-- reduce_expr: the operands after the first, folded to the left with their operators. -/
def reduceExpr (expr : Expr) (remainder : List (BinaryOperator × Expr)) : Expr :=
  remainder.foldl (fun lhs val => .binary lhs val.1 val.2) expr

/-- Negation of an `i64`, which wraps at `i64::MIN`. -/
def negI64 (v : ℤ) : ℤ := if v = -2 ^ 63 then v else -v

/-- What a unary minus makes of the factor after it, or the failure it raises at `i`. -/
def negate (i : List Char) : Expr → Except (Err Error) Expr
  | .literal (.float v) => .ok (.literal (.float (v ^^^ 0x8000000000000000)))
  | .literal (.integer v) => .ok (.literal (.integer (negI64 v)))
  | .literal (.duration v) => .ok (.literal (.duration (negI64 v)))
  | .literal (.unsigned v) =>
    -- the minimum `i64` is read as an unsigned literal, since it exceeds `i64::MAX`
    if v = 2 ^ 63 then .ok (.literal (.integer (-2 ^ 63)))
    else .error (.failure (.syntaxError i "constant overflows signed integer"))
  | .varRef name => .ok (.binary (.literal (.integer (-1))) .mul (.varRef name))
  | .call name args => .ok (.binary (.literal (.integer (-1))) .mul (.call name args))
  | .nested e => .ok (.binary (.literal (.integer (-1))) .mul (.nested e))
  | .bindParameter name => .ok (.binary (.literal (.integer (-1))) .mul (.bindParameter name))
  | _ => .error (.failure (.syntaxError i
      "unexpected unary expression: expected literal integer, float, duration, field, function or parenthesis"))

/-- `value(op, char(c))`: the operator whose character is next. -/
def operatorChar (op : BinaryOperator) : Parser Char Error BinaryOperator :=
  map (char op.text) fun _ => op

/-- The sign of a unary expression. -/
def unaryOperator : Parser Char Error UnaryOperator :=
  preceded ws0 (alt (map (char '+') fun _ => .plus) [map (char '-') fun _ => .minus])

/-- The operators of precedence 2: multiplication, division, bitwise and, modulus. -/
def termOperator : Parser Char Error BinaryOperator :=
  preceded ws0 (alt (operatorChar .mul) [operatorChar .div, operatorChar .bitwiseAnd,
    operatorChar .mod])

/-- The operators of precedence 3: addition, subtraction, bitwise or, bitwise xor. -/
def arithmeticOperator : Parser Char Error BinaryOperator :=
  preceded ws0 (alt (operatorChar .add) [operatorChar .sub, operatorChar .bitwiseOr,
    operatorChar .bitwiseXor])

/-- unary: a sign, then a factor; a minus negates it. -/
def unary (factor : Parser Char Error Expr) : Parser Char Error Expr := fun i =>
  match unaryOperator i with
  | .error e => .error e
  | .ok (i, op) =>
    match factor i with
    | .error e => .error e
    | .ok (i, e) => if op = .minus then (negate i e).map fun e => (i, e) else .ok (i, e)

/-- parens: an arithmetic expression in parentheses. -/
def parens (arithmetic : Parser Char Error Expr) : Parser Char Error Expr :=
  delimited (preceded ws0 (char '(')) (map arithmetic .nested) (preceded ws0 (char ')'))

/-- term: a factor and the operators of precedence 2 with their factors. -/
def term (factor : Parser Char Error Expr) : Parser Char Error Expr := fun i =>
  match factor i with
  | .error e => .error e
  | .ok (i, left) =>
    match many0 (pair termOperator factor) i with
    | .error e => .error e
    | .ok (i, remaining) => .ok (i, reduceExpr left remaining)

/-- The body of arithmetic over a factor parser: a term and the operators of precedence 3
with their terms, which must follow. -/
def arithmeticOf (factor : Parser Char Error Expr) : Parser Char Error Expr := fun i =>
  match term factor i with
  | .error e => .error e
  | .ok (i, left) =>
    match many0 (pair arithmeticOperator (cut (term factor))) i with
    | .error e => .error e
    | .ok (i, remaining) => .ok (i, reduceExpr left remaining)

section Grammar

variable (operand : Parser Char Error Expr → Parser Char Error Expr)

/-- factor: a unary expression, a parenthesized expression or an operand, nested at most
`fuel` deep. -/
def factor : ℕ → Parser Char Error Expr
  | 0 => fun i => .error (.failure (.syntaxError i "expression nested deeper than its text"))
  | fuel + 1 => alt (unary (factor fuel))
      [parens (arithmeticOf (factor fuel)), operand (arithmeticOf (factor fuel))]

/-- arithmetic: an arithmetic expression. -/
def arithmetic : Parser Char Error Expr := fun i =>
  arithmeticOf (factor operand (i.length + 1)) i

end Grammar

/-! ### Properties of the printer -/

section DisplayLemmas

variable (fmt : LiteralFormats)

@[simp] theorem display_binary (lhs rhs : Expr) (op : BinaryOperator) :
    (Expr.binary lhs op rhs).display fmt =
      lhs.display fmt ++ itemText fmt (op, rhs) := rfl

@[simp] theorem display_nested (e : Expr) :
    (Expr.nested e).display fmt = '(' :: e.display fmt ++ [')'] := rfl

@[simp] theorem reduceExpr_nil (e : Expr) : reduceExpr e [] = e := rfl

theorem reduceExpr_append_singleton (e : Expr) (items : List (BinaryOperator × Expr))
    (x : BinaryOperator × Expr) :
    reduceExpr e (items ++ [x]) = .binary (reduceExpr e items) x.1 x.2 := by
  simp [reduceExpr]

/-- The display of a chain folded by reduce_expr: the first operand, then each operator
with its operand. -/
theorem display_reduceExpr (e : Expr) (items : List (BinaryOperator × Expr)) :
    (reduceExpr e items).display fmt = e.display fmt ++ items.flatMap (itemText fmt) := by
  induction items using List.reverseRecOn with
  | nil => simp
  | append_singleton items x ih =>
    rw [reduceExpr_append_singleton, display_binary, ih]
    simp

theorem itemText_ne_nil (x : BinaryOperator × Expr) : itemText fmt x ≠ [] := by
  simp [itemText]

end DisplayLemmas

/-! ### Steps of the parser -/

/-- What ws0 leaves of a blank, an operator and a blank: the operator. -/
theorem ws0_operator (op : BinaryOperator) (r : List Char) :
    ws0 (' ' :: op.text :: ' ' :: r) = .ok (op.text :: ' ' :: r, ()) := by
  have hstop : WsStop (op.text :: ' ' :: r) := by
    refine ⟨headNot_cons.2 (by cases op <;> rfl), ?_, ?_⟩
    · rintro ⟨t, ht⟩
      cases op <;> simp [BinaryOperator.text] at ht
    · rintro ⟨t, ht⟩
      cases op <;> simp [BinaryOperator.text] at ht
  exact ws0_space hstop

/-- The operators of precedence 2, as term lists them. -/
def termOperators : List BinaryOperator := [.mul, .div, .bitwiseAnd, .mod]

/-- The operators of precedence 3, as arithmetic lists them. -/
def arithmeticOperators : List BinaryOperator := [.add, .sub, .bitwiseOr, .bitwiseXor]

theorem operatorChar_text (op : BinaryOperator) (r : List Char) :
    operatorChar op (op.text :: r) = .ok (r, op) := by
  simp [operatorChar, char, map]

theorem operatorChar_fails {op : BinaryOperator} {i : List Char}
    (h : i.head? ≠ some op.text) : Fails (operatorChar op) i :=
  map_fails (char_fails h)

/-- A list of operator characters tried in turn reads the operator of a character in it. -/
theorem alt_operatorChar_text {op o : BinaryOperator} {os : List BinaryOperator}
    (hop : op ∈ o :: os) (hinj : ∀ a ∈ o :: os, ∀ b ∈ o :: os, a.text = b.text → a = b)
    (r : List Char) :
    alt (operatorChar o) (os.map operatorChar) (op.text :: r) = .ok (r, op) := by
  induction os generalizing o with
  | nil =>
    obtain rfl : op = o := by simpa using hop
    simp [alt, operatorChar_text]
  | cons o' os ih =>
    by_cases ho : op = o
    · subst ho
      simp [alt, operatorChar_text]
    · have hne : (op.text :: r).head? ≠ some o.text := by
        intro h
        exact ho (hinj op hop o List.mem_cons_self (by simpa using h))
      obtain ⟨e, he⟩ := operatorChar_fails hne
      rw [List.map_cons, alt_of_error he]
      exact ih (by simpa [ho] using hop)
        (fun a ha b hb => hinj a (List.mem_cons_of_mem o ha) b (List.mem_cons_of_mem o hb))

/-- No operator of the list has the character next: the alternatives all fail. -/
theorem alt_operatorChar_fails {o : BinaryOperator} {os : List BinaryOperator} {i : List Char}
    (h : ∀ a ∈ o :: os, i.head? ≠ some a.text) :
    Fails (alt (operatorChar o) (os.map operatorChar)) i := by
  induction os generalizing o with
  | nil => exact alt_nil_fails (operatorChar_fails (h o List.mem_cons_self))
  | cons o' os ih =>
    exact alt_fails_cons (operatorChar_fails (h o List.mem_cons_self))
      (ih fun a ha => h a (List.mem_cons_of_mem o ha))

theorem termOperator_eq : termOperator =
    preceded ws0 (alt (operatorChar .mul) ([.div, .bitwiseAnd, .mod].map operatorChar)) := rfl

theorem arithmeticOperator_eq : arithmeticOperator =
    preceded ws0 (alt (operatorChar .add) ([.sub, .bitwiseOr, .bitwiseXor].map operatorChar)) :=
  rfl

/-- An operator of precedence 2 between blanks. -/
theorem termOperator_text {op : BinaryOperator} (hop : op ∈ termOperators) (r : List Char) :
    termOperator (' ' :: op.text :: ' ' :: r) = .ok (' ' :: r, op) := by
  rw [termOperator_eq, preceded_of_ok (ws0_operator op r)]
  exact alt_operatorChar_text hop (by decide) _

/-- An operator of precedence 3 between blanks. -/
theorem arithmeticOperator_text {op : BinaryOperator} (hop : op ∈ arithmeticOperators)
    (r : List Char) :
    arithmeticOperator (' ' :: op.text :: ' ' :: r) = .ok (' ' :: r, op) := by
  rw [arithmeticOperator_eq, preceded_of_ok (ws0_operator op r)]
  exact alt_operatorChar_text hop (by decide) _

variable {i r : List Char} {e : Expr} {f : Parser Char Error Expr}

theorem termOperator_fails (hws : ws0 i = .ok (r, ()))
    (h : ∀ a ∈ termOperators, r.head? ≠ some a.text) : Fails termOperator i := by
  rw [termOperator_eq]
  exact preceded_fails_right hws (alt_operatorChar_fails h)

theorem arithmeticOperator_fails (hws : ws0 i = .ok (r, ()))
    (h : ∀ a ∈ arithmeticOperators, r.head? ≠ some a.text) : Fails arithmeticOperator i := by
  rw [arithmeticOperator_eq]
  exact preceded_fails_right hws (alt_operatorChar_fails h)

/-- No sign is next: unary fails. -/
theorem unary_fails (hws : ws0 i = .ok (r, ()))
    (hp : r.head? ≠ some '+') (hm : r.head? ≠ some '-') : Fails (unary f) i := by
  have hop : Fails unaryOperator i :=
    preceded_fails_right hws
      (alt_fails_cons (map_fails (char_fails hp)) (alt_nil_fails (map_fails (char_fails hm))))
  obtain ⟨e, he⟩ := hop
  exact ⟨e, by simp [unary, he]⟩

/-- A minus is next: unary negates the factor after it. -/
theorem unary_minus {i r r' : List Char}
    (hws : ws0 i = .ok ('-' :: r, ())) (hf : f r = .ok (r', e)) :
    unary f i = (negate r' e).map fun e => (r', e) := by
  have hop : unaryOperator i = .ok (r, .minus) := by
    rw [unaryOperator, preceded_of_ok hws, alt_of_fails (map_fails (char_fails (by simp))),
      alt_nil_eq]
    exact map_of_ok (char_cons '-' r)
  simp [unary, hop, hf]

/-- No opening parenthesis is next: parens fails. -/
theorem parens_fails {a : Parser Char Error Expr} (hws : ws0 i = .ok (r, ()))
    (h : r.head? ≠ some '(') : Fails (parens a) i := by
  exact preceded_fails_left (preceded_fails_right hws (char_fails h))

/-- An expression in parentheses. -/
theorem parens_of_ok {a : Parser Char Error Expr} {i r r' : List Char}
    (hws : ws0 i = .ok ('(' :: r, ())) (ha : a r = .ok (')' :: r', e))
    (hws' : ws0 (')' :: r') = .ok (')' :: r', ())) :
    parens a i = .ok (r', .nested e) := by
  have hopen : preceded ws0 (char '(') i = .ok (r, '(') := by
    rw [preceded_of_ok hws, char_cons]
  have hclose : preceded ws0 (char ')') (')' :: r') = .ok (r', ')') := by
    rw [preceded_of_ok hws', char_cons]
  rw [parens, delimited, preceded_of_ok hopen]
  exact terminated_of_ok (map_of_ok ha) hclose

/-- A term after its first factor: the factor, then the loop over the items. -/
theorem term_of_ok {left : Expr} (hf : f i = .ok (r, left)) :
    term f i = match many0 (pair termOperator f) r with
      | .error e => .error e
      | .ok (i, remaining) => .ok (i, reduceExpr left remaining) := by
  simp only [term, hf]

theorem arithmeticOf_of_ok {left : Expr} (ht : term f i = .ok (r, left)) :
    arithmeticOf f i = match many0 (pair arithmeticOperator (cut (term f))) r with
      | .error e => .error e
      | .ok (i, remaining) => .ok (i, reduceExpr left remaining) := by
  simp only [arithmeticOf, ht]

theorem cut_of_ok {p : Parser Char Error Expr} (h : p i = .ok (r, e)) : cut p i = .ok (r, e) := by
  simp [cut, h]

section GrammarLemmas

variable {operand : Parser Char Error Expr → Parser Char Error Expr}

/-- A factor that is neither a unary nor a parenthesized expression is an operand. -/
theorem factor_of_operand {n : ℕ} {i : List Char} (hu : Fails (unary (factor operand n)) i)
    (hp : Fails (parens (arithmeticOf (factor operand n))) i) :
    factor operand (n + 1) i = operand (arithmeticOf (factor operand n)) i := by
  rw [factor, alt_of_fails hu, alt_of_fails hp, alt_nil_eq]

theorem factor_of_unary {n : ℕ} (h : unary (factor operand n) i = .ok (r, e)) :
    factor operand (n + 1) i = .ok (r, e) := by
  rw [factor, alt_of_ok h]

theorem factor_of_parens {n : ℕ} (hu : Fails (unary (factor operand n)) i)
    (h : parens (arithmeticOf (factor operand n)) i = .ok (r, e)) :
    factor operand (n + 1) i = .ok (r, e) := by
  rw [factor, alt_of_fails hu, alt_of_ok h]

end GrammarLemmas

end IoxCore.Influxql

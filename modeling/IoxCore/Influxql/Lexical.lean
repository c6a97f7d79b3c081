import IoxCore.Lib.Nom
import IoxCore.Lib.Parse
import IoxCore.Influxql.Expression

/-!
# The lexical layer of the InfluxQL parser

The error type of the parsers (`internal.rs`), whitespace and comments (`common.rs`), the
reserved keywords (`keywords.rs`), unquoted identifiers and bind parameters with the quoting
of their `Display` (`identifier.rs`, `parameter.rs`, `string.rs`), the integer literal and
the `Display` of literals (`literal.rs`).

## The model

Text is a list of characters, and a `Display` writes one. The parsers are those of
`IoxCore.Lib.Nom` over the parser error `Error`, which keeps, as the crate's `append` does,
the error of the last alternative. `many0_count` is `many0` counted, and a pass that succeeds
without consuming stops it with the kind `Many0` (the crate's parsers here always consume).

Two displays come from outside the crate: `Display` of `f64` and chrono's `to_rfc3339`.
`LiteralFormats` takes them as given; nothing proved here depends on them.

## Results

* `ws0_of_wsStop` and `ws0_space`: `ws0` consumes nothing before text that starts with no
  blank and no comment, and one blank before such text.
* `integerLiteral_natText`: the integer literal reads the decimal display of an `i64`.
* `durationText_one`: the display of a duration of one nanosecond is empty.
-/

namespace IoxCore.Influxql

open Nom RustStr

/-- Error: the error of the InfluxQL parsers, a syntax error with its message or the error
of a nom combinator. -/
inductive Error where
  /-- `Syntax`: a syntax error, raised by `map_fail`, `expect` and the crate's own checks. -/
  | syntaxError (input : List Char) (message : String)
  /-- The error of a nom combinator. -/
  | nom (input : List Char) (kind : ErrorKind)

/-- `append` keeps the error of the last alternative. -/
instance : ParseError Char Error where
  fromErrorKind := .nom
  append _ _ other := other

variable {α β : Type}

/-- With the crate's `append`, the error of the last alternative is its own. -/
theorem alt_nil_eq (p : Parser Char Error α) (i : List Char) : alt p [] i = p i := by
  cases h : p i with
  | ok r => simp [alt, h]
  | error e =>
    cases e with
    | error e =>
      simp only [alt, h]
      rfl
    | failure e => simp [alt, h]

/-- map_fail: the output of `p` mapped by `f`; where `f` fails, a failure with `message`
at what `p` left. -/
def mapFail (message : String) (p : Parser Char Error α) (f : α → Option β) :
    Parser Char Error β := fun i =>
  match p i with
  | .ok (r, a) =>
    match f a with
    | some b => .ok (r, b)
    | none => .error (.failure (.syntaxError r message))
  | .error e => .error e

/-- expect: a recoverable error of `p` becomes a failure with `message`. -/
def expect (message : String) (p : Parser Char Error α) : Parser Char Error α := fun i =>
  match p i with
  | .error (.error _) => .error (.failure (.syntaxError i message))
  | r => r

/-! ### Whitespace and comments -/

/-- comment_single_line: `--` up to the end of the line. -/
def commentSingleLine : Parser Char Error (List Char) :=
  recognize (pair (tag "--".toList) (takeTill fun c => c = '\n' || c = '\r'))

/-- comment_inline: a comment between `/*` and `*/`. -/
def commentInline : Parser Char Error (List Char) :=
  recognize (delimited (tag "/*".toList)
    (expect "invalid inline comment, missing closing */" (takeUntil "*/".toList))
    (tag "*/".toList))

/-- ws0: any whitespace, single-line and inline comments. -/
def ws0 : Parser Char Error Unit :=
  map (many0 (alt multispace1 [commentSingleLine, commentInline])) fun _ => ()

/-- The blanks `multispace1` reads. -/
def isBlank (c : Char) : Bool := c = ' ' || c = '\t' || c = '\r' || c = '\n'

theorem isBlank_of_isDigit {c : Char} (h : c.isDigit = true) : isBlank c = false := by
  have h₁ : c ≠ ' ' := by rintro rfl; revert h; decide
  have h₂ : c ≠ '\t' := by rintro rfl; revert h; decide
  have h₃ : c ≠ '\r' := by rintro rfl; revert h; decide
  have h₄ : c ≠ '\n' := by rintro rfl; revert h; decide
  simp [isBlank, h₁, h₂, h₃, h₄]

/-- Text where `ws0` stops at once: it starts with no blank and no comment. -/
def WsStop (i : List Char) : Prop :=
  HeadNot isBlank i ∧ ¬ "--".toList <+: i ∧ ¬ "/*".toList <+: i

theorem wsStop_of_head {c : Char} {i : List Char} (hb : isBlank c = false) (hc : c ≠ '-')
    (hs : c ≠ '/') : WsStop (c :: i) := by
  refine ⟨headNot_cons.2 hb, ?_, ?_⟩
  · rintro ⟨t, ht⟩
    exact hc (List.cons.inj ht).1.symm
  · rintro ⟨t, ht⟩
    exact hs (List.cons.inj ht).1.symm

/-- A minus before anything but a minus opens no comment. -/
theorem wsStop_minus {c : Char} {t : List Char} (hc : c ≠ '-') : WsStop ('-' :: c :: t) := by
  refine ⟨headNot_cons.2 rfl, ?_, fun ⟨u, hu⟩ => by simp at hu⟩
  rintro ⟨u, hu⟩
  simp at hu
  exact hc hu.1.symm

theorem wsStop_nil : WsStop [] :=
  ⟨headNot_nil _, fun ⟨_, h⟩ => by simp at h, fun ⟨_, h⟩ => by simp at h⟩

/-- No blank and no comment starts the text: the alternatives of `ws0` all fail. -/
theorem ws0_item_fails {i : List Char} (h : WsStop i) :
    Fails (alt multispace1 [commentSingleLine, commentInline]) i := by
  obtain ⟨hb, hd, hc⟩ := h
  refine alt_fails_cons (splitAtPosition1_fails hb) (alt_fails_cons ?_ (alt_nil_fails ?_))
  · exact recognize_fails (pair_fails_left (tag_fails hd))
  · exact recognize_fails (map_fails (pair_fails_left (tag_fails hc)))

theorem ws0_of_wsStop {i : List Char} (h : WsStop i) : ws0 i = .ok (i, ()) := by
  obtain ⟨e, he⟩ := ws0_item_fails h
  simp only [ws0, many0, many0Loop_of_error he, map]

/-- One blank before text where `ws0` stops. -/
theorem ws0_space {i : List Char} (h : WsStop i) : ws0 (' ' :: i) = .ok (i, ()) := by
  obtain ⟨e, he⟩ := ws0_item_fails h
  have hsp : alt multispace1 [commentSingleLine, commentInline] (' ' :: i) =
      .ok (i, [' ']) := by
    have hm : multispace1 (ε := Error) (' ' :: i) = .ok (i, [' ']) :=
      splitAtPosition1_append (s := [' ']) (by simp) (by simp) h.1
    exact alt_of_ok hm
  simp only [ws0, many0, map]
  rw [many0Loop_of_ok hsp (by simp), List.length_cons, many0Loop_of_error he]

/-! ### Keywords and identifiers -/

/-- keyword_follow_char: a keyword ends the text or is followed by a blank, a statement
terminator, a parenthesis, a comma or an operator. -/
def keywordFollowChar : Parser Char Error Unit := fun i =>
  match i with
  | [] => .ok (i, ())
  | c :: _ =>
    if c ∈ " \n\t;(),=!><+-/*|&^%".toList then .ok (i, ()) else .error (.error (.nom i .fail))

/-- KEYWORDS: the reserved keywords. -/
def keywords : List String :=
  ["ALL", "ALTER", "ANALYZE", "AND", "ANY", "AS", "ASC", "BEGIN", "BY", "CARDINALITY",
    "CREATE", "CONTINUOUS", "DATABASE", "DATABASES", "DEFAULT", "DELETE", "DESC",
    "DESTINATIONS", "DIAGNOSTICS", "DISTINCT", "DROP", "DURATION", "END", "EVERY", "EXACT",
    "EXPLAIN", "FIELD", "FOR", "FROM", "GRANT", "GRANTS", "GROUP", "GROUPS", "IN", "INF",
    "INSERT", "INTO", "KEY", "KEYS", "KILL", "LIMIT", "MEASUREMENT", "MEASUREMENTS", "NAME",
    "OFFSET", "OR", "ON", "ORDER", "PASSWORD", "POLICY", "POLICIES", "PRIVILEGES", "QUERIES",
    "QUERY", "READ", "REPLICATION", "RESAMPLE", "RETENTION", "REVOKE", "SELECT", "SERIES",
    "SET", "SHOW", "SHARD", "SHARDS", "SLIMIT", "SOFFSET", "STATS", "SUBSCRIPTION",
    "SUBSCRIPTIONS", "TAG", "TO", "USER", "USERS", "VALUES", "WHERE", "WITH", "WRITE"]

/-- Token equality: the same length and the same letters up to ASCII case. The crate
compares byte lengths; the tokens compared are ASCII, where the two agree. -/
def tokenEq (a b : List Char) : Bool :=
  a.length == b.length && (a.zip b).all fun p => p.1.toUpper == p.2.toUpper

/-- sql_keyword: a reserved keyword, followed by a character a keyword may be followed by. -/
def sqlKeyword : Parser Char Error (List Char) :=
  verify (terminated alpha1 keywordFollowChar) fun tok => keywords.any fun k => tokenEq tok k.toList

/-- unquoted_identifier: a letter or `_`, then letters, digits and `_`, and not a keyword. -/
def unquotedIdentifier : Parser Char Error (List Char) :=
  preceded (Nom.not sqlKeyword)
    (recognize (pair (alt alpha1 [tag "_".toList])
      (map (many0 (alt alphanumeric1 [tag "_".toList])) List.length)))

/-- unquoted_parameter: letters, digits and `_`, at least one. -/
def unquotedParameter : Parser Char Error (List Char) :=
  recognize (many1Count (alt alphanumeric1 [tag "_".toList]))

/-- write_escaped: each character written through the table of escapes. -/
def escapeWith (table : Char → Option (List Char)) (s : List Char) : List Char :=
  s.flatMap fun c => (table c).getD [c]

/-- Whether `p` reads all of `s`, the test of write_quoted_string. -/
def readsWhole (p : Parser Char Error α) (s : List Char) : Bool :=
  match terminated p eof s with
  | .ok _ => true
  | .error _ => false

/-- write_quoted_string: `s` as it is where `p` reads all of it, and otherwise between
quotes and escaped. -/
def writeQuotedString (quote : Char) (s : List Char) (p : Parser Char Error α)
    (table : Char → Option (List Char)) : List Char :=
  if readsWhole p s then s else quote :: escapeWith table s ++ [quote]

/-- The escapes of identifiers and bind parameters. -/
def identifierEscapes : Char → Option (List Char)
  | '\n' => some "\\n".toList
  | '\\' => some "\\\\".toList
  | '"' => some "\\\"".toList
  | _ => none

/-- Display for Identifier. -/
def identifierText (name : List Char) : List Char :=
  writeQuotedString '"' name unquotedIdentifier identifierEscapes

/-- Display for BindParameter. -/
def bindParameterText (name : List Char) : List Char :=
  '$' :: writeQuotedString '"' name unquotedParameter identifierEscapes

/-! ### Literals -/

/-- integer_literal: decimal digits, an `Integer` where they fit `i64`, an `Unsigned` where
they fit `u64`, and a failure otherwise. -/
def integerLiteral : Parser Char Error Literal :=
  mapFail "unable to parse integer due to overflow" digit1 fun s =>
    match parseI64 s with
    | some v => some (.integer v)
    | none => (parseU64 s).map .unsigned

/-- The displays the literals take from outside the crate: `Display` of `f64`, of the bits
of the value, and chrono's `to_rfc3339`, of nanoseconds since the epoch. -/
structure LiteralFormats where
  float : UInt64 → List Char
  timestamp : ℤ → List Char

/-- The escapes of string literals. -/
def stringEscapes : Char → Option (List Char)
  | '\n' => some "\\n".toList
  | '\\' => some "\\\\".toList
  | '\'' => some "\\'".toList
  | '"' => some "\\\"".toList
  | _ => none

/-- The escapes of regular expressions. -/
def regexEscapes : Char → Option (List Char)
  | '/' => some "\\/".toList
  | _ => none

/-- DIVISORS: the units of a duration in nanoseconds, largest first. -/
def divisors : List (ℕ × List Char) :=
  [(604800000000000, "w".toList), (86400000000000, "d".toList), (3600000000000, "h".toList),
    (60000000000, "m".toList), (1000000000, "s".toList), (1000000, "ms".toList),
    (1000, "us".toList), (1, "ns".toList)]

/-- Display for Duration: a sign, then for each unit smaller than the whole value the
count of it in what is left, where that count is not zero. -/
def durationText (d : ℤ) : List Char :=
  (if d < 0 then ['-'] else []) ++
    if d.natAbs = 0 then "0s".toList
    else ((divisors.filter fun u => d.natAbs > u.1).foldl
      (fun (acc : ℕ × List Char) u =>
        if acc.1 / u.1 > 0 then (acc.1 - acc.1 / u.1 * u.1, acc.2 ++ natText (acc.1 / u.1) ++ u.2)
        else acc)
      (d.natAbs, [])).2

/-- Display for Literal. -/
def Literal.display (fmt : LiteralFormats) : Literal → List Char
  | .integer v => intText v
  | .unsigned v => natText v
  | .float bits => fmt.float bits
  | .string v => '\'' :: escapeWith stringEscapes v.toList ++ ['\'']
  | .boolean v => if v then "true".toList else "false".toList
  | .duration v => durationText v
  | .regex v => '/' :: escapeWith regexEscapes v.toList ++ ['/']
  | .timestamp ts => fmt.timestamp ts

/-- The integer literal reads the decimal display of every non-negative `i64`. -/
theorem integerLiteral_natText {n : ℕ} (hn : n < 2 ^ 63) {r : List Char}
    (hr : HeadNot Char.isDigit r) :
    integerLiteral (natText n ++ r) = .ok (r, .integer n) := by
  have hd : digit1 (ε := Error) (natText n ++ r) = .ok (r, natText n) :=
    digit1_append (natText_ne_nil n) (fun c hc => isDigit_of_mem_natText hc) hr
  have hp : parseI64 (natText n) = some (n : ℤ) := by
    have h := parseI64_intText (v := (n : ℤ)) (by omega) (by exact_mod_cast hn)
    rwa [intText, if_neg (by omega), Int.toNat_natCast] at h
  simp only [integerLiteral, mapFail, hd, hp]

/-- A duration of one nanosecond is displayed as nothing: no unit is smaller than it. -/
theorem durationText_one : durationText 1 = [] := by decide +kernel

example : durationText 1000 = "1000ns".toList := by decide +kernel
example : identifierText "cpu".toList = "cpu".toList := by decide +kernel
example : identifierText "select".toList = "\"select\"".toList := by decide +kernel

end IoxCore.Influxql

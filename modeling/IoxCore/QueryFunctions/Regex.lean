import Mathlib.Data.List.Basic

/-!
# query_functions: cleaning Go regex escapes

A model of `clean_non_meta_escapes` (src/query_functions/src/regex.rs), which rewrites an
InfluxDB regex written for Go's `regexp` before the `regex` crate compiles it: it drops the
backslash of every escape that `is_valid_character_after_escape` does not list.

## The model

A pattern is its list of characters. The code's `filter_map` over the characters zipped with
their successors, with the closure's `next_state`, is `cleanLoop` over `zipNext`;
`regex_syntax::is_meta_character` is taken from regex-syntax 0.8, the version the crate
depends on.

## What is proved

`cleanNonMetaEscapes_eq_unescapeInvalid`: the three-state automaton reads the pattern as Go
does, a backslash and the next character as one escape, so that a backslash that follows an
escaped backslash opens a new escape; it drops exactly the backslash of each escape whose
character is not on the list and keeps every other character in order. The list leaves out
escapes the `regex` crate does accept (`\n`, `\t`, `\r`, `\f`, `\v`, `\a`, `\A`, `\z`, `\b`,
`\B`), so a pattern the crate compiles can still be changed, and its meaning with it
(`cleanNonMetaEscapes_drops_newline_escape`).
-/

namespace IoxCore.QueryFunctions

/-- `regex_syntax::is_meta_character` (regex-syntax 0.8): the characters with a meaning of their
own in a pattern. -/
def isMetaCharacter (c : Char) : Bool :=
  ['\\', '.', '+', '*', '?', '(', ')', '|', '[', ']', '\x7b', '\x7d', '^', '$', '#', '&', '-', '~'].contains c

/-- `is_valid_character_after_escape`, its arms in the source's order. -/
def isValidCharacterAfterEscape (c : Char) : Bool :=
  ('0' ≤ c && c ≤ '7') || ('8' ≤ c && c ≤ '9') ||
    (c == 'x' || c == 'u' || c == 'U') ||
    (c == 'p' || c == 'P') ||
    (c == 'd' || c == 's' || c == 'w' || c == 'D' || c == 'S' || c == 'W') ||
    isMetaCharacter c

/-- `SlashState`: where the last characters leave a run of backslashes. -/
inductive SlashState where
  | no
  | single
  | double
  deriving DecidableEq, Repr

/-- The closure's update of `next_state` on the character `c`. -/
def SlashState.next (curState : SlashState) (c : Char) : SlashState :=
  match c, curState with
  | '\\', .no => .single
  | '\\', .single => .double
  | '\\', .double => .single
  | _, _ => .no

/-- The closure's decision to emit `c`: a backslash that does not follow a single one is
dropped when the character after it is not on the list. -/
def emit (curState : SlashState) (c : Char) (nextChar : Option Char) : Option Char :=
  match curState, c, nextChar with
  | .no, '\\', some n | .double, '\\', some n =>
    if !isValidCharacterAfterEscape n then none else some c
  | _, _, _ => some c

/-- `pattern.chars().zip(next_chars)`: each character with its successor, `None` after the
last. -/
def zipNext (pattern : List Char) : List (Char × Option Char) :=
  pattern.zip ((pattern.drop 1).map some ++ [none])

/-- The `filter_map` of the code, threading `next_state`. -/
def cleanLoop : SlashState → List (Char × Option Char) → List Char
  | _, [] => []
  | curState, (c, nextChar) :: rest =>
    match emit curState c nextChar with
    | some d => d :: cleanLoop (curState.next c) rest
    | none => cleanLoop (curState.next c) rest

/-- `clean_non_meta_escapes`. -/
def cleanNonMetaEscapes (pattern : List Char) : List Char :=
  if pattern.isEmpty then pattern else cleanLoop .no (zipNext pattern)

/-- What the cleaning is meant to do, read the way Go reads a pattern: a backslash and the
character after it form one escape, whose backslash is dropped when the character is not on
the list. A backslash at the end is kept. -/
def unescapeInvalid : List Char → List Char
  | '\\' :: c :: rest =>
    (if isValidCharacterAfterEscape c then ['\\', c] else [c]) ++ unescapeInvalid rest
  | c :: rest => c :: unescapeInvalid rest
  | [] => []

/-! ## The automaton reads escapes in pairs -/

theorem zipNext_cons (c : Char) (rest : List Char) :
    zipNext (c :: rest) = (c, rest.head?) :: zipNext rest := by
  cases rest <;> simp [zipNext]

/-- The states `no` and `double` behave alike: both start a new escape at a backslash. -/
def SlashState.AtEscapeStart (s : SlashState) : Prop := s = .no ∨ s = .double

/-- A character other than a backslash ends any run, and is emitted. -/
theorem cleanLoop_other {s : SlashState} {c : Char} (hc : c ≠ '\\') (rest : List Char) :
    cleanLoop s (zipNext (c :: rest)) = c :: cleanLoop .no (zipNext rest) := by
  have hnext : s.next c = .no := by
    cases s <;> simp [SlashState.next, hc]
  have hemit : emit s c rest.head? = some c := by
    cases s <;> simp [emit, hc]
  rw [zipNext_cons, cleanLoop, hemit, hnext]

/-- An escape that starts where a new one may start: its backslash is kept exactly when its
character is on the list, the character itself is kept, and the next escape may start after
it. -/
theorem cleanLoop_escape {s : SlashState} (hs : s.AtEscapeStart) (c : Char) (rest : List Char) :
    ∃ s', s'.AtEscapeStart ∧ cleanLoop s (zipNext ('\\' :: c :: rest)) =
      (if isValidCharacterAfterEscape c then ['\\', c] else [c]) ++ cleanLoop s' (zipNext rest) := by
  have hsingle : s.next '\\' = .single := by
    rcases hs with rfl | rfl <;> rfl
  have hemit : emit s '\\' (some c) = if isValidCharacterAfterEscape c then some '\\' else none := by
    rcases hs with rfl | rfl <;> cases hv : isValidCharacterAfterEscape c <;> simp [emit, hv]
  -- the escaped character follows a single backslash, so it is emitted whatever it is
  have hchar : emit .single c rest.head? = some c := by
    simp [emit]
  refine ⟨SlashState.single.next c, ?_, ?_⟩
  · by_cases hc : c = '\\'
    · subst hc
      exact .inr rfl
    · exact .inl (by simp [SlashState.next, hc])
  · rw [zipNext_cons, zipNext_cons, cleanLoop, List.head?_cons, hemit, hsingle]
    cases isValidCharacterAfterEscape c <;> simp [cleanLoop, hchar]

/-- From a state where an escape may start, the automaton computes `unescapeInvalid`: one case
per equation of `unescapeInvalid`. -/
theorem cleanLoop_eq_unescapeInvalid (pattern : List Char) :
    ∀ s : SlashState, s.AtEscapeStart → cleanLoop s (zipNext pattern) = unescapeInvalid pattern := by
  induction pattern using unescapeInvalid.induct with
  | case1 c rest ih =>
    intro s hs
    obtain ⟨s', hs', heq⟩ := cleanLoop_escape hs c rest
    rw [heq, ih s' hs', unescapeInvalid]
  | case2 c rest hnot ih =>
    intro s hs
    by_cases hc : c = '\\'
    · -- a backslash with nothing after it is kept
      subst hc
      obtain rfl : rest = [] := by
        cases rest with
        | nil => rfl
        | cons d rest => exact (hnot d rest rfl rfl).elim
      rcases hs with rfl | rfl <;> rfl
    · rw [cleanLoop_other hc, ih .no (.inl rfl), unescapeInvalid]
      · simpa using hnot
  | case3 => intro s _; rfl

theorem cleanNonMetaEscapes_eq_unescapeInvalid (pattern : List Char) :
    cleanNonMetaEscapes pattern = unescapeInvalid pattern := by
  unfold cleanNonMetaEscapes
  split
  · next h =>
    rw [List.isEmpty_iff.1 h]
    rfl
  · exact cleanLoop_eq_unescapeInvalid pattern .no (.inl rfl)

/-- `\n`, which the `regex` crate compiles to a newline, loses its backslash and becomes the
letter `n`. -/
theorem cleanNonMetaEscapes_drops_newline_escape :
    cleanNonMetaEscapes ['\\', 'n'] = ['n'] := by
  rw [cleanNonMetaEscapes_eq_unescapeInvalid]
  rfl

end IoxCore.QueryFunctions

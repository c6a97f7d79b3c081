import Mathlib.Data.List.Infix
import Mathlib.Data.List.TakeWhile

/-!
# Parser combinators in the manner of nom

The combinators of the nom crate that a parser over complete input uses, on
token lists: `tag`, `take_while1`, `digit1`, `map`, `opt`, `alt`, the sequencing
combinators, `recognize` and `many0`.

* A parser maps its input to the remaining input and an output, or to an error.
  An `Error` is recoverable (`alt` tries its next alternative, `opt` answers
  `None`); a `Failure` is not, and every combinator passes it on.
* The error values are built through `ParseError`, as in nom: `from_error_kind`
  for a fresh error, `append` for the error of an `alt` whose alternatives all
  failed (nom's `or` keeps the last alternative's error, its default).

## The model

The input is a list of tokens, and a slice is the list of its tokens: the
remaining input is a suffix of the input, and `recognize` answers the part
consumed. `many0` stops, as nom's does, when its parser fails or succeeds
without consuming. Since each pass that goes on consumes a token, it passes at
most once more than the input is long, which is the bound its loop is given.
-/

namespace Nom

/-- nom's `ErrorKind`, by the kinds raised here and by the parsers built on
these combinators. -/
inductive ErrorKind
  | tag
  | takeWhile1
  | digit
  | alt
  | many0
  | separatedList
  | escapedTransform
  | char
  | multiSpace
  | alpha
  | alphaNumeric
  | not
  | eof
  | takeUntil
  | verify
  | fail
  | many1Count
  deriving DecidableEq, Repr

/-- nom's `ParseError`: how an error is made at an input. -/
class ParseError (σ ε : Type) where
  fromErrorKind : List σ → ErrorKind → ε
  append : List σ → ErrorKind → ε → ε

/-- nom's `Err` on complete input: a recoverable `Error` or a `Failure`. -/
inductive Err (ε : Type)
  | error (e : ε)
  | failure (e : ε)
  deriving DecidableEq, Repr

/-- `IResult`: the remaining input and the output, or an error. -/
abbrev IResult (σ ε α : Type) := Except (Err ε) (List σ × α)

/-- A parser. -/
abbrev Parser (σ ε α : Type) := List σ → IResult σ ε α

variable {σ ε α β γ : Type}

/-- `p` fails recoverably at `i`, so that an `alt` tries its next alternative. -/
def Fails (p : Parser σ ε α) (i : List σ) : Prop := ∃ e, p i = .error (.error e)

/-! ### Combinators -/

/-- `map`. -/
def map (p : Parser σ ε α) (f : α → β) : Parser σ ε β := fun i =>
  match p i with
  | .ok (r, a) => .ok (r, f a)
  | .error e => .error e

/-- `opt`: a recoverable error becomes `none`. -/
def opt (p : Parser σ ε α) : Parser σ ε (Option α) := fun i =>
  match p i with
  | .ok (r, a) => .ok (r, some a)
  | .error (.error _) => .ok (i, none)
  | .error (.failure e) => .error (.failure e)

/-- `pair`, the sequencing the tuple combinators are made of. -/
def pair (p : Parser σ ε α) (q : Parser σ ε β) : Parser σ ε (α × β) := fun i =>
  match p i with
  | .ok (r, a) =>
    match q r with
    | .ok (r', b) => .ok (r', (a, b))
    | .error e => .error e
  | .error e => .error e

/-- `preceded`. -/
def preceded (p : Parser σ ε α) (q : Parser σ ε β) : Parser σ ε β := map (pair p q) Prod.snd

/-- `terminated`. -/
def terminated (p : Parser σ ε α) (q : Parser σ ε β) : Parser σ ε α := map (pair p q) Prod.fst

/-- `separated_pair`. -/
def separatedPair (p : Parser σ ε α) (sep : Parser σ ε β) (q : Parser σ ε γ) :
    Parser σ ε (α × γ) :=
  map (pair p (pair sep q)) fun x => (x.1, x.2.2)

/-- `delimited`: `q` between `p` and `r`, answering what `q` answers. -/
def delimited (p : Parser σ ε α) (q : Parser σ ε β) (r : Parser σ ε γ) : Parser σ ε β :=
  preceded p (terminated q r)

/-- `cut`: a recoverable error of `p` becomes a failure. -/
def cut (p : Parser σ ε α) : Parser σ ε α := fun i =>
  match p i with
  | .error (.error e) => .error (.failure e)
  | r => r

/-- `recognize`: the part of the input that `p` consumed. -/
def recognize (p : Parser σ ε α) : Parser σ ε (List σ) := fun i =>
  match p i with
  | .ok (r, _) => .ok (r, i.take (i.length - r.length))
  | .error e => .error e

section Combinators

variable [ParseError σ ε]

/-- `tag`: the input starts with `t`. -/
def tag [BEq σ] (t : List σ) : Parser σ ε (List σ) := fun i =>
  if t.isPrefixOf i then .ok (i.drop t.length, t)
  else .error (.error (ParseError.fromErrorKind i .tag))

/-- `split_at_position1_complete`: the longest prefix whose tokens satisfy `p`,
which must not be empty. -/
def splitAtPosition1 (p : σ → Bool) (kind : ErrorKind) : Parser σ ε (List σ) := fun i =>
  if (i.takeWhile p).isEmpty then .error (.error (ParseError.fromErrorKind i kind))
  else .ok (i.dropWhile p, i.takeWhile p)

/-- `take_while1`. -/
def takeWhile1 (p : σ → Bool) : Parser σ ε (List σ) := splitAtPosition1 p .takeWhile1

/-- `digit1`: one or more ASCII decimal digits. -/
def digit1 {ε : Type} [ParseError Char ε] : Parser Char ε (List Char) :=
  splitAtPosition1 Char.isDigit .digit

/-- `char`: the input starts with the token `c`. -/
def char [DecidableEq σ] (c : σ) : Parser σ ε σ := fun i =>
  match i with
  | x :: r => if x = c then .ok (r, c) else .error (.error (ParseError.fromErrorKind i .char))
  | [] => .error (.error (ParseError.fromErrorKind i .char))

/-- `take_till` on complete input: the longest prefix of tokens outside `p`, possibly empty. -/
def takeTill (p : σ → Bool) : Parser σ ε (List σ) := fun i =>
  .ok (i.dropWhile (fun c => !p c), i.takeWhile (fun c => !p c))

/-- The tokens before the first occurrence of `t` in `i`, when it occurs. -/
def beforeInfix [BEq σ] (t : List σ) : List σ → Option (List σ)
  | [] => if t.isEmpty then some [] else none
  | c :: i => if t.isPrefixOf (c :: i) then some [] else (beforeInfix t i).map (c :: ·)

/-- `take_until`: the tokens before the first occurrence of `t`. -/
def takeUntil [BEq σ] (t : List σ) : Parser σ ε (List σ) := fun i =>
  match beforeInfix t i with
  | some pre => .ok (i.drop pre.length, pre)
  | none => .error (.error (ParseError.fromErrorKind i .takeUntil))

/-- `not`: succeeds, consuming nothing, where `p` fails recoverably. -/
def not (p : Parser σ ε α) : Parser σ ε Unit := fun i =>
  match p i with
  | .ok _ => .error (.error (ParseError.fromErrorKind i .not))
  | .error (.error _) => .ok (i, ())
  | .error (.failure e) => .error (.failure e)

/-- `eof`: the input is used up. -/
def eof : Parser σ ε (List σ) := fun i =>
  if i.isEmpty then .ok (i, i) else .error (.error (ParseError.fromErrorKind i .eof))

/-- `verify`: the output of `p` satisfies `f`. -/
def verify (p : Parser σ ε α) (f : α → Bool) : Parser σ ε α := fun i =>
  match p i with
  | .ok (r, a) => if f a then .ok (r, a) else .error (.error (ParseError.fromErrorKind i .verify))
  | .error e => .error e

/-- `multispace1`: one or more spaces, tabs, carriage returns and line feeds. -/
def multispace1 {ε : Type} [ParseError Char ε] : Parser Char ε (List Char) :=
  splitAtPosition1 (fun c => c = ' ' || c = '\t' || c = '\r' || c = '\n') .multiSpace

/-- `alpha1`: one or more ASCII letters. -/
def alpha1 {ε : Type} [ParseError Char ε] : Parser Char ε (List Char) :=
  splitAtPosition1 Char.isAlpha .alpha

/-- `alphanumeric1`: one or more ASCII letters and digits. -/
def alphanumeric1 {ε : Type} [ParseError Char ε] : Parser Char ε (List Char) :=
  splitAtPosition1 Char.isAlphanum .alphaNumeric

/-- `alt((p, q, ...))`: the first alternative that does not fail recoverably.
When all fail, the error is the last one's, appended with `ErrorKind::Alt`. -/
def alt (p : Parser σ ε α) : List (Parser σ ε α) → Parser σ ε α
  | [] => fun i =>
    match p i with
    | .error (.error e) => .error (.error (ParseError.append i .alt e))
    | r => r
  | q :: qs => fun i =>
    match p i with
    | .error (.error _) => alt q qs i
    | r => r

/-- The loop of `many0`, given the number of passes left. -/
def many0Loop (p : Parser σ ε α) : ℕ → List σ → List α → IResult σ ε (List α)
  | 0, i, _ => .error (.error (ParseError.fromErrorKind i .many0))
  | fuel + 1, i, acc =>
    match p i with
    | .error (.error _) => .ok (i, acc)
    | .error (.failure e) => .error (.failure e)
    | .ok (i1, o) =>
      -- the check against a parser that succeeds without consuming
      if i1.length = i.length then .error (.error (ParseError.fromErrorKind i .many0))
      else many0Loop p fuel i1 (acc ++ [o])

/-- `many0`. -/
def many0 (p : Parser σ ε α) : Parser σ ε (List α) := fun i => many0Loop p (i.length + 1) i []

/-- `many1_count`: how many times `p` applies, at least once. After the first pass it
loops as `many0` does (the kind of the error for a pass that does not consume aside). -/
def many1Count (p : Parser σ ε α) : Parser σ ε ℕ := fun i =>
  match p i with
  | .error (.error _) => .error (.error (ParseError.fromErrorKind i .many1Count))
  | .error (.failure e) => .error (.failure e)
  | .ok (i1, o) =>
    match many0Loop p (i1.length + 1) i1 [o] with
    | .ok (r, os) => .ok (r, os.length)
    | .error e => .error e

end Combinators

/-! ### Running the combinators -/

section Lemmas

variable [ParseError σ ε] {i : List σ} {p : σ → Bool}

/-- No token at the head of the input satisfies `p`. -/
def HeadNot (p : σ → Bool) (i : List σ) : Prop := ∀ c ∈ i.head?, p c = false

theorem headNot_nil (p : σ → Bool) : HeadNot p [] := by simp [HeadNot]

theorem headNot_cons {c : σ} : HeadNot p (c :: i) ↔ p c = false := by
  simp [HeadNot]

theorem headNot_of_forall {s : List σ} (h : ∀ c ∈ s, p c = false) : HeadNot p s :=
  fun c hc => h c (List.mem_of_mem_head? hc)

theorem tag_append [BEq σ] [LawfulBEq σ] (t r : List σ) : tag (ε := ε) t (t ++ r) = .ok (r, t) := by
  simp [tag, List.isPrefixOf_iff_prefix]

theorem tag_of_not_prefix [BEq σ] [LawfulBEq σ] {t i : List σ} (h : ¬ t <+: i) :
    tag (ε := ε) t i = .error (.error (ParseError.fromErrorKind i .tag)) := by
  simp [tag, List.isPrefixOf_iff_prefix, h]

/-- A one-token tag fails at a token other than its own. -/
theorem tag_singleton_of_ne [BEq σ] [LawfulBEq σ] {a c : σ} (i : List σ) (h : c ≠ a) :
    tag (ε := ε) [a] (c :: i) = .error (.error (ParseError.fromErrorKind (c :: i) .tag)) :=
  tag_of_not_prefix (by simpa using Ne.symm h)

/-- `take_while1` on a non-empty run of `p` tokens followed by a token outside `p`. -/
theorem splitAtPosition1_append {kind : ErrorKind} {s r : List σ}
    (hs : s ≠ []) (hp : ∀ c ∈ s, p c = true) (hr : HeadNot p r) :
    splitAtPosition1 (ε := ε) p kind (s ++ r) = .ok (r, s) := by
  have hdrop : r.dropWhile p = r := by
    cases r with
    | nil => rfl
    | cons c r => simp [headNot_cons.mp hr]
  have htake : r.takeWhile p = [] := by
    cases r with
    | nil => rfl
    | cons c r => simp [headNot_cons.mp hr]
  simp [splitAtPosition1, List.takeWhile_append_of_pos hp, List.dropWhile_append_of_pos hp,
    hdrop, htake, hs]

theorem splitAtPosition1_of_headNot {kind : ErrorKind} (h : HeadNot p i) :
    splitAtPosition1 (ε := ε) p kind i = .error (.error (ParseError.fromErrorKind i kind)) := by
  cases i with
  | nil => rfl
  | cons c i => simp [splitAtPosition1, headNot_cons.mp h]

theorem alt_of_error {p q : Parser σ ε α} {qs : List (Parser σ ε α)} {e : ε}
    (h : p i = .error (.error e)) : alt p (q :: qs) i = alt q qs i := by
  simp [alt, h]

theorem alt_of_ok {p : Parser σ ε α} {qs : List (Parser σ ε α)} {r : List σ × α}
    (h : p i = .ok r) : alt p qs i = .ok r := by
  cases qs <;> simp [alt, h]

theorem char_fails [DecidableEq σ] {c : σ} (h : i.head? ≠ some c) : Fails (char (ε := ε) c) i := by
  cases i with
  | nil => exact ⟨_, rfl⟩
  | cons x r =>
    have hx : x ≠ c := fun hx => h (by simp [hx])
    exact ⟨ParseError.fromErrorKind (x :: r) .char, by simp [char, hx]⟩

theorem char_cons [DecidableEq σ] (c : σ) (r : List σ) : char (ε := ε) c (c :: r) = .ok (r, c) := by
  simp [char]

theorem tag_fails [BEq σ] [LawfulBEq σ] {t i : List σ} (h : ¬ t <+: i) : Fails (tag (ε := ε) t) i :=
  ⟨_, tag_of_not_prefix h⟩

theorem splitAtPosition1_fails {kind : ErrorKind}
    (h : HeadNot p i) : Fails (splitAtPosition1 (ε := ε) p kind) i :=
  ⟨_, splitAtPosition1_of_headNot h⟩

theorem takeWhile1_append {s r : List σ} (hs : s ≠ []) (hp : ∀ c ∈ s, p c = true)
    (hr : HeadNot p r) : takeWhile1 (ε := ε) p (s ++ r) = .ok (r, s) :=
  splitAtPosition1_append hs hp hr

theorem takeWhile1_fails (h : HeadNot p i) : Fails (takeWhile1 (ε := ε) p) i :=
  splitAtPosition1_fails h

theorem digit1_append {ε : Type} [ParseError Char ε] {ds r : List Char} (hne : ds ≠ [])
    (hd : ∀ c ∈ ds, c.isDigit = true) (hr : HeadNot Char.isDigit r) :
    digit1 (ε := ε) (ds ++ r) = .ok (r, ds) :=
  splitAtPosition1_append hne hd hr

theorem digit1_fails {ε : Type} [ParseError Char ε] {i : List Char} (h : HeadNot Char.isDigit i) :
    Fails (digit1 (ε := ε)) i :=
  splitAtPosition1_fails h

theorem alt_of_fails {p q : Parser σ ε α} {qs : List (Parser σ ε α)}
    (h : Fails p i) : alt p (q :: qs) i = alt q qs i :=
  alt_of_error h.choose_spec

theorem alt_fails_cons {p q : Parser σ ε α} {qs : List (Parser σ ε α)}
    (hp : Fails p i) (h : Fails (alt q qs) i) : Fails (alt p (q :: qs)) i := by
  obtain ⟨e, he⟩ := h
  exact ⟨e, by rw [alt_of_fails hp, he]⟩

/-- The last alternative failing, the `alt` fails. -/
theorem alt_nil_fails {p : Parser σ ε α} (h : Fails p i) : Fails (alt p []) i := by
  obtain ⟨e, he⟩ := h
  exact ⟨ParseError.append i .alt e, by simp [alt, he]⟩

/-- A pass of `many0` that consumes. -/
theorem many0Loop_of_ok {p : Parser σ ε α} {n : ℕ} {i i1 : List σ} {o : α} {acc : List α}
    (h : p i = .ok (i1, o)) (hlt : i1.length < i.length) :
    many0Loop p (n + 1) i acc = many0Loop p n i1 (acc ++ [o]) := by
  simp [many0Loop, h, hlt.ne]

/-- `many0` stops at a recoverable error. -/
theorem many0Loop_of_error {p : Parser σ ε α} {n : ℕ} {e : ε} {acc : List α}
    (h : p i = .error (.error e)) : many0Loop p (n + 1) i acc = .ok (i, acc) := by
  simp [many0Loop, h]

/-- `many0` stops, keeping what it read, where `p` fails recoverably. -/
theorem many0Loop_stop {p : Parser σ ε α} {n : ℕ} {r : List σ} (hstop : Fails p r) (hn : 0 < n)
    (acc : List α) : many0Loop p n r acc = .ok (r, acc) := by
  obtain ⟨e, he⟩ := hstop
  obtain ⟨n, rfl⟩ : ∃ k, n = k + 1 := ⟨n - 1, by omega⟩
  exact many0Loop_of_error he

/-- `many0` reads a run of encoded items, one pass each: each item is read from its encoding
before any text `Q` holds of, and `Q` holds after each encoding and of the text `r` after
the run. -/
theorem many0Loop_flatMap {p : Parser σ ε α} {enc : α → List σ} {Q : List σ → Prop}
    {r : List σ} (hr : Q r) :
    ∀ (items : List α),
      (∀ x ∈ items, enc x ≠ [] ∧ ∀ rest, Q rest → p (enc x ++ rest) = .ok (rest, x)) →
      (∀ x ∈ items, ∀ rest, Q (enc x ++ rest)) →
      ∀ k acc, many0Loop p (k + items.length) (items.flatMap enc ++ r) acc =
        many0Loop p k r (acc ++ items)
  | [], _, _, k, acc => by simp
  | x :: xs, hp, hq, k, acc => by
    have hrest : Q (xs.flatMap enc ++ r) := by
      cases xs with
      | nil => simpa using hr
      | cons y ys =>
        rw [List.flatMap_cons, List.append_assoc]
        exact hq y (by simp) _
    obtain ⟨hne, hx⟩ := hp x List.mem_cons_self
    have hlt : (xs.flatMap enc ++ r).length < (enc x ++ (xs.flatMap enc ++ r)).length := by
      simpa using List.length_pos_of_ne_nil hne
    rw [List.flatMap_cons, List.append_assoc, List.length_cons, ← Nat.add_assoc,
      many0Loop_of_ok (hx _ hrest) hlt,
      many0Loop_flatMap hr xs (fun y hy => hp y (List.mem_cons_of_mem x hy))
        (fun y hy => hq y (List.mem_cons_of_mem x hy)) k _]
    simp

end Lemmas

section Rules

variable {p : Parser σ ε α} {q : Parser σ ε β} {i r : List σ} {a : α}

theorem map_of_ok {f : α → β} (h : p i = .ok (r, a)) : map p f i = .ok (r, f a) := by
  simp [map, h]

theorem map_fails {f : α → β} (h : Fails p i) : Fails (map p f) i := by
  obtain ⟨e, he⟩ := h
  exact ⟨e, by simp [map, he]⟩

theorem map_of_error {f : α → β} {e : Err ε} (h : p i = .error e) : map p f i = .error e := by
  simp [map, h]

theorem opt_of_ok (h : p i = .ok (r, a)) : opt p i = .ok (r, some a) := by
  simp [opt, h]

theorem opt_of_error {e : ε} (h : p i = .error (.error e)) : opt p i = .ok (i, none) := by
  simp [opt, h]

theorem pair_of_ok (h : p i = .ok (r, a)) : pair p q i = map q (fun b => (a, b)) r := by
  simp only [pair, h, map]

theorem pair_of_error {e : Err ε} (h : p i = .error e) : pair p q i = .error e := by
  simp [pair, h]

theorem pair_fails_left (h : Fails p i) : Fails (pair p q) i := by
  obtain ⟨e, he⟩ := h
  exact ⟨e, pair_of_error he⟩

theorem pair_fails_right (hp : p i = .ok (r, a)) (h : Fails q r) : Fails (pair p q) i := by
  obtain ⟨e, he⟩ := h
  exact ⟨e, by simp [pair_of_ok hp, map, he]⟩

theorem recognize_fails (h : Fails p i) : Fails (recognize p) i := by
  obtain ⟨e, he⟩ := h
  exact ⟨e, by simp [recognize, he]⟩

theorem preceded_fails_left (h : Fails p i) : Fails (preceded p q) i :=
  map_fails (pair_fails_left h)

theorem preceded_fails_right (hp : p i = .ok (r, a)) (h : Fails q r) : Fails (preceded p q) i :=
  map_fails (pair_fails_right hp h)

theorem terminated_fails_left (h : Fails p i) : Fails (terminated p q) i :=
  map_fails (pair_fails_left h)

theorem terminated_fails_right (hp : p i = .ok (r, a)) (h : Fails q r) : Fails (terminated p q) i :=
  map_fails (pair_fails_right hp h)

theorem separatedPair_fails_left {sep : Parser σ ε β} {q : Parser σ ε γ}
    (h : Fails p i) : Fails (separatedPair p sep q) i :=
  map_fails (pair_fails_left h)

theorem separatedPair_fails_sep {sep : Parser σ ε β} {q : Parser σ ε γ}
    (hp : p i = .ok (r, a)) (h : Fails sep r) :
    Fails (separatedPair p sep q) i :=
  map_fails (pair_fails_right hp (pair_fails_left h))

theorem separatedPair_fails_right {sep : Parser σ ε β} {q : Parser σ ε γ}
    {r₁ r₂ : List σ} {b : β} (hp : p i = .ok (r₁, a)) (hs : sep r₁ = .ok (r₂, b))
    (h : Fails q r₂) : Fails (separatedPair p sep q) i :=
  map_fails (pair_fails_right hp (pair_fails_right hs h))

/-- `preceded p q` after `p` succeeded is `q` on what `p` left. -/
theorem preceded_of_ok (h : p i = .ok (r, a)) : preceded p q i = q r := by
  simp only [preceded, map, pair, h]
  cases q r <;> rfl

theorem terminated_of_ok {r' : List σ} {b : β}
    (hp : p i = .ok (r, a)) (hq : q r = .ok (r', b)) : terminated p q i = .ok (r', a) := by
  simp [terminated, map, pair_of_ok hp, hq]

theorem separatedPair_of_ok {sep : Parser σ ε β} {q : Parser σ ε γ}
    {r₁ r₂ r₃ : List σ} {b : β} {c : γ} (hp : p i = .ok (r₁, a))
    (hs : sep r₁ = .ok (r₂, b)) (hq : q r₂ = .ok (r₃, c)) :
    separatedPair p sep q i = .ok (r₃, (a, c)) := by
  simp [separatedPair, map, pair_of_ok hp, pair_of_ok hs, hq]

/-- `recognize` of a parser that consumed `s` answers `s`. -/
theorem recognize_of_ok {s : List σ}
    (h : p (s ++ r) = .ok (r, a)) : recognize p (s ++ r) = .ok (r, s) := by
  simp [recognize, h]

end Rules

/-! ### Forgetting part of the output

A parser that answers more than another (a value with how it was read) reads what the other
reads once the extra part is forgotten. These rules push the forgetting `map` through the
combinators, so that such a statement is proved combinator by combinator. -/

section Forget

variable {α' β' : Type}

theorem map_apply (p : Parser σ ε α) (f : α → β) (i : List σ) :
    map p f i = (p i).map (Prod.map id f) := by
  rcases h : p i with e | ⟨r, a⟩ <;> simp [map, h, Except.map]

theorem map_eq_ok {p : Parser σ ε α} {f : α → β} {i r : List σ} {b : β} :
    map p f i = .ok (r, b) ↔ ∃ a, p i = .ok (r, a) ∧ b = f a := by
  rcases h : p i with e | ⟨r', a⟩
  · simp [map, h]
  · simp only [map, h, Except.ok.injEq, Prod.mk.injEq]
    constructor
    · rintro ⟨rfl, rfl⟩
      exact ⟨a, ⟨rfl, rfl⟩, rfl⟩
    · rintro ⟨a', ⟨rfl, rfl⟩, rfl⟩
      exact ⟨rfl, rfl⟩

theorem map_map (p : Parser σ ε α) (f : α → β) (g : β → γ) : map (map p f) g = map p (g ∘ f) := by
  funext i
  rcases h : p i with e | ⟨r, a⟩ <;> simp [map, h]

theorem map_pair (p : Parser σ ε α) (q : Parser σ ε β) (f : α → α') (g : β → β') :
    map (pair p q) (Prod.map f g) = pair (map p f) (map q g) := by
  funext i
  rcases hp : p i with e | ⟨r, a⟩
  · simp [map, pair, hp]
  · rcases hq : q r with e | ⟨r', b⟩ <;> simp [map, pair, hp, hq]

theorem map_separatedPair (p : Parser σ ε α) (sep : Parser σ ε β) (q : Parser σ ε γ)
    (f : α → α') (g : γ → β') :
    map (separatedPair p sep q) (Prod.map f g) = separatedPair (map p f) sep (map q g) := by
  have hsnd : map (pair sep q) (Prod.map id g) = pair sep (map q g) := by
    rw [map_pair]
    congr
    funext i
    rcases h : sep i with e | ⟨r, b⟩ <;> simp [map, h]
  simp only [separatedPair, map_map, ← hsnd, ← map_pair]
  rfl

end Forget

/-! ### What a parser consumes

`Consumes p R`: each success of `p` consumed a prefix of its input, which `R` relates to the
output. The rules follow the combinators, so that what a grammar consumed is read off its
parts. -/

/-- Every success of `p` consumed a prefix `src` of its input with `R src a` for its output `a`. -/
def Consumes (p : Parser σ ε α) (R : List σ → α → Prop) : Prop :=
  ∀ i r a, p i = .ok (r, a) → ∃ src, i = src ++ r ∧ R src a

variable {p : Parser σ ε α} {R : List σ → α → Prop}

theorem Consumes.mono {R S : List σ → α → Prop} (h : Consumes p R)
    (hRS : ∀ src a, R src a → S src a) : Consumes p S := by
  intro i r a hp
  obtain ⟨src, hi, hR⟩ := h i r a hp
  exact ⟨src, hi, hRS src a hR⟩

theorem Consumes.map (h : Consumes p R) (f : α → β) :
    Consumes (map p f) fun src b => ∃ a, b = f a ∧ R src a := by
  intro i r b hm
  rcases hp : p i with e | ⟨r', a⟩
  · simp [Nom.map, hp] at hm
  · simp only [Nom.map, hp, Except.ok.injEq, Prod.mk.injEq] at hm
    obtain ⟨rfl, rfl⟩ := hm
    obtain ⟨src, hi, hR⟩ := h i r' a hp
    exact ⟨src, hi, a, rfl, hR⟩

theorem Consumes.pair {q : Parser σ ε β}
    {S : List σ → β → Prop} (hp : Consumes p R) (hq : Consumes q S) :
    Consumes (pair p q) fun src x => ∃ s t, src = s ++ t ∧ R s x.1 ∧ S t x.2 := by
  intro i r x hpq
  rcases hpi : p i with e | ⟨r₁, a⟩
  · simp [Nom.pair, hpi] at hpq
  rcases hqr : q r₁ with e | ⟨r₂, b⟩
  · simp [Nom.pair, hpi, hqr] at hpq
  simp only [Nom.pair, hpi, hqr, Except.ok.injEq, Prod.mk.injEq] at hpq
  obtain ⟨rfl, rfl⟩ := hpq
  obtain ⟨s, rfl, hR⟩ := hp i r₁ a hpi
  obtain ⟨t, rfl, hS⟩ := hq r₁ _ b hqr
  exact ⟨s ++ t, by simp, s, t, rfl, hR, hS⟩

variable [ParseError σ ε]

theorem consumes_tag [BEq σ] [LawfulBEq σ] (t : List σ) :
    Consumes (tag (ε := ε) t) fun src a => src = t ∧ a = t := by
  intro i r a h
  unfold tag at h
  split at h
  · rename_i hpre
    simp only [Except.ok.injEq, Prod.mk.injEq] at h
    obtain ⟨rfl, rfl⟩ := h
    obtain ⟨r, rfl⟩ := List.isPrefixOf_iff_prefix.mp hpre
    exact ⟨t, by simp, rfl, rfl⟩
  · cases h

theorem consumes_splitAtPosition1 (p : σ → Bool) (kind : ErrorKind) :
    Consumes (splitAtPosition1 (ε := ε) p kind) fun src a => src = a ∧ ∀ c ∈ a, p c = true := by
  intro i r a h
  unfold splitAtPosition1 at h
  split at h
  · cases h
  · simp only [Except.ok.injEq, Prod.mk.injEq] at h
    obtain ⟨rfl, rfl⟩ := h
    exact ⟨i.takeWhile p, (List.takeWhile_append_dropWhile).symm, rfl,
      fun c hc => List.mem_takeWhile_imp hc⟩

theorem consumes_takeWhile1 (p : σ → Bool) :
    Consumes (takeWhile1 (ε := ε) p) fun src a => src = a ∧ ∀ c ∈ a, p c = true :=
  consumes_splitAtPosition1 p .takeWhile1

/-- An `alt` consumes as each of its alternatives does. -/
theorem Consumes.alt :
    ∀ {p : Parser σ ε α} {qs : List (Parser σ ε α)}, Consumes p R → (∀ q ∈ qs, Consumes q R) →
      Consumes (alt p qs) R
  | p, [], hp, _ => by
    intro i r a h
    simp only [Nom.alt] at h
    split at h
    · cases h
    · exact hp i r a h
  | p, q :: qs, hp, hqs => by
    intro i r a h
    simp only [Nom.alt] at h
    split at h
    · exact Consumes.alt (hqs q List.mem_cons_self)
        (fun q' hq' => hqs q' (List.mem_cons_of_mem q hq')) i r a h
    · exact hp i r a h


end Nom

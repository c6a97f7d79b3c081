import Mathlib

/-!
# Number and identifier parsers of the Rust libraries

`i64::from_str` and `u64::from_str` of the standard library, and
`Uuid::parse_str` of the `uuid` crate, on character lists; the decimal
`Display` of integers, which they read back, and the hyphenated `Display` of a UUID; and `f64`'s `Display` and
`FromStr`, as a parameter with the laws the line protocol relies on.

## The model

`from_str` for an integer type accepts an optional sign (`+`, and `-` for a
signed type) followed by at least one ASCII decimal digit, and fails when the
value does not fit the type. `Uuid::parse_str` accepts the simple form (32 hex
digits), the hyphenated form (36 characters with `-` at 8, 13, 18 and 23), and
the hyphenated form braced (`{...}`) or behind `urn:uuid:`; it measures its
input in bytes, and since every accepted input is ASCII the character counts
used here agree with it. A UUID is its 128-bit value.

`f64` is not modelled bit by bit. `FloatText` gives its type, its `Display`,
its `FromStr` and `is_finite`, and `FloatText.Lawful` states what the standard
library documents of them: a finite value displays as an optional `-`, decimal
digits, and a fractional part only when there is one (never an exponent), and
parsing the display gives the value back.
-/

namespace RustStr

/-- Reads decimal digits onto an accumulated value; `none` at a non-digit. -/
def decimalAux : ℕ → List Char → Option ℕ
  | n, [] => some n
  | n, c :: cs => if c.isDigit then decimalAux (10 * n + (c.toNat - '0'.toNat)) cs else none

/-- The value of a non-empty run of ASCII decimal digits. -/
def decimal : List Char → Option ℕ
  | [] => none
  | c :: cs => decimalAux 0 (c :: cs)

/-- `i64::from_str`. -/
def parseI64 : List Char → Option ℤ
  | '+' :: ds => (decimal ds).bind fun n => if n < 2 ^ 63 then some n else none
  | '-' :: ds => (decimal ds).bind fun n => if n ≤ 2 ^ 63 then some (-n) else none
  | ds => (decimal ds).bind fun n => if n < 2 ^ 63 then some n else none

/-- `u64::from_str`. -/
def parseU64 : List Char → Option ℕ
  | '+' :: ds => (decimal ds).bind fun n => if n < 2 ^ 64 then some n else none
  | ds => (decimal ds).bind fun n => if n < 2 ^ 64 then some n else none

/-- The value of an ASCII hex digit, either case. -/
def hexDigit (c : Char) : Option ℕ :=
  if c.isDigit then some (c.toNat - '0'.toNat)
  else if 'a' ≤ c ∧ c ≤ 'f' then some (c.toNat - 'a'.toNat + 10)
  else if 'A' ≤ c ∧ c ≤ 'F' then some (c.toNat - 'A'.toNat + 10)
  else none

/-- Reads hex digits onto an accumulated value; `none` at a non-digit. -/
def hexAux : ℕ → List Char → Option ℕ
  | n, [] => some n
  | n, c :: cs => (hexDigit c).bind fun d => hexAux (16 * n + d) cs

/-- The 32 hex digits of a hyphenated UUID, its four hyphens left out. -/
def hyphenGroups (s : List Char) : List Char :=
  s.take 8 ++ (s.drop 9).take 4 ++ (s.drop 14).take 4 ++ (s.drop 19).take 4 ++ s.drop 24

/-- The hyphenated form, of 36 characters. -/
def parseHyphenated (s : List Char) : Option ℕ :=
  if s[8]? = some '-' ∧ s[13]? = some '-' ∧ s[18]? = some '-' ∧ s[23]? = some '-' then
    hexAux 0 (hyphenGroups s)
  else none

/-- `Uuid::parse_str`. -/
def parseUuid (s : List Char) : Option ℕ :=
  if s.length = 32 then hexAux 0 s
  else if s.length = 36 then parseHyphenated s
  else if s.length = 38 then
    if s.head? = some '{' ∧ s.getLast? = some '}' then parseHyphenated (s.drop 1).dropLast
    else none
  else if s.length = 45 then
    if s.take 9 = "urn:uuid:".toList then parseHyphenated (s.drop 9) else none
  else none

/-! ### Decimal display -/

/-- `Display` of an unsigned integer. -/
def natText (n : ℕ) : List Char := Nat.toDigits 10 n

/-- `Display` of a signed integer. -/
def intText (v : ℤ) : List Char := if v < 0 then '-' :: natText v.natAbs else natText v.toNat

/-- The last `k` lowercase hex digits of `v`, most significant first. -/
def hexText : ℕ → ℕ → List Char
  | 0, _ => []
  | k + 1, v => hexText k (v / 16) ++ [Nat.digitChar (v % 16)]

/-- `Display` of a `Uuid`: the hyphenated form, in lowercase. -/
def uuidText (v : ℕ) : List Char :=
  let s := hexText 32 v
  s.take 8 ++ '-' :: (s.drop 8).take 4 ++ '-' :: (s.drop 12).take 4 ++ '-' :: (s.drop 16).take 4 ++
    '-' :: s.drop 20

theorem isDigit_of_mem_natText {n : ℕ} {c : Char} (h : c ∈ natText n) : c.isDigit = true :=
  Nat.isDigit_of_mem_toDigits (by decide) (by decide) h

theorem natText_ne_nil (n : ℕ) : natText n ≠ [] := Nat.toDigits_ne_nil

theorem mem_intText {v : ℤ} {c : Char} (h : c ∈ intText v) : c = '-' ∨ c.isDigit = true := by
  unfold intText at h
  split at h
  · rcases List.mem_cons.mp h with rfl | h
    · exact Or.inl rfl
    · exact Or.inr (isDigit_of_mem_natText h)
  · exact Or.inr (isDigit_of_mem_natText h)

theorem decimalAux_of_isDigit {cs : List Char} (h : ∀ c ∈ cs, c.isDigit = true) (n : ℕ) :
    decimalAux n cs = some (Nat.ofDigitChars 10 cs n) := by
  induction cs generalizing n with
  | nil => simp [decimalAux]
  | cons c cs ih =>
    rw [decimalAux, if_pos (h c List.mem_cons_self), ih (fun x hx => h x (List.mem_cons_of_mem c hx)),
      Nat.ofDigitChars_cons]

theorem decimal_natText (n : ℕ) : decimal (natText n) = some n := by
  obtain ⟨c, cs, hcs⟩ := List.exists_cons_of_ne_nil (natText_ne_nil n)
  have hd : ∀ x ∈ natText n, x.isDigit = true := fun x hx => isDigit_of_mem_natText hx
  rw [hcs, decimal, ← hcs, decimalAux_of_isDigit hd]
  exact congrArg some Nat.ofDigitChars_ten_toDigits

/-- A text that starts with a digit is read by the unsigned branch of `from_str`. -/
theorem parseI64_of_isDigit {c : Char} {cs : List Char} (hc : c.isDigit = true) :
    parseI64 (c :: cs) =
      (decimal (c :: cs)).bind fun n => if n < 2 ^ 63 then some (n : ℤ) else none := by
  have h1 : c ≠ '+' := by rintro rfl; exact absurd hc (by decide)
  have h2 : c ≠ '-' := by rintro rfl; exact absurd hc (by decide)
  unfold parseI64
  split <;> simp_all

theorem parseU64_of_isDigit {c : Char} {cs : List Char} (hc : c.isDigit = true) :
    parseU64 (c :: cs) = (decimal (c :: cs)).bind fun n => if n < 2 ^ 64 then some n else none := by
  have h1 : c ≠ '+' := by rintro rfl; exact absurd hc (by decide)
  unfold parseU64
  split <;> simp_all

/-- `i64::from_str` reads back the display of every `i64`. -/
theorem parseI64_intText {v : ℤ} (hlo : -2 ^ 63 ≤ v) (hhi : v < 2 ^ 63) :
    parseI64 (intText v) = some v := by
  unfold intText
  split
  · rename_i hneg
    simp only [parseI64, decimal_natText, Option.bind_some]
    rw [if_pos (by omega)]
    congr 1
    omega
  · obtain ⟨c, cs, hcs⟩ := List.exists_cons_of_ne_nil (natText_ne_nil v.toNat)
    have hc : c.isDigit = true := isDigit_of_mem_natText (hcs ▸ List.mem_cons_self)
    rw [hcs, parseI64_of_isDigit hc, ← hcs, decimal_natText, Option.bind_some, if_pos (by omega)]
    congr 1
    omega

/-- `u64::from_str` reads back the display of every `u64`. -/
theorem parseU64_natText {n : ℕ} (h : n < 2 ^ 64) : parseU64 (natText n) = some n := by
  obtain ⟨c, cs, hcs⟩ := List.exists_cons_of_ne_nil (natText_ne_nil n)
  have hc : c.isDigit = true := isDigit_of_mem_natText (hcs ▸ List.mem_cons_self)
  rw [hcs, parseU64_of_isDigit hc, ← hcs, decimal_natText, Option.bind_some, if_pos h]

/-! ### `f64` -/

/-- `f64`: its `Display`, its `FromStr` and `is_finite`. -/
structure FloatText (F : Type) where
  display : F → List Char
  parse : List Char → Option F
  isFinite : F → Bool

/-- What the standard library documents of `f64`'s `Display` and `FromStr` on
finite values. -/
structure FloatText.Lawful {F : Type} (fl : FloatText F) : Prop where
  /-- An optional `-`, integer digits, and fractional digits after a `.` when there are any. -/
  display_shape : ∀ x, fl.isFinite x = true → ∃ (neg : Bool) (int frac : List Char),
    int ≠ [] ∧ (∀ c ∈ int, c.isDigit = true) ∧ (∀ c ∈ frac, c.isDigit = true) ∧
    fl.display x = (if neg then ['-'] else []) ++ int ++ (if frac = [] then [] else '.' :: frac)
  /-- The display is read back exactly. -/
  parse_display : ∀ x, fl.isFinite x = true → fl.parse (fl.display x) = some x

example : parseI64 "-42".toList = some (-42) := by decide
example : parseI64 "+".toList = none := by decide
example : parseUuid "67e55044-10b1-426f-9247-bb680e5fe0c8".toList =
    some 0x67e5504410b1426f9247bb680e5fe0c8 := by decide

end RustStr

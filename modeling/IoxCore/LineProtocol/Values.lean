import IoxCore.LineProtocol.ReadBack

/-!
# Field values, read back

`field_value` tries an integer (`1i`), an unsigned integer (`1u`), a float, a
quoted string and a boolean, in this order. Run on what the builder writes for a
value, followed by a comma, a space or the end of the line, it answers that
value:

* the text of an `i64` is read by the first alternative;
* the text of a `u64` has its digits followed by `u`, not `i`, so the integer
  alternative fails;
* the display of a finite float has no suffix and no exponent, so both integer
  alternatives and the two exponent recognizers fail, and the recognizer with or
  without a decimal part takes the whole display, which `FromStr` reads back;
* a string starts with `"` and a boolean with a letter, so the number
  alternatives fail at their first character.

## The model

A float is the parameter `FloatText` with the laws of `FloatText.Lawful`; the
display of a finite value is a sign, digits and an optional fractional part
(`signText`, `fracText`).
-/

namespace IoxCore.LineProtocol

open Nom RustStr Builder

variable {c : Char} {r : List Char}

/-- The sign in front of a displayed number. -/
def signText (neg : Bool) : List Char := if neg then ['-'] else []

/-- The fractional part of a displayed float, with its dot. -/
def fracText (frac : List Char) : List Char := if frac = [] then [] else '.' :: frac

theorem intText_eq (v : ℤ) : intText v = signText (decide (v < 0)) ++ natText v.natAbs := by
  unfold intText signText
  split
  · simp_all
  · rename_i h
    simp only [h, decide_false, Bool.false_eq_true, if_false, List.nil_append]
    congr 1
    omega

/-- `map_fail` fails where its parser fails. -/
theorem mapFail_fails {α β : Type} {first : Parser Char Error α} {second : α → Except Error β}
    {i : List Char} (h : Fails first i) : Fails (mapFail first second) i := by
  obtain ⟨e, he⟩ := h
  exact ⟨e, by simp [mapFail, he]⟩

theorem mapFail_of_ok {α β : Type} {first : Parser Char Error α} {second : α → Except Error β}
    {i r : List Char} {a : α} {b : β} (h : first i = .ok (r, a)) (h' : second a = .ok b) :
    mapFail first second i = .ok (r, b) := by
  simp [mapFail, h, h']

/-! ### Integers -/

theorem headNot_isDigit_of_ne (r : List Char) (h : c.isDigit = false) :
    HeadNot Char.isDigit (c :: r) :=
  headNot_cons.mpr h

theorem ne_minus_of_isDigit (h : c.isDigit = true) : c ≠ '-' := by
  rintro rfl
  exact absurd h (by decide)

/-- The optional `-` of a number. -/
theorem opt_minus (neg : Bool) {ds : List Char} (r : List Char) (hne : ds ≠ [])
    (hd : ∀ c ∈ ds, c.isDigit = true) :
    ∃ o, opt (tag ['-'] : Parser Char Error (List Char)) (signText neg ++ ds ++ r) =
      .ok (ds ++ r, o) := by
  cases neg with
  | true => exact ⟨_, opt_of_ok (by simpa [signText] using tag_append ['-'] (ds ++ r))⟩
  | false =>
    obtain ⟨c, cs, rfl⟩ := List.exists_cons_of_ne_nil hne
    have hc := ne_minus_of_isDigit (hd c List.mem_cons_self)
    exact ⟨_, opt_of_error (by simpa [signText] using tag_singleton_of_ne (ε := Error) (cs ++ r) hc)⟩

theorem integralValueSigned_append (neg : Bool) {ds r : List Char} (hne : ds ≠ [])
    (hd : ∀ c ∈ ds, c.isDigit = true) (hr : HeadNot Char.isDigit r) :
    integralValueSigned (signText neg ++ ds ++ r) = .ok (r, signText neg ++ ds) := by
  obtain ⟨o, ho⟩ := opt_minus neg r hne hd
  have hpre : (preceded (opt (tag ['-'])) digit1 : Parser Char Error (List Char))
      (signText neg ++ ds ++ r) = .ok (r, ds) := by
    rw [preceded_of_ok ho, digit1_append hne hd hr]
  exact recognize_of_ok hpre

theorem integralValueSigned_intText (v : ℤ) (hr : HeadNot Char.isDigit r) :
    integralValueSigned (intText v ++ r) = .ok (r, intText v) := by
  rw [intText_eq]
  exact integralValueSigned_append _ (natText_ne_nil _) (fun _ => isDigit_of_mem_natText) hr

theorem integralValueSigned_fails (r : List Char) (h₁ : c ≠ '-')
    (h₂ : c.isDigit = false) : Fails integralValueSigned (c :: r) :=
  recognize_fails (preceded_fails_right (opt_of_error (tag_singleton_of_ne r h₁))
    (digit1_fails (headNot_isDigit_of_ne r h₂)))

theorem fieldIntegerValue_intText (v : Int64) (r : List Char) :
    fieldIntegerValue (intText v.toInt ++ 'i' :: r) = .ok (r, v) := by
  have hint := integralValueSigned_intText v.toInt (headNot_isDigit_of_ne r (c := 'i') (by decide))
  refine mapFail_of_ok (terminated_of_ok hint (tag_append ['i'] r)) ?_
  simp [parseI64_intText (Int64.le_toInt v) (Int64.toInt_lt v), Int64.ofInt_toInt]

theorem fieldIntegerValue_fails {i r t : List Char} (h : integralValueSigned i = .ok (r, t))
    (hr : ¬ ['i'] <+: r) : Fails fieldIntegerValue i :=
  mapFail_fails (terminated_fails_right h (tag_fails hr))

theorem fieldIntegerValue_fails_of_head (r : List Char) (h₁ : c ≠ '-')
    (h₂ : c.isDigit = false) : Fails fieldIntegerValue (c :: r) :=
  mapFail_fails (terminated_fails_left (integralValueSigned_fails r h₁ h₂))

theorem fieldUintegerValue_natText (v : UInt64) (r : List Char) :
    fieldUintegerValue (natText v.toNat ++ 'u' :: r) = .ok (r, v) := by
  have hdigits := digit1_append (ε := Error) (natText_ne_nil v.toNat)
    (fun _ => isDigit_of_mem_natText) (headNot_isDigit_of_ne r (c := 'u') (by decide))
  refine mapFail_of_ok (terminated_of_ok hdigits (tag_append ['u'] r)) ?_
  simp [parseU64_natText (UInt64.toNat_lt v), UInt64.ofNat_toNat]

theorem fieldUintegerValue_fails {i r t : List Char}
    (h : (digit1 : Parser Char Error (List Char)) i = .ok (r, t))
    (hr : ¬ ['u'] <+: r) : Fails fieldUintegerValue i :=
  mapFail_fails (terminated_fails_right h (tag_fails hr))

theorem fieldUintegerValue_fails_of_head (r : List Char) (h : c.isDigit = false) :
    Fails fieldUintegerValue (c :: r) :=
  mapFail_fails (terminated_fails_left (digit1_fails (headNot_isDigit_of_ne r h)))

/-! ### Floats -/

/-- After the integer digits of a displayed float: its fractional part, then a
comma, a space or nothing. -/
theorem headNot_fracText (frac : List Char) (hr : ValueEnd r) :
    HeadNot Char.isDigit (fracText frac ++ r) := by
  unfold fracText
  split
  · exact headNot_of_valueEnd hr (by decide) (by decide)
  · exact headNot_cons.mpr (by decide)

theorem not_prefix_fracText {frac r : List Char} (hr : ValueEnd r) (h₁ : c ≠ '.')
    (h₂ : c ≠ ',') (h₃ : c ≠ ' ') : ¬ [c] <+: fracText frac ++ r := by
  unfold fracText
  split
  · exact not_prefix_of_valueEnd hr h₂ h₃
  · simpa using h₁

/-- `exponential_value` needs an `e` or `E` after its digits. -/
theorem exponentialValue_fails {ds r : List Char} (hne : ds ≠ []) (hd : ∀ c ∈ ds, c.isDigit = true)
    (hr : HeadNot Char.isDigit r) (he : ¬ ['e'] <+: r) (hE : ¬ ['E'] <+: r) :
    Fails exponentialValue (ds ++ r) := by
  have halt : Fails (alt (tag ['e']) [tag ['E']] : Parser Char Error (List Char)) r :=
    alt_fails_cons (tag_fails he) (alt_nil_fails (tag_fails hE))
  exact recognize_fails (separatedPair_fails_sep (digit1_append hne hd hr) (pair_fails_left halt))

theorem exponentialValue_fails_of_head (r : List Char) (h : c.isDigit = false) :
    Fails exponentialValue (c :: r) :=
  recognize_fails (separatedPair_fails_left (digit1_fails (headNot_isDigit_of_ne r h)))

/-- The recognizers of `field_float_value` take the display of a finite float. -/
theorem floatRecognizers_display (neg : Bool) {int frac r : List Char} (hne : int ≠ [])
    (hint : ∀ c ∈ int, c.isDigit = true) (hfrac : ∀ c ∈ frac, c.isDigit = true) (hr : ValueEnd r) :
    alt fieldFloatValueWithExponentialAndDecimal
        [fieldFloatValueWithExponentialNoDecimal, fieldFloatValueWithDecimal,
          fieldFloatValueNoDecimal] (signText neg ++ int ++ fracText frac ++ r) =
      .ok (r, signText neg ++ int ++ fracText frac) := by
  have hrest := headNot_fracText frac hr
  have hintegral : integralValueSigned (signText neg ++ int ++ (fracText frac ++ r)) =
      .ok (fracText frac ++ r, signText neg ++ int) :=
    integralValueSigned_append _ hne hint hrest
  -- no `e` follows a run of digits, so the recognizer without a decimal part fails
  have h₂ : Fails fieldFloatValueWithExponentialNoDecimal
      (signText neg ++ int ++ (fracText frac ++ r)) := by
    obtain ⟨o, ho⟩ := opt_minus neg (fracText frac ++ r) hne hint
    exact recognize_fails (preceded_fails_right ho (exponentialValue_fails hne hint hrest
      (not_prefix_fracText hr (by decide) (by decide) (by decide))
      (not_prefix_fracText hr (by decide) (by decide) (by decide))))
  rw [List.append_assoc (signText neg ++ int)]
  by_cases hf : frac = []
  · -- no fractional part: only the last recognizer reads, the integer digits
    have hnil : fracText frac = [] := by simp [fracText, hf]
    rw [hnil, List.nil_append] at hintegral h₂
    rw [hnil, List.nil_append, List.append_nil]
    have hdot : Fails (tag ['.'] : Parser Char Error (List Char)) r :=
      tag_fails (not_prefix_of_valueEnd hr (by decide) (by decide))
    have h₁ : Fails fieldFloatValueWithExponentialAndDecimal (signText neg ++ int ++ r) :=
      recognize_fails (separatedPair_fails_sep hintegral hdot)
    have h₃ : Fails fieldFloatValueWithDecimal (signText neg ++ int ++ r) :=
      recognize_fails (separatedPair_fails_sep hintegral hdot)
    rw [alt_of_fails h₁, alt_of_fails h₂, alt_of_fails h₃]
    exact alt_of_ok hintegral
  · -- a fractional part: no exponent follows it, and the recognizer with a decimal reads it
    have hdot : fracText frac = '.' :: frac := by simp [fracText, hf]
    rw [hdot] at hintegral h₂
    rw [hdot]
    have hfracEnd := headNot_of_valueEnd (p := Char.isDigit) hr (by decide) (by decide)
    have h₁ : Fails fieldFloatValueWithExponentialAndDecimal
        (signText neg ++ int ++ ('.' :: frac ++ r)) :=
      recognize_fails (separatedPair_fails_right hintegral (tag_append ['.'] (frac ++ r))
        (exponentialValue_fails hf hfrac hfracEnd
          (not_prefix_of_valueEnd hr (by decide) (by decide))
          (not_prefix_of_valueEnd hr (by decide) (by decide))))
    have hpair : (separatedPair integralValueSigned (tag ['.']) digit1 :
        Parser Char Error (List Char × List Char)) (signText neg ++ int ++ ('.' :: frac) ++ r) =
          .ok (r, (signText neg ++ int, frac)) := by
      simpa using separatedPair_of_ok hintegral (tag_append ['.'] (frac ++ r))
        (digit1_append hf hfrac hfracEnd)
    have h₃ : fieldFloatValueWithDecimal (signText neg ++ int ++ ('.' :: frac ++ r)) =
        .ok (r, signText neg ++ int ++ '.' :: frac) := by
      simpa [fieldFloatValueWithDecimal] using recognize_of_ok hpair
    rw [alt_of_fails h₁, alt_of_fails h₂, alt_of_ok h₃]

theorem fieldFloatValue_display {F : Type} {fl : FloatText F} (hfl : fl.Lawful) {x : F}
    (hx : fl.isFinite x = true) (hr : ValueEnd r) :
    fieldFloatValue fl (fl.display x ++ r) = .ok (r, x) := by
  obtain ⟨neg, int, frac, hne, hint, hfrac, hd⟩ := hfl.display_shape x hx
  have hd' : fl.display x = signText neg ++ int ++ fracText frac := hd
  have hrec := floatRecognizers_display neg hne hint hfrac hr
  rw [← hd'] at hrec
  exact mapFail_of_ok hrec (by simp [hfl.parse_display x hx])

theorem fieldFloatValue_fails {F : Type} (fl : FloatText F) (r : List Char)
    (h₁ : c ≠ '-') (h₂ : c.isDigit = false) : Fails (fieldFloatValue fl) (c :: r) := by
  have hint := integralValueSigned_fails r h₁ h₂
  exact mapFail_fails (alt_fails_cons (recognize_fails (separatedPair_fails_left hint))
    (alt_fails_cons (recognize_fails (preceded_fails_right
      (opt_of_error (tag_singleton_of_ne r h₁)) (exponentialValue_fails_of_head r h₂)))
      (alt_fails_cons (recognize_fails (separatedPair_fails_left hint)) (alt_nil_fails hint))))

/-! ### Strings -/

theorem utf8Len_append (s t : List Char) : utf8Len (s ++ t) = utf8Len s + utf8Len t := by
  simp [utf8Len]

theorem utf8Len_flatten (ps : List (List Char)) : (ps.map utf8Len).sum = utf8Len ps.flatten := by
  induction ps with
  | nil => rfl
  | cons p ps ih => simp [ih, utf8Len_append]

theorem stringData_escapedQuote (r : List Char) : stringData ('\\' :: '"' :: r) = .ok (r, ['"']) :=
  rfl

theorem stringData_escapedBackslash (r : List Char) :
    stringData ('\\' :: '\\' :: r) = .ok (r, ['\\']) :=
  rfl

theorem stringData_fails_quote (r : List Char) : Fails stringData ('"' :: r) := ⟨_, rfl⟩

/-- `string_data` takes a run of characters other than a backslash and a quote at once. -/
theorem stringData_run {run r : List Char} (hne : run ≠ [])
    (hrun : ∀ c ∈ run, plain doubleQuote c = true)
    (hr : HeadNot (fun c => c != '\\' && c != '"') r) : stringData (run ++ r) = .ok (r, run) := by
  have hpred : ∀ c ∈ run, (c != '\\' && c != '"') = true := fun c hc => by
    have := plain_eq_true_iff.mp (hrun c hc)
    simp only [doubleQuote, List.mem_singleton, not_or] at this
    simp [this.1, this.2]
  obtain ⟨c, cs, rfl⟩ := List.exists_cons_of_ne_nil hne
  have hc : c ≠ '\\' := (by simpa using hpred c List.mem_cons_self : c ≠ '\\' ∧ c ≠ '"').1
  -- the three alternatives before the run all start with a backslash
  have hbs : ∀ t, Fails (tag ('\\' :: t) : Parser Char Error (List Char)) (c :: cs ++ r) :=
    fun t => tag_fails (by simp [Ne.symm hc])
  unfold stringData
  rw [alt_of_fails (map_fails (hbs _)), alt_of_fails (map_fails (hbs _)), alt_of_fails (hbs _)]
  exact alt_of_ok (takeWhile1_append hne hpred hr)

/-- `many0(string_data)` reads an escaped string up to its closing quote, in pieces
that join to the string. The induction is on the passes left. -/
theorem many0Loop_stringData (r : List Char) :
    ∀ (fuel : ℕ) (s : List Char) (acc : List (List Char)), (escape s doubleQuote).length < fuel →
      ∃ ps, many0Loop stringData fuel (escape s doubleQuote ++ '"' :: r) acc =
        .ok ('"' :: r, acc ++ ps) ∧ ps.flatten = s
  | 0, _, _, hlen => absurd hlen (Nat.not_lt_zero _)
  | fuel + 1, [], acc, _ => by
    obtain ⟨e, he⟩ := stringData_fails_quote r
    exact ⟨[], by rw [escape_nil, List.nil_append, many0Loop_of_error he, List.append_nil], rfl⟩
  | fuel + 1, c :: s, acc, hlen => by
    cases hc : plain doubleQuote c with
    | false =>
      -- an escaped quote or backslash
      have hread : stringData (escape (c :: s) doubleQuote ++ '"' :: r) =
          .ok (escape s doubleQuote ++ '"' :: r, [c]) := by
        have hq := plain_eq_false_iff.mp hc
        simp only [doubleQuote, List.mem_singleton] at hq
        rw [escape_cons_of_not_plain s hc]
        rcases hq with rfl | rfl
        · exact stringData_escapedQuote _
        · exact stringData_escapedBackslash _
      have hlen' : (escape s doubleQuote).length < fuel := by
        simp only [escape_cons_of_not_plain s hc, List.length_cons] at hlen
        omega
      obtain ⟨ps, hps, hflat⟩ := many0Loop_stringData r fuel s (acc ++ [[c]]) hlen'
      refine ⟨[c] :: ps, ?_, by rw [List.flatten_cons, hflat]; rfl⟩
      rw [many0Loop_of_ok hread (by
        simp only [escape_cons_of_not_plain s hc, List.length_append, List.length_cons]; omega), hps]
      simp
    | true =>
      -- a run of other characters
      have hrun : (c :: s).takeWhile (plain doubleQuote) ≠ [] := by simp [hc]
      have hread : stringData (escape (c :: s) doubleQuote ++ '"' :: r) =
          .ok (escape ((c :: s).dropWhile (plain doubleQuote)) doubleQuote ++ '"' :: r,
            (c :: s).takeWhile (plain doubleQuote)) := by
        rw [escape_eq_takeWhile, List.append_assoc]
        exact stringData_run hrun (fun x hx => List.mem_takeWhile_imp hx)
          (headNot_escape_dropWhile (by decide) (c :: s) doubleQuote (headNot_cons.mpr (by decide)))
      have hsplit := escape_eq_takeWhile (c :: s) doubleQuote
      have hpos := List.length_pos_of_ne_nil hrun
      have hlen' : (escape ((c :: s).dropWhile (plain doubleQuote)) doubleQuote).length < fuel := by
        rw [hsplit, List.length_append] at hlen
        omega
      obtain ⟨ps, hps, hflat⟩ := many0Loop_stringData r fuel _
        (acc ++ [(c :: s).takeWhile (plain doubleQuote)]) hlen'
      refine ⟨(c :: s).takeWhile (plain doubleQuote) :: ps, ?_, ?_⟩
      · rw [many0Loop_of_ok hread (by rw [hsplit]; simp; omega), hps]
        simp
      · rw [List.flatten_cons, hflat, List.takeWhile_append_dropWhile]

/-- A quoted string of at most 65536 bytes is read back. -/
theorem fieldStringValue_escape {s : List Char} (r : List Char)
    (hs : utf8Len s ≤ stringLengthLimitInBytes) :
    fieldStringValue ('"' :: escape s doubleQuote ++ '"' :: r) = .ok (r, s) := by
  obtain ⟨ps, hps, hflat⟩ := many0Loop_stringData r ((escape s doubleQuote ++ '"' :: r).length + 1)
    s [] (by simp only [List.length_append, List.length_cons]; omega)
  have hmany : many0 stringData (escape s doubleQuote ++ '"' :: r) = .ok ('"' :: r, ps) := by
    simpa [many0] using hps
  have hquoted : (preceded (tag ['"']) (terminated (many0 stringData) (tag ['"'])) :
      Parser Char Error (List (List Char))) ('"' :: (escape s doubleQuote ++ '"' :: r)) =
        .ok (r, ps) := by
    have hopen : (tag ['"'] : Parser Char Error (List Char)) ('"' :: (escape s doubleQuote ++ '"' :: r)) =
        .ok (escape s doubleQuote ++ '"' :: r, ['"']) := tag_append ['"'] _
    rw [preceded_of_ok hopen]
    exact terminated_of_ok hmany (tag_append ['"'] r)
  refine mapFail_of_ok (alt_of_ok hquoted) ?_
  simp only [utf8Len_flatten, hflat, if_pos hs]

theorem fieldStringValue_fails (r : List Char) (h : c ≠ '"') : Fails fieldStringValue (c :: r) :=
  mapFail_fails (alt_fails_cons (preceded_fails_left (tag_fails (by simp [Ne.symm h])))
    (alt_nil_fails (map_fails (tag_fails (by simp [Ne.symm h])))))

/-! ### Booleans and the choice of `field_value` -/

theorem fieldBoolValue_true (r : List Char) : fieldBoolValue ("true".toList ++ r) = .ok (r, true) :=
  rfl

theorem fieldBoolValue_false (r : List Char) :
    fieldBoolValue ("false".toList ++ r) = .ok (r, false) :=
  rfl

/-- The number alternatives of `field_value` fail at a character that starts no
number. -/
theorem numbers_fail {F : Type} (fl : FloatText F) (r : List Char) (h₁ : c ≠ '-')
    (h₂ : c.isDigit = false) :
    fieldValue fl (c :: r) = alt (map fieldStringValue .string) [map fieldBoolValue .boolean] (c :: r) := by
  rw [fieldValue, alt_of_fails (map_fails (fieldIntegerValue_fails_of_head r h₁ h₂)),
    alt_of_fails (map_fails (fieldUintegerValue_fails_of_head r h₂)),
    alt_of_fails (map_fails (fieldFloatValue_fails fl r h₁ h₂))]

/-- `field_value` reads back what the builder writes for a valid value. -/
theorem fieldValue_fmt {F : Type} {fl : FloatText F} (hfl : fl.Lawful) {v : Builder.FieldValue F}
    (hv : v.Valid fl) (hr : ValueEnd r) :
    fieldValue fl (v.fmt fl ++ r) = .ok (r, v.parsed) := by
  cases v with
  | i64 x =>
    have htext : (Builder.FieldValue.i64 x).fmt fl ++ r = intText x.toInt ++ 'i' :: r := by
      simp [Builder.FieldValue.fmt]
    rw [htext]
    exact alt_of_ok (map_of_ok (fieldIntegerValue_intText x r))
  | u64 x =>
    have htext : (Builder.FieldValue.u64 x).fmt fl ++ r = natText x.toNat ++ 'u' :: r := by
      simp [Builder.FieldValue.fmt]
    have hint : integralValueSigned (natText x.toNat ++ 'u' :: r) = .ok ('u' :: r, natText x.toNat) := by
      simpa [signText] using integralValueSigned_append false (natText_ne_nil _)
        (fun _ => isDigit_of_mem_natText) (headNot_isDigit_of_ne r (c := 'u') (by decide))
    rw [htext, fieldValue, alt_of_fails (map_fails (fieldIntegerValue_fails hint (by simp)))]
    exact alt_of_ok (map_of_ok (fieldUintegerValue_natText x r))
  | f64 x =>
    obtain ⟨neg, int, frac, hne, hint, hfrac, hd⟩ := hfl.display_shape x hv
    have hd' : fl.display x ++ r = signText neg ++ int ++ (fracText frac ++ r) := by
      rw [show fl.display x = signText neg ++ int ++ fracText frac from hd, List.append_assoc]
    have hintegral : integralValueSigned (fl.display x ++ r) =
        .ok (fracText frac ++ r, signText neg ++ int) := by
      rw [hd']
      exact integralValueSigned_append _ hne hint (headNot_fracText _ hr)
    -- no suffix `i` or `u` follows the digits
    have hi : Fails fieldIntegerValue (fl.display x ++ r) :=
      fieldIntegerValue_fails hintegral (not_prefix_fracText hr (by decide) (by decide) (by decide))
    have hu : Fails fieldUintegerValue (fl.display x ++ r) := by
      cases neg with
      | true =>
        rw [hd']
        exact fieldUintegerValue_fails_of_head _ (by decide)
      | false =>
        rw [hd']
        exact fieldUintegerValue_fails (digit1_append hne hint (headNot_fracText _ hr))
          (not_prefix_fracText hr (by decide) (by decide) (by decide))
    show fieldValue fl (fl.display x ++ r) = .ok (r, .f64 x)
    rw [fieldValue, alt_of_fails (map_fails hi), alt_of_fails (map_fails hu)]
    exact alt_of_ok (map_of_ok (fieldFloatValue_display hfl hv hr))
  | str s =>
    have htext : (Builder.FieldValue.str s).fmt fl ++ r = '"' :: (escape s doubleQuote ++ '"' :: r) := by
      simp [Builder.FieldValue.fmt]
    rw [htext, numbers_fail fl _ (by decide) (by decide)]
    exact alt_of_ok (map_of_ok (fieldStringValue_escape r hv))
  | bool b =>
    cases b with
    | false =>
      have htext : (Builder.FieldValue.bool false).fmt fl ++ r = 'f' :: ("alse".toList ++ r) := rfl
      rw [htext, numbers_fail fl _ (by decide) (by decide),
        alt_of_fails (map_fails (fieldStringValue_fails _ (by decide)))]
      exact alt_of_ok (map_of_ok (fieldBoolValue_false r))
    | true =>
      have htext : (Builder.FieldValue.bool true).fmt fl ++ r = 't' :: ("rue".toList ++ r) := rfl
      rw [htext, numbers_fail fl _ (by decide) (by decide),
        alt_of_fails (map_fails (fieldStringValue_fails _ (by decide)))]
      exact alt_of_ok (map_of_ok (fieldBoolValue_true r))

end IoxCore.LineProtocol

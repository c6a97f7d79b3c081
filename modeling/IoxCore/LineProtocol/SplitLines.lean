import IoxCore.LineProtocol.Builder

/-!
# Built text, split into lines

What `split_lines` and `trim_leading` do to the text of a `LineProtocolBuilder`:
the text of each line comes out whole, and nothing is trimmed off it.

A line of built text ends in the one newline that `split_lines` cuts at. Inside
the line, every character that could end the line or start a quoted part is
either escaped (the escapes that `split_lines` skips) or sits where the closure
ignores it:

* before the first unescaped space (the measurement and the tags) quotes are not
  tracked, and a newline is excluded from the keys and values;
* in a field key there are as many `=` behind as `,`, so a `"` does not open a
  quote;
* a string value opens with a `"` after a field's `=`, contains only escaped
  quotes, and closes with a `"`;
* numbers, booleans and the timestamp have none of these characters.

## The model

`SplitState.scan` runs the closure of `split_lines` over a text and answers the
variables after it, or `none` when a line ends inside the text. The states the
closure passes through in a line are the start of a line, `fieldState k` (in the
key of the field after `k` fields) and `valueState k` (in the value of that field).
-/

namespace IoxCore.LineProtocol

open Builder RustStr

variable {F : Type} {fl : FloatText F}

/-! ### Running the closure of `split_lines` -/

/-- Puts a text in front of the first line. -/
def prependFirst (l : List Char) : List (List Char) → List (List Char)
  | [] => [l]
  | s :: ss => (l ++ s) :: ss

/-- The variables of `split_lines` after a text, or `none` when a line ends in it. -/
def SplitState.scan (st : SplitState) : List Char → Option SplitState
  | [] => some st
  | c :: cs =>
    match st.next c with
    | (st', false) => st'.scan cs
    | (_, true) => none

/-- The state in the key of a field, after `k` fields. -/
def fieldState (k : ℕ) : SplitState := ⟨false, true, k, k, false⟩

/-- The state in the value of a field, after `k` fields. -/
def valueState (k : ℕ) : SplitState := ⟨false, true, k + 1, k, false⟩

theorem splitLinesFrom_ne_nil (st : SplitState) (cs : List Char) : splitLinesFrom st cs ≠ [] := by
  cases cs with
  | nil => simp [splitLinesFrom]
  | cons c cs =>
    unfold splitLinesFrom
    split
    · simp
    · cases splitLinesFrom _ cs <;> simp [Posix.consFirst]

theorem consFirst_prependFirst (c : Char) (l : List Char) (ss : List (List Char)) :
    Posix.consFirst c (prependFirst l ss) = prependFirst (c :: l) ss := by
  cases ss <;> rfl

theorem scan_append (st : SplitState) (l₁ l₂ : List Char) :
    st.scan (l₁ ++ l₂) = (st.scan l₁).bind (·.scan l₂) := by
  induction l₁ generalizing st with
  | nil => rfl
  | cons c cs ih =>
    simp only [List.cons_append, SplitState.scan]
    split <;> simp [ih]

/-- A text that no line ends in stays in front of the first line that follows. -/
theorem splitLinesFrom_append {st st' : SplitState} {l : List Char} (h : st.scan l = some st')
    (tail : List Char) :
    splitLinesFrom st (l ++ tail) = prependFirst l (splitLinesFrom st' tail) := by
  induction l generalizing st with
  | nil =>
    obtain rfl : st = st' := by simpa [SplitState.scan] using h
    obtain ⟨s, ss, hs⟩ := List.exists_cons_of_ne_nil (splitLinesFrom_ne_nil st tail)
    simp [hs, prependFirst]
  | cons c cs ih =>
    unfold SplitState.scan at h
    split at h
    · rename_i st₁ hnext
      simp only [List.cons_append, splitLinesFrom, hnext, ih h, consFirst_prependFirst]
    · cases h

/-! ### Characters the closure passes over -/

section Next

variable {st : SplitState} {c : Char}

/-- Before the fields, only a backslash, a space and a newline do anything. -/
theorem next_of_unfielded (hi : st.inEscape = false) (hf : st.fields = false)
    (h₁ : c ≠ '\\') (h₂ : c ≠ ' ') (h₃ : c ≠ '\n') : st.next c = (st, false) := by
  simp [SplitState.next, hi, hf, h₁, h₂, h₃]

/-- In the fields and outside a quote, a space changes nothing either, and a quote
does nothing where there are no more `=` than `,` behind. -/
theorem next_of_fielded (hi : st.inEscape = false) (hf : st.fields = true)
    (hq : st.quoted = false) (h₁ : c ≠ '\\') (h₂ : c ≠ '=') (h₃ : c ≠ ',') (h₄ : c ≠ '\n')
    (h₅ : c = '"' → st.equals ≤ st.commas) : st.next c = (st, false) := by
  by_cases hsp : c = ' '
  · subst hsp
    cases st
    simp_all [SplitState.next]
  · by_cases hquote : c = '"'
    · have := h₅ hquote
      simp [SplitState.next, hi, hf, hq, hquote, Nat.not_lt.mpr this]
    · simp [SplitState.next, hi, hf, hq, h₁, h₂, h₃, h₄, hsp, hquote]

/-- Inside a quote only a backslash and a quote do anything. -/
theorem next_of_quoted (hi : st.inEscape = false) (hf : st.fields = true) (hq : st.quoted = true)
    (h₁ : c ≠ '\\') (h₂ : c ≠ '"') : st.next c = (st, false) := by
  by_cases hsp : c = ' '
  · subst hsp
    cases st
    simp_all [SplitState.next]
  · simp [SplitState.next, hi, hq, h₁, h₂, hsp]

/-- A backslash and the character it escapes leave the variables as they were. -/
theorem scan_escaped_pair (hi : st.inEscape = false) (c : Char) : st.scan ['\\', c] = some st := by
  cases st
  simp_all [SplitState.scan, SplitState.next]

end Next

theorem scan_cons_of_next {st st' : SplitState} {c : Char} (h : st.next c = (st', false))
    (l : List Char) : st.scan (c :: l) = st'.scan l := by
  simp [SplitState.scan, h]

theorem scan_of_forall {st : SplitState} {l : List Char}
    (h : ∀ c ∈ l, st.next c = (st, false)) : st.scan l = some st := by
  induction l with
  | nil => rfl
  | cons c cs ih =>
    simp only [SplitState.scan, h c List.mem_cons_self]
    exact ih fun x hx => h x (List.mem_cons_of_mem c hx)

/-- Escaped text leaves the variables as they were when its other characters do. -/
theorem scan_escape {st : SplitState} (hi : st.inEscape = false) (sp : List Char) {s : List Char}
    (h : ∀ c ∈ s, ¬(c ∈ sp ∨ c = '\\') → st.next c = (st, false)) :
    st.scan (escape s sp) = some st := by
  induction s with
  | nil => rfl
  | cons c cs ih =>
    have hrest := ih fun x hx => h x (List.mem_cons_of_mem c hx)
    have hc : st.scan (if c ∈ sp ∨ c = '\\' then ['\\', c] else [c]) = some st := by
      split
      · exact scan_escaped_pair hi c
      · rename_i hsp
        simp [SplitState.scan, h c List.mem_cons_self hsp]
    simp only [escape, List.flatMap_cons] at hrest ⊢
    rw [scan_append, hc, Option.bind_some, hrest]

/-! ### The parts of a line -/

/-- The characters of numbers, booleans and timestamps: none the closure acts on. -/
def Inert (c : Char) : Prop := c ≠ '\\' ∧ c ≠ '=' ∧ c ≠ ',' ∧ c ≠ '\n' ∧ c ≠ '"'

instance (c : Char) : Decidable (Inert c) := inferInstanceAs (Decidable (_ ∧ _))

theorem inert_of_isDigit {c : Char} (h : c.isDigit = true) : Inert c := by
  refine ⟨?_, ?_, ?_, ?_, ?_⟩ <;> rintro rfl <;> exact absurd h (by decide)

theorem inert_of_mem_intText {v : ℤ} {c : Char} (h : c ∈ intText v) : Inert c := by
  rcases mem_intText h with rfl | hd
  · exact ⟨by decide, by decide, by decide, by decide, by decide⟩
  · exact inert_of_isDigit hd

theorem scan_valueState_of_inert {k : ℕ} {l : List Char} (h : ∀ c ∈ l, Inert c) :
    (valueState k).scan l = some (valueState k) :=
  scan_of_forall fun c hc =>
    have ⟨h₁, h₂, h₃, h₄, h₅⟩ := h c hc
    next_of_fielded rfl rfl rfl h₁ h₂ h₃ h₄ fun hq => absurd hq h₅

theorem inert_of_display (hfl : fl.Lawful) {x : F}
    (hx : fl.isFinite x = true) : ∀ c ∈ fl.display x, Inert c := by
  obtain ⟨neg, int, frac, -, hint, hfrac, hd⟩ := hfl.display_shape x hx
  intro c hc
  rw [hd] at hc
  simp only [List.mem_append] at hc
  rcases hc with (hc | hc) | hc
  · split at hc
    · rw [List.mem_singleton.mp hc]
      exact ⟨by decide, by decide, by decide, by decide, by decide⟩
    · simp at hc
  · exact inert_of_isDigit (hint c hc)
  · split at hc
    · simp at hc
    · rcases List.mem_cons.mp hc with rfl | hc
      · exact ⟨by decide, by decide, by decide, by decide, by decide⟩
      · exact inert_of_isDigit (hfrac c hc)

/-- A string value opens a quote, and its closing quote ends it. -/
theorem scan_string {k : ℕ} (s : List Char) :
    (valueState k).scan ('"' :: escape s doubleQuote ++ ['"']) = some (valueState k) := by
  let q : SplitState := ⟨true, true, k + 1, k, false⟩
  have hopen : (valueState k).next '"' = (q, false) := by
    simp [SplitState.next, valueState, q]
  have hbody : q.scan (escape s doubleQuote) = some q :=
    scan_escape rfl doubleQuote fun c _ hc =>
      next_of_quoted rfl rfl rfl (fun h => hc (.inr h)) (fun h => hc (.inl (by simp [h, doubleQuote])))
  have hclose : q.next '"' = (valueState k, false) := by
    simp [SplitState.next, valueState, q]
  rw [List.cons_append, SplitState.scan, hopen]
  simp only
  rw [scan_append, hbody, Option.bind_some]
  simp [SplitState.scan, hclose]

/-- The text of a field value leaves the closure in the state of a value. -/
def ValueScans {F : Type} (fl : FloatText F) (v : Builder.FieldValue F) : Prop :=
  ∀ k, (valueState k).scan (v.fmt fl) = some (valueState k)

theorem valueScans_of_inert {v : Builder.FieldValue F}
    (h : ∀ c ∈ v.fmt fl, Inert c) : ValueScans fl v :=
  fun _ => scan_valueState_of_inert h

theorem valueScans_i64 (fl : FloatText F) (x : Int64) : ValueScans fl (.i64 x) := by
  refine valueScans_of_inert fun c hc => ?_
  rcases List.mem_append.mp hc with hc | hc
  · exact inert_of_mem_intText hc
  · rw [List.mem_singleton.mp hc]
    exact ⟨by decide, by decide, by decide, by decide, by decide⟩

/-- Every valid value, a float by the shape of its display. -/
theorem valueScans_of_valid (hfl : fl.Lawful)
    {v : Builder.FieldValue F} (hv : v.Valid fl) : ValueScans fl v := by
  cases v with
  | str s => exact fun _ => scan_string s
  | f64 x => exact valueScans_of_inert (inert_of_display hfl hv)
  | bool b =>
    cases b
    · exact valueScans_of_inert (show ∀ c ∈ "false".toList, Inert c by simp [Inert])
    · exact valueScans_of_inert (show ∀ c ∈ "true".toList, Inert c by simp [Inert])
  | i64 x => exact valueScans_i64 fl x
  | u64 x =>
    refine valueScans_of_inert fun c hc => ?_
    rcases List.mem_append.mp hc with hc | hc
    · exact inert_of_isDigit (isDigit_of_mem_natText hc)
    · rw [List.mem_singleton.mp hc]
      exact ⟨by decide, by decide, by decide, by decide, by decide⟩

/-- A key or value before the fields: its unescaped characters are not spaces or
newlines. -/
theorem scan_init_escape {sp s : List Char} (hsp : ' ' ∈ sp) (hs : ValidKey s) :
    SplitState.init.scan (escape s sp) = some SplitState.init :=
  scan_escape rfl sp fun _ hc hplain =>
    next_of_unfielded rfl rfl (fun h => hplain (.inr h)) (fun h => hplain (.inl (h ▸ hsp)))
      (fun h => hs.no_newline (h ▸ hc))

theorem scan_seriesText {l : Line F} (hl : l.Valid fl) :
    SplitState.init.scan l.seriesText = some SplitState.init := by
  have hcomma : SplitState.init.scan [','] = some SplitState.init := by decide
  have hequal : SplitState.init.scan ['='] = some SplitState.init := by decide
  have htags : ∀ ts : List (List Char × List Char), (∀ t ∈ ts, ValidKey t.1 ∧ ValidKey t.2) →
      SplitState.init.scan (ts.flatMap fun t => ',' :: tagText t) = some SplitState.init := by
    intro ts hts
    induction ts with
    | nil => rfl
    | cons t ts ih =>
      obtain ⟨hk, hv⟩ := hts t List.mem_cons_self
      have ht : SplitState.init.scan (',' :: tagText t) = some SplitState.init := by
        have e : ',' :: tagText t =
            [','] ++ escape t.1 commaEqSpace ++ ['='] ++ escape t.2 commaEqSpace := by
          simp [tagText]
        rw [e, scan_append, scan_append, scan_append, hcomma, Option.bind_some,
          scan_init_escape (by decide) hk, Option.bind_some, hequal, Option.bind_some,
          scan_init_escape (by decide) hv]
      rw [List.flatMap_cons, scan_append, ht, Option.bind_some]
      exact ih fun t ht => hts t (List.mem_cons_of_mem _ ht)
  rw [Line.seriesText, scan_append, scan_init_escape (by decide) hl.measurement, Option.bind_some]
  exact htags l.tags hl.tags

/-- A field key keeps the key state: there are as many `=` behind as `,`. -/
theorem scan_fieldState_escape {k : ℕ} {s : List Char} (hs : ValidKey s) :
    (fieldState k).scan (escape s commaEqSpace) = some (fieldState k) :=
  scan_escape rfl commaEqSpace fun c hc hplain =>
    next_of_fielded rfl rfl rfl (fun h => hplain (.inr h))
      (fun h => hplain (.inl (by simp [h, commaEqSpace])))
      (fun h => hplain (.inl (by simp [h, commaEqSpace])))
      (fun h => hs.no_newline (h ▸ hc)) (fun _ => le_refl k)

theorem scan_formatField {k : ℕ}
    {f : List Char × Builder.FieldValue F} (hk : ValidKey f.1) (hv : ValueScans fl f.2) :
    (fieldState k).scan (formatField fl f.1 f.2) = some (valueState k) := by
  have heq : (fieldState k).next '=' = (valueState k, false) := by
    simp [SplitState.next, fieldState, valueState]
  rw [formatField, scan_append, scan_fieldState_escape hk, Option.bind_some, SplitState.scan,
    heq]
  exact hv k

theorem scan_fields : ∀ (fs : List (List Char × Builder.FieldValue F)) (k : ℕ),
      (∀ f ∈ fs, ValidKey f.1 ∧ ValueScans fl f.2) →
      (valueState k).scan (fs.flatMap fun f => ',' :: formatField fl f.1 f.2) =
        some (valueState (k + fs.length))
  | [], k, _ => rfl
  | f :: fs, k, h => by
    obtain ⟨hk, hv⟩ := h f List.mem_cons_self
    have hcomma : (valueState k).next ',' = (fieldState (k + 1), false) := by
      simp [SplitState.next, valueState, fieldState]
    rw [List.flatMap_cons, List.cons_append, SplitState.scan, hcomma]
    simp only
    rw [scan_append, scan_formatField hk hv, Option.bind_some,
      scan_fields fs (k + 1) fun f hf => h f (List.mem_cons_of_mem _ hf)]
    simp [Nat.add_assoc, Nat.add_comm 1]

theorem scan_timestampText (k : ℕ) (ts : Option Int64) :
    (valueState k).scan (timestampText ts) = some (valueState k) := by
  cases ts with
  | none => rfl
  | some ts =>
    refine scan_valueState_of_inert fun c hc => ?_
    rcases List.mem_cons.mp hc with rfl | hc
    · exact ⟨by decide, by decide, by decide, by decide, by decide⟩
    · exact inert_of_mem_intText hc

/-- The values of a line, each leaving the closure in the state of a value. -/
def Builder.Line.Scans {F : Type} (fl : FloatText F) (l : Line F) : Prop :=
  ∀ f ∈ l.field :: l.fields, ValueScans fl f.2

/-- With a lawful float text, every value of a valid line scans. -/
theorem Builder.Line.Valid.scans {l : Line F} (hl : l.Valid fl) (hfl : fl.Lawful) : l.Scans fl :=
  fun f hf => valueScans_of_valid hfl (hl.fields f hf).2

/-- A built line runs from the start of a line to the value of its last field. -/
theorem scan_text {l : Line F} (hl : l.Valid fl)
    (hs : l.Scans fl) : SplitState.init.scan (l.text fl) = some (valueState l.fields.length) := by
  have hkeys : ∀ f ∈ l.field :: l.fields, ValidKey f.1 ∧ ValueScans fl f.2 :=
    fun f hf => ⟨(hl.fields f hf).1, hs f hf⟩
  obtain ⟨hk, hv⟩ := hkeys l.field List.mem_cons_self
  have hspace : SplitState.init.next ' ' = (fieldState 0, false) := by decide
  rw [Line.text, scan_append, scan_append, scan_seriesText hl, Option.bind_some,
    scan_cons_of_next hspace, Line.fieldsText, scan_append, scan_formatField hk hv,
    Option.bind_some, scan_fields l.fields 0 fun f hf => hkeys f (List.mem_cons_of_mem _ hf),
    Option.bind_some, Nat.zero_add, scan_timestampText]

/-- `split_lines` yields the text of each built line, and an empty last line. -/
theorem splitLines_buildLines (lines : List (Line F))
    (hv : ∀ l ∈ lines, l.Valid fl) (hs : ∀ l ∈ lines, l.Scans fl) :
    splitLines (buildLines fl lines) = lines.map (·.text fl) ++ [[]] := by
  rw [buildLines_eq, splitLines]
  induction lines with
  | nil => rfl
  | cons l lines ih =>
    have hnl : (valueState l.fields.length).next '\n' = (SplitState.init, true) := by
      simp [SplitState.next, valueState]
    rw [List.flatMap_cons, List.append_assoc, splitLinesFrom_append
      (scan_text (hv l List.mem_cons_self) (hs l List.mem_cons_self)), List.singleton_append,
      splitLinesFrom, hnl]
    simp only
    rw [ih (fun l hl => hv l (List.mem_cons_of_mem _ hl)) fun l hl => hs l (List.mem_cons_of_mem _ hl)]
    simp [prependFirst]

/-- `trim_leading` leaves a built line as it is: it starts with its measurement. -/
theorem trimLeading_text {l : Line F} (hl : l.Valid fl) : trimLeading (l.text fl) = l.text fl := by
  obtain ⟨m, ms, hm⟩ := List.exists_cons_of_ne_nil hl.measurement.ne_nil
  have hnt : m ≠ '\t' := fun h => hl.measurement.no_tab (h ▸ hm ▸ List.mem_cons_self)
  have hnn : m ≠ '\n' := fun h => hl.measurement.no_newline (h ▸ hm ▸ List.mem_cons_self)
  have hnh : m ≠ '#' := fun h => hl.measurement_head (by simp [hm, h])
  -- the first character is the measurement's first, or the backslash escaping it
  obtain ⟨c, rest, htext, hc⟩ : ∃ c rest, l.text fl = c :: rest ∧
      isWhitespaceBoundaryChar c = false ∧ c ≠ '#' := by
    by_cases hsp : m ∈ commaSpace ∨ m = '\\'
    · refine ⟨'\\', ?_⟩
      simp [Line.text, Line.seriesText, hm, escape, hsp, isWhitespaceBoundaryChar]
    · have hns : m ≠ ' ' := fun h => hsp (.inl (by simp [h, commaSpace]))
      refine ⟨m, ?_⟩
      simp [Line.text, Line.seriesText, hm, escape, hsp, isWhitespaceBoundaryChar, hns, hnt,
        hnn, hnh]
  rw [htext, trimLeading, List.length_cons, trimLeadingLoop, List.dropWhile_cons_of_neg
    (by simpa using hc.1)]
  split
  · rename_i h
    exact absurd (List.cons.inj h).1 hc.2
  · rfl

end IoxCore.LineProtocol

import IoxCore.LineProtocol.SplitLines
import IoxCore.LineProtocol.Values

/-!
# Built lines parse back

The round trip of the line protocol crate: the text that `LineProtocolBuilder`
writes for a sequence of lines is split by `split_lines`, trimmed by
`trim_leading` and read by `parse_line`, and each line answers the
measurement, tags, fields and timestamp it was built from.

* `parameterized_separated_list` reads the tags and the fields, each item after
  a comma, up to the space or the end of the line after the list.
* `series` reads the measurement and the tags and records the text it consumed,
  which is the text the builder wrote for them.
* The optional timestamp is read after a space; nothing is left after it.

The identifiers the builder escapes are read back only when they are at most
65536 bytes long: `escape_or_fallback` refuses a longer one with a
`Failure`, and a line with such a measurement is an error of its own.

## The model

Each line is `Builder.Line`; its validity (`Line.Valid`) and the bound on its
identifiers (`Line.Bounded`) are hypotheses of the round trip. The float type is
the parameter `FloatText`, lawful for the round trip; `wholeFloat`, the floats
that are whole numbers of `i64`, is one such.
-/

namespace IoxCore.LineProtocol

open Nom RustStr Builder

variable {F : Type} {fl : FloatText F} {r : List Char}

/-! ### Lists of items after commas -/

/-- What follows a list of tags or of fields in a line: a space, or nothing. -/
def ListEnd (r : List Char) : Prop := ∀ c ∈ r.head?, c = ' '

theorem valueEnd_of_listEnd (h : ListEnd r) : ValueEnd r :=
  fun c hc => Or.inr (h c hc)

theorem not_comma_prefix_of_listEnd (h : ListEnd r) : ¬ [','] <+: r := by
  rintro ⟨t, rfl⟩
  exact absurd (h ',' rfl) (by decide)

section CommaItems

variable {α γ : Type} {f : Parser Char Error α} {g : γ → List Char} {v : γ → α}

/-- The text of items, each after a comma. -/
def commaItems (g : γ → List Char) (xs : List γ) : List Char := xs.flatMap fun x => ',' :: g x

@[simp] theorem commaItems_nil : commaItems g [] = [] := rfl

@[simp] theorem commaItems_cons (x : γ) (xs : List γ) :
    commaItems g (x :: xs) = ',' :: (g x ++ commaItems g xs) := rfl

theorem valueEnd_commaItems (g : γ → List Char) (hr : ListEnd r) (xs : List γ) :
    ValueEnd (commaItems g xs ++ r) := by
  cases xs with
  | nil => exact valueEnd_of_listEnd hr
  | cons x xs => exact fun c hc => Or.inl (by simpa using hc.symm)

theorem length_le_commaItems (g : γ → List Char) (xs : List γ) : xs.length ≤ (commaItems g xs).length := by
  induction xs with
  | nil => simp
  | cons x xs ih => simp; omega

/-- An item parser that reads each item back, up to a comma, a space or the end. -/
def ReadsItems (f : Parser Char Error α) (g : γ → List Char) (v : γ → α) (xs : List γ) : Prop :=
  ∀ x ∈ xs, ∀ r, ValueEnd r → f (g x ++ r) = .ok (r, v x)

theorem ReadsItems.tail {x : γ} {xs : List γ} (h : ReadsItems f g v (x :: xs)) :
    ReadsItems f g v xs :=
  fun y hy => h y (List.mem_cons_of_mem _ hy)

/-- The loop of `parameterized_separated_list` reads the items after commas, given
one more round of fuel than there are items, and stops at the end of the list. -/
theorem separatedListLoop_commaItems (hr : ListEnd r) :
    ∀ (xs : List γ) (fuel : ℕ) (res : List α), ReadsItems f g v xs → xs.length < fuel →
      separatedListLoop (tag [',']) f fuel (commaItems g xs ++ r) res = .ok (r, res ++ xs.map v)
  | [], fuel + 1, res, _, _ => by
    simp [separatedListLoop, tag_of_not_prefix (not_comma_prefix_of_listEnd hr)]
  | x :: xs, fuel + 1, res, hf, hlen => by
    have ih := separatedListLoop_commaItems hr xs fuel (res ++ [v x]) hf.tail
      (by simp at hlen; omega)
    have hx := hf x List.mem_cons_self _ (valueEnd_commaItems g hr xs)
    rw [commaItems_cons, List.cons_append, List.append_assoc]
    generalize commaItems g xs ++ r = rest at hx ih ⊢
    have hsep : (tag [','] : Parser Char Error (List Char)) (',' :: (g x ++ rest)) =
        .ok (g x ++ rest, [',']) := tag_append [','] _
    -- each round consumes the comma and the item
    have hne₁ : g x ++ rest ≠ ',' :: (g x ++ rest) := (List.cons_ne_self _ _).symm
    have hne₂ : rest ≠ ',' :: (g x ++ rest) := fun h => by
      have := congrArg List.length h
      simp only [List.length_cons, List.length_append] at this
      omega
    rw [separatedListLoop, hsep]
    simp only [if_neg hne₁, hx, if_neg hne₂, ih, List.map_cons, List.append_assoc,
      List.singleton_append]
  | _ :: _, 0, _, _, hlen => absurd hlen (by simp)
  | [], 0, _, _, hlen => absurd hlen (by simp)

/-- `parameterized_separated_list` reads a first item and the items after commas. -/
theorem parameterizedSeparatedList_commaItems (hr : ListEnd r) {x : γ}
    {xs : List γ} (res : List α) (hf : ReadsItems f g v (x :: xs)) (hx : g x ≠ []) :
    parameterizedSeparatedList (tag [',']) f res (g x ++ commaItems g xs ++ r) =
      .ok (r, res ++ (x :: xs).map v) := by
  have hloop := separatedListLoop_commaItems hr xs ((commaItems g xs ++ r).length + 1)
    (res ++ [v x]) hf.tail (by have := length_le_commaItems g xs; simp; omega)
  have hfx := hf x List.mem_cons_self _ (valueEnd_commaItems g hr xs)
  rw [List.append_assoc]
  generalize commaItems g xs ++ r = rest at hfx hloop ⊢
  have hne : rest ≠ g x ++ rest := fun h => hx (by simpa using congrArg List.length h)
  simp only [parameterizedSeparatedList, hfx, if_neg hne, hloop, List.map_cons, List.append_assoc,
    List.singleton_append]

/-- `parameterized_separated_list1` reads a first item and the items after commas. -/
theorem parameterizedSeparatedList1_commaItems (hr : ListEnd r) {x : γ}
    {xs : List γ} (hf : ReadsItems f g v (x :: xs)) (hg : ∀ y ∈ xs, g y ≠ []) :
    parameterizedSeparatedList1 (tag [',']) f (g x ++ commaItems g xs ++ r) =
      .ok (r, (x :: xs).map v) := by
  cases xs with
  | nil =>
    have hfx := hf x List.mem_cons_self r (valueEnd_of_listEnd hr)
    simp [parameterizedSeparatedList1, hfx, tag_of_not_prefix (not_comma_prefix_of_listEnd hr)]
  | cons y ys =>
    have hlist := parameterizedSeparatedList_commaItems hr [v x] hf.tail
      (hg y List.mem_cons_self)
    have hfx := hf x List.mem_cons_self _ (valueEnd_commaItems g hr (y :: ys))
    have hsep : (tag [','] : Parser Char Error (List Char)) (',' :: (g y ++ commaItems g ys ++ r)) =
        .ok (g y ++ commaItems g ys ++ r, [',']) := tag_append [','] _
    rw [commaItems_cons, List.cons_append] at hfx
    rw [List.append_assoc, commaItems_cons, List.cons_append]
    simp only [parameterizedSeparatedList1, hfx, hsep, hlist, List.map_cons, List.singleton_append]

end CommaItems

/-! ### Tags and fields -/

theorem tagText_ne_nil (t : List Char × List Char) : tagText t ≠ [] := by
  simp [tagText]

theorem formatField_ne_nil (fl : FloatText F) (f : List Char × Builder.FieldValue F) :
    formatField fl f.1 f.2 ≠ [] := by
  simp [formatField]

/-- A tag is read back as its key and its value. -/
theorem tag_readsItems {tags : List (List Char × List Char)}
    (h : ∀ t ∈ tags, ValidKey t.1 ∧ ValidKey t.2) (hb : ∀ t ∈ tags,
      utf8Len t.1 ≤ stringLengthLimitInBytes ∧ utf8Len t.2 ≤ stringLengthLimitInBytes) :
    ReadsItems (separatedPair tagKey (tag ['=']) tagValue) tagText id tags := by
  intro t ht r hr
  rw [tagText, List.append_assoc, List.cons_append]
  exact separatedPair_of_ok (tagKey_escape (h t ht).1 (hb t ht).1) (tag_append ['='] _)
    (tagValue_escape (h t ht).2 (hb t ht).2 hr)

/-- A field is read back as its key and the parser's value for it. -/
theorem field_readsItems (hfl : fl.Lawful) {fields : List (List Char × Builder.FieldValue F)}
    (h : ∀ f ∈ fields, ValidKey f.1 ∧ f.2.Valid fl)
    (hb : ∀ f ∈ fields, utf8Len f.1 ≤ stringLengthLimitInBytes) :
    ReadsItems (separatedPair fieldKey (tag ['=']) (fieldValue fl)) (fun f => formatField fl f.1 f.2)
      (fun f => (f.1, f.2.parsed)) fields := by
  intro f hf r hr
  simp only [formatField, List.append_assoc, List.cons_append]
  exact separatedPair_of_ok (fieldKey_escape (h f hf).1 (hb f hf)) (tag_append ['='] _)
    (fieldValue_fmt hfl (h f hf).2 hr)

/-- `maybe_tagset` reads the tags after the measurement: none when there are none. -/
theorem maybeTagset_tags {tags : List (List Char × List Char)} (hr : ListEnd r)
    (hr' : r ≠ []) (h : ReadsItems (separatedPair tagKey (tag ['=']) tagValue) tagText id tags) :
    maybeTagset (commaItems tagText tags ++ r) = .ok (r, if tags = [] then none else some tags) := by
  cases tags with
  | nil =>
    obtain ⟨c, rest, rfl⟩ := List.exists_cons_of_ne_nil hr'
    have hc : c ≠ ',' := fun hc => absurd (hc ▸ hr c rfl) (by decide)
    simp [maybeTagset, tag_singleton_of_ne rest hc]
  | cons t ts =>
    have hset := parameterizedSeparatedList_commaItems hr [] h (tagText_ne_nil t)
    simp only [List.nil_append, List.map_id] at hset
    have hsep : (tag [','] : Parser Char Error (List Char))
        (',' :: (tagText t ++ commaItems tagText ts ++ r)) =
          .ok (tagText t ++ commaItems tagText ts ++ r, [',']) := tag_append [','] _
    simp only [commaItems_cons, List.cons_append, maybeTagset, hsep, tagSet, hset]
    simp

/-! ### A line -/

theorem exists_cons_of_valueEnd (h : ValueEnd r) (hne : r ≠ []) :
    ∃ c rest, r = c :: rest ∧ (c = ',' ∨ c = ' ') := by
  obtain ⟨c, rest, rfl⟩ := List.exists_cons_of_ne_nil hne
  exact ⟨c, rest, rfl, h c rfl⟩

theorem listEnd_space (rest : List Char) : ListEnd (' ' :: rest) :=
  fun _ hc => by simpa using hc.symm

/-- `parse_and_recognize` answers the text its parser consumed. -/
theorem parseAndRecognize_of_ok {α : Type} {p : Parser Char Error α} {s r : List Char} {a : α}
    (h : p (s ++ r) = .ok (r, a)) : parseAndRecognize p (s ++ r) = .ok (r, (s, a)) := by
  simp [parseAndRecognize, h]

theorem parseAndRecognize_of_error {α : Type} {p : Parser Char Error α} {i : List Char}
    {e : Err Error} (h : p i = .error e) : parseAndRecognize p i = .error e := by
  simp [parseAndRecognize, h]

/-- `series` reads the measurement and the tags of a built line, with the text they
were written as. -/
theorem series_seriesText {l : Line F} (hm : ValidKey l.measurement)
    (hmb : utf8Len l.measurement ≤ stringLengthLimitInBytes)
    (htags : ReadsItems (separatedPair tagKey (tag ['=']) tagValue) tagText id l.tags)
    (rest : List Char) :
    series (l.seriesText ++ ' ' :: rest) = .ok (' ' :: rest, l.parsed.series) := by
  have hend := valueEnd_commaItems tagText (listEnd_space rest) l.tags
  have hmeas := measurement_escape hm hmb (exists_cons_of_valueEnd hend (by simp))
  have htagset := maybeTagset_tags (listEnd_space rest) (List.cons_ne_nil _ _) htags
  have hpair : pair measurement maybeTagset (l.seriesText ++ ' ' :: rest) =
      .ok (' ' :: rest, (l.measurement, if l.tags = [] then none else some l.tags)) := by
    rw [Line.seriesText, List.append_assoc]
    show pair measurement maybeTagset
      (escape l.measurement commaSpace ++ (commaItems tagText l.tags ++ ' ' :: rest)) = _
    rw [pair_of_ok hmeas, map_of_ok htagset]
  simp only [series, map_of_ok (parseAndRecognize_of_ok hpair)]
  rfl

/-- A measurement of more than 65536 bytes makes `series` fail for good. -/
theorem series_tooLarge {l : Line F} (hm : ValidKey l.measurement)
    (hb : stringLengthLimitInBytes < utf8Len l.measurement) (rest : List Char) :
    series (l.seriesText ++ ' ' :: rest) = .error (.failure .fieldStringValueTooLarge) := by
  have hend := valueEnd_commaItems tagText (listEnd_space rest) l.tags
  have hmeas := measurement_tooLarge hm hb (exists_cons_of_valueEnd hend (by simp))
  rw [Line.seriesText, List.append_assoc]
  exact map_of_error (parseAndRecognize_of_error (pair_of_error hmeas))

/-- `field_set` reads the fields of a built line. -/
theorem fieldSet_fieldsText (hfl : fl.Lawful) {l : Line F}
    (h : ∀ f ∈ l.field :: l.fields, ValidKey f.1 ∧ f.2.Valid fl)
    (hb : ∀ f ∈ l.field :: l.fields, utf8Len f.1 ≤ stringLengthLimitInBytes)
    (hr : ListEnd r) : fieldSet fl (l.fieldsText fl ++ r) = .ok (r, l.parsed.fieldSet) := by
  have hlist := parameterizedSeparatedList1_commaItems hr (field_readsItems hfl h hb)
    fun f _ => formatField_ne_nil fl f
  simp only [fieldSet]
  rw [show l.fieldsText fl = formatField fl l.field.1 l.field.2 ++
    commaItems (fun f => formatField fl f.1 f.2) l.fields from rfl, hlist]
  rfl

theorem listEnd_timestampText (ts : Option Int64) : ListEnd (timestampText ts) := by
  cases ts with
  | none => exact fun _ hc => by simp [timestampText] at hc
  | some t => exact listEnd_space _

/-- `timestamp` reads back the display of every `i64`. -/
theorem timestamp_intText (v : Int64) : timestamp (intText v.toInt) = .ok ([], v) := by
  have hint := integralValueSigned_intText v.toInt (r := []) (headNot_nil _)
  rw [List.append_nil] at hint
  refine mapFail_of_ok hint ?_
  simp [parseI64_intText (Int64.le_toInt v) (Int64.toInt_lt v), Int64.ofInt_toInt]

theorem headNot_space_intText (v : ℤ) : HeadNot (· == ' ') (intText v) :=
  headNot_of_forall fun c hc => by
    rcases mem_intText hc with rfl | hd
    · rfl
    · exact beq_false_of_ne fun h => absurd hd (by rw [h]; decide)

/-- The optional timestamp at the end of `parse_line` reads what the builder writes
for it, up to the end of the line. -/
theorem timestampPart_timestampText (ts : Option Int64) :
    (opt (preceded whitespace (terminated timestamp (opt whitespace))) :
      Parser Char Error (Option Int64)) (timestampText ts) = .ok ([], ts) := by
  cases ts with
  | none =>
    obtain ⟨e, he⟩ := preceded_fails_left (q := terminated timestamp (opt whitespace))
      (takeWhile1_fails (p := (· == ' ')) (headNot_nil _))
    exact opt_of_error he
  | some t =>
    have hws : whitespace (' ' :: intText t.toInt) = .ok (intText t.toInt, [' ']) :=
      takeWhile1_append (s := [' ']) (by simp) (by simp) (headNot_space_intText _)
    have hend : (opt whitespace : Parser Char Error (Option (List Char))) [] = .ok ([], none) := by
      obtain ⟨e, he⟩ := takeWhile1_fails (ε := Error) (p := (· == ' ')) (headNot_nil _)
      exact opt_of_error he
    exact opt_of_ok ((preceded_of_ok hws).trans (terminated_of_ok (timestamp_intText t) hend))

theorem headNot_space_escape {s : List Char} (sp r : List Char) (hs : s ≠ []) (hsp : ' ' ∈ sp) :
    HeadNot (· == ' ') (escape s sp ++ r) := by
  obtain ⟨c, s', rfl⟩ := List.exists_cons_of_ne_nil hs
  cases hp : plain sp c with
  | true =>
    have hc : c ≠ ' ' := by
      rintro rfl
      exact absurd (plain_eq_true_iff.mp hp) (by simp [hsp])
    simp [escape_cons_of_plain s' hp, headNot_cons, hc]
  | false => simp [escape_cons_of_not_plain s' hp, headNot_cons]

/-- `parse_line` reads a valid, bounded built line whole, as the line it was built
from. -/
theorem parseLine_text (hfl : fl.Lawful) {l : Line F}
    (hl : l.Valid fl) (hb : l.Bounded) : parseLine fl (l.text fl) = .ok ([], l.parsed) := by
  have hkey := (hl.fields l.field List.mem_cons_self).1
  have hws : whitespace (' ' :: (l.fieldsText fl ++ timestampText l.timestamp)) =
      .ok (l.fieldsText fl ++ timestampText l.timestamp, [' ']) := by
    refine takeWhile1_append (s := [' ']) (by simp) (by simp) ?_
    simpa [Line.fieldsText, formatField] using
      headNot_space_escape commaEqSpace _ hkey.ne_nil (by decide)
  have hfields := fieldSet_fieldsText hfl hl.fields hb.fields
    (listEnd_timestampText l.timestamp)
  have hrest : pair (preceded whitespace (fieldSet fl))
      (opt (preceded whitespace (terminated timestamp (opt whitespace))))
      (' ' :: (l.fieldsText fl ++ timestampText l.timestamp)) =
        .ok ([], (l.parsed.fieldSet, l.timestamp)) := by
    rw [pair_of_ok ((preceded_of_ok hws).trans hfields),
      map_of_ok (timestampPart_timestampText l.timestamp)]
  have hseries := series_seriesText hl.measurement hb.measurement
    (tag_readsItems hl.tags hb.tags) (l.fieldsText fl ++ timestampText l.timestamp)
  have hline : pair series (pair (preceded whitespace (fieldSet fl))
      (opt (preceded whitespace (terminated timestamp (opt whitespace))))) (l.text fl) =
        .ok ([], (l.parsed.series, l.parsed.fieldSet, l.timestamp)) := by
    rw [Line.text, List.append_assoc, List.cons_append, pair_of_ok hseries, map_of_ok hrest]
  rw [parseLine, map_of_ok hline]
  rfl

/-! ### The round trip -/

theorem text_isEmpty (fl : FloatText F) (l : Line F) : (l.text fl).isEmpty = false := by
  simp [Line.text]

/-- Every sequence of valid lines, each measurement, tag key, tag value and field key at
most 65536 bytes, that the builder writes is parsed back, one line for each, in order, as
the lines it was built from. -/
theorem parseLines_buildLines {F : Type} {fl : FloatText F} (hfl : fl.Lawful)
    (lines : List (Line F)) (hv : ∀ l ∈ lines, l.Valid fl) (hb : ∀ l ∈ lines, l.Bounded) :
    parseLines fl (buildLines fl lines) = lines.map fun l => .ok l.parsed := by
  rw [parseLines, splitLines_buildLines lines hv fun l hl => (hv l hl).scans hfl]
  induction lines with
  | nil => rfl
  | cons l ls ih =>
    have hl := hv l List.mem_cons_self
    simp only [List.map_cons, List.cons_append, List.filterMap_cons, trimLeading_text hl,
      text_isEmpty, parseLine_text hfl hl (hb l List.mem_cons_self)]
    simp only [Bool.false_eq_true, if_false, List.isEmpty_nil, if_true]
    rw [ih (fun l h => hv l (List.mem_cons_of_mem _ h)) fun l h => hb l (List.mem_cons_of_mem _ h)]

/-- Floats that are whole numbers of `i64`, written and read as `i64` is. -/
def wholeFloat : FloatText Int64 :=
  ⟨fun x => intText x.toInt, fun s => (parseI64 s).map Int64.ofInt, fun _ => true⟩

theorem wholeFloat_lawful : wholeFloat.Lawful where
  display_shape x _ := ⟨decide (x.toInt < 0), natText x.toInt.natAbs, [], natText_ne_nil _,
    fun _ => isDigit_of_mem_natText, by simp, by simp [wholeFloat, intText_eq, signText]⟩
  parse_display x _ := by
    simp [wholeFloat, parseI64_intText (Int64.le_toInt x) (Int64.toInt_lt x), Int64.ofInt_toInt]

/-- `cpu,host=a\ b usage=2,ok=true,n=3i,s="x \"y\"",u=7u 100`. -/
def cpuLine : Line Int64 :=
  ⟨"cpu".toList, [("host".toList, "a b".toList)], ("usage".toList, .f64 2),
    [("ok".toList, .bool true), ("n".toList, .i64 3), ("s".toList, .str "x \"y\"".toList),
      ("u".toList, .u64 7)], some 100⟩

theorem parseLines_buildLines_cpuLine : wholeFloat.Lawful ∧ (∀ l ∈ [cpuLine], l.Valid wholeFloat) ∧
    (∀ l ∈ [cpuLine], l.Bounded) ∧
    parseLines wholeFloat (buildLines wholeFloat [cpuLine]) = [.ok cpuLine.parsed] :=
  ⟨wholeFloat_lawful, by decide, by decide,
    parseLines_buildLines wholeFloat_lawful [cpuLine] (by decide) (by decide)⟩

/-- A line whose measurement is 65537 bytes long, one more than `escape_or_fallback`
takes. -/
def longMeasurementLine {F : Type} : Line F :=
  ⟨List.replicate (stringLengthLimitInBytes + 1) 'a', [], (['f'], .i64 1), [], none⟩

theorem validKey_replicate {n : ℕ} {c : Char} (hn : n ≠ 0) (ht : c ≠ '\t') (hl : c ≠ '\n')
    (h0 : c ≠ '\x00') (hb : c ≠ '\\') : ValidKey (List.replicate n c) :=
  ⟨by simpa using hn, by simp [List.mem_replicate, Ne.symm ht], by simp [List.mem_replicate, Ne.symm hl],
    by simp [List.mem_replicate, Ne.symm h0], by simp [List.getLast?_replicate, hn, hb]⟩

/-- A valid line whose measurement is more than 65536 bytes is not read back:
`parse_lines` answers `FieldStringValueTooLarge` for it. -/
theorem parseLines_measurement_tooLarge {l : Line F}
    (hv : l.Valid fl) (hs : l.Scans fl) (hb : stringLengthLimitInBytes < utf8Len l.measurement) :
    parseLines fl (buildLines fl [l]) = [.error .fieldStringValueTooLarge] := by
  have hparse : parseLine fl (l.text fl) = .error (.failure .fieldStringValueTooLarge) := by
    rw [Line.text, List.append_assoc, List.cons_append, parseLine]
    exact map_of_error (pair_of_error (series_tooLarge hv.measurement hb _))
  rw [parseLines, splitLines_buildLines [l] (by simpa using hv) (by simpa using hs)]
  simp only [List.map_cons, List.map_nil, List.cons_append, List.nil_append, List.filterMap_cons,
    trimLeading_text hv, text_isEmpty, hparse]
  rfl

theorem long_measurement_not_read_back : (longMeasurementLine : Line Int64).Valid wholeFloat ∧
    parseLines wholeFloat (buildLines wholeFloat [longMeasurementLine]) =
      [.error .fieldStringValueTooLarge] := by
  have hm : ValidKey (List.replicate (stringLengthLimitInBytes + 1) 'a') :=
    validKey_replicate (Nat.succ_ne_zero _) (by decide) (by decide) (by decide) (by decide)
  have hv : (longMeasurementLine : Line Int64).Valid wholeFloat :=
    ⟨hm, by simp [longMeasurementLine, List.head?_replicate], by simp [longMeasurementLine],
      by simp [longMeasurementLine, FieldValue.Valid]; decide⟩
  have hb : stringLengthLimitInBytes < utf8Len (List.replicate (stringLengthLimitInBytes + 1) 'a') := by
    have : Char.utf8Size 'a' = 1 := rfl
    simp [utf8Len, List.map_replicate, this]
  have hs : (longMeasurementLine : Line Int64).Scans wholeFloat := by
    simpa [Line.Scans, longMeasurementLine] using valueScans_i64 wholeFloat 1
  exact ⟨hv, parseLines_measurement_tooLarge hv hs hb⟩

end IoxCore.LineProtocol

import IoxCore.LineProtocol.Parser

/-!
# The line protocol builder

`LineProtocolBuilder` (influxdb_line_protocol/src/builder.rs) writes line
protocol into a buffer. Its type parameter is the position in the line, so the
calls of a line can only come in the order measurement, tags, one or more
fields, an optional timestamp, `close_line`.

* A measurement is escaped for `,`, space and backslash; tag keys, tag values
  and field keys for `,`, `=`, space and backslash.
* A string field value is written between `"`, escaped for `"` and backslash; a
  float by its `Display`, a boolean as `true` or `false`, an `i64` with the
  suffix `i` and a `u64` with the suffix `u`.
* `close_line` writes a newline.

## The model

A builder is its buffer, a character list, indexed by the position (the
`AfterTag` marker type is declared in the source and never used, so it is left
out). The implementations of the `FieldValue` trait are the constructors of
`FieldValue`. The calls that build one line are a `Line`, and `Line.write` makes
them in the order the types force.
-/

namespace IoxCore.LineProtocol.Builder

open RustStr

/-- The positions of the builder's typestate. -/
inductive Position
  | beforeMeasurement
  | afterMeasurement
  | afterField
  | afterTimestamp
  deriving DecidableEq, Repr

/-- `LineProtocolBuilder`, by its buffer. -/
structure LineProtocolBuilder (S : Position) where
  buf : List Char
  deriving DecidableEq, Repr

/-- `COMMA_EQ_SPACE`. -/
def commaEqSpace : List Char := [',', '=', ' ']

/-- `COMMA_SPACE`. -/
def commaSpace : List Char := [',', ' ']

/-- `DOUBLE_QUOTE`. -/
def doubleQuote : List Char := ['"']

/-- `escape` and `Escaped::fmt`: a backslash before each special character and
before each backslash. -/
def escape (src specialCharacters : List Char) : List Char :=
  src.flatMap fun ch => if ch ∈ specialCharacters ∨ ch = '\\' then ['\\', ch] else [ch]

/-- The implementations of the trait `FieldValue`. -/
inductive FieldValue (F : Type)
  | str (v : List Char)
  | f64 (v : F)
  | bool (v : Bool)
  | i64 (v : Int64)
  | u64 (v : UInt64)
  deriving DecidableEq, Repr

/-- `FieldValue::fmt`. -/
def FieldValue.fmt {F : Type} (fl : FloatText F) : FieldValue F → List Char
  | .str v => '"' :: escape v doubleQuote ++ ['"']
  | .f64 v => fl.display v
  | .bool v => if v then "true".toList else "false".toList
  | .i64 v => intText v.toInt ++ ['i']
  | .u64 v => natText v.toNat ++ ['u']

/-- `format_field`. -/
def formatField {F : Type} (fl : FloatText F) (fieldKey : List Char) (fieldValue : FieldValue F) :
    List Char :=
  escape fieldKey commaEqSpace ++ '=' :: fieldValue.fmt fl

/-- `LineProtocolBuilder::write`: appends to the buffer and moves to a new position. -/
def LineProtocolBuilder.write {S S2 : Position} (b : LineProtocolBuilder S) (args : List Char) :
    LineProtocolBuilder S2 :=
  ⟨b.buf ++ args⟩

/-- `LineProtocolBuilder::close`. -/
def LineProtocolBuilder.close {S : Position} (b : LineProtocolBuilder S) :
    LineProtocolBuilder .beforeMeasurement :=
  b.write ['\n']

/-- A builder before a measurement. -/
abbrev BeforeMeasurement := LineProtocolBuilder .beforeMeasurement

/-- A builder after a measurement and its tags. -/
abbrev AfterMeasurement := LineProtocolBuilder .afterMeasurement

/-- A builder after a field. -/
abbrev AfterField := LineProtocolBuilder .afterField

/-- A builder after a timestamp. -/
abbrev AfterTimestamp := LineProtocolBuilder .afterTimestamp

/-- `LineProtocolBuilder::new`. -/
def LineProtocolBuilder.new : BeforeMeasurement := ⟨[]⟩

/-- `measurement`. -/
def BeforeMeasurement.measurement (b : BeforeMeasurement) (measurement : List Char) :
    AfterMeasurement :=
  b.write (escape measurement commaSpace)

/-- `build`. -/
def BeforeMeasurement.build (b : BeforeMeasurement) : List Char := b.buf

/-- `tag`. -/
def AfterMeasurement.tag (b : AfterMeasurement) (tagKey tagValue : List Char) : AfterMeasurement :=
  b.write (',' :: escape tagKey commaEqSpace ++ '=' :: escape tagValue commaEqSpace)

/-- `field` for the first field. -/
def AfterMeasurement.field {F : Type} (fl : FloatText F) (b : AfterMeasurement)
    (fieldKey : List Char) (fieldValue : FieldValue F) : AfterField :=
  b.write (' ' :: formatField fl fieldKey fieldValue)

/-- `field` for the second and later fields. -/
def AfterField.field {F : Type} (fl : FloatText F) (b : AfterField)
    (fieldKey : List Char) (fieldValue : FieldValue F) : AfterField :=
  b.write (',' :: formatField fl fieldKey fieldValue)

/-- `timestamp`. -/
def AfterField.timestamp (b : AfterField) (ts : Int64) : AfterTimestamp :=
  b.write (' ' :: intText ts.toInt)

/-- `close_line` after the fields. -/
def AfterField.closeLine (b : AfterField) : BeforeMeasurement := b.close

/-- `close_line` after the timestamp. -/
def AfterTimestamp.closeLine (b : AfterTimestamp) : BeforeMeasurement := b.close

/-- The calls of one line: the measurement, the tags, the first field and the
later ones, and the timestamp if one is given. -/
structure Line (F : Type) where
  measurement : List Char
  tags : List (List Char × List Char)
  field : List Char × FieldValue F
  fields : List (List Char × FieldValue F)
  timestamp : Option Int64

/-- Makes the calls of a line, then `close_line`. -/
def Line.write {F : Type} (fl : FloatText F) (b : BeforeMeasurement) (l : Line F) :
    BeforeMeasurement :=
  let afterTags := l.tags.foldl (fun b t => AfterMeasurement.tag b t.1 t.2)
    (BeforeMeasurement.measurement b l.measurement)
  let afterFields := l.fields.foldl (fun b f => AfterField.field fl b f.1 f.2)
    (AfterMeasurement.field fl afterTags l.field.1 l.field.2)
  match l.timestamp with
  | none => AfterField.closeLine afterFields
  | some ts => AfterTimestamp.closeLine (AfterField.timestamp afterFields ts)

/-- A new builder, the calls of each line in turn, and `build`. -/
def buildLines {F : Type} (fl : FloatText F) (lines : List (Line F)) : List Char :=
  BeforeMeasurement.build (lines.foldl (Line.write fl) LineProtocolBuilder.new)

/-! ### The text of a line -/

/-- What `tag` writes after its comma. -/
def tagText (t : List Char × List Char) : List Char :=
  escape t.1 commaEqSpace ++ '=' :: escape t.2 commaEqSpace

/-- The measurement and the tags of a line, as written. -/
def Line.seriesText {F : Type} (l : Line F) : List Char :=
  escape l.measurement commaSpace ++ l.tags.flatMap fun t => ',' :: tagText t

/-- The fields of a line, as written after the space that follows the tags. -/
def Line.fieldsText {F : Type} (fl : FloatText F) (l : Line F) : List Char :=
  formatField fl l.field.1 l.field.2 ++ l.fields.flatMap fun f => ',' :: formatField fl f.1 f.2

/-- The timestamp of a line, as written. -/
def timestampText : Option Int64 → List Char
  | none => []
  | some ts => ' ' :: intText ts.toInt

/-- A line as written, without its newline. -/
def Line.text {F : Type} (fl : FloatText F) (l : Line F) : List Char :=
  l.seriesText ++ ' ' :: l.fieldsText fl ++ timestampText l.timestamp

section Text

variable {F : Type} (fl : FloatText F)

theorem foldl_tag_buf (tags : List (List Char × List Char)) (b : AfterMeasurement) :
    (tags.foldl (fun b t => AfterMeasurement.tag b t.1 t.2) b).buf =
      b.buf ++ tags.flatMap fun t => ',' :: tagText t := by
  induction tags generalizing b with
  | nil => simp
  | cons t tags ih =>
    rw [List.foldl_cons, ih]
    simp [AfterMeasurement.tag, LineProtocolBuilder.write, tagText]

theorem foldl_field_buf (fields : List (List Char × FieldValue F)) (b : AfterField) :
    (fields.foldl (fun b f => AfterField.field fl b f.1 f.2) b).buf =
      b.buf ++ fields.flatMap fun f => ',' :: formatField fl f.1 f.2 := by
  induction fields generalizing b with
  | nil => simp
  | cons f fields ih =>
    rw [List.foldl_cons, ih]
    simp [AfterField.field, LineProtocolBuilder.write]

/-- The calls of a line append its text and a newline. -/
theorem Line.write_buf (b : BeforeMeasurement) (l : Line F) :
    (l.write fl b).buf = b.buf ++ l.text fl ++ ['\n'] := by
  unfold Line.write
  cases hts : l.timestamp with
  | none =>
    simp [AfterField.closeLine, LineProtocolBuilder.close, LineProtocolBuilder.write,
      foldl_field_buf, foldl_tag_buf, AfterMeasurement.field, BeforeMeasurement.measurement,
      Line.text, Line.seriesText, Line.fieldsText, timestampText, hts]
  | some ts =>
    simp [AfterTimestamp.closeLine, AfterField.timestamp, LineProtocolBuilder.close,
      LineProtocolBuilder.write, foldl_field_buf, foldl_tag_buf, AfterMeasurement.field,
      BeforeMeasurement.measurement, Line.text, Line.seriesText, Line.fieldsText, timestampText,
      hts]

/-- The built text is each line's text followed by a newline. -/
theorem buildLines_eq (lines : List (Line F)) :
    buildLines fl lines = lines.flatMap fun l => l.text fl ++ ['\n'] := by
  have h : ∀ (b : BeforeMeasurement),
      (lines.foldl (Line.write fl) b).buf = b.buf ++ lines.flatMap fun l => l.text fl ++ ['\n'] := by
    induction lines with
    | nil => simp
    | cons l lines ih => intro b; simp [ih, Line.write_buf]
  simpa [buildLines, BeforeMeasurement.build, LineProtocolBuilder.new] using h LineProtocolBuilder.new

end Text

/-! ### The lines the parser reads back -/

/-- A measurement, tag key, tag value or field key as the round trip allows it:
non-empty, without tab, newline or NUL, and not ending in a backslash. -/
structure ValidKey (s : List Char) : Prop where
  ne_nil : s ≠ []
  no_tab : '\t' ∉ s
  no_newline : '\n' ∉ s
  no_null : '\x00' ∉ s
  last_ne : s.getLast? ≠ some '\\'

instance (s : List Char) : Decidable (ValidKey s) :=
  decidable_of_iff (s ≠ [] ∧ '\t' ∉ s ∧ '\n' ∉ s ∧ '\x00' ∉ s ∧ s.getLast? ≠ some '\\')
    ⟨fun ⟨h₁, h₂, h₃, h₄, h₅⟩ => ⟨h₁, h₂, h₃, h₄, h₅⟩,
      fun ⟨h₁, h₂, h₃, h₄, h₅⟩ => ⟨h₁, h₂, h₃, h₄, h₅⟩⟩

/-- A field value as the round trip allows it: a string of at most 65536 bytes, a
finite float. -/
def FieldValue.Valid {F : Type} (fl : FloatText F) : FieldValue F → Prop
  | .str v => utf8Len v ≤ stringLengthLimitInBytes
  | .f64 v => fl.isFinite v = true
  | _ => True

instance FieldValue.decValid {F : Type} (fl : FloatText F) :
    (v : FieldValue F) → Decidable (v.Valid fl)
  | .str v => inferInstanceAs (Decidable (utf8Len v ≤ stringLengthLimitInBytes))
  | .f64 v => inferInstanceAs (Decidable (fl.isFinite v = true))
  | .bool _ | .i64 _ | .u64 _ => isTrue trivial

/-- The calls of a line as the round trip allows them; the measurement does not
start with `#`, which would make the line a comment. -/
structure Line.Valid {F : Type} (fl : FloatText F) (l : Line F) : Prop where
  measurement : ValidKey l.measurement
  measurement_head : l.measurement.head? ≠ some '#'
  tags : ∀ t ∈ l.tags, ValidKey t.1 ∧ ValidKey t.2
  fields : ∀ f ∈ l.field :: l.fields, ValidKey f.1 ∧ f.2.Valid fl

instance {F : Type} (fl : FloatText F) (l : Line F) : Decidable (l.Valid fl) :=
  decidable_of_iff (ValidKey l.measurement ∧ l.measurement.head? ≠ some '#' ∧
      (∀ t ∈ l.tags, ValidKey t.1 ∧ ValidKey t.2) ∧
      ∀ f ∈ l.field :: l.fields, ValidKey f.1 ∧ f.2.Valid fl)
    ⟨fun ⟨h₁, h₂, h₃, h₄⟩ => ⟨h₁, h₂, h₃, h₄⟩, fun ⟨h₁, h₂, h₃, h₄⟩ => ⟨h₁, h₂, h₃, h₄⟩⟩

/-- Every measurement, tag key, tag value and field key of a line is at most 65536
bytes, the limit `escape_or_fallback` puts on them. -/
structure Line.Bounded {F : Type} (l : Line F) : Prop where
  measurement : utf8Len l.measurement ≤ stringLengthLimitInBytes
  tags : ∀ t ∈ l.tags,
    utf8Len t.1 ≤ stringLengthLimitInBytes ∧ utf8Len t.2 ≤ stringLengthLimitInBytes
  fields : ∀ f ∈ l.field :: l.fields, utf8Len f.1 ≤ stringLengthLimitInBytes

instance {F : Type} (l : Line F) : Decidable l.Bounded :=
  decidable_of_iff (utf8Len l.measurement ≤ stringLengthLimitInBytes ∧
      (∀ t ∈ l.tags,
        utf8Len t.1 ≤ stringLengthLimitInBytes ∧ utf8Len t.2 ≤ stringLengthLimitInBytes) ∧
      ∀ f ∈ l.field :: l.fields, utf8Len f.1 ≤ stringLengthLimitInBytes)
    ⟨fun ⟨h₁, h₂, h₃⟩ => ⟨h₁, h₂, h₃⟩, fun ⟨h₁, h₂, h₃⟩ => ⟨h₁, h₂, h₃⟩⟩

/-- The parser's value for a builder value. -/
def FieldValue.parsed {F : Type} : FieldValue F → LineProtocol.FieldValue F
  | .str v => .string v
  | .f64 v => .f64 v
  | .bool v => .boolean v
  | .i64 v => .i64 v
  | .u64 v => .u64 v

/-- The parsed line that the calls of a line describe: its measurement, its tags
in order (none when there are none), its fields in order and its timestamp. -/
def Line.parsed {F : Type} (l : Line F) : ParsedLine F :=
  ⟨⟨l.seriesText, l.measurement, if l.tags = [] then none else some l.tags⟩,
    (l.field :: l.fields).map (fun f => (f.1, f.2.parsed)), l.timestamp⟩

end IoxCore.LineProtocol.Builder

import IoxCore.LineProtocol.Parser

/-!
# Writing a parsed line back

The `Display` implementations of `ParsedLine`, `Series` and `FieldValue`
(influxdb_line_protocol/src/lib.rs), documented as converting a parsed line
"back to (canonical) line protocol".

* `escape_and_write_value` puts a backslash before each character of a given
  set: `,` and space in a measurement; `,`, `=` and space in tag keys, tag
  values and field keys; `"` in a string field value. A backslash itself is
  not escaped.
* A string field value is written escaped and without quotes; integers with
  their suffix `i` or `u`, floats by their `Display`, booleans as `true` or
  `false`.

## The model

The text is a character list. `escape_and_write_value` walks the matches of the
set one character at a time, which is the same as escaping each character.
-/

namespace IoxCore.LineProtocol

open RustStr

/-- `MEASUREMENT_DELIMITERS`. -/
def measurementDelimiters : List Char := [',', ' ']

/-- `TAG_KEY_DELIMITERS`. -/
def tagKeyDelimiters : List Char := [',', '=', ' ']

/-- `TAG_VALUE_DELIMITERS`. -/
def tagValueDelimiters : List Char := tagKeyDelimiters

/-- `FIELD_KEY_DELIMITERS`. -/
def fieldKeyDelimiters : List Char := tagKeyDelimiters

/-- `FIELD_VALUE_STRING_DELIMITERS`. -/
def fieldValueStringDelimiters : List Char := ['"']

/-- `escape_and_write_value`. -/
def escapeAndWriteValue (value escapingSpecification : List Char) : List Char :=
  value.flatMap fun c => if c ∈ escapingSpecification then ['\\', c] else [c]

/-- `Display for FieldValue`. -/
def FieldValue.display {F : Type} (fl : FloatText F) : FieldValue F → List Char
  | .i64 v => intText v.toInt ++ ['i']
  | .u64 v => natText v.toNat ++ ['u']
  | .f64 v => fl.display v
  | .string v => escapeAndWriteValue v fieldValueStringDelimiters
  | .boolean v => if v then "true".toList else "false".toList

/-- `Display for Series`. -/
def Series.display (s : Series) : List Char :=
  escapeAndWriteValue s.measurement measurementDelimiters ++
    match s.tagSet with
    | none => []
    | some tagSet =>
      ',' :: List.intercalate [','] (tagSet.map fun t =>
        escapeAndWriteValue t.1 tagKeyDelimiters ++ '=' :: escapeAndWriteValue t.2 tagValueDelimiters)

/-- `Display for ParsedLine`. -/
def ParsedLine.display {F : Type} (fl : FloatText F) (p : ParsedLine F) : List Char :=
  p.series.display ++
    (if p.fieldSet.isEmpty then []
     else ' ' :: List.intercalate [','] (p.fieldSet.map fun f =>
        escapeAndWriteValue f.1 fieldKeyDelimiters ++ '=' :: f.2.display fl)) ++
    match p.timestamp with
    | some timestamp => ' ' :: intText timestamp.toInt
    | none => []

/-- A line with one string field. -/
def stringFieldLine : List Char := "m f=\"x\"".toList

/-- The line `stringFieldLine` is parsed into. -/
def stringFieldParsed {F : Type} : ParsedLine F :=
  ⟨⟨['m'], ['m'], none⟩, [(['f'], .string ['x'])], none⟩

/-- The string field `"x"` is written back as `x`, without its quotes, and that
text is not line protocol: no field value parses from `x`. -/
theorem display_drops_string_quotes {F : Type} (fl : FloatText F) :
    parseLines fl stringFieldLine = [.ok stringFieldParsed] ∧
      stringFieldParsed.display fl = "m f=x".toList ∧
      parseLines fl (stringFieldParsed.display fl) = [.error .fieldSetMissing] := by
  have hsplit : splitLines stringFieldLine = [stringFieldLine] := by decide
  have htrim : trimLeading stringFieldLine = stringFieldLine := by decide
  have hparse : parseLine fl stringFieldLine = .ok ([], stringFieldParsed) := by rfl
  have hsplit' : splitLines "m f=x".toList = ["m f=x".toList] := by decide
  have htrim' : trimLeading "m f=x".toList = "m f=x".toList := by decide
  have hparse' : parseLine fl "m f=x".toList = .error (.error .fieldSetMissing) := by rfl
  have hdisplay : stringFieldParsed.display fl = "m f=x".toList := by rfl
  refine ⟨?_, hdisplay, ?_⟩
  · simp only [parseLines, hsplit, List.filterMap_cons, List.filterMap_nil, htrim, hparse]
    rfl
  · simp only [parseLines, hdisplay, hsplit', List.filterMap_cons, List.filterMap_nil, htrim',
      hparse']
    rfl

end IoxCore.LineProtocol

import IoxCore.Lib.Nom
import IoxCore.Lib.Parse
import IoxCore.Lib.Path

/-!
# The line protocol parser

`parse_lines` (influxdb_line_protocol/src/lib.rs) reads line protocol text: a measurement, an
optional tag set, a field set and an optional timestamp per line.

* `split_lines` cuts the input at the newlines that are not escaped and not inside a quoted
  string field; it tracks quotes only after the first unescaped space, and only for a `"` that
  follows more `=` than `,`.
* `trim_leading` drops leading whitespace and whole `#` comment lines; an empty line yields
  nothing.
* `parse_line` is a nom grammar. Measurements, tag keys, tag values and field keys go through
  `escape_or_fallback`, which turns a backslash and a known character into that character, keeps
  an unknown escape as written, and rejects a logical value that ends in a backslash or is
  longer than 65536 bytes. A field value is tried as an integer (`1i`), an unsigned integer
  (`1u`), a float, a quoted string and a boolean, in this order.
* Text left over after a line's grammar is `CannotParseEntireLine`.

## The model

The input is a character list, as is each slice of the Rust code. An `EscapedStr` is its logical
value; whether it was copied out of the input is not kept. `f64` is a parameter type `F` with its
`FromStr` (`FloatText`); `i64` and `u64` values are `Int64` and `UInt64`. A failed integer or
float conversion keeps the text that was converted, not the standard library's error value. The
loops of `escape_or_fallback_inner`, `parameterized_separated_list` and `trim_leading` consume
input on every pass that goes on, and are given one pass more than the input is long.
-/

namespace IoxCore.LineProtocol

open Nom RustStr

/-- `STRING_LENGTH_LIMIT_IN_BYTES`. -/
def stringLengthLimitInBytes : ℕ := 65536

/-- `str::len`: the length of a text in UTF-8 bytes. -/
def utf8Len (s : List Char) : ℕ := (s.map Char.utf8Size).sum

/-- The crate's `Error`. -/
inductive Error
  | duplicateTag (tagKey : List Char)
  | measurementValueInvalid
  | fieldSetMissing
  | integerValueInvalid (value : List Char)
  | uintegerValueInvalid (value : List Char)
  | floatValueInvalid (value : List Char)
  | timestampValueInvalid (value : List Char)
  | endsWithBackslash
  | cannotParseEntireLine (trailingContent : List Char)
  | tagSetMalformed
  | genericParsingError (kind : ErrorKind) (trace : List Error)
  | fieldStringValueTooLarge
  deriving Repr

/-- `impl ParseError<&str> for Error`. -/
instance : ParseError Char Error where
  fromErrorKind _ kind := .genericParsingError kind []
  append _ kind other := .genericParsingError kind [other]

/-- `FieldValue`. -/
inductive FieldValue (F : Type)
  | i64 (v : Int64)
  | u64 (v : UInt64)
  | f64 (v : F)
  | string (v : List Char)
  | boolean (v : Bool)
  deriving DecidableEq, Repr

/-- `Series`: the measurement and the tag set, with the input they were read from. -/
structure Series where
  rawInput : List Char
  measurement : List Char
  tagSet : Option (List (List Char × List Char))
  deriving DecidableEq, Repr

/-- `ParsedLine`. -/
structure ParsedLine (F : Type) where
  series : Series
  fieldSet : List (List Char × FieldValue F)
  timestamp : Option Int64
  deriving DecidableEq, Repr

/-! ### Splitting and trimming lines -/

/-- The variables of the closure of `split_lines`. -/
structure SplitState where
  quoted : Bool
  fields : Bool
  equals : ℕ
  commas : ℕ
  inEscape : Bool
  deriving DecidableEq, Repr

/-- The closure's variables at the start of a line. -/
def SplitState.init : SplitState := ⟨false, false, 0, 0, false⟩

/-- The closure of `split_lines` on one character: its variables afterwards, and
whether the character ends a line. -/
def SplitState.next (st : SplitState) (c : Char) : SplitState × Bool :=
  if st.inEscape then ({ st with inEscape := false }, false)
  else if c = '\\' then ({ st with inEscape := true }, false)
  else if c = ' ' then ({ st with fields := true }, false)
  else if st.fields && !st.quoted && c == '=' then ({ st with equals := st.equals + 1 }, false)
  else if st.fields && !st.quoted && c == ',' then ({ st with commas := st.commas + 1 }, false)
  else if st.fields && c == '"' && decide (st.equals > st.commas) then
    ({ st with quoted := !st.quoted }, false)
  else if c == '\n' && !st.quoted then (SplitState.init, true)
  else (st, false)

/-- `str::split` with the closure of `split_lines`, from given variables. -/
def splitLinesFrom : SplitState → List Char → List (List Char)
  | _, [] => [[]]
  | st, c :: cs =>
    match st.next c with
    | (st', true) => [] :: splitLinesFrom st' cs
    | (st', false) => Posix.consFirst c (splitLinesFrom st' cs)

/-- `split_lines`. -/
def splitLines (input : List Char) : List (List Char) := splitLinesFrom .init input

/-- `is_whitespace_boundary_char`. -/
def isWhitespaceBoundaryChar (c : Char) : Bool := c == ' ' || c == '\t' || c == '\n'

/-- `is_null_char`. -/
def isNullChar (c : Char) : Bool := c == '\x00'

/-- The loop of `trim_leading`. -/
def trimLeadingLoop : ℕ → List Char → List Char
  | 0, i => i
  | fuel + 1, i =>
    match i.dropWhile isWhitespaceBoundaryChar with
    | '#' :: rest => trimLeadingLoop fuel (('#' :: rest).dropWhile (· != '\n'))
    | i' => i'

/-- `trim_leading`. -/
def trimLeading (i : List Char) : List Char := trimLeadingLoop (i.length + 1) i

/-! ### Escaped text -/

section Escapes

variable {ε : Type} [ParseError Char ε]

/-- The loop of `escape_or_fallback_inner`: `head` is the input left and
`result` the logical text read so far. -/
def escapeOrFallbackInnerLoop (normal : Parser Char ε (List Char)) (escapeChar : List Char)
    (escaped : Parser Char ε (List Char)) (i : List Char) :
    ℕ → List Char → List Char → IResult Char ε (List Char)
  | 0, head, result => .ok (head, result)
  | fuel + 1, head, result =>
    match normal head with
    | .ok (remaining, parsed) =>
      escapeOrFallbackInnerLoop normal escapeChar escaped i fuel remaining (result ++ parsed)
    | .error (.error _) =>
      if escapeChar.isPrefixOf head then
        let after := head.drop escapeChar.length
        match escaped after with
        | .ok (remaining, parsed) =>
          escapeOrFallbackInnerLoop normal escapeChar escaped i fuel remaining (result ++ parsed)
        | .error (.error _) =>
          -- an unknown escape is kept as written, the escape and the next character
          match after with
          | c :: remaining =>
            escapeOrFallbackInnerLoop normal escapeChar escaped i fuel remaining
              (result ++ escapeChar ++ [c])
          | [] => .ok ([], result ++ escapeChar)
        | .error e => .error e
      else if head = i then .error (.error (ParseError.fromErrorKind head .escapedTransform))
      else .ok (head, result)
    | .error e => .error e

/-- `escape_or_fallback_inner`. -/
def escapeOrFallbackInner (normal : Parser Char ε (List Char)) (escapeChar : List Char)
    (escaped : Parser Char ε (List Char)) : Parser Char ε (List Char) := fun i =>
  escapeOrFallbackInnerLoop normal escapeChar escaped i (i.length + 1) i []

end Escapes

/-- `escape_or_fallback`. -/
def escapeOrFallback (normal : Parser Char Error (List Char)) (escapeChar : List Char)
    (escaped : Parser Char Error (List Char)) : Parser Char Error (List Char) := fun i =>
  match escapeOrFallbackInner normal escapeChar escaped i with
  | .ok (remaining, s) =>
    if s.getLast? = some '\\' then .error (.failure .endsWithBackslash)
    else if utf8Len s > stringLengthLimitInBytes then .error (.failure .fieldStringValueTooLarge)
    else .ok (remaining, s)
  | .error e => .error e

/-- `escaped_value`: the escapes of tag keys, tag values and field keys. -/
def escapedValue (normal : Parser Char Error (List Char)) : Parser Char Error (List Char) :=
  let backslash := map (tag ['\\']) fun _ => ['\\']
  let comma := map (tag [',']) fun _ => [',']
  let equal := map (tag ['=']) fun _ => ['=']
  let space := map (tag [' ']) fun _ => [' ']
  escapeOrFallback normal ['\\'] (alt backslash [comma, equal, space])

/-! ### The grammar -/

/-- `map_fail`: a failed conversion of the output is a `Failure`. -/
def mapFail {α β : Type} (first : Parser Char Error α) (second : α → Except Error β) :
    Parser Char Error β := fun i =>
  match first i with
  | .ok (remaining, value) =>
    match second value with
    | .ok v => .ok (remaining, v)
    | .error e => .error (.failure e)
  | .error e => .error e

/-- `parse_and_recognize`: the output with the input that was consumed. -/
def parseAndRecognize {α : Type} (parser : Parser Char Error α) :
    Parser Char Error (List Char × α) := fun input =>
  match parser input with
  | .ok (i, o) => .ok (i, (input.take (input.length - i.length), o))
  | .error e => .error e

section SeparatedList

variable {α β : Type}

/-- The loop of `parameterized_separated_list`, after its first element. -/
def separatedListLoop (sep : Parser Char Error β) (f : Parser Char Error α) :
    ℕ → List Char → List α → IResult Char Error (List α)
  | 0, i, res => .ok (i, res)
  | fuel + 1, i, res =>
    match sep i with
    | .error (.error _) => .ok (i, res)
    | .error e => .error e
    | .ok (i1, _) =>
      if i1 = i then .error (.error (ParseError.fromErrorKind i1 .separatedList))
      else
        match f i1 with
        | .error (.error _) => .ok (i, res)
        | .error e => .error e
        | .ok (i2, o) =>
          if i2 = i then .error (.error (ParseError.fromErrorKind i2 .separatedList))
          else separatedListLoop sep f fuel i2 (res ++ [o])

/-- `parameterized_separated_list`, collecting onto `res`. -/
def parameterizedSeparatedList (sep : Parser Char Error β) (f : Parser Char Error α)
    (res : List α) : Parser Char Error (List α) := fun i =>
  match f i with
  | .error (.error _) => .ok (i, res)
  | .error e => .error e
  | .ok (i1, o) =>
    if i1 = i then .error (.error (ParseError.fromErrorKind i1 .separatedList))
    else separatedListLoop sep f (i1.length + 1) i1 (res ++ [o])

/-- `parameterized_separated_list1`. -/
def parameterizedSeparatedList1 (sep : Parser Char Error β) (f : Parser Char Error α) :
    Parser Char Error (List α) := fun i =>
  match f i with
  | .error e => .error e
  | .ok (rem, first) =>
    match sep rem with
    | .ok (rem', _) => parameterizedSeparatedList sep f [first] rem'
    | .error (.error _) => .ok (rem, [first])
    | .error e => .error e

end SeparatedList

/-- `measurement`. -/
def measurement : Parser Char Error (List Char) := fun i =>
  let normalChar := takeWhile1 fun c =>
    !isWhitespaceBoundaryChar c && !isNullChar c && c != ',' && c != '\\'
  let space := map (tag [' ']) fun _ => [' ']
  let comma := map (tag [',']) fun _ => [',']
  let backslash := map (tag ['\\']) fun _ => ['\\']
  match escapeOrFallback normalChar ['\\'] (alt comma [space, backslash]) i with
  | .error (.error _) => .error (.error .measurementValueInvalid)
  | other => other

/-- `tag_key`. -/
def tagKey : Parser Char Error (List Char) :=
  escapedValue (takeWhile1 fun c => !isWhitespaceBoundaryChar c && c != '=' && c != '\\')

/-- `tag_value`. -/
def tagValue : Parser Char Error (List Char) :=
  escapedValue (takeWhile1 fun c => !isWhitespaceBoundaryChar c && c != ',' && c != '\\')

/-- `tag_set`. -/
def tagSet : Parser Char Error (List (List Char × List Char)) :=
  parameterizedSeparatedList (tag [',']) (separatedPair tagKey (tag ['=']) tagValue) []

/-- `maybe_tagset`: after a comma there must be at least one tag. -/
def maybeTagset : Parser Char Error (Option (List (List Char × List Char))) := fun i =>
  match (tag [','] : Parser Char Error (List Char)) i with
  | .error (.error _) => .ok (i, none)
  | .ok (remainder, _) =>
    match tagSet remainder with
    | .ok (i', ts) => if ts = [] then .error (.error .tagSetMalformed) else .ok (i', some ts)
    | .error (.error _) => .error (.error .tagSetMalformed)
    | .error e => .error e
  | .error e => .error e

/-- `series`. -/
def series : Parser Char Error Series :=
  map (parseAndRecognize (pair measurement maybeTagset))
    fun (rawInput, (measurement, tagSet)) => ⟨rawInput, measurement, tagSet⟩

/-- `field_key`. -/
def fieldKey : Parser Char Error (List Char) :=
  escapedValue (takeWhile1 fun c => !isWhitespaceBoundaryChar c && c != '=' && c != '\\')

/-- `integral_value_signed`. -/
def integralValueSigned : Parser Char Error (List Char) :=
  recognize (preceded (opt (tag ['-'])) digit1)

/-- `field_integer_value`. -/
def fieldIntegerValue : Parser Char Error Int64 :=
  mapFail (terminated integralValueSigned (tag ['i'])) fun value =>
    match parseI64 value with
    | some v => .ok (Int64.ofInt v)
    | none => .error (.integerValueInvalid value)

/-- `field_uinteger_value`. -/
def fieldUintegerValue : Parser Char Error UInt64 :=
  mapFail (terminated digit1 (tag ['u'])) fun value =>
    match parseU64 value with
    | some v => .ok (UInt64.ofNat v)
    | none => .error (.uintegerValueInvalid value)

/-- `exponential_value`. -/
def exponentialValue : Parser Char Error (List Char) :=
  recognize (separatedPair digit1
    (pair (alt (tag ['e']) [tag ['E']]) (opt (alt (tag ['-']) [tag ['+']]))) digit1)

/-- `field_float_value_with_decimal`. -/
def fieldFloatValueWithDecimal : Parser Char Error (List Char) :=
  recognize (separatedPair integralValueSigned (tag ['.']) digit1)

/-- `field_float_value_with_exponential_and_decimal`. -/
def fieldFloatValueWithExponentialAndDecimal : Parser Char Error (List Char) :=
  recognize (separatedPair integralValueSigned (tag ['.']) exponentialValue)

/-- `field_float_value_with_exponential_no_decimal`. -/
def fieldFloatValueWithExponentialNoDecimal : Parser Char Error (List Char) :=
  recognize (preceded (opt (tag ['-'])) exponentialValue)

/-- `field_float_value_no_decimal`. -/
def fieldFloatValueNoDecimal : Parser Char Error (List Char) := integralValueSigned

/-- `field_float_value`. -/
def fieldFloatValue {F : Type} (fl : FloatText F) : Parser Char Error F :=
  mapFail (alt fieldFloatValueWithExponentialAndDecimal
      [fieldFloatValueWithExponentialNoDecimal, fieldFloatValueWithDecimal,
        fieldFloatValueNoDecimal]) fun value =>
    match fl.parse value with
    | some v => .ok v
    | none => .error (.floatValueInvalid value)

/-- The alternatives of `string_data` in `field_string_value`. -/
def stringData : Parser Char Error (List Char) :=
  alt (map (tag ['\\', '"']) fun _ => ['"'])
    [map (tag ['\\', '\\']) fun _ => ['\\'], tag ['\\'], takeWhile1 fun c => c != '\\' && c != '"']

/-- `field_string_value`: at most 65536 bytes once unescaped. -/
def fieldStringValue : Parser Char Error (List Char) :=
  let emptyStr := map (tag ['"', '"']) fun _ => ([] : List (List Char))
  let quotedStr := alt (preceded (tag ['"']) (terminated (many0 stringData) (tag ['"']))) [emptyStr]
  mapFail quotedStr fun value =>
    if stringLengthLimitInBytes ≥ (value.map utf8Len).sum then .ok value.flatten
    else .error .fieldStringValueTooLarge

/-- `field_bool_value`. -/
def fieldBoolValue : Parser Char Error Bool :=
  alt (map (tag "true".toList) fun _ => true)
    [map (tag "True".toList) fun _ => true, map (tag "TRUE".toList) fun _ => true,
      map (tag ['t']) fun _ => true, map (tag ['T']) fun _ => true,
      map (tag "false".toList) fun _ => false, map (tag "False".toList) fun _ => false,
      map (tag "FALSE".toList) fun _ => false, map (tag ['f']) fun _ => false,
      map (tag ['F']) fun _ => false]

/-- `field_value`. -/
def fieldValue {F : Type} (fl : FloatText F) : Parser Char Error (FieldValue F) :=
  alt (map fieldIntegerValue .i64)
    [map fieldUintegerValue .u64, map (fieldFloatValue fl) .f64, map fieldStringValue .string,
      map fieldBoolValue .boolean]

/-- `field_set`: at least one field. -/
def fieldSet {F : Type} (fl : FloatText F) : Parser Char Error (List (List Char × FieldValue F)) :=
  fun i =>
  match parameterizedSeparatedList1 (tag [','])
      (separatedPair fieldKey (tag ['=']) (fieldValue fl)) i with
  | .error (.error _) => .error (.error .fieldSetMissing)
  | other => other

/-- `whitespace`. -/
def whitespace : Parser Char Error (List Char) := takeWhile1 (· == ' ')

/-- `timestamp`. -/
def timestamp : Parser Char Error Int64 :=
  mapFail integralValueSigned fun value =>
    match parseI64 value with
    | some v => .ok (Int64.ofInt v)
    | none => .error (.timestampValueInvalid value)

/-- `parse_line`. -/
def parseLine {F : Type} (fl : FloatText F) : Parser Char Error (ParsedLine F) :=
  map (pair series (pair (preceded whitespace (fieldSet fl))
      (opt (preceded whitespace (terminated timestamp (opt whitespace))))))
    fun (series, fieldSet, timestamp) => ⟨series, fieldSet, timestamp⟩

/-- `parse_lines`: one result for each line that is not blank or a comment. -/
def parseLines {F : Type} (fl : FloatText F) (input : List Char) :
    List (Except Error (ParsedLine F)) :=
  (splitLines input).filterMap fun line =>
    let i := trimLeading line
    if i.isEmpty then none
    else
      some <| match parseLine fl i with
        | .ok (remaining, line) =>
          if remaining.isEmpty then .ok line else .error (.cannotParseEntireLine remaining)
        | .error (.error e) | .error (.failure e) => .error e

end IoxCore.LineProtocol

import IoxCore.Lib.BigEndian
import IoxCore.Lib.Except
import Mathlib.Data.List.Infix

/-!
# TSM series keys

`influxdb_tsm::key`: `parse_tsm_key` reads the series key of a TSM index entry. The org and
bucket ids come first, eight bytes each, with `\`, space, `,` and `=` escaped by a backslash; a
comma; then tags `k=v` separated by commas, where the key `0x00` holds the measurement and the
key `0xff` the field key. The field key runs to the delimiter `#!~#`, and what follows it is
ignored. Four byte-level state machines read these parts (`parse_id`, `parse_tsm_tag_key`,
`parse_tsm_tag_value`, `parse_tsm_field_key_value`), and each pushes the bytes it keeps onto a
`String` with `byte as char`, the character of the same number.

## The model

A key is a list of bytes, and the iterator the parsers share is the list of bytes left. Bytes
are written as numbers: `0x5c` is `\`, `0x20` space, `0x2c` `,`, `0x3d` `=`, `0x23` `#`, `0x21`
`!` and `0x7e` `~`. The strings the parser builds are lists of characters. The error of
`parse_tsm_key` carries the key's bytes, which the source renders with `from_utf8_lossy`.

## Results

* `parseTsmKey_tsmKey`: every key laid out as the format says parses to its ids and to the
  characters `byte as char` makes of each part's bytes. The measurement, the tag values and the
  field key may hold any bytes. The tag keys must avoid `0x00` and `0xff`, the values and the
  field key must not be empty, and the field key must neither contain `#!~#` nor end in `#!~`.
* `parseTsmKey_non_ascii_measurement`: the key of the measurement `é` parses to two characters,
  one for each of its UTF-8 bytes.
-/

namespace IoxCore.Tsm.Key

/-- `byte as char`: the character of the same number, from U+0000 to U+00FF. -/
def byteChar (b : UInt8) : Char := Char.ofNat b.toNat

/-- `DataError`, but for `MultipleFields`, which nothing constructs. -/
inductive DataError
  | keyTooShort
  | noMeasurement
  | noFieldKey
  | multipleMeasurements (newMeasurement oldMeasurement : List Char)
  | parsingFieldKey (details : String)
  | parsingTsmTagKey (description : String)
  | parsingTsmTagValue (tagKey : List Char) (description : String)
  | parsingTsmFieldKey (description : String)
  deriving DecidableEq, Repr

/-- `Error::ParsingTsmKey`: the key and what went wrong in it. -/
structure Error where
  key : List UInt8
  source : DataError
  deriving DecidableEq, Repr

/-- `ParsedTsmKey`. -/
structure ParsedTsmKey where
  orgId : UInt64
  bucketId : UInt64
  measurement : List Char
  tagset : List (List Char × List Char)
  fieldKey : List Char
  deriving DecidableEq, Repr

/-- `KeyType`. -/
inductive KeyType
  | tag (key : List Char)
  | measurement
  | field
  deriving DecidableEq, Repr

/-! ### The parsers -/

/-- The loop of `parse_id`: `i` bytes read into `id`, and whether the byte before was a backslash
that escapes this one. -/
def parseIdLoop : List UInt8 → ℕ → Bool → List UInt8 → Except DataError (UInt64 × List UInt8)
  | [], _, _, _ => .error .keyTooShort
  | x :: rest, i, escaped, id =>
    if x = 0x5c ∧ escaped = false then parseIdLoop rest i true id
    else if i ≥ 7 then .ok (UInt64.ofNat (BigEndian.ofBytes (id ++ [x])), rest)
    else parseIdLoop rest (i + 1) false (id ++ [x])

/-- `parse_id`. -/
def parseId (key : List UInt8) : Except DataError (UInt64 × List UInt8) := parseIdLoop key 0 false []

/-- The states of `parse_tsm_tag_key`. -/
inductive TagKeyState
  | data
  | measurement
  | field
  | escape

/-- The loop of `parse_tsm_tag_key`, up to the `=` it consumes. -/
def parseTsmTagKeyLoop : TagKeyState → List Char → List UInt8 → Except DataError (KeyType × List UInt8)
  | _, _, [] => .error (.parsingTsmTagKey "unexpected end of data")
  | .data, key, b :: rest =>
    if b = 0x00 then parseTsmTagKeyLoop .measurement key rest
    else if b = 0xff then parseTsmTagKeyLoop .field key rest
    else if b = 0x3d then .ok (.tag key, rest)
    else if b = 0x2c then .error (.parsingTsmTagKey "unescaped comma")
    else if b = 0x20 then .error (.parsingTsmTagKey "unescaped space")
    else if b = 0x5c then parseTsmTagKeyLoop .escape key rest
    else parseTsmTagKeyLoop .data (key ++ [byteChar b]) rest
  | .measurement, _, b :: rest =>
    if b = 0x3d then .ok (.measurement, rest)
    else .error (.parsingTsmTagKey "extra data after special 0x00")
  | .field, _, b :: rest =>
    if b = 0x3d then .ok (.field, rest)
    else .error (.parsingTsmTagKey "extra data after special 0xff")
  | .escape, key, b :: rest => parseTsmTagKeyLoop .data (key ++ [byteChar b]) rest

/-- `parse_tsm_tag_key`. -/
def parseTsmTagKey (bs : List UInt8) : Except DataError (KeyType × List UInt8) :=
  parseTsmTagKeyLoop .data [] bs

/-- The states of `parse_tsm_tag_value`. -/
inductive TagValueState
  | start
  | data
  | escape

/-- The loop of `parse_tsm_tag_value`: whether a comma ends the value (more tags follow), and
the value. -/
def parseTsmTagValueLoop (tagKey : List Char) :
    TagValueState → List Char → List UInt8 → Except DataError ((Bool × List Char) × List UInt8)
  | .start, _, [] => .error (.parsingTsmTagValue tagKey "missing tag value")
  | .escape, _, [] => .error (.parsingTsmTagValue tagKey "tag value ends in escape")
  | .data, value, [] => .ok ((false, value), [])
  | .start, value, b :: rest =>
    if b = 0x3d then .error (.parsingTsmTagValue tagKey "invalid unescaped '='")
    else if b = 0x20 then .error (.parsingTsmTagValue tagKey "invalid unescaped ' '")
    else if b = 0x2c then .error (.parsingTsmTagValue tagKey "missing tag value")
    else if b = 0x5c then parseTsmTagValueLoop tagKey .escape value rest
    else parseTsmTagValueLoop tagKey .data (value ++ [byteChar b]) rest
  | .data, value, b :: rest =>
    if b = 0x3d then .error (.parsingTsmTagValue tagKey "invalid unescaped '='")
    else if b = 0x20 then .error (.parsingTsmTagValue tagKey "invalid unescaped ' '")
    else if b = 0x2c then .ok ((true, value), rest)
    else if b = 0x5c then parseTsmTagValueLoop tagKey .escape value rest
    else parseTsmTagValueLoop tagKey .data (value ++ [byteChar b]) rest
  | .escape, value, b :: rest => parseTsmTagValueLoop tagKey .data (value ++ [byteChar b]) rest

/-- `parse_tsm_tag_value`. -/
def parseTsmTagValue (tagKey : List Char) (bs : List UInt8) :
    Except DataError ((Bool × List Char) × List UInt8) :=
  parseTsmTagValueLoop tagKey .start [] bs

/-- The states of `parse_tsm_field_key_value`: in the data, after a backslash, after `#`, `#!`
and `#!~`, and past the delimiter. -/
inductive FieldState
  | data
  | escape
  | key1
  | key2
  | key3
  | done
  deriving DecidableEq, Repr

/-- The name `{state:?}` prints. -/
def FieldState.debugName : FieldState → String
  | .data => "Data"
  | .escape => "Escape"
  | .key1 => "Key1"
  | .key2 => "Key2"
  | .key3 => "Key3"
  | .done => "Done"

/-- `check_next_byte`: the bytes the field key must escape. -/
def checkNextByte (b : UInt8) : Except DataError UInt8 :=
  if b = 0x3d then .error (.parsingTsmFieldKey "invalid unescaped '='")
  else if b = 0x20 then .error (.parsingTsmFieldKey "invalid unescaped ' '")
  else if b = 0x2c then .error (.parsingTsmFieldKey "invalid unescaped ','")
  else .ok b

/-- `next_key_state`: the next byte of the delimiter moves on; any other byte gives the part of
the delimiter seen so far back to the name and is read as in the data. -/
def nextKeyState (b nextDelimByte : UInt8) (nextDelimState : FieldState) (delimSoFar : List Char)
    (fieldName : List Char) : Except DataError (FieldState × List Char) :=
  if b = nextDelimByte then .ok (nextDelimState, fieldName)
  else
    let fieldName := fieldName ++ delimSoFar
    if b = 0x23 then .ok (.key1, fieldName)
    else if b = 0x5c then .ok (.escape, fieldName)
    else do
      let b ← checkNextByte b
      return (.data, fieldName ++ [byteChar b])

/-- One byte of the loop of `parse_tsm_field_key_value`. -/
def fieldKeyStep (state : FieldState) (fieldName : List Char) (b : UInt8) :
    Except DataError (FieldState × List Char) :=
  match state with
  | .data =>
    if b = 0x23 then .ok (.key1, fieldName)
    else if b = 0x5c then .ok (.escape, fieldName)
    else do
      let b ← checkNextByte b
      return (.data, fieldName ++ [byteChar b])
  | .escape => .ok (.data, fieldName ++ [byteChar b])
  | .key1 => nextKeyState b 0x21 .key2 ['#'] fieldName
  | .key2 => nextKeyState b 0x7e .key3 ['#', '!'] fieldName
  | .key3 => nextKeyState b 0x23 .done ['#', '!', '~'] fieldName
  | .done => .ok (.done, fieldName)

/-- The loop of `parse_tsm_field_key_value`, which reads the key to its end. -/
def fieldKeyLoop : FieldState → List Char → List UInt8 → Except DataError (FieldState × List Char)
  | state, fieldName, [] => .ok (state, fieldName)
  | state, fieldName, b :: rest => do
    let (state, fieldName) ← fieldKeyStep state fieldName b
    fieldKeyLoop state fieldName rest

/-- `parse_tsm_field_key_value`. -/
def parseTsmFieldKeyValue (bs : List UInt8) : Except DataError (List Char) := do
  let (state, fieldName) ← fieldKeyLoop .data [] bs
  match state with
  | .done =>
    if fieldName.isEmpty then .error (.parsingFieldKey "field key too short") else .ok fieldName
  | state => .error (.parsingFieldKey
      ("Delimiter not found before end of stream reached. Still in state " ++ state.debugName))

theorem parseTsmTagKeyLoop_length {state : TagKeyState} {key : List Char} {bs rest : List UInt8}
    {kt : KeyType} (h : parseTsmTagKeyLoop state key bs = .ok (kt, rest)) :
    rest.length < bs.length := by
  fun_induction parseTsmTagKeyLoop state key bs <;> simp_all <;> omega

theorem parseTsmTagValueLoop_length {tagKey value : List Char} {state : TagValueState}
    {bs rest : List UInt8} {r : Bool × List Char}
    (h : parseTsmTagValueLoop tagKey state value bs = .ok (r, rest)) : rest.length ≤ bs.length := by
  fun_induction parseTsmTagValueLoop tagKey state value bs <;> simp_all <;> omega

set_option linter.unusedVariables false in
/-- The loop of `parse_tsm_key_internal`: the tag set, the measurement and the field key. -/
def parseTagsLoop (tagset : List (List Char × List Char)) (measurement : Option (List Char))
    (bs : List UInt8) :
    Except DataError (List (List Char × List Char) × Option (List Char) × Option (List Char)) :=
  match hk : parseTsmTagKey bs with
  | .error e => .error e
  | .ok (.tag tagKey, rest) =>
    match hv : parseTsmTagValue tagKey rest with
    | .error e => .error e
    | .ok ((hasMoreTags, tagValue), rest') =>
      let tagset := tagset ++ [(tagKey, tagValue)]
      if hasMoreTags then parseTagsLoop tagset measurement rest' else .ok (tagset, measurement, none)
  | .ok (.measurement, rest) =>
    match hv : parseTsmTagValue "Measurement".toList rest with
    | .error e => .error e
    | .ok ((hasMoreTags, tagValue), rest') =>
      match measurement with
      | some old => .error (.multipleMeasurements tagValue old)
      | none =>
        if hasMoreTags then parseTagsLoop tagset (some tagValue) rest'
        else .ok (tagset, some tagValue, none)
  | .ok (.field, rest) => do
    -- the field key parser reads the rest of the key, so the loop ends here
    let fieldKey ← parseTsmFieldKeyValue rest
    return (tagset, measurement, some fieldKey)
termination_by bs.length
decreasing_by
  all_goals
    have := parseTsmTagKeyLoop_length hk
    have := parseTsmTagValueLoop_length hv
    omega

/-- `parse_tsm_key_internal`. -/
def parseTsmKeyInternal (key : List UInt8) : Except DataError ParsedTsmKey := do
  let (orgId, rest) ← parseId key
  let (bucketId, rest) ← parseId rest
  -- `rem_key.next()`: the comma after the ids
  let (tagset, measurement, fieldKey) ← parseTagsLoop [] none (rest.drop 1)
  let some measurement := measurement | .error .noMeasurement
  let some fieldKey := fieldKey | .error .noFieldKey
  return ⟨orgId, bucketId, measurement, tagset, fieldKey⟩

/-- `parse_tsm_key`. -/
def parseTsmKey (key : List UInt8) : Except Error ParsedTsmKey :=
  (parseTsmKeyInternal key).mapError (Error.mk key)

/-! ### The key format -/

/-- The bytes the format escapes with a backslash: `\`, space, `,` and `=`. -/
def isEscaped (b : UInt8) : Bool := b == 0x5c || b == 0x20 || b == 0x2c || b == 0x3d

/-- `esc`: the bytes, with a backslash before each byte the format escapes. -/
def escape (bs : List UInt8) : List UInt8 :=
  bs.flatMap fun b => if isEscaped b then [0x5c, b] else [b]

/-- The characters `byte as char` makes of bytes. -/
def latin1 (bs : List UInt8) : List Char := bs.map byteChar

/-- The delimiter `#!~#` after the field key. -/
def delimiter : List UInt8 := [0x23, 0x21, 0x7e, 0x23]

/-- A series key as the format lays it out: the escaped ids, a comma, the measurement under the
key `0x00`, a comma and `k=v` for each tag, a comma and the field key under the key `0xff`, the
delimiter, and anything after it. -/
def tsmKey (org bucket : UInt64) (measurement : List UInt8) (tags : List (List UInt8 × List UInt8))
    (fieldKey rest : List UInt8) : List UInt8 :=
  escape (BigEndian.toBytes 8 org.toNat) ++ escape (BigEndian.toBytes 8 bucket.toNat) ++
    [0x2c, 0x00, 0x3d] ++ escape measurement ++
    tags.flatMap (fun t => 0x2c :: escape t.1 ++ 0x3d :: escape t.2) ++
    [0x2c, 0xff, 0x3d] ++ escape fieldKey ++ delimiter ++ rest

@[simp] theorem escape_nil : escape [] = [] := rfl

theorem escape_cons (b : UInt8) (bs : List UInt8) :
    escape (b :: bs) = (if isEscaped b then [0x5c, b] else [b]) ++ escape bs := rfl

theorem escape_append (bs cs : List UInt8) : escape (bs ++ cs) = escape bs ++ escape cs :=
  List.flatMap_append

@[simp] theorem latin1_nil : latin1 [] = [] := rfl

@[simp] theorem latin1_append (bs cs : List UInt8) : latin1 (bs ++ cs) = latin1 bs ++ latin1 cs :=
  List.map_append

/-- A byte the format does not escape is none of the four. -/
theorem not_isEscaped {b : UInt8} (h : isEscaped b = false) :
    b ≠ 0x5c ∧ b ≠ 0x20 ∧ b ≠ 0x2c ∧ b ≠ 0x3d := by
  simpa [isEscaped, and_assoc] using h

/-- An escaped byte is one of the four, none of them `#`, `!` or `~`. -/
theorem isEscaped_cases {b : UInt8} (h : isEscaped b = true) :
    b = 0x5c ∨ b = 0x20 ∨ b = 0x2c ∨ b = 0x3d := by
  simpa [isEscaped, or_assoc] using h

/-! ### Ids, tag keys and tag values read back -/

/-- `parse_id` reads an escaped run of bytes that completes the eight of an id. -/
theorem parseIdLoop_escape (rest : List UInt8) :
    ∀ (bs : List UInt8) (i : ℕ) (id : List UInt8), bs ≠ [] → i + bs.length = 8 →
      parseIdLoop (escape bs ++ rest) i false id =
        .ok (UInt64.ofNat (BigEndian.ofBytes (id ++ bs)), rest)
  | [], _, _, h, _ => absurd rfl h
  | b :: bs, i, id, _, hlen => by
    -- an escaped byte comes after a backslash, which the loop skips
    have hread : ∀ xs, parseIdLoop (b :: xs) i true id =
        if i ≥ 7 then .ok (UInt64.ofNat (BigEndian.ofBytes (id ++ [b])), xs)
        else parseIdLoop xs (i + 1) false (id ++ [b]) := fun xs => by simp [parseIdLoop]
    have hstep : parseIdLoop (escape (b :: bs) ++ rest) i false id =
        parseIdLoop (b :: (escape bs ++ rest)) i true id := by
      rw [escape_cons]
      cases hb : isEscaped b
      · have hne := (not_isEscaped hb).1
        simp [parseIdLoop, hne]
      · rcases isEscaped_cases hb with rfl | rfl | rfl | rfl <;> simp [parseIdLoop]
    rw [hstep, hread]
    rcases bs with _ | ⟨b', bs⟩
    · simp only [List.length_cons, List.length_nil] at hlen
      simp [show i ≥ 7 by omega]
    · simp only [List.length_cons] at hlen
      rw [if_neg (by omega), parseIdLoop_escape rest (b' :: bs) (i + 1) (id ++ [b]) (by simp)
        (by simp only [List.length_cons]; omega), List.append_assoc, List.singleton_append]

theorem parseId_escape (id : UInt64) (rest : List UInt8) :
    parseId (escape (BigEndian.toBytes 8 id.toNat) ++ rest) = .ok (id, rest) := by
  have hid : BigEndian.ofBytes (BigEndian.toBytes 8 id.toNat) = id.toNat := by
    rw [BigEndian.ofBytes_toBytes, Nat.mod_eq_of_lt (lt_of_lt_of_eq id.toNat_lt (by decide))]
  rw [parseId, parseIdLoop_escape rest _ 0 [] (by simp [← List.length_pos_iff]) (by simp),
    List.nil_append, hid, UInt64.ofNat_toNat]

/-- A tag key reads back up to its `=`, unless it holds one of the special bytes. -/
theorem parseTsmTagKeyLoop_escape (rest : List UInt8) :
    ∀ (k : List UInt8) (key : List Char), 0x00 ∉ k → 0xff ∉ k →
      parseTsmTagKeyLoop .data key (escape k ++ 0x3d :: rest) = .ok (.tag (key ++ latin1 k), rest)
  | [], key, _, _ => by simp [parseTsmTagKeyLoop]
  | b :: k, key, h0, h1 => by
    simp only [List.mem_cons, not_or] at h0 h1
    have ih := parseTsmTagKeyLoop_escape rest k (key ++ [byteChar b]) h0.2 h1.2
    rw [escape_cons]
    cases hb : isEscaped b
    · obtain ⟨h5c, h20, h2c, h3d⟩ := not_isEscaped hb
      simp [parseTsmTagKeyLoop, Ne.symm h0.1, Ne.symm h1.1, h5c, h20, h2c, h3d, ih, latin1]
    · rcases isEscaped_cases hb with rfl | rfl | rfl | rfl <;>
        simp [parseTsmTagKeyLoop, ih, latin1]

/-- A tag value that is not empty reads back up to the comma after it. -/
theorem parseTsmTagValueLoop_escape (tagKey : List Char) (rest : List UInt8) :
    ∀ (v : List UInt8) (value : List Char),
      parseTsmTagValueLoop tagKey .data value (escape v ++ 0x2c :: rest) =
        .ok ((true, value ++ latin1 v), rest)
  | [], value => by simp [parseTsmTagValueLoop]
  | b :: v, value => by
    have ih := parseTsmTagValueLoop_escape tagKey rest v (value ++ [byteChar b])
    rw [escape_cons]
    cases hb : isEscaped b
    · obtain ⟨h5c, h20, h2c, h3d⟩ := not_isEscaped hb
      simp [parseTsmTagValueLoop, h5c, h20, h2c, h3d, ih, latin1]
    · rcases isEscaped_cases hb with rfl | rfl | rfl | rfl <;>
        simp [parseTsmTagValueLoop, ih, latin1]

theorem parseTsmTagValue_escape (tagKey : List Char) (rest : List UInt8) {v : List UInt8}
    (hv : v ≠ []) :
    parseTsmTagValue tagKey (escape v ++ 0x2c :: rest) = .ok ((true, latin1 v), rest) := by
  obtain ⟨b, v, rfl⟩ := List.exists_cons_of_ne_nil hv
  have ih := parseTsmTagValueLoop_escape tagKey rest v [byteChar b]
  rw [parseTsmTagValue, escape_cons]
  -- the first byte leaves the start state as the data state would
  cases hb : isEscaped b
  · obtain ⟨h5c, h20, h2c, h3d⟩ := not_isEscaped hb
    simp [parseTsmTagValueLoop, h5c, h20, h2c, h3d, ih, latin1]
  · rcases isEscaped_cases hb with rfl | rfl | rfl | rfl <;>
      simp [parseTsmTagValueLoop, ih, latin1]

/-! ### The field key scanner finds the delimiter

`delimStep` is the automaton that looks for `#!~#` in unescaped data: its state after a byte is
the longest end of the data read that begins the delimiter. The scanner of
`parse_tsm_field_key_value` runs it over the escaped field key, and holds back from the name the
bytes that may begin the delimiter (`pending`). -/

/-- The automaton for `#!~#`; `escape` is not one of its states, and counts as `data`. -/
def delimStep : FieldState → UInt8 → FieldState
  | .data, b => if b = 0x23 then .key1 else .data
  | .escape, b => if b = 0x23 then .key1 else .data
  | .key1, b => if b = 0x21 then .key2 else if b = 0x23 then .key1 else .data
  | .key2, b => if b = 0x7e then .key3 else if b = 0x23 then .key1 else .data
  | .key3, b => if b = 0x23 then .done else .data
  | .done, _ => .done

/-- The end of the data read that the state holds back as a start of the delimiter. -/
def pending : FieldState → List UInt8
  | .key1 => [0x23]
  | .key2 => [0x23, 0x21]
  | .key3 => [0x23, 0x21, 0x7e]
  | .done => delimiter
  | .data => []
  | .escape => []

/-- The states the automaton is in: it never enters `escape`. -/
def IsScanState (state : FieldState) : Prop := state ≠ .escape

theorem isScanState_delimStep (state : FieldState) (b : UInt8) : IsScanState (delimStep state b) := by
  unfold IsScanState
  cases state <;> simp only [delimStep] <;> (try split_ifs) <;> simp

theorem isScanState_foldl (bs : List UInt8) : IsScanState (bs.foldl delimStep .data) := by
  induction bs using List.reverseRecOn with
  | nil => simp [IsScanState]
  | append_singleton bs b _ => simpa using isScanState_delimStep _ b

theorem foldl_delimStep_done (bs : List UInt8) : bs.foldl delimStep .done = .done := by
  induction bs with
  | nil => rfl
  | cons b bs ih => exact ih

@[simp] theorem byteChar_hash : byteChar 0x23 = '#' := rfl
@[simp] theorem byteChar_bang : byteChar 0x21 = '!' := rfl
@[simp] theorem byteChar_tilde : byteChar 0x7e = '~' := rfl

theorem fieldKeyLoop_append (state : FieldState) (fieldName : List Char) (bs cs : List UInt8) :
    fieldKeyLoop state fieldName (bs ++ cs) =
      (fieldKeyLoop state fieldName bs) >>= fun p => fieldKeyLoop p.1 p.2 cs := by
  induction bs generalizing state fieldName with
  | nil => rfl
  | cons b bs ih =>
    simp only [List.cons_append, fieldKeyLoop]
    cases fieldKeyStep state fieldName b with
    | error e => rfl
    | ok p => exact ih p.1 p.2

theorem fieldKeyLoop_done (fieldName : List Char) (bs : List UInt8) :
    fieldKeyLoop .done fieldName bs = .ok (.done, fieldName) := by
  induction bs with
  | nil => rfl
  | cons b bs ih => exact ih

/-- One byte of the field key: the scanner reads its escaped form as the automaton reads the
byte, and the name it keeps with the bytes it holds back is what it had with the byte. -/
theorem fieldKeyLoop_escape_single (state : FieldState) (hstate : IsScanState state)
    (hdone : state ≠ .done) (q : List UInt8) (b : UInt8) :
    ∃ q', fieldKeyLoop state (latin1 q) (escape [b]) = .ok (delimStep state b, latin1 q') ∧
      q' ++ pending (delimStep state b) = q ++ pending state ++ [b] := by
  unfold IsScanState at hstate
  rw [escape_cons, escape_nil, List.append_nil]
  cases hb : isEscaped b
  · -- a plain byte is data, or the next byte of the delimiter
    obtain ⟨h5c, h20, h2c, h3d⟩ := not_isEscaped hb
    have hcheck : checkNextByte b = .ok b := by simp [checkNextByte, h20, h2c, h3d]
    cases state <;> simp only [ne_eq, not_true_eq_false] at hstate hdone
    · by_cases h23 : b = 0x23
      · exact ⟨q, by simp [fieldKeyLoop, fieldKeyStep, delimStep, h23],
          by simp [pending, delimStep, h23]⟩
      · exact ⟨q ++ [b], by simp [fieldKeyLoop, fieldKeyStep, delimStep, h23, h5c, hcheck, latin1],
          by simp [pending, delimStep, h23]⟩
    · by_cases h21 : b = 0x21
      · exact ⟨q, by simp [fieldKeyLoop, fieldKeyStep, nextKeyState, delimStep, h21],
          by simp [pending, delimStep, h21]⟩
      by_cases h23 : b = 0x23
      · exact ⟨q ++ [0x23], by simp [fieldKeyLoop, fieldKeyStep, nextKeyState, delimStep, h23, latin1],
          by simp [pending, delimStep, h23]⟩
      · exact ⟨q ++ [0x23, b], by simp [fieldKeyLoop, fieldKeyStep, nextKeyState, delimStep, h21,
          h23, h5c, hcheck, latin1], by simp [pending, delimStep, h21, h23]⟩
    · by_cases h7e : b = 0x7e
      · exact ⟨q, by simp [fieldKeyLoop, fieldKeyStep, nextKeyState, delimStep, h7e],
          by simp [pending, delimStep, h7e]⟩
      by_cases h23 : b = 0x23
      · exact ⟨q ++ [0x23, 0x21], by simp [fieldKeyLoop, fieldKeyStep, nextKeyState, delimStep, h23,
          latin1], by simp [pending, delimStep, h23]⟩
      · exact ⟨q ++ [0x23, 0x21, b], by simp [fieldKeyLoop, fieldKeyStep, nextKeyState, delimStep,
          h7e, h23, h5c, hcheck, latin1], by simp [pending, delimStep, h7e, h23]⟩
    · by_cases h23 : b = 0x23
      · exact ⟨q, by simp [fieldKeyLoop, fieldKeyStep, nextKeyState, delimStep, h23],
          by simp [pending, delimStep, delimiter, h23]⟩
      · exact ⟨q ++ [0x23, 0x21, 0x7e, b], by simp [fieldKeyLoop, fieldKeyStep, nextKeyState,
          delimStep, h23, h5c, hcheck, latin1], by simp [pending, delimStep, h23]⟩
  · -- an escaped byte: the backslash ends any start of the delimiter, and the byte is data
    rw [if_pos rfl]
    have hdata : delimStep state b = .data := by
      rcases isEscaped_cases hb with rfl | rfl | rfl | rfl <;>
        cases state <;> simp_all [delimStep]
    refine ⟨q ++ pending state ++ [b], ?_, by simp [hdata, pending]⟩
    rw [hdata]
    rcases isEscaped_cases hb with rfl | rfl | rfl | rfl <;>
      cases state <;> simp_all [fieldKeyLoop, fieldKeyStep, nextKeyState, pending, latin1]

/-- The scanner over an escaped run of data that does not complete the delimiter. -/
theorem fieldKeyLoop_escape :
    ∀ (p : List UInt8) (state : FieldState) (q : List UInt8), IsScanState state →
      p.foldl delimStep state ≠ .done →
      ∃ q', fieldKeyLoop state (latin1 q) (escape p) = .ok (p.foldl delimStep state, latin1 q') ∧
        q' ++ pending (p.foldl delimStep state) = q ++ pending state ++ p
  | [], _, q, _, _ => ⟨q, rfl, by simp⟩
  | b :: p, state, q, hstate, hnot => by
    have hdone : state ≠ .done := by
      rintro rfl
      exact hnot (foldl_delimStep_done _)
    have hnext : p.foldl delimStep (delimStep state b) ≠ .done := hnot
    obtain ⟨q₁, h₁, hq₁⟩ := fieldKeyLoop_escape_single state hstate hdone q b
    obtain ⟨q', h', hq'⟩ :=
      fieldKeyLoop_escape p (delimStep state b) q₁ (isScanState_delimStep state b) hnext
    refine ⟨q', ?_, ?_⟩
    · rw [show b :: p = [b] ++ p from rfl, escape_append, fieldKeyLoop_append, h₁]
      exact h'
    · rw [List.foldl_cons, hq', hq₁]
      simp

/-- What the automaton's state says about the data read: a state short of `done` holds back an
end of it, and `done` has seen the delimiter in it. -/
def ScanSound (p : List UInt8) (state : FieldState) : Prop :=
  (state ≠ .done → pending state <:+ p) ∧ (state = .done → delimiter <:+: p)

theorem scanSound_delimStep {p : List UInt8} {state : FieldState} (h : ScanSound p state)
    (b : UInt8) : ScanSound (p ++ [b]) (delimStep state b) := by
  obtain ⟨hpend, hdone⟩ := h
  have hgrow : ∀ l, l <:+ p → l ++ [b] <:+ p ++ [b] := fun l hl => List.suffix_append_self_iff.2 hl
  -- the states that a byte sends to `data` hold back nothing
  have hdata : ScanSound (p ++ [b]) .data := ⟨fun _ => List.nil_suffix, by simp⟩
  cases state with
  | done => exact ⟨by simp [delimStep], fun _ => List.infix_append_of_infix_left (hdone rfl)⟩
  | key3 =>
    by_cases h23 : b = 0x23
    · subst h23
      exact ⟨by simp [delimStep], fun _ => (hgrow _ (hpend (by simp))).isInfix⟩
    · simpa [delimStep, h23] using hdata
  | key2 =>
    by_cases h7e : b = 0x7e
    · subst h7e
      exact ⟨fun _ => hgrow _ (hpend (by simp)), by simp [delimStep]⟩
    by_cases h23 : b = 0x23
    · subst h23
      exact ⟨fun _ => by simp [delimStep, pending], by simp [delimStep]⟩
    · simpa [delimStep, h7e, h23] using hdata
  | key1 =>
    by_cases h21 : b = 0x21
    · subst h21
      exact ⟨fun _ => hgrow _ (hpend (by simp)), by simp [delimStep]⟩
    by_cases h23 : b = 0x23
    · subst h23
      exact ⟨fun _ => by simp [delimStep, pending], by simp [delimStep]⟩
    · simpa [delimStep, h21, h23] using hdata
  | data | escape =>
    by_cases h23 : b = 0x23
    · subst h23
      exact ⟨fun _ => by simp [delimStep, pending], by simp [delimStep]⟩
    · simpa [delimStep, h23] using hdata

theorem scanSound_foldl (p : List UInt8) : ScanSound p (p.foldl delimStep .data) := by
  induction p using List.reverseRecOn with
  | nil => exact ⟨fun _ => List.nil_suffix, by simp⟩
  | append_singleton p b ih =>
    rw [List.foldl_append, List.foldl_cons, List.foldl_nil]
    exact scanSound_delimStep ih b

/-- A field key with no delimiter in it that does not end in `#!~` leaves the automaton short of
`#!~`. -/
theorem foldl_delimStep_of_field {f : List UInt8} (hdelim : ¬ delimiter <:+: f)
    (hend : ¬ [0x23, 0x21, 0x7e] <:+ f) :
    f.foldl delimStep .data = .data ∨ f.foldl delimStep .data = .key1 ∨
      f.foldl delimStep .data = .key2 := by
  obtain ⟨hpend, hdone⟩ := scanSound_foldl f
  have hstate := isScanState_foldl f
  cases hs : f.foldl delimStep .data with
  | done => exact absurd (hdone hs) hdelim
  | key3 => exact absurd (by simpa [hs, pending] using hpend (by simp [hs])) hend
  | escape => exact absurd hs hstate
  | data | key1 | key2 => simp

/-- The scanner reads an escaped field key and the delimiter, and ignores the rest. -/
theorem parseTsmFieldKeyValue_escape {f : List UInt8} (rest : List UInt8) (hf : f ≠ [])
    (hdelim : ¬ delimiter <:+: f) (hend : ¬ [0x23, 0x21, 0x7e] <:+ f) :
    parseTsmFieldKeyValue (escape f ++ delimiter ++ rest) = .ok (latin1 f) := by
  -- the automaton reaches `#!~` after the field key and the first three bytes of the delimiter
  have hkey3 : (f ++ [0x23, 0x21, 0x7e]).foldl delimStep .data = .key3 := by
    rw [List.foldl_append]
    rcases foldl_delimStep_of_field hdelim hend with h | h | h <;> rw [h] <;> decide
  obtain ⟨q, hrun, hq⟩ := fieldKeyLoop_escape (f ++ [0x23, 0x21, 0x7e]) .data []
    (by simp [IsScanState]) (by rw [hkey3]; simp)
  rw [hkey3] at hrun hq
  have hqf : q = f := by simpa [pending] using hq
  obtain ⟨q', hlast, hq'⟩ :=
    fieldKeyLoop_escape_single .key3 (by simp [IsScanState]) (by simp) q 0x23
  have hq'f : q' = f := by simpa [pending, delimStep, delimiter, hqf] using hq'
  have hsplit : escape f ++ delimiter ++ rest =
      escape (f ++ [0x23, 0x21, 0x7e]) ++ escape [0x23] ++ rest := by
    simp [escape_append, escape_cons, isEscaped, delimiter]
  rw [latin1_nil] at hrun
  rw [parseTsmFieldKeyValue, hsplit, fieldKeyLoop_append, fieldKeyLoop_append, hrun]
  simp only [Except.ok_bind, hlast, delimStep, if_pos, fieldKeyLoop_done, hq'f]
  simp [latin1, hf]

/-! ### Whole keys -/

/-- The bytes of one tag in the key, with the comma that ends its value. -/
def tagBytes (t : List UInt8 × List UInt8) : List UInt8 := escape t.1 ++ 0x3d :: escape t.2 ++ [0x2c]

/-- The comma before each tag is the one after the value before it. -/
theorem flatMap_tags_append (tags : List (List UInt8 × List UInt8)) (rest : List UInt8) :
    tags.flatMap (fun t => 0x2c :: (escape t.1 ++ 0x3d :: escape t.2)) ++ 0x2c :: rest =
      0x2c :: (tags.flatMap tagBytes ++ rest) := by
  induction tags with
  | nil => rfl
  | cons t tags ih =>
    simp only [List.flatMap_cons, List.cons_append, List.append_assoc]
    rw [ih]
    simp [tagBytes]

theorem tsmKey_eq (org bucket : UInt64) (m : List UInt8) (tags : List (List UInt8 × List UInt8))
    (f rest : List UInt8) :
    tsmKey org bucket m tags f rest =
      escape (BigEndian.toBytes 8 org.toNat) ++ (escape (BigEndian.toBytes 8 bucket.toNat) ++
        0x2c :: 0x00 :: 0x3d :: (escape m ++ 0x2c ::
          (tags.flatMap tagBytes ++ 0xff :: 0x3d :: (escape f ++ delimiter ++ rest)))) := by
  rw [tsmKey]
  simp only [List.append_assoc, List.cons_append, List.nil_append]
  rw [flatMap_tags_append]

theorem parseTagsLoop_tag {tagset : List (List Char × List Char)} {measurement : Option (List Char)}
    {bs rest rest' : List UInt8} {k v : List Char} (hk : parseTsmTagKey bs = .ok (.tag k, rest))
    (hv : parseTsmTagValue k rest = .ok ((true, v), rest')) :
    parseTagsLoop tagset measurement bs = parseTagsLoop (tagset ++ [(k, v)]) measurement rest' := by
  rw [parseTagsLoop]
  split <;> simp_all
  split <;> simp_all

theorem parseTagsLoop_measurement {tagset : List (List Char × List Char)}
    {bs rest rest' : List UInt8} {v : List Char} (hk : parseTsmTagKey bs = .ok (.measurement, rest))
    (hv : parseTsmTagValue "Measurement".toList rest = .ok ((true, v), rest')) :
    parseTagsLoop tagset none bs = parseTagsLoop tagset (some v) rest' := by
  rw [parseTagsLoop]
  split <;> simp_all
  split <;> simp_all

theorem parseTagsLoop_field {tagset : List (List Char × List Char)} {measurement : Option (List Char)}
    {bs rest : List UInt8} (hk : parseTsmTagKey bs = .ok (.field, rest)) :
    parseTagsLoop tagset measurement bs =
      (parseTsmFieldKeyValue rest).map fun fieldKey => (tagset, measurement, some fieldKey) := by
  rw [parseTagsLoop]
  split <;> simp_all
  cases parseTsmFieldKeyValue rest <;> rfl

/-- The tags after the measurement, and the field key that ends them. -/
theorem parseTagsLoop_tags {f : List UInt8} (rest : List UInt8) (hf : f ≠ [])
    (hdelim : ¬ delimiter <:+: f) (hend : ¬ [0x23, 0x21, 0x7e] <:+ f)
    (measurement : Option (List Char)) :
    ∀ (tags : List (List UInt8 × List UInt8)) (tagset : List (List Char × List Char)),
      (∀ t ∈ tags, t.2 ≠ [] ∧ 0x00 ∉ t.1 ∧ 0xff ∉ t.1) →
      parseTagsLoop tagset measurement
          (tags.flatMap tagBytes ++ 0xff :: 0x3d :: (escape f ++ delimiter ++ rest)) =
        .ok (tagset ++ tags.map (fun t => (latin1 t.1, latin1 t.2)), measurement, some (latin1 f))
  | [], tagset, _ => by
    have hk : parseTsmTagKey (0xff :: 0x3d :: (escape f ++ delimiter ++ rest)) =
        .ok (.field, escape f ++ delimiter ++ rest) := by
      simp [parseTsmTagKey, parseTsmTagKeyLoop]
    rw [List.flatMap_nil, List.nil_append, parseTagsLoop_field hk,
      parseTsmFieldKeyValue_escape rest hf hdelim hend]
    simp only [List.map_nil, List.append_nil]
    rfl
  | t :: tags, tagset, htags => by
    obtain ⟨hv, h0, hff⟩ := htags t List.mem_cons_self
    have hk := parseTsmTagKeyLoop_escape (escape t.2 ++ 0x2c ::
      (tags.flatMap tagBytes ++ 0xff :: 0x3d :: (escape f ++ delimiter ++ rest))) t.1 [] h0 hff
    have hval := parseTsmTagValue_escape (latin1 t.1)
      (tags.flatMap tagBytes ++ 0xff :: 0x3d :: (escape f ++ delimiter ++ rest)) hv
    rw [List.nil_append] at hk
    have ih := parseTagsLoop_tags rest hf hdelim hend measurement tags
      (tagset ++ [(latin1 t.1, latin1 t.2)]) fun t' ht' => htags t' (List.mem_cons_of_mem _ ht')
    have hbytes : (t :: tags).flatMap tagBytes ++ 0xff :: 0x3d :: (escape f ++ delimiter ++ rest) =
        escape t.1 ++ 0x3d :: (escape t.2 ++ 0x2c ::
          (tags.flatMap tagBytes ++ 0xff :: 0x3d :: (escape f ++ delimiter ++ rest))) := by
      simp [tagBytes]
    rw [hbytes, parseTagsLoop_tag hk hval, ih]
    simp

/-- Every key laid out as the format says parses to its ids and to the characters `byte as char`
makes of the bytes of its measurement, tags and field key. -/
theorem parseTsmKey_tsmKey (org bucket : UInt64) {m f : List UInt8}
    {tags : List (List UInt8 × List UInt8)} (rest : List UInt8) (hm : m ≠ [])
    (htags : ∀ t ∈ tags, t.2 ≠ [] ∧ 0x00 ∉ t.1 ∧ 0xff ∉ t.1) (hf : f ≠ [])
    (hdelim : ¬ delimiter <:+: f) (hend : ¬ [0x23, 0x21, 0x7e] <:+ f) :
    parseTsmKey (tsmKey org bucket m tags f rest) =
      .ok ⟨org, bucket, latin1 m, tags.map (fun t => (latin1 t.1, latin1 t.2)), latin1 f⟩ := by
  have hk : parseTsmTagKey (0x00 :: 0x3d :: (escape m ++ 0x2c ::
      (tags.flatMap tagBytes ++ 0xff :: 0x3d :: (escape f ++ delimiter ++ rest)))) =
      .ok (.measurement, escape m ++ 0x2c ::
        (tags.flatMap tagBytes ++ 0xff :: 0x3d :: (escape f ++ delimiter ++ rest))) := by
    simp [parseTsmTagKey, parseTsmTagKeyLoop]
  have hloop := parseTagsLoop_tags rest hf hdelim hend (some (latin1 m)) tags [] htags
  rw [List.nil_append] at hloop
  have hinternal : parseTsmKeyInternal (tsmKey org bucket m tags f rest) =
      .ok ⟨org, bucket, latin1 m, tags.map (fun t => (latin1 t.1, latin1 t.2)), latin1 f⟩ := by
    rw [parseTsmKeyInternal, tsmKey_eq, parseId_escape]
    simp only [Except.ok_bind]
    rw [parseId_escape]
    simp only [Except.ok_bind, List.drop_one, List.tail_cons]
    rw [parseTagsLoop_measurement hk (parseTsmTagValue_escape _ _ hm), hloop]
    rfl
  rw [parseTsmKey, hinternal]
  rfl

/-! ### Strings -/

/-- The UTF-8 bytes of a string. -/
def utf8 (s : List Char) : List UInt8 := s.flatMap String.utf8EncodeChar

theorem parseTsmKey_non_ascii_measurement :
    ∃ parsed, parseTsmKey (tsmKey 0 0 (utf8 ['é']) [] (utf8 ['f']) []) = .ok parsed ∧
      parsed.measurement ≠ ['é'] :=
  ⟨_, parseTsmKey_tsmKey 0 0 [] (by decide) (by simp) (by decide) (by decide) (by decide),
    by decide⟩

end IoxCore.Tsm.Key

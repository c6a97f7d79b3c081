import IoxCore.LineProtocol.Parser

/-!
# The series key of a line: `Series::generate_base`

`generate_base` (influxdb_line_protocol/src/lib.rs) writes a series as its measurement followed
by `,key=value` for each tag, from the logical (unescaped) text of each. It takes one of three
paths:

* when no `EscapedStr` of the series was copied and each tag key is less than the next
  (`is_sorted_and_unique`), it answers the input the series was read from (`raw_input`);
* when the tags are so sorted, it writes the logical texts (`generate_base_with_escaping`);
* otherwise it enters the tags into a `BTreeMap` by key, failing with `DuplicateTag` at the
  first key seen twice, and writes them in the map's order.

`EscapedStr::from_slices` keeps the slices `escape_or_fallback_inner` pushed as one slice when
there is at most one. A value that is one escape and nothing else, such as `\,`, is one slice,
the character after the backslash: the series counts as not escaped while its input holds the
backslash.

## The model

An `EscapedStr` is kept with its representation, the list of the texts of its slices; the
parsers of `Parser` keep the logical text only. `Escaped.series` is the grammar of `series` over
these values, and forgetting the representation gives back `series` (`Escaped.map_series`). The
`BTreeMap` is the list of its entries in increasing order of key, compared by logical text.

## What is proved

* `generateBase_eq_iff`: for every series the grammar reads whose tags are sorted and unique,
  `generate_base` answers the logical text exactly when a value was copied or its input holds no
  backslash;
* `generateBase_of_nodup` and `generateBase_of_duplicate`: on the sorting path the tags are
  written sorted by key when the keys are distinct, and `DuplicateTag` names a key that occurs
  twice otherwise.
-/

namespace IoxCore.LineProtocol

open Nom

/-- `EscapedStr`: a logical text kept as one slice of the input or copied out of several. -/
inductive EscapedStr
  | singleSlice (s : List Char)
  | copiedValue (s : List Char)
  deriving DecidableEq, Repr

namespace EscapedStr

/-- `EscapedStr::from_slices`. -/
def fromSlices : List (List Char) → EscapedStr
  | [] => .singleSlice []
  | [s] => .singleSlice s
  | v => .copiedValue v.flatten

/-- `EscapedStr::is_escaped`. -/
def isEscaped : EscapedStr → Bool
  | .singleSlice _ => false
  | .copiedValue _ => true

/-- `EscapedStr::as_str`, the `Deref` to the logical text. -/
def asStr : EscapedStr → List Char
  | .singleSlice s => s
  | .copiedValue s => s

@[simp] theorem asStr_fromSlices (v : List (List Char)) : (fromSlices v).asStr = v.flatten := by
  match v with
  | [] => rfl
  | [s] => simp [fromSlices, asStr]
  | _ :: _ :: _ => rfl

/-- A value is copied exactly when it was read as more than one slice. -/
theorem isEscaped_fromSlices_eq_false {v : List (List Char)} :
    (fromSlices v).isEscaped = false ↔ v.length ≤ 1 := by
  match v with
  | [] => simp [fromSlices, isEscaped]
  | [s] => simp [fromSlices, isEscaped]
  | _ :: _ :: _ => simp [fromSlices, isEscaped]

end EscapedStr

/-! ### The slices of `escape_or_fallback_inner` -/

section Slices

variable {ε : Type} [ParseError Char ε]

/-- The loop of `escape_or_fallback_inner` with the slices it pushes (its `SmallVec`). -/
def escapeOrFallbackSlicesLoop (normal : Parser Char ε (List Char)) (escapeChar : List Char)
    (escaped : Parser Char ε (List Char)) (i : List Char) :
    ℕ → List Char → List (List Char) → IResult Char ε (List (List Char))
  | 0, head, result => .ok (head, result)
  | fuel + 1, head, result =>
    match normal head with
    | .ok (remaining, parsed) =>
      escapeOrFallbackSlicesLoop normal escapeChar escaped i fuel remaining (result ++ [parsed])
    | .error (.error _) =>
      if escapeChar.isPrefixOf head then
        let after := head.drop escapeChar.length
        match escaped after with
        | .ok (remaining, parsed) =>
          escapeOrFallbackSlicesLoop normal escapeChar escaped i fuel remaining (result ++ [parsed])
        | .error (.error _) =>
          -- an unknown escape pushes the escape and the character after it
          match after with
          | c :: remaining =>
            escapeOrFallbackSlicesLoop normal escapeChar escaped i fuel remaining
              (result ++ [escapeChar, [c]])
          | [] => .ok ([], result ++ [escapeChar])
        | .error e => .error e
      else if head = i then .error (.error (ParseError.fromErrorKind head .escapedTransform))
      else .ok (head, result)
    | .error e => .error e

/-- The slices that `escape_or_fallback_inner` pushes. -/
def escapeOrFallbackSlices (normal : Parser Char ε (List Char)) (escapeChar : List Char)
    (escaped : Parser Char ε (List Char)) : Parser Char ε (List (List Char)) := fun i =>
  escapeOrFallbackSlicesLoop normal escapeChar escaped i (i.length + 1) i []

/-- The loop of `Parser`, which keeps the logical text only, is this loop with its slices
joined. -/
theorem escapeOrFallbackInnerLoop_flatten (normal : Parser Char ε (List Char))
    (escapeChar : List Char) (escaped : Parser Char ε (List Char)) (i : List Char) :
    ∀ fuel head result, escapeOrFallbackInnerLoop normal escapeChar escaped i fuel head
        result.flatten =
      (escapeOrFallbackSlicesLoop normal escapeChar escaped i fuel head result).map
        (Prod.map id List.flatten)
  | 0, head, result => rfl
  | fuel + 1, head, result => by
    have ih := escapeOrFallbackInnerLoop_flatten normal escapeChar escaped i fuel
    rcases hn : normal head with (e | e) | ⟨remaining, parsed⟩
    · -- `normal` fails: an escape follows, or the text ends
      by_cases hpre : escapeChar.isPrefixOf head = true
      · rcases he : escaped (head.drop escapeChar.length) with (e' | e') | ⟨remaining, parsed⟩
        · rcases hafter : head.drop escapeChar.length with _ | ⟨c, remaining⟩
          · rw [hafter] at he
            simp [escapeOrFallbackInnerLoop, escapeOrFallbackSlicesLoop, hn, hpre, he, hafter,
              Except.map]
          · rw [hafter] at he
            simp only [escapeOrFallbackInnerLoop, escapeOrFallbackSlicesLoop, hn, hpre, he, hafter,
              if_true]
            simpa using ih remaining (result ++ [escapeChar, [c]])
        · simp [escapeOrFallbackInnerLoop, escapeOrFallbackSlicesLoop, hn, hpre, he, Except.map]
        · simp only [escapeOrFallbackInnerLoop, escapeOrFallbackSlicesLoop, hn, hpre, he, if_true]
          simpa using ih remaining (result ++ [parsed])
      · simp only [escapeOrFallbackInnerLoop, escapeOrFallbackSlicesLoop, hn,
          Bool.not_eq_true _ ▸ hpre, Bool.false_eq_true, if_false]
        split <;> simp [Except.map]
    · simp [escapeOrFallbackInnerLoop, escapeOrFallbackSlicesLoop, hn, Except.map]
    · simp only [escapeOrFallbackInnerLoop, escapeOrFallbackSlicesLoop, hn]
      simpa using ih remaining (result ++ [parsed])

theorem map_escapeOrFallbackSlices (normal : Parser Char ε (List Char)) (escapeChar : List Char)
    (escaped : Parser Char ε (List Char)) :
    map (escapeOrFallbackSlices normal escapeChar escaped) List.flatten =
      escapeOrFallbackInner normal escapeChar escaped := by
  funext i
  exact (map_apply _ _ i).trans
    (escapeOrFallbackInnerLoop_flatten normal escapeChar escaped i (i.length + 1) i []).symm

/-! ### The grammar of a series, with the representation of its values -/

namespace Escaped

/-- `escape_or_fallback_inner`: the `EscapedStr` of the slices it pushed. -/
def escapeOrFallbackInner (normal : Parser Char ε (List Char)) (escapeChar : List Char)
    (escaped : Parser Char ε (List Char)) : Parser Char ε EscapedStr :=
  map (escapeOrFallbackSlices normal escapeChar escaped) EscapedStr.fromSlices

end Escaped

end Slices

namespace Escaped

/-- `escape_or_fallback`. -/
def escapeOrFallback (normal : Parser Char Error (List Char)) (escapeChar : List Char)
    (escaped : Parser Char Error (List Char)) : Parser Char Error EscapedStr := fun i =>
  match escapeOrFallbackInner normal escapeChar escaped i with
  | .ok (remaining, s) =>
    if s.asStr.getLast? = some '\\' then .error (.failure .endsWithBackslash)
    else if utf8Len s.asStr > stringLengthLimitInBytes then
      .error (.failure .fieldStringValueTooLarge)
    else .ok (remaining, s)
  | .error e => .error e

/-- `escaped_value`. -/
def escapedValue (normal : Parser Char Error (List Char)) : Parser Char Error EscapedStr :=
  let backslash := map (tag ['\\']) fun _ => ['\\']
  let comma := map (tag [',']) fun _ => [',']
  let equal := map (tag ['=']) fun _ => ['=']
  let space := map (tag [' ']) fun _ => [' ']
  escapeOrFallback normal ['\\'] (alt backslash [comma, equal, space])

/-- `measurement`. -/
def measurement : Parser Char Error EscapedStr := fun i =>
  let normalChar := takeWhile1 fun c =>
    !isWhitespaceBoundaryChar c && !isNullChar c && c != ',' && c != '\\'
  let space := map (tag [' ']) fun _ => [' ']
  let comma := map (tag [',']) fun _ => [',']
  let backslash := map (tag ['\\']) fun _ => ['\\']
  match escapeOrFallback normalChar ['\\'] (alt comma [space, backslash]) i with
  | .error (.error _) => .error (.error .measurementValueInvalid)
  | other => other

/-- `tag_key`. -/
def tagKey : Parser Char Error EscapedStr :=
  escapedValue (takeWhile1 fun c => !isWhitespaceBoundaryChar c && c != '=' && c != '\\')

/-- `tag_value`. -/
def tagValue : Parser Char Error EscapedStr :=
  escapedValue (takeWhile1 fun c => !isWhitespaceBoundaryChar c && c != ',' && c != '\\')

/-- `tag_set`. -/
def tagSet : Parser Char Error (List (EscapedStr × EscapedStr)) :=
  parameterizedSeparatedList (tag [',']) (separatedPair tagKey (tag ['=']) tagValue) []

/-- `maybe_tagset`. -/
def maybeTagset : Parser Char Error (Option (List (EscapedStr × EscapedStr))) := fun i =>
  match (tag [','] : Parser Char Error (List Char)) i with
  | .error (.error _) => .ok (i, none)
  | .ok (remainder, _) =>
    match tagSet remainder with
    | .ok (i', ts) => if ts = [] then .error (.error .tagSetMalformed) else .ok (i', some ts)
    | .error (.error _) => .error (.error .tagSetMalformed)
    | .error e => .error e
  | .error e => .error e

/-- `Series`, its values kept with their representation. -/
structure Series where
  rawInput : List Char
  measurement : EscapedStr
  tagSet : Option (List (EscapedStr × EscapedStr))
  deriving DecidableEq, Repr

/-- `series`. -/
def series : Parser Char Error Series :=
  map (parseAndRecognize (pair measurement maybeTagset))
    fun (rawInput, (measurement, tagSet)) => ⟨rawInput, measurement, tagSet⟩

/-- The logical text of each tag. -/
def logicalTags : List (EscapedStr × EscapedStr) → List (List Char × List Char) :=
  List.map (Prod.map EscapedStr.asStr EscapedStr.asStr)

/-- The series as `Parser` keeps it: the logical text of each value. -/
def Series.logical (s : Series) : LineProtocol.Series :=
  ⟨s.rawInput, s.measurement.asStr, s.tagSet.map logicalTags⟩

/-! ### Forgetting the representation gives back `Parser`'s grammar -/

section Forget

variable {α β : Type}

/-- The loop of `parameterized_separated_list` reads the same items whatever part of their
output is forgotten. -/
theorem map_separatedListLoop (sep : Parser Char Error β) (f : Parser Char Error α)
    (g : α → γ) : ∀ fuel i res, (separatedListLoop sep f fuel i res).map (Prod.map id (List.map g)) =
      separatedListLoop sep (map f g) fuel i (res.map g)
  | 0, i, res => rfl
  | fuel + 1, i, res => by
    have ih := map_separatedListLoop sep f g fuel
    simp only [separatedListLoop]
    rcases hs : sep i with (e | e) | ⟨i1, _⟩
    · rfl
    · rfl
    · by_cases hi : i1 = i
      · simp [hi, Except.map]
      · simp only [hi, if_false]
        rcases hf : f i1 with (e | e) | ⟨i2, o⟩
        · simp [map_of_error hf, Except.map]
        · simp [map_of_error hf, Except.map]
        · by_cases hi2 : i2 = i
          · simp [map_of_ok hf, hi2, Except.map]
          · simpa [map_of_ok hf, hi2] using ih i2 (res ++ [o])

theorem map_parameterizedSeparatedList (sep : Parser Char Error β) (f : Parser Char Error α)
    (g : α → γ) (res : List α) :
    map (parameterizedSeparatedList sep f res) (List.map g) =
      parameterizedSeparatedList sep (map f g) (res.map g) := by
  funext i
  rw [map_apply]
  simp only [parameterizedSeparatedList]
  rcases hf : f i with (e | e) | ⟨i1, o⟩
  · simp [map_of_error hf, Except.map]
  · simp [map_of_error hf, Except.map]
  · by_cases hi : i1 = i
    · simp [map_of_ok hf, hi, Except.map]
    · simpa [map_of_ok hf, hi] using map_separatedListLoop sep f g (i1.length + 1) i1 (res ++ [o])

theorem map_parseAndRecognize (p : Parser Char Error α) (g : α → γ) :
    map (parseAndRecognize p) (Prod.map id g) = parseAndRecognize (map p g) := by
  funext i
  rcases h : p i with e | ⟨r, a⟩ <;> simp [parseAndRecognize, map, h]

end Forget

section ForgetEscapes

variable {ε : Type} [ParseError Char ε]

theorem map_escapeOrFallbackInner (normal : Parser Char ε (List Char)) (escapeChar : List Char)
    (escaped : Parser Char ε (List Char)) :
    map (escapeOrFallbackInner normal escapeChar escaped) EscapedStr.asStr =
      LineProtocol.escapeOrFallbackInner normal escapeChar escaped := by
  have hjoin : EscapedStr.asStr ∘ EscapedStr.fromSlices = List.flatten :=
    funext EscapedStr.asStr_fromSlices
  rw [escapeOrFallbackInner, map_map, hjoin, map_escapeOrFallbackSlices]

end ForgetEscapes

theorem map_escapeOrFallback (normal : Parser Char Error (List Char)) (escapeChar : List Char)
    (escaped : Parser Char Error (List Char)) :
    map (escapeOrFallback normal escapeChar escaped) EscapedStr.asStr =
      LineProtocol.escapeOrFallback normal escapeChar escaped := by
  funext i
  have hinner := congrFun (map_escapeOrFallbackInner normal escapeChar escaped) i
  rw [map_apply] at hinner
  simp only [map_apply, escapeOrFallback, LineProtocol.escapeOrFallback]
  rw [← hinner]
  rcases escapeOrFallbackInner normal escapeChar escaped i with e | ⟨r, s⟩
  · rfl
  · simp only [Except.map, Prod.map_apply, id_eq]
    split_ifs <;> rfl

theorem map_escapedValue (normal : Parser Char Error (List Char)) :
    map (escapedValue normal) EscapedStr.asStr = LineProtocol.escapedValue normal :=
  map_escapeOrFallback _ _ _

theorem map_measurement : map measurement EscapedStr.asStr = LineProtocol.measurement := by
  funext i
  have h := congrFun (map_escapeOrFallback (takeWhile1 fun c =>
      !isWhitespaceBoundaryChar c && !isNullChar c && c != ',' && c != '\\')
    ['\\'] (alt (map (tag [',']) fun _ => [',']) [map (tag [' ']) fun _ => [' '],
      map (tag ['\\']) fun _ => ['\\']])) i
  rw [map_apply] at h
  simp only [measurement, LineProtocol.measurement, ← h, map_apply]
  rcases escapeOrFallback _ _ _ i with (e | e) | ⟨r, s⟩ <;> rfl

theorem map_tagSet : map tagSet logicalTags = LineProtocol.tagSet := by
  rw [tagSet, logicalTags, map_parameterizedSeparatedList, map_separatedPair, tagKey, tagValue,
    map_escapedValue, map_escapedValue]
  rfl

theorem map_maybeTagset : map maybeTagset (Option.map logicalTags) = LineProtocol.maybeTagset := by
  funext i
  have hts := map_tagSet
  simp only [maybeTagset, LineProtocol.maybeTagset, map_apply]
  rcases (tag [','] : Parser Char Error (List Char)) i with (e | e) | ⟨remainder, _⟩
  · rfl
  · rfl
  · dsimp only
    rw [← hts, map_apply]
    rcases tagSet remainder with (e | e) | ⟨i', ts⟩
    · rfl
    · rfl
    · by_cases hts : ts = []
      · simp [hts, Except.map, logicalTags]
      · simp [hts, Except.map, logicalTags]

/-- The grammar read with the representation of its values reads what `series` reads. -/
theorem map_series : map series Series.logical = LineProtocol.series := by
  have hmk : (Series.logical ∘ fun ((rawInput, (measurement, tagSet)) :
        List Char × EscapedStr × Option (List (EscapedStr × EscapedStr))) =>
        (⟨rawInput, measurement, tagSet⟩ : Series)) =
      (fun ((rawInput, (measurement, tagSet)) :
        List Char × List Char × Option (List (List Char × List Char))) =>
        (⟨rawInput, measurement, tagSet⟩ : LineProtocol.Series)) ∘
        Prod.map id (Prod.map EscapedStr.asStr (Option.map logicalTags)) := by
    funext ⟨_, _, _⟩
    rfl
  rw [series, LineProtocol.series, map_map, hmk, ← map_map, map_parseAndRecognize, map_pair,
    map_measurement, map_maybeTagset]

/-! ### `generate_base` -/

/-- `,key=value`, as `generate_base` writes a tag. -/
def tagBase (t : EscapedStr × EscapedStr) : List Char := ',' :: t.1.asStr ++ '=' :: t.2.asStr

/-- The measurement followed by each tag, as the paths that do not copy the input write a
series. -/
def baseText (measurement : EscapedStr) (tags : List (EscapedStr × EscapedStr)) : List Char :=
  measurement.asStr ++ tags.flatMap tagBase

/-- `Series::is_escaped`. -/
def Series.isEscaped (s : Series) : Bool :=
  s.measurement.isEscaped ||
    match s.tagSet with
    | none => false
    | some tagSet => tagSet.any fun (tagKey, tagValue) => tagKey.isEscaped || tagValue.isEscaped

/-- `Series::is_sorted_and_unique`: each tag key is less than the next. -/
def Series.isSortedAndUnique (s : Series) : Bool :=
  match s.tagSet with
  | none => true
  | some tagSet => (tagSet.zip (tagSet.drop 1)).all fun ((lastTagKey, _), (thisTagKey, _)) =>
      decide (lastTagKey.asStr < thisTagKey.asStr)

/-- `Series::generate_base_with_escaping`. -/
def Series.generateBaseWithEscaping (s : Series) : List Char :=
  baseText s.measurement (s.tagSet.getD [])

/-- The order of the keys of the `BTreeMap`: the `Ord` of `EscapedStr`, on the logical text. -/
def KeyLe (a b : EscapedStr × EscapedStr) : Prop := a.1.asStr ≤ b.1.asStr

instance : DecidableRel KeyLe := fun a b => inferInstanceAs (Decidable (a.1.asStr ≤ b.1.asStr))

/-- One pass of the loop of `generate_base_with_escaping_sorting_deduplicating`: `entry` on the
map, which fails on a key already there. -/
def insertTag (uniqueSortedTagSet : List (EscapedStr × EscapedStr))
    (t : EscapedStr × EscapedStr) : Except Error (List (EscapedStr × EscapedStr)) :=
  match uniqueSortedTagSet.find? fun e => decide (e.1.asStr = t.1.asStr) with
  | some (tagKey, _) => .error (.duplicateTag tagKey.asStr)
  | none => .ok (uniqueSortedTagSet.orderedInsert KeyLe t)

/-- `Series::generate_base_with_escaping_sorting_deduplicating`. -/
def Series.generateBaseWithEscapingSortingDeduplicating (s : Series) :
    Except Error (List Char) := do
  let uniqueSortedTagSet ← (s.tagSet.getD []).foldlM insertTag []
  return baseText s.measurement uniqueSortedTagSet

/-- `Series::generate_base`. -/
def Series.generateBase (s : Series) : Except Error (List Char) :=
  match !s.isEscaped, s.isSortedAndUnique with
  | true, true => .ok s.rawInput
  | _, true => .ok s.generateBaseWithEscaping
  | _, _ => s.generateBaseWithEscapingSortingDeduplicating

variable {s : Series} {t : EscapedStr × EscapedStr} {p : Char → Bool}

/-- A series is not escaped when neither its measurement nor a tag key or value was copied. -/
theorem Series.isEscaped_eq_false : s.isEscaped = false ↔ s.measurement.isEscaped = false ∧
      ∀ t ∈ s.tagSet.getD [], t.1.isEscaped = false ∧ t.2.isEscaped = false := by
  rcases s with ⟨_, _, _ | tags⟩ <;> simp [Series.isEscaped]

/-! ### What a value was read from

A value that was not copied is read from its logical text, or from a backslash and its one
character: dropping the backslashes from what was consumed gives its logical text. -/

/-- A text with its backslashes dropped. -/
def withoutBackslashes (s : List Char) : List Char := s.filter (· != '\\')

@[simp] theorem withoutBackslashes_nil : withoutBackslashes [] = [] := rfl

@[simp] theorem withoutBackslashes_append (s t : List Char) :
    withoutBackslashes (s ++ t) = withoutBackslashes s ++ withoutBackslashes t := by
  simp [withoutBackslashes]

@[simp] theorem withoutBackslashes_backslash (s : List Char) :
    withoutBackslashes ('\\' :: s) = withoutBackslashes s := by
  simp [withoutBackslashes]

theorem withoutBackslashes_cons (c : Char) (s : List Char) :
    withoutBackslashes (c :: s) = withoutBackslashes [c] ++ withoutBackslashes s := by
  by_cases h : c = '\\' <;> simp [withoutBackslashes, h]

@[simp] theorem withoutBackslashes_cons_of_ne {c : Char} (h : c ≠ '\\') (s : List Char) :
    withoutBackslashes (c :: s) = c :: withoutBackslashes s := by
  simp [withoutBackslashes, h]

theorem withoutBackslashes_eq_self {s : List Char} : withoutBackslashes s = s ↔ '\\' ∉ s := by
  simp only [withoutBackslashes, List.filter_eq_self, bne_iff_ne, ne_eq]
  exact ⟨fun h hm => h _ hm rfl, fun h a ha hab => h (hab ▸ ha)⟩

/-- An escape alternative answers the one character it reads. -/
theorem consumes_escapeTag {ε : Type} [ParseError Char ε] (c : Char) :
    Consumes (map (tag (ε := ε) [c]) fun _ => [c]) fun src a => src = a ∧ a.length = 1 :=
  ((consumes_tag [c]).map _).mono fun _ _ ⟨_, hb, hsrc, _⟩ => ⟨hsrc.trans hb.symm, by simp [hb]⟩

section Consumed

variable {ε : Type} [ParseError Char ε]

/-- What the loop of `escape_or_fallback_inner` consumed, without its backslashes, is what its
new slices hold without theirs, and a new slice that holds a backslash is a backslash alone. -/
theorem escapeOrFallbackSlicesLoop_consumes (hp : p '\\' = false)
    {escaped : Parser Char ε (List Char)}
    (hesc : Consumes escaped fun src a => src = a ∧ a.length = 1) (i : List Char) :
    ∀ fuel head result r out,
      escapeOrFallbackSlicesLoop (takeWhile1 p) ['\\'] escaped i fuel head result = .ok (r, out) →
      ∃ src new, head = src ++ r ∧ out = result ++ new ∧
        withoutBackslashes src = withoutBackslashes new.flatten ∧ ∀ x ∈ new, '\\' ∈ x → x = ['\\']
  | 0, head, result, r, out, h => by
    simp only [escapeOrFallbackSlicesLoop, Except.ok.injEq, Prod.mk.injEq] at h
    obtain ⟨rfl, rfl⟩ := h
    exact ⟨[], [], rfl, by simp, rfl, by simp⟩
  | fuel + 1, head, result, r, out, h => by
    have ih := escapeOrFallbackSlicesLoop_consumes hp hesc i fuel
    rcases hn : takeWhile1 (ε := ε) p head with (e | e) | ⟨remaining, parsed⟩
    · -- no run of plain characters: an escape follows, or the value has ended
      by_cases hpre : ['\\'].isPrefixOf head = true
      · obtain ⟨after, rfl⟩ : ∃ after, head = '\\' :: after := by
          cases head with
          | nil => simp at hpre
          | cons c after =>
            have hc : '\\' = c := by simpa using hpre
            exact ⟨after, by rw [hc]⟩
        rcases he : escaped after with (e' | e') | ⟨remaining, parsed⟩
        · -- an unknown escape: the backslash and the next character are two slices
          cases after with
          | nil =>
            simp only [escapeOrFallbackSlicesLoop, hn, hpre, if_true, List.length_singleton,
              List.drop_succ_cons, List.drop_zero, he, Except.ok.injEq, Prod.mk.injEq] at h
            obtain ⟨rfl, rfl⟩ := h
            exact ⟨['\\'], [['\\']], rfl, rfl, by simp, by simp⟩
          | cons c remaining =>
            simp only [escapeOrFallbackSlicesLoop, hn, hpre, if_true, List.length_singleton,
              List.drop_succ_cons, List.drop_zero, he] at h
            obtain ⟨src, new, rfl, rfl, hsrc, hnew⟩ := ih _ _ _ _ h
            refine ⟨'\\' :: c :: src, ['\\'] :: [c] :: new, rfl, by simp, ?_, ?_⟩
            · simp only [withoutBackslashes_backslash, List.flatten_cons, List.cons_append,
                List.nil_append]
              rw [withoutBackslashes_cons c src, withoutBackslashes_cons c new.flatten, hsrc]
            · intro x hx hbs
              rcases List.mem_cons.1 hx with rfl | hx
              · rfl
              rcases List.mem_cons.1 hx with rfl | hx
              · rw [List.mem_singleton] at hbs
                rw [← hbs]
              · exact hnew x hx hbs
        · simp [escapeOrFallbackSlicesLoop, hn, hpre, he] at h
        · -- a known escape: the one character after the backslash is one slice
          obtain ⟨src, rfl, rfl, hlen⟩ := hesc _ _ _ he
          simp only [escapeOrFallbackSlicesLoop, hn, hpre, if_true, List.length_singleton,
            List.drop_succ_cons, List.drop_zero, he] at h
          obtain ⟨src', new, rfl, rfl, hsrc, hnew⟩ := ih _ _ _ _ h
          obtain ⟨c, rfl⟩ := List.length_eq_one_iff.1 hlen
          refine ⟨'\\' :: c :: src', [c] :: new, by simp, by simp, ?_, ?_⟩
          · simp only [withoutBackslashes_backslash, List.flatten_cons, List.cons_append,
              List.nil_append]
            rw [withoutBackslashes_cons c src', withoutBackslashes_cons c new.flatten, hsrc]
          · intro x hx hbs
            rcases List.mem_cons.1 hx with rfl | hx
            · rw [List.mem_singleton] at hbs
              rw [← hbs]
            · exact hnew x hx hbs
      · -- no escape either: the loop stops where it is, having consumed nothing more
        have hpre' : ['\\'].isPrefixOf head = false := Bool.eq_false_iff.2 hpre
        simp only [escapeOrFallbackSlicesLoop, hn, hpre', Bool.false_eq_true, if_false] at h
        split_ifs at h
        simp only [Except.ok.injEq, Prod.mk.injEq] at h
        obtain ⟨rfl, rfl⟩ := h
        exact ⟨[], [], rfl, by simp, rfl, by simp⟩
    · simp [escapeOrFallbackSlicesLoop, hn] at h
    · -- a run of plain characters is one slice, and holds no backslash
      obtain ⟨src, rfl, rfl, hplain⟩ := consumes_takeWhile1 p _ _ _ hn
      have hbs : '\\' ∉ src := fun hmem => by simpa [hp] using hplain _ hmem
      simp only [escapeOrFallbackSlicesLoop, hn] at h
      obtain ⟨src', new, rfl, rfl, hsrc, hnew⟩ := ih _ _ _ _ h
      refine ⟨src ++ src', src :: new, by simp, by simp, ?_, ?_⟩
      · simp [hsrc]
      · intro x hx hbs'
        rcases List.mem_cons.1 hx with rfl | hx
        · exact absurd hbs' hbs
        · exact hnew x hx hbs'

end Consumed

/-- What `escape_or_fallback` consumed, without its backslashes, is the logical text of a value
that was not copied. -/
theorem consumes_escapeOrFallback (hp : p '\\' = false) {escaped : Parser Char Error (List Char)}
    (hesc : Consumes escaped fun src a => src = a ∧ a.length = 1) :
    Consumes (escapeOrFallback (takeWhile1 p) ['\\'] escaped)
      fun src e => e.isEscaped = false → e.asStr = withoutBackslashes src := by
  intro i r e h
  simp only [escapeOrFallback] at h
  rcases hi : escapeOrFallbackInner (takeWhile1 p) ['\\'] escaped i with err | ⟨r', e'⟩
  · simp [hi] at h
  simp only [hi] at h
  split_ifs at h with hlast
  simp only [Except.ok.injEq, Prod.mk.injEq] at h
  obtain ⟨rfl, rfl⟩ := h
  obtain ⟨v, hv, rfl⟩ := map_eq_ok.1 hi
  obtain ⟨src, new, hsrc, rfl, hwb, hnew⟩ :=
    escapeOrFallbackSlicesLoop_consumes hp hesc i (i.length + 1) i [] _ _ hv
  refine ⟨src, hsrc, fun hesc' => ?_⟩
  rcases v with _ | ⟨x, _ | ⟨y, v⟩⟩
  · simpa using hwb.symm
  · -- one slice: it holds no backslash, or it would be a lone backslash that the check refuses
    have hx : '\\' ∉ x := fun hmem => hlast (by simp [hnew x (by simp) hmem])
    simpa [withoutBackslashes_eq_self.2 hx] using hwb.symm
  · simp [EscapedStr.isEscaped_fromSlices_eq_false] at hesc'

/-- The escapes of tag keys and values consume the character they answer. -/
theorem consumes_escapedValueEscapes :
    Consumes (alt (map (tag ['\\']) fun _ => ['\\']) [map (tag [',']) fun _ => [','],
        map (tag ['=']) fun _ => ['='], map (tag [' ']) fun _ => [' ']] : Parser Char Error _)
      fun src a => src = a ∧ a.length = 1 := by
  refine Consumes.alt (consumes_escapeTag _) ?_
  simp only [List.mem_cons, List.not_mem_nil, or_false]
  rintro q (rfl | rfl | rfl) <;> exact consumes_escapeTag _

theorem consumes_escapedValue (hp : p '\\' = false) : Consumes (escapedValue (takeWhile1 p))
      fun src e => e.isEscaped = false → e.asStr = withoutBackslashes src :=
  consumes_escapeOrFallback hp consumes_escapedValueEscapes

theorem consumes_measurement :
    Consumes measurement fun src e => e.isEscaped = false → e.asStr = withoutBackslashes src := by
  have hesc : Consumes (alt (map (tag [',']) fun _ => [',']) [map (tag [' ']) fun _ => [' '],
      map (tag ['\\']) fun _ => ['\\']] : Parser Char Error _)
      fun src a => src = a ∧ a.length = 1 := by
    refine Consumes.alt (consumes_escapeTag _) ?_
    simp only [List.mem_cons, List.not_mem_nil, or_false]
    rintro q (rfl | rfl) <;> exact consumes_escapeTag _
  intro i r e h
  simp only [measurement] at h
  split at h
  · cases h
  · exact consumes_escapeOrFallback (by decide) hesc i r e h

/-- A tag is read from its key, `=` and its value: after a comma, what was consumed without its
backslashes is the tag as `generate_base` writes it, when neither part was copied. -/
theorem consumes_tagPair : Consumes (separatedPair tagKey (tag ['=']) tagValue) fun src t =>
      t.1.isEscaped = false ∧ t.2.isEscaped = false → ',' :: withoutBackslashes src = tagBase t := by
  refine (((consumes_escapedValue (by decide)).pair
    ((consumes_tag ['=']).pair (consumes_escapedValue (by decide)))).map _).mono ?_
  rintro src t ⟨⟨k, e, v⟩, rfl, sk, rest, rfl, hk, se, sv, rfl, ⟨rfl, -⟩, hv⟩ ⟨hke, hve⟩
  simp [tagBase, hk hke, hv hve]

section Lists

variable {α : Type} {f : Parser Char Error α} {P : α → Prop} {g : α → List Char}

/-- The loop of `parameterized_separated_list` over `,`: what it consumed, without its
backslashes, is each item it read after its comma. -/
theorem consumes_separatedListLoop
    (hf : Consumes f fun src a => P a → ',' :: withoutBackslashes src = g a) :
    ∀ fuel i res r out, separatedListLoop (tag [',']) f fuel i res = .ok (r, out) →
      ∃ src new, i = src ++ r ∧ out = res ++ new ∧
        ((∀ a ∈ new, P a) → withoutBackslashes src = new.flatMap g)
  | 0, i, res, r, out, h => by
    simp only [separatedListLoop, Except.ok.injEq, Prod.mk.injEq] at h
    obtain ⟨rfl, rfl⟩ := h
    exact ⟨[], [], rfl, by simp, fun _ => rfl⟩
  | fuel + 1, i, res, r, out, h => by
    rcases hs : (tag [','] : Parser Char Error (List Char)) i with (e | e) | ⟨i1, _⟩
    · simp only [separatedListLoop, hs, Except.ok.injEq, Prod.mk.injEq] at h
      obtain ⟨rfl, rfl⟩ := h
      exact ⟨[], [], rfl, by simp, fun _ => rfl⟩
    · simp [separatedListLoop, hs] at h
    obtain ⟨_, rfl, rfl, -⟩ := consumes_tag [','] _ _ _ hs
    have hne : i1 ≠ [','] ++ i1 := (List.cons_ne_self _ _).symm
    simp only [separatedListLoop, hs, hne, if_false] at h
    rcases hfi : f i1 with (e | e) | ⟨i2, o⟩
    · simp only [hfi, Except.ok.injEq, Prod.mk.injEq] at h
      obtain ⟨rfl, rfl⟩ := h
      exact ⟨[], [], rfl, by simp, fun _ => rfl⟩
    · simp [hfi] at h
    by_cases hi2 : i2 = [','] ++ i1
    · simp [hfi, hi2] at h
    simp only [hfi, hi2, if_false] at h
    obtain ⟨s, rfl, hso⟩ := hf _ _ _ hfi
    obtain ⟨src, new, rfl, rfl, hsrc⟩ := consumes_separatedListLoop hf fuel _ _ _ _ h
    refine ⟨',' :: s ++ src, o :: new, by simp, by simp, fun hP => ?_⟩
    rw [List.flatMap_cons, ← hso (hP o List.mem_cons_self),
      ← hsrc fun a ha => hP a (List.mem_cons_of_mem o ha)]
    simp

/-- `parameterized_separated_list` over `,`: after a comma, what it consumed without its
backslashes is the items it read, each after its comma. -/
theorem consumes_parameterizedSeparatedList
    (hf : Consumes f fun src a => P a → ',' :: withoutBackslashes src = g a) (res : List α) :
    Consumes (parameterizedSeparatedList (tag [',']) f res) fun src out =>
      ∃ new, out = res ++ new ∧
        (new ≠ [] → (∀ a ∈ new, P a) → ',' :: withoutBackslashes src = new.flatMap g) := by
  intro i r out h
  simp only [parameterizedSeparatedList] at h
  rcases hfi : f i with (e | e) | ⟨i1, o⟩
  · simp only [hfi, Except.ok.injEq, Prod.mk.injEq] at h
    obtain ⟨rfl, rfl⟩ := h
    exact ⟨[], rfl, [], by simp, fun hne => absurd rfl hne⟩
  · simp [hfi] at h
  by_cases hi : i1 = i
  · simp [hfi, hi] at h
  simp only [hfi, hi, if_false] at h
  obtain ⟨s, rfl, hs⟩ := hf _ _ _ hfi
  obtain ⟨src, new, rfl, rfl, hsrc⟩ := consumes_separatedListLoop hf _ _ _ _ _ h
  refine ⟨s ++ src, by simp, o :: new, by simp, fun _ hP => ?_⟩
  rw [List.flatMap_cons, ← hs (hP o List.mem_cons_self),
    ← hsrc fun a ha => hP a (List.mem_cons_of_mem o ha)]
  simp

end Lists

/-- `maybe_tagset`: what it consumed, without its backslashes, is the tags as `generate_base`
writes them, when no key or value was copied. -/
theorem consumes_maybeTagset : Consumes maybeTagset fun src ts =>
      (∀ t ∈ ts.getD [], t.1.isEscaped = false ∧ t.2.isEscaped = false) →
        withoutBackslashes src = (ts.getD []).flatMap tagBase := by
  intro i r ts h
  simp only [maybeTagset] at h
  rcases hc : (tag [','] : Parser Char Error (List Char)) i with (e | e) | ⟨remainder, _⟩
  · simp only [hc, Except.ok.injEq, Prod.mk.injEq] at h
    obtain ⟨rfl, rfl⟩ := h
    exact ⟨[], rfl, fun _ => rfl⟩
  · simp [hc] at h
  obtain ⟨_, rfl, rfl, -⟩ := consumes_tag [','] _ _ _ hc
  simp only [hc] at h
  rcases hts : tagSet remainder with (e | e) | ⟨i', tags⟩
  · simp [hts] at h
  · simp [hts] at h
  by_cases hnil : tags = []
  · simp [hts, hnil] at h
  simp only [hts, hnil, if_false, Except.ok.injEq, Prod.mk.injEq] at h
  obtain ⟨rfl, rfl⟩ := h
  obtain ⟨src, rfl, new, rfl, hsrc⟩ :=
    consumes_parameterizedSeparatedList consumes_tagPair [] _ _ _ hts
  exact ⟨',' :: src, by simp, fun hplain => by simpa using hsrc hnil hplain⟩

/-- `series` records the input it consumed, and that input without its backslashes is the series
as the slow paths write it, when no value of the series was copied. -/
theorem series_rawInput {i r : List Char} (h : series i = .ok (r, s)) : i = s.rawInput ++ r ∧
      (s.isEscaped = false → withoutBackslashes s.rawInput = s.generateBaseWithEscaping) := by
  obtain ⟨⟨raw, m, ts⟩, hpr, rfl⟩ := map_eq_ok.1 h
  simp only [parseAndRecognize] at hpr
  rcases hp : pair measurement maybeTagset i with e | ⟨r', m', ts'⟩
  · simp [hp] at hpr
  simp only [hp, Except.ok.injEq, Prod.mk.injEq] at hpr
  obtain ⟨rfl, rfl, rfl, rfl⟩ := hpr
  obtain ⟨_, rfl, sm, st, rfl, hm, hts⟩ := (consumes_measurement.pair consumes_maybeTagset) _ _ _ hp
  have hraw : (sm ++ st ++ r').take ((sm ++ st ++ r').length - r'.length) = sm ++ st := by
    rw [show (sm ++ st ++ r').length - r'.length = (sm ++ st).length by simp; omega,
      List.take_left]
  refine ⟨by simp only [hraw], fun hesc => ?_⟩
  obtain ⟨hme, htse⟩ := Series.isEscaped_eq_false.1 hesc
  simp only [hraw, Series.generateBaseWithEscaping, baseText, withoutBackslashes_append]
  rw [← hm hme, hts htse]

/-- The fast path of `generate_base` answers the series as the slow paths write it exactly when
a value of the series was copied or the input it was read from holds no backslash. -/
theorem generateBase_eq_iff {i r : List Char} {s : Series} (h : series i = .ok (r, s))
    (hsorted : s.isSortedAndUnique = true) :
    s.generateBase = .ok s.generateBaseWithEscaping ↔ s.isEscaped = true ∨ '\\' ∉ s.rawInput := by
  cases hesc : s.isEscaped
  · -- not escaped: the fast path answers the input, whose backslashes the slow paths drop
    have hraw := (series_rawInput h).2 hesc
    simp only [Series.generateBase, hesc, hsorted, Bool.not_false, Except.ok.injEq,
      Bool.false_eq_true, false_or]
    rw [← hraw, eq_comm, withoutBackslashes_eq_self]
  · simp [Series.generateBase, hesc, hsorted]

/-- `m,k=\,`: a tag whose value is one escaped comma is one slice, so the fast path answers the
input with its backslash where the slow paths write `m,k=,`. -/
theorem generateBase_keeps_escaped_comma :
    ∃ s, series ['m', ',', 'k', '=', '\\', ','] = .ok ([], s) ∧
      s.generateBase = .ok ['m', ',', 'k', '=', '\\', ','] ∧
      s.generateBaseWithEscaping = ['m', ',', 'k', '=', ','] ∧
      s.generateBase ≠ .ok s.generateBaseWithEscaping := by
  have hs : series ['m', ',', 'k', '=', '\\', ','] = .ok ([], ⟨['m', ',', 'k', '=', '\\', ','],
      .singleSlice ['m'], some [(.singleSlice ['k'], .singleSlice [','])]⟩) := rfl
  refine ⟨_, hs, rfl, rfl, fun h => ?_⟩
  rcases (generateBase_eq_iff hs rfl).1 h with hesc | hbs
  · cases hesc
  · exact hbs (by simp)

/-! ### The sorting path -/

/-- The keys of the tags, as the map compares them. -/
def tagKeys (tags : List (EscapedStr × EscapedStr)) : List (List Char) :=
  tags.map fun t => t.1.asStr

/-- Tags in strictly increasing order of key. -/
def KeysIncrease (tags : List (EscapedStr × EscapedStr)) : Prop :=
  tags.Pairwise fun a b => a.1.asStr < b.1.asStr

theorem KeysIncrease.nodup {tags : List (EscapedStr × EscapedStr)} (h : KeysIncrease tags) :
    (tagKeys tags).Nodup := by
  rw [tagKeys, List.Nodup, List.pairwise_map]
  refine h.imp fun {a b} hab heq => ?_
  rw [heq] at hab
  exact List.lt_irrefl _ hab

/-- Each key less than the next makes the keys increase. -/
theorem keysIncrease_of_zip_drop : ∀ {tags : List (EscapedStr × EscapedStr)},
    (∀ p ∈ tags.zip (tags.drop 1), p.1.1.asStr < p.2.1.asStr) → KeysIncrease tags
  | [], _ => List.Pairwise.nil
  | [_], _ => List.pairwise_singleton _ _
  | a :: b :: tags, h => by
    have hab : a.1.asStr < b.1.asStr := h (a, b) (by simp)
    have hrest : KeysIncrease (b :: tags) :=
      keysIncrease_of_zip_drop fun p hp => h p (by simp_all)
    refine List.pairwise_cons.2 ⟨fun x hx => ?_, hrest⟩
    rcases List.mem_cons.1 hx with rfl | hx
    · exact hab
    · exact List.lt_trans hab (List.rel_of_pairwise_cons hrest hx)

theorem Series.keysIncrease_of_isSortedAndUnique (h : s.isSortedAndUnique = true) :
    KeysIncrease (s.tagSet.getD []) := by
  rcases s with ⟨_, _, _ | tags⟩
  · exact List.Pairwise.nil
  · simp only [Series.isSortedAndUnique, List.all_eq_true, decide_eq_true_eq] at h
    exact keysIncrease_of_zip_drop fun p hp => h p hp

/-- Inserting a tag whose key is new keeps the keys increasing. -/
theorem KeysIncrease.orderedInsert : ∀ {tags : List (EscapedStr × EscapedStr)}, KeysIncrease tags →
      (∀ e ∈ tags, e.1.asStr ≠ t.1.asStr) → KeysIncrease (tags.orderedInsert KeyLe t)
  | [], _, _ => List.pairwise_singleton _ _
  | a :: tags, h, hnew => by
    obtain ⟨ha, htags⟩ := List.pairwise_cons.1 h
    rw [List.orderedInsert_cons]
    split_ifs with hta
    · -- `t` goes first: its key is below `a`'s, and so below every key after `a`
      have hlt : t.1.asStr < a.1.asStr := by
        have hne := hnew a List.mem_cons_self
        simp only [KeyLe] at hta
        grind
      refine List.pairwise_cons.2 ⟨fun x hx => ?_, h⟩
      rcases List.mem_cons.1 hx with rfl | hx
      · exact hlt
      · exact List.lt_trans hlt (ha x hx)
    · -- `t` goes after `a`, whose key is below `t`'s
      have hlt : a.1.asStr < t.1.asStr := by
        simpa [KeyLe, List.not_le] using hta
      refine List.pairwise_cons.2 ⟨fun x hx => ?_,
        KeysIncrease.orderedInsert htags fun e he => hnew e (List.mem_cons_of_mem a he)⟩
      rcases List.mem_cons.1 ((List.perm_orderedInsert KeyLe t tags).mem_iff.1 hx) with rfl | hx
      · exact hlt
      · exact ha x hx

/-- `entry` on a key that is not in the map inserts the tag. -/
theorem insertTag_of_not_mem {acc : List (EscapedStr × EscapedStr)}
    (h : t.1.asStr ∉ tagKeys acc) : insertTag acc t = .ok (acc.orderedInsert KeyLe t) := by
  have hnone : acc.find? (fun e => decide (e.1.asStr = t.1.asStr)) = none :=
    List.find?_eq_none.2 fun e he hk => h (List.mem_map.2 ⟨e, he, by simpa using hk⟩)
  simp [insertTag, hnone]

/-- `entry` on a key that is in the map fails with `DuplicateTag`, naming it. -/
theorem insertTag_of_mem {acc : List (EscapedStr × EscapedStr)}
    (h : t.1.asStr ∈ tagKeys acc) : insertTag acc t = .error (.duplicateTag t.1.asStr) := by
  obtain ⟨e, he, hk⟩ := List.mem_map.1 h
  rcases hfind : acc.find? (fun e => decide (e.1.asStr = t.1.asStr)) with _ | ⟨k, v⟩
  · exact absurd (List.find?_eq_none.1 hfind e he) (by simpa using hk)
  · have hkey : k.asStr = t.1.asStr := by simpa using List.find?_some hfind
    simp [insertTag, hfind, hkey]

/-- The loop over tags with distinct keys fills the map with all of them, in increasing order of
key. -/
theorem foldlM_insertTag_of_nodup : ∀ (tags acc : List (EscapedStr × EscapedStr)),
    KeysIncrease acc → (tagKeys (acc ++ tags)).Nodup →
      ∃ m, tags.foldlM insertTag acc = .ok m ∧ m.Perm (acc ++ tags) ∧ KeysIncrease m
  | [], acc, hacc, _ => ⟨acc, rfl, by simp, hacc⟩
  | t :: tags, acc, hacc, hnodup => by
    have hnew : t.1.asStr ∉ tagKeys acc := by
      rw [tagKeys, List.map_append, List.map_cons, List.nodup_middle] at hnodup
      exact fun hmem => (List.nodup_cons.1 hnodup).1 (List.mem_append_left _ hmem)
    have hperm : (acc.orderedInsert KeyLe t ++ tags).Perm (acc ++ t :: tags) :=
      ((List.perm_orderedInsert KeyLe t acc).append_right tags).trans List.perm_middle.symm
    have hacc' := hacc.orderedInsert fun e he hk => hnew (List.mem_map.2 ⟨e, he, hk⟩)
    obtain ⟨m, hm, hmperm, hmsorted⟩ := foldlM_insertTag_of_nodup tags _ hacc'
      ((hperm.map _).nodup_iff.2 hnodup)
    refine ⟨m, ?_, hmperm.trans hperm, hmsorted⟩
    rw [List.foldlM_cons, insertTag_of_not_mem hnew]
    exact hm

/-- With a key twice among the tags, the loop fails with `DuplicateTag` naming such a key. -/
theorem foldlM_insertTag_of_duplicate : ∀ (tags acc : List (EscapedStr × EscapedStr)),
    (tagKeys acc).Nodup → ¬ (tagKeys (acc ++ tags)).Nodup →
      ∃ k, 2 ≤ (tagKeys (acc ++ tags)).count k ∧
        tags.foldlM insertTag acc = .error (.duplicateTag k)
  | [], acc, hacc, hdup => absurd (by simpa using hacc) hdup
  | t :: tags, acc, hacc, hdup => by
    by_cases hmem : t.1.asStr ∈ tagKeys acc
    · -- the key of `t` is already in the map
      refine ⟨t.1.asStr, ?_, by rw [List.foldlM_cons, insertTag_of_mem hmem]; rfl⟩
      have hpos := List.count_pos_iff.2 hmem
      simp only [tagKeys, List.map_append, List.map_cons, List.count_append,
        List.count_cons_self] at hpos ⊢
      omega
    · have hperm : (acc.orderedInsert KeyLe t ++ tags).Perm (acc ++ t :: tags) :=
        ((List.perm_orderedInsert KeyLe t acc).append_right tags).trans List.perm_middle.symm
      have hacc' : (tagKeys (acc.orderedInsert KeyLe t)).Nodup :=
        ((List.perm_orderedInsert KeyLe t acc).map _).nodup_iff.2 (List.nodup_cons.2 ⟨hmem, hacc⟩)
      obtain ⟨k, hk, hfold⟩ := foldlM_insertTag_of_duplicate tags _ hacc'
        fun hn => hdup (((hperm.map _).nodup_iff).1 hn)
      refine ⟨k, ?_, by rw [List.foldlM_cons, insertTag_of_not_mem hmem]; exact hfold⟩
      rwa [tagKeys, ← (hperm.map fun t => t.1.asStr).count_eq]

/-- On the sorting path, with distinct keys, `generate_base` writes the tags in increasing order
of key. -/
theorem generateBase_of_nodup (hsorted : s.isSortedAndUnique = false)
    (hkeys : (tagKeys (s.tagSet.getD [])).Nodup) :
    ∃ sorted, sorted.Perm (s.tagSet.getD []) ∧ KeysIncrease sorted ∧
      s.generateBase = .ok (baseText s.measurement sorted) := by
  obtain ⟨m, hm, hperm, hinc⟩ :=
    foldlM_insertTag_of_nodup (s.tagSet.getD []) [] List.Pairwise.nil (by simpa using hkeys)
  refine ⟨m, by simpa using hperm, hinc, ?_⟩
  simp [Series.generateBase, hsorted, Series.generateBaseWithEscapingSortingDeduplicating, hm]

/-- Two tags with one key make `generate_base` fail with `DuplicateTag`, naming such a key. -/
theorem generateBase_of_duplicate (hkeys : ¬ (tagKeys (s.tagSet.getD [])).Nodup) :
    ∃ k, 2 ≤ (tagKeys (s.tagSet.getD [])).count k ∧ s.generateBase = .error (.duplicateTag k) := by
  have hsorted : s.isSortedAndUnique = false := by
    by_contra h
    exact hkeys (Series.keysIncrease_of_isSortedAndUnique (by simpa using h)).nodup
  obtain ⟨k, hk, hfold⟩ :=
    foldlM_insertTag_of_duplicate (s.tagSet.getD []) [] List.nodup_nil (by simpa using hkeys)
  refine ⟨k, by simpa using hk, ?_⟩
  simp [Series.generateBase, hsorted, Series.generateBaseWithEscapingSortingDeduplicating, hfold]

end Escaped

end IoxCore.LineProtocol

import IoxCore.LineProtocol.Builder

/-!
# What the parser reads back from built text

Each parser of `parse_line`, run on the text the builder writes for a value and
followed by what comes after it in a line, reads the value back and stops where
the text of the value ends.

* `escape_or_fallback` reads a measurement, a tag key, a tag value or a field
  key: `normal_char` takes each run of characters written as they are, and the
  `escaped` alternatives take each backslash escape. It stops at the separator
  that follows, which neither reads.
* A field value is tried as an integer, an unsigned integer, a float, a string
  and a boolean; the text of each kind fails the alternatives before its own.
* `parameterized_separated_list` reads the tags and the fields, and stops at
  the space or the end of the line after them.

## The model

A parser "fails" at an input when it answers a recoverable error, whatever the
error is (`Nom.Fails`); that is all an `alt` or an `opt` looks at. The separator
after a field value is a comma, a space or the end of the line (`ValueEnd`).
-/

namespace IoxCore.LineProtocol

open Nom RustStr Builder

variable {sp : List Char} {c : Char} {normal : Char → Bool} {s r : List Char}

/-! ### Escaped text -/

/-- The characters that `escape` writes as they are. -/
def plain (sp : List Char) (c : Char) : Bool := decide ¬(c ∈ sp ∨ c = '\\')

theorem escape_nil (sp : List Char) : escape [] sp = [] := rfl

theorem escape_cons_of_plain (s : List Char) (h : plain sp c = true) :
    escape (c :: s) sp = c :: escape s sp := by
  have : ¬(c ∈ sp ∨ c = '\\') := by simpa [plain] using h
  simp [escape, this]

theorem escape_cons_of_not_plain (s : List Char)
    (h : plain sp c = false) : escape (c :: s) sp = '\\' :: c :: escape s sp := by
  have : c ∈ sp ∨ c = '\\' := by
    by_contra hn
    simp [plain, hn] at h
  simp [escape, this]

theorem plain_eq_false_iff : plain sp c = false ↔ c ∈ sp ∨ c = '\\' := by
  simp [plain, or_iff_not_imp_left]

theorem plain_eq_true_iff : plain sp c = true ↔ ¬(c ∈ sp ∨ c = '\\') := by
  simp [plain]

theorem escape_append (s t sp : List Char) : escape (s ++ t) sp = escape s sp ++ escape t sp := by
  simp [escape]

theorem escape_of_plain {sp s : List Char} (h : ∀ c ∈ s, plain sp c = true) : escape s sp = s := by
  induction s with
  | nil => rfl
  | cons c s ih =>
    rw [escape_cons_of_plain s (h c List.mem_cons_self),
      ih fun x hx => h x (List.mem_cons_of_mem c hx)]

theorem escape_ne_nil (sp : List Char) {s : List Char} (h : s ≠ []) : escape s sp ≠ [] := by
  obtain ⟨c, s, rfl⟩ := List.exists_cons_of_ne_nil h
  cases hc : plain sp c
  · simp [escape_cons_of_not_plain s hc]
  · simp [escape_cons_of_plain s hc]

/-- Escaped text is the run of plain characters it starts with, then the rest,
escaped. -/
theorem escape_eq_takeWhile (s sp : List Char) :
    escape s sp = s.takeWhile (plain sp) ++ escape (s.dropWhile (plain sp)) sp := by
  conv_lhs => rw [← List.takeWhile_append_dropWhile (p := plain sp) (l := s)]
  rw [escape_append, escape_of_plain fun c hc => List.mem_takeWhile_imp hc]

/-- After its run of plain characters, escaped text starts with a backslash. -/
theorem headNot_escape_dropWhile (hbs : normal '\\' = false)
    (s sp : List Char) {r : List Char} (hr : HeadNot normal r) :
    HeadNot normal (escape (s.dropWhile (plain sp)) sp ++ r) := by
  by_cases hd : s.dropWhile (plain sp) = []
  · simpa [hd, escape_nil] using hr
  · obtain ⟨d, ds, hds⟩ := List.exists_cons_of_ne_nil hd
    have hnp : plain sp d = false := by
      simpa [hds] using List.head_dropWhile_not (plain sp) hd
    simp [hds, escape_cons_of_not_plain ds hnp, headNot_cons, hbs]

/-! ### The loop of `escape_or_fallback_inner` -/

section Loop

variable {ε : Type} [ParseError Char ε] {normal escaped : Parser Char ε (List Char)}
  {escapeChar i head result : List Char} {fuel : ℕ}

/-- `normal` reads a run. -/
theorem loop_of_normal {remaining parsed : List Char} (h : normal head = .ok (remaining, parsed)) :
    escapeOrFallbackInnerLoop normal escapeChar escaped i (fuel + 1) head result =
      escapeOrFallbackInnerLoop normal escapeChar escaped i fuel remaining (result ++ parsed) := by
  simp [escapeOrFallbackInnerLoop, h]

/-- `escaped` reads what follows an escape character. -/
theorem loop_of_escaped {after remaining parsed : List Char} (hn : Fails normal head)
    (hhead : head = escapeChar ++ after) (he : escaped after = .ok (remaining, parsed)) :
    escapeOrFallbackInnerLoop normal escapeChar escaped i (fuel + 1) head result =
      escapeOrFallbackInnerLoop normal escapeChar escaped i fuel remaining (result ++ parsed) := by
  obtain ⟨e, hne⟩ := hn
  have hp : escapeChar.isPrefixOf head = true := by
    rw [hhead, List.isPrefixOf_iff_prefix]
    exact List.prefix_append _ _
  have hd : head.drop escapeChar.length = after := by rw [hhead, List.drop_left]
  simp [escapeOrFallbackInnerLoop, hne, hp, hd, he]

/-- Neither reads, and something was read: the loop stops. -/
theorem loop_of_stop (hn : Fails normal head) (hp : ¬ escapeChar <+: head) (hi : head ≠ i) :
    escapeOrFallbackInnerLoop normal escapeChar escaped i (fuel + 1) head result =
      .ok (head, result) := by
  obtain ⟨e, hne⟩ := hn
  have hp' : escapeChar.isPrefixOf head = false :=
    Bool.eq_false_iff.mpr fun h => hp (List.isPrefixOf_iff_prefix.mp h)
  simp [escapeOrFallbackInnerLoop, hne, hp', hi]

end Loop

section Identifier

variable {ε : Type} [ParseError Char ε]

/-- The loop reads escaped text back, when `normal` reads the plain characters
and `escaped` the escaped ones, and neither reads what follows. The induction is
on the passes left; each pass reads a run or an escape. -/
theorem escapeOrFallbackInnerLoop_escape
    {escaped : Parser Char ε (List Char)} {i r : List Char} (hbs : normal '\\' = false)
    (hesc : ∀ c, plain sp c = false → ∀ r, escaped (c :: r) = .ok (r, [c]))
    (hr : HeadNot normal r) (hr' : ¬ ['\\'] <+: r) (hri : r ≠ i) :
    ∀ (fuel : ℕ) (s acc : List Char), (∀ c ∈ s, plain sp c = true → normal c = true) →
      (escape s sp).length < fuel →
      escapeOrFallbackInnerLoop (takeWhile1 normal) ['\\'] escaped i fuel (escape s sp ++ r) acc =
        .ok (r, acc ++ s)
  | 0, _, _, _, hlen => absurd hlen (Nat.not_lt_zero _)
  | fuel + 1, [], acc, _, _ => by
    rw [escape_nil, List.nil_append, loop_of_stop (takeWhile1_fails hr) hr' hri,
      List.append_nil]
  | fuel + 1, c :: s, acc, hs, hlen => by
    cases hc : plain sp c with
    | false =>
      -- a backslash escape, which `escaped` reads
      have hbody : escape (c :: s) sp ++ r = ['\\'] ++ (c :: (escape s sp ++ r)) := by
        simp [escape_cons_of_not_plain s hc]
      have hn : Fails (takeWhile1 (ε := ε) normal) (escape (c :: s) sp ++ r) := by
        rw [hbody]
        exact takeWhile1_fails (by simp [headNot_cons, hbs])
      rw [loop_of_escaped hn hbody (hesc c hc _)]
      have hlen' : (escape s sp).length < fuel := by
        simp [escape_cons_of_not_plain s hc] at hlen
        omega
      rw [escapeOrFallbackInnerLoop_escape hbs hesc hr hr' hri fuel s (acc ++ [c])
        (fun x hx => hs x (List.mem_cons_of_mem c hx)) hlen']
      simp
    | true =>
      -- the run of plain characters, which `normal` reads at once
      have hrun : (c :: s).takeWhile (plain sp) ≠ [] := by simp [hc]
      have hnormal : ∀ x ∈ (c :: s).takeWhile (plain sp), normal x = true := fun x hx =>
        hs x ((List.takeWhile_sublist _).subset hx) (List.mem_takeWhile_imp hx)
      have hread := takeWhile1_append (ε := ε) hrun hnormal
        (headNot_escape_dropWhile hbs (c :: s) sp hr)
      rw [escape_eq_takeWhile] at hlen
      rw [escape_eq_takeWhile, List.append_assoc]
      rw [loop_of_normal hread]
      have hlen' : (escape ((c :: s).dropWhile (plain sp)) sp).length < fuel := by
        have := List.length_pos_of_ne_nil hrun
        simp only [List.length_append] at hlen
        omega
      rw [escapeOrFallbackInnerLoop_escape hbs hesc hr hr' hri fuel _ _
        (fun x hx => hs x ((List.dropWhile_sublist _).subset hx)) hlen', List.append_assoc,
        List.takeWhile_append_dropWhile]

/-- `escape_or_fallback_inner` reads non-empty escaped text back. -/
theorem escapeOrFallbackInner_escape {escaped : Parser Char ε (List Char)} (hs₀ : s ≠ [])
    (hbs : normal '\\' = false)
    (hesc : ∀ c, plain sp c = false → ∀ r, escaped (c :: r) = .ok (r, [c]))
    (hs : ∀ c ∈ s, plain sp c = true → normal c = true)
    (hr : HeadNot normal r) (hr' : ¬ ['\\'] <+: r) :
    escapeOrFallbackInner (takeWhile1 normal) ['\\'] escaped (escape s sp ++ r) = .ok (r, s) := by
  have hpos := List.length_pos_of_ne_nil (escape_ne_nil sp hs₀)
  have hri : r ≠ escape s sp ++ r := by
    intro h
    have hlen := congrArg List.length h
    rw [List.length_append] at hlen
    omega
  have := escapeOrFallbackInnerLoop_escape hbs hesc hr hr' hri ((escape s sp ++ r).length + 1) s
    [] hs (by rw [List.length_append]; omega)
  simpa [escapeOrFallbackInner] using this

end Identifier

/-- `escape_or_fallback` passes on what the loop read when it does not end in a
backslash and fits in 65536 bytes. -/
theorem escapeOrFallback_of_inner {normal escaped : Parser Char Error (List Char)}
    {i r s : List Char} (h : escapeOrFallbackInner normal ['\\'] escaped i = .ok (r, s))
    (hl : s.getLast? ≠ some '\\') (hb : utf8Len s ≤ stringLengthLimitInBytes) :
    escapeOrFallback normal ['\\'] escaped i = .ok (r, s) := by
  simp [escapeOrFallback, h, hl, Nat.not_lt.mpr hb]

/-- A longer value is a `Failure`, `FieldStringValueTooLarge`. -/
theorem escapeOrFallback_tooLarge {normal escaped : Parser Char Error (List Char)}
    {i r s : List Char} (h : escapeOrFallbackInner normal ['\\'] escaped i = .ok (r, s))
    (hl : s.getLast? ≠ some '\\') (hb : stringLengthLimitInBytes < utf8Len s) :
    escapeOrFallback normal ['\\'] escaped i = .error (.failure .fieldStringValueTooLarge) := by
  simp [escapeOrFallback, h, hl, hb]

/-- The escapes that a measurement reads. -/
theorem measurement_escaped (c : Char) (hc : plain commaSpace c = false) (r : List Char) :
    (alt (map (tag [',']) fun _ => [',']) [map (tag [' ']) fun _ => [' '],
      map (tag ['\\']) fun _ => ['\\']] : Parser Char Error (List Char)) (c :: r) = .ok (r, [c]) := by
  have := plain_eq_false_iff.mp hc
  simp only [commaSpace, List.mem_cons, List.not_mem_nil, or_false] at this
  rcases this with (rfl | rfl) | rfl <;> rfl

/-- The escapes that a tag key, a tag value or a field key reads. -/
theorem escapedValue_escaped (c : Char) (hc : plain commaEqSpace c = false) (r : List Char) :
    (alt (map (tag ['\\']) fun _ => ['\\']) [map (tag [',']) fun _ => [','],
      map (tag ['=']) fun _ => ['='], map (tag [' ']) fun _ => [' ']] :
        Parser Char Error (List Char)) (c :: r) = .ok (r, [c]) := by
  have := plain_eq_false_iff.mp hc
  simp only [commaEqSpace, List.mem_cons, List.not_mem_nil, or_false] at this
  rcases this with (rfl | rfl | rfl) | rfl <;> rfl

/-- The loop of `measurement` reads an escaped measurement back up to the comma or
space after it. -/
theorem measurementInner_escape {m r : List Char} (hm : ValidKey m)
    (hr : ∃ c rest, r = c :: rest ∧ (c = ',' ∨ c = ' ')) :
    escapeOrFallbackInner
      (takeWhile1 (ε := Error) fun c => !isWhitespaceBoundaryChar c && !isNullChar c && c != ',' && c != '\\')
      ['\\'] (alt (map (tag [',']) fun _ => [',']) [map (tag [' ']) fun _ => [' '],
        map (tag ['\\']) fun _ => ['\\']]) (escape m commaSpace ++ r) = .ok (r, m) := by
  obtain ⟨c, rest, rfl, hc⟩ := hr
  refine escapeOrFallbackInner_escape (ε := Error) hm.ne_nil (by decide) measurement_escaped
    ?_ ?_ ?_
  · intro x hx hp
    have hx' := plain_eq_true_iff.mp hp
    simp only [commaSpace, List.mem_cons, List.not_mem_nil, or_false, not_or] at hx'
    have ht : x ≠ '\t' := fun h => hm.no_tab (h ▸ hx)
    have hn : x ≠ '\n' := fun h => hm.no_newline (h ▸ hx)
    have h0 : x ≠ '\x00' := fun h => hm.no_null (h ▸ hx)
    simp [isWhitespaceBoundaryChar, isNullChar, hx'.1.1, hx'.1.2, hx'.2, ht, hn, h0]
  · rcases hc with rfl | rfl <;> simp [headNot_cons, isWhitespaceBoundaryChar]
  · rcases hc with rfl | rfl <;> simp

/-- A measurement is read back up to the comma or space after it. -/
theorem measurement_escape {m r : List Char} (hm : ValidKey m)
    (hb : utf8Len m ≤ stringLengthLimitInBytes) (hr : ∃ c rest, r = c :: rest ∧ (c = ',' ∨ c = ' ')) :
    measurement (escape m commaSpace ++ r) = .ok (r, m) := by
  simp only [measurement, escapeOrFallback_of_inner (measurementInner_escape hm hr) hm.last_ne hb]

/-- A measurement of more than 65536 bytes is read to its end and then refused with a
`Failure`, which `measurement` passes on unchanged. -/
theorem measurement_tooLarge {m r : List Char} (hm : ValidKey m)
    (hb : stringLengthLimitInBytes < utf8Len m) (hr : ∃ c rest, r = c :: rest ∧ (c = ',' ∨ c = ' ')) :
    measurement (escape m commaSpace ++ r) = .error (.failure .fieldStringValueTooLarge) := by
  simp only [measurement, escapeOrFallback_tooLarge (measurementInner_escape hm hr) hm.last_ne hb]

/-- `escaped_value` reads back an escaped tag key, tag value or field key, up to a
character that its `normal_char` does not take. -/
theorem escapedValue_escape (hs : ValidKey s)
    (hb : utf8Len s ≤ stringLengthLimitInBytes) (hbs : normal '\\' = false)
    (hplain : ∀ c, plain commaEqSpace c = true → c ≠ '\t' → c ≠ '\n' → normal c = true)
    (hr : HeadNot normal r) (hr' : ¬ ['\\'] <+: r) :
    escapedValue (takeWhile1 normal) (escape s commaEqSpace ++ r) = .ok (r, s) := by
  have hinner := escapeOrFallbackInner_escape (ε := Error) hs.ne_nil hbs escapedValue_escaped
    (fun c hc hp => hplain c hp (fun h => hs.no_tab (h ▸ hc)) (fun h => hs.no_newline (h ▸ hc)))
    hr hr'
  simp only [escapedValue, escapeOrFallback_of_inner hinner hs.last_ne hb]

/-- What follows a field value or a tag value in a line: a comma, a space, or
nothing. -/
def ValueEnd (r : List Char) : Prop := ∀ c ∈ r.head?, c = ',' ∨ c = ' '

theorem headNot_of_valueEnd {p : Char → Bool} {r : List Char} (h : ValueEnd r)
    (h₁ : p ',' = false) (h₂ : p ' ' = false) : HeadNot p r := by
  cases r with
  | nil => exact headNot_nil p
  | cons c r =>
    rcases h c rfl with rfl | rfl
    · exact headNot_cons.mpr h₁
    · exact headNot_cons.mpr h₂

theorem not_prefix_of_valueEnd {r : List Char} (h : ValueEnd r) (h₁ : c ≠ ',')
    (h₂ : c ≠ ' ') : ¬ [c] <+: r := by
  intro hp
  obtain ⟨t, rfl⟩ := hp
  rcases h c rfl with rfl | rfl
  · exact h₁ rfl
  · exact h₂ rfl

theorem tagKey_escape (hs : ValidKey s) (hb : utf8Len s ≤ stringLengthLimitInBytes) :
    tagKey (escape s commaEqSpace ++ '=' :: r) = .ok ('=' :: r, s) :=
  escapedValue_escape hs hb (by decide)
    (fun c hp ht hn => by
      have := plain_eq_true_iff.mp hp
      simp only [commaEqSpace, List.mem_cons, List.not_mem_nil, or_false, not_or] at this
      simp [isWhitespaceBoundaryChar, this.1.2.1, this.1.2.2, this.2, ht, hn])
    (by simp [headNot_cons]) (by simp)

theorem fieldKey_escape (hs : ValidKey s) (hb : utf8Len s ≤ stringLengthLimitInBytes) :
    fieldKey (escape s commaEqSpace ++ '=' :: r) = .ok ('=' :: r, s) :=
  tagKey_escape hs hb

theorem tagValue_escape (hs : ValidKey s)
    (hb : utf8Len s ≤ stringLengthLimitInBytes) (hr : ValueEnd r) :
    tagValue (escape s commaEqSpace ++ r) = .ok (r, s) :=
  escapedValue_escape hs hb (by decide)
    (fun c hp ht hn => by
      have := plain_eq_true_iff.mp hp
      simp only [commaEqSpace, List.mem_cons, List.not_mem_nil, or_false, not_or] at this
      simp [isWhitespaceBoundaryChar, this.1.1, this.1.2.2, this.2, ht, hn])
    (headNot_of_valueEnd hr (by decide) (by decide))
    (not_prefix_of_valueEnd hr (by decide) (by decide))

end IoxCore.LineProtocol

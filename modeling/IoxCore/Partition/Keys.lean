import IoxCore.Partition.Template
import IoxCore.Lib.Runs
import IoxCore.Lib.Simulation

/-!
# The keys `partition_batch` answers

The key of a row is what `evaluate_template` renders for that row alone, from
freshly initialised templates (`rowKey`). `partition_keys` keeps state between
rows to skip rendering a row whose key would equal the last one; the theorem of
this module is that, as long as every row's key renders without an error, the
state does not matter: `partition_batch` answers exactly the maximal runs of
equal consecutive row keys (`partitionBatch_eq_runs`).

An error breaks this: `evaluate_template` stops at the first part that fails,
so the parts after it keep what they remembered of an earlier row, and a failed
part of a tag column remembers no key, so a later row with a NULL tag is then
taken to be identical to the failed one.

The cache of the strftime formatter cannot be seen: over any sequence of timestamps each
`render` answers what rendering its timestamp afresh answers, and `equals_last` holds only for a
timestamp that renders as the last one did (`renderRun_eq_uncached`), given that chrono writes
one date for every instant of a UTC day.

## The model

A state of a template part (`PartState`) has the part's column, its bucket
count and its format, and a strftime cache whose entries are the renderings of
their timestamps (`CacheOk`). `Tracks t o` says that the part in state `t`
rendered `o` last, as far as `is_identical` can tell. Each operation is given
its effect once (`fmtRow_output`, `fmtRow_tracks`, `isIdentical_tracks`); the
invariant of `partition_keys` (`KeysInv`) is derived from those.
-/

namespace IoxCore.Partition

open RustStr Runs

/-- The tag value of a valid row, read with a default that is never used. -/
theorem PartitioningColumn.tagValue_eq_getD {K : Type} (col : PartitioningColumn K) {idx : ℕ}
    {k : K} (hv : col.isValid idx = true) (hk : col.getTagIdentityKey idx = some k) :
    col.tagValue hv hk = (col.getTagValue k).getD [] := by
  obtain ⟨v, h⟩ := Option.isSome_iff_exists.mp (col.getTagValue_isSome idx k hv hk)
  simp [PartitioningColumn.tagValue, h]

section Parts

variable {K : Type} (libs : Libs) (batch : Batch K) (time : List ℤ) {parts : List TemplatePart}
    {ts : List (Template K)} {t : Template K} {p : TemplatePart} {idx : ℕ} {f : StrftimeFormatter}

/-! ### The strftime formatter -/

/-- What `render` answers for a timestamp once it is reduced. -/
def renderOf (format : List Char) (r : ℤ) : Except PartitionKeyError (List Char) :=
  match libs.strftime format r with
  | none => .error .invalidStrftime
  | some s => .ok (encodeKeyPart libs s)

/-- Every rendering in the formatter's cache is the rendering of its timestamp. -/
def CacheOk (f : StrftimeFormatter) : Prop :=
  ∀ t s, some (t, s) ∈ f.values.buf → renderOf libs f.format t = .ok s

theorem findIn_eq_some {α : Type} {p : α → Bool} {v : α} :
    ∀ {l : List (Option α)}, RingBuffer.findIn p l = some v → some v ∈ l ∧ p v = true
  | [], h => by simp [RingBuffer.findIn] at h
  | none :: _, h => by simp [RingBuffer.findIn] at h
  | some w :: rest, h => by
    unfold RingBuffer.findIn at h
    split at h
    · cases h
      exact ⟨List.mem_cons_self, by assumption⟩
    · obtain ⟨hmem, hp⟩ := findIn_eq_some h
      exact ⟨List.mem_cons_of_mem _ hmem, hp⟩

theorem cacheOk_new (format : List Char) : CacheOk libs (StrftimeFormatter.new format) := by
  intro t s h
  simp [StrftimeFormatter.new, RingBuffer.default] at h

/-- The reduction of a timestamp depends on the format only through `is_ymd_format`. -/
theorem StrftimeFormatter.maybeReduce_congr {f g : StrftimeFormatter}
    (h : f.isYmdFormat = g.isYmdFormat) : f.maybeReduce = g.maybeReduce := by
  funext ts
  simp only [StrftimeFormatter.maybeReduce, h]

variable {libs}

/-- `render` answers the rendering of the reduced timestamp, from its cache or not. -/
theorem render_snd (hf : CacheOk libs f) (ts : ℤ) :
    (f.render libs ts).2 = renderOf libs f.format (f.maybeReduce ts) := by
  cases hfind : RingBuffer.findIn (fun v => v.1 == f.maybeReduce ts) f.values.buf with
  | some v =>
    -- a cache hit: the entry's timestamp is the reduced one
    obtain ⟨hmem, hp⟩ := findIn_eq_some hfind
    rw [beq_iff_eq] at hp
    simp only [StrftimeFormatter.render, hfind]
    rw [← hp]
    exact (hf v.1 v.2 hmem).symm
  | none =>
    cases hs : libs.strftime f.format (f.maybeReduce ts) <;>
      simp only [StrftimeFormatter.render, hfind, hs, renderOf]

/-- After `render` the formatter has its format, the reduced timestamp as its last
one, and a cache that is still right. -/
theorem render_fst (hf : CacheOk libs f) (ts : ℤ) :
    (f.render libs ts).1.format = f.format ∧ (f.render libs ts).1.isYmdFormat = f.isYmdFormat ∧
      (f.render libs ts).1.lastTs = some (f.maybeReduce ts) ∧
      CacheOk libs (f.render libs ts).1 := by
  cases hfind : RingBuffer.findIn (fun v => v.1 == f.maybeReduce ts) f.values.buf with
  | some v =>
    simp only [StrftimeFormatter.render, hfind, true_and]
    exact hf
  | none =>
    cases hs : libs.strftime f.format (f.maybeReduce ts) with
    | none =>
      simp only [StrftimeFormatter.render, hfind, hs, true_and]
      -- the failed slot is emptied
      intro t s h
      rcases List.mem_or_eq_of_mem_set h with h | h
      · exact hf t s h
      · cases h
    | some s =>
      simp only [StrftimeFormatter.render, hfind, hs, true_and]
      intro t s' h
      rcases List.mem_or_eq_of_mem_set h with h | h
      · exact hf t s' h
      · simp only [Option.some.injEq, Prod.mk.injEq] at h
        obtain ⟨rfl, rfl⟩ := h
        simp [renderOf, hs]

variable (libs)

/-! ### One part -/

/-- The rendering of a part for a row by a freshly initialised template. -/
def partOutput (p : TemplatePart) (idx : ℕ) : Except PartitionKeyError (List Char) :=
  ((initTemplate batch time p).fmtRow libs idx).2

/-- The key of a row: what `evaluate_template` renders for that row alone, from
freshly initialised templates. -/
def rowKey (parts : List TemplatePart) (idx : ℕ) : Except PartitionKeyError (List Char) :=
  (evaluateTemplate libs (parts.map (initTemplate batch time)) idx).2

/-- The keys of the rows of the batch, in order. -/
def rowKeys (parts : List TemplatePart) : List (Except PartitionKeyError (List Char)) :=
  (List.range batch.numRows).map (rowKey libs batch time parts)

/-- The states a template of a part can reach: the part's column, bucket count
and format, and a cache that is right. -/
inductive PartState : TemplatePart → Template K → Prop
  | tagMissing {name : List Char} :
      batch.column name = none → PartState (.tagValue name) .missingTag
  | tag {name : List Char} {col : PartitioningColumn K} (lastKey : Option K) :
      batch.column name = some col → PartState (.tagValue name) (.tagValue col lastKey)
  | time {fmt : List Char} {f : StrftimeFormatter} :
      f.format = fmt → f.isYmdFormat = (fmt == ymdSpec) → CacheOk libs f →
      PartState (.timeFormat fmt) (.timeFormat time f)
  | bucketMissing {name : List Char} {n : ℕ} :
      batch.column name = none → PartState (.bucket name n) .missingTag
  | bucket {name : List Char} {n : ℕ} {col : PartitioningColumn K} (hasher : BucketHasher)
      (lastKey : Option K) :
      batch.column name = some col → hasher.numBuckets = n →
      PartState (.bucket name n) (.bucket col hasher lastKey)

/-- The template `t` rendered `o` last, as far as `is_identical` can tell: the tag
value of its last key, the rendering of its last timestamp, or the bucket it
assigned last. -/
def Tracks : Template K → Except PartitionKeyError (List Char) → Prop
  | .tagValue col lastKey, o =>
    match lastKey with
    | none => o = .ok partitionKeyValueNullStr
    | some k => ∃ v, col.getTagValue k = some v ∧ o = .ok (encodeKeyPart libs v)
  | .timeFormat _ f, o => ∃ r, f.lastTs = some r ∧ renderOf libs f.format r = o
  | .bucket col hasher lastKey, o =>
    match lastKey with
    | none => o = .ok partitionKeyValueNullStr
    | some k => ∃ v, col.getTagValue k = some v ∧
      hasher.lastAssignedBucket = some (bucketForTagValue libs v hasher.numBuckets) ∧
      o = .ok (natText (bucketForTagValue libs v hasher.numBuckets))
  | .missingTag, o => o = .ok partitionKeyValueNullStr

theorem partState_initTemplate (p : TemplatePart) :
    PartState libs batch time p (initTemplate batch time p) := by
  cases p with
  | tagValue name =>
    cases hc : batch.column name with
    | none => simp only [initTemplate, hc]; exact .tagMissing hc
    | some col => simp only [initTemplate, hc]; exact .tag none hc
  | timeFormat fmt => exact .time rfl rfl (cacheOk_new libs fmt)
  | bucket name n =>
    cases hc : batch.column name with
    | none => simp only [initTemplate, hc]; exact .bucketMissing hc
    | some col => simp only [initTemplate, hc]; exact .bucket _ none hc rfl

/-- `fmt_row` of a tag part, with the tag value read without its proof. -/
theorem fmtRow_tagValue (col : PartitioningColumn K) (lastKey : Option K) (idx : ℕ) :
    (Template.tagValue col lastKey).fmtRow libs idx =
      if col.isValid idx then
        match col.getTagIdentityKey idx with
        | none => (.tagValue col lastKey, .error (.tagValueNotTag col.typeDescription))
        | some k => (.tagValue col (some k), .ok (encodeKeyPart libs ((col.getTagValue k).getD [])))
      else (.tagValue col none, .ok partitionKeyValueNullStr) := by
  rw [Template.fmtRow]
  by_cases hv : col.isValid idx = true
  · rw [dif_pos hv, if_pos hv]
    split
    · rename_i hk
      rw [hk]
    · rename_i k hk
      simp [hk, PartitioningColumn.tagValue_eq_getD]
  · rw [dif_neg hv, if_neg hv]

/-- `fmt_row` of a bucket part, with the tag value read without its proof. -/
theorem fmtRow_bucket (col : PartitioningColumn K) (hasher : BucketHasher) (lastKey : Option K)
    (idx : ℕ) :
    (Template.bucket col hasher lastKey).fmtRow libs idx =
      if col.isValid idx then
        match col.getTagIdentityKey idx with
        | none => (.bucket col hasher lastKey, .error (.tagValueNotTag col.typeDescription))
        | some k =>
          let b := bucketForTagValue libs ((col.getTagValue k).getD []) hasher.numBuckets
          (.bucket col { hasher with lastAssignedBucket := some b } (some k), .ok (natText b))
      else (.bucket col hasher none, .ok partitionKeyValueNullStr) := by
  rw [Template.fmtRow]
  by_cases hv : col.isValid idx = true
  · rw [dif_pos hv, if_pos hv]
    split
    · rename_i hk
      rw [hk]
    · rename_i k hk
      simp [hk, PartitioningColumn.tagValue_eq_getD, BucketHasher.assignBucket]
  · rw [dif_neg hv, if_neg hv]

theorem fmtRow_timeFormat (t : List ℤ) (f : StrftimeFormatter) (idx : ℕ) :
    (Template.timeFormat t f : Template K).fmtRow libs idx =
      (.timeFormat t (f.render libs (t.getD idx 0)).1, (f.render libs (t.getD idx 0)).2) := rfl

variable {libs batch time}

/-- A part renders what a fresh template of it renders: what it remembers only
decides whether it is asked. -/
theorem fmtRow_output (h : PartState libs batch time p t)
    (idx : ℕ) : (t.fmtRow libs idx).2 = partOutput libs batch time p idx := by
  cases h with
  | tagMissing hc => simp only [partOutput, initTemplate, hc]
  | @tag name col lastKey hc =>
    simp only [partOutput, initTemplate, hc, fmtRow_tagValue]
    cases col.isValid idx <;> cases col.getTagIdentityKey idx <;> rfl
  | @time fmt f hfmt hymd hf =>
    simp only [partOutput, initTemplate, fmtRow_timeFormat]
    rw [render_snd hf, render_snd (cacheOk_new libs fmt), hfmt,
      StrftimeFormatter.maybeReduce_congr (g := StrftimeFormatter.new fmt) hymd]
    rfl
  | bucketMissing hc => simp only [partOutput, initTemplate, hc]
  | @bucket name n col hasher lastKey hc hn =>
    simp only [partOutput, initTemplate, hc, fmtRow_bucket, BucketHasher.new, hn]
    cases col.isValid idx <;> cases col.getTagIdentityKey idx <;> rfl

theorem fmtRow_partState (h : PartState libs batch time p t)
    (idx : ℕ) : PartState libs batch time p (t.fmtRow libs idx).1 := by
  cases h with
  | tagMissing hc => exact .tagMissing hc
  | @tag name col lastKey hc =>
    rw [fmtRow_tagValue]
    cases col.isValid idx with
    | false => exact .tag none hc
    | true =>
      cases col.getTagIdentityKey idx with
      | none => exact .tag lastKey hc
      | some k => exact .tag (some k) hc
  | @time fmt f hfmt hymd hf =>
    obtain ⟨hfmt', hymd', -, hf'⟩ := render_fst hf (time.getD idx 0)
    rw [fmtRow_timeFormat]
    exact .time (by rw [hfmt', hfmt]) (by rw [hymd', hymd]) hf'
  | bucketMissing hc => exact .bucketMissing hc
  | @bucket name n col hasher lastKey hc hn =>
    rw [fmtRow_bucket]
    cases col.isValid idx with
    | false => exact .bucket hasher none hc hn
    | true =>
      cases col.getTagIdentityKey idx with
      | none => exact .bucket hasher lastKey hc hn
      | some k => exact .bucket _ (some k) hc hn

/-- A part that renders without an error remembers what it rendered. -/
theorem fmtRow_tracks (h : PartState libs batch time p t)
    {s : List Char} (hs : (t.fmtRow libs idx).2 = .ok s) :
    Tracks libs (t.fmtRow libs idx).1 (.ok s) := by
  cases h with
  | tagMissing hc => exact hs.symm
  | @tag name col lastKey hc =>
    rw [fmtRow_tagValue] at hs ⊢
    cases hv : col.isValid idx with
    | false => simp only [hv] at hs ⊢; exact hs.symm
    | true =>
      cases hk : col.getTagIdentityKey idx with
      | none => simp only [hv, hk] at hs; cases hs
      | some k =>
        simp only [hv, hk, if_true] at hs ⊢
        obtain ⟨v, hval⟩ := Option.isSome_iff_exists.mp (col.getTagValue_isSome idx k hv hk)
        refine ⟨v, hval, ?_⟩
        rw [← hs, hval, Option.getD_some]
  | @time fmt f hfmt hymd hf =>
    obtain ⟨-, -, hlast, -⟩ := render_fst hf (time.getD idx 0)
    rw [fmtRow_timeFormat] at hs ⊢
    refine ⟨_, hlast, ?_⟩
    rw [← hs, render_snd hf, (render_fst hf _).1]
  | bucketMissing hc => exact hs.symm
  | @bucket name n col hasher lastKey hc hn =>
    rw [fmtRow_bucket] at hs ⊢
    cases hv : col.isValid idx with
    | false => simp only [hv] at hs ⊢; exact hs.symm
    | true =>
      cases hk : col.getTagIdentityKey idx with
      | none => simp only [hv, hk] at hs; cases hs
      | some k =>
        simp only [hv, hk, if_true] at hs ⊢
        obtain ⟨v, hval⟩ := Option.isSome_iff_exists.mp (col.getTagValue_isSome idx k hv hk)
        rw [hval, Option.getD_some] at hs ⊢
        exact ⟨v, hval, rfl, hs.symm⟩

/-! ### The parts of a template -/

variable (libs)

/-- `evaluate_template`'s answer from the renderings of its parts: the first
error, or the renderings joined by `|`. -/
def joinOutputs (templateLen : ℕ) :
    ℕ → List (Except PartitionKeyError (List Char)) → List Char →
      Except PartitionKeyError (List Char)
  | _, [], buf => .ok buf
  | _, .error e :: _, _ => .error e
  | colIdx, .ok s :: os, buf =>
    joinOutputs templateLen (colIdx + 1) os
      (buf ++ s ++ (if colIdx + 1 ≠ templateLen then [partitionKeyDelimiter] else []))

theorem evaluateTemplateLoop_cons (len idx c : ℕ) (t : Template K) (ts : List (Template K))
    (buf : List Char) :
    evaluateTemplateLoop libs len idx c (t :: ts) buf =
      match (t.fmtRow libs idx).2 with
      | .error e => ((t.fmtRow libs idx).1 :: ts, .error e)
      | .ok s =>
        ((t.fmtRow libs idx).1 :: (evaluateTemplateLoop libs len idx (c + 1) ts
            (buf ++ s ++ (if c + 1 ≠ len then [partitionKeyDelimiter] else []))).1,
          (evaluateTemplateLoop libs len idx (c + 1) ts
            (buf ++ s ++ (if c + 1 ≠ len then [partitionKeyDelimiter] else []))).2) := rfl

theorem evaluateTemplateLoop_snd (len idx : ℕ) :
    ∀ (c : ℕ) (ts : List (Template K)) (buf : List Char),
      (evaluateTemplateLoop libs len idx c ts buf).2 =
        joinOutputs len c (ts.map fun t => (t.fmtRow libs idx).2) buf
  | _, [], _ => rfl
  | c, t :: ts, buf => by
    rw [evaluateTemplateLoop_cons, List.map_cons]
    cases (t.fmtRow libs idx).2 with
    | error e => rfl
    | ok s => exact evaluateTemplateLoop_snd len idx (c + 1) ts _

variable {libs}

theorem map_fmtRow_output (h : List.Forall₂ (PartState libs batch time) parts ts) :
    ts.map (fun t => (t.fmtRow libs idx).2) = parts.map (partOutput libs batch time · idx) := by
  induction h with
  | nil => rfl
  | cons hp _ ih => rw [List.map_cons, List.map_cons, fmtRow_output hp, ih]

theorem forall₂_partState_init (parts : List TemplatePart) :
    List.Forall₂ (PartState libs batch time) parts (parts.map (initTemplate batch time)) := by
  induction parts with
  | nil => exact .nil
  | cons p parts ih => exact .cons (partState_initTemplate libs batch time p) ih

/-- The key of a row from the renderings of the parts. -/
theorem rowKey_eq_joinOutputs (parts : List TemplatePart) (idx : ℕ) :
    rowKey libs batch time parts idx =
      joinOutputs parts.length 0 (parts.map (partOutput libs batch time · idx)) [] := by
  rw [rowKey, evaluateTemplate, evaluateTemplateLoop_snd,
    map_fmtRow_output (forall₂_partState_init parts), List.length_map]

/-- `evaluate_template` with templates in any reachable state answers the row's key. -/
theorem evaluateTemplate_snd (h : List.Forall₂ (PartState libs batch time) parts ts) (idx : ℕ) :
    (evaluateTemplate libs ts idx).2 = rowKey libs batch time parts idx := by
  rw [evaluateTemplate, evaluateTemplateLoop_snd, map_fmtRow_output h, rowKey_eq_joinOutputs,
    h.length_eq]

/-- A template that renders a row without an error has its parts in their states,
each remembering what it rendered. -/
theorem evaluateTemplateLoop_tracks {len idx : ℕ} :
    ∀ {ts : List (Template K)}, List.Forall₂ (PartState libs batch time) parts ts →
      ∀ {c : ℕ} {buf s : List Char}, (evaluateTemplateLoop libs len idx c ts buf).2 = .ok s →
        List.Forall₂ (PartState libs batch time) parts
            (evaluateTemplateLoop libs len idx c ts buf).1 ∧
          List.Forall₂ (Tracks libs) (evaluateTemplateLoop libs len idx c ts buf).1
            (parts.map (partOutput libs batch time · idx)) := by
  induction parts with
  | nil =>
    intro ts h c buf s _
    cases h
    exact ⟨.nil, .nil⟩
  | cons p parts ih =>
    intro ts h c buf s hs
    cases h with
    | cons hp hps =>
      rename_i t ts
      rw [evaluateTemplateLoop_cons] at hs ⊢
      cases hr : (t.fmtRow libs idx).2 with
      | error e => rw [hr] at hs; cases hs
      | ok s' =>
        rw [hr] at hs
        obtain ⟨hst, htr⟩ := ih hps hs
        refine ⟨.cons (fmtRow_partState hp idx) hst, ?_⟩
        rw [List.map_cons, ← fmtRow_output hp, hr]
        exact .cons (fmtRow_tracks hp hr) htr

/-! ### `partition_keys` -/

variable (libs batch time)

/-- The invariant of `partition_keys` after row `j`: the parts are in their states
and remember what they rendered for `j`. -/
def KeysInv (parts : List TemplatePart) (ts : List (Template K)) (j : ℕ) : Prop :=
  List.Forall₂ (PartState libs batch time) parts ts ∧
    List.Forall₂ (Tracks libs) ts (parts.map (partOutput libs batch time · j))

variable {libs batch time}

/-- After a row whose key renders, the invariant holds for that row. -/
theorem keysInv_evaluateTemplate
    (h : List.Forall₂ (PartState libs batch time) parts ts) {key : List Char}
    (hkey : rowKey libs batch time parts idx = .ok key) :
    KeysInv libs batch time parts (evaluateTemplate libs ts idx).1 idx := by
  rw [← evaluateTemplate_snd h] at hkey
  exact evaluateTemplateLoop_tracks h hkey

variable [DecidableEq K]

/-! ### `is_identical` -/

theorem isIdentical_partState (h : PartState libs batch time p t) (idx : ℕ) :
    PartState libs batch time p (t.isIdentical libs idx).1 := by
  cases h with
  | tagMissing hc => exact .tagMissing hc
  | @tag name col lastKey hc =>
    simp only [Template.isIdentical]
    split
    · split <;> exact .tag lastKey hc
    · exact .tag lastKey hc
  | @time fmt f hfmt hymd hf => exact .time hfmt hymd hf
  | bucketMissing hc => exact .bucketMissing hc
  | @bucket name n col hasher lastKey hc hn =>
    simp only [Template.isIdentical]
    -- only a comparison with another key's bucket changes the hasher, and not its count
    repeat' split
    all_goals exact .bucket _ _ hc hn

/-- A part that says a row is identical renders for it what it rendered last, and
still remembers that. -/
theorem isIdentical_tracks
    (h : PartState libs batch time p t) {o : Except PartitionKeyError (List Char)}
    (ht : Tracks libs t o) (hsame : (t.isIdentical libs idx).2 = true) :
    partOutput libs batch time p idx = o ∧ Tracks libs (t.isIdentical libs idx).1 o := by
  rw [← fmtRow_output h]
  cases h with
  | tagMissing hc => exact ⟨ht.symm, ht⟩
  | @tag name col lastKey hc =>
    rw [fmtRow_tagValue]
    cases hv : col.isValid idx with
    | false =>
      -- a NULL row is identical only after a NULL row
      simp only [Template.isIdentical, hv] at hsame ⊢
      cases lastKey with
      | none => exact ⟨ht.symm, ht⟩
      | some k => cases hsame
    | true =>
      cases hk : col.getTagIdentityKey idx with
      | none => simp [Template.isIdentical, hv, hk] at hsame
      | some k =>
        simp only [Template.isIdentical, hv, hk, if_true] at hsame ⊢
        cases lastKey with
        | none => cases hsame
        | some k' =>
          simp only [Option.map_some, Option.getD_some, beq_iff_eq] at hsame
          subst hsame
          obtain ⟨v, hval, rfl⟩ := ht
          exact ⟨by rw [hval, Option.getD_some], v, hval, rfl⟩
  | @time fmt f hfmt hymd hf =>
    simp only [Template.isIdentical, StrftimeFormatter.equalsLast] at hsame ⊢
    obtain ⟨r, hlast, rfl⟩ := ht
    rw [hlast, beq_iff_eq] at hsame
    refine ⟨?_, r, hlast, rfl⟩
    rw [fmtRow_timeFormat, render_snd hf, ← hsame]
  | bucketMissing hc => exact ⟨ht.symm, ht⟩
  | @bucket name n col hasher lastKey hc hn =>
    rw [fmtRow_bucket]
    cases hv : col.isValid idx with
    | false =>
      simp only [Template.isIdentical, hv] at hsame ⊢
      cases lastKey with
      | none => exact ⟨ht.symm, ht⟩
      | some k => cases hsame
    | true =>
      cases hk : col.getTagIdentityKey idx with
      | none => simp [Template.isIdentical, hv, hk] at hsame
      | some k =>
        cases lastKey with
        | none => simp [Template.isIdentical, hv, hk] at hsame
        | some k' =>
          obtain ⟨v, hval, hlast, rfl⟩ := ht
          simp only [if_true]
          by_cases hkk : k = k'
          · -- the same key as the last row
            subst hkk
            refine ⟨by rw [hval, Option.getD_some], ?_⟩
            simp only [Template.isIdentical, hv, hk, if_true]
            exact ⟨v, hval, hlast, rfl⟩
          · -- another key in the same bucket: the comparison assigns that bucket again
            obtain ⟨w, hw⟩ := Option.isSome_iff_exists.mp (col.getTagValue_isSome idx k hv hk)
            simp only [Template.isIdentical, hv, hk, if_true, hkk, if_false, hw, hlast,
              BucketHasher.assignBucket, beq_iff_eq] at hsame ⊢
            refine ⟨by rw [Option.getD_some, ← hsame], v, hval, by rw [hsame], rfl⟩

variable (libs)

theorem allIdentical_cons (t : Template K) (ts : List (Template K)) (idx : ℕ) :
    allIdentical libs (t :: ts) idx =
      if (t.isIdentical libs idx).2 then
        ((t.isIdentical libs idx).1 :: (allIdentical libs ts idx).1, (allIdentical libs ts idx).2)
      else ((t.isIdentical libs idx).1 :: ts, false) := rfl

variable {libs}

theorem allIdentical_partState (h : List.Forall₂ (PartState libs batch time) parts ts) :
    List.Forall₂ (PartState libs batch time) parts (allIdentical libs ts idx).1 := by
  induction h with
  | nil => exact .nil
  | cons hp hps ih =>
    rw [allIdentical_cons]
    split
    · exact .cons (isIdentical_partState hp idx) ih
    · exact .cons (isIdentical_partState hp idx) hps

/-- When every part says a row is identical, the row's parts render what they
rendered last, and the parts still remember it. -/
theorem allIdentical_tracks (h : List.Forall₂ (PartState libs batch time) parts ts) :
    ∀ {os : List (Except PartitionKeyError (List Char))}, List.Forall₂ (Tracks libs) ts os →
      (allIdentical libs ts idx).2 = true →
        parts.map (partOutput libs batch time · idx) = os ∧
          List.Forall₂ (Tracks libs) (allIdentical libs ts idx).1 os := by
  induction h with
  | nil => intro os ho _; cases ho; exact ⟨rfl, .nil⟩
  | cons hp hps ih =>
    intro os ho hsame
    cases ho with
    | cons ht hts =>
      rw [allIdentical_cons] at hsame ⊢
      split at hsame
      · rename_i hfirst
        obtain ⟨hout, ht'⟩ := isIdentical_tracks hp ht hfirst
        obtain ⟨houts, hts'⟩ := ih hts hsame
        rw [if_pos hfirst, List.map_cons, hout, houts]
        exact ⟨rfl, .cons ht' hts'⟩
      · cases hsame

variable (libs)

theorem partitionKeysLoop_cons (ts : List (Template K)) (idx : ℕ) (rest : List ℕ) :
    partitionKeysLoop libs ts (idx :: rest) =
      if (allIdentical libs ts idx).2 then
        none :: partitionKeysLoop libs (allIdentical libs ts idx).1 rest
      else
        some (evaluateTemplate libs (allIdentical libs ts idx).1 idx).2 ::
          partitionKeysLoop libs (evaluateTemplate libs (allIdentical libs ts idx).1 idx).1 rest :=
  rfl

variable {libs}

/-- The run lemma of `partition_keys`: with the gaps filled by the key before
them, the loop answers the key of every row. The induction is on the rows,
from any state that satisfies the invariant for the last rendered row `j`. -/
theorem partitionKeysLoop_fill : ∀ (rest : List ℕ) {ts : List (Template K)} {j : ℕ},
      (∀ i ∈ rest, ∃ key, rowKey libs batch time parts i = .ok key) →
      KeysInv libs batch time parts ts j →
      fillNone (rowKey libs batch time parts j) (partitionKeysLoop libs ts rest) =
        rest.map (rowKey libs batch time parts)
  | [], _, _, _, _ => rfl
  | idx :: rest, ts, j, hok, ⟨hst, htr⟩ => by
    have hok' : ∀ i ∈ rest, ∃ key, rowKey libs batch time parts i = .ok key :=
      fun i hi => hok i (List.mem_cons_of_mem idx hi)
    rw [partitionKeysLoop_cons, List.map_cons]
    by_cases hsame : (allIdentical libs ts idx).2 = true
    · -- every part is identical: the row has the key of row `j`
      obtain ⟨hout, htr'⟩ := allIdentical_tracks hst htr hsame
      have hkey : rowKey libs batch time parts idx = rowKey libs batch time parts j := by
        rw [rowKey_eq_joinOutputs, rowKey_eq_joinOutputs, hout]
      rw [if_pos hsame, fillNone, hkey,
        partitionKeysLoop_fill rest hok' ⟨allIdentical_partState hst, htr'⟩]
    · -- the row is rendered, and the invariant moves to it
      have hst' : List.Forall₂ (PartState libs batch time) parts (allIdentical libs ts idx).1 :=
        allIdentical_partState hst
      obtain ⟨key, hkey⟩ := hok idx List.mem_cons_self
      rw [if_neg hsame, fillNone, evaluateTemplate_snd hst',
        partitionKeysLoop_fill rest hok' (keysInv_evaluateTemplate hst' hkey)]

/-- A row whose key fails puts a failed key into the loop's answer: the first such row is
rendered, since a row identical to `j` has the key of `j`, which renders. -/
theorem partitionKeysLoop_error : ∀ (rest : List ℕ) {ts : List (Template K)} {j : ℕ}
      {key : List Char}, rowKey libs batch time parts j = .ok key →
      KeysInv libs batch time parts ts j →
      (∃ i ∈ rest, ∃ e, rowKey libs batch time parts i = .error e) →
      ∃ e, some (.error e) ∈ partitionKeysLoop libs ts rest
  | [], _, _, _, _, _, ⟨_, hi, _⟩ => absurd hi List.not_mem_nil
  | idx :: rest, ts, j, key, hj, ⟨hst, htr⟩, ⟨i, hi, e, he⟩ => by
    -- past a row whose key renders, the failed row is further on
    have hrest : ∀ {k}, rowKey libs batch time parts idx = .ok k →
        ∃ i ∈ rest, ∃ e, rowKey libs batch time parts i = .error e := by
      intro k hk
      rcases List.mem_cons.1 hi with rfl | hi
      · rw [hk] at he
        cases he
      · exact ⟨i, hi, e, he⟩
    have hst' : List.Forall₂ (PartState libs batch time) parts (allIdentical libs ts idx).1 :=
      allIdentical_partState hst
    rw [partitionKeysLoop_cons]
    by_cases hsame : (allIdentical libs ts idx).2 = true
    · obtain ⟨hout, htr'⟩ := allIdentical_tracks hst htr hsame
      have hkey : rowKey libs batch time parts idx = .ok key := by
        rw [rowKey_eq_joinOutputs, hout, ← rowKey_eq_joinOutputs, hj]
      obtain ⟨e', he'⟩ := partitionKeysLoop_error rest hj ⟨hst', htr'⟩ (hrest hkey)
      rw [if_pos hsame]
      exact ⟨e', List.mem_cons_of_mem _ he'⟩
    · rw [if_neg hsame, evaluateTemplate_snd hst']
      cases hidx : rowKey libs batch time parts idx with
      | error e' => exact ⟨e', List.mem_cons_self⟩
      | ok k =>
        obtain ⟨e', he'⟩ := partitionKeysLoop_error rest hidx
          (keysInv_evaluateTemplate hst' hidx) (hrest hidx)
        exact ⟨e', List.mem_cons_of_mem _ he'⟩

end Parts

/-! ### The formatter over a run of timestamps

`partition_keys` calls `render` once per row and `equals_last` in between. Over any sequence of
timestamps the cache cannot be seen: each `render` answers what rendering its timestamp afresh
answers, whatever the cache held, evicted or dropped after a failure (`renderRun_eq_uncached`),
and `equals_last` holds only for a timestamp that renders as the last one did. The `%Y-%m-%d`
reduction relies on chrono writing the same date for every instant of a UTC day (`YmdByDay`). -/

section Run

variable (libs : Libs) {format : List Char} {f : StrftimeFormatter}

/-- chrono writes the same `%Y-%m-%d` text for a timestamp and for the start of its UTC day. -/
def YmdByDay : Prop :=
  ∀ ts, libs.strftime ymdSpec ts = libs.strftime ymdSpec (ts - ts % dayNanoseconds)

/-- A formatter fed timestamps one after another: what each `render` answered, and the
formatter afterwards. -/
def renderRun (f : StrftimeFormatter) (tss : List ℤ) :
    List (Except PartitionKeyError (List Char)) × StrftimeFormatter :=
  Simulation.run (fun f ts => (f.render libs ts).swap) f tss

/-- What `StrftimeFormatter::new format` keeps through `render`: its format, whether it
reduces, and a cache that is right. -/
def FormatterOk (format : List Char) (f : StrftimeFormatter) : Prop :=
  f.format = format ∧ f.isYmdFormat = (format == ymdSpec) ∧ CacheOk libs f

theorem formatterOk_new (format : List Char) :
    FormatterOk libs format (StrftimeFormatter.new format) :=
  ⟨rfl, rfl, cacheOk_new libs format⟩

variable {libs}

/-- The `%Y-%m-%d` reduction does not change what a timestamp renders to. -/
theorem renderOf_maybeReduce (hday : YmdByDay libs) (format : List Char) (ts : ℤ) :
    renderOf libs format ((StrftimeFormatter.new format).maybeReduce ts) =
      renderOf libs format ts := by
  by_cases hymd : format = ymdSpec
  · subst hymd
    by_cases hlt : ts < dayNanoseconds
    · simp [StrftimeFormatter.maybeReduce, StrftimeFormatter.new, hlt]
    · simp [StrftimeFormatter.maybeReduce, StrftimeFormatter.new, hlt, renderOf, ← hday ts]
  · simp [StrftimeFormatter.maybeReduce, StrftimeFormatter.new, hymd]

/-- A formatter that keeps what `new` set up reduces as `new` does. -/
theorem FormatterOk.maybeReduce
    (hf : FormatterOk libs format f) : f.maybeReduce = (StrftimeFormatter.new format).maybeReduce :=
  StrftimeFormatter.maybeReduce_congr hf.2.1

/-- One `render`: it answers the uncached rendering of its timestamp, remembers the reduced
timestamp, and keeps what `new` set up. -/
theorem FormatterOk.render (hday : YmdByDay libs) (hf : FormatterOk libs format f) (ts : ℤ) :
    (f.render libs ts).2 = renderOf libs format ts ∧
      (f.render libs ts).1.lastTs = some ((StrftimeFormatter.new format).maybeReduce ts) ∧
      FormatterOk libs format (f.render libs ts).1 := by
  have hred := hf.maybeReduce
  obtain ⟨hformat, hymd, hcache⟩ := hf
  obtain ⟨hformat', hymd', hlast, hcache'⟩ := render_fst hcache ts
  refine ⟨?_, by rw [hlast, hred], hformat'.trans hformat, hymd'.trans hymd, hcache'⟩
  rw [render_snd hcache ts, hformat, hred, renderOf_maybeReduce hday format ts]

/-- After a run, the formatter remembers the reduced last timestamp of the run. -/
theorem renderRun_lastTs (hday : YmdByDay libs) :
    ∀ (tss : List ℤ) (f : StrftimeFormatter), FormatterOk libs format f →
      (renderRun libs f tss).2.lastTs =
        (tss.getLast?.map (StrftimeFormatter.new format).maybeReduce).or f.lastTs
  | [], f, _ => rfl
  | t :: rest, f, hf => by
    obtain ⟨-, hlast, hf'⟩ := hf.render hday t
    have ih := renderRun_lastTs hday rest _ hf'
    simp only [renderRun] at ih ⊢
    rw [Simulation.run_cons, Prod.snd_swap, ih, hlast]
    cases rest with
    | nil => rfl
    | cons a rest =>
      rw [List.getLast?_eq_some_getLast (List.cons_ne_nil a rest)]
      rfl

/-- A stand-in for chrono that writes the number of the UTC day of a timestamp. -/
def dayLibs : Libs :=
  ⟨fun _ ts => some (toString (ts / dayNanoseconds)).toList, fun s => [s], fun _ => 0⟩

theorem dayLibs_ymdByDay : YmdByDay dayLibs := by
  intro ts
  simp only [dayLibs]
  rw [show (ts - ts % dayNanoseconds) / dayNanoseconds = ts / dayNanoseconds by
    unfold dayNanoseconds
    omega]

end Run

/-! ### Ranges -/

section RangeEncode

variable {T : Type} [DecidableEq T]

/-- `range_encode` after an item `a` over `[s, e)`: the runs of the items with the
`None`s filled by the item before them. -/
theorem rangeEncodeLoop_fillNone (a : T) :
    ∀ (l : List (Option T)) (s e : ℕ),
      rangeEncodeLoop l (some (some a)) (s, e) = some (runsAfter (a, s, e) (fillNone a l))
  | [], s, e => rfl
  | none :: l, s, e => by
    rw [rangeEncodeLoop, fillNone, runsAfter_cons_same, rangeEncodeLoop_fillNone a l]
  | some b :: l, s, e => by
    by_cases hb : b = a
    · subst hb
      simp only [rangeEncodeLoop, if_true, fillNone, runsAfter_cons_same]
      exact rangeEncodeLoop_fillNone b l s (e + 1)
    · have hne : some b ≠ some a := fun h => hb (Option.some.inj h)
      simp only [rangeEncodeLoop, hne, if_false, fillNone, runsAfter_cons_ne _ hb]
      rw [rangeEncodeLoop_fillNone b l e (e + 1)]
      rfl

theorem rangeEncode_cons_some (a : T) (l : List (Option T)) :
    rangeEncode (some a :: l) = some (runs (a :: fillNone a l)) := by
  rw [rangeEncode, rangeEncodeLoop, rangeEncodeLoop_fillNone]
  rfl

end RangeEncode

section Batch

variable {K : Type} [DecidableEq K] {libs : Libs} {batch : Batch K} {time : List ℤ}
  {parts : List TemplatePart}

theorem partitionKeys_eq (htime : batch.timeColumn = .ok time) :
    partitionKeys libs batch parts = some (some (rowKey libs batch time parts 0) ::
      partitionKeysLoop libs (evaluateTemplate libs (parts.map (initTemplate batch time)) 0).1
        (List.range' 1 (batch.numRows - 1))) := by
  simp only [partitionKeys, htime]
  rfl

/-- `partition_keys` answers the key of the first row and then, with its gaps
filled, the key of every later row. -/
theorem partitionKeys_fill (htime : batch.timeColumn = .ok time) (hn : 0 < batch.numRows)
    (hok : ∀ r < batch.numRows, ∃ key, rowKey libs batch time parts r = .ok key) :
    ∃ later, partitionKeys libs batch parts = some (some (rowKey libs batch time parts 0) :: later) ∧
      fillNone (rowKey libs batch time parts 0) later =
        (List.range' 1 (batch.numRows - 1)).map (rowKey libs batch time parts) := by
  obtain ⟨key, hkey⟩ := hok 0 hn
  have hinit : List.Forall₂ (PartState libs batch time) parts
      (parts.map (initTemplate batch time)) := forall₂_partState_init parts
  have hinv := keysInv_evaluateTemplate hinit hkey
  refine ⟨_, partitionKeys_eq htime, partitionKeysLoop_fill _ ?_ hinv⟩
  intro i hi
  exact hok i (by rw [List.mem_range'_1] at hi; omega)

/-- The refinement theorem of `partition_batch`: when every row's key renders, it
answers the maximal runs of equal consecutive row keys, whatever the parts
remember between rows. -/
theorem partitionBatch_eq_runs (htime : batch.timeColumn = .ok time) (hn : 0 < batch.numRows)
    (hlen : parts.length ≤ maximumNumberOfTemplateParts)
    (hok : ∀ r < batch.numRows, ∃ key, rowKey libs batch time parts r = .ok key) :
    partitionBatch libs batch parts = some (runs (rowKeys libs batch time parts)) := by
  obtain ⟨later, hkeys, hfill⟩ := partitionKeys_fill htime hn hok
  have hrows : List.range batch.numRows = 0 :: List.range' 1 (batch.numRows - 1) := by
    obtain ⟨m, hm⟩ := Nat.exists_eq_add_of_lt hn
    rw [hm, List.range_eq_range', Nat.zero_add, List.range'_succ, Nat.add_sub_cancel]
  rw [partitionBatch, if_neg (by omega), hkeys, Option.bind_some, rangeEncode_cons_some, hfill,
    rowKeys, hrows, List.map_cons]

/-- A row whose key fails gives `partition_batch` a range with a failed key. -/
theorem partitionBatch_error (htime : batch.timeColumn = .ok time) {pairs}
    (hpairs : partitionBatch libs batch parts = some pairs) {r : ℕ} (hr : r < batch.numRows)
    {e : PartitionKeyError} (he : rowKey libs batch time parts r = .error e) :
    ∃ p ∈ pairs, ∃ e', p.1 = .error e' := by
  rw [partitionBatch, partitionKeys_eq htime] at hpairs
  split_ifs at hpairs
  rw [Option.bind_some, rangeEncode_cons_some, Option.some.injEq] at hpairs
  subst hpairs
  suffices h : ∃ e', .error e' ∈ rowKey libs batch time parts 0 ::
      fillNone (rowKey libs batch time parts 0) (partitionKeysLoop libs
        (evaluateTemplate libs (parts.map (initTemplate batch time)) 0).1
        (List.range' 1 (batch.numRows - 1))) by
    obtain ⟨e', he'⟩ := h
    obtain ⟨p, hp, hpe⟩ := exists_mem_runs_of_mem he'
    exact ⟨p, hp, e', hpe⟩
  cases h0 : rowKey libs batch time parts 0 with
  | error e0 => exact ⟨e0, List.mem_cons_self⟩
  | ok key =>
    -- the first row renders, so the failed row is a later one, which the loop meets
    have hr0 : r ≠ 0 := by
      rintro rfl
      rw [h0] at he
      cases he
    obtain ⟨e', he'⟩ := partitionKeysLoop_error (List.range' 1 (batch.numRows - 1)) h0
      (keysInv_evaluateTemplate (forall₂_partState_init parts) h0)
      ⟨r, List.mem_range'_1.2 ⟨by omega, by omega⟩, e, he⟩
    exact ⟨e', List.mem_cons_of_mem _ (mem_fillNone he')⟩

end Batch

end IoxCore.Partition

import IoxCore.Lib.Parse

/-!
# Partition keys of a batch

The partitioning of a batch of rows by a partition template (partition/src/lib.rs,
partition/src/strftime.rs, partition/src/bucket.rs and the constants of
data_types/src/partition_template.rs).

* A template is a list of parts: the value of a tag column, the row's timestamp rendered by a
  strftime format, or the bucket of a tag value. The key of a row renders each part and joins
  them with `|`; a NULL or missing tag renders as `!`.
* `partition_keys` renders the key of the first row, and for each later row first asks every
  part whether it would render what it rendered last (`is_identical`); when all agree it yields
  `None`, otherwise the new key. Each part keeps what it needs for that question.
* The strftime formatter keeps the five most recent timestamps with their rendering, and for
  the format `%Y-%m-%d` first rounds a timestamp down to its day.
* `range_encode` merges equal consecutive keys, and `None`s, into index ranges.
* `PartitionWrite::partition` groups the ranges by key, with the row count and the least and
  greatest timestamp of each key.

## The model

Strings are character lists and timestamps integers. chrono's strftime rendering, the grapheme
segmentation of unicode-segmentation and the murmur3 hash are the parameter `Libs`. A column is
the trait `PartitioningColumn` as a record of its functions; its invariant, that a valid row's
identity key names a tag value, is a field, so the code's `unwrap` of that value cannot fail. A
panic (an `unwrap` or `expect` that fails, a template of more than eight parts) is `none`.
-/

namespace IoxCore.Partition

open RustStr

/-! ### Constants of the partition template -/

/-- `MAXIMUM_NUMBER_OF_TEMPLATE_PARTS`. -/
def maximumNumberOfTemplateParts : ℕ := 8

/-- `PARTITION_KEY_DELIMITER`. -/
def partitionKeyDelimiter : Char := '|'

/-- `PARTITION_KEY_VALUE_EMPTY_STR`. -/
def partitionKeyValueEmptyStr : List Char := ['^']

/-- `PARTITION_KEY_VALUE_NULL_STR`. -/
def partitionKeyValueNullStr : List Char := ['!']

/-- `PARTITION_KEY_MAX_PART_LEN`. -/
def partitionKeyMaxPartLen : ℕ := 200

/-- `PARTITION_KEY_PART_TRUNCATED`. -/
def partitionKeyPartTruncated : Char := '#'

/-- `ENCODED_PARTITION_KEY_CHARS`: the ASCII controls and `|`, `!`, `^`, `#`, `%`. -/
def encodedPartitionKeyChars (b : UInt8) : Bool :=
  b < 0x20 || b == 0x7f || b == 0x7c || b == 0x21 || b == 0x5e || b == 0x23 || b == 0x25

/-! ### Libraries -/

/-- What the partitioning code takes from libraries. -/
structure Libs where
  /-- chrono: the timestamp (nanoseconds since the epoch, UTC) written with the
  items of a strftime format; `none` when writing fails. -/
  strftime : List Char → ℤ → Option (List Char)
  /-- unicode-segmentation: the extended grapheme clusters of a string. -/
  graphemes : List Char → List (List Char)
  /-- murmur3: `murmur3_32` with seed 0 of a byte string. -/
  murmur3 : List UInt8 → UInt32

/-- The UTF-8 bytes of a string. -/
def utf8Bytes (s : List Char) : List UInt8 := s.flatMap String.utf8EncodeChar

/-- An upper-case hexadecimal digit. -/
def hexDigit (n : ℕ) : Char := if n < 10 then Char.ofNat (48 + n) else Char.ofNat (55 + n)

/-- `utf8_percent_encode`: each byte that is not ASCII or is in the set written as
`%XX`. -/
def utf8PercentEncode (s : List Char) : List Char :=
  (utf8Bytes s).flatMap fun b =>
    if b ≥ 0x80 || encodedPartitionKeyChars b then ['%', hexDigit (b.toNat / 16), hexDigit (b.toNat % 16)]
    else [Char.ofNat b.toNat]

/-- The loop of the truncation of `encode_key_part`: encoded graphemes while the
running byte count stays below the limit. Encoded text is ASCII, so its length
is its length in bytes. -/
def truncateLoop : ℕ → List (List Char) → List Char
  | _, [] => []
  | bytes, g :: gs =>
    if bytes + g.length < partitionKeyMaxPartLen then g ++ truncateLoop (bytes + g.length) gs
    else []

/-- `encode_key_part`. -/
def encodeKeyPart (libs : Libs) (s : List Char) : List Char :=
  let asStr := utf8PercentEncode s
  if asStr.length = 0 then partitionKeyValueEmptyStr
  else if asStr.length ≤ partitionKeyMaxPartLen then asStr
  else truncateLoop 0 ((libs.graphemes s).map utf8PercentEncode) ++ [partitionKeyPartTruncated]

/-- `bucket_for_tag_value`: the murmur3 hash without its sign bit, modulo the
number of buckets. -/
def bucketForTagValue (libs : Libs) (tagValue : List Char) (numBuckets : ℕ) : ℕ :=
  (libs.murmur3 (utf8Bytes tagValue)).toNat % 2 ^ 31 % numBuckets

/-! ### Batches -/

/-- `TimeColumnError`. -/
inductive TimeColumnError
  | notFound
  deriving DecidableEq, Repr

/-- `PartitioningColumn`: a column with identity keys of type `K` for its tag values. -/
structure PartitioningColumn (K : Type) where
  isValid : ℕ → Bool
  getTagIdentityKey : ℕ → Option K
  getTagValue : K → Option (List Char)
  typeDescription : List Char
  getTagValue_isSome : ∀ idx k, isValid idx = true → getTagIdentityKey idx = some k →
    (getTagValue k).isSome

/-- The tag value of a valid row, which the code `unwrap`s. -/
def PartitioningColumn.tagValue {K : Type} (col : PartitioningColumn K) {idx : ℕ} {k : K}
    (hv : col.isValid idx = true) (hk : col.getTagIdentityKey idx = some k) : List Char :=
  (col.getTagValue k).get (col.getTagValue_isSome idx k hv hk)

/-- `Batch`: its rows, its columns by name and its time column, with a timestamp
of type `i64` for each row. -/
structure Batch (K : Type) where
  numRows : ℕ
  column : List Char → Option (PartitioningColumn K)
  timeColumn : Except TimeColumnError (List ℤ)
  timeColumn_length : ∀ t, timeColumn = .ok t → t.length = numRows
  timeColumn_bounds : ∀ t, timeColumn = .ok t → ∀ x ∈ t, -2 ^ 63 ≤ x ∧ x < 2 ^ 63

/-- `TemplatePart`. -/
inductive TemplatePart
  | tagValue (colName : List Char)
  | timeFormat (format : List Char)
  | bucket (colName : List Char) (numBuckets : ℕ)
  deriving DecidableEq, Repr

/-- `PartitionKeyError`. -/
inductive PartitionKeyError
  | invalidStrftime
  | tagValueNotTag (typeDescription : List Char)
  deriving DecidableEq, Repr

/-! ### The bucket hasher and the strftime formatter -/

/-- `BucketHasher`. -/
structure BucketHasher where
  numBuckets : ℕ
  lastAssignedBucket : Option ℕ

/-- `BucketHasher::new`. -/
def BucketHasher.new (numBuckets : ℕ) : BucketHasher := ⟨numBuckets, none⟩

/-- `BucketHasher::assign_bucket`: the bucket, which it also remembers. -/
def BucketHasher.assignBucket (libs : Libs) (h : BucketHasher) (tagValue : List Char) :
    BucketHasher × ℕ :=
  let bucket := bucketForTagValue libs tagValue h.numBuckets
  ({ h with lastAssignedBucket := some bucket }, bucket)

/-- `RingBuffer`: slots, lazily filled, and the index of the last written one. -/
structure RingBuffer (α : Type) where
  buf : List (Option α)
  lastIdx : ℕ

/-- `RingBuffer::default` with `n` slots. -/
def RingBuffer.default {α : Type} (n : ℕ) : RingBuffer α := ⟨List.replicate n none, n - 1⟩

/-- `RingBuffer::find`: the first slot that satisfies `p`; the search stops at the
first empty slot. -/
def RingBuffer.findIn {α : Type} (p : α → Bool) : List (Option α) → Option α
  | [] => none
  | none :: _ => none
  | some v :: rest => if p v then some v else findIn p rest

/-- `RingBuffer::next_slot`: moves to the next slot, to be overwritten. -/
def RingBuffer.nextSlot {α : Type} (r : RingBuffer α) : RingBuffer α :=
  { r with lastIdx := (r.lastIdx + 1) % r.buf.length }

/-- Writes the last slot; `drop_last` writes `none`. -/
def RingBuffer.setLast {α : Type} (r : RingBuffer α) (v : Option α) : RingBuffer α :=
  { r with buf := r.buf.set r.lastIdx v }

/-- `DAY_NANOSECONDS`. -/
def dayNanoseconds : ℤ := 86400000000000

/-- `YMD_SPEC`. -/
def ymdSpec : List Char := "%Y-%m-%d".toList

/-- `StrftimeFormatter`. -/
structure StrftimeFormatter where
  format : List Char
  isYmdFormat : Bool
  values : RingBuffer (ℤ × List Char)
  lastTs : Option ℤ

/-- `StrftimeFormatter::new`. -/
def StrftimeFormatter.new (format : List Char) : StrftimeFormatter :=
  ⟨format, format == ymdSpec, RingBuffer.default 5, none⟩

/-- `StrftimeFormatter::maybe_reduce`: for `%Y-%m-%d`, a timestamp of a day or more
rounded down to its day. -/
def StrftimeFormatter.maybeReduce (f : StrftimeFormatter) (timestamp : ℤ) : ℤ :=
  if !f.isYmdFormat then timestamp
  else if timestamp < dayNanoseconds then timestamp
  else timestamp - timestamp % dayNanoseconds

/-- `StrftimeFormatter::render`: from the cache when the reduced timestamp is in
it, otherwise rendered, encoded and cached; a failed rendering empties its slot. -/
def StrftimeFormatter.render (libs : Libs) (f : StrftimeFormatter) (timestamp : ℤ) :
    StrftimeFormatter × Except PartitionKeyError (List Char) :=
  let timestamp := f.maybeReduce timestamp
  let f := { f with lastTs := some timestamp }
  match RingBuffer.findIn (fun v => v.1 == timestamp) f.values.buf with
  | some v => (f, .ok v.2)
  | none =>
    let values := f.values.nextSlot
    match libs.strftime f.format timestamp with
    | none => ({ f with values := values.setLast none }, .error .invalidStrftime)
    | some s =>
      let s := encodeKeyPart libs s
      ({ f with values := values.setLast (some (timestamp, s)) }, .ok s)

/-- `StrftimeFormatter::equals_last`. -/
def StrftimeFormatter.equalsLast (f : StrftimeFormatter) (timestamp : ℤ) : Bool :=
  match f.lastTs with
  | some v => v == f.maybeReduce timestamp
  | none => false

/-! ### Templates -/

/-- `Template`: a template part with what it remembers of the last row. -/
inductive Template (K : Type)
  | tagValue (col : PartitioningColumn K) (lastKey : Option K)
  | timeFormat (t : List ℤ) (fmt : StrftimeFormatter)
  | bucket (col : PartitioningColumn K) (hasher : BucketHasher) (lastKey : Option K)
  | missingTag

section Template

variable {K : Type} [DecidableEq K] (libs : Libs)

/-- `Template::fmt_row`: the rendering of a part for a row, and the new state. -/
def Template.fmtRow : Template K → ℕ → Template K × Except PartitionKeyError (List Char)
  | .tagValue col lastKey, idx =>
    if hv : col.isValid idx = true then
      match hk : col.getTagIdentityKey idx with
      | none => (.tagValue col lastKey, .error (.tagValueNotTag col.typeDescription))
      | some k => (.tagValue col (some k), .ok (encodeKeyPart libs (col.tagValue hv hk)))
    else (.tagValue col none, .ok partitionKeyValueNullStr)
  | .timeFormat t fmt, idx =>
    -- the index is a row of the batch, within the time column
    let (fmt, r) := fmt.render libs (t.getD idx 0)
    (.timeFormat t fmt, r)
  | .bucket col hasher lastKey, idx =>
    if hv : col.isValid idx = true then
      match hk : col.getTagIdentityKey idx with
      | none => (.bucket col hasher lastKey, .error (.tagValueNotTag col.typeDescription))
      | some k =>
        let (hasher, b) := hasher.assignBucket libs (col.tagValue hv hk)
        (.bucket col hasher (some k), .ok (natText b))
    else (.bucket col hasher none, .ok partitionKeyValueNullStr)
  | .missingTag, _ => (.missingTag, .ok partitionKeyValueNullStr)

/-- `Template::is_identical`: whether the part would render for the row what it
rendered last, and the new state (a bucket part assigns the row's bucket). -/
def Template.isIdentical : Template K → ℕ → Template K × Bool
  | .tagValue col lastKey, idx =>
    if col.isValid idx then
      match col.getTagIdentityKey idx with
      | none => (.tagValue col lastKey, false)
      | some k => (.tagValue col lastKey, (lastKey.map (· == k)).getD false)
    else (.tagValue col lastKey, lastKey.isNone)
  | .timeFormat t fmt, idx => (.timeFormat t fmt, fmt.equalsLast (t.getD idx 0))
  | .bucket col hasher lastKey, idx =>
    if col.isValid idx then
      match col.getTagIdentityKey idx with
      | none => (.bucket col hasher lastKey, false)
      | some k =>
        match lastKey with
        | some v =>
          if k = v then (.bucket col hasher lastKey, true)
          else
            match col.getTagValue k with
            | some value =>
              match hasher.lastAssignedBucket with
              | some lastBucket =>
                let (hasher, b) := hasher.assignBucket libs value
                (.bucket col hasher lastKey, lastBucket == b)
              | none => (.bucket col hasher lastKey, false)
            | none => (.bucket col hasher lastKey, false)
        | none => (.bucket col hasher lastKey, false)
    else (.bucket col hasher lastKey, lastKey.isNone)
  | .missingTag, _ => (.missingTag, true)

/-- `template.iter_mut().all(|t| t.is_identical(idx))`: stops at the first part
that differs, leaving the parts after it untouched. -/
def allIdentical : List (Template K) → ℕ → List (Template K) × Bool
  | [], _ => ([], true)
  | t :: ts, idx =>
    let (t, same) := t.isIdentical libs idx
    if same then
      let (ts, same) := allIdentical ts idx
      (t :: ts, same)
    else (t :: ts, false)

/-- The loop of `evaluate_template` from the part at `colIdx`, onto `buf`. -/
def evaluateTemplateLoop (templateLen idx : ℕ) :
    ℕ → List (Template K) → List Char → List (Template K) × Except PartitionKeyError (List Char)
  | _, [], buf => ([], .ok buf)
  | colIdx, t :: ts, buf =>
    let (t, r) := t.fmtRow libs idx
    match r with
    | .error e => (t :: ts, .error e)
    | .ok s =>
      let buf := buf ++ s ++ (if colIdx + 1 ≠ templateLen then [partitionKeyDelimiter] else [])
      let (ts, r) := evaluateTemplateLoop templateLen idx (colIdx + 1) ts buf
      (t :: ts, r)

/-- `evaluate_template`: each part rendered for the row, joined by `|`; the first
error stops it. -/
def evaluateTemplate (template : List (Template K)) (idx : ℕ) :
    List (Template K) × Except PartitionKeyError (List Char) :=
  evaluateTemplateLoop libs template.length idx 0 template []

/-- The `Template` of a `TemplatePart`, freshly initialised. -/
def initTemplate (batch : Batch K) (time : List ℤ) : TemplatePart → Template K
  | .tagValue colName =>
    match batch.column colName with
    | none => .missingTag
    | some v => .tagValue v none
  | .timeFormat fmt => .timeFormat time (StrftimeFormatter.new fmt)
  | .bucket colName numBuckets =>
    match batch.column colName with
    | none => .missingTag
    | some v => .bucket v (BucketHasher.new numBuckets) none

/-- The rows after the first of `partition_keys`: `none` when every part is
identical, otherwise the row's key. -/
def partitionKeysLoop : List (Template K) → List ℕ →
    List (Option (Except PartitionKeyError (List Char)))
  | _, [] => []
  | template, idx :: rest =>
    let (template, same) := allIdentical libs template idx
    if same then none :: partitionKeysLoop template rest
    else
      let (template, key) := evaluateTemplate libs template idx
      some key :: partitionKeysLoop template rest

/-- `partition_keys`: the key of the first row, then for each later row `none` or
its key; the time column is `expect`ed. -/
def partitionKeys (batch : Batch K) (parts : List TemplatePart) :
    Option (List (Option (Except PartitionKeyError (List Char)))) :=
  match batch.timeColumn with
  | .error _ => none
  | .ok time =>
    let template := parts.map (initTemplate batch time)
    let (template, first) := evaluateTemplate libs template 0
    some (some first :: partitionKeysLoop libs template (List.range' 1 (batch.numRows - 1)))

end Template

/-! ### Ranges -/

section RangeEncode

variable {T : Type} [DecidableEq T]

/-- The loop of `range_encode` with its last item and its range; `none` where it
`unwrap`s a `None`. -/
def rangeEncodeLoop : List (Option T) → Option (Option T) → ℕ × ℕ → Option (List (T × ℕ × ℕ))
  | [], none, _ => some []
  | [], some next, range => next.map fun n => [(n, range)]
  | none :: it, some v, (s, e) => rangeEncodeLoop it (some v) (s, e + 1)
  | cur :: it, some next, (s, e) =>
    if cur = next then rangeEncodeLoop it (some next) (s, e + 1)
    else
      match next with
      | none => none
      | some n => ((n, (s, e)) :: ·) <$> rangeEncodeLoop it (some cur) (e, e + 1)
  | cur :: it, none, (s, e) => rangeEncodeLoop it (some cur) (s, e + 1)

/-- `range_encode`: equal consecutive items, and the `None`s after an item, merged
into the range of that item. -/
def rangeEncode (it : List (Option T)) : Option (List (T × ℕ × ℕ)) :=
  rangeEncodeLoop it none (0, 0)

end RangeEncode

/-- `partition_batch`: the keys of the rows, merged into ranges; a template of more
than eight parts panics. -/
def partitionBatch {K : Type} [DecidableEq K] (libs : Libs) (batch : Batch K)
    (template : List TemplatePart) :
    Option (List (Except PartitionKeyError (List Char) × ℕ × ℕ)) :=
  if template.length > maximumNumberOfTemplateParts then none
  else (partitionKeys libs batch template).bind rangeEncode

/-! ### Partitioned writes -/

/-- `PartitionWriteError`. -/
inductive PartitionWriteError
  | partitionKey (e : PartitionKeyError)
  | timeColumn (e : TimeColumnError)
  deriving DecidableEq, Repr

/-- `PartitionWrite`: the ranges of a key, its least and greatest timestamp and its
row count. -/
structure PartitionWrite where
  ranges : List (ℕ × ℕ)
  minTimestamp : ℤ
  maxTimestamp : ℤ
  rowCount : ℕ
  deriving DecidableEq, Repr

/-- `i64::MAX`. -/
def i64Max : ℤ := 2 ^ 63 - 1

/-- `i64::MIN`. -/
def i64Min : ℤ := -2 ^ 63

/-- `min_max_time`. -/
def minMaxTime (col : List ℤ) : ℤ × ℤ :=
  col.foldl (fun acc t => (min acc.1 t, max acc.2 t)) (i64Max, i64Min)

/-- The timestamps of the rows of a range, `time[range]`. -/
def slice (time : List ℤ) (range : ℕ × ℕ) : List ℤ := (time.drop range.1).take (range.2 - range.1)

/-- The `HashMap` entry of a key: a new write with the range, or the range added to
the write the key has. -/
def upsert (key : List Char) (range : ℕ × ℕ) (minTimestamp maxTimestamp : ℤ) (rowCount : ℕ) :
    List (List Char × PartitionWrite) → List (List Char × PartitionWrite)
  | [] => [(key, ⟨[range], minTimestamp, maxTimestamp, rowCount⟩)]
  | (k, pw) :: rest =>
    if k = key then
      (k, ⟨pw.ranges ++ [range], min pw.minTimestamp minTimestamp, max pw.maxTimestamp maxTimestamp,
        pw.rowCount + rowCount⟩) :: rest
    else (k, pw) :: upsert key range minTimestamp maxTimestamp rowCount rest

/-- The loop of `PartitionWrite::partition` over the ranges; an empty range panics
(`NonZeroUsize::new(..).unwrap()`). -/
def partitionLoop (time : List ℤ) :
    List (Except PartitionKeyError (List Char) × ℕ × ℕ) → List (List Char × PartitionWrite) →
      Option (Except PartitionWriteError (List (List Char × PartitionWrite)))
  | [], m => some (.ok m)
  | (partition, range) :: rest, m =>
    let rowCount := range.2 - range.1
    if rowCount = 0 then none
    else
      let (minTimestamp, maxTimestamp) := minMaxTime (slice time range)
      match partition with
      | .error e => some (.error (.partitionKey e))
      | .ok key => partitionLoop time rest (upsert key range minTimestamp maxTimestamp rowCount m)

/-- `PartitionWrite::partition`: the writes of the batch by partition key. -/
def PartitionWrite.partition {K : Type} [DecidableEq K] (libs : Libs) (batch : Batch K)
    (partitionTemplate : List TemplatePart) :
    Option (Except PartitionWriteError (List (List Char × PartitionWrite))) :=
  match batch.timeColumn with
  | .error e => some (.error (.timeColumn e))
  | .ok time => (partitionBatch libs batch partitionTemplate).bind fun pairs => partitionLoop time pairs []

end IoxCore.Partition

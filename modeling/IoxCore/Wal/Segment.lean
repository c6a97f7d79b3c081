import IoxCore.Lib.BigEndian
import Mathlib.Data.Int.Notation
import Mathlib.Data.Finset.Basic

/-!
# WAL segment files

A segment file (wal/src/blocking/writer.rs and reader.rs) starts with the file type identifier
`INFLUXV3` and the segment id as 8 big-endian bytes, and then holds one entry per flushed batch:

    checksum: u32 BE | compressed_len: u32 BE | snappy-framed data

`OpenSegmentFileWriter::write` compresses the encoded batch through a writer that records the
CRC of the compressed bytes, refuses data or compressed data longer than `u32::MAX`, and fills
in the two header words afterwards. It counts every byte it writes in `bytes_written`, starting
from the 16 header bytes.

`ClosedSegmentFileReader` reads the header (counting 16 bytes), and then, per entry, the two
words, the compressed bytes through `take(expected_len)` and a CRC-recording reader, and
decompresses them; it adds `8 + actual_compressed_len` to `bytes_read` before it compares length
and checksum. Fewer than 4 bytes where a checksum should be is the end of the file. `next_batch`
decodes the entry as a protobuf `WalOpBatch` and converts each op back.

## The model

A file is its list of bytes; the reader holds the bytes it has not yet read. prost's encoding,
snappy's frame encoder and decoder, and CRC-32 are the parameters of a `Codec`, whose laws
(`Codec.Lawful`) are what the code relies on: decoding inverts encoding, and decompressing
inverts compressing. The decoder reads its input to the end, so when it succeeds the CRC reader
has seen the whole region. Table ids are their `i64` values, and the map of sequence numbers is
its list of entries. After an error the reader's input is not advanced.
-/

namespace IoxCore.Wal

open BigEndian

/-- `SequencedWalOp`: an operation and the sequence number it was given for each
table it writes (`table_write_sequence_numbers`). -/
structure SequencedWalOp (Op : Type) where
  tableWriteSequenceNumbers : List (ℤ × ℕ)
  op : Op
  deriving DecidableEq, Repr

/-- The protobuf `SequencedWalOp`, whose `op` is optional. -/
structure ProtoSequencedWalOp (Op : Type) where
  tableWriteSequenceNumbers : List (ℤ × ℕ)
  op : Option Op
  deriving DecidableEq, Repr

/-- `FieldViolation`, for the missing field it names. -/
structure FieldViolation where
  field : String
  deriving DecidableEq, Repr

section Ops

variable {Op : Type}

/-- `From<SequencedWalOp> for ProtoSequencedWalOp`. -/
def SequencedWalOp.toProto (o : SequencedWalOp Op) : ProtoSequencedWalOp Op :=
  ⟨o.tableWriteSequenceNumbers, some o.op⟩

/-- `TryFrom<ProtoSequencedWalOp> for SequencedWalOp`. -/
def SequencedWalOp.tryFromProto (p : ProtoSequencedWalOp Op) :
    Except FieldViolation (SequencedWalOp Op) :=
  match p.op with
  | none => .error ⟨"op"⟩
  | some o => .ok ⟨p.tableWriteSequenceNumbers, o⟩

@[simp]
theorem tryFromProto_toProto (o : SequencedWalOp Op) : SequencedWalOp.tryFromProto o.toProto = .ok o :=
  rfl

theorem mapM_tryFromProto_toProto :
    ∀ ops : List (SequencedWalOp Op), (ops.map SequencedWalOp.toProto).mapM SequencedWalOp.tryFromProto = .ok ops
  | [] => rfl
  | o :: ops => by
    simp only [List.map_cons, List.mapM_cons, tryFromProto_toProto, mapM_tryFromProto_toProto ops]
    rfl

/-- The sequence numbers an op carries, as the I/O thread collects them into a
`SequenceNumberSet`. -/
def SequencedWalOp.ids (o : SequencedWalOp Op) : Finset ℕ :=
  (o.tableWriteSequenceNumbers.map (·.2)).toFinset

end Ops

/-- The libraries a segment file is written and read with. -/
structure Codec (Op : Type) where
  /-- prost's `WalOpBatch::encode`. -/
  encodeBatch : List (ProtoSequencedWalOp Op) → List UInt8
  /-- prost's `WalOpBatch::decode`. -/
  decodeBatch : List UInt8 → Option (List (ProtoSequencedWalOp Op))
  /-- snap's `FrameEncoder`, flushed. -/
  compress : List UInt8 → List UInt8
  /-- snap's `FrameDecoder`, read to the end of its input. -/
  decompress : List UInt8 → Option (List UInt8)
  /-- crc32fast's `Hasher`, finalized. -/
  crc : List UInt8 → UInt32

/-- What the WAL relies on of its libraries. -/
structure Codec.Lawful {Op : Type} (c : Codec Op) : Prop where
  decode_encode : ∀ b, c.decodeBatch (c.encodeBatch b) = some b
  decompress_compress : ∀ d, c.decompress (c.compress d) = some d

/-! ### Writing -/

/-- `FILE_TYPE_IDENTIFIER`, `b"INFLUXV3"`. -/
def fileTypeIdentifier : List UInt8 := [73, 78, 70, 76, 85, 88, 86, 51]

/-- The header of segment `id`: the file type identifier and `id.as_bytes()`. -/
def header (id : ℕ) : List UInt8 := fileTypeIdentifier ++ toBytes 8 id

@[simp]
theorem length_header (id : ℕ) : (header id).length = 16 := by
  simp [header, fileTypeIdentifier]

/-- `OpenSegmentFileWriter`, by its id and its count of bytes written. -/
structure OpenSegmentFileWriter where
  id : ℕ
  bytesWritten : ℕ
  deriving DecidableEq, Repr

/-- `WriteSummary`. -/
structure WriteSummary where
  totalBytes : ℕ
  bytesWritten : ℕ
  segmentId : ℕ
  deriving DecidableEq, Repr

/-- `ClosedSegment`, by its id and size. -/
structure ClosedSegment where
  id : ℕ
  size : ℕ
  deriving DecidableEq, Repr

/-- The writer's `ChunkSizeTooLarge` error. -/
structure ChunkSizeTooLarge where
  actual : ℕ
  deriving DecidableEq, Repr

/-- `OpenSegmentFileWriter::new_in_directory`, given the id `fetch_add` returned:
the writer, and the bytes it writes to the new file. -/
def OpenSegmentFileWriter.new (id : ℕ) : OpenSegmentFileWriter × List UInt8 :=
  (⟨id, fileTypeIdentifier.length + (toBytes 8 id).length⟩, header id)

/-- One entry: the checksum and the length as `u32` big-endian words, then the
compressed bytes. -/
def frame (checksum : UInt32) (compressed : List UInt8) : List UInt8 :=
  toBytes 4 checksum.toNat ++ toBytes 4 compressed.length ++ compressed

section Codec

variable {Op : Type} (c : Codec Op)

/-- The entry `write` appends for `data`. -/
def entryOf (data : List UInt8) : List UInt8 :=
  frame (c.crc (c.compress data)) (c.compress data)

/-- `OpenSegmentFileWriter::write`: the summary, the updated writer, and the
bytes appended to the file. -/
def OpenSegmentFileWriter.write (w : OpenSegmentFileWriter) (data : List UInt8) :
    Except ChunkSizeTooLarge (WriteSummary × OpenSegmentFileWriter × List UInt8) :=
  if 2 ^ 32 ≤ data.length then .error ⟨data.length⟩
  else if 2 ^ 32 ≤ (c.compress data).length then .error ⟨(c.compress data).length⟩
  else
    let buf := entryOf c data
    .ok (⟨w.bytesWritten + buf.length, buf.length, w.id⟩,
      { w with bytesWritten := w.bytesWritten + buf.length }, buf)

/-- `OpenSegmentFileWriter::close`. -/
def OpenSegmentFileWriter.close (w : OpenSegmentFileWriter) : ClosedSegment := ⟨w.id, w.bytesWritten⟩

/-- The one way `write` succeeds: both lengths fit a `u32`, and the summary, the
writer and the appended bytes are those of `entryOf`. -/
theorem write_eq_ok_iff {w w' : OpenSegmentFileWriter} {data buf : List UInt8} {sm : WriteSummary} :
    OpenSegmentFileWriter.write c w data = .ok (sm, w', buf) ↔
      data.length < 2 ^ 32 ∧ (c.compress data).length < 2 ^ 32 ∧ buf = entryOf c data ∧
        sm = ⟨w.bytesWritten + buf.length, buf.length, w.id⟩ ∧
        w' = { w with bytesWritten := w.bytesWritten + buf.length } := by
  unfold OpenSegmentFileWriter.write
  by_cases h1 : 2 ^ 32 ≤ data.length
  · rw [if_pos h1]
    simp only [reduceCtorEq, false_iff, not_and]
    omega
  · by_cases h2 : 2 ^ 32 ≤ (c.compress data).length
    · rw [if_neg h1, if_pos h2]
      simp only [reduceCtorEq, false_iff, not_and]
      omega
    · rw [if_neg h1, if_neg h2]
      simp only [Except.ok.injEq, Prod.mk.injEq]
      constructor
      · rintro ⟨rfl, rfl, rfl⟩
        exact ⟨by omega, by omega, rfl, rfl, rfl⟩
      · rintro ⟨-, -, rfl, rfl, rfl⟩
        exact ⟨rfl, rfl, rfl⟩

/-! ### Reading -/

/-- The reader's errors (`blocking::ReaderError`). -/
inductive ReaderError
  | unableToReadArray (length : ℕ)
  | unableToReadLength
  | unableToReadData
  | lengthMismatch (expected actual : ℕ)
  | checksumMismatch (expected actual : ℕ)
  | unableToDeserializeData
  | invalidMessage (v : FieldViolation)
  deriving DecidableEq, Repr

/-- `blocking::ClosedSegmentFileReader`: the bytes not yet read and `bytes_read`. -/
structure SegmentReader where
  rest : List UInt8
  bytesRead : ℕ
  deriving DecidableEq, Repr

/-- `read_array::<N>`. -/
def SegmentReader.readArray (n : ℕ) (r : SegmentReader) :
    Except ReaderError (List UInt8 × SegmentReader) :=
  if n ≤ r.rest.length then .ok (r.rest.take n, ⟨r.rest.drop n, r.bytesRead + n⟩)
  else .error (.unableToReadArray n)

/-- `read_header`: the file type identifier and the id bytes. -/
def SegmentReader.readHeader (r : SegmentReader) :
    Except ReaderError ((List UInt8 × List UInt8) × SegmentReader) :=
  match r.readArray 8 with
  | .error e => .error e
  | .ok (fileType, r) =>
    match r.readArray 8 with
    | .error e => .error e
    | .ok (id, r) => .ok ((fileType, id), r)

/-- `one_entry`. -/
def SegmentReader.oneEntry (r : SegmentReader) :
    Except ReaderError (Option (List UInt8)) × SegmentReader :=
  match read 4 r.rest with
  -- an `UnexpectedEof` while reading the checksum is the end of the file
  | none => (.ok none, r)
  | some (expectedChecksum, rest) =>
    match read 4 rest with
    | none => (.error .unableToReadLength, r)
    | some (expectedLen, rest) =>
      let region := rest.take expectedLen
      match c.decompress region with
      | none => (.error .unableToReadData, r)
      | some data =>
        let r' : SegmentReader := ⟨rest.drop expectedLen, r.bytesRead + 2 * 4 + region.length⟩
        if expectedLen ≠ region.length then
          (.error (.lengthMismatch expectedLen region.length), r')
        else if expectedChecksum ≠ (c.crc region).toNat then
          (.error (.checksumMismatch expectedChecksum (c.crc region).toNat), r')
        else (.ok (some data), r')

/-- `next_batch`. -/
def SegmentReader.nextBatch (r : SegmentReader) :
    Except ReaderError (Option (List (SequencedWalOp Op))) × SegmentReader :=
  match r.oneEntry c with
  | (.error e, r') => (.error e, r')
  | (.ok none, r') => (.ok none, r')
  | (.ok (some data), r') =>
    match c.decodeBatch data with
    | none => (.error .unableToDeserializeData, r')
    | some protoOps =>
      match protoOps.mapM SequencedWalOp.tryFromProto with
      | .error v => (.error (.invalidMessage v), r')
      | .ok ops => (.ok (some ops), r')

/-- The errors of the crate's `ClosedSegmentFileReader` (the WAL's `Error`). -/
inductive Error
  | segmentFileIdentifierMismatch
  | unableToReadFileHeader (e : ReaderError)
  | unableToReadNextOps (e : ReaderError)
  deriving DecidableEq, Repr

/-- The crate's `ClosedSegmentFileReader`: the segment id from the header and the
raw reader. -/
structure ClosedSegmentFileReader where
  id : ℕ
  file : SegmentReader
  deriving DecidableEq, Repr

/-- `ClosedSegmentFileReader::from_path`, on the file's bytes. -/
def ClosedSegmentFileReader.fromBytes (bytes : List UInt8) : Except Error ClosedSegmentFileReader :=
  match (SegmentReader.mk bytes 0).readHeader with
  | .error e => .error (.unableToReadFileHeader e)
  | .ok ((fileType, id), file) =>
    if fileType ≠ fileTypeIdentifier then .error .segmentFileIdentifierMismatch
    else .ok ⟨ofBytes id, file⟩

/-- `Iterator::next` of `ClosedSegmentFileReader`: the next batch with the
`bytes_read` after it. -/
def ClosedSegmentFileReader.next (r : ClosedSegmentFileReader) :
    Option (Except Error (List (SequencedWalOp Op) × ℕ)) × ClosedSegmentFileReader :=
  match r.file.nextBatch c with
  | (.ok none, f) => (none, ⟨r.id, f⟩)
  | (.ok (some ops), f) => (some (.ok (ops, f.bytesRead)), ⟨r.id, f⟩)
  | (.error e, f) => (some (.error (.unableToReadNextOps e)), ⟨r.id, f⟩)

/-- The results of `n` successive calls of `next`. -/
def ClosedSegmentFileReader.iterate :
    ℕ → ClosedSegmentFileReader → List (Option (Except Error (List (SequencedWalOp Op) × ℕ)))
  | 0, _ => []
  | n + 1, r => (r.next c).1 :: iterate n (r.next c).2

/-! ### Reading back what was written -/

/-- The bytes prost writes for a batch of ops (what the I/O thread hands to `write`). -/
def batchData (ops : List (SequencedWalOp Op)) : List UInt8 :=
  c.encodeBatch (ops.map SequencedWalOp.toProto)

/-- The entries of a segment with their `total_bytes`: each entry was written
with both lengths within `u32`, and each total is the previous one plus the
entry's length, from `start`. -/
def Entries (start : ℕ) : List (List (SequencedWalOp Op) × ℕ) → Prop
  | [] => True
  | (ops, total) :: es =>
    (batchData c ops).length < 2 ^ 32 ∧ (c.compress (batchData c ops)).length < 2 ^ 32 ∧
      total = start + (entryOf c (batchData c ops)).length ∧ Entries total es

/-- The total after the last entry, or `start` when there is none. -/
def lastTotal {α : Type} (start : ℕ) (es : List (α × ℕ)) : ℕ := (es.getLast?.map (·.2)).getD start

@[simp]
theorem lastTotal_nil {α : Type} (start : ℕ) : lastTotal start ([] : List (α × ℕ)) = start := rfl

@[simp]
theorem lastTotal_append_singleton {α : Type} (start : ℕ) (es : List (α × ℕ)) (e : α × ℕ) :
    lastTotal start (es ++ [e]) = e.2 := by
  simp [lastTotal]

/-- Appending an entry: it fits, and its total extends the last one. -/
theorem entries_append_singleton (ops : List (SequencedWalOp Op)) (total : ℕ) :
    ∀ (start : ℕ) (es : List (List (SequencedWalOp Op) × ℕ)),
      Entries c start (es ++ [(ops, total)]) ↔
        Entries c start es ∧ (batchData c ops).length < 2 ^ 32 ∧
          (c.compress (batchData c ops)).length < 2 ^ 32 ∧
          total = lastTotal start es + (entryOf c (batchData c ops)).length
  | start, [] => by simp [Entries]
  | start, (ops', total') :: es => by
    have hlast : lastTotal start ((ops', total') :: es) = lastTotal total' es := by
      cases es with
      | nil => rfl
      | cons e es => simp [lastTotal, List.getLast?_cons]
    simp only [List.cons_append, Entries, entries_append_singleton ops total total' es, hlast]
    tauto

variable {c}

@[simp]
theorem oneEntry_nil (n : ℕ) : (SegmentReader.mk [] n).oneEntry c = (.ok none, ⟨[], n⟩) := rfl

theorem oneEntry_entryOf (hc : c.Lawful) {data : List UInt8}
    (hlen : (c.compress data).length < 2 ^ 32) (rest : List UInt8) (n : ℕ) :
    (SegmentReader.mk (entryOf c data ++ rest) n).oneEntry c =
      (.ok (some data), ⟨rest, n + (entryOf c data).length⟩) := by
  have hcrc : (c.crc (c.compress data)).toNat % 256 ^ 4 = (c.crc (c.compress data)).toNat :=
    Nat.mod_eq_of_lt (UInt32.toNat_lt _)
  have hlen' : (c.compress data).length % 256 ^ 4 = (c.compress data).length :=
    Nat.mod_eq_of_lt (by simpa using hlen)
  have hrest : ((c.compress data) ++ rest).take (c.compress data).length = c.compress data :=
    List.take_left' rfl
  have hdrop : ((c.compress data) ++ rest).drop (c.compress data).length = rest :=
    List.drop_left' rfl
  simp only [SegmentReader.oneEntry, entryOf, frame, List.append_assoc, read_toBytes_append,
    hcrc, hlen', hrest, hdrop, hc.decompress_compress, ne_eq, not_true_eq_false, if_false,
    List.length_append, length_toBytes]
  congr 2
  omega

theorem nextBatch_entryOf (hc : c.Lawful) {ops : List (SequencedWalOp Op)}
    (hlen : (c.compress (batchData c ops)).length < 2 ^ 32) (rest : List UInt8) (n : ℕ) :
    (SegmentReader.mk (entryOf c (batchData c ops) ++ rest) n).nextBatch c =
      (.ok (some ops), ⟨rest, n + (entryOf c (batchData c ops)).length⟩) := by
  rw [SegmentReader.nextBatch, oneEntry_entryOf hc hlen]
  simp only [batchData, hc.decode_encode, mapM_tryFromProto_toProto]

/-- Run lemma: a reader over the entries of a segment returns each batch with
its total, in order, and then the end of the file. -/
theorem iterate_entries (hc : c.Lawful) (id : ℕ) :
    ∀ (start : ℕ) (es : List (List (SequencedWalOp Op) × ℕ)), Entries c start es →
      ClosedSegmentFileReader.iterate c (es.length + 1)
          ⟨id, ⟨(es.map fun e => entryOf c (batchData c e.1)).flatten, start⟩⟩ =
        es.map (fun e => some (.ok e)) ++ [none]
  | start, [], _ => rfl
  | start, (ops, total) :: es, ⟨_, hlen, htotal, hes⟩ => by
    have hnext : ClosedSegmentFileReader.next c
        ⟨id, ⟨(((ops, total) :: es).map fun e => entryOf c (batchData c e.1)).flatten, start⟩⟩ =
        (some (.ok (ops, total)),
          ⟨id, ⟨(es.map fun e => entryOf c (batchData c e.1)).flatten, total⟩⟩) := by
      simp [ClosedSegmentFileReader.next, nextBatch_entryOf hc hlen, htotal]
    rw [List.length_cons, ClosedSegmentFileReader.iterate, hnext]
    simp [iterate_entries hc id total es hes]

/-- A segment file read from the start: the header gives the segment's id, and
the entries follow as in `iterate_entries`. -/
theorem readArray_append (xs rest : List UInt8) (n : ℕ) :
    (SegmentReader.mk (xs ++ rest) n).readArray xs.length = .ok (xs, ⟨rest, n + xs.length⟩) := by
  simp [SegmentReader.readArray]

theorem fromBytes_header_append (id : ℕ) (body : List UInt8) :
    ClosedSegmentFileReader.fromBytes (header id ++ body) =
      .ok ⟨id % 2 ^ 64, ⟨body, 16⟩⟩ := by
  have h8 : (toBytes 8 id).length = 8 := length_toBytes 8 id
  have hid : ofBytes (toBytes 8 id) = id % 2 ^ 64 := by
    rw [ofBytes_toBytes, show (256 : ℕ) ^ 8 = 2 ^ 64 from rfl]
  have hfirst : (SegmentReader.mk (fileTypeIdentifier ++ (toBytes 8 id ++ body)) 0).readArray 8 =
      .ok (fileTypeIdentifier, ⟨toBytes 8 id ++ body, 8⟩) :=
    readArray_append fileTypeIdentifier _ 0
  have hsecond : (SegmentReader.mk (toBytes 8 id ++ body) 8).readArray 8 =
      .ok (toBytes 8 id, ⟨body, 16⟩) := by
    simpa [h8] using readArray_append (toBytes 8 id) body 8
  simp only [ClosedSegmentFileReader.fromBytes, SegmentReader.readHeader, header,
    List.append_assoc, hfirst, hsecond, ne_eq, not_true_eq_false, if_false, hid]

end Codec

end IoxCore.Wal

import IoxCore.Tsm.Simple8b
import IoxCore.Lib.Varint
import IoxCore.Lib.Except
import Mathlib.Data.List.Chain

/-!
# The integer block codec

`influxdb_tsm::encoders::integer`: a block of `i64` values stored as zig-zag deltas, the first
value and then each value less the one before (computed with wrapping arithmetic). The high
four bits of the first byte say how the deltas are stored: run-length encoded when every delta
after the first is the same (`Rle`), as raw big-endian words when one does not fit simple8b
(`Uncompressed`), and otherwise the first raw and the rest packed with simple8b.

## The model

Values are `Int64` and deltas `UInt64`, the types of the source. `decode_uncompressed` and
`decode_rle` add with `wrapping_add`; `decode_simple8b` adds with `+=`, which in a debug build
panics on overflow: the model takes that addition as `checkedAdd`, a panic where `i64`
overflows. A decode fails with an error it returns or with a panic (`Failure`). The varints of
the run-length format are those of `integer_encoding` (`Varint`).

## Results

* `zigZagDecode_zigZagEncode`: zig-zag decoding undoes the encoding.
* `simple8bLoop_diffs`: the `+=` loop of `decode_simple8b` rebuilds the values exactly when
  each difference of neighbours is an `i64`, and panics otherwise.
* `decode_encode`: every block encodes, and decodes back to the values, except on the simple8b
  path when the difference of two neighbours leaves the `i64` range, where it panics;
  `decode_encode_max_min_panics` is that case at `[i64::MAX, i64::MIN]`.
* `decodeInto_after_prefix_differs`: `decode` appends to the vector it is given, and into an
  empty one gives the values back, but on the simple8b path it starts the running sum from the
  vector's first value, not from the block's: after a prefix whose first value differs from the
  block's, the block's later values come out shifted.
* `Unsigned.decode_after_prefix_differs`: `unsigned::decode` clears its vector first, and panics
  when the vector has room for more values than the block holds, so no prefix survives.
-/

namespace IoxCore.Tsm.Integer

variable {first : Int64} {rest : List Int64}

/-- `Encoding`: the format of a block, in the high four bits of its first byte. -/
inductive Encoding
  | uncompressed
  | simple8b
  | rle
  deriving DecidableEq, Repr

/-- `(encoding as u8) << 4`. -/
def Encoding.header : Encoding → UInt8
  | .uncompressed => (0 : UInt8) <<< 4
  | .simple8b => (1 : UInt8) <<< 4
  | .rle => (2 : UInt8) <<< 4

/-- `zig_zag_encode`. -/
def zigZagEncode (v : Int64) : UInt64 := ((v <<< 1) ^^^ (v >>> 63)).toUInt64

/-- `zig_zag_decode`. -/
def zigZagDecode (v : UInt64) : Int64 :=
  ((v >>> 1) ^^^ ((((v &&& 1).toInt64) <<< 63) >>> 63).toUInt64).toInt64

/-- The deltas after the first: `zig_zag_encode(deltas[i].wrapping_sub(deltas[i - 1]) as i64)`,
each value less the one before, as the loop computes them from the back. -/
def diffs : Int64 → List Int64 → List UInt64
  | _, [] => []
  | p, y :: ys => zigZagEncode (y.toUInt64 - p.toUInt64).toInt64 :: diffs y ys

/-- `encode_rle`: the first value raw, then the delta and the count as varints. -/
def encodeRle (v delta count : UInt64) : List UInt8 :=
  0 :: Simple8b.wordBytes v ++ Varint.encodeVar delta.toNat ++ Varint.encodeVar count.toNat

/-- Every delta after the first equals the second: the test for `Rle`. -/
def useRle (deltas : List UInt64) : Bool :=
  match deltas with
  | _ :: d :: rest => !rest.isEmpty && rest.all (· == d)
  | _ => false

/-- `encode`. -/
def encode (src : List Int64) : Except String (List UInt8) :=
  match src with
  | [] => .ok []
  | first :: rest =>
    let ds := diffs first rest
    let max := ds.foldl Max.max 0
    if useRle (zigZagEncode first :: ds) then
      -- the type in the high bits of the first byte
      match encodeRle (zigZagEncode first) (ds.headD 0) (UInt64.ofNat rest.length) with
      | b :: bytes => .ok ((b ||| Encoding.rle.header) :: bytes)
      | [] => .ok []
    else if max > Simple8b.maxValue then
      .ok (Encoding.uncompressed.header :: (zigZagEncode first :: ds).flatMap Simple8b.wordBytes)
    else
      (Simple8b.encode ds).map fun packed =>
        Encoding.simple8b.header :: Simple8b.wordBytes (zigZagEncode first) ++ packed

/-- The eight-byte word at the front of a block, `u64::from_be_bytes`. -/
def beWord (bs : List UInt8) : UInt64 := UInt64.ofNat (BigEndian.ofBytes (bs.take 8))

/-- The loop of `decode_uncompressed`: `prev = prev.wrapping_add(zig_zag_decode(word))` over the
eight-byte words. -/
def uncompressedLoop : Int64 → List UInt8 → List Int64
  | prev, b0 :: b1 :: b2 :: b3 :: b4 :: b5 :: b6 :: b7 :: rest =>
    let prev := prev + zigZagDecode (beWord [b0, b1, b2, b3, b4, b5, b6, b7])
    prev :: uncompressedLoop prev rest
  | _, _ => []

/-- `decode_uncompressed`. -/
def decodeUncompressed (src : List UInt8) : Except Failure (List Int64) :=
  if src.isEmpty ∨ src.length % 8 ≠ 0 then .error (.error "invalid uncompressed block length")
  else .ok (uncompressedLoop 0 src)

/-- The loop of `decode_rle`: `first = first.wrapping_add(delta_z)`, `count` times. -/
def rleLoop : ℕ → Int64 → Int64 → List Int64
  | 0, _, _ => []
  | count + 1, first, delta => (first + delta) :: rleLoop count (first + delta) delta

/-- `decode_rle`. -/
def decodeRle (src : List UInt8) : Except Failure (List Int64) :=
  if src.length < 8 then .error (.error "not enough data to decode using RLE")
  else
    match Varint.decodeVar (src.drop 8) with
    | none => .error (.error "unable to decode delta")
    | some (delta, n) =>
      match Varint.decodeVar (src.drop (8 + n)) with
      | none => .error (.error "unable to decode count")
      | some (count, _) =>
        let first := zigZagDecode (beWord src)
        .ok (first :: rleLoop count first (zigZagDecode (UInt64.ofNat delta)))

/-- `a + b` on `i64` in a debug build: `none` is the panic on overflow. -/
def checkedAdd (a b : Int64) : Option Int64 :=
  if -2 ^ 63 ≤ a.toInt + b.toInt ∧ a.toInt + b.toInt < 2 ^ 63 then some (a + b) else none

/-- The loop of `decode_simple8b`: `next += zig_zag_decode(v)` over the unpacked deltas. -/
def simple8bLoop : Int64 → List UInt64 → Option (List Int64)
  | _, [] => some []
  | next, v :: vs =>
    match checkedAdd next (zigZagDecode v) with
    | none => none
    | some next => (simple8bLoop next vs).map (next :: ·)

/-- `decode_simple8b`. -/
def decodeSimple8b (src : List UInt8) : Except Failure (List Int64) :=
  if src.length < 8 then .error (.error "not enough data to decode packed integer.")
  else
    let first := zigZagDecode (beWord src)
    match Simple8b.decode (src.drop 8) with
    | none => .error .panic
    | some res =>
      match simple8bLoop first res with
      | none => .error .panic
      | some rest => .ok (first :: rest)

/-- `decode`, into an empty vector. -/
def decode (src : List UInt8) : Except Failure (List Int64) :=
  match src with
  | [] => .ok []
  | b :: rest =>
    match (b >>> 4).toNat with
    | 0 => decodeUncompressed rest
    | 2 => decodeRle rest
    | 1 => decodeSimple8b rest
    | _ => .error (.error "invalid block encoding")

/-! ### Zig-zag and the wrapping deltas -/

@[simp] theorem zigZagDecode_zigZagEncode (x : Int64) : zigZagDecode (zigZagEncode x) = x := by
  apply Int64.toBitVec_inj.mp
  apply BitVec.eq_of_getLsbD_eq
  intro i hi
  have hsign : (x.toBitVec.sshiftRight 63)[0] = x.toBitVec[63] := by
    rw [← BitVec.getLsbD_eq_getElem, ← BitVec.getLsbD_eq_getElem, BitVec.getLsbD_sshiftRight]
    simp
  simp only [zigZagDecode, zigZagEncode, Int64.toBitVec_toUInt64, UInt64.toBitVec_toInt64,
    UInt64.toBitVec_xor, Int64.toBitVec_shiftRight, Int64.toBitVec_shiftLeft]
  simp [BitVec.getLsbD_sshiftRight, BitVec.getLsbD_shiftLeft, BitVec.msb_eq_getLsbD_last, hsign]
  -- bit 0 comes from the sign, bits 1 to 62 from the shifted value, bit 63 from both
  rcases Nat.lt_or_ge i 63 with h | h
  · by_cases h0 : i = 0
    · subst h0
      simp
    · simp [show ¬ 64 ≤ 1 + i by omega, show ¬ 63 + i < 64 by omega, show 1 + i < 64 by omega,
        show ¬ 63 + (1 + i) < 64 by omega, show ¬ 64 ≤ i by omega]
  · obtain rfl : i = 63 := by omega
    simp

/-- A delta of `diffs` decodes to the wrapping difference of the two values. -/
theorem zigZagDecode_delta (p y : Int64) :
    zigZagDecode (zigZagEncode (y.toUInt64 - p.toUInt64).toInt64) = y - p := by
  simp

/-- Adding the wrapping difference back gives the value: the `wrapping_add` of the decoders. -/
@[simp] theorem add_sub_cancel' (p y : Int64) : p + (y - p) = y := by
  rw [Int64.add_comm, Int64.sub_add_cancel]

@[simp] theorem length_diffs (p : Int64) (ys : List Int64) : (diffs p ys).length = ys.length := by
  induction ys generalizing p with
  | nil => rfl
  | cons y ys ih => simp [diffs, ih]

/-- The difference `y - x` of two values is itself an `i64`: the `+=` of `decode_simple8b` adding
it to `x` does not overflow. -/
def DiffFits (x y : Int64) : Prop := -2 ^ 63 ≤ y.toInt - x.toInt ∧ y.toInt - x.toInt < 2 ^ 63

instance (x y : Int64) : Decidable (DiffFits x y) := inferInstanceAs (Decidable (_ ∧ _))

/-- The checked addition of a wrapping difference succeeds exactly when the difference fits. -/
theorem checkedAdd_sub (p y : Int64) :
    checkedAdd p (y - p) = if DiffFits p y then some y else none := by
  have hp := Int64.le_toInt p
  have hp' := Int64.toInt_lt p
  have hy := Int64.le_toInt y
  have hy' := Int64.toInt_lt y
  have hsum : -2 ^ 63 ≤ p.toInt + (y - p).toInt ∧ p.toInt + (y - p).toInt < 2 ^ 63 ↔ DiffFits p y := by
    rw [Int64.toInt_sub, Int.bmod_def, DiffFits]
    split <;> omega
  rw [checkedAdd, add_sub_cancel', if_congr hsum rfl rfl]

/-! ### The three decoders on what `encode` writes -/

/-- The `+=` loop rebuilds the values from their deltas when every difference of neighbours is an
`i64`, and panics otherwise. -/
theorem simple8bLoop_diffs (p : Int64) (ys : List Int64) :
    simple8bLoop p (diffs p ys) = if List.IsChain DiffFits (p :: ys) then some ys else none := by
  induction ys generalizing p with
  | nil => simp [diffs, simple8bLoop]
  | cons y ys ih =>
    rw [diffs, simple8bLoop, zigZagDecode_delta, checkedAdd_sub]
    simp only [List.isChain_cons_cons]
    by_cases hfit : DiffFits p y
    · simp only [if_pos hfit]
      rw [ih]
      simp only [hfit, true_and]
      split <;> rfl
    · simp [hfit]

theorem beWord_wordBytes_append (w : UInt64) (rest : List UInt8) :
    beWord (Simple8b.wordBytes w ++ rest) = w := by
  rw [beWord, List.take_append_of_le_length (by simp), List.take_of_length_le (by simp),
    Simple8b.ofBytes_wordBytes]

/-- `decode_uncompressed` reads one word off the front. -/
theorem uncompressedLoop_wordBytes (prev : Int64) (w : UInt64) (rest : List UInt8) :
    uncompressedLoop prev (Simple8b.wordBytes w ++ rest) =
      (prev + zigZagDecode w) :: uncompressedLoop (prev + zigZagDecode w) rest := by
  obtain ⟨b0, b1, b2, b3, b4, b5, b6, b7, hb⟩ :=
    Simple8b.eq_of_length_eq_eight (Simple8b.length_wordBytes w)
  have hword := beWord_wordBytes_append w []
  rw [List.append_nil, hb] at hword
  rw [hb]
  simp only [List.cons_append, List.nil_append, uncompressedLoop, hword]

theorem uncompressedLoop_diffs (p : Int64) (ys : List Int64) :
    uncompressedLoop p ((diffs p ys).flatMap Simple8b.wordBytes) = ys := by
  induction ys generalizing p with
  | nil => simp [diffs, uncompressedLoop]
  | cons y ys ih => rw [diffs, List.flatMap_cons, uncompressedLoop_wordBytes, zigZagDecode_delta,
      add_sub_cancel', ih]

/-- `count` steps of `decode_rle` rebuild values whose deltas all decode to `delta`. -/
theorem rleLoop_diffs (delta : Int64) :
    ∀ (p : Int64) (ys : List Int64), (∀ d ∈ diffs p ys, zigZagDecode d = delta) →
      rleLoop ys.length p delta = ys
  | _, [], _ => rfl
  | p, y :: ys, h => by
    have hy : y - p = delta := by simpa using h _ List.mem_cons_self
    have hstep : p + delta = y := by rw [← hy, add_sub_cancel']
    have htail : ∀ d ∈ diffs y ys, zigZagDecode d = delta := fun d hd =>
      h d (List.mem_cons_of_mem _ hd)
    rw [List.length_cons, rleLoop, hstep, rleLoop_diffs delta y ys htail]

/-! ### The round trip -/

/-- The running maximum of the encoder is at most `M` exactly when every delta is. -/
theorem foldl_max_le_iff (M : UInt64) :
    ∀ (acc : UInt64) (ds : List UInt64), ds.foldl max acc ≤ M ↔ acc ≤ M ∧ ∀ d ∈ ds, d ≤ M
  | acc, [] => by simp
  | acc, d :: ds => by
    rw [List.foldl_cons, foldl_max_le_iff M (max acc d) ds, UInt64.le_iff_toNat_le,
      UInt64.toNat_max, max_le_iff, ← UInt64.le_iff_toNat_le, ← UInt64.le_iff_toNat_le]
    simp [and_assoc]

/-- `useRle` holds of a run whose deltas after the first all equal the second. -/
theorem useRle_spec {z : UInt64} {ds : List UInt64} (h : useRle (z :: ds) = true) :
    ∀ d ∈ ds, d = ds.headD 0 := by
  match ds, h with
  | d :: rest, h =>
    simp only [useRle, Bool.and_eq_true, Bool.not_eq_true', List.all_eq_true, beq_iff_eq] at h
    intro x hx
    rcases List.mem_cons.1 hx with rfl | hx
    · rfl
    · exact h.2 x hx

theorem decode_encode_rle (hlen : rest.length < 2 ^ 64)
    (hrle : useRle (zigZagEncode first :: diffs first rest) = true) :
    ∃ bytes, encode (first :: rest) = .ok bytes ∧ decode bytes = .ok (first :: rest) := by
  obtain ⟨delta, hd⟩ : ∃ d, (diffs first rest).headD 0 = d := ⟨_, rfl⟩
  obtain ⟨count, hc⟩ : ∃ c, UInt64.ofNat rest.length = c := ⟨_, rfl⟩
  have hcount : count.toNat = rest.length := by
    rw [← hc, UInt64.toNat_ofNat', Nat.mod_eq_of_lt hlen]
  have hdelta : ∀ d ∈ diffs first rest, zigZagDecode d = zigZagDecode delta := fun d hd' =>
    congrArg zigZagDecode (hd ▸ useRle_spec hrle d hd')
  refine ⟨(0 ||| Encoding.rle.header) :: (Simple8b.wordBytes (zigZagEncode first) ++
    Varint.encodeVar delta.toNat ++ Varint.encodeVar count.toNat),
    by simp only [encode, if_pos hrle, encodeRle, List.cons_append, hd, hc], ?_⟩
  -- the run-length block: the first value, then the delta and the count as varints
  have hdrop : (Simple8b.wordBytes (zigZagEncode first) ++ Varint.encodeVar delta.toNat ++
      Varint.encodeVar count.toNat).drop 8 =
      Varint.encodeVar delta.toNat ++ Varint.encodeVar count.toNat := by
    rw [List.append_assoc, List.drop_left' (Simple8b.length_wordBytes _)]
  have hdrop' : (Simple8b.wordBytes (zigZagEncode first) ++ Varint.encodeVar delta.toNat ++
      Varint.encodeVar count.toNat).drop (8 + (Varint.encodeVar delta.toNat).length) =
      Varint.encodeVar count.toNat := by
    rw [List.append_assoc, ← List.drop_drop, List.drop_left' (Simple8b.length_wordBytes _),
      List.drop_left]
  have hvar := Varint.decodeVar_encodeVar delta.toNat_lt (Varint.encodeVar count.toNat)
  have hvar' := Varint.decodeVar_encodeVar count.toNat_lt []
  rw [List.append_nil] at hvar'
  have hshift : ((0 ||| Encoding.rle.header) >>> 4).toNat = 2 := by decide
  simp only [decode, hshift, decodeRle, hdrop, hvar, hdrop', hvar']
  rw [List.append_assoc, beWord_wordBytes_append, zigZagDecode_zigZagEncode, UInt64.ofNat_toNat,
    hcount, rleLoop_diffs _ first rest hdelta]
  simp

theorem decode_encode_uncompressed (hrle : useRle (zigZagEncode first :: diffs first rest) = false)
    (hbig : (diffs first rest).foldl max 0 > Simple8b.maxValue) :
    ∃ bytes, encode (first :: rest) = .ok bytes ∧ decode bytes = .ok (first :: rest) := by
  refine ⟨Encoding.uncompressed.header ::
    (zigZagEncode first :: diffs first rest).flatMap Simple8b.wordBytes,
    by simp only [encode, hrle, Bool.false_eq_true, if_false, if_pos hbig], ?_⟩
  have hshift : (Encoding.uncompressed.header >>> 4).toNat = 0 := by decide
  have hlen : ((zigZagEncode first :: diffs first rest).flatMap Simple8b.wordBytes).length =
      8 * (rest.length + 1) := by
    simp [List.length_flatMap]
    omega
  have hsize : ¬ (((zigZagEncode first :: diffs first rest).flatMap Simple8b.wordBytes).isEmpty ∨
      ((zigZagEncode first :: diffs first rest).flatMap Simple8b.wordBytes).length % 8 ≠ 0) := by
    rw [List.isEmpty_iff_length_eq_zero, hlen]
    omega
  rw [decode, hshift, decodeUncompressed, if_neg hsize, List.flatMap_cons,
    uncompressedLoop_wordBytes, zigZagDecode_zigZagEncode, Int64.zero_add, uncompressedLoop_diffs]
  rfl

theorem decode_encode_simple8b (hrle : useRle (zigZagEncode first :: diffs first rest) = false)
    (hsmall : ¬ (diffs first rest).foldl max 0 > Simple8b.maxValue) :
    ∃ bytes, encode (first :: rest) = .ok bytes ∧
      decode bytes = if List.IsChain DiffFits (first :: rest) then .ok (first :: rest)
        else .error .panic := by
  have hfit : ∀ d ∈ diffs first rest, d ≤ Simple8b.maxValue :=
    ((foldl_max_le_iff _ 0 _).1 (UInt64.not_lt.1 hsmall)).2
  obtain ⟨packed, henc, hdec⟩ := Simple8b.decode_encode hfit
  refine ⟨Encoding.simple8b.header :: Simple8b.wordBytes (zigZagEncode first) ++ packed,
    by simp only [encode, hrle, Bool.false_eq_true, if_false, if_neg hsmall, henc]; rfl, ?_⟩
  have hshift : (Encoding.simple8b.header >>> 4).toNat = 1 := by decide
  have hshort : ¬ (Simple8b.wordBytes (zigZagEncode first) ++ packed).length < 8 := by simp
  rw [List.cons_append, decode, hshift, decodeSimple8b, if_neg hshort, beWord_wordBytes_append,
    zigZagDecode_zigZagEncode, List.drop_left' (Simple8b.length_wordBytes _), hdec]
  simp only [simple8bLoop_diffs]
  by_cases hchain : List.IsChain DiffFits (first :: rest)
  · simp only [if_pos hchain]
  · simp only [if_neg hchain]

/-- The format `encode` picks for a block of at least one value. -/
def blockEncoding (first : Int64) (rest : List Int64) : Encoding :=
  let ds := diffs first rest
  if useRle (zigZagEncode first :: ds) then .rle
  else if ds.foldl max 0 > Simple8b.maxValue then .uncompressed
  else .simple8b

/-- Every block of fewer than `2^64` values encodes, and decodes back to itself, except on the
simple8b path when the difference of two neighbours leaves the `i64` range: there the `+=` of
`decode_simple8b` overflows. -/
theorem decode_encode (first : Int64) (rest : List Int64) (hlen : rest.length < 2 ^ 64) :
    ∃ bytes, encode (first :: rest) = .ok bytes ∧
      decode bytes = if blockEncoding first rest = .simple8b ∧ ¬ List.IsChain DiffFits (first :: rest)
        then .error .panic else .ok (first :: rest) := by
  by_cases hrle : useRle (zigZagEncode first :: diffs first rest) = true
  · have henc : blockEncoding first rest = .rle := by simp [blockEncoding, hrle]
    simpa [henc] using decode_encode_rle hlen hrle
  · rw [Bool.not_eq_true] at hrle
    by_cases hbig : (diffs first rest).foldl max 0 > Simple8b.maxValue
    · have henc : blockEncoding first rest = .uncompressed := by simp [blockEncoding, hrle, hbig]
      simpa [henc] using decode_encode_uncompressed hrle hbig
    · have henc : blockEncoding first rest = .simple8b := by simp [blockEncoding, hrle, hbig]
      obtain ⟨bytes, h, hdec⟩ := decode_encode_simple8b hrle hbig
      refine ⟨bytes, h, ?_⟩
      rw [hdec, henc]
      split <;> simp_all

/-- `[i64::MAX, i64::MIN]` takes the simple8b path, whose `+=` overflows on the single delta. -/
theorem decode_encode_max_min_panics :
    ∃ bytes, encode [Int64.maxValue, Int64.minValue] = .ok bytes ∧ decode bytes = .error .panic := by
  obtain ⟨bytes, henc, hdec⟩ := decode_encode Int64.maxValue [Int64.minValue] (by decide)
  have hpath : blockEncoding Int64.maxValue [Int64.minValue] = .simple8b := by decide
  have hwrap : ¬ List.IsChain DiffFits [Int64.maxValue, Int64.minValue] := by decide
  exact ⟨bytes, henc, by rw [hdec, if_pos ⟨hpath, hwrap⟩]⟩

/-! ### Decoding after what the vector holds -/

/-- `decode_simple8b` into `dst`: the first value is pushed, and the running sum then starts from
`dst[0]`, the first value of the whole vector. -/
def decodeSimple8bInto (src : List UInt8) (dst : List Int64) : Except Failure (List Int64) :=
  if src.length < 8 then .error (.error "not enough data to decode packed integer.")
  else
    let dst := dst ++ [zigZagDecode (beWord src)]
    match Simple8b.decode (src.drop 8) with
    | none => .error .panic
    | some res =>
      -- `let mut next = dst[0]`
      match simple8bLoop (dst.headD 0) res with
      | none => .error .panic
      | some rest => .ok (dst ++ rest)

/-- `decode` into `dst`. The uncompressed and run-length decoders push each value they compute
onto `dst`, after checks that fail before the first push. -/
def decodeInto (src : List UInt8) (dst : List Int64) : Except Failure (List Int64) :=
  match src with
  | [] => .ok dst
  | b :: rest =>
    match (b >>> 4).toNat with
    | 0 => (decodeUncompressed rest).map (dst ++ ·)
    | 2 => (decodeRle rest).map (dst ++ ·)
    | 1 => decodeSimple8bInto rest dst
    | _ => .error (.error "invalid block encoding")

/-- The block `encode` writes on the simple8b path: the header, the first value raw and the
packed deltas. -/
theorem encode_of_simple8b (hpath : blockEncoding first rest = .simple8b) :
    ∃ packed, encode (first :: rest) =
        .ok (Encoding.simple8b.header :: Simple8b.wordBytes (zigZagEncode first) ++ packed) ∧
      Simple8b.decode packed = some (diffs first rest) := by
  simp only [blockEncoding] at hpath
  split_ifs at hpath with hrle hsmall
  have hfit : ∀ d ∈ diffs first rest, d ≤ Simple8b.maxValue :=
    ((foldl_max_le_iff _ 0 _).1 (UInt64.not_lt.1 hsmall)).2
  obtain ⟨packed, henc, hdec⟩ := Simple8b.decode_encode hfit
  refine ⟨packed, ?_, hdec⟩
  simp only [encode, hrle, Bool.false_eq_true, if_false, if_neg hsmall, henc]
  rfl

/-- On the simple8b path, decoding after a prefix `d0 :: ds` runs the sum from `d0`. -/
theorem decodeInto_simple8b (hpath : blockEncoding first rest = .simple8b) (dst : List Int64) :
    ∃ bytes, encode (first :: rest) = .ok bytes ∧
      decodeInto bytes dst = match simple8bLoop ((dst ++ [first]).headD 0) (diffs first rest) with
        | none => .error .panic
        | some vs => .ok (dst ++ [first] ++ vs) := by
  obtain ⟨packed, henc, hdec⟩ := encode_of_simple8b hpath
  refine ⟨_, henc, ?_⟩
  have hshift : (Encoding.simple8b.header >>> 4).toNat = 1 := by decide
  have hshort : ¬ (Simple8b.wordBytes (zigZagEncode first) ++ packed).length < 8 := by simp
  rw [List.cons_append, decodeInto, hshift, decodeSimple8bInto, if_neg hshort,
    beWord_wordBytes_append, zigZagDecode_zigZagEncode,
    List.drop_left' (Simple8b.length_wordBytes _), hdec]
  rfl

/-- The code's bug: after a prefix whose first value is not the block's first value, the values
after the block's first are not what decoding into an empty vector gives, which is the block. -/
theorem decodeInto_after_prefix_differs {first r : Int64} {rs : List Int64}
    (hpath : blockEncoding first (r :: rs) = .simple8b)
    (hchain : List.IsChain DiffFits (first :: r :: rs)) {d0 : Int64} (hd0 : d0 ≠ first)
    (ds : List Int64) :
    ∃ bytes, encode (first :: r :: rs) = .ok bytes ∧ decodeInto bytes [] = .ok (first :: r :: rs) ∧
      decodeInto bytes (d0 :: ds) ≠ .ok (d0 :: ds ++ first :: r :: rs) := by
  obtain ⟨bytes, henc, hdec⟩ := decodeInto_simple8b hpath (d0 :: ds)
  obtain ⟨bytes', henc', hdec'⟩ := decodeInto_simple8b hpath []
  rw [henc, Except.ok.injEq] at henc'
  subst henc'
  refine ⟨bytes, henc, ?_, ?_⟩
  · rw [hdec', List.nil_append, List.headD_cons, simple8bLoop_diffs, if_pos hchain]
    rfl
  · rw [hdec, List.cons_append, List.headD_cons, diffs, simple8bLoop, zigZagDecode_delta]
    -- the first sum is `d0 + (r - first)`, which is `r` only when `d0` is `first`
    cases hadd : checkedAdd d0 (r - first) with
    | none => simp
    | some x =>
      have hx : x = d0 + (r - first) := by
        simp only [checkedAdd] at hadd
        split_ifs at hadd
        exact (Option.some.inj hadd).symm
      simp only
      cases simple8bLoop x (diffs r rs) with
      | none => simp
      | some xs =>
        simp only [Option.map_some, ne_eq, Except.ok.injEq]
        intro heq
        have hxr : x = r := (by simpa using heq : x = r ∧ xs = rs).1
        rw [hx] at hxr
        exact hd0 ((Int64.add_left_inj (r - first)).1 (hxr.trans (add_sub_cancel' first r).symm))

/-- Three values on the simple8b path decoded after the prefix `[100]`: the sum starts from `100`,
and the block's `1, 3` come out as `101, 103`. -/
theorem decodeInto_after_prefix_hundred :
    ∃ bytes, encode [0, 1, 3] = .ok bytes ∧ decodeInto bytes [] = .ok [0, 1, 3] ∧
      decodeInto bytes [100] ≠ .ok [100, 0, 1, 3] :=
  decodeInto_after_prefix_differs (by decide) (by decide) (by decide) []

end IoxCore.Tsm.Integer

namespace IoxCore.Tsm.Unsigned

/-- `unsigned::decode` into `dst`, a vector with room for `capacity` values: the block is decoded
as integers, then `dst` is cleared and `reserve_exact(len - capacity)` is asked for, a `usize`
subtraction that underflows, a panic, when the vector has room for more values than the block
holds. -/
def decode (src : List UInt8) (dst : List UInt64) (capacity : ℕ) : Except Failure (List UInt64) :=
  if src.isEmpty then .ok dst
  else do
    let signed ← Integer.decode src
    if signed.length < capacity then .error .panic
    else .ok (signed.map Int64.toUInt64)

/-- Decoding a block into a vector that holds values already does not keep them: it panics, or
leaves the block's values alone, while into an empty vector it gives the block's values. -/
theorem decode_after_prefix_differs {src : List UInt8} {vs : List Int64} (hne : src ≠ [])
    (hdec : Integer.decode src = .ok vs) {dst : List UInt64} (hdst : dst ≠ []) (capacity : ℕ) :
    decode src [] 0 = .ok (vs.map Int64.toUInt64) ∧
      decode src dst capacity ≠ .ok (dst ++ vs.map Int64.toUInt64) := by
  have hsrc : src.isEmpty = false := List.isEmpty_eq_false_iff.2 hne
  refine ⟨by simp [decode, hsrc, hdec], ?_⟩
  simp only [decode, hsrc, hdec, Bool.false_eq_true, if_false, bind, Except.bind]
  split_ifs with hcap
  · exact nofun
  · -- what is left is the block's values alone, shorter than `dst` followed by them
    intro heq
    have hlen := congrArg List.length (Except.ok.inj heq)
    simp only [List.length_append, List.length_map] at hlen
    exact hdst (List.eq_nil_of_length_eq_zero (by omega))

end IoxCore.Tsm.Unsigned

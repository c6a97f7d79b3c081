import IoxCore.Lib.BigEndian
import IoxCore.Lib.Except

/-!
# The float block codec

`influxdb_tsm::encoders::float`: the Gorilla encoding of a block of `f64` values, taken here as
their bit patterns. A header byte and the first value raw; then each value as its XOR with the
one before, most significant bit first: a `0` bit when it is the same value; else a `1` bit and
either a `0` bit and the bits of the window of the last value that opened one, or a `1` bit, the
leading zero count in five bits, the number of meaningful bits in six (64 written as 0) and the
meaningful bits. The block ends with the XOR of the `SENTINEL` NaN pattern, where the decoder
stops; the encoder refuses a later value equal to it.

## The model

The encoder keeps the source's byte buffer and bit count: `dst[n >> 3] |= ..`, the loops and
tests that push zero bytes, the eight-byte overwrite of `clone_from_slice` and the final
`truncate`. An index past the buffer is a panic. The decoder keeps the source's rotating cache
(`refill_cache`, `rotate_left`) and its two reads of a field that runs past the cache, which
differ in how they take the rest off the new cache's count: a checked `-=` for the eleven bits of
a window, `wrapping_sub` for the meaningful bits (`readField`). A decode that fails returns the
failure, not the values pushed before it.

The decode loop is well founded (`decodePass_decreases`): each pass reads a control bit, and a
refill consumes at least one byte while the count of bits in the cache stays below 256.

## Results

* `decode_of_length_eq_nine`: a block of nine bytes, a header and one raw value, does not
  decode: the decoder refills its cache before it reads any control bit.
* `decode_encode_sentinel_first`: the encoder checks every value against the sentinel but the
  first, so the block of the single value `SENTINEL` encodes to nine bytes, which do not decode.
-/

namespace IoxCore.Tsm.Float

variable {src : List UInt8}

/-- `SENTINEL`: the quiet NaN pattern that ends a block. -/
def sentinel : UInt64 := 0x7ff8_0000_0000_00ff

/-- `SENTINEL_INFLUXDB`: the pattern that ends a block written by InfluxDB. -/
def sentinelInfluxdb : UInt64 := 0x7ff8_0000_0000_0001

/-! ### The encoder -/

/-- `dst[i] |= b`, a panic past the end of the buffer. -/
def orAt (dst : List UInt8) (i : ℕ) (b : UInt8) : Except Failure (List UInt8) :=
  if i < dst.length then .ok (dst.modify i (· ||| b)) else .error .panic

/-- `while m >= dst.len() { dst.push(0) }`. -/
def growPast (dst : List UInt8) (m : ℕ) : List UInt8 :=
  dst ++ List.replicate (m + 1 - dst.length) 0

/-- `if m >= dst.len() { dst.push(0) }`: one byte at most. -/
def pushIfShort (dst : List UInt8) (m : ℕ) : List UInt8 :=
  if m ≥ dst.length then dst ++ [0] else dst

/-- `dst[n >> 3] |= 128 >> (n & 7)`: a set bit at bit `n`. -/
def setBit (dst : List UInt8) (n : ℕ) : Except Failure (List UInt8) :=
  orAt dst (n >>> 3) ((128 : UInt8) >>> UInt8.ofNat (n &&& 7))

/-- Writes the low `l` bits of `x` at bit `n`: the five bits of the leading count (`l = 5`, with
the test `m <= 3`) or the six of the meaningful bit count (`l = 6`, with `m <= 2`). They go into
the current byte when they fit, else into its rest and the next byte. -/
def writeSmall (l : ℕ) (x : UInt64) (n : ℕ) (dst : List UInt8) :
    Except Failure (ℕ × List UInt8) := do
  let dst := pushIfShort dst ((n + l) >>> 3)
  let m := n &&& 7
  let v := x <<< UInt64.ofNat (64 - l)
  let mask := v >>> 56
  if m ≤ 8 - l then
    let dst ← orAt dst (n >>> 3) (mask >>> UInt64.ofNat m).toUInt8
    return (n + l, dst)
  else
    let written := 8 - m
    let dst ← orAt dst (n >>> 3) (mask >>> UInt64.ofNat m).toUInt8
    let n := n + written
    let mask := (v <<< UInt64.ofNat written) >>> 56
    let m := n &&& 7
    let dst ← orAt dst (n >>> 3) (mask >>> UInt64.ofNat m).toUInt8
    return (n + (l - written), dst)

/-- `vv = v << written` over the eight bytes from byte `n >> 3`, after the loop that grows the
buffer past them (so `clone_from_slice` never indexes past it). -/
def writeWord (l : ℕ) (v : UInt64) (written n : ℕ) (dst : List UInt8) : ℕ × List UInt8 :=
  let vv := v <<< UInt64.ofNat written
  let dst := growPast dst ((n >>> 3) + 8)
  let k := n >>> 3
  (n + (l - written), dst.take k ++ BigEndian.toBytes 8 vv.toNat ++ dst.drop (k + 8))

/-- Writes the `l` bits at the top of `v` at bit `n`: the rest of the current byte, and what is
left with `writeWord`. -/
def writeMeaningful (l : ℕ) (v : UInt64) (n : ℕ) (dst : List UInt8) :
    Except Failure (ℕ × List UInt8) :=
  let m := n &&& 7
  if 0 < m then do
    let written := if l < 8 - m then l else 8 - m
    let dst ← orAt dst (n >>> 3) ((v >>> 56) >>> UInt64.ofNat m).toUInt8
    if l - written = 0 then return (n + written, dst)
    else return writeWord l v written (n + written) dst
  else .ok (writeWord l v 0 n dst)

/-- The encoder between two values: the bits written, the buffer, the previous value, and the
window of the last value that opened one (`!0` before any). -/
structure Encoder where
  n : ℕ
  dst : List UInt8
  prev : UInt64
  prevLeading : UInt64
  prevTrailing : UInt64

/-- `u64::leading_zeros`. -/
def leadingZeros (x : UInt64) : UInt64 := UInt64.ofBitVec x.toBitVec.clz

/-- `u64::trailing_zeros`. -/
def trailingZeros (x : UInt64) : UInt64 := UInt64.ofBitVec x.toBitVec.ctz

/-- One pass of the loop of `encode`, for the value `cur`. -/
def encodeValue (e : Encoder) (cur : UInt64) : Except Failure Encoder := do
  let vDelta := cur ^^^ e.prev
  if vDelta = 0 then
    return { e with n := e.n + 1, prev := cur }
  let dst := growPast e.dst (e.n >>> 3)
  let dst ← setBit dst e.n
  let n := e.n + 1
  -- at most 31 leading zeros, to fit in five bits
  let leading := leadingZeros vDelta &&& 0b1_1111
  let trailing := trailingZeros vDelta
  let dst := pushIfShort dst ((n + 2) >>> 3)
  if e.prevLeading ≠ ~~~0 ∧ leading ≥ e.prevLeading ∧ trailing ≥ e.prevTrailing then
    let n := n + 1
    let l := 64 - e.prevLeading - e.prevTrailing
    let dst := growPast dst ((n + 1) >>> 3)
    let v := (vDelta >>> e.prevTrailing) <<< (64 - l)
    let (n, dst) ← writeMeaningful l.toNat v n dst
    return { e with n, dst, prev := cur }
  else
    let dst ← setBit dst n
    let n := n + 1
    let (n, dst) ← writeSmall 5 leading n dst
    let sigBits := 64 - leading - trailing
    let (n, dst) ← writeSmall 6 sigBits n dst
    let l := sigBits.toNat
    let v := (vDelta >>> trailing) <<< UInt64.ofNat (64 - l)
    let dst := growPast dst ((n + l) >>> 3)
    let (n, dst) ← writeMeaningful l v n dst
    return { n, dst, prev := cur, prevLeading := leading, prevTrailing := trailing }

/-- The loop of `encode` over the values after the first, and then the sentinel. -/
def encodeLoop (e : Encoder) : List UInt64 → Except Failure Encoder
  | [] => encodeValue e sentinel
  | x :: xs =>
    if x = sentinel then .error (.error "unsupported value")
    else do encodeLoop (← encodeValue e x) xs

/-- `encode`: the header byte, the first value raw, the loop, and the buffer cut to the bytes
the bits reach. -/
def encode (src : List UInt64) : Except Failure (List UInt8) :=
  match src with
  | [] => .ok []
  | first :: rest => do
    let e ← encodeLoop ⟨72, ((1 : UInt8) <<< 4) :: BigEndian.toBytes 8 first.toNat, first, ~~~0, 0⟩
      rest
    let length := (e.n >>> 3) + if e.n &&& 7 > 0 then 1 else 0
    return e.dst.take length

/-! ### The decoder -/

/-- `BIT_MASK[i]`: the `i` low bits, and all 64 at index 0. -/
def bitMask (i : ℕ) : UInt64 := if i = 0 then ~~~0 else ((1 : UInt64) <<< UInt64.ofNat i) - 1

/-- `u64::rotate_left`. -/
def rotl (x : UInt64) (k : ℕ) : UInt64 := UInt64.ofBitVec (x.toBitVec.rotateLeft k)

/-- `u64::rotate_right`. -/
def rotr (x : UInt64) (k : ℕ) : UInt64 := UInt64.ofBitVec (x.toBitVec.rotateRight k)

/-- Where the decoder is: the next byte to load (`i`), the cache and how many of its bits are
left to read (`br_cached_val`, `br_valid_bits`). The bits to read are the high ones, and each
read rotates them to the bottom. -/
structure Reader where
  i : ℕ
  cachedVal : UInt64
  validBits : UInt8

/-- `refill_cache(i)`, with `i += n`: the next eight bytes, or the last few, placed at the top of
the cache. -/
def refillCache (src : List UInt8) (i : ℕ) : Except Failure Reader :=
  let remaining := src.length - i
  if remaining ≥ 8 then
    .ok ⟨i + 8, UInt64.ofNat (BigEndian.ofBytes ((src.drop i).take 8)), 64⟩
  else if remaining > 0 then
    let valid := UInt8.ofNat (remaining * 8)
    let cached := (src.drop i).foldl (fun (acc : UInt64) v => (acc <<< 8) ||| v.toUInt64) 0
    .ok ⟨i + remaining, rotr cached valid.toNat, valid⟩
  else .error (.error "unexpected end of block")

/-- `if br_valid_bits == 0 { refill_cache }`. -/
def ensureBits (src : List UInt8) (r : Reader) : Except Failure Reader :=
  if r.validBits = 0 then refillCache src r.i else .ok r

/-- A control bit into the low bit of the cache: `br_valid_bits -= 1`, `rotate_left(1)`; after
`ensureBits` the count is positive. -/
def readBit (r : Reader) : Reader :=
  { r with validBits := r.validBits - 1, cachedVal := rotl r.cachedVal 1 }

/-- `-=` on `u8` in a debug build. -/
def checkedSub (a b : UInt8) : Except Failure UInt8 := if b ≤ a then .ok (a - b) else .error .panic

/-- `u8::wrapping_sub`. -/
def wrappingSub (a b : UInt8) : Except Failure UInt8 := .ok (a - b)

/-- Reads `k` bits into the low bits of the result: from the cache when it holds them; else the
bits it holds, a refill, and the rest from the new cache, whose count then drops by the rest
with `sub`. -/
def readField (sub : UInt8 → UInt8 → Except Failure UInt8) (src : List UInt8) (k : UInt8)
    (r : Reader) : Except Failure (UInt64 × Reader) :=
  if r.validBits ≥ k then
    let c := rotl r.cachedVal k.toNat
    .ok (c, { r with validBits := r.validBits - k, cachedVal := c })
  else do
    let (rest, low) := if r.validBits > 0 then (k - r.validBits, rotl r.cachedVal k.toNat)
      else (k, 0)
    let r' ← refillCache src r.i
    let c := rotl r'.cachedVal rest.toNat
    let valid ← sub r'.validBits rest
    let mask := bitMask (rest &&& 0x3f).toNat
    return ((low &&& ~~~mask) ||| (c &&& mask), { r' with cachedVal := c, validBits := valid })

/-- The window of a new value from its eleven bits: the leading count in the high five and the
meaningful count in the low six, 0 standing for 64; the trailing count `64 - leading_n -
meaningful_n` is a checked `u8` subtraction. The trailing and meaningful counts. -/
def window (lmBits : UInt64) : Except Failure (UInt8 × UInt8) :=
  let lmBits := lmBits &&& 0x7ff
  let leadingN := (lmBits >>> 6).toUInt8 &&& 0x1f
  let meaningfulN := (lmBits &&& 0x3f).toUInt8
  if meaningfulN > 0 then do
    let t ← checkedSub 64 leadingN
    let t ← checkedSub t meaningfulN
    return (t, meaningfulN)
  else .ok (0, 64)

/-- The decoder between two passes: where it reads, the last value and its window. -/
structure Decoder where
  reader : Reader
  val : UInt64
  trailingN : UInt8
  meaningfulN : UInt8

/-- After control bit 1: a new window from the next eleven bits when the bit is set, else the
last one. The reader after it, and the trailing and meaningful counts. -/
def nextWindow (src : List UInt8) (d : Decoder) (r : Reader) :
    Except Failure (Reader × UInt8 × UInt8) :=
  if r.cachedVal &&& 1 > 0 then do
    let (lmBits, r) ← readField checkedSub src 11 r
    let (t, m) ← window lmBits
    return (r, t, m)
  else .ok (r, d.trailingN, d.meaningfulN)

/-- One pass of the loop of `decode_with_sentinel`: the value it pushes and the decoder after
it, or `none` at the sentinel (`break`). -/
def decodePass (src : List UInt8) (sentinel : UInt64) (d : Decoder) :
    Except Failure (Option (UInt64 × Decoder)) := do
  -- control bit 0: the same value again
  let r := readBit (← ensureBits src d.reader)
  if r.cachedVal &&& 1 = 0 then
    return some (d.val, { d with reader := r })
  -- control bit 1
  let r := readBit (← ensureBits src r)
  let (r, trailingN, meaningfulN) ← nextWindow src d r
  let (sBits, r) ← readField wrappingSub src meaningfulN r
  let sBits := sBits &&& bitMask (meaningfulN &&& 0x3f).toNat
  let val := d.val ^^^ (sBits <<< (trailingN &&& 0x3f).toUInt64)
  if val = sentinel then return none
  return some (val, ⟨r, val, trailingN, meaningfulN⟩)

/-! ### The decode loop terminates -/

/-- What the decoder has left: the bytes not yet loaded, at 256 a byte (more than a cache can
count), and the bits in the cache. -/
def Reader.measure (src : List UInt8) (r : Reader) : ℕ :=
  (src.length - r.i) * 256 + r.validBits.toNat

/-- A refill loads at least one byte of the block and leaves bits in the cache. -/
theorem refillCache_spec {i : ℕ} {r : Reader} (h : refillCache src i = .ok r) :
    i < r.i ∧ r.i ≤ src.length ∧ 0 < r.validBits.toNat := by
  unfold refillCache at h
  dsimp only at h
  split at h
  · cases h
    exact ⟨by simp only; omega, by simp only; omega, by simp⟩
  · split at h
    · cases h
      have hlow : (UInt8.ofNat ((src.length - i) * 8)).toNat = (src.length - i) * 8 :=
        UInt8.toNat_ofNat_of_lt (lt_of_lt_of_eq (by omega : (src.length - i) * 8 < 256) rfl)
      refine ⟨?_, ?_, ?_⟩ <;> simp only [hlow] <;> omega
    · cases h

theorem measure_refillCache {i : ℕ} {r : Reader} (h : refillCache src i = .ok r) :
    r.measure src < (src.length - i) * 256 := by
  obtain ⟨hi, hlen, -⟩ := refillCache_spec h
  have hbits := r.validBits.toNat_lt
  unfold Reader.measure
  omega

theorem ensureBits_spec {r r' : Reader} (h : ensureBits src r = .ok r') :
    r'.measure src ≤ r.measure src ∧ 0 < r'.validBits.toNat := by
  unfold ensureBits at h
  split at h
  · have := measure_refillCache h
    exact ⟨by unfold Reader.measure at *; omega, (refillCache_spec h).2.2⟩
  · cases h
    rename_i hne
    exact ⟨le_rfl, Nat.pos_of_ne_zero fun h0 => hne (UInt8.toNat_inj.1 h0)⟩

theorem measure_readBit {r : Reader} (h : 0 < r.validBits.toNat) :
    (readBit r).measure src < r.measure src := by
  have hsub : (r.validBits - 1).toNat = r.validBits.toNat - 1 :=
    UInt8.toNat_sub_of_le _ _ (UInt8.le_iff_toNat_le.2 (by rw [UInt8.toNat_one]; omega))
  simp only [readBit, Reader.measure, hsub]
  omega

/-- A field read never adds to what is left: a read from the cache takes bits off it, and a
read past it refills. -/
theorem measure_readField {sub : UInt8 → UInt8 → Except Failure UInt8}
    {k : UInt8} {r r' : Reader} {b : UInt64} (h : readField sub src k r = .ok (b, r')) :
    r'.measure src ≤ r.measure src := by
  unfold readField at h
  split at h
  · cases h
    rename_i hk
    have hsub : (r.validBits - k).toNat = r.validBits.toNat - k.toNat :=
      UInt8.toNat_sub_of_le _ _ hk
    simp only [Reader.measure, hsub]
    omega
  · obtain ⟨r₁, h₁, h⟩ := Except.bind_eq_ok_iff.1 h
    obtain ⟨valid, -, h⟩ := Except.bind_eq_ok_iff.1 h
    cases h
    have := measure_refillCache h₁
    have hbits := valid.toNat_lt
    simp only [Reader.measure] at *
    omega

theorem measure_nextWindow {d : Decoder} {r r' : Reader} {t m : UInt8}
    (h : nextWindow src d r = .ok (r', t, m)) : r'.measure src ≤ r.measure src := by
  unfold nextWindow at h
  split at h
  · obtain ⟨⟨lmBits, r₁⟩, h₁, h⟩ := Except.bind_eq_ok_iff.1 h
    obtain ⟨tm, -, h⟩ := Except.bind_eq_ok_iff.1 h
    cases h
    exact measure_readField h₁
  · cases h
    exact le_rfl

/-- Each pass that goes round again leaves less to read. -/
theorem decodePass_decreases {s v : UInt64} {d d' : Decoder}
    (h : decodePass src s d = .ok (some (v, d'))) : d'.reader.measure src < d.reader.measure src := by
  unfold decodePass at h
  obtain ⟨r₀, h₀, h⟩ := Except.bind_eq_ok_iff.1 h
  obtain ⟨hle₀, hpos₀⟩ := ensureBits_spec h₀
  have hlt₀ : (readBit r₀).measure src < d.reader.measure src :=
    lt_of_lt_of_le (measure_readBit hpos₀) hle₀
  dsimp only at h
  split at h
  · -- the same value: the reader after control bit 0
    cases h
    exact hlt₀
  · obtain ⟨r₁, h₁, h⟩ := Except.bind_eq_ok_iff.1 h
    obtain ⟨hle₁, hpos₁⟩ := ensureBits_spec h₁
    obtain ⟨⟨r₂, t, m⟩, h₂, h⟩ := Except.bind_eq_ok_iff.1 h
    obtain ⟨⟨sBits, r₃⟩, h₃, h⟩ := Except.bind_eq_ok_iff.1 h
    have hle₃ := measure_readField h₃
    have hle₂ := measure_nextWindow h₂
    have hlt₁ : (readBit r₁).measure src < r₁.measure src := measure_readBit hpos₁
    split at h
    · cases h
    · cases h
      exact lt_of_le_of_lt hle₃ (lt_of_le_of_lt hle₂ (lt_trans hlt₁ (lt_of_le_of_lt hle₁ hlt₀)))

set_option linter.unusedVariables false in
/-- The loop of `decode_with_sentinel`, from the first refill to the sentinel. -/
def decodeLoop (src : List UInt8) (sentinel : UInt64) (d : Decoder) :
    Except Failure (List UInt64) :=
  match h : decodePass src sentinel d with
  | .error e => .error e
  | .ok none => .ok []
  | .ok (some (v, d')) => (decodeLoop src sentinel d').map (v :: ·)
termination_by d.reader.measure src
decreasing_by exact decodePass_decreases h

/-- `decode_with_sentinel`, into an empty vector: the first value raw after the header byte,
then the loop. -/
def decodeWithSentinel (src : List UInt8) (sentinel : UInt64) : Except Failure (List UInt64) :=
  if src.length < 9 then .ok []
  else do
    let val := UInt64.ofNat (BigEndian.ofBytes ((src.drop 1).take 8))
    let r ← refillCache src 9
    let rest ← decodeLoop src sentinel ⟨r, val, 0, 64⟩
    return val :: rest

/-- `decode`. -/
def decode (src : List UInt8) : Except Failure (List UInt64) := decodeWithSentinel src sentinel

/-- `decode_influxdb`. -/
def decodeInfluxdb (src : List UInt8) : Except Failure (List UInt64) :=
  decodeWithSentinel src sentinelInfluxdb

/-! ### A one-value block -/

/-- Nine bytes hold a header and one value, and the decoder refills its cache before it reads
the first control bit: there is nothing left to refill from. -/
theorem decode_of_length_eq_nine (h : src.length = 9) :
    decode src = .error (.error "unexpected end of block") := by
  have hrefill : refillCache src 9 = .error (.error "unexpected end of block") := by
    simp [refillCache, h]
  simp only [decode, decodeWithSentinel, h, hrefill]
  rfl

theorem decode_encode_sentinel_first :
    ∃ bytes, encode [sentinel] = .ok bytes ∧ decode bytes = .error (.error "unexpected end of block") :=
  ⟨((1 : UInt8) <<< 4) :: BigEndian.toBytes 8 sentinel.toNat, by decide, decode_of_length_eq_nine rfl⟩

end IoxCore.Tsm.Float

import IoxCore.Tsm.Boolean
import IoxCore.Lib.Varint
import IoxCore.Lib.Except

/-!
# The string block codec

`influxdb_tsm::encoders::string`: a block of byte strings, each framed by its length as a
varint and then its bytes, and the framed bytes compressed with Snappy (`snap::raw`). The
first byte is the header `STRING_COMPRESSED_SNAPPY << 4`.

## The model

Snappy is not part of the repository. `Snappy` stands for the three functions of `snap::raw`
that the codec calls, and `Snappy.Lawful` for what the codec needs of them: compressing at most
`n` bytes into a buffer of `max_compress_len(n)` bytes succeeds when that length is not `0`,
and decompressing gives back what was compressed.

`encode` frames the strings into a buffer of `source_size` bytes, whose `usize` sums wrap as
in a release build, and panics where `assert!(len < MAX_I32)`, `encode_var` or the copy into
the buffer does. The buffer of `total_size` bytes is modelled by its two parts: the strings'
room (`frame`) and the compressed bytes that `compress` returns. `decode` walks the
decompressed bytes with the index `i` of the source, and returns its errors.

## Results

* `decodeLoop_framed`: the decoding loop reads back every framed string, empty ones included.
* `decode_encode`: a block of strings, each shorter than `i32::MAX`, encodes and decodes back
  when the framed size neither wraps `usize` nor is too large for Snappy. Where
  `max_compress_len` is `0`, `encode` returns `"source length too large"`.
* `boolean_string_round_trip`: the round trips of the boolean and the string codec together.
-/

namespace IoxCore.Tsm.Strings

/-- `STRING_COMPRESSED_SNAPPY << 4`, the first byte of a block. -/
def header : UInt8 := (1 : UInt8) <<< 4

/-- `MAX_I32`: `i32::MAX as usize`. -/
def maxI32 : ℕ := 2 ^ 31 - 1

/-- `MAX_VAR_INT_32`: the most bytes the varint of a 32-bit value takes. -/
def maxVarInt32 : ℕ := 5

/-- The functions of `snap::raw` that the codec calls: `max_compress_len`,
`Encoder::compress` and `Decoder::decompress_vec`, their errors as messages. -/
structure Snappy where
  maxCompressLen : ℕ → ℕ
  compress : List UInt8 → Except String (List UInt8)
  decompress : List UInt8 → Except String (List UInt8)

/-- What the codec relies on of Snappy. -/
structure Snappy.Lawful (snap : Snappy) : Prop where
  /-- Compressing at most `n` bytes into `max_compress_len(n)` bytes succeeds, unless that
  length is `0`. -/
  compress_ok : ∀ data n, data.length ≤ n → snap.maxCompressLen n ≠ 0 →
    ∃ c, snap.compress data = .ok c
  /-- Decompressing gives back what was compressed. -/
  decompress_compress : ∀ data c, snap.compress data = .ok c → snap.decompress c = .ok data

/-- The Snappy that stores bytes as they are: the least that meets the contract. -/
def Snappy.identity : Snappy := ⟨id, .ok, .ok⟩

theorem Snappy.lawful_identity : Snappy.identity.Lawful where
  compress_ok data _ _ _ := ⟨data, rfl⟩
  decompress_compress _ _ h := by
    cases h
    rfl

/-- `source_size`: two bytes, `MAX_VAR_INT_32` for each length, and the strings, summed in
`usize`. -/
def sourceSize (src : List (List UInt8)) : ℕ :=
  (2 + src.length * maxVarInt32 + (src.map List.length).sum) % 2 ^ 64

/-- The loop `for s in src` of `encode`: each string's length as a varint, then its bytes,
written into `data` with `room` bytes left; `none` where the assert of `encode_var` or the
slice `data[n..][..len]` panics. -/
def frame (room : ℕ) : List (List UInt8) → Option (List UInt8)
  | [] => some []
  | s :: src =>
    let len := Varint.encodeVar s.length
    if len.length + s.length ≤ room then
      (frame (room - (len.length + s.length)) src).map fun rest => len ++ s ++ rest
    else none

/-- `encode`. -/
def encode (snap : Snappy) (src : List (List UInt8)) : Except Failure (List UInt8) :=
  if src.isEmpty then .ok []
  -- `assert!(len < MAX_I32)` in the sum of the lengths
  else if src.any fun s => maxI32 ≤ s.length then .error .panic
  else
    let sourceSize := sourceSize src
    let maxEncodedLen := snap.maxCompressLen sourceSize
    if maxEncodedLen = 0 then .error (.error "source length too large")
    else
      match frame sourceSize src with
      | none => .error .panic
      | some data =>
        match snap.compress data with
        | .error e => .error (.error e)
        | .ok compressed => .ok (header :: compressed)

set_option linter.unusedVariables false in
/-- The loop `while i < num_decoded_bytes` of `decode`. -/
def decodeLoop (bytes : List UInt8) (i : ℕ) (dst : List (List UInt8)) :
    Except Failure (List (List UInt8)) :=
  if h : i < bytes.length then
    match hv : Varint.decodeVar (bytes.drop i) with
    | none => .error (.error "invalid encoded string length")
    | some (length, numBytesRead) =>
      let lower := i + numBytesRead
      let upper := lower + length
      -- `upper < lower`: the `usize` sum wrapped
      if 2 ^ 64 ≤ upper then .error (.error "length overflow")
      else if bytes.length < upper then .error (.error "short buffer")
      else decodeLoop bytes (i + (length + numBytesRead)) (dst ++ [(bytes.drop lower).take length])
  else .ok dst
termination_by bytes.length - i
decreasing_by
  -- a varint that reads takes at least one byte
  have hread := Varint.pos_of_decodeVar hv
  exact Nat.sub_lt_sub_left h (by omega)

/-- `decode`: appends the block's strings to `dst`. -/
def decode (snap : Snappy) (src : List UInt8) (dst : List (List UInt8)) :
    Except Failure (List (List UInt8)) :=
  if src.isEmpty then .ok dst
  else
    match snap.decompress (src.drop 1) with
    | .error e => .error (.error e)
    | .ok bytes => decodeLoop bytes 0 dst

/-! ## Framing -/

/-- The strings as the framing loop writes them: each one's varint length, then its bytes. -/
def framed (src : List (List UInt8)) : List UInt8 :=
  src.flatMap fun s => Varint.encodeVar s.length ++ s

@[simp] theorem framed_nil : framed [] = [] := rfl

theorem framed_cons (s : List UInt8) (src : List (List UInt8)) :
    framed (s :: src) = Varint.encodeVar s.length ++ s ++ framed src := by
  simp [framed]

/-- A string shorter than `i32::MAX` has a varint length of at most `MAX_VAR_INT_32` bytes. -/
theorem length_encodeVar_le_maxVarInt32 {s : List UInt8} (hs : s.length < maxI32) :
    (Varint.encodeVar s.length).length ≤ maxVarInt32 :=
  Varint.length_encodeVar_le 4 _ (lt_of_lt_of_le hs (by decide))

theorem length_framed_le {src : List (List UInt8)} (hs : ∀ s ∈ src, s.length < maxI32) :
    (framed src).length ≤ src.length * maxVarInt32 + (src.map List.length).sum := by
  induction src with
  | nil => simp
  | cons s src ih =>
    have hvar := length_encodeVar_le_maxVarInt32 (hs s (by simp))
    have hrest := ih fun t ht => hs t (by simp [ht])
    simp only [framed_cons, List.length_append, List.length_cons, List.map_cons, List.sum_cons]
    rw [Nat.add_mul, Nat.one_mul]
    omega

/-- The loop writes the framed strings whenever they fit. -/
theorem frame_eq : ∀ {src : List (List UInt8)} {room : ℕ}, (framed src).length ≤ room →
    frame room src = some (framed src)
  | [], _, _ => rfl
  | s :: src, room, h => by
    rw [framed_cons, List.length_append, List.length_append] at h
    rw [frame, if_pos (by omega), frame_eq (by omega), Option.map_some, framed_cons]

/-! ## Decoding -/

/-- The loop reads the framed strings back from wherever they start, appending them to
`dst`. The induction is on the strings, with the bytes read so far as `pre`. -/
theorem decodeLoop_framed : ∀ (src : List (List UInt8)) (pre : List UInt8) (dst : List (List UInt8)),
    (pre ++ framed src).length < 2 ^ 64 →
    decodeLoop (pre ++ framed src) pre.length dst = .ok (dst ++ src)
  | [], pre, dst, _ => by
    rw [decodeLoop, dif_neg (by simp)]
    simp
  | s :: src, pre, dst, hlen => by
    have hbytes : pre ++ framed (s :: src) = pre ++ (Varint.encodeVar s.length ++ s) ++ framed src := by
      rw [framed_cons]
      simp
    have hvar := List.length_pos_iff.mpr (Varint.encodeVar_ne_nil s.length)
    rw [hbytes] at hlen ⊢
    simp only [List.length_append] at hlen
    have hdrop : (pre ++ (Varint.encodeVar s.length ++ s) ++ framed src).drop pre.length =
        Varint.encodeVar s.length ++ (s ++ framed src) := by
      simp
    rw [decodeLoop, dif_pos (by simp; omega)]
    split
    · rename_i hv
      rw [hdrop, Varint.decodeVar_encodeVar (by omega)] at hv
      exact absurd hv (by simp)
    · rename_i length numBytesRead hv
      rw [hdrop, Varint.decodeVar_encodeVar (by omega), Option.some.injEq, Prod.mk.injEq] at hv
      obtain ⟨rfl, rfl⟩ := hv
      dsimp only
      rw [if_neg (by simp; omega), if_neg (by simp; omega)]
      have hslice : ((pre ++ (Varint.encodeVar s.length ++ s) ++ framed src).drop
          (pre.length + (Varint.encodeVar s.length).length)).take s.length = s := by
        rw [← List.drop_drop, hdrop, List.drop_left, List.take_left]
      have hnext : pre.length + (s.length + (Varint.encodeVar s.length).length) =
          (pre ++ (Varint.encodeVar s.length ++ s)).length := by
        simp
        omega
      rw [hslice, hnext, decodeLoop_framed src _ _ (by simp; omega)]
      simp

/-! ## The round trip -/

/-- A block of strings, each shorter than `i32::MAX`, encodes and decodes back, appended to
`dst`, when its framed size does not wrap `usize` and Snappy can compress that much. -/
theorem decode_encode (snap : Snappy) (hsnap : snap.Lawful) (src : List (List UInt8))
    (hs : ∀ s ∈ src, s.length < maxI32)
    (hwrap : 2 + src.length * maxVarInt32 + (src.map List.length).sum < 2 ^ 64)
    (hmax : snap.maxCompressLen (sourceSize src) ≠ 0) (dst : List (List UInt8)) :
    ∃ bytes, encode snap src = .ok bytes ∧ decode snap bytes dst = .ok (dst ++ src) := by
  cases src with
  | nil => exact ⟨[], rfl, by simp [decode]⟩
  | cons s rest =>
    -- the framed strings fit in `source_size` bytes
    have hsize : sourceSize (s :: rest) = 2 + (s :: rest).length * maxVarInt32 +
        ((s :: rest).map List.length).sum := Nat.mod_eq_of_lt hwrap
    have hfits : (framed (s :: rest)).length ≤ sourceSize (s :: rest) := by
      have := length_framed_le hs
      omega
    obtain ⟨c, hc⟩ := hsnap.compress_ok _ _ hfits hmax
    have hany : ((s :: rest).any fun t => maxI32 ≤ t.length) = false := by
      simpa using fun t ht => hs t ht
    refine ⟨header :: c, ?_, ?_⟩
    · rw [encode, if_neg (by simp), if_neg (by simp [hany])]
      dsimp only
      rw [if_neg hmax, frame_eq hfits]
      dsimp only
      rw [hc]
    · rw [decode, if_neg (by simp), List.drop_one, List.tail_cons,
        hsnap.decompress_compress _ _ hc]
      dsimp only
      exact decodeLoop_framed (s :: rest) [] dst (by simp at hfits ⊢; omega)

/-- Two strings, the second empty, through the Snappy that stores them as they are. -/
example : encode Snappy.identity [[1, 2], []] = .ok [16, 2, 1, 2, 0] := by
  decide +kernel

example : decode Snappy.identity [16, 2, 1, 2, 0] [] = .ok [[1, 2], []] := by
  decide +kernel

end IoxCore.Tsm.Strings

import IoxCore.Tsm.Integer
import Mathlib.Data.Nat.Log

/-!
# The timestamp block codec

`influxdb_tsm::encoders::timestamp`: a block of `i64` timestamps stored as deltas, the first
value and then each value less the one before (with wrapping arithmetic, as `u64`). As in the
integer codec, the high four bits of the first byte say how the deltas are stored: run-length
encoded (`Rle`), raw big-endian words (`Uncompressed`), or packed with simple8b. The run-length
and simple8b formats divide the deltas by the largest power of ten up to `10^12` that divides
them all, and keep its exponent in the low four bits of the first byte.

## The model

Values are `Int64` and deltas `UInt64`. `(div as f64).log10() as u8` is the exponent of the
power of ten `div` (`log10`), assuming `log10` of `10^k` truncates to `k` for `k ≤ 12`.
`decode_rle` adds with `wrapping_add`; `decode_uncompressed` and `decode_simple8b` add with `+=`,
and `delta *= scaler` and `v * scaler` multiply `u64`s, all of which panic on overflow in a debug
build: the model takes them as `checkedAdd` and `checkedMul`. `Encoding`, `beWord`, `checkedAdd`
and `DiffFits` are those of the integer codec.

## Results

* `divisorLoop_spec`: the divisor of the simple8b format is a power of ten that divides every
  delta after the first.
* `simple8bLoop_scaled`: the loop of `decode_simple8b` multiplies each stored delta back without
  overflow, and rebuilds the values exactly when each difference of neighbours is an `i64`.
* `timestamps_round_trip`: every block encodes, and decodes back to the values, except when it
  is not run-length encoded and the difference of two neighbours leaves the `i64` range, where
  the decoder's `+=` overflows; `max_min_min_panics` is that case at
  `[i64::MAX, i64::MIN, i64::MIN]`.
-/

namespace IoxCore.Tsm.Timestamp

open Integer (Encoding beWord checkedAdd DiffFits checkedAdd_sub foldl_max_le_iff
  beWord_wordBytes_append)

/-- The deltas after the first: `deltas[i].wrapping_sub(deltas[i - 1])`. -/
def diffs : Int64 → List Int64 → List UInt64
  | _, [] => []
  | p, y :: ys => (y.toUInt64 - p.toUInt64) :: diffs y ys

/-- `((div as f64).log10()) as u8` for a power of ten. -/
def log10 (div : UInt64) : UInt8 := (Nat.log 10 div.toNat).toUInt8

/-- The largest divisor `encode` tries, `1_000_000_000_000`. -/
def maxDiv : UInt64 := 1000000000000

/-- `while div > 1 && delta % div != 0 { div /= 10 }`. -/
def shrinkDiv (delta div : UInt64) : UInt64 :=
  if div > 1 ∧ delta % div ≠ 0 then shrinkDiv delta (div / 10) else div
termination_by div.toNat
decreasing_by
  have h1 : (1 : UInt64).toNat < div.toNat := UInt64.lt_iff_toNat_lt.1 ‹div > 1 ∧ _›.1
  simp only [UInt64.toNat_div, UInt64.reduceToNat] at h1 ⊢
  omega

/-- The divisor loop of `encode` over the deltas after the first; it breaks once `div <= 1`. -/
def divisorLoop : UInt64 → List UInt64 → UInt64
  | div, [] => div
  | div, d :: ds => if div ≤ 1 then div else divisorLoop (shrinkDiv d div) ds

/-- `encode_rle`: the exponent of the delta's divisor, the first value raw, then the delta
divided by it and the count as varints. -/
def encodeRle (v delta count : UInt64) : List UInt8 :=
  let div := shrinkDiv delta maxDiv
  if div > 1 then
    log10 div :: Simple8b.wordBytes v ++ Varint.encodeVar (delta / div).toNat ++
      Varint.encodeVar count.toNat
  else 0 :: Simple8b.wordBytes v ++ Varint.encodeVar delta.toNat ++ Varint.encodeVar count.toNat

/-- Every delta after the first equals the second: the test for `Rle`, on two values or more. -/
def useRle : List UInt64 → Bool
  | _ :: d :: rest => rest.all (· == d)
  | _ => false

/-- `encode`. -/
def encode (src : List Int64) : Except String (List UInt8) :=
  match src with
  | [] => .ok []
  | first :: rest =>
    let ds := diffs first rest
    let max := ds.foldl Max.max 0
    if useRle (first.toUInt64 :: ds) then
      match encodeRle first.toUInt64 (ds.headD 0) (UInt64.ofNat (rest.length + 1)) with
      | b :: bytes => .ok ((b ||| Encoding.rle.header) :: bytes)
      | [] => .ok []
    else if max > Simple8b.maxValue then
      .ok (Encoding.uncompressed.header :: (first.toUInt64 :: ds).flatMap Simple8b.wordBytes)
    else
      let div := divisorLoop maxDiv ds
      let scaled := if div > 1 then ds.map (· / div) else ds
      (Simple8b.encode scaled).map fun packed =>
        (Encoding.simple8b.header ||| log10 div) :: Simple8b.wordBytes first.toUInt64 ++ packed

/-- `a * b` on `u64` in a debug build: `none` is the panic on overflow. -/
def checkedMul (a b : UInt64) : Option UInt64 :=
  if a.toNat * b.toNat < 2 ^ 64 then some (a * b) else none

/-- `10_u64.pow((b & 0b0000_1111) as u32)`. -/
def scalerOf (b : UInt8) : UInt64 := UInt64.ofNat (10 ^ (b &&& 0x0F).toNat)

/-- The loop of `decode_uncompressed`: `prev += i64::from_be_bytes(word)` over the eight-byte
words. -/
def uncompressedLoop : Int64 → List UInt8 → Option (List Int64)
  | prev, b0 :: b1 :: b2 :: b3 :: b4 :: b5 :: b6 :: b7 :: rest =>
    match checkedAdd prev (beWord [b0, b1, b2, b3, b4, b5, b6, b7]).toInt64 with
    | none => none
    | some prev => (uncompressedLoop prev rest).map (prev :: ·)
  | _, _ => some []

/-- `decode_uncompressed`. -/
def decodeUncompressed (src : List UInt8) : Except Failure (List Int64) :=
  if src.isEmpty ∨ src.length % 8 ≠ 0 then .error (.error "invalid uncompressed block length")
  else
    match uncompressedLoop 0 src with
    | none => .error .panic
    | some vs => .ok vs

/-- The loop of `decode_rle`: `count` values from `first`, each the one before plus `delta`
(`wrapping_add`). -/
def rleLoop : ℕ → Int64 → Int64 → List Int64
  | 0, _, _ => []
  | count + 1, first, delta => first :: rleLoop count (first + delta) delta

/-- `decode_rle`, on the whole block. -/
def decodeRle (src : List UInt8) : Except Failure (List Int64) :=
  if src.length < 9 then .error (.error "not enough data to decode using RLE")
  else
    let scaler := scalerOf (src.headD 0)
    match Varint.decodeVar (src.drop 9) with
    | none => .error (.error "unable to decode delta")
    | some (delta, n) =>
      match checkedMul (UInt64.ofNat delta) scaler with
      | none => .error .panic
      | some delta =>
        match Varint.decodeVar (src.drop (9 + n)) with
        | none => .error (.error "unable to decode count")
        | some (count, _) => .ok (rleLoop count (beWord (src.drop 1)).toInt64 delta.toInt64)

/-- The loops of `decode_simple8b`: `next += (v * scaler) as i64` when `scaler > 1`, and
`next += *v as i64` otherwise. -/
def simple8bLoop (scaler : UInt64) : Int64 → List UInt64 → Option (List Int64)
  | _, [] => some []
  | next, v :: vs =>
    match if scaler > 1 then checkedMul v scaler else some v with
    | none => none
    | some d =>
      match checkedAdd next d.toInt64 with
      | none => none
      | some next => (simple8bLoop scaler next vs).map (next :: ·)

/-- `decode_simple8b`, on the whole block. -/
def decodeSimple8b (src : List UInt8) : Except Failure (List Int64) :=
  if src.length < 9 then .error (.error "not enough data to decode packed timestamp")
  else
    let scaler := scalerOf (src.headD 0)
    let first := (beWord (src.drop 1)).toInt64
    match Simple8b.decode (src.drop 9) with
    | none => .error .panic
    | some res =>
      match simple8bLoop scaler first res with
      | none => .error .panic
      | some rest => .ok (first :: rest)

/-- `decode`, into an empty vector. -/
def decode (src : List UInt8) : Except Failure (List Int64) :=
  match src with
  | [] => .ok []
  | b :: rest =>
    match (b >>> 4).toNat with
    | 0 => decodeUncompressed rest
    | 2 => decodeRle (b :: rest)
    | 1 => decodeSimple8b (b :: rest)
    | _ => .error (.error "invalid block encoding")

/-- The format `encode` picks for a block of at least one value. -/
def blockEncoding (first : Int64) (rest : List Int64) : Encoding :=
  let ds := diffs first rest
  if useRle (first.toUInt64 :: ds) then .rle
  else if ds.foldl max 0 > Simple8b.maxValue then .uncompressed
  else .simple8b

/-! ### The divisor -/

/-- From a power of ten, `shrinkDiv` stops at a power of ten that divides the delta. -/
theorem shrinkDiv_spec (delta div : UInt64) :
    ∀ k, div.toNat = 10 ^ k → ∃ j ≤ k, (shrinkDiv delta div).toNat = 10 ^ j ∧ 10 ^ j ∣ delta.toNat := by
  fun_induction shrinkDiv delta div with
  | case1 div hcond ih =>
    intro k hk
    obtain ⟨hgt, hmod⟩ := hcond
    have hk0 : k ≠ 0 := by
      rintro rfl
      simp [UInt64.lt_iff_toNat_lt, hk] at hgt
    obtain ⟨j, hj, h⟩ := ih (k - 1) (by
      rw [UInt64.toNat_div, hk, show (10 : UInt64).toNat = 10 from rfl,
        show k = k - 1 + 1 by omega, Nat.pow_succ, Nat.mul_div_cancel _ (by norm_num)]
      rfl)
    exact ⟨j, by omega, h⟩
  | case2 div hcond =>
    intro k hk
    refine ⟨k, le_rfl, hk, ?_⟩
    rw [← hk]
    by_cases hgt : div > 1
    · have hmod : delta % div = 0 := by simpa [hgt] using hcond
      exact Nat.dvd_of_mod_eq_zero (by simpa [UInt64.toNat_mod] using congrArg UInt64.toNat hmod)
    · have hle : div.toNat ≤ 1 := by simpa [UInt64.lt_iff_toNat_lt] using hgt
      have hpos : 0 < div.toNat := by rw [hk]; positivity
      rw [show div.toNat = 1 by omega]
      exact one_dvd _

/-- The divisor of the simple8b format is a power of ten that divides every delta. -/
theorem divisorLoop_spec :
    ∀ (ds : List UInt64) (div : UInt64) (k : ℕ), div.toNat = 10 ^ k →
      ∃ j ≤ k, (divisorLoop div ds).toNat = 10 ^ j ∧ ∀ d ∈ ds, 10 ^ j ∣ d.toNat
  | [], div, k, hk => ⟨k, le_rfl, hk, by simp⟩
  | d :: ds, div, k, hk => by
    rw [divisorLoop]
    split_ifs with hle
    · have hk0 : k = 0 := by
        have h1 : 10 ^ k ≤ 1 := by rw [← hk]; simpa [UInt64.le_iff_toNat_le] using hle
        by_contra hk0
        have := Nat.pow_le_pow_right (show 0 < 10 by norm_num) (Nat.one_le_iff_ne_zero.2 hk0)
        omega
      subst hk0
      exact ⟨0, le_rfl, hk, fun _ _ => by simp⟩
    · obtain ⟨j₁, hj₁, hdiv₁, hd⟩ := shrinkDiv_spec d div k hk
      obtain ⟨j, hj, hdiv, hds⟩ := divisorLoop_spec ds _ j₁ hdiv₁
      refine ⟨j, by omega, hdiv, ?_⟩
      intro x hx
      rcases List.mem_cons.1 hx with rfl | hx
      · exact (Nat.pow_dvd_pow 10 hj).trans hd
      · exact hds x hx

theorem toNat_maxDiv : maxDiv.toNat = 10 ^ 12 := rfl

theorem log10_of_toNat {div : UInt64} {j : ℕ} (h : div.toNat = 10 ^ j) : log10 div = j.toUInt8 := by
  rw [log10, h, Nat.log_pow (by norm_num)]

/-- The exponent sits in the low four bits of the first byte, under the format. -/
theorem header_or_exponent {j : ℕ} (hj : j ≤ 12) :
    ((Encoding.simple8b.header ||| j.toUInt8) >>> 4).toNat = 1 ∧
      scalerOf (Encoding.simple8b.header ||| j.toUInt8) = UInt64.ofNat (10 ^ j) ∧
      ((j.toUInt8 ||| Encoding.rle.header) >>> 4).toNat = 2 ∧
      scalerOf (j.toUInt8 ||| Encoding.rle.header) = UInt64.ofNat (10 ^ j) := by
  revert j
  decide

/-- A delta divided by a divisor of it is multiplied back without overflow. -/
theorem checkedMul_div_cancel {d div : UInt64} (hdvd : div.toNat ∣ d.toNat) :
    checkedMul (d / div) div = some d := by
  have hmul : (d / div).toNat * div.toNat = d.toNat := by
    rw [UInt64.toNat_div, Nat.div_mul_cancel hdvd]
  rw [checkedMul, if_pos (hmul ▸ d.toNat_lt)]
  congr 1
  apply UInt64.toNat_inj.mp
  rw [UInt64.toNat_mul, hmul, Nat.mod_eq_of_lt d.toNat_lt]

/-! ### The decoder loops on what `encode` writes -/

@[simp] theorem toInt64_delta (p y : Int64) : (y.toUInt64 - p.toUInt64).toInt64 = y - p := by
  apply Int64.toBitVec_inj.mp
  simp

@[simp] theorem length_diffs (p : Int64) (ys : List Int64) : (diffs p ys).length = ys.length := by
  induction ys generalizing p with
  | nil => rfl
  | cons y ys ih => simp [diffs, ih]

/-- The loop of `decode_simple8b` over stored deltas that each give back the delta: it rebuilds
the values exactly when every difference of neighbours is an `i64`. -/
theorem simple8bLoop_scaled (scaler : UInt64) (f : UInt64 → UInt64) (p : Int64) (ys : List Int64)
    (hf : ∀ d ∈ diffs p ys, (if scaler > 1 then checkedMul (f d) scaler else some (f d)) = some d) :
    simple8bLoop scaler p ((diffs p ys).map f) =
      if List.IsChain DiffFits (p :: ys) then some ys else none := by
  induction ys generalizing p with
  | nil => simp [diffs, simple8bLoop]
  | cons y ys ih =>
    have hy := hf _ List.mem_cons_self
    rw [diffs, List.map_cons, simple8bLoop, hy]
    simp only [toInt64_delta, checkedAdd_sub, List.isChain_cons_cons]
    by_cases hfit : DiffFits p y
    · simp only [if_pos hfit]
      rw [ih y fun d hd => hf d (List.mem_cons_of_mem _ hd)]
      simp only [hfit, true_and]
      split <;> rfl
    · simp [hfit]

theorem uncompressedLoop_wordBytes (prev : Int64) (w : UInt64) (rest : List UInt8) :
    uncompressedLoop prev (Simple8b.wordBytes w ++ rest) =
      match checkedAdd prev w.toInt64 with
      | none => none
      | some prev => (uncompressedLoop prev rest).map (prev :: ·) := by
  obtain ⟨b0, b1, b2, b3, b4, b5, b6, b7, hb⟩ :=
    Simple8b.eq_of_length_eq_eight (Simple8b.length_wordBytes w)
  have hword := beWord_wordBytes_append w []
  rw [List.append_nil, hb] at hword
  rw [hb]
  simp only [List.cons_append, List.nil_append, uncompressedLoop, hword]

/-- The loop of `decode_uncompressed` over the deltas rebuilds the values exactly when every
difference of neighbours is an `i64`. -/
theorem uncompressedLoop_diffs (p : Int64) (ys : List Int64) :
    uncompressedLoop p ((diffs p ys).flatMap Simple8b.wordBytes) =
      if List.IsChain DiffFits (p :: ys) then some ys else none := by
  induction ys generalizing p with
  | nil => simp [diffs, uncompressedLoop]
  | cons y ys ih =>
    rw [diffs, List.flatMap_cons, uncompressedLoop_wordBytes, toInt64_delta, checkedAdd_sub]
    simp only [List.isChain_cons_cons]
    by_cases hfit : DiffFits p y
    · simp only [if_pos hfit]
      rw [ih]
      simp only [hfit, true_and]
      split <;> rfl
    · simp [hfit]

/-- `count` steps of `decode_rle` rebuild values whose deltas all are `delta`. -/
theorem rleLoop_diffs (delta : UInt64) :
    ∀ (p : Int64) (ys : List Int64), (∀ d ∈ diffs p ys, d = delta) →
      rleLoop (ys.length + 1) p delta.toInt64 = p :: ys
  | p, [], _ => rfl
  | p, y :: ys, h => by
    have hy : y.toUInt64 - p.toUInt64 = delta := h _ List.mem_cons_self
    have hstep : p + delta.toInt64 = y := by
      rw [← hy, toInt64_delta, Integer.add_sub_cancel']
    rw [List.length_cons, rleLoop, hstep,
      rleLoop_diffs delta y ys fun d hd => h d (List.mem_cons_of_mem _ hd)]

/-! ### The round trip -/

/-- `useRle` holds of deltas after the first that all equal the second. -/
theorem useRle_spec {z : UInt64} {ds : List UInt64} (h : useRle (z :: ds) = true) :
    ∀ d ∈ ds, d = ds.headD 0 := by
  match ds, h with
  | d :: rest, h =>
    simp only [useRle, List.all_eq_true, beq_iff_eq] at h
    intro x hx
    rcases List.mem_cons.1 hx with rfl | hx
    · rfl
    · exact h x hx

/-- `encode_rle` writes the exponent of a power of ten, then a stored delta that this power
multiplies back to the delta. -/
theorem encodeRle_spec (v delta count : UInt64) :
    ∃ j ≤ 12, ∃ stored : UInt64, encodeRle v delta count = j.toUInt8 :: Simple8b.wordBytes v ++
        Varint.encodeVar stored.toNat ++ Varint.encodeVar count.toNat ∧
      checkedMul stored (UInt64.ofNat (10 ^ j)) = some delta := by
  obtain ⟨j, hj, hdiv, hdvd⟩ := shrinkDiv_spec delta maxDiv 12 toNat_maxDiv
  have hofNat : UInt64.ofNat (10 ^ j) = shrinkDiv delta maxDiv := by rw [← hdiv, UInt64.ofNat_toNat]
  by_cases hgt : shrinkDiv delta maxDiv > 1
  · refine ⟨j, hj, delta / shrinkDiv delta maxDiv, ?_, ?_⟩
    · simp only [encodeRle, if_pos hgt, log10_of_toNat hdiv]
    · rw [hofNat]
      exact checkedMul_div_cancel (hdiv ▸ hdvd)
  · have hj0 : j = 0 := by
      have h1 : 10 ^ j ≤ 1 := by rw [← hdiv]; simpa [UInt64.lt_iff_toNat_lt] using hgt
      by_contra hj0
      have := Nat.pow_le_pow_right (show 0 < 10 by norm_num) (Nat.one_le_iff_ne_zero.2 hj0)
      omega
    subst hj0
    refine ⟨0, by omega, delta, ?_, ?_⟩
    · simp only [encodeRle, if_neg hgt]
      rfl
    · rw [checkedMul, if_pos (by simpa using delta.toNat_lt)]
      simp

theorem round_trip_rle {first : Int64} {rest : List Int64} (hlen : rest.length + 1 < 2 ^ 64)
    (hrle : useRle (first.toUInt64 :: diffs first rest) = true) :
    ∃ bytes, encode (first :: rest) = .ok bytes ∧ decode bytes = .ok (first :: rest) := by
  obtain ⟨delta, hd⟩ : ∃ d, (diffs first rest).headD 0 = d := ⟨_, rfl⟩
  obtain ⟨count, hc⟩ : ∃ c, UInt64.ofNat (rest.length + 1) = c := ⟨_, rfl⟩
  have hcount : count.toNat = rest.length + 1 := by
    rw [← hc, UInt64.toNat_ofNat', Nat.mod_eq_of_lt hlen]
  obtain ⟨j, hj, stored, henc, hmul⟩ := encodeRle_spec first.toUInt64 delta count
  refine ⟨(j.toUInt8 ||| Encoding.rle.header) :: (Simple8b.wordBytes first.toUInt64 ++
    Varint.encodeVar stored.toNat ++ Varint.encodeVar count.toNat), ?_, ?_⟩
  · simp only [encode, if_pos hrle, hd, hc, henc, List.cons_append]
  have hdrop : (Simple8b.wordBytes first.toUInt64 ++ Varint.encodeVar stored.toNat ++
      Varint.encodeVar count.toNat).drop 8 =
      Varint.encodeVar stored.toNat ++ Varint.encodeVar count.toNat := by
    rw [List.append_assoc, List.drop_left' (Simple8b.length_wordBytes _)]
  have hdrop' : (Simple8b.wordBytes first.toUInt64 ++ Varint.encodeVar stored.toNat ++
      Varint.encodeVar count.toNat).drop (8 + (Varint.encodeVar stored.toNat).length) =
      Varint.encodeVar count.toNat := by
    rw [List.append_assoc, ← List.drop_drop, List.drop_left' (Simple8b.length_wordBytes _),
      List.drop_left]
  have hvar := Varint.decodeVar_encodeVar stored.toNat_lt (Varint.encodeVar count.toNat)
  have hvar' := Varint.decodeVar_encodeVar count.toNat_lt []
  rw [List.append_nil] at hvar'
  obtain ⟨-, -, hshift, hscaler⟩ := header_or_exponent hj
  have hlong : ¬ ((j.toUInt8 ||| Encoding.rle.header) :: (Simple8b.wordBytes first.toUInt64 ++
      Varint.encodeVar stored.toNat ++ Varint.encodeVar count.toNat)).length < 9 := by
    simp
  have hdelta : ∀ d ∈ diffs first rest, d = delta := fun d hd' => hd ▸ useRle_spec hrle d hd'
  rw [decode, hshift, decodeRle, if_neg hlong, List.headD_cons, hscaler,
    show (9 : ℕ) = 8 + 1 from rfl, List.drop_succ_cons, hdrop]
  simp only [hvar, UInt64.ofNat_toNat, hmul]
  rw [show 8 + 1 + (Varint.encodeVar stored.toNat).length =
      8 + (Varint.encodeVar stored.toNat).length + 1 by omega, List.drop_succ_cons, hdrop']
  simp only [hvar', List.drop_one, List.tail_cons]
  rw [List.append_assoc, beWord_wordBytes_append, Int64.toInt64_toUInt64, hcount,
    rleLoop_diffs delta first rest hdelta]

/-- `i64` addition to zero never overflows. -/
theorem checkedAdd_zero (x : Int64) : checkedAdd 0 x = some x := by
  have h1 := Int64.le_toInt x
  have h2 := Int64.toInt_lt x
  rw [checkedAdd, if_pos (by simp; omega), Int64.zero_add]

theorem round_trip_uncompressed {first : Int64} {rest : List Int64}
    (hrle : useRle (first.toUInt64 :: diffs first rest) = false)
    (hbig : (diffs first rest).foldl max 0 > Simple8b.maxValue) :
    ∃ bytes, encode (first :: rest) = .ok bytes ∧
      decode bytes = if List.IsChain DiffFits (first :: rest) then .ok (first :: rest)
        else .error .panic := by
  refine ⟨Encoding.uncompressed.header ::
    (first.toUInt64 :: diffs first rest).flatMap Simple8b.wordBytes,
    by simp only [encode, hrle, Bool.false_eq_true, if_false, if_pos hbig], ?_⟩
  have hshift : (Encoding.uncompressed.header >>> 4).toNat = 0 := by decide
  have hlen : ((first.toUInt64 :: diffs first rest).flatMap Simple8b.wordBytes).length =
      8 * (rest.length + 1) := by
    simp [List.length_flatMap]
    omega
  have hsize : ¬ (((first.toUInt64 :: diffs first rest).flatMap Simple8b.wordBytes).isEmpty ∨
      ((first.toUInt64 :: diffs first rest).flatMap Simple8b.wordBytes).length % 8 ≠ 0) := by
    rw [List.isEmpty_iff_length_eq_zero, hlen]
    omega
  rw [decode, hshift, decodeUncompressed, if_neg hsize, List.flatMap_cons,
    uncompressedLoop_wordBytes, Int64.toInt64_toUInt64, checkedAdd_zero]
  by_cases hchain : List.IsChain DiffFits (first :: rest)
  · simp [uncompressedLoop_diffs, hchain]
  · simp [uncompressedLoop_diffs, hchain]

theorem round_trip_simple8b {first : Int64} {rest : List Int64}
    (hrle : useRle (first.toUInt64 :: diffs first rest) = false)
    (hsmall : ¬ (diffs first rest).foldl max 0 > Simple8b.maxValue) :
    ∃ bytes, encode (first :: rest) = .ok bytes ∧
      decode bytes = if List.IsChain DiffFits (first :: rest) then .ok (first :: rest)
        else .error .panic := by
  have hfit : ∀ d ∈ diffs first rest, d ≤ Simple8b.maxValue :=
    ((foldl_max_le_iff _ 0 _).1 (UInt64.not_lt.1 hsmall)).2
  obtain ⟨j, hj, hdiv, hdvd⟩ := divisorLoop_spec (diffs first rest) maxDiv 12 toNat_maxDiv
  set div := divisorLoop maxDiv (diffs first rest) with hdef
  -- the stored deltas: each delta divided by the divisor when it is more than one
  set f : UInt64 → UInt64 := fun d => if div > 1 then d / div else d with hf
  have hscaled : (if div > 1 then (diffs first rest).map (· / div) else diffs first rest) =
      (diffs first rest).map f := by
    split_ifs with hgt
    · simp [hf, hgt]
    · simp [hf, hgt]
  have hfit' : ∀ v ∈ (diffs first rest).map f, v ≤ Simple8b.maxValue := by
    simp only [List.mem_map]
    rintro _ ⟨d, hd, rfl⟩
    refine UInt64.le_trans ?_ (hfit d hd)
    simp only [hf]
    split_ifs
    · rw [UInt64.le_iff_toNat_le, UInt64.toNat_div]
      exact Nat.div_le_self _ _
    · exact UInt64.le_iff_toNat_le.2 le_rfl
  obtain ⟨packed, henc, hdec⟩ := Simple8b.decode_encode hfit'
  have hlog := log10_of_toNat hdiv
  refine ⟨(Encoding.simple8b.header ||| j.toUInt8) :: Simple8b.wordBytes first.toUInt64 ++ packed,
    ?_, ?_⟩
  · simp only [encode, hrle, Bool.false_eq_true, if_false, if_neg hsmall, ← hdef, hscaled, henc,
      hlog, Except.map]
  obtain ⟨hshift, hscaler, -, -⟩ := header_or_exponent hj
  have hscalerDiv : UInt64.ofNat (10 ^ j) = div := by rw [← hdiv, UInt64.ofNat_toNat]
  have hshort : ¬ ((Encoding.simple8b.header ||| j.toUInt8) :: (Simple8b.wordBytes first.toUInt64 ++
      packed)).length < 9 := by
    simp
  have hback : ∀ d ∈ diffs first rest,
      (if div > 1 then checkedMul (f d) div else some (f d)) = some d := by
    intro d hd
    simp only [hf]
    split_ifs
    · exact checkedMul_div_cancel (hdiv ▸ hdvd d hd)
    · rfl
  rw [List.cons_append, decode, hshift, decodeSimple8b, if_neg hshort]
  simp only [List.headD_cons, hscaler, hscalerDiv, List.drop_succ_cons, List.drop_zero,
    List.drop_left' (Simple8b.length_wordBytes _), hdec, beWord_wordBytes_append,
    Int64.toInt64_toUInt64, simple8bLoop_scaled div f first rest hback]
  by_cases hchain : List.IsChain DiffFits (first :: rest)
  · simp [hchain]
  · simp [hchain]

/-- Every block of fewer than `2^64` values encodes, and decodes back to itself, except when it
is not run-length encoded and the difference of two neighbours leaves the `i64` range: there the
`+=` of `decode_uncompressed` or `decode_simple8b` overflows. -/
theorem timestamps_round_trip (first : Int64) (rest : List Int64) (hlen : rest.length + 1 < 2 ^ 64) :
    ∃ bytes, encode (first :: rest) = .ok bytes ∧
      decode bytes = if blockEncoding first rest ≠ .rle ∧ ¬ List.IsChain DiffFits (first :: rest)
        then .error .panic else .ok (first :: rest) := by
  by_cases hrle : useRle (first.toUInt64 :: diffs first rest) = true
  · have henc : blockEncoding first rest = .rle := by simp [blockEncoding, hrle]
    simpa [henc] using round_trip_rle hlen hrle
  · rw [Bool.not_eq_true] at hrle
    have hpath : blockEncoding first rest ≠ .rle := by
      simp only [blockEncoding, hrle, Bool.false_eq_true, if_false]
      split_ifs <;> decide
    obtain ⟨bytes, h, hdec⟩ : ∃ bytes, encode (first :: rest) = .ok bytes ∧
        decode bytes = if List.IsChain DiffFits (first :: rest) then .ok (first :: rest)
          else .error .panic := by
      by_cases hbig : (diffs first rest).foldl max 0 > Simple8b.maxValue
      · exact round_trip_uncompressed hrle hbig
      · exact round_trip_simple8b hrle hbig
    refine ⟨bytes, h, ?_⟩
    rw [hdec]
    by_cases hchain : List.IsChain DiffFits (first :: rest)
    · simp [hchain]
    · simp [hchain, hpath]

/-- `[i64::MAX, i64::MIN, i64::MIN]`: the deltas `1` and `0` differ and are small, so the block is
packed with simple8b, and `next += 1` overflows on `i64::MAX`. -/
theorem max_min_min_panics :
    ∃ bytes, encode [Int64.maxValue, Int64.minValue, Int64.minValue] = .ok bytes ∧
      decode bytes = .error .panic := by
  obtain ⟨bytes, henc, hdec⟩ :=
    timestamps_round_trip Int64.maxValue [Int64.minValue, Int64.minValue] (by decide)
  have hpath : blockEncoding Int64.maxValue [Int64.minValue, Int64.minValue] = .simple8b := by
    decide
  have hwrap : ¬ List.IsChain DiffFits [Int64.maxValue, Int64.minValue, Int64.minValue] := by
    decide
  exact ⟨bytes, henc, by rw [hdec, if_pos ⟨by rw [hpath]; decide, hwrap⟩]⟩

end IoxCore.Tsm.Timestamp

import IoxCore.Lib.BitFields
import IoxCore.Lib.BigEndian
import Mathlib.Data.List.TakeWhile
import Mathlib.Tactic.IntervalCases

/-!
# simple8b

`influxdb_tsm::encoders::simple8b`: unsigned values below `2^60` packed into 64-bit words.
The top four bits of a word are its selector; selectors `0` and `1` stand for runs of 240
and 120 ones, and selector `idx + 2` packs `NUM_BITS[idx]` values of as many bits each, the
first in the lowest bits. The encoder takes, at each word, a run of ones if there is one and
otherwise the first code that the next values fit; it fails on a value no code holds.

## The model

A word is a `UInt64` and its bytes are its big-endian bytes (`to_be_bytes`). The encoder's
output buffer is the list of the bytes it writes; the decoder's loop over eight-byte chunks
is a recursion on the bytes, which panics (`copy_from_slice`) when fewer than eight remain.

## Results

* `decodeValue_tryCode`: a code word reads back as the values it packs.
* `decode_encode`: every list of values below `2^60` encodes, and reads back from its bytes.
* `simple8b_round_trip`: `encode` succeeds exactly on such lists (`le_maxValue_of_encodeWords`: a
  larger value fits no word), and then writes whole words.
-/

namespace IoxCore.Tsm.Simple8b

open BitFields

variable {src : List UInt64} {w : UInt64}

/-- `S8B_BIT_SIZE`. -/
def s8bBitSize : ℕ := 60

/-- `MAX_VALUE`. -/
def maxValue : UInt64 := ((1 : UInt64) <<< 60) - 1

/-- `NUM_BITS`: how many values of how many bits the word of selector `idx + 2` packs. -/
def numBits : List (ℕ × ℕ) :=
  [(60, 1), (30, 2), (20, 3), (15, 4), (12, 5), (10, 6), (8, 7), (7, 8), (6, 10), (5, 12),
    (4, 15), (3, 20), (2, 30), (1, 60)]

/-- `val |= in_v << ((k * bit_n) as u8 & 0x3f)` for the values from the `k`-th on. -/
def orValues (bitN : ℕ) : ℕ → List UInt64 → UInt64 → UInt64
  | _, [], val => val
  | k, v :: vs, val =>
    orValues bitN (k + 1) vs (val ||| v <<< ((k * bitN).toUInt8 &&& 0x3f).toUInt64)

/-- One code of the `'codes` loop: the word of selector `idx + 2` packing the next `int_n`
values, when that many remain and each is below `1 << bit_n`. -/
def tryCode (src : List UInt64) (idx intN bitN : ℕ) : Option UInt64 :=
  if intN > src.length then none
  else
    let maxVal : UInt64 := 1 <<< (bitN.toUInt64 &&& 0x3f)
    if (src.take intN).all (· < maxVal) then
      some (orValues bitN 0 (src.take intN) ((idx.toUInt64 + 2) <<< s8bBitSize.toUInt64))
    else none

/-- The `'codes` loop: the word of the first code the next values fit, and how many it packs. -/
def firstCode (src : List UInt64) : Option (UInt64 × ℕ) :=
  numBits.zipIdx.findSome? fun e => (tryCode src e.2 e.1.1 e.1.2).map (·, e.1.1)

/-- The run the loop tries first, when 120 values remain: 240 ones as the word `0`, or 120 as
the word `1 << 60`. -/
def runOfOnes (src : List UInt64) : Option (UInt64 × ℕ) :=
  if src.length ≥ 120 then
    let a := if src.length ≥ 240 then src.take 240 else src.take 120
    let k := (a.takeWhile (· == 1)).length
    if k = 240 then some (0, 240)
    else if k ≥ 120 then some ((1 : UInt64) <<< 60, 120)
    else none
  else none

/-- One pass of the loop: the word it writes and how many values it packs. -/
def step (src : List UInt64) : Except String (UInt64 × ℕ) :=
  match runOfOnes src with
  | some r => .ok r
  | none =>
    match firstCode src with
    | some r => .ok r
    | none => .error "value out of bounds"

theorem pos_of_mem_numBits : ∀ e ∈ numBits, 0 < e.1 := by decide

/-- Values at the front within the run of ones are ones. -/
theorem take_eq_replicate_of_le_takeWhile {l : List UInt64} {n : ℕ}
    (h : n ≤ (l.takeWhile (· == 1)).length) : l.take n = List.replicate n 1 := by
  rw [← List.takeWhile_append_dropWhile (p := (· == 1)) (l := l), List.take_append_of_le_length h]
  refine List.eq_replicate_iff.2 ⟨by simp only [List.length_take]; omega, fun b hb => ?_⟩
  simpa using List.mem_takeWhile_imp (List.mem_of_mem_take hb)

/-- The first `n` values are ones when the run counted in the first `m` reaches `n`. -/
theorem take_eq_replicate_of_run {m n : ℕ}
    (h : n ≤ ((src.take m).takeWhile (· == 1)).length) (hnm : n ≤ m) :
    src.take n = List.replicate n 1 := by
  rw [← take_eq_replicate_of_le_takeWhile h, List.take_take, Nat.min_eq_left hnm]

/-- A run word stands for the ones at the front. -/
theorem runOfOnes_spec {n : ℕ} (h : runOfOnes src = some (w, n)) :
    (w = 0 ∧ n = 240 ∨ w = (1 : UInt64) <<< 60 ∧ n = 120) ∧ src.take n = List.replicate n 1 := by
  unfold runOfOnes at h
  dsimp only at h
  split_ifs at h with h120 h240 hk hk' hk hk' <;> cases h
  · exact ⟨.inl ⟨rfl, rfl⟩, take_eq_replicate_of_run hk.ge le_rfl⟩
  · exact ⟨.inr ⟨rfl, rfl⟩, take_eq_replicate_of_run hk' (by omega)⟩
  · -- fewer than 240 values remain, so the run counted in the first 120 cannot reach 240
    have hle := (List.takeWhile_prefix (· == 1) (l := src.take 120)).length_le
    simp only [List.length_take] at hle
    omega
  · exact ⟨.inr ⟨rfl, rfl⟩, take_eq_replicate_of_run hk' le_rfl⟩

theorem runOfOnes_pos {r : UInt64 × ℕ} (h : runOfOnes src = some r) : 0 < r.2 := by
  obtain ⟨hwn, -⟩ := runOfOnes_spec (w := r.1) (n := r.2) h
  omega

theorem firstCode_pos {r : UInt64 × ℕ} (h : firstCode src = some r) : 0 < r.2 := by
  obtain ⟨e, he, hr⟩ := List.exists_of_findSome?_eq_some h
  obtain ⟨w, -, rfl⟩ := Option.map_eq_some_iff.1 hr
  obtain ⟨-, -, hx⟩ := List.mem_zipIdx he
  exact pos_of_mem_numBits _ (hx ▸ List.getElem_mem _)

theorem step_pos {r : UInt64 × ℕ} (h : step src = .ok r) : 0 < r.2 := by
  unfold step at h
  split at h
  · cases h
    exact runOfOnes_pos ‹_›
  · split at h
    · cases h
      exact firstCode_pos ‹_›
    · cases h

/-- The words of `encode`, one pass at a time. -/
def encodeWords (src : List UInt64) : Except String (List UInt64) :=
  match src with
  | [] => .ok []
  | v :: vs =>
    match h : step (v :: vs) with
    | .error e => .error e
    | .ok (word, n) =>
      have : 0 < n := step_pos h
      (encodeWords ((v :: vs).drop n)).map (word :: ·)
termination_by src.length
decreasing_by
  simp only [List.length_drop, List.length_cons]
  omega

/-- The eight bytes of a word, most significant first (`to_be_bytes`). -/
def wordBytes (w : UInt64) : List UInt8 := BigEndian.toBytes 8 w.toNat

/-- `encode`: the bytes of the words. -/
def encode (src : List UInt64) : Except String (List UInt8) :=
  (encodeWords src).map fun words => words.flatMap wordBytes

/-- `for i in &mut dst[0..count] { *i = v & mask; v >>= bits }`. -/
def unpack : ℕ → ℕ → UInt64 → UInt64 → List UInt64
  | 0, _, _, _ => []
  | count + 1, bits, mask, v => (v &&& mask) :: unpack count bits mask (v >>> bits.toUInt64)

/-- `decode_value`: the values a word holds, by its selector. -/
def decodeValue (v : UInt64) : List UInt64 :=
  match (v >>> s8bBitSize.toUInt64).toNat with
  | 0 => List.replicate 240 1
  | 1 => List.replicate 120 1
  | 2 => unpack 60 1 0x01 v
  | 3 => unpack 30 2 0x03 v
  | 4 => unpack 20 3 0x07 v
  | 5 => unpack 15 4 0x0f v
  | 6 => unpack 12 5 0x1f v
  | 7 => unpack 10 6 0x3f v
  | 8 => unpack 8 7 0x7f v
  | 9 => unpack 7 8 0xff v
  | 10 => unpack 6 10 0x03ff v
  | 11 => unpack 5 12 0x0fff v
  | 12 => [v &&& 0x7fff, (v >>> 15) &&& 0x7fff, (v >>> 30) &&& 0x7fff, (v >>> 45) &&& 0x7fff]
  | 13 => unpack 3 20 0x000f_ffff v
  | 14 => unpack 2 30 0x3fff_ffff v
  | 15 => [v &&& 0x0fff_ffff_ffff_ffff]
  | _ => []

/-- `decode`: the values of each eight-byte word in turn; `none` is the panic of a last chunk
shorter than eight bytes. -/
def decode : List UInt8 → Option (List UInt64)
  | [] => some []
  | b0 :: b1 :: b2 :: b3 :: b4 :: b5 :: b6 :: b7 :: rest =>
    (decode rest).map (decodeValue (UInt64.ofNat (BigEndian.ofBytes [b0, b1, b2, b3, b4, b5, b6, b7])) ++ ·)
  | _ => none

/-! ## Code words -/

theorem numBits_fit : ∀ e ∈ numBits, 0 < e.2 ∧ e.2 < 64 ∧ e.1 * e.2 ≤ 60 := by decide

/-- The shift amount `(n as u8 & 0x3f)` of a shift below 64 bits. -/
theorem toNat_shiftAmount {n : ℕ} (hn : n < 64) : (n.toUInt8 &&& 0x3f).toUInt64.toNat = n := by
  rw [UInt8.toNat_toUInt64, UInt8.toNat_and, show (0x3f : UInt8).toNat = 2 ^ 6 - 1 from rfl,
    Nat.and_two_pow_sub_one_eq_mod, UInt8.toNat_ofNat', Nat.mod_eq_of_lt (by omega),
    Nat.mod_eq_of_lt (by omega)]

/-- The OR loop of a code word, on numbers: no shift overflows when the values fit. -/
theorem toNat_orValues {bitN : ℕ} (hb : 0 < bitN) : ∀ {vs : List UInt64} (k : ℕ) (acc : UInt64),
    Fit bitN (vs.map UInt64.toNat) → (k + vs.length) * bitN ≤ 64 →
    (orValues bitN k vs acc).toNat = orShifted bitN k (vs.map UInt64.toNat) acc.toNat
  | [], _, _, _, _ => rfl
  | v :: vs, k, acc, hfit, hlen => by
    obtain ⟨hv, hvs⟩ := Fit.cons.1 hfit
    rw [List.length_cons] at hlen
    have hk : k * bitN + bitN ≤ 64 := by
      rw [← Nat.succ_mul]
      exact le_trans (Nat.mul_le_mul_right _ (by omega)) hlen
    have hbound : v.toNat <<< (k * bitN) < 2 ^ 64 := by
      rw [Nat.shiftLeft_eq]
      calc v.toNat * 2 ^ (k * bitN) < 2 ^ bitN * 2 ^ (k * bitN) :=
            Nat.mul_lt_mul_of_pos_right hv (Nat.two_pow_pos _)
        _ = 2 ^ (k * bitN + bitN) := by rw [← Nat.pow_add, Nat.add_comm]
        _ ≤ 2 ^ 64 := Nat.pow_le_pow_right (by omega) hk
    have hshift : (v <<< ((k * bitN).toUInt8 &&& 0x3f).toUInt64).toNat = v.toNat <<< (k * bitN) := by
      rw [UInt64.toNat_shiftLeft, toNat_shiftAmount (by omega),
        Nat.mod_eq_of_lt (show k * bitN < 64 by omega), Nat.mod_eq_of_lt hbound]
    have hrest : (k + 1 + vs.length) * bitN ≤ 64 := by
      rw [show k + 1 + vs.length = k + (vs.length + 1) by omega]
      exact hlen
    rw [orValues, toNat_orValues hb (k + 1) _ hvs hrest, UInt64.toNat_or, hshift, List.map_cons,
      orShifted]

/-- The selector of a code word, shifted into the top bits. -/
theorem toNat_selector {sel : ℕ} (hsel : sel < 16) :
    (sel.toUInt64 <<< s8bBitSize.toUInt64).toNat = 2 ^ 60 * sel := by
  have h60 : s8bBitSize.toUInt64.toNat = 60 := rfl
  have hs : sel.toUInt64.toNat = sel := by simp; omega
  rw [UInt64.toNat_shiftLeft, h60, hs, show 60 % 64 = 60 from rfl, Nat.shiftLeft_eq,
    Nat.mod_eq_of_lt (by omega), Nat.mul_comm]

/-- A code word: the selector above the packing of its values. -/
theorem toNat_codeWord {bitN : ℕ} (hb : 0 < bitN) {vs : List UInt64} {sel : ℕ} (hsel : sel < 16)
    (hfit : Fit bitN (vs.map UInt64.toNat)) (hlen : vs.length * bitN ≤ 60) :
    (orValues bitN 0 vs (sel.toUInt64 <<< s8bBitSize.toUInt64)).toNat =
      fields bitN (vs.map UInt64.toNat) + 2 ^ (bitN * vs.length) * (2 ^ (60 - bitN * vs.length) * sel) := by
  have hlen' : bitN * vs.length ≤ 60 := by rw [Nat.mul_comm]; exact hlen
  have hF : fields bitN (vs.map UInt64.toNat) < 2 ^ 60 :=
    lt_of_lt_of_le (fields_lt hfit) (Nat.pow_le_pow_right (by omega) (by rwa [List.length_map]))
  rw [toNat_orValues hb 0 _ hfit (by rw [Nat.zero_add]; omega), orShifted_eq 0 _ hfit, toNat_selector hsel,
    Nat.zero_mul, Nat.pow_zero, Nat.one_mul, Nat.or_comm, or_two_pow_mul hF, Nat.add_comm,
    ← Nat.mul_assoc, ← Nat.pow_add, Nat.add_sub_cancel' hlen']

/-- Masking and shifting `b` bits at a time reads back the values packed below `H`. -/
theorem unpack_eq {b : ℕ} (hb : b < 64) {mask : UInt64} (hmask : mask.toNat = 2 ^ b - 1) :
    ∀ {vs : List UInt64} (W : UInt64) (H : ℕ), Fit b (vs.map UInt64.toNat) →
      W.toNat = fields b (vs.map UInt64.toNat) + 2 ^ (b * vs.length) * H →
      unpack vs.length b mask W = vs
  | [], _, _, _, _ => rfl
  | v :: vs, W, H, hfit, hW => by
    obtain ⟨hv, hvs⟩ := Fit.cons.1 hfit
    rw [List.map_cons, List.length_cons] at hW
    have hmod := fields_cons_mod hv (vs.map UInt64.toNat) H
    have hdiv := fields_cons_div hv (vs.map UInt64.toNat) H
    rw [List.length_map] at hmod hdiv
    have hlow : (W &&& mask) = v := by
      apply UInt64.toNat_inj.1
      rw [UInt64.toNat_and, hmask, Nat.and_two_pow_sub_one_eq_mod, hW, hmod]
    have hbn : b.toUInt64.toNat = b := by simp; omega
    have hhigh : (W >>> b.toUInt64).toNat =
        fields b (vs.map UInt64.toNat) + 2 ^ (b * vs.length) * H := by
      rw [UInt64.toNat_shiftRight, hbn, Nat.mod_eq_of_lt hb, Nat.shiftRight_eq_div_pow, hW, hdiv]
    rw [List.length_cons, unpack, hlow, unpack_eq hb hmask (W >>> b.toUInt64) H hvs hhigh]

/-- The masks of `decode_value` are `2^bits - 1`, and selectors `12` and `15`, written out in
the source, unpack as the others do: each selector decodes as its `NUM_BITS` code. -/
theorem decodeValue_of_code {W : UInt64} {idx intN bitN : ℕ}
    (he : ((intN, bitN), idx) ∈ numBits.zipIdx)
    (hsel : (W >>> s8bBitSize.toUInt64).toNat = idx + 2) :
    decodeValue W = unpack intN bitN (UInt64.ofNat (2 ^ bitN - 1)) W := by
  obtain ⟨-, hidx, hcode⟩ := List.mem_zipIdx he
  have hidx : idx < 14 := by simpa [numBits] using hidx
  simp only [Nat.sub_zero] at hcode
  rw [decodeValue, hsel]
  interval_cases idx <;> simp only [numBits, List.getElem_cons_zero, List.getElem_cons_succ,
    Prod.mk.injEq] at hcode <;> obtain ⟨rfl, rfl⟩ := hcode <;> rfl

/-- `1 << (bit_n & 0x3f)`, the bound of the values of a code, is `2 ^ bit_n`. -/
theorem toNat_maxVal {bitN : ℕ} (hb64 : bitN < 64) :
    ((1 : UInt64) <<< (bitN.toUInt64 &&& 0x3f)).toNat = 2 ^ bitN := by
  have hs : (bitN.toUInt64 &&& 0x3f).toNat = bitN := by
    rw [UInt64.toNat_and, show (0x3f : UInt64).toNat = 2 ^ 6 - 1 from rfl,
      Nat.and_two_pow_sub_one_eq_mod, Nat.toUInt64_eq, UInt64.toNat_ofNat',
      Nat.mod_eq_of_lt (by omega), Nat.mod_eq_of_lt (by omega)]
  rw [UInt64.toNat_shiftLeft, hs, Nat.mod_eq_of_lt hb64, UInt64.toNat_one, Nat.one_shiftLeft,
    Nat.mod_eq_of_lt (Nat.pow_lt_pow_right (by omega) hb64)]

/-- A code word reads back as the values it packs. -/
theorem decodeValue_tryCode {idx intN bitN : ℕ}
    (he : ((intN, bitN), idx) ∈ numBits.zipIdx) (h : tryCode src idx intN bitN = some w) :
    decodeValue w = src.take intN := by
  obtain ⟨-, hidx, hcode⟩ := List.mem_zipIdx he
  have hidx : idx < 14 := by simpa [numBits] using hidx
  obtain ⟨hb, hb64, hlen⟩ := numBits_fit _ (hcode ▸ List.getElem_mem _)
  simp only at hb hb64 hlen
  unfold tryCode at h
  dsimp only at h
  split_ifs at h with hshort hall
  cases h
  have htake : (src.take intN).length = intN := List.length_take_of_le (by omega)
  -- each value is below `1 << bit_n`, so fits in `bit_n` bits
  have hfit : Fit bitN ((src.take intN).map UInt64.toNat) := by
    intro n hn
    obtain ⟨v, hv, rfl⟩ := List.mem_map.1 hn
    have := List.all_eq_true.1 hall v hv
    rw [decide_eq_true_eq, UInt64.lt_iff_toNat_lt, toNat_maxVal hb64] at this
    exact this
  have hsel : idx.toUInt64 + 2 = (idx + 2).toUInt64 := by
    simp [Nat.toUInt64_eq, UInt64.ofNat_add]
  have hword := toNat_codeWord hb (show idx + 2 < 16 by omega) hfit (by rw [htake]; exact hlen)
  rw [← hsel, htake] at hword
  -- the packing stays below the selector's bits
  have hF : fields bitN ((src.take intN).map UInt64.toNat) < 2 ^ 60 :=
    lt_of_lt_of_le (fields_lt hfit)
      (Nat.pow_le_pow_right (by omega) (by rw [List.length_map, htake, Nat.mul_comm]; exact hlen))
  have hhigh : 2 ^ (bitN * intN) * (2 ^ (60 - bitN * intN) * (idx + 2)) = 2 ^ 60 * (idx + 2) := by
    rw [← Nat.mul_assoc, ← Nat.pow_add, Nat.add_sub_cancel' (by rw [Nat.mul_comm]; exact hlen)]
  have hselector : (orValues bitN 0 (src.take intN) ((idx.toUInt64 + 2) <<< s8bBitSize.toUInt64) >>>
      s8bBitSize.toUInt64).toNat = idx + 2 := by
    rw [UInt64.toNat_shiftRight, hword, hhigh, show s8bBitSize.toUInt64.toNat % 64 = 60 from rfl,
      Nat.shiftRight_eq_div_pow, Nat.add_comm, Nat.mul_add_div (Nat.two_pow_pos 60),
      Nat.div_eq_of_lt hF, Nat.add_zero]
  have hmask : (UInt64.ofNat (2 ^ bitN - 1)).toNat = 2 ^ bitN - 1 := by
    rw [UInt64.toNat_ofNat', Nat.mod_eq_of_lt]
    have := Nat.pow_lt_pow_right (show 1 < 2 by omega) hb64
    omega
  have hunpack := unpack_eq hb64 hmask _ _ hfit (by rw [htake]; exact hword)
  rw [htake] at hunpack
  rw [decodeValue_of_code he hselector, hunpack]

/-! ## The round trip -/

/-- The word of the first fitting code reads back as the values it packs. -/
theorem firstCode_spec {n : ℕ} (h : firstCode src = some (w, n)) : decodeValue w = src.take n := by
  obtain ⟨⟨⟨intN, bitN⟩, idx⟩, he, hr⟩ := List.exists_of_findSome?_eq_some h
  obtain ⟨w', hw', hwn⟩ := Option.map_eq_some_iff.1 hr
  cases hwn
  exact decodeValue_tryCode he hw'

/-- Some code holds the next value when it is at most `MAX_VALUE`: the last, one value of 60
bits. -/
theorem firstCode_isSome (hne : src ≠ []) (hmax : ∀ v ∈ src, v ≤ maxValue) :
    (firstCode src).isSome := by
  obtain ⟨v, vs, rfl⟩ := List.exists_cons_of_ne_nil hne
  have hv : v.toNat < 2 ^ 60 := by
    have := UInt64.le_iff_toNat_le.1 (hmax v List.mem_cons_self)
    rw [show maxValue.toNat = 2 ^ 60 - 1 from rfl] at this
    omega
  have hlast : ((1, 60), 13) ∈ numBits.zipIdx := by decide
  have hfits : (tryCode (v :: vs) 13 1 60).isSome := by
    have hlt : v < (1 : UInt64) <<< (60 &&& 63) := by
      rw [UInt64.lt_iff_toNat_lt]
      exact lt_of_lt_of_eq hv rfl
    simp [tryCode, hlt]
  exact List.findSome?_isSome_iff.2 ⟨_, hlast, by simpa using hfits⟩

/-- A pass over values at most `MAX_VALUE` writes a word that reads back as the values it
packs, at least one. -/
theorem step_spec (hne : src ≠ []) (hmax : ∀ v ∈ src, v ≤ maxValue) :
    ∃ w n, step src = .ok (w, n) ∧ decodeValue w = src.take n ∧ 0 < n := by
  unfold step
  cases hrun : runOfOnes src with
  | some r =>
    obtain ⟨hwn, htake⟩ := runOfOnes_spec hrun
    refine ⟨r.1, r.2, rfl, ?_, runOfOnes_pos hrun⟩
    rcases hwn with ⟨hw, hn⟩ | ⟨hw, hn⟩ <;> rw [htake, hw, hn] <;> rfl
  | none =>
    obtain ⟨⟨w, n⟩, hcode⟩ := Option.isSome_iff_exists.1 (firstCode_isSome hne hmax)
    exact ⟨w, n, by simp [hcode], firstCode_spec hcode, firstCode_pos hcode⟩

/-- The words of values at most `MAX_VALUE` read back as the values. -/
theorem encodeWords_spec : ∀ (src : List UInt64), (∀ v ∈ src, v ≤ maxValue) →
    ∃ words, encodeWords src = .ok words ∧ words.flatMap decodeValue = src
  | [], _ => ⟨[], by simp [encodeWords], rfl⟩
  | v :: vs, hmax => by
    obtain ⟨w, n, hstep, hdecode, hpos⟩ := step_spec (List.cons_ne_nil v vs) hmax
    have hdrop : ∀ x ∈ (v :: vs).drop n, x ≤ maxValue := fun x hx => hmax x (List.mem_of_mem_drop hx)
    obtain ⟨words, hwords, hflat⟩ := encodeWords_spec ((v :: vs).drop n) hdrop
    refine ⟨w :: words, ?_, ?_⟩
    · rw [encodeWords]
      split
      · rename_i e he
        rw [hstep] at he
        cases he
      · rename_i word m hm
        rw [hstep] at hm
        cases hm
        rw [hwords]
        rfl
    · rw [List.flatMap_cons, hdecode, hflat, List.take_append_drop]
termination_by src => src.length
decreasing_by
  simp only [List.length_drop, List.length_cons]
  omega

/-- Eight bytes are eight named bytes. -/
theorem eq_of_length_eq_eight : ∀ {bs : List UInt8}, bs.length = 8 →
    ∃ b0 b1 b2 b3 b4 b5 b6 b7, bs = [b0, b1, b2, b3, b4, b5, b6, b7]
  | [b0, b1, b2, b3, b4, b5, b6, b7], _ => ⟨b0, b1, b2, b3, b4, b5, b6, b7, rfl⟩

@[simp] theorem length_wordBytes (w : UInt64) : (wordBytes w).length = 8 :=
  BigEndian.length_toBytes 8 w.toNat

/-- A word reads back from its bytes, `u64::from_be_bytes` of `to_be_bytes`. -/
theorem ofBytes_wordBytes (w : UInt64) : UInt64.ofNat (BigEndian.ofBytes (wordBytes w)) = w := by
  rw [wordBytes, BigEndian.ofBytes_toBytes, Nat.mod_eq_of_lt (lt_of_lt_of_eq w.toNat_lt (by decide)),
    UInt64.ofNat_toNat]

/-- The decoder reads a word back from its eight bytes. -/
theorem decode_wordBytes_append (w : UInt64) (rest : List UInt8) :
    decode (wordBytes w ++ rest) = (decode rest).map (decodeValue w ++ ·) := by
  obtain ⟨b0, b1, b2, b3, b4, b5, b6, b7, hb⟩ := eq_of_length_eq_eight (length_wordBytes w)
  have hword := ofBytes_wordBytes w
  rw [hb] at hword
  rw [hb]
  simp only [List.cons_append, List.nil_append, decode, hword]

theorem decode_flatMap_wordBytes : ∀ words : List UInt64,
    decode (words.flatMap wordBytes) = some (words.flatMap decodeValue)
  | [] => rfl
  | w :: words => by
    rw [List.flatMap_cons, decode_wordBytes_append, decode_flatMap_wordBytes words, Option.map_some,
      List.flatMap_cons]

/-- The round trip: values at most `MAX_VALUE` encode, and decode back from the bytes. -/
theorem decode_encode (hmax : ∀ v ∈ src, v ≤ maxValue) :
    ∃ bytes, encode src = .ok bytes ∧ decode bytes = some src := by
  obtain ⟨words, hwords, hflat⟩ := encodeWords_spec src hmax
  exact ⟨words.flatMap wordBytes, by rw [encode, hwords]; rfl,
    by rw [decode_flatMap_wordBytes, hflat]⟩

/-! ## Which values encode -/

/-- The values a code word packs are at most `MAX_VALUE`: each is below `2 ^ bit_n`, and no code
has more than 60 bits. -/
theorem tryCode_le_maxValue {idx intN bitN : ℕ}
    (he : ((intN, bitN), idx) ∈ numBits.zipIdx) (h : tryCode src idx intN bitN = some w) :
    ∀ v ∈ src.take intN, v ≤ maxValue := by
  obtain ⟨-, -, hcode⟩ := List.mem_zipIdx he
  have hmem : (intN, bitN) ∈ numBits := hcode ▸ List.getElem_mem _
  obtain ⟨-, hb64, hlen⟩ := numBits_fit _ hmem
  simp only at hb64 hlen
  have hb60 : bitN ≤ 60 :=
    le_trans (Nat.le_mul_of_pos_left bitN (pos_of_mem_numBits _ hmem)) hlen
  unfold tryCode at h
  dsimp only at h
  split_ifs at h with hshort hall
  intro v hv
  have hlt := List.all_eq_true.1 hall v hv
  rw [decide_eq_true_eq, UInt64.lt_iff_toNat_lt, toNat_maxVal hb64] at hlt
  rw [UInt64.le_iff_toNat_le, show maxValue.toNat = 2 ^ 60 - 1 from rfl]
  have := Nat.pow_le_pow_right (show 0 < 2 by omega) hb60
  omega

/-- What one pass packs is at most `MAX_VALUE`: ones, or the values of a code word. -/
theorem step_le_maxValue {n : ℕ} (h : step src = .ok (w, n)) : ∀ v ∈ src.take n, v ≤ maxValue := by
  unfold step at h
  split at h
  · rename_i r hrun
    cases h
    obtain ⟨-, htake⟩ := runOfOnes_spec hrun
    intro v hv
    rw [htake] at hv
    rw [List.eq_of_mem_replicate hv]
    decide
  · split at h
    · rename_i r hcode
      cases h
      obtain ⟨⟨⟨intN, bitN⟩, idx⟩, he, hr⟩ := List.exists_of_findSome?_eq_some hcode
      obtain ⟨w', hw', hwn⟩ := Option.map_eq_some_iff.1 hr
      cases hwn
      exact tryCode_le_maxValue he hw'
    · cases h

/-- `encode` succeeds only on values at most `MAX_VALUE`: a larger value fits no word. -/
theorem le_maxValue_of_encodeWords : ∀ (src : List UInt64) {words : List UInt64},
    encodeWords src = .ok words → ∀ v ∈ src, v ≤ maxValue
  | [], _, _ => by simp
  | v :: vs, words, h => by
    rw [encodeWords] at h
    split at h
    · cases h
    · rename_i w n hstep
      have hpos := step_pos hstep
      cases hrest : encodeWords ((v :: vs).drop n) with
      | error e =>
        rw [hrest] at h
        cases h
      | ok ws =>
        have ih := le_maxValue_of_encodeWords ((v :: vs).drop n) hrest
        intro x hx
        rw [← List.take_append_drop n (v :: vs)] at hx
        rcases List.mem_append.1 hx with hx | hx
        · exact step_le_maxValue hstep x hx
        · exact ih x hx
termination_by src => src.length
decreasing_by
  simp only [List.length_drop, List.length_cons]
  omega

theorem length_flatMap_wordBytes : ∀ words : List UInt64,
    (words.flatMap wordBytes).length = 8 * words.length
  | [] => rfl
  | w :: words => by
    rw [List.flatMap_cons, List.length_append, length_wordBytes, length_flatMap_wordBytes words,
      List.length_cons]
    omega

theorem encode_eq_ok {bytes : List UInt8} :
    encode src = .ok bytes ↔ ∃ words, encodeWords src = .ok words ∧ bytes = words.flatMap wordBytes := by
  unfold encode
  cases encodeWords src with
  | error e => simp [Except.map]
  | ok words =>
    simp only [Except.map, Except.ok.injEq]
    exact ⟨fun h => ⟨words, rfl, h.symm⟩, fun ⟨ws, hws, hb⟩ => by rw [hb, hws]⟩

/-- `encode` into an empty buffer succeeds exactly when every value is at most `MAX_VALUE`, and
then it writes whole eight-byte words from which `decode` reads the values back, in order. -/
theorem simple8b_round_trip (src : List UInt64) :
    ((∃ bytes, encode src = .ok bytes) ↔ ∀ v ∈ src, v ≤ maxValue) ∧
      ∀ bytes, encode src = .ok bytes → bytes.length % 8 = 0 ∧ decode bytes = some src := by
  refine ⟨⟨fun ⟨bytes, h⟩ => ?_, fun hmax => ?_⟩, fun bytes h => ?_⟩
  · obtain ⟨words, hwords, -⟩ := encode_eq_ok.1 h
    exact le_maxValue_of_encodeWords src hwords
  · obtain ⟨bytes, h, -⟩ := decode_encode hmax
    exact ⟨bytes, h⟩
  · obtain ⟨words, hwords, rfl⟩ := encode_eq_ok.1 h
    obtain ⟨words', hwords', hflat⟩ :=
      encodeWords_spec src (le_maxValue_of_encodeWords src hwords)
    rw [hwords, Except.ok.injEq] at hwords'
    subst hwords'
    refine ⟨?_, by rw [decode_flatMap_wordBytes, hflat]⟩
    rw [length_flatMap_wordBytes]
    omega

end IoxCore.Tsm.Simple8b

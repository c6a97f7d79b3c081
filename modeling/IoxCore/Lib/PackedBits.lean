import Mathlib

/-!
# Bits packed in a byte buffer

A byte buffer read as a sequence of bits, the least significant bit of each byte first:
the layout of arrow's validity and boolean buffers. Next to the reading are the few
operations of Rust's `Vec` that a bit-packing routine performs on such a buffer, each
returning `none` where Rust panics: `resize`, a write through `last_mut().unwrap()`
(`modifyLast`) and a range slice (`slice`).

`bitAt buf i` is bit `i % 8` of byte `i / 8`, and `false` past the end of the buffer.
`Packs buf l` says that `buf` holds the bits `l` in exactly `⌈|l| / 8⌉` bytes with every
bit past `l` zero; the lemmas of the last section say which buffer operations keep it,
and with which list.
-/

namespace PackedBits

variable {buf : List UInt8} {x : UInt8} {s : ℕ}

/-! ## Bits of a byte -/

/-- Bit `i` of a byte; `false` from bit 8 on. -/
def bit (x : UInt8) (i : ℕ) : Bool := x.toNat.testBit i

@[simp] theorem bit_or (x y : UInt8) (i : ℕ) : bit (x ||| y) i = (bit x i || bit y i) := by
  simp [bit]

@[simp] theorem bit_and (x y : UInt8) (i : ℕ) : bit (x &&& y) i = (bit x i && bit y i) := by
  simp [bit]

@[simp] theorem bit_zero (i : ℕ) : bit 0 i = false := by simp [bit]

theorem bit_of_le (x : UInt8) {i : ℕ} (h : 8 ≤ i) : bit x i = false := by
  apply Nat.testBit_eq_false_of_lt
  calc x.toNat < 2 ^ 8 := x.toNat_lt
    _ ≤ 2 ^ i := Nat.pow_le_pow_right (by omega) h

theorem toNat_toUInt8_mod (hs : s < 8) : s.toUInt8.toNat % 8 = s := by
  simp only [Nat.toUInt8_eq, UInt8.toNat_ofNat']
  omega

/-- `x << s` moves bit `i - s` to `i` and drops what passes bit 7. -/
theorem bit_shiftLeft (x : UInt8) (hs : s < 8) (i : ℕ) :
    bit (x <<< s.toUInt8) i = (decide (s ≤ i) && decide (i < 8) && bit x (i - s)) := by
  rw [bit, UInt8.toNat_shiftLeft, toNat_toUInt8_mod hs, Nat.testBit_mod_two_pow,
    Nat.testBit_shiftLeft]
  cases decide (s ≤ i) <;> cases decide (i < 8) <;> simp [bit]

theorem bit_shiftRight (x : UInt8) (hs : s < 8) (i : ℕ) :
    bit (x >>> s.toUInt8) i = bit x (i + s) := by
  rw [bit, UInt8.toNat_shiftRight, toNat_toUInt8_mod hs, Nat.testBit_shiftRight, Nat.add_comm]
  rfl

/-- The mask `(1 << n) - 1` of the low `n` bits. -/
theorem bit_lowMask {n : ℕ} (hn : n < 8) (i : ℕ) :
    bit ((1 <<< n.toUInt8) - 1) i = decide (i < n) := by
  have hpow : 2 ^ n < 2 ^ 8 := Nat.pow_lt_pow_right (by omega) hn
  have hshl : (1 <<< n.toUInt8 : UInt8).toNat = 2 ^ n := by
    rw [UInt8.toNat_shiftLeft, toNat_toUInt8_mod hn, Nat.shiftLeft_eq, UInt8.toNat_one,
      Nat.one_mul, Nat.mod_eq_of_lt hpow]
  have hmask : ((1 <<< n.toUInt8) - 1 : UInt8).toNat = 2 ^ n - 1 := by
    rw [UInt8.toNat_sub_of_le, hshl, UInt8.toNat_one]
    rw [UInt8.le_iff_toNat_le, hshl, UInt8.toNat_one]
    exact Nat.one_le_two_pow
  rw [bit, hmask, Nat.testBit_two_pow_sub_one]

theorem bit_ff (i : ℕ) : bit 0xFF i = decide (i < 8) := by
  have hff : (0xFF : UInt8).toNat = 2 ^ 8 - 1 := rfl
  rw [bit, hff, Nat.testBit_two_pow_sub_one]

/-- The byte `1 << r` has bit `r` alone. -/
theorem bit_oneShiftLeft {r : ℕ} (hr : r < 8) (i : ℕ) : bit (1 <<< r.toUInt8) i = decide (i = r) := by
  have hone : ∀ k, bit 1 k = decide (k = 0) := by
    intro k
    rw [bit, show (1 : UInt8).toNat = 2 ^ 1 - 1 from rfl, Nat.testBit_two_pow_sub_one]
    simp
  rw [bit_shiftLeft _ hr, hone]
  by_cases hi : i = r
  · simp [hi, hr]
  · by_cases hri : r ≤ i
    · simp [hi, show i - r ≠ 0 by omega]
    · simp [hi, hri]

/-- Testing a bit by shifting it down and masking it. -/
theorem shiftRight_and_one_ne_zero (hs : s < 8) :
    ((x >>> s.toUInt8) &&& 1 ≠ 0) ↔ bit x s = true := by
  have hlow : ((x >>> s.toUInt8) &&& 1).toNat = x.toNat >>> s % 2 := by
    rw [UInt8.toNat_and, UInt8.toNat_shiftRight, toNat_toUInt8_mod hs, UInt8.toNat_one,
      Nat.and_one_is_mod]
  rw [bit, Nat.testBit_eq_decide_div_mod_eq, ← Nat.shiftRight_eq_div_pow, ne_eq,
    ← UInt8.toNat_inj, hlow, UInt8.toNat_zero, decide_eq_true_eq]
  omega

theorem bit_eq_getLsbD (x : UInt8) (i : ℕ) : bit x i = x.toBitVec.getLsbD i := rfl

@[simp] theorem bit_not (x : UInt8) (i : ℕ) : bit (~~~x) i = (decide (i < 8) && !bit x i) := by
  rw [bit_eq_getLsbD, bit_eq_getLsbD, UInt8.toBitVec_not, BitVec.getLsbD_not]

/-- A byte is determined by its eight bits. -/
theorem eq_iff_bit {x y : UInt8} : x = y ↔ ∀ j < 8, bit x j = bit y j := by
  constructor
  · rintro rfl _ _
    rfl
  · intro h
    apply UInt8.toNat_inj.mp
    apply Nat.eq_of_testBit_eq
    intro j
    by_cases hj : j < 8
    · exact h j hj
    · exact (bit_of_le x (by omega)).trans (bit_of_le y (by omega)).symm

theorem eq_zero_iff_bit : x = 0 ↔ ∀ j < 8, bit x j = false := by
  simp [eq_iff_bit]

theorem eq_ff_iff_bit : x = 0xFF ↔ ∀ j < 8, bit x j = true := by
  rw [eq_iff_bit]
  refine forall₂_congr fun j hj => ?_
  rw [bit_ff, decide_eq_true hj]

/-- The mask `!(0xFF << r)` of the low `r` bits is `(1 << r) - 1`. -/
theorem not_ff_shiftLeft {r : ℕ} (hr : r < 8) :
    ~~~((0xFF : UInt8) <<< r.toUInt8) = (1 <<< r.toUInt8) - 1 := by
  revert r
  decide +kernel

/-! ## Set bits of a byte -/

/-- `u8::trailing_zeros`: the index of the lowest set bit, 8 for zero. -/
def trailingZeros (x : UInt8) : ℕ := x.toBitVec.ctz.toNat

/-- The indices of the set bits of a byte, lowest first. -/
def setBits (x : UInt8) : List ℕ := (List.range 8).filter (bit x)

/-- `u8::count_ones`. -/
def popcount (x : UInt8) : ℕ := (setBits x).length

@[simp] theorem setBits_zero : setBits 0 = [] := by
  simp [setBits]

set_option maxRecDepth 20000 in
/-- Clearing the lowest set bit of a nonzero byte lowers it. -/
theorem toNat_xor_lowest_lt (hx : x ≠ 0) :
    (x ^^^ (1 <<< (trailingZeros x).toUInt8)).toNat < x.toNat := by
  have hall : ∀ n : Fin 256, UInt8.ofNat n ≠ 0 →
      (UInt8.ofNat n ^^^ (1 <<< (trailingZeros (UInt8.ofNat n)).toUInt8)).toNat <
        (UInt8.ofNat n).toNat := by
    decide +kernel
  have := hall ⟨x.toNat, x.toNat_lt⟩
  simpa [hx] using this

set_option maxRecDepth 20000 in
/-- The set bits of a nonzero byte are its lowest one, then those left once it is cleared. -/
theorem setBits_eq_lowest_cons (hx : x ≠ 0) :
    setBits x = trailingZeros x :: setBits (x ^^^ (1 <<< (trailingZeros x).toUInt8)) := by
  have hall : ∀ n : Fin 256, UInt8.ofNat n ≠ 0 →
      setBits (UInt8.ofNat n) = trailingZeros (UInt8.ofNat n) ::
        setBits (UInt8.ofNat n ^^^ (1 <<< (trailingZeros (UInt8.ofNat n)).toUInt8)) := by
    decide +kernel
  have := hall ⟨x.toNat, x.toNat_lt⟩
  simpa [hx] using this

/-- Masking a byte with `0xFF << s` drops its set bits below `s`. -/
theorem setBits_and_ff_shiftLeft (x : UInt8) (hs : s < 8) :
    setBits (x &&& (0xFF <<< s.toUInt8)) = (setBits x).filter (s ≤ ·) := by
  unfold setBits
  rw [List.filter_filter]
  refine List.filter_congr fun j hj => ?_
  have hj8 : j < 8 := List.mem_range.1 hj
  rw [bit_and, bit_shiftLeft _ hs, bit_ff (j - s)]
  simp only [hj8, show j - s < 8 by omega, decide_true, Bool.and_true]
  exact Bool.and_comm _ _

/-! ## Bits of a buffer -/

/-- Bit `i` of a buffer, the least significant bit of each byte first; `false` past its end. -/
def bitAt (buf : List UInt8) (i : ℕ) : Bool := bit (buf.getD (i / 8) 0) (i % 8)

/-- The first `n` bits of a buffer. -/
def bits (buf : List UInt8) (n : ℕ) : List Bool := (List.range n).map (bitAt buf)

@[simp] theorem bitAt_nil (i : ℕ) : bitAt [] i = false := by simp [bitAt]

theorem bitAt_eq_false_of_le {i : ℕ} (h : 8 * buf.length ≤ i) : bitAt buf i = false := by
  rw [bitAt, List.getD_eq_default _ _ (by omega), bit_zero]

theorem bitAt_singleton (x : UInt8) (i : ℕ) : bitAt [x] i = bit x i := by
  by_cases hi : i < 8
  · simp [bitAt, Nat.div_eq_of_lt hi, Nat.mod_eq_of_lt hi]
  · rw [bitAt_eq_false_of_le (by simp; omega), bit_of_le x (by omega)]

/-- Bit `8 j + r` of a buffer is bit `r` of byte `j`. -/
theorem bitAt_eight_mul_add (buf : List UInt8) (j : ℕ) {r : ℕ} (hr : r < 8) :
    bitAt buf (8 * j + r) = bit (buf.getD j 0) r := by
  rw [bitAt, show (8 * j + r) / 8 = j by omega, show (8 * j + r) % 8 = r by omega]

/-- The set bits of byte `i` of a buffer. -/
theorem filter_bitAt_byte (buf : List UInt8) (i : ℕ) :
    (List.range' (8 * i) 8).filter (bitAt buf) = (setBits (buf.getD i 0)).map (8 * i + ·) := by
  rw [List.range'_eq_map_range, List.filter_map, setBits]
  congr 1
  refine List.filter_congr fun r hr => ?_
  exact bitAt_eight_mul_add buf i (List.mem_range.1 hr)

/-- The bits of bytes `[i, i + n + 1)` are those of byte `i`, then those of the rest. -/
theorem range'_eight_mul_succ (i n : ℕ) :
    List.range' (8 * i) (8 * (n + 1)) = List.range' (8 * i) 8 ++ List.range' (8 * (i + 1)) (8 * n) := by
  rw [show 8 * (n + 1) = 8 + 8 * n by omega, ← List.range'_append_1,
    show 8 * i + 8 = 8 * (i + 1) by omega]

/-- The set bits of bytes `[i, i + n)` of a buffer, byte by byte. -/
theorem filter_bitAt_range' (buf : List UInt8) (i n : ℕ) :
    (List.range' (8 * i) (8 * n)).filter (bitAt buf) =
      (List.range' i n).flatMap fun j => (setBits (buf.getD j 0)).map (8 * j + ·) := by
  induction n generalizing i with
  | zero => simp
  | succ n ih =>
    rw [range'_eight_mul_succ, List.filter_append, filter_bitAt_byte, ih, List.range'_succ,
      List.flatMap_cons]

/-- A buffer of zero bytes has no bit set. -/
theorem forall_eq_zero_iff_bitAt : (∀ x ∈ buf, x = 0) ↔ ∀ p, bitAt buf p = false := by
  constructor
  · intro h p
    rw [bitAt, List.getD_eq_getElem?_getD]
    cases hq : buf[p / 8]? with
    | none => simp
    | some x => simp [h x (List.mem_of_getElem? hq)]
  · intro h x hx
    obtain ⟨j, hj, rfl⟩ := List.getElem_of_mem hx
    refine eq_zero_iff_bit.2 fun r hr => ?_
    rw [← h (8 * j + r), bitAt_eight_mul_add _ _ hr, List.getD_eq_getElem _ _ hj]

/-- The first `m` bytes of a buffer are `0xFF` when its first `8 m` bits are set. -/
theorem forall_take_eq_ff_iff_bitAt {m : ℕ} (hm : m ≤ buf.length) :
    (∀ x ∈ buf.take m, x = 0xFF) ↔ ∀ p < 8 * m, bitAt buf p = true := by
  constructor
  · intro h p hp
    have hq : p / 8 < buf.length := by omega
    have hx : buf[p / 8] = 0xFF := h _ (List.mem_iff_getElem.2 ⟨p / 8, by simp; omega, by simp⟩)
    rw [bitAt, List.getD_eq_getElem _ _ hq, hx, bit_ff]
    simp [Nat.mod_lt]
  · intro h x hx
    obtain ⟨j, hj, rfl⟩ := List.getElem_of_mem hx
    simp only [List.length_take] at hj
    refine eq_ff_iff_bit.2 fun r hr => ?_
    rw [← h (8 * j + r) (by omega), bitAt_eight_mul_add _ _ hr, List.getD_eq_getElem _ _ (by omega),
      List.getElem_take]

theorem bitAt_append (xs ys : List UInt8) (i : ℕ) :
    bitAt (xs ++ ys) i = if i < 8 * xs.length then bitAt xs i else bitAt ys (i - 8 * xs.length) := by
  split
  · rw [bitAt, bitAt, List.getD_append _ _ _ _ (by omega)]
  · have hq : (i - 8 * xs.length) / 8 = i / 8 - xs.length := by omega
    have hr : (i - 8 * xs.length) % 8 = i % 8 := by omega
    rw [bitAt, bitAt, List.getD_append_right _ _ _ _ (by omega), hq, hr]

/-- Bit `i` of `xs ++ [y]` past `xs` is bit `i - 8|xs|` of `y`. -/
theorem bitAt_concat (xs : List UInt8) (y : UInt8) (i : ℕ) :
    bitAt (xs ++ [y]) i = if i < 8 * xs.length then bitAt xs i else bit y (i - 8 * xs.length) := by
  rw [bitAt_append, bitAt_singleton]

theorem bitAt_concat_or (xs : List UInt8) (y z : UInt8) (i : ℕ) : bitAt (xs ++ [y ||| z]) i =
      (bitAt (xs ++ [y]) i || (decide (8 * xs.length ≤ i) && bit z (i - 8 * xs.length))) := by
  rw [bitAt_concat, bitAt_concat]
  by_cases hi : i < 8 * xs.length
  · simp [hi]
  · simp [hi, show 8 * xs.length ≤ i by omega]

theorem bitAt_concat_and (xs : List UInt8) (y z : UInt8) (i : ℕ) : bitAt (xs ++ [y &&& z]) i =
      (bitAt (xs ++ [y]) i && (decide (i < 8 * xs.length) || bit z (i - 8 * xs.length))) := by
  rw [bitAt_concat, bitAt_concat]
  by_cases hi : i < 8 * xs.length
  · simp [hi]
  · simp [hi]

theorem bitAt_take (buf : List UInt8) (n i : ℕ) :
    bitAt (buf.take n) i = (decide (i < 8 * n) && bitAt buf i) := by
  simp only [bitAt, List.getD_eq_getElem?_getD, List.getElem?_take]
  by_cases hi : i < 8 * n
  · simp [hi, show i / 8 < n by omega]
  · simp [hi, show ¬ i / 8 < n by omega]

theorem bitAt_drop (buf : List UInt8) (n i : ℕ) : bitAt (buf.drop n) i = bitAt buf (8 * n + i) := by
  have hq : (8 * n + i) / 8 = n + i / 8 := by omega
  have hr : (8 * n + i) % 8 = i % 8 := by omega
  simp only [bitAt, List.getD_eq_getElem?_getD, List.getElem?_drop, hq, hr]

theorem bitAt_replicate (x : UInt8) (k i : ℕ) :
    bitAt (List.replicate k x) i = (decide (i < 8 * k) && bit x (i % 8)) := by
  simp only [bitAt, List.getD_eq_getElem?_getD, List.getElem?_replicate]
  by_cases hi : i < 8 * k
  · simp [hi, show i / 8 < k by omega]
  · simp [hi, show ¬ i / 8 < k by omega]

theorem bitAt_set (buf : List UInt8) {q : ℕ} (x : UInt8) (hq : q < buf.length) (i : ℕ) :
    bitAt (buf.set q x) i = if i / 8 = q then bit x (i % 8) else bitAt buf i := by
  simp only [bitAt, List.getD_eq_getElem?_getD, List.getElem?_set]
  by_cases hi : i / 8 = q
  · simp [hi, hq]
  · simp [hi, Ne.symm hi]

@[simp] theorem length_bits (buf : List UInt8) (n : ℕ) : (bits buf n).length = n := by
  simp [bits]

theorem getD_bits (buf : List UInt8) (n i : ℕ) :
    (bits buf n).getD i false = (decide (i < n) && bitAt buf i) := by
  by_cases hi : i < n
  · rw [List.getD_eq_getElem _ _ (by rwa [length_bits])]
    simp [bits, hi]
  · rw [List.getD_eq_default _ _ (by rw [length_bits]; omega)]
    simp [hi]

@[simp] theorem getElem_bits (buf : List UInt8) (n i : ℕ) (h : i < (bits buf n).length) :
    (bits buf n)[i] = bitAt buf i := by
  simp [bits]

/-- The bits of a buffer are those of its first byte, then those of the rest. -/
theorem bits_cons (x : UInt8) (rest : List UInt8) (n : ℕ) :
    bits (x :: rest) (8 + n) = bits [x] 8 ++ bits rest n := by
  apply List.ext_getElem (by simp)
  intro i h₁ h₂
  rw [getElem_bits, List.getElem_append]
  have hcons : bitAt (x :: rest) i = bitAt ([x] ++ rest) i := rfl
  rw [hcons, bitAt_append]
  split <;> simp_all

theorem bits_take (buf : List UInt8) {m n : ℕ} (h : m ≤ 8 * n) : bits (buf.take n) m = bits buf m := by
  apply List.ext_getElem (by simp)
  intro i h₁ h₂
  simp only [getElem_bits, bitAt_take]
  simp only [length_bits] at h₁
  simp [show i < 8 * n by omega]

/-- The first `8k + r` bits of a buffer: those of its first `k` bytes, then `r` bits of byte `k`. -/
theorem bits_append_byte (buf : List UInt8) (k : ℕ) {r : ℕ} (hr : r ≤ 8) :
    bits buf (8 * k) ++ bits [buf.getD k 0] r = bits buf (8 * k + r) := by
  apply List.ext_getElem (by simp)
  intro i h₁ h₂
  rw [getElem_bits, List.getElem_append]
  simp only [length_bits] at h₂
  split
  · simp
  · rename_i hk
    simp only [length_bits, not_lt] at hk
    have hq : i / 8 = k := by omega
    rw [getElem_bits, bitAt_singleton, bitAt, hq, length_bits, show i - 8 * k = i % 8 by omega]

/-- Masking a byte to its low `r` bits leaves its first `r` bits. -/
theorem bits_mask (x : UInt8) {r : ℕ} (hr : r < 8) :
    bits [x &&& ((1 <<< r.toUInt8) - 1)] r = bits [x] r := by
  apply List.ext_getElem (by simp)
  intro i h₁ h₂
  simp only [length_bits] at h₁
  simp [bitAt_singleton, bit_lowMask hr, h₁]

/-! ## Bits read most significant first

The other order of the bits of a byte: bit `i` of the buffer is bit `7 - i % 8` of byte
`i / 8`, so that the first bit of a byte is its mask `128`. -/

/-- Bit `i` of a buffer, the most significant bit of each byte first. -/
def msbAt (buf : List UInt8) (i : ℕ) : Bool := bit (buf.getD (i / 8) 0) (7 - i % 8)

@[simp] theorem msbAt_nil (i : ℕ) : msbAt [] i = false := by simp [msbAt]

theorem msbAt_take (buf : List UInt8) (n i : ℕ) :
    msbAt (buf.take n) i = (decide (i < 8 * n) && msbAt buf i) := by
  simp only [msbAt, List.getD_eq_getElem?_getD, List.getElem?_take]
  by_cases hi : i < 8 * n
  · simp [hi, show i / 8 < n by omega]
  · simp [hi, show ¬ i / 8 < n by omega]

theorem msbAt_drop (buf : List UInt8) (n i : ℕ) : msbAt (buf.drop n) i = msbAt buf (8 * n + i) := by
  have hq : (8 * n + i) / 8 = n + i / 8 := by omega
  have hr : (8 * n + i) % 8 = i % 8 := by omega
  simp only [msbAt, List.getD_eq_getElem?_getD, List.getElem?_drop, hq, hr]

theorem msbAt_set (buf : List UInt8) {q : ℕ} (x : UInt8) (hq : q < buf.length) (i : ℕ) :
    msbAt (buf.set q x) i = if i / 8 = q then bit x (7 - i % 8) else msbAt buf i := by
  simp only [msbAt, List.getD_eq_getElem?_getD, List.getElem?_set]
  by_cases hi : i / 8 = q
  · simp [hi, hq]
  · simp [hi, Ne.symm hi]

/-- The mask `128 >> s` holds the single bit `s`, counted from the most significant. -/
theorem bit_msbMask (hs : s < 8) (j : ℕ) :
    bit ((128 : UInt8) >>> s.toUInt8) j = decide (j = 7 - s) := by
  rw [bit_shiftRight _ hs, bit, show (128 : UInt8).toNat = 2 ^ 7 from rfl, Nat.testBit_two_pow,
    decide_eq_decide]
  omega

/-- Testing a byte against the mask `128 >> k` reads its bit `k` from the most significant. -/
theorem and_msbMask_ne_zero (v : UInt8) {k : ℕ} (hk : k < 8) :
    (v &&& ((128 : UInt8) >>> k.toUInt8) != 0) = bit v (7 - k) := by
  have hzero : v &&& ((128 : UInt8) >>> k.toUInt8) = 0 ↔ bit v (7 - k) = false := by
    rw [eq_zero_iff_bit]
    constructor
    · intro h
      simpa [bit_msbMask hk] using h (7 - k) (by omega)
    · intro h j _
      rw [bit_and, bit_msbMask hk]
      by_cases hj : j = 7 - k
      · simp [hj, h]
      · simp [hj]
  cases hb : bit v (7 - k) <;> simp_all

/-! ## Lists of bits

A list of bits is read with `getD i false`, so that every position past its end reads as
an unset bit, as a packed buffer's does. -/

theorem getD_append_replicate (l : List Bool) (c : ℕ) (v : Bool) (i : ℕ) :
    (l ++ List.replicate c v).getD i false =
      (l.getD i false || (decide (l.length ≤ i) && decide (i < l.length + c) && v)) := by
  by_cases hi : i < l.length
  · rw [List.getD_append _ _ _ _ hi]
    simp [show ¬ l.length ≤ i by omega]
  · rw [List.getD_append_right _ _ _ _ (by omega), List.getD_eq_default l _ (by omega)]
    simp only [List.getD_eq_getElem?_getD, List.getElem?_replicate]
    by_cases hc : i < l.length + c
    · simp [hc, show i - l.length < c by omega, show l.length ≤ i by omega]
    · simp [hc, show ¬ i - l.length < c by omega]

theorem getD_take (l : List Bool) (n i : ℕ) :
    (l.take n).getD i false = (decide (i < n) && l.getD i false) := by
  simp only [List.getD_eq_getElem?_getD, List.getElem?_take]
  by_cases hi : i < n <;> simp [hi]

theorem getD_set_true (l : List Bool) {idx : ℕ} (h : idx < l.length) (i : ℕ) :
    (l.set idx true).getD i false = (decide (i = idx) || l.getD i false) := by
  simp only [List.getD_eq_getElem?_getD, List.getElem?_set]
  by_cases hi : i = idx
  · simp [hi, h]
  · simp [hi, Ne.symm hi]

/-! ## Rust vector operations -/

section Vec

variable {α : Type}

/-- Rust's `Vec::resize`: truncate to `n` elements or pad with `a`. -/
def resize (buf : List α) (n : ℕ) (a : α) : List α :=
  buf.take n ++ List.replicate (n - buf.length) a

/-- A write through `last_mut().unwrap()`, which panics on an empty vector. -/
def modifyLast (buf : List α) (f : α → α) : Option (List α) :=
  match buf.getLast? with
  | some x => some (buf.dropLast ++ [f x])
  | none => none

/-- The slice `&buf[a..b]`, which panics out of bounds. -/
def slice (buf : List α) (a b : ℕ) : Option (List α) :=
  if a ≤ b ∧ b ≤ buf.length then some ((buf.drop a).take (b - a)) else none

@[simp] theorem modifyLast_nil (f : α → α) : modifyLast [] f = none := rfl

@[simp] theorem modifyLast_concat (xs : List α) (y : α) (f : α → α) :
    modifyLast (xs ++ [y]) f = some (xs ++ [f y]) := by
  simp [modifyLast]

theorem resize_of_le {buf : List α} {n : ℕ} (a : α) (h : buf.length ≤ n) :
    resize buf n a = buf ++ List.replicate (n - buf.length) a := by
  rw [resize, List.take_of_length_le h]

theorem slice_of_le {buf : List α} {a b : ℕ} (hab : a ≤ b) (hb : b ≤ buf.length) :
    slice buf a b = some ((buf.drop a).take (b - a)) := by
  simp [slice, hab, hb]

@[simp] theorem length_slice {buf : List α} {a b : ℕ} (hb : b ≤ buf.length) :
    ((buf.drop a).take (b - a)).length = b - a := by
  simp; omega

end Vec

/-- Bit `i` of a byte slice starting at byte `a`. -/
theorem bitAt_slice (buf : List UInt8) (a b i : ℕ) :
    bitAt ((buf.drop a).take (b - a)) i = (decide (i < 8 * (b - a)) && bitAt buf (8 * a + i)) := by
  rw [bitAt_take, bitAt_drop]

/-! ## Writes to the last byte -/

/-- Or-ing `0xFF << (p % 8)` into the last byte of a buffer of `⌈p / 8⌉` bytes sets the bits
from `p` to the end of the buffer. -/
theorem modifyLast_or_high {p : ℕ} (hlen : buf.length = (p + 7) / 8) (hp : p % 8 ≠ 0) :
    ∃ buf', modifyLast buf (· ||| (0xFF <<< (p % 8).toUInt8)) = some buf' ∧
      buf'.length = buf.length ∧
      ∀ i, bitAt buf' i = (bitAt buf i || (decide (p ≤ i) && decide (i < 8 * buf.length))) := by
  rcases List.eq_nil_or_concat buf with rfl | ⟨xs, y, rfl⟩
  · simp at hlen; omega
  simp only [List.concat_eq_append, List.length_append, List.length_singleton] at hlen ⊢
  refine ⟨xs ++ [y ||| (0xFF <<< (p % 8).toUInt8)], by simp, by simp, fun i => ?_⟩
  rw [bitAt_concat_or, bit_shiftLeft _ (by omega), bit_ff]
  by_cases h8 : 8 * xs.length ≤ i
  · by_cases hp' : p ≤ i
    · by_cases hlast : i < 8 * (xs.length + 1)
      · simp [h8, hp', hlast, show p % 8 ≤ i - 8 * xs.length by omega,
          show i - 8 * xs.length < 8 by omega, show i - 8 * xs.length - p % 8 < 8 by omega]
      · simp [h8, hp', hlast, show ¬ i - 8 * xs.length < 8 by omega]
    · simp [h8, hp', show ¬ p % 8 ≤ i - 8 * xs.length by omega]
  · simp [h8, show ¬ p ≤ i by omega]

/-- And-ing `(1 << (n % 8)) - 1` into the last byte of a buffer of `⌈n / 8⌉` bytes clears the
bits from `n` on. -/
theorem modifyLast_and_low {n : ℕ} (hlen : buf.length = (n + 7) / 8) (hn : n % 8 ≠ 0) :
    ∃ buf', modifyLast buf (· &&& ((1 <<< (n % 8).toUInt8) - 1)) = some buf' ∧
      buf'.length = buf.length ∧ ∀ i, bitAt buf' i = (bitAt buf i && decide (i < n)) := by
  rcases List.eq_nil_or_concat buf with rfl | ⟨xs, y, rfl⟩
  · simp at hlen; omega
  simp only [List.concat_eq_append, List.length_append, List.length_singleton] at hlen ⊢
  refine ⟨xs ++ [y &&& ((1 <<< (n % 8).toUInt8) - 1)], by simp, by simp, fun i => ?_⟩
  rw [bitAt_concat_and, bit_lowMask (by omega)]
  by_cases h8 : i < 8 * xs.length
  · simp [h8, show i < n by omega]
  · by_cases hi : i < n
    · simp [h8, hi, show i - 8 * xs.length < n % 8 by omega]
    · simp [h8, hi, show ¬ i - 8 * xs.length < n % 8 by omega]

/-! ## Buffers that hold a list of bits -/

/-- `buf` holds the bits `l`: one byte per started group of eight, bit `i` of the buffer is
`l[i]`, and every bit past `l` is zero. -/
structure Packs (buf : List UInt8) (l : List Bool) : Prop where
  length_eq : buf.length = (l.length + 7) / 8
  bitAt_eq : ∀ i, bitAt buf i = l.getD i false

theorem packs_nil : Packs [] [] := ⟨rfl, fun i => by simp⟩

namespace Packs

variable {buf xs : List UInt8} {l m : List Bool} {x y : UInt8} {s k : ℕ}

theorem bitAt_of_le (h : Packs buf l) {i : ℕ} (hi : l.length ≤ i) : bitAt buf i = false := by
  rw [h.bitAt_eq, List.getD_eq_default _ _ hi]

/-- The bits held are the first `|l|` bits of the buffer. -/
theorem eq_bits (h : Packs buf l) : l = bits buf l.length := by
  apply List.ext_getElem (by simp)
  intro i h₁ h₂
  have hi := h.bitAt_eq i
  rw [List.getD_eq_getElem _ _ h₁] at hi
  simp [bits, hi]

/-- A nonempty buffer holding a list whose length is not a multiple of 8 ends in the byte
that is partly used; the bytes before it hold whole groups of eight. -/
theorem exists_concat (h : Packs buf l) (hs : l.length % 8 ≠ 0) :
    ∃ xs y, buf = xs ++ [y] ∧ 8 * xs.length + l.length % 8 = l.length := by
  rcases List.eq_nil_or_concat buf with hnil | ⟨xs, y, rfl⟩
  · have := h.length_eq
    simp only [hnil, List.length_nil] at this
    omega
  · have := h.length_eq
    simp only [List.concat_eq_append, List.length_append, List.length_singleton] at this
    exact ⟨xs, y, List.concat_eq_append .., by omega⟩

/-- Appending zero bytes up to a larger length appends unset bits. -/
theorem resize_zero (h : Packs buf l) (k : ℕ) :
    Packs (resize buf ((l.length + k + 7) / 8) 0) (l ++ List.replicate k false) := by
  have hlen := h.length_eq
  rw [resize_of_le 0 (by omega)]
  constructor
  · simp; omega
  · intro i
    rw [bitAt_append, bitAt_replicate, bit_zero, Bool.and_false]
    by_cases hi : i < l.length
    · rw [if_pos (by omega), h.bitAt_eq, List.getD_append _ _ _ _ hi]
    · rw [List.getD_append_right _ _ _ _ (by omega), List.getD_eq_getElem?_getD,
        List.getElem?_getD_replicate_default_eq, h.bitAt_of_le (by omega), ite_self]

/-- At a byte boundary, appending the bytes of another buffer appends its bits. -/
theorem append_aligned (h : Packs buf l) (hl : l.length % 8 = 0) (h' : Packs xs m) :
    Packs (buf ++ xs) (l ++ m) := by
  have hlen := h.length_eq
  have hlen' := h'.length_eq
  constructor
  · simp; omega
  · intro i
    rw [bitAt_append]
    by_cases hi : i < l.length
    · rw [if_pos (by omega), h.bitAt_eq, List.getD_append _ _ _ _ hi]
    · rw [if_neg (by omega), h'.bitAt_eq, List.getD_append_right _ _ _ _ (by omega)]
      congr 1
      omega

/-- A byte with no bit set from bit `k` on holds its first `k` bits. -/
theorem singleton (x : UInt8) {k : ℕ} (hk0 : 0 < k) (hk : k ≤ 8)
    (hx : ∀ j, k ≤ j → bit x j = false) : Packs [x] (bits [x] k) := by
  constructor
  · simp; omega
  · intro i
    rw [getD_bits]
    by_cases hi : i < k
    · simp [hi]
    · simp [hi, bitAt_singleton, hx i (by omega)]

/-- Appending the first `k ≤ 8` bits of a byte `x` at a skew `s`, as `append_bits` does:
the low bits go into the last byte as `x << s`, and the bits that do not fit start a new
byte `x >> (8 - s)`. -/
theorem append_skewed (h : Packs (xs ++ [y]) l) (hs : l.length % 8 = s) (hs0 : 0 < s)
    (hk : k ≤ 8) (hx : ∀ j, k ≤ j → bit x j = false) :
    Packs (xs ++ [y ||| x <<< s.toUInt8] ++ (if 8 - s < k then [x >>> (8 - s).toUInt8] else []))
      (l ++ bits [x] k) := by
  have hlen := h.length_eq
  simp only [List.length_append, List.length_singleton] at hlen
  have hxs : 8 * xs.length + s = l.length := by omega
  constructor
  · split <;> simp <;> omega
  · intro i
    rw [bitAt_append, bitAt_concat_or, bit_shiftLeft x (by omega)]
    simp only [List.length_append, List.length_singleton]
    by_cases hi : i < l.length
    -- the bits of `l`, untouched
    · rw [if_pos (by omega), h.bitAt_eq, List.getD_append _ _ _ _ hi]
      by_cases h8 : 8 * xs.length ≤ i
      · simp [h8, show ¬ s ≤ i - 8 * xs.length by omega]
      · simp [h8]
    · rw [List.getD_append_right _ _ _ _ (by omega), getD_bits, bitAt_singleton]
      by_cases hlast : i < 8 * (xs.length + 1)
      -- the last byte: its free bits were zero and take the low bits of `x`
      · have hfree : bitAt (xs ++ [y]) i = false := h.bitAt_of_le (by omega)
        rw [if_pos hlast, hfree, Bool.false_or, show i - 8 * xs.length - s = i - l.length by omega]
        by_cases hik : i - l.length < k
        · simp [hik, show 8 * xs.length ≤ i by omega, show s ≤ i - 8 * xs.length by omega,
            show i - 8 * xs.length < 8 by omega]
        · simp [hik, hx (i - l.length) (by omega)]
      -- past the last byte: the high bits of `x`, if any
      · rw [if_neg hlast]
        split
        · rw [bitAt_singleton, bit_shiftRight x (by omega),
            show i - 8 * (xs.length + 1) + (8 - s) = i - l.length by omega]
          by_cases hik : i - l.length < k
          · simp [hik]
          · simp [hik, hx (i - l.length) (by omega)]
        · have : ¬ i - l.length < k := by omega
          simp [this]

/-- A byte-aligned slice of a buffer holds the matching segment of its bits. -/
theorem bits_slice (h : Packs buf l) {a b n : ℕ} (hn : n ≤ 8 * (b - a))
    (hlen : 8 * a + n ≤ l.length) :
    bits ((buf.drop a).take (b - a)) n = (l.drop (8 * a)).take n := by
  apply List.ext_getElem (by simp; omega)
  intro j h₁ h₂
  simp only [length_bits] at h₁
  rw [getElem_bits, bitAt_slice, h.bitAt_eq, List.getElem_take, List.getElem_drop,
    List.getD_eq_getElem _ _ (by omega)]
  simp [show j < 8 * (b - a) by omega]

/-- Byte `q` shifted down by `s` holds the bits of the buffer from `8q + s` to the byte's end. -/
theorem bits_shiftRight (h : Packs buf l) {q s n : ℕ} (hs : s < 8) (hn : s + n ≤ 8)
    (hlen : 8 * q + s + n ≤ l.length) :
    bits [buf.getD q 0 >>> s.toUInt8] n = (l.drop (8 * q + s)).take n := by
  apply List.ext_getElem (by simp; omega)
  intro j h₁ h₂
  simp only [length_bits] at h₁
  have hq : (8 * q + (s + j)) / 8 = q := by omega
  have hr : (8 * q + (s + j)) % 8 = s + j := by omega
  have hbit : bit (buf.getD q 0) (s + j) = l.getD (8 * q + s + j) false := by
    rw [← h.bitAt_eq, bitAt, show 8 * q + s + j = 8 * q + (s + j) by omega, hq, hr]
  rw [getElem_bits, bitAt_singleton, bit_shiftRight _ hs, Nat.add_comm j s, hbit, List.getElem_take,
    List.getElem_drop, List.getD_eq_getElem _ _ (by omega)]

end Packs

/-- The first `count` bits of a buffer of `⌈count / 8⌉` bytes, copied as `append_bits` copies
them at a byte boundary: the whole bytes, then the last byte masked to the bits used. -/
theorem packs_take_mask {toSet : List UInt8} {count : ℕ} (h : toSet.length = (count + 7) / 8) :
    Packs (toSet.take (count / 8) ++
        (if count % 8 > 0 then [toSet.getD (count / 8) 0 &&& ((1 <<< (count % 8).toUInt8) - 1)]
        else []))
      (bits toSet count) := by
  have htake : (toSet.take (count / 8)).length = count / 8 := by simp; omega
  constructor
  · split <;> simp [htake] <;> omega
  · intro i
    rw [getD_bits, bitAt_append, htake]
    by_cases hi : i < 8 * (count / 8)
    · simp [hi, bitAt_take, show i < count by omega]
    · rw [if_neg hi]
      split
      · rw [bitAt_singleton, bit_and, bit_lowMask (by omega)]
        by_cases hlast : i - 8 * (count / 8) < 8
        · have hq : i / 8 = count / 8 := by omega
          rw [bitAt, hq, show i % 8 = i - 8 * (count / 8) by omega]
          by_cases hc : i < count
          · simp [hc, show i - 8 * (count / 8) < count % 8 by omega]
          · simp [hc, show ¬ i - 8 * (count / 8) < count % 8 by omega]
        · simp [bit_of_le _ (show 8 ≤ i - 8 * (count / 8) by omega), show ¬ i < count by omega]
      · simp [show ¬ i < count by omega]

end PackedBits

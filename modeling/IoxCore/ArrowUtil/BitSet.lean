import IoxCore.Lib.PackedBits

/-!
# arrow_util: `BitSet`

A model of `arrow_util::bitset::BitSet` (src/arrow_util/src/bitset.rs): a growable bit
vector stored in bytes, the least significant bit first, with its length in bits.

## The model

The buffer `Vec<u8>` is a `List UInt8` and `len: usize` a natural number; capacity is not
modelled. Every method that can panic returns an `Option`, `none` standing for the panic: a
failed assertion, an index or a slice out of bounds, `last_mut().unwrap()` on an empty buffer
(`modifyLast`), and a `usize` subtraction that overflows.

## What is proved

`Represents b l` says that the bit set `b` stands for the list of booleans `l`: `len` is its
length, the buffer has `⌈len / 8⌉` bytes, bit `i` is `l[i]`, and every stored bit at a position
`≥ len` is zero, the invariant `count_ones` relies on. Each operation within its contract keeps
`Represents` with the matching list operation, and so does every sequence of operations
(`run_represents`).

The contract of `set` and `get` in the code is `idx <= len`. At `idx = len`, on a length that is
not a multiple of 8, `set` sets the bit past the end (`set_len_breaks_represents`), which a later
`append_unset` turns into a set bit of the list; on a multiple of 8 it panics instead.

`count_ones`, `is_all_unset` and `iter_set_positions_with_offset` agree with the list
(`countOnes_represents`, `isAllUnset_represents`, `iterSetPositionsWithOffset_represents`).
`is_all_set` reads the first `len / 8 - 1` bytes whole and then the last byte
(`isAllSet_represents`): when `len % 8 ≠ 0` and `len > 8` the byte before the last is never
read, so nine bits with the first one unset are reported all set (`isAllSet_first_of_nine_unset`).
-/

namespace IoxCore.ArrowUtil

open PackedBits

/-- `BitSet`: the bytes of the bits, least significant bit first, and the number of bits. -/
structure BitSet where
  buffer : List UInt8
  len : ℕ
  deriving Repr, DecidableEq

namespace BitSet

/-! ## The operations -/

def new : BitSet := ⟨[], 0⟩

/-- `with_capacity(n)`: only the allocation depends on `n`. -/
def withCapacity (_n : ℕ) : BitSet := ⟨[], 0⟩

def appendUnset (b : BitSet) (count : ℕ) : BitSet :=
  let len := b.len + count
  { buffer := resize b.buffer ((len + 7) / 8) 0, len }

def withSize (count : ℕ) : BitSet := new.appendUnset count

def appendSet (b : BitSet) (count : ℕ) : Option BitSet := do
  let newLen := b.len + count
  let newBufLen := (newLen + 7) / 8
  let skew := b.len % 8
  let buffer ← (if skew ≠ 0 then modifyLast b.buffer (· ||| (0xFF <<< skew.toUInt8))
    else some b.buffer)
  let buffer := resize buffer newBufLen 0xFF
  let rem := newLen % 8
  let buffer ← (if rem ≠ 0 then modifyLast buffer (· &&& ((1 <<< rem.toUInt8) - 1))
    else some buffer)
  some { buffer, len := newLen }

def truncate (b : BitSet) (len : ℕ) : Option BitSet := do
  let newBufLen := (len + 7) / 8
  let buffer := b.buffer.take newBufLen
  let overrun := len % 8
  let buffer ← (if overrun > 0 then modifyLast buffer (· &&& ((1 <<< overrun.toUInt8) - 1))
    else some buffer)
  some { buffer, len }

/-- The loop of `append_bits` over the whole bytes of `to_set` at a skew: each byte is split,
its low bits or-ed into the last byte of the buffer and its high bits pushed as a new one. -/
def appendShifted (skew : ℕ) : List UInt8 → List UInt8 → Option (List UInt8)
  | buffer, [] => some buffer
  | buffer, toSetByte :: rest => do
    let low := toSetByte <<< skew.toUInt8
    let high := toSetByte >>> (8 - skew).toUInt8
    let buffer ← modifyLast buffer (· ||| low)
    appendShifted skew (buffer ++ [high]) rest

def appendBits (b : BitSet) (count : ℕ) (toSet : List UInt8) : Option BitSet :=
  -- `assert_eq!((count + 7) / 8, to_set.len())`
  if (count + 7) / 8 ≠ toSet.length then none else
  let newLen := b.len + count
  let wholeBytes := count / 8
  let overrun := count % 8
  let skew := b.len % 8
  if skew = 0 then
    let buffer := b.buffer ++ toSet.take wholeBytes
    -- `to_set[whole_bytes]` is in bounds after the assertion when `overrun > 0`
    let buffer := if overrun > 0 then
        buffer ++ [toSet.getD wholeBytes 0 &&& ((1 <<< overrun.toUInt8) - 1)]
      else buffer
    some { buffer, len := newLen }
  else do
    let buffer ← appendShifted skew b.buffer (toSet.take wholeBytes)
    let buffer ← (if overrun > 0 then do
        let masked := toSet.getD wholeBytes 0 &&& ((1 <<< overrun.toUInt8) - 1)
        let low := masked <<< skew.toUInt8
        let buffer ← modifyLast buffer (· ||| low)
        if overrun > 8 - skew then some (buffer ++ [masked >>> (8 - skew).toUInt8])
        else some buffer
      else some buffer)
    some { buffer, len := newLen }

def extendFrom (b other : BitSet) : Option BitSet := b.appendBits other.len other.buffer

/-- `extend_from_range(other, range)`, the range `start..end` given as a pair. -/
def extendFromRange (b other : BitSet) (range : ℕ × ℕ) : Option BitSet :=
  -- `range.end - range.start` overflows on a reversed range
  if range.2 < range.1 then none else
  let count := range.2 - range.1
  if count = 0 then some b else
  let startByte := range.1 / 8
  let endByte := (range.2 + 7) / 8
  let skew := range.1 % 8
  if skew = 0 then do
    b.appendBits count (← slice other.buffer startByte endByte)
  else if startByte + 1 = endByte then do
    b.appendBits count [(← other.buffer[startByte]?) >>> skew.toUInt8]
  else do
    let offset := 8 - skew
    let b ← b.appendBits offset [(← other.buffer[startByte]?) >>> skew.toUInt8]
    b.appendBits (count - offset) (← slice other.buffer (startByte + 1) endByte)

/-- `split_off(n)`: `self` keeps `[0, n)` (the first component) and `[n, len)` is returned. -/
def splitOff (b : BitSet) (n : ℕ) : Option (BitSet × BitSet) :=
  -- `self.len - n` overflows when `n > len`
  if b.len < n then none else do
  let right ← (withCapacity (b.len - n)).extendFromRange b (n, b.len)
  let left ← b.truncate n
  some (left, right)

def set (b : BitSet) (idx : ℕ) : Option BitSet :=
  if idx ≤ b.len then
    let byteIdx := idx / 8
    let bitIdx := idx % 8
    match b.buffer[byteIdx]? with
    | some byte => some { b with buffer := b.buffer.set byteIdx (byte ||| (1 <<< bitIdx.toUInt8)) }
    | none => none
  else none

def get (b : BitSet) (idx : ℕ) : Option Bool :=
  if idx ≤ b.len then
    let byteIdx := idx / 8
    let bitIdx := idx % 8
    b.buffer[byteIdx]?.map fun byte => (byte >>> bitIdx.toUInt8) &&& 1 ≠ 0
  else none

/-! ## The list a bit set stands for -/

/-- The bits `[0, len)` of a bit set. -/
def toList (b : BitSet) : List Bool := bits b.buffer b.len

/-- `b` stands for `l`: `len` is its length, and the buffer holds its bits in `⌈len / 8⌉`
bytes with every bit past them zero. -/
structure Represents (b : BitSet) (l : List Bool) : Prop where
  len_eq : b.len = l.length
  packs : Packs b.buffer l

/-- A bit set that keeps the invariant stands for the list of its bits. -/
def Valid (b : BitSet) : Prop := Represents b b.toList

variable {b other : BitSet} {l lo : List Bool} {buf : List UInt8}

theorem Represents.eq_toList (h : Represents b l) : l = b.toList := by
  rw [toList, h.len_eq]
  exact h.packs.eq_bits

theorem Represents.valid (h : Represents b l) : Valid b := by
  rw [Valid, ← h.eq_toList]
  exact h

theorem represents_new : Represents new [] := ⟨rfl, packs_nil⟩

theorem represents_withCapacity (n : ℕ) : Represents (withCapacity n) [] := ⟨rfl, packs_nil⟩

/-! ## Each operation within its contract -/

theorem appendUnset_represents (h : Represents b l) (count : ℕ) :
    Represents (b.appendUnset count) (l ++ List.replicate count false) := by
  have hp := h.packs.resize_zero count
  rw [← h.len_eq] at hp
  exact ⟨by simp [appendUnset, h.len_eq], hp⟩

theorem represents_withSize (count : ℕ) :
    Represents (withSize count) (List.replicate count false) :=
  appendUnset_represents represents_new count

theorem appendSet_represents (h : Represents b l) (count : ℕ) :
    ∃ b', b.appendSet count = some b' ∧ Represents b' (l ++ List.replicate count true) := by
  have hl := h.len_eq
  have hlen := h.packs.length_eq
  rw [← hl] at hlen
  -- the free bits of the last byte are set
  obtain ⟨buf₁, h₁, hlen₁, hbits₁⟩ : ∃ buf₁,
      (if b.len % 8 ≠ 0 then modifyLast b.buffer (· ||| (0xFF <<< (b.len % 8).toUInt8))
        else some b.buffer) = some buf₁ ∧ buf₁.length = b.buffer.length ∧
      ∀ i, bitAt buf₁ i =
        (l.getD i false || (decide (b.len ≤ i) && decide (i < 8 * b.buffer.length))) := by
    by_cases hs : b.len % 8 = 0
    · refine ⟨b.buffer, by simp [hs], rfl, fun i => ?_⟩
      simp [h.packs.bitAt_eq, show ¬ (b.len ≤ i ∧ i < 8 * b.buffer.length) by omega]
    · obtain ⟨buf₁, h₁, hlen₁, hbits₁⟩ := modifyLast_or_high hlen hs
      exact ⟨buf₁, by simp [hs, h₁], hlen₁, fun i => by rw [hbits₁, h.packs.bitAt_eq]⟩
  -- padded with set bytes up to the new length
  have hpad := resize_of_le (0xFF : UInt8) (show buf₁.length ≤ (b.len + count + 7) / 8 by omega)
  have hlen₂ : (resize buf₁ ((b.len + count + 7) / 8) 0xFF).length = (b.len + count + 7) / 8 := by
    rw [hpad]; simp; omega
  have hbits₂ : ∀ i, bitAt (resize buf₁ ((b.len + count + 7) / 8) 0xFF) i =
      (l.getD i false || (decide (b.len ≤ i) && decide (i < 8 * ((b.len + count + 7) / 8)))) := by
    intro i
    rw [hpad, bitAt_append, bitAt_replicate, bit_ff]
    by_cases hi : i < 8 * buf₁.length
    · rw [if_pos hi, hbits₁]
      rw [hlen₁] at hi
      simp [hi, show i < 8 * ((b.len + count + 7) / 8) by omega]
    · rw [if_neg hi, List.getD_eq_default _ _ (by omega), Bool.eq_iff_iff]
      simp only [Bool.false_or, Bool.and_eq_true, decide_eq_true_eq]
      omega
  -- the last byte masked to the new length
  obtain ⟨buf₃, h₃, hlen₃, hbits₃⟩ : ∃ buf₃,
      (if (b.len + count) % 8 ≠ 0 then
          modifyLast (resize buf₁ ((b.len + count + 7) / 8) 0xFF)
            (· &&& ((1 <<< ((b.len + count) % 8).toUInt8) - 1))
        else some (resize buf₁ ((b.len + count + 7) / 8) 0xFF)) = some buf₃ ∧
      buf₃.length = (b.len + count + 7) / 8 ∧
      ∀ i, bitAt buf₃ i = (l.getD i false || (decide (b.len ≤ i) && decide (i < b.len + count))) := by
    by_cases hr : (b.len + count) % 8 = 0
    · refine ⟨_, by simp [hr], hlen₂, fun i => ?_⟩
      rw [hbits₂, show 8 * ((b.len + count + 7) / 8) = b.len + count by omega]
    · obtain ⟨buf₃, h₃, hlen₃, hbits₃⟩ := modifyLast_and_low hlen₂ hr
      refine ⟨buf₃, by simp [hr, h₃], hlen₃.trans hlen₂, fun i => ?_⟩
      rw [hbits₃, hbits₂]
      by_cases hi : i < l.length
      · simp [show i < b.len + count by omega, show i < 8 * ((b.len + count + 7) / 8) by omega]
      · rw [List.getD_eq_default _ _ (by omega), Bool.eq_iff_iff]
        simp only [Bool.false_or, Bool.and_eq_true, decide_eq_true_eq]
        omega
  refine ⟨⟨buf₃, b.len + count⟩, ?_, ⟨by simp [h.len_eq], ⟨?_, fun i => ?_⟩⟩⟩
  · simp only [appendSet]
    rw [h₁, Option.bind_eq_bind, Option.bind_some, h₃, Option.bind_some]
  · simp [hlen₃, h.len_eq]
  · rw [hbits₃, getD_append_replicate, Bool.and_true, h.len_eq]

theorem truncate_represents (h : Represents b l) {n : ℕ} (hn : n ≤ l.length) :
    ∃ b', b.truncate n = some b' ∧ Represents b' (l.take n) := by
  have hl := h.len_eq
  have hlen := h.packs.length_eq
  have htake : (b.buffer.take ((n + 7) / 8)).length = (n + 7) / 8 := by simp; omega
  -- the bytes that hold the first `n` bits, the last one masked to them
  obtain ⟨buf', h', hlen', hbits'⟩ : ∃ buf',
      (if n % 8 > 0 then
          modifyLast (b.buffer.take ((n + 7) / 8)) (· &&& ((1 <<< (n % 8).toUInt8) - 1))
        else some (b.buffer.take ((n + 7) / 8))) = some buf' ∧ buf'.length = (n + 7) / 8 ∧
      ∀ i, bitAt buf' i = (decide (i < n) && l.getD i false) := by
    by_cases hr : n % 8 = 0
    · refine ⟨_, by simp [hr], htake, fun i => ?_⟩
      rw [bitAt_take, h.packs.bitAt_eq, show 8 * ((n + 7) / 8) = n by omega]
    · obtain ⟨buf', h', hlen', hbits'⟩ := modifyLast_and_low htake hr
      refine ⟨buf', by simp [show n % 8 > 0 by omega, h'], hlen'.trans htake, fun i => ?_⟩
      rw [hbits', bitAt_take, h.packs.bitAt_eq]
      by_cases hi : i < n
      · simp [hi, show i < 8 * ((n + 7) / 8) by omega]
      · simp [hi]
  refine ⟨⟨buf', n⟩, ?_, ⟨by simp; omega, ⟨by simp [hlen']; omega, fun i => ?_⟩⟩⟩
  · simp only [truncate]
    rw [h', Option.bind_eq_bind, Option.bind_some]
  · rw [hbits', getD_take]

/-- The byte loop of `append_bits`: at a skew, the buffer comes to hold the bits of every
whole byte after those it held. -/
theorem appendShifted_packs {skew : ℕ} (hs0 : 0 < skew) :
    ∀ (ys buf : List UInt8) (l : List Bool), Packs buf l → l.length % 8 = skew →
      ∃ buf', appendShifted skew buf ys = some buf' ∧ Packs buf' (l ++ bits ys (8 * ys.length))
  | [], buf, l, h, _ => ⟨buf, rfl, by simpa [bits] using h⟩
  | x :: rest, buf, l, h, hs => by
    obtain ⟨xs, y, rfl, -⟩ := h.exists_concat (by omega)
    have h₁ := h.append_skewed hs hs0 (k := 8) le_rfl (fun j hj => bit_of_le x hj)
    rw [if_pos (by omega)] at h₁
    obtain ⟨buf', h', hp'⟩ := appendShifted_packs hs0 rest _ _ h₁ (by simp; omega)
    refine ⟨buf', ?_, ?_⟩
    · simp only [appendShifted]
      rw [modifyLast_concat, Option.bind_eq_bind, Option.bind_some]
      exact h'
    · rw [List.length_cons, show 8 * (rest.length + 1) = 8 + 8 * rest.length by omega, bits_cons,
        ← List.append_assoc]
      exact hp'

theorem appendBits_represents (h : Represents b l) {count : ℕ} {toSet : List UInt8}
    (hlen : toSet.length = (count + 7) / 8) :
    ∃ b', b.appendBits count toSet = some b' ∧ Represents b' (l ++ bits toSet count) := by
  have hl := h.len_eq
  by_cases hs : b.len % 8 = 0
  -- at a byte boundary the whole bytes are copied, then the last one masked
  · have hp := h.packs.append_aligned (by omega) (packs_take_mask hlen)
    refine ⟨⟨_, b.len + count⟩, ?_, ⟨by simp [hl], hp⟩⟩
    simp only [appendBits]
    rw [if_neg (by omega), if_pos hs]
    split <;> simp
  -- otherwise each whole byte goes through the shifting loop, then the masked last byte
  · obtain ⟨buf₁, h₁, hp₁⟩ :=
      appendShifted_packs (by omega) (toSet.take (count / 8)) b.buffer l h.packs
        (show l.length % 8 = b.len % 8 by omega)
    have hw : (toSet.take (count / 8)).length = count / 8 := by simp; omega
    rw [hw, bits_take _ le_rfl] at hp₁
    have hcode : b.appendBits count toSet = (Option.bind (if count % 8 > 0 then
        (modifyLast buf₁ (· ||| ((toSet.getD (count / 8) 0 &&& ((1 <<< (count % 8).toUInt8) - 1))
            <<< (b.len % 8).toUInt8))).bind fun buffer =>
          if count % 8 > 8 - b.len % 8 then
            some (buffer ++ [(toSet.getD (count / 8) 0 &&& ((1 <<< (count % 8).toUInt8) - 1))
              >>> (8 - b.len % 8).toUInt8])
          else some buffer
        else some buf₁) fun buffer => some ⟨buffer, b.len + count⟩) := by
      simp only [appendBits]
      rw [if_neg (by omega), if_neg hs, h₁, Option.bind_eq_bind, Option.bind_some]
      rfl
    by_cases hr : count % 8 = 0
    · refine ⟨⟨buf₁, b.len + count⟩, ?_, ⟨by simp [hl], ?_⟩⟩
      · rw [hcode, if_neg (by omega), Option.bind_some]
      · rwa [show 8 * (count / 8) = count by omega] at hp₁
    · obtain ⟨xs, y, rfl, -⟩ := hp₁.exists_concat (by simp; omega)
      have hx : ∀ j, count % 8 ≤ j →
          bit (toSet.getD (count / 8) 0 &&& ((1 <<< (count % 8).toUInt8) - 1)) j = false := by
        intro j hj
        simp [bit_lowMask (show count % 8 < 8 by omega), hj]
      have hp₂ := hp₁.append_skewed (s := b.len % 8) (by simp; omega) (by omega) (by omega) hx
      rw [List.append_assoc l, bits_mask _ (by omega), bits_append_byte _ _ (by omega),
        show 8 * (count / 8) + count % 8 = count by omega] at hp₂
      refine ⟨⟨_, b.len + count⟩, ?_, ⟨by simp [hl], hp₂⟩⟩
      rw [hcode, if_pos (by omega), modifyLast_concat, Option.bind_some]
      by_cases hc : 8 - b.len % 8 < count % 8 <;> simp [hc]

theorem extendFrom_represents (h : Represents b l) (ho : Represents other lo) :
    ∃ b', b.extendFrom other = some b' ∧ Represents b' (l ++ lo) := by
  have holen : other.buffer.length = (other.len + 7) / 8 := by
    rw [ho.packs.length_eq, ho.len_eq]
  obtain ⟨b', h', hr'⟩ := appendBits_represents h holen
  rw [ho.len_eq, ← ho.packs.eq_bits] at hr'
  exact ⟨b', h', hr'⟩

theorem extendFromRange_represents (h : Represents b l) (ho : Represents other lo) {s e : ℕ}
    (hse : s ≤ e) (he : e ≤ lo.length) :
    ∃ b', b.extendFromRange other (s, e) = some b' ∧
      Represents b' (l ++ (lo.drop s).take (e - s)) := by
  have holen := ho.packs.length_eq
  by_cases hc : e - s = 0
  · refine ⟨b, ?_, by simpa [hc] using h⟩
    simp [extendFromRange, hc, show ¬ e < s by omega]
  have hq : s / 8 < other.buffer.length := by omega
  have hbyte : other.buffer[s / 8]? = some (other.buffer.getD (s / 8) 0) := by
    rw [List.getD_eq_getElem _ _ hq, List.getElem?_eq_getElem hq]
  by_cases hskew : s % 8 = 0
  -- a byte-aligned start: the bytes of the range are appended
  · obtain ⟨b', h', hr'⟩ := appendBits_represents h
      (show ((other.buffer.drop (s / 8)).take ((e + 7) / 8 - s / 8)).length = (e - s + 7) / 8 by
        simp; omega)
    rw [ho.packs.bits_slice (by omega) (by omega), show 8 * (s / 8) = s by omega] at hr'
    refine ⟨b', ?_, hr'⟩
    simp only [extendFromRange]
    rw [if_neg (by omega), if_neg hc, if_pos hskew, slice_of_le (by omega) (by omega),
      Option.bind_eq_bind, Option.bind_some, h']
  by_cases hone : s / 8 + 1 = (e + 7) / 8
  -- within one byte: its bits from the skew on
  · obtain ⟨b', h', hr'⟩ := appendBits_represents h
      (show [other.buffer.getD (s / 8) 0 >>> (s % 8).toUInt8].length = (e - s + 7) / 8 by
        simp; omega)
    rw [ho.packs.bits_shiftRight (by omega) (by omega) (by omega),
      show 8 * (s / 8) + s % 8 = s by omega] at hr'
    refine ⟨b', ?_, hr'⟩
    simp only [extendFromRange]
    rw [if_neg (by omega), if_neg hc, if_neg hskew, if_pos hone, hbyte, Option.bind_eq_bind,
      Option.bind_some, h']
  -- otherwise the rest of the first byte, then the aligned bytes after it
  · obtain ⟨b₁, h₁, hr₁⟩ := appendBits_represents h
      (show [other.buffer.getD (s / 8) 0 >>> (s % 8).toUInt8].length = (8 - s % 8 + 7) / 8 by
        simp; omega)
    rw [ho.packs.bits_shiftRight (by omega) (by omega) (by omega),
      show 8 * (s / 8) + s % 8 = s by omega] at hr₁
    obtain ⟨b₂, h₂, hr₂⟩ := appendBits_represents hr₁
      (show ((other.buffer.drop (s / 8 + 1)).take ((e + 7) / 8 - (s / 8 + 1))).length =
          (e - s - (8 - s % 8) + 7) / 8 by simp; omega)
    rw [ho.packs.bits_slice (by omega) (by omega), List.append_assoc,
      show 8 * (s / 8 + 1) = s + (8 - s % 8) by omega, ← List.drop_drop, ← List.take_add,
      show 8 - s % 8 + (e - s - (8 - s % 8)) = e - s by omega] at hr₂
    refine ⟨b₂, ?_, hr₂⟩
    simp only [extendFromRange]
    rw [if_neg (by omega), if_neg hc, if_neg hskew, if_neg hone, hbyte, Option.bind_eq_bind,
      Option.bind_some, h₁, slice_of_le (by omega) (by omega)]
    simp only [Option.bind_eq_bind, Option.bind_some, h₂]

theorem splitOff_represents (h : Represents b l) {n : ℕ} (hn : n ≤ l.length) :
    ∃ left right, b.splitOff n = some (left, right) ∧
      Represents left (l.take n) ∧ Represents right (l.drop n) := by
  have hl := h.len_eq
  obtain ⟨right, hright, hr⟩ :=
    extendFromRange_represents (represents_withCapacity (b.len - n)) h (s := n) (e := b.len)
      (by omega) (by omega)
  obtain ⟨left, hleft, hl'⟩ := truncate_represents h hn
  refine ⟨left, right, ?_, hl', ?_⟩
  · simp only [splitOff]
    rw [if_neg (by omega), Option.bind_eq_bind, hright, Option.bind_some, hleft, Option.bind_some]
  · rwa [List.nil_append, hl, List.take_of_length_le (by simp)] at hr

theorem set_represents (h : Represents b l) {idx : ℕ} (hi : idx < l.length) :
    ∃ b', b.set idx = some b' ∧ Represents b' (l.set idx true) := by
  have hl := h.len_eq
  have hq : idx / 8 < b.buffer.length := by have := h.packs.length_eq; omega
  refine ⟨⟨b.buffer.set (idx / 8) (b.buffer.getD (idx / 8) 0 ||| (1 <<< (idx % 8).toUInt8)), b.len⟩,
    ?_, ⟨?_, ⟨?_, fun i => ?_⟩⟩⟩
  · simp [set, show idx ≤ b.len by omega, List.getElem?_eq_getElem hq]
  · simp [hl]
  · simp [h.packs.length_eq]
  · rw [bitAt_set _ _ hq, getD_set_true _ hi, ← h.packs.bitAt_eq]
    by_cases hb : i / 8 = idx / 8
    -- the byte of `idx`: its other bits are kept
    · rw [if_pos hb, bit_or, bit_oneShiftLeft (by omega), bitAt, hb]
      by_cases hix : i = idx
      · simp [hix]
      · simp [hix, show i % 8 ≠ idx % 8 by omega]
    · rw [if_neg hb]
      simp [show i ≠ idx by omega]

theorem get_represents (h : Represents b l) {idx : ℕ} (hi : idx < l.length) :
    b.get idx = some (l.getD idx false) := by
  have hl := h.len_eq
  have hq : idx / 8 < b.buffer.length := by have := h.packs.length_eq; omega
  simp only [get]
  rw [if_pos (by omega), List.getElem?_eq_getElem hq, Option.map_some, ← h.packs.bitAt_eq, bitAt,
    List.getD_eq_getElem _ _ hq]
  congr 1
  rw [Bool.eq_iff_iff, decide_eq_true_iff]
  exact shiftRight_and_one_ne_zero (by omega)

/-! ## Sequences of operations -/

/-- The operations that change a bit set in place; `split_off` keeps the part left in `self`. -/
inductive Op where
  | appendUnset (count : ℕ)
  | appendSet (count : ℕ)
  | appendBits (count : ℕ) (toSet : List UInt8)
  | extendFrom (other : BitSet)
  | extendFromRange (other : BitSet) (range : ℕ × ℕ)
  | truncate (len : ℕ)
  | splitOff (n : ℕ)
  | set (idx : ℕ)

namespace Op

/-- An operation as the code runs it; `none` is a panic. -/
def apply : Op → BitSet → Option BitSet
  | appendUnset count, b => some (b.appendUnset count)
  | appendSet count, b => b.appendSet count
  | appendBits count toSet, b => b.appendBits count toSet
  | extendFrom other, b => b.extendFrom other
  | extendFromRange other range, b => b.extendFromRange other range
  | truncate len, b => b.truncate len
  | splitOff n, b => (b.splitOff n).map Prod.fst
  | set idx, b => b.set idx

/-- The same operation on the list of bits. -/
def onList : Op → List Bool → List Bool
  | appendUnset count, l => l ++ List.replicate count false
  | appendSet count, l => l ++ List.replicate count true
  | appendBits count toSet, l => l ++ bits toSet count
  | extendFrom other, l => l ++ other.toList
  | extendFromRange other range, l => l ++ (other.toList.drop range.1).take (range.2 - range.1)
  | truncate len, l => l.take len
  | splitOff n, l => l.take n
  | set idx, l => l.set idx true

/-- The contract of each operation on the list the bit set stands for: a slice of the right
size for `append_bits`, a well-formed bit set to copy from, a range within it, a length within
the set, and an index below the length for `set`. -/
def Contract : Op → List Bool → Prop
  | appendUnset _, _ => True
  | appendSet _, _ => True
  | appendBits count toSet, _ => toSet.length = (count + 7) / 8
  | extendFrom other, _ => Valid other
  | extendFromRange other range, _ => Valid other ∧ range.1 ≤ range.2 ∧ range.2 ≤ other.len
  | truncate len, l => len ≤ l.length
  | splitOff n, l => n ≤ l.length
  | set idx, l => idx < l.length

/-- One operation within its contract keeps the bit set standing for the list. -/
theorem apply_represents {op : Op} (h : Represents b l) (hc : op.Contract l) :
    ∃ b', op.apply b = some b' ∧ Represents b' (op.onList l) := by
  cases op with
  | appendUnset count => exact ⟨_, rfl, appendUnset_represents h count⟩
  | appendSet count => exact appendSet_represents h count
  | appendBits count toSet => exact appendBits_represents h hc
  | extendFrom other => exact extendFrom_represents h hc
  | extendFromRange other range =>
    obtain ⟨hv, hse, he⟩ := hc
    exact extendFromRange_represents h hv hse (by rwa [toList, length_bits])
  | truncate len => exact truncate_represents h hc
  | splitOff n =>
    obtain ⟨left, right, h', hl', -⟩ := splitOff_represents h hc
    exact ⟨left, by simp [apply, h'], hl'⟩
  | set idx => exact set_represents h hc

end Op

/-- A sequence of operations; the first panic stops it. -/
def run : List Op → BitSet → Option BitSet
  | [], b => some b
  | op :: ops, b => (op.apply b).bind (run ops)

/-- The same sequence on the list of bits. -/
def runList (ops : List Op) (l : List Bool) : List Bool := ops.foldl (fun l op => op.onList l) l

/-- Every operation of a sequence is within its contract, on the list the ones before it leave. -/
def Contracts : List Op → List Bool → Prop
  | [], _ => True
  | op :: ops, l => op.Contract l ∧ Contracts ops (op.onList l)

/-- Every sequence of operations within their contracts runs without a panic and leaves a bit
set standing for the list the same operations leave. -/
theorem run_represents :
    ∀ (ops : List Op) {b : BitSet} {l : List Bool}, Represents b l → Contracts ops l →
      ∃ b', run ops b = some b' ∧ Represents b' (runList ops l)
  | [], b, _, h, _ => ⟨b, rfl, h⟩
  | op :: ops, _, _, h, ⟨hc, hcs⟩ => by
    obtain ⟨b₁, h₁, hr₁⟩ := Op.apply_represents h hc
    obtain ⟨b', h', hr'⟩ := run_represents ops hr₁ hcs
    exact ⟨b', by rw [run, h₁, Option.bind_some, h'], hr'⟩

/-! ## `set` and `get` at `idx = len` -/

/-- `set(len)` passes the assertion `idx <= len` and, on a length that is not a multiple of 8,
sets the stored bit at `len`: the result stands for no list at all. -/
theorem set_len_breaks_represents (h : Represents b l) (hskew : b.len % 8 ≠ 0) :
    ∃ b', b.set b.len = some b' ∧ b'.len = b.len ∧ bitAt b'.buffer b.len = true ∧
      ∀ l', ¬ Represents b' l' := by
  have hq : b.len / 8 < b.buffer.length := by
    have := h.packs.length_eq
    have := h.len_eq
    omega
  have hbit : bitAt (b.buffer.set (b.len / 8)
      (b.buffer.getD (b.len / 8) 0 ||| (1 <<< (b.len % 8).toUInt8))) b.len = true := by
    rw [bitAt_set _ _ hq, if_pos rfl, bit_or, bit_oneShiftLeft (by omega)]
    simp
  refine ⟨⟨b.buffer.set (b.len / 8) (b.buffer.getD (b.len / 8) 0 ||| (1 <<< (b.len % 8).toUInt8)),
    b.len⟩, ?_, rfl, hbit, fun l' hl' => ?_⟩
  · simp [set, List.getElem?_eq_getElem hq]
  · -- a bit at `len` would be a bit past the list
    have hpast := hl'.packs.bitAt_of_le (le_of_eq hl'.len_eq.symm)
    rw [hbit] at hpast
    exact Bool.noConfusion hpast

/-- On a length that is a multiple of 8, `set(len)` passes the assertion and panics on the index. -/
theorem set_len_panics (h : Represents b l) (h8 : b.len % 8 = 0) : b.set b.len = none := by
  have hnone : b.buffer[b.len / 8]? = none := by
    apply List.getElem?_eq_none
    have := h.packs.length_eq
    have := h.len_eq
    omega
  simp [set, hnone]

theorem set_len_breaks_represents_withSize :
    (withSize 1).len % 8 ≠ 0 ∧
      ∃ b', (withSize 1).set (withSize 1).len = some b' ∧ b'.len = (withSize 1).len ∧
        bitAt b'.buffer (withSize 1).len = true ∧ ∀ l', ¬ Represents b' l' :=
  ⟨by decide, set_len_breaks_represents (represents_withSize 1) (by decide)⟩

/-! ## Queries -/

/-- The mask `is_all_set` compares the last byte with: the bits of `[0, len)` that fall in it. -/
def lastByteMask (len : ℕ) : UInt8 :=
  match len % 8 with
  | 0 => 0xFF
  | r => ~~~(0xFF <<< r.toUInt8)

/-- `is_all_set`; `none` is the panic of `last().unwrap()`. -/
def isAllSet (b : BitSet) : Option Bool :=
  if b.len = 0 then some false
  else
    let fullBlocks := b.len / 8 - 1
    if !(b.buffer.take fullBlocks).all (· == 0xFF) then some false
    else b.buffer.getLast?.map (· == lastByteMask b.len)

/-- `is_all_unset`. -/
def isAllUnset (b : BitSet) : Bool := b.buffer.all (· == 0)

/-- `count_ones`. -/
def countOnes (b : BitSet) : ℕ := (b.buffer.map popcount).sum

set_option linter.unusedVariables false in
/-- The loop of `iter_set_positions_with_offset` within byte `byte_idx`: the lowest set bit of
`in_progress` is yielded and cleared, until none is left. -/
def drainByte (byteIdx : ℕ) (inProgress : UInt8) : List ℕ :=
  if h : inProgress = 0 then []
  else
    let bitPos := trailingZeros inProgress
    (byteIdx * 8 + bitPos) :: drainByte byteIdx (inProgress ^^^ (1 <<< bitPos.toUInt8))
termination_by inProgress.toNat
decreasing_by exact toNat_xor_lowest_lt h

/-- The iterator of `iter_set_positions_with_offset` from byte `byte_idx` on, run to its end:
what is left of `in_progress`, then each later byte, until `bytes.get(byte_idx)` is `None`. -/
def setPositionsFrom (bytes : List UInt8) (byteIdx : ℕ) (inProgress : UInt8) : List ℕ :=
  drainByte byteIdx inProgress ++
    match h : bytes[byteIdx + 1]? with
    | none => []
    | some next => setPositionsFrom bytes (byteIdx + 1) next
termination_by bytes.length - byteIdx
decreasing_by
  obtain ⟨hlt, -⟩ := List.getElem?_eq_some_iff.1 h
  omega

/-- `iter_set_positions_with_offset(bytes, offset)`, collected. -/
def iterSetPositionsWithOffset (bytes : List UInt8) (offset : ℕ) : List ℕ :=
  let byteIdx := offset / 8
  let skew := offset % 8
  setPositionsFrom bytes byteIdx ((bytes[byteIdx]?.getD 0) &&& (0xFF <<< skew.toUInt8))

theorem drainByte_eq (byteIdx : ℕ) (x : UInt8) :
    drainByte byteIdx x = (setBits x).map (8 * byteIdx + ·) := by
  fun_induction drainByte byteIdx x with
  | case1 => simp
  | case2 x hx bitPos ih =>
    rw [ih, setBits_eq_lowest_cons hx, List.map_cons, Nat.mul_comm]

theorem setPositionsFrom_eq (bytes : List UInt8) (byteIdx : ℕ) (x : UInt8) :
    setPositionsFrom bytes byteIdx x = (setBits x).map (8 * byteIdx + ·) ++
      (List.range' (8 * (byteIdx + 1)) (8 * (bytes.length - (byteIdx + 1)))).filter
        (bitAt bytes) := by
  fun_induction setPositionsFrom bytes byteIdx x with
  | case1 i x ih =>
    rw [drainByte_eq]
    congr 1
    split
    · rename_i h
      have hlen : bytes.length - (i + 1) = 0 := by
        have := List.getElem?_eq_none_iff.1 h
        omega
      simp [hlen]
    · rename_i next h
      obtain ⟨hlt, hnext⟩ := List.getElem?_eq_some_iff.1 h
      have hlen : bytes.length - (i + 1) = bytes.length - (i + 1 + 1) + 1 := by omega
      rw [ih next h, hlen, range'_eight_mul_succ, List.filter_append, filter_bitAt_byte,
        List.getD_eq_getElem _ _ hlt, hnext]

/-- `iter_set_positions_with_offset` yields the set positions of the buffer from `offset` on,
in increasing order. -/
theorem iterSetPositionsWithOffset_eq (bytes : List UInt8) (k : ℕ) :
    iterSetPositionsWithOffset bytes k =
      (List.range (8 * bytes.length)).filter fun p => decide (k ≤ p) && bitAt bytes p := by
  unfold iterSetPositionsWithOffset
  rw [setPositionsFrom_eq]
  by_cases hq : k / 8 < bytes.length
  · have hsplit : List.range (8 * bytes.length) = List.range' 0 (8 * (k / 8)) ++
        (List.range' (8 * (k / 8)) 8 ++
          List.range' (8 * (k / 8 + 1)) (8 * (bytes.length - (k / 8 + 1)))) := by
      rw [List.range_eq_range', show 8 * bytes.length = 8 * (k / 8) + 8 * (bytes.length - k / 8) by
        omega, ← List.range'_append_1, Nat.zero_add,
        show bytes.length - k / 8 = bytes.length - (k / 8 + 1) + 1 by omega, range'_eight_mul_succ]
    have hbefore : (List.range' 0 (8 * (k / 8))).filter
        (fun p => decide (k ≤ p) && bitAt bytes p) = [] := by
      refine List.filter_eq_nil_iff.2 fun p hp => ?_
      have := (List.mem_range'_1.1 hp).2
      simp only [Bool.and_eq_true, decide_eq_true_eq, not_and]
      omega
    have hbyte : (List.range' (8 * (k / 8)) 8).filter (fun p => decide (k ≤ p) && bitAt bytes p) =
        (setBits (bytes[k / 8]?.getD 0 &&& 0xFF <<< (k % 8).toUInt8)).map (8 * (k / 8) + ·) := by
      rw [setBits_and_ff_shiftLeft _ (Nat.mod_lt _ (by omega)), ← List.getD_eq_getElem?_getD,
        ← List.filter_filter, filter_bitAt_byte, List.filter_map]
      congr 1
      refine List.filter_congr fun j _ => ?_
      simp only [Function.comp, decide_eq_decide]
      omega
    have hafter : (List.range' (8 * (k / 8 + 1)) (8 * (bytes.length - (k / 8 + 1)))).filter
        (fun p => decide (k ≤ p) && bitAt bytes p) =
        (List.range' (8 * (k / 8 + 1)) (8 * (bytes.length - (k / 8 + 1)))).filter (bitAt bytes) := by
      refine List.filter_congr fun p hp => ?_
      have := (List.mem_range'_1.1 hp).1
      simp only [show k ≤ p by omega, decide_true, Bool.true_and]
    rw [hsplit, List.filter_append, List.filter_append, hbefore, hbyte, hafter, List.nil_append]
  · have hnone : bytes[k / 8]? = none := List.getElem?_eq_none_iff.2 (by omega)
    have hempty : (List.range (8 * bytes.length)).filter
        (fun p => decide (k ≤ p) && bitAt bytes p) = [] := by
      refine List.filter_eq_nil_iff.2 fun p hp => ?_
      have := List.mem_range.1 hp
      simp only [Bool.and_eq_true, decide_eq_true_eq, not_and]
      omega
    rw [hnone, hempty, show bytes.length - (k / 8 + 1) = 0 by omega]
    simp

/-- The bits of a buffer past the list it packs are unset, so a filter of the set positions of
the buffer is one of the list. -/
theorem filter_range_bitAt (h : Represents b l) (P : ℕ → Bool) :
    (List.range (8 * b.buffer.length)).filter (fun p => P p && bitAt b.buffer p) =
      (List.range l.length).filter (fun p => P p && l.getD p false) := by
  have hbuf := h.packs.length_eq
  rw [show 8 * b.buffer.length = l.length + (8 * b.buffer.length - l.length) by omega,
    List.range_add, List.filter_append, List.filter_map]
  have hpast : (List.range (8 * b.buffer.length - l.length)).filter
      ((fun p => P p && bitAt b.buffer p) ∘ (l.length + ·)) = [] := by
    refine List.filter_eq_nil_iff.2 fun t _ => ?_
    simp [h.packs.bitAt_of_le (Nat.le_add_right l.length t)]
  rw [hpast, List.map_nil, List.append_nil]
  refine List.filter_congr fun p _ => ?_
  rw [h.packs.bitAt_eq]

/-- Over a bit set, `iter_set_positions_with_offset(bytes(), k)` yields the set positions of
its list from `k` on, in increasing order. -/
theorem iterSetPositionsWithOffset_represents (h : Represents b l) (k : ℕ) :
    iterSetPositionsWithOffset b.buffer k =
      (List.range l.length).filter fun p => decide (k ≤ p) && l.getD p false := by
  rw [iterSetPositionsWithOffset_eq, filter_range_bitAt h]

/-- Nine bits, bit `0` unset: from offset `1` the iterator yields the positions `1` to `8`. -/
theorem iterSetPositionsWithOffset_nine :
    ∃ b, (new.appendUnset 1).appendSet 8 = some b ∧
      iterSetPositionsWithOffset b.buffer 1 = [1, 2, 3, 4, 5, 6, 7, 8] := by
  obtain ⟨b, hb, hr⟩ := appendSet_represents (appendUnset_represents represents_new 1) 8
  refine ⟨b, hb, ?_⟩
  rw [iterSetPositionsWithOffset_represents hr]
  decide +kernel

theorem map_getD_range (l : List Bool) : (List.range l.length).map (l.getD · false) = l := by
  apply List.ext_getElem (by simp)
  intro i h₁ _
  simp only [List.length_map, List.length_range] at h₁
  simp [List.getElem?_eq_getElem h₁]

/-- `count_ones` counts the set bits of the list. -/
theorem countOnes_represents (h : Represents b l) : b.countOnes = l.count true := by
  have hbytes : (List.range' 0 b.buffer.length).map (fun j => (setBits (b.buffer.getD j 0)).length) =
      b.buffer.map popcount := by
    apply List.ext_getElem (by simp)
    intro j h₁ _
    simp only [List.length_map, List.length_range'] at h₁
    simp [popcount, List.getElem?_eq_getElem h₁]
  have hcount := congrArg List.length (filter_bitAt_range' b.buffer 0 b.buffer.length)
  rw [List.length_flatMap, Nat.mul_zero, ← List.range_eq_range'] at hcount
  have hset := filter_range_bitAt h fun _ => true
  simp only [Bool.true_and] at hset
  rw [hset] at hcount
  calc b.countOnes = ((List.range' 0 b.buffer.length).map
        fun j => (setBits (b.buffer.getD j 0)).length).sum := by
          rw [countOnes, hbytes]
    _ = ((List.range' 0 b.buffer.length).map
        fun j => ((setBits (b.buffer.getD j 0)).map (8 * j + ·)).length).sum := by
          simp only [List.length_map]
    _ = ((List.range l.length).filter (l.getD · false)).length := hcount.symm
    _ = l.count true := by
      conv_rhs => rw [← map_getD_range l]
      rw [List.count_eq_countP, List.countP_map, List.countP_eq_length_filter]
      simp [Function.comp_def]

/-- `count_zeros`. -/
def countZeros (b : BitSet) : ℕ := b.len - b.countOnes

theorem countZeros_represents (h : Represents b l) : b.countZeros = l.count false := by
  have htf := List.count_true_add_count_false l
  rw [countZeros, countOnes_represents h, h.len_eq]
  omega

/-- `is_all_unset` holds when no bit of the list is set. -/
theorem isAllUnset_represents (h : Represents b l) :
    b.isAllUnset = decide (∀ i < l.length, l.getD i false = false) := by
  rw [Bool.eq_iff_iff, decide_eq_true_iff, isAllUnset, List.all_eq_true]
  simp only [beq_iff_eq]
  rw [forall_eq_zero_iff_bitAt]
  constructor
  · intro hall i _
    rw [← h.packs.bitAt_eq]
    exact hall i
  · intro hall p
    rw [h.packs.bitAt_eq]
    by_cases hp : p < l.length
    · exact hall p hp
    · exact List.getD_eq_default _ _ (by omega)

/-- The bits of `lastByteMask len` are those of `[0, len)` in the byte of bit `len - 1`. -/
theorem bit_lastByteMask {len : ℕ} (hlen : 0 < len) {j : ℕ} (hj : j < 8) :
    bit (lastByteMask len) j = decide (j < len - 8 * ((len - 1) / 8)) := by
  unfold lastByteMask
  cases hr : len % 8 with
  | zero =>
    change bit 0xFF j = _
    rw [bit_ff, decide_eq_decide]
    omega
  | succ r =>
    have hr8 : r + 1 < 8 := by omega
    change bit (~~~(0xFF <<< (r + 1).toUInt8)) j = _
    rw [not_ff_shiftLeft hr8, bit_lowMask hr8, decide_eq_decide]
    omega

/-- What `is_all_set` computes: whether the list is nonempty and its bits are set in the whole
bytes it reads, the first `len / 8 - 1`, and in the last byte. With `len % 8 ≠ 0` and
`len > 8`, the byte before the last is not read. -/
theorem isAllSet_represents (h : Represents b l) :
    b.isAllSet = some (decide (0 < l.length ∧ ∀ i < l.length,
      (i / 8 < l.length / 8 - 1 ∨ i / 8 = (l.length - 1) / 8) → l.getD i false = true)) := by
  have hbuf := h.packs.length_eq
  rw [← h.len_eq] at hbuf ⊢
  unfold isAllSet
  by_cases h0 : b.len = 0
  · simp [h0]
  · rw [if_neg h0]
    have hfull : (b.buffer.take (b.len / 8 - 1)).all (· == 0xFF) = true ↔
        ∀ i < b.len, i / 8 < b.len / 8 - 1 → l.getD i false = true := by
      rw [List.all_eq_true]
      simp only [beq_iff_eq]
      rw [forall_take_eq_ff_iff_bitAt (by omega)]
      constructor
      · intro hall i _ hi
        rw [← h.packs.bitAt_eq]
        exact hall i (by omega)
      · intro hall p hp
        rw [h.packs.bitAt_eq]
        exact hall p (by omega) (by omega)
    have hlast : b.buffer.getLast? = some (b.buffer.getD ((b.len - 1) / 8) 0) := by
      have hq : (b.len - 1) / 8 < b.buffer.length := by omega
      rw [List.getLast?_eq_getElem?, show b.buffer.length - 1 = (b.len - 1) / 8 by omega,
        List.getD_eq_getElem _ _ hq, List.getElem?_eq_getElem hq]
    have hmask : (b.buffer.getD ((b.len - 1) / 8) 0 == lastByteMask b.len) = true ↔
        ∀ i < b.len, i / 8 = (b.len - 1) / 8 → l.getD i false = true := by
      rw [beq_iff_eq, eq_iff_bit]
      constructor
      · intro hy i hi hq
        have hbit := hy (i % 8) (Nat.mod_lt _ (by omega))
        rw [bit_lastByteMask (by omega) (Nat.mod_lt _ (by omega)), decide_eq_true (by omega),
          ← hq] at hbit
        rw [← h.packs.bitAt_eq, bitAt, hbit]
      · intro hall j hj
        rw [bit_lastByteMask (by omega) hj, ← bitAt_eight_mul_add _ _ hj, h.packs.bitAt_eq]
        by_cases hjr : j < b.len - 8 * ((b.len - 1) / 8)
        · rw [hall _ (by omega) (by omega), decide_eq_true hjr]
        · rw [List.getD_eq_default _ _ (by rw [← h.len_eq]; omega), decide_eq_false hjr]
    by_cases hf : (b.buffer.take (b.len / 8 - 1)).all (· == 0xFF) = true
    · rw [if_neg (by simp [hf]), hlast, Option.map_some]
      congr 1
      rw [Bool.eq_iff_iff, hmask, decide_eq_true_iff]
      constructor
      · intro hall
        exact ⟨by omega, fun i hi hor => hor.elim (hfull.1 hf i hi) (hall i hi)⟩
      · rintro ⟨-, hall⟩ i hi hq
        exact hall i hi (.inr hq)
    · rw [if_pos (by simp [hf])]
      congr 1
      refine (decide_eq_false fun hall => hf (hfull.2 fun i hi hq => hall.2 i hi (.inl hq))).symm

/-- After `append_unset(1)` and `append_set(8)` bit 0 is unset, and `is_all_set` answers
`true`: with nine bits, byte 0 is neither one of the whole bytes it reads nor the last. -/
theorem isAllSet_first_of_nine_unset :
    ∃ b, (new.appendUnset 1).appendSet 8 = some b ∧ b.toList.getD 0 false = false ∧
      b.isAllSet = some true := by
  obtain ⟨b, hb, hr⟩ := appendSet_represents (appendUnset_represents represents_new 1) 8
  refine ⟨b, hb, ?_, ?_⟩
  · rw [← hr.eq_toList]
    rfl
  · rw [isAllSet_represents hr]
    decide +kernel

end BitSet

end IoxCore.ArrowUtil

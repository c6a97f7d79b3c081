import Mathlib.Data.Int.Log
import Mathlib.Data.Rat.Floor
import Mathlib.Tactic.Linarith
import Mathlib.Tactic.Positivity
import Mathlib.Tactic.FieldSimp

/-!
# Rounding to `binary64`

The result of an IEEE 754 `binary64` operation on finite operands is the exact result rounded
to the nearest number with a 53-bit significand, ties to the even significand. `round` is that
rounding on rationals, with an unbounded exponent: it is the format's rounding for every result
whose magnitude is below the largest finite `f64` and, unless it is zero, at least the least
normal one. A user of the library keeps its operations in that range. A finite `f64` is its
value, a rational that `round` fixes; an operation is `round` of the exact result, and a
conversion from an integer is `round` of the integer. `toI64` is the saturating cast `as i64`,
which truncates toward zero.

The lemmas are those proofs about such operations need: rounding is monotone on the
nonnegative numbers (`round_mono`), fixes every number with a 53-bit significand
(`round_mul_zpow`), among them the integers up to `2 ^ 53` (`round_intCast`) and every rounded
number (`round_round`), and loses less than a part in `2 ^ 52` (`sub_lt_round`).
-/

namespace Binary64

variable {x : ℚ}

/-! ### Rounding to an integer -/

/-- Round half to even, to an integer. -/
def roundInt (x : ℚ) : ℤ :=
  if x - ⌊x⌋ < 1 / 2 then ⌊x⌋
  else if 1 / 2 < x - ⌊x⌋ then ⌊x⌋ + 1
  else if ⌊x⌋ % 2 = 0 then ⌊x⌋ else ⌊x⌋ + 1

theorem floor_le_roundInt (x : ℚ) : ⌊x⌋ ≤ roundInt x := by
  unfold roundInt
  split_ifs <;> omega

theorem roundInt_le (x : ℚ) : roundInt x ≤ ⌊x⌋ + 1 := by
  unfold roundInt
  split_ifs <;> omega

@[simp] theorem roundInt_intCast (n : ℤ) : roundInt n = n := by
  simp [roundInt]

theorem roundInt_mono {x y : ℚ} (h : x ≤ y) : roundInt x ≤ roundInt y := by
  rcases lt_or_eq_of_le (Int.floor_mono h) with hlt | heq
  · -- a whole integer lies between them
    calc roundInt x ≤ ⌊x⌋ + 1 := roundInt_le x
      _ ≤ ⌊y⌋ := hlt
      _ ≤ roundInt y := floor_le_roundInt y
  · -- the same integer part, and `y` has the larger fraction
    have hfr : x - ⌊y⌋ ≤ y - ⌊y⌋ := by linarith
    unfold roundInt
    rw [heq]
    split_ifs <;> first | omega | (exfalso; linarith)

/-! ### Rounding to 53 significant bits -/

/-- The exponent of the last bit of a 53-bit significand in the binade of `x`. -/
def ulpExp (x : ℚ) : ℤ := Int.log 2 |x| - 52

/-- `x` rounded to the nearest `binary64` number, ties to even. -/
def round (x : ℚ) : ℚ := (roundInt (x / 2 ^ ulpExp x) : ℚ) * 2 ^ ulpExp x

theorem two_zpow_pos (k : ℤ) : (0 : ℚ) < 2 ^ k := zpow_pos (by norm_num) k

theorem intCast_two_pow (n : ℕ) : (((2 : ℤ) ^ n : ℤ) : ℚ) = (2 : ℚ) ^ (n : ℤ) := by
  rw [zpow_natCast]
  push_cast
  rfl

@[simp] theorem round_zero : round 0 = 0 := by
  have h0 : roundInt 0 = 0 := by simpa using roundInt_intCast 0
  rw [round, zero_div, h0, Int.cast_zero, zero_mul]

/-- A number whose significand in its binade is an integer is its own rounding. -/
theorem round_eq_self {n : ℤ} (h : x = n * 2 ^ ulpExp x) : round x = x := by
  have hdiv : x / 2 ^ ulpExp x = n := by
    rw [div_eq_iff (two_zpow_pos _).ne']
    exact h
  rw [round, hdiv, roundInt_intCast, ← h]

/-- Every `m * 2 ^ k` with `|m| < 2 ^ 53` is a `binary64` number. -/
theorem round_mul_zpow {m : ℤ} (k : ℤ) (hm : |m| < 2 ^ 53) : round (m * 2 ^ k) = m * 2 ^ k := by
  rcases eq_or_ne m 0 with rfl | hm0
  · simp
  · -- the exponent of the last bit is at most `k`
    have hpos : (0 : ℚ) < |(m : ℚ) * 2 ^ k| :=
      abs_pos.2 (mul_ne_zero (by exact_mod_cast hm0) (two_zpow_pos k).ne')
    have habs : |(m : ℚ) * 2 ^ k| < (2 : ℚ) ^ (((53 : ℕ) : ℤ) + k) := by
      rw [abs_mul, abs_of_pos (two_zpow_pos k), zpow_add₀ two_ne_zero, ← intCast_two_pow]
      have hm' : |(m : ℚ)| < (((2 : ℤ) ^ 53 : ℤ) : ℚ) := by exact_mod_cast hm
      exact mul_lt_mul_of_pos_right hm' (two_zpow_pos k)
    have hlog := (Int.lt_zpow_iff_log_lt (by norm_num : 1 < 2) hpos).1 (by exact_mod_cast habs)
    have hle : ulpExp ((m : ℚ) * 2 ^ k) ≤ k := by
      rw [ulpExp]
      omega
    apply round_eq_self (n := m * 2 ^ (k - ulpExp ((m : ℚ) * 2 ^ k)).toNat)
    push_cast
    rw [mul_assoc, ← zpow_natCast, Int.toNat_of_nonneg (by omega), ← zpow_add₀ two_ne_zero]
    congr 2
    omega

/-- The integers up to `2 ^ 53` in magnitude are `binary64` numbers. -/
theorem round_intCast {n : ℤ} (hn : |n| ≤ 2 ^ 53) : round n = n := by
  rcases lt_or_eq_of_le hn with hlt | heq
  · simpa using round_mul_zpow 0 hlt
  · -- `±2 ^ 53` is `±1 * 2 ^ 53`
    have h2 : (((2 : ℤ) ^ 53 : ℤ) : ℚ) = (1 : ℤ) * (2 : ℚ) ^ ((53 : ℕ) : ℤ) := by
      rw [Int.cast_one, one_mul, ← intCast_two_pow]
    rcases abs_eq (by norm_num : (0 : ℤ) ≤ 2 ^ 53) |>.1 heq with rfl | rfl
    · rw [h2]
      exact round_mul_zpow _ (by norm_num)
    · rw [Int.cast_neg, h2, ← neg_mul, ← Int.cast_neg]
      exact round_mul_zpow _ (by norm_num)

theorem round_nonneg (hx : 0 ≤ x) : 0 ≤ round x := by
  have hfl : 0 ≤ ⌊x / 2 ^ ulpExp x⌋ :=
    Int.floor_nonneg.2 (div_nonneg hx (two_zpow_pos _).le)
  have hr : (0 : ℚ) ≤ roundInt (x / 2 ^ ulpExp x) := by
    exact_mod_cast hfl.trans (floor_le_roundInt _)
  exact mul_nonneg hr (two_zpow_pos _).le

/-- The significand of a positive number, rounded to an integer, is at most `2 ^ 53`. -/
theorem roundInt_le_two_pow (hx : 0 < x) : roundInt (x / 2 ^ ulpExp x) ≤ 2 ^ 53 := by
  have hu : ulpExp x = Int.log 2 x - 52 := by rw [ulpExp, abs_of_pos hx]
  have hsplit : (2 : ℚ) ^ (Int.log 2 x + 1) = (2 : ℚ) ^ ((53 : ℕ) : ℤ) * 2 ^ ulpExp x := by
    rw [hu, ← zpow_add₀ two_ne_zero]
    congr 1
    push_cast
    ring
  have hscaled : x / 2 ^ ulpExp x ≤ (((2 : ℤ) ^ 53 : ℤ) : ℚ) := by
    rw [div_le_iff₀ (two_zpow_pos _), intCast_two_pow, ← hsplit]
    exact_mod_cast (Int.lt_zpow_succ_log_self (by norm_num : 1 < 2) x).le
  exact (roundInt_mono hscaled).trans_eq (roundInt_intCast _)

/-- The rounding of a positive number stays within the binade above it. -/
theorem round_le_zpow_succ_log (hx : 0 < x) : round x ≤ 2 ^ (Int.log 2 x + 1) := by
  have hu : ulpExp x = Int.log 2 x - 52 := by rw [ulpExp, abs_of_pos hx]
  have hsplit : (2 : ℚ) ^ (Int.log 2 x + 1) = (2 : ℚ) ^ ((53 : ℕ) : ℤ) * 2 ^ ulpExp x := by
    rw [hu, ← zpow_add₀ two_ne_zero]
    congr 1
    push_cast
    ring
  have hint : (roundInt (x / 2 ^ ulpExp x) : ℚ) ≤ (2 : ℚ) ^ ((53 : ℕ) : ℤ) := by
    rw [← intCast_two_pow]
    exact_mod_cast roundInt_le_two_pow hx
  rw [hsplit]
  exact mul_le_mul_of_nonneg_right hint (two_zpow_pos _).le

/-- Rounding a rounded number changes nothing. -/
theorem round_round (hx : 0 ≤ x) : round (round x) = round x := by
  rcases eq_or_lt_of_le hx with rfl | hx
  · simp
  have hN := roundInt_le_two_pow hx
  have hN0 : 0 ≤ roundInt (x / 2 ^ ulpExp x) :=
    (Int.floor_nonneg.2 (div_nonneg hx.le (two_zpow_pos _).le)).trans (floor_le_roundInt _)
  rcases lt_or_eq_of_le hN with hlt | heq
  · exact round_mul_zpow _ (by rwa [abs_of_nonneg hN0])
  · -- a significand of `2 ^ 53` is `1` in the binade above
    have h1 : round x = ((1 : ℤ) : ℚ) * 2 ^ (ulpExp x + 53) := by
      rw [round, heq, zpow_add₀ two_ne_zero]
      push_cast
      ring
    rw [h1]
    exact round_mul_zpow _ (by norm_num)

/-- Rounding to nearest loses less than a part in `2 ^ 52` of a positive number. -/
theorem sub_lt_round (hx : 0 < x) : x - x / 2 ^ 52 < round x := by
  have hu : ulpExp x = Int.log 2 x - 52 := by rw [ulpExp, abs_of_pos hx]
  have hp := two_zpow_pos (ulpExp x)
  -- the last bit of the binade is worth at most `x / 2 ^ 52`
  have hulp : (2 : ℚ) ^ ulpExp x ≤ x / 2 ^ 52 := by
    rw [hu, zpow_sub₀ two_ne_zero, le_div_iff₀ (by positivity)]
    have h52 : (2 : ℚ) ^ (52 : ℤ) = 2 ^ 52 := by norm_num
    rw [h52, div_mul_cancel₀ _ (by positivity)]
    exact Int.zpow_log_le_self (by norm_num : 1 < 2) hx
  have hfl : ((⌊x / 2 ^ ulpExp x⌋ : ℤ) : ℚ) ≤ roundInt (x / 2 ^ ulpExp x) := by
    exact_mod_cast floor_le_roundInt _
  have hlt : x / 2 ^ ulpExp x - 1 < ⌊x / 2 ^ ulpExp x⌋ := Int.sub_one_lt_floor _
  calc x - x / 2 ^ 52 ≤ x - 2 ^ ulpExp x := by linarith
    _ = (x / 2 ^ ulpExp x - 1) * 2 ^ ulpExp x := by field_simp
    _ < ⌊x / 2 ^ ulpExp x⌋ * 2 ^ ulpExp x := mul_lt_mul_of_pos_right hlt hp
    _ ≤ round x := mul_le_mul_of_nonneg_right hfl hp.le

/-- The rounding of a positive number is at least the bottom of its binade. -/
theorem zpow_log_le_round (hx : 0 < x) : 2 ^ Int.log 2 x ≤ round x := by
  have hu : ulpExp x = Int.log 2 x - 52 := by rw [ulpExp, abs_of_pos hx]
  have hsplit : (2 : ℚ) ^ Int.log 2 x = (2 : ℚ) ^ ((52 : ℕ) : ℤ) * 2 ^ ulpExp x := by
    rw [hu, ← zpow_add₀ two_ne_zero]
    congr 1
    push_cast
    ring
  have hscaled : (((2 : ℤ) ^ 52 : ℤ) : ℚ) ≤ x / 2 ^ ulpExp x := by
    rw [le_div_iff₀ (two_zpow_pos _), intCast_two_pow, ← hsplit]
    exact_mod_cast Int.zpow_log_le_self (by norm_num : 1 < 2) hx
  have hint : (2 : ℚ) ^ ((52 : ℕ) : ℤ) ≤ roundInt (x / 2 ^ ulpExp x) := by
    rw [← intCast_two_pow]
    exact_mod_cast (roundInt_intCast _).symm.trans_le (roundInt_mono hscaled)
  rw [hsplit]
  exact mul_le_mul_of_nonneg_right hint (two_zpow_pos _).le

/-- Rounding is monotone on the nonnegative numbers. Within one binade the significands are
rounded by `roundInt`; across binades a power of two separates the two roundings. -/
theorem round_mono {x y : ℚ} (hx : 0 ≤ x) (h : x ≤ y) : round x ≤ round y := by
  rcases eq_or_lt_of_le hx with rfl | hx
  · rw [round_zero]
    exact round_nonneg (hx.trans h)
  · have hy : 0 < y := hx.trans_le h
    have hlog : Int.log 2 x ≤ Int.log 2 y := Int.log_mono_right hx h
    rcases eq_or_lt_of_le hlog with heq | hlt
    · -- one binade
      have hu : ulpExp x = ulpExp y := by rw [ulpExp, ulpExp, abs_of_pos hx, abs_of_pos hy, heq]
      rw [round, round, hu]
      refine mul_le_mul_of_nonneg_right ?_ (two_zpow_pos _).le
      exact_mod_cast roundInt_mono (div_le_div_of_nonneg_right h (two_zpow_pos _).le)
    · calc round x ≤ 2 ^ (Int.log 2 x + 1) := round_le_zpow_succ_log hx
        _ ≤ 2 ^ Int.log 2 y := zpow_le_zpow_right₀ (by norm_num) (by omega)
        _ ≤ round y := zpow_log_le_round hy

/-! ### Conversions to integers -/

/-- `as i64` of a finite `f64`: truncation toward zero, saturating at the bounds of `i64`. -/
def toI64 (x : ℚ) : ℤ := max (-2 ^ 63) (min (2 ^ 63 - 1) (if 0 ≤ x then ⌊x⌋ else ⌈x⌉))

/-- On a nonnegative value below `2 ^ 63` the cast is the floor. -/
theorem toI64_of_nonneg (hx : 0 ≤ x) (hlt : x < 2 ^ 63) : toI64 x = ⌊x⌋ := by
  have h0 : 0 ≤ ⌊x⌋ := Int.floor_nonneg.2 hx
  have h1 : ⌊x⌋ < 2 ^ 63 := Int.floor_lt.2 (by exact_mod_cast hlt)
  rw [toI64, if_pos hx]
  omega

/-- Below the top of `i64` the cast of a nonnegative value is its floor. -/
theorem toI64_eq_floor (hx : 0 ≤ x) (h : toI64 x < 2 ^ 63 - 1) : toI64 x = ⌊x⌋ := by
  have h0 : 0 ≤ ⌊x⌋ := Int.floor_nonneg.2 hx
  rw [toI64, if_pos hx] at h ⊢
  omega

/-- The cast of a value at least an integer of `i64` is at least that integer. -/
theorem le_toI64 {m : ℤ} (hm0 : 0 ≤ m) (hm : m ≤ 2 ^ 63 - 1) (h : (m : ℚ) ≤ x) : m ≤ toI64 x := by
  have hx : 0 ≤ x := le_trans (by exact_mod_cast hm0) h
  have hfl : m ≤ ⌊x⌋ := Int.le_floor.2 h
  rw [toI64, if_pos hx]
  omega

end Binary64

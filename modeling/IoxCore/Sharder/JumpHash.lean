import IoxCore.Lib.Binary64

/-!
# Jump hash sharding

A model of `JumpHash` (src/sharder/src/jumphash.rs): `new`, which refuses an empty shard set,
and `hash`, which runs the jump consistent hash on the SipHash of a key and returns the shard
of the bucket it lands on.

## The model

The 64-bit SipHash-1-3 of the key under the seed key is an input, `hashKey`: every statement
holds for every value of it, so for every key and every seed key (`with_seed_key` and
`shard_for_query` only change what is hashed). The loop runs the linear congruential generator
on `UInt64`, wrapping as `wrapping_mul` and `wrapping_add` do, and computes the next candidate
bucket in `f64`, each operation and each conversion to `f64` rounded by `Binary64.round`; the
operands stay in the range where that is IEEE's rounding. The shard count is cast with `as i64`,
which wraps from `2 ^ 63` on, and the product with the saturating `as i64`. The `while` loop is
given fuel: `jumpLoop` answers `none` when it would run more than `fuel` iterations, and the
results show how much fuel is enough. A panic is `none` too.

## Results

* `lt_nextJump`, `le_nextJump`: off the keys whose top 31 bits are all set the next candidate is
  above the bucket, however large it is, as the ratio's excess over one outweighs the losses of
  the roundings; at the top it is at least the bucket, which is the floor of an `f64`
  (`onGrid_nextJump`).
* `not_atTop_three`: the generator never gives three keys at the top in a row, which is a fact
  about the short vectors of its lattice (`lattice_small`). So `3 * (n - j)` plus the number of
  coming keys at the top goes down at every iteration (`jump_progress`).
* `jumpLoop_spec`, `jumpLoop_succ`: the loop stops at the last candidate below the shard count,
  and one more shard either keeps that bucket or moves the key onto the new one.
* `hash_monotone`: for `1 ≤ n ≤ 2 ^ 63 - 2` shards, `hash` returns the shard of a bucket below
  `n` within `3 * n + 2` iterations, and appending a shard keeps the bucket or picks the new
  shard.
* `hash_none_of_length_two_pow_63`: with `2 ^ 63` shards the count is negative as an `i64`, the
  loop never runs and `assert!(b >= 0)` panics, whatever the key. With `2 ^ 63 - 1` shards the
  instance with one more appended is that one.
-/

namespace IoxCore.Sharder

/-- `usize as i64`: a count from `2 ^ 63` on wraps to a negative number. -/
def usizeAsI64 (n : ℕ) : ℤ := if n < 2 ^ 63 then n else n - 2 ^ 64

/-- `i64::wrapping_add(1)`. -/
def wrappingAddOne (b : ℤ) : ℤ := if b = 2 ^ 63 - 1 then -2 ^ 63 else b + 1

/-- One step of the generator: `key.wrapping_mul(2862933555777941757).wrapping_add(1)`. -/
def lcgStep (key : UInt64) : UInt64 := key * 2862933555777941757 + 1

/-- The candidate after the bucket `b`, from the advanced key:
`((b.wrapping_add(1) as f64) * (((1u64 << 31) as f64) / (((key >> 33) + 1) as f64))) as i64`. -/
def nextJump (key : UInt64) (b : ℤ) : ℤ :=
  Binary64.toI64 (Binary64.round (Binary64.round (wrappingAddOne b) *
    Binary64.round (Binary64.round (2 ^ 31) / Binary64.round (((key >>> 33) + 1).toNat : ℤ))))

/-- The `while` loop of `hash` from the bucket `b` and the candidate `j`, for the shard count
`n` as an `i64`; `none` when it would run more than `fuel` iterations. -/
def jumpLoop (n : ℤ) : ℕ → UInt64 → ℤ → ℤ → Option ℤ
  | 0, _, b, j => if j < n then none else some b
  | fuel + 1, key, b, j =>
    if j < n then
      let key := lcgStep key
      jumpLoop n fuel key j (nextJump key j)
    else some b

/-- The bucket of `n` shards for `hashKey`: the loop from `b = -1`, `j = 0`. -/
def bucket (fuel n : ℕ) (hashKey : UInt64) : Option ℤ :=
  jumpLoop (usizeAsI64 n) fuel hashKey (-1) 0

/-- A `JumpHash`: its shards, never empty. The hasher is not kept, as `hash` takes the hash of
the key. -/
structure JumpHash (α : Type) where
  shards : List α
  nonempty : shards ≠ []

namespace JumpHash

variable {α : Type}

/-- `JumpHash::new`; `none` is the panic on an empty shard set. -/
def new (shards : List α) : Option (JumpHash α) :=
  if h : shards = [] then none else some ⟨shards, h⟩

/-- `JumpHash::hash` of a key whose hash is `hashKey`; `none` is a panic of
`assert!(b >= 0)` or of the `expect`, or the loop running past `fuel`. -/
def hash (jh : JumpHash α) (fuel : ℕ) (hashKey : UInt64) : Option α := do
  let b ← bucket fuel jh.shards.length hashKey
  if 0 ≤ b then jh.shards[b.toNat]? else none

end JumpHash

/-! ### The generator near the top

The ratio `2 ^ 31 / d` is one exactly when the key's top 31 bits are all set. Such a key can
leave the candidate where it is, once the bucket is past `2 ^ 53`; every other key moves it. The
generator never gives three such keys in a row.
-/

/-- The key's top 31 bits are all set: the divisor is `2 ^ 31`. -/
def AtTop (key : UInt64) : Prop := 2 ^ 64 - 2 ^ 33 ≤ key.toNat

instance (key : UInt64) : Decidable (AtTop key) := inferInstanceAs (Decidable (_ ≤ _))

/-- How many of the next keys are at the top, at most two. -/
def slack (key : UInt64) : ℤ :=
  if AtTop (lcgStep key) then (if AtTop (lcgStep (lcgStep key)) then 2 else 1) else 0

theorem toNat_lcgStep (key : UInt64) :
    (lcgStep key).toNat = (key.toNat * 2862933555777941757 + 1) % 2 ^ 64 := by
  rw [lcgStep, UInt64.toNat_add, UInt64.toNat_mul]
  simp [Nat.add_mod, Nat.mul_mod]

/-- The short vectors of the generator's lattice: `m * a ≡ r (mod 2 ^ 64)` with `m` and `r` both
small has three solutions. The basis `(975451704, -3597658792)`, `(-4918494013, -770597705)` of
the lattice is reduced, so both coordinates of a short vector are small. -/
theorem lattice_small {m t : ℤ} (hm1 : 1 ≤ m) (hm2 : m ≤ 2 ^ 33)
    (hr1 : 2 ≤ m * 2862933555777941757 - t * 2 ^ 64)
    (hr2 : m * 2862933555777941757 - t * 2 ^ 64 ≤ 2 ^ 33 + 1) :
    m = 2967590605 ∨ m = 3943042309 ∨ m = 4918494013 := by
  obtain ⟨x, hx⟩ : ∃ x : ℤ, x = m * (-763349971) - t * (-4918494013) := ⟨_, rfl⟩
  obtain ⟨y, hy⟩ : ∃ y : ℤ, y = t * 975451704 - m * 151390045 := ⟨_, rfl⟩
  have hmx : m = x * 975451704 + y * (-4918494013) := by rw [hx, hy]; ring
  have hrx : m * 2862933555777941757 - t * 2 ^ 64 = x * (-3597658792) + y * (-770597705) := by
    rw [hx, hy]; ring
  rw [hrx] at hr1 hr2
  rw [hmx] at hm1 hm2 ⊢
  clear hx hy hrx hmx
  have hxs : x = -2 ∨ x = -1 ∨ x = 0 ∨ x = 1 ∨ x = 2 := by omega
  have hys : y = -2 ∨ y = -1 ∨ y = 0 ∨ y = 1 ∨ y = 2 := by omega
  rcases hxs with rfl | rfl | rfl | rfl | rfl <;> rcases hys with rfl | rfl | rfl | rfl | rfl <;>
    omega

/-- Two keys at the top in a row: the first is one of three. -/
theorem atTop_pair {key : UInt64} (h₀ : AtTop key) (h₁ : AtTop (lcgStep key)) :
    key.toNat = 2 ^ 64 - 2967590605 ∨ key.toNat = 2 ^ 64 - 3943042309 ∨
      key.toNat = 2 ^ 64 - 4918494013 := by
  unfold AtTop at h₀ h₁
  rw [toNat_lcgStep] at h₁
  have hk := key.toNat_lt
  generalize key.toNat = K at *
  have hdm := Nat.div_add_mod (K * 2862933555777941757 + 1) (2 ^ 64)
  have hml := Nat.mod_lt (K * 2862933555777941757 + 1) (show 0 < 2 ^ 64 by norm_num)
  generalize (K * 2862933555777941757 + 1) / 2 ^ 64 = q at hdm
  generalize (K * 2862933555777941757 + 1) % 2 ^ 64 = K₁ at hdm hml h₁
  -- `2 ^ 64 - K` and `2 ^ 64 - K₁ + 1` are a short vector of the lattice, with the carry `q`
  have hm := @lattice_small (2 ^ 64 - K) (2862933555777941757 - q - 1)
    (by omega) (by omega) (by omega) (by omega)
  omega

/-- No three keys in a row are at the top: the successors of the three pairs are not. -/
theorem not_atTop_three (key : UInt64) :
    ¬ (AtTop key ∧ AtTop (lcgStep key) ∧ AtTop (lcgStep (lcgStep key))) := by
  rintro ⟨h₀, h₁, h₂⟩
  have hkey : key = UInt64.ofNat key.toNat := UInt64.ofNat_toNat.symm
  rcases atTop_pair h₀ h₁ with h | h | h <;> rw [h] at hkey <;> subst hkey <;> revert h₂ <;> decide

theorem slack_nonneg (key : UInt64) : 0 ≤ slack key := by
  unfold slack
  split_ifs <;> omega

theorem slack_le_two (key : UInt64) : slack key ≤ 2 := by
  unfold slack
  split_ifs <;> omega

/-- A step onto a key at the top uses up one of the keys `slack` counts. -/
theorem slack_lt_of_atTop {key : UInt64} (h : AtTop (lcgStep key)) :
    slack (lcgStep key) < slack key := by
  unfold slack
  rw [if_pos h]
  by_cases h₂ : AtTop (lcgStep (lcgStep key))
  · have h₃ : ¬ AtTop (lcgStep (lcgStep (lcgStep key))) := fun h₃ =>
      not_atTop_three (lcgStep key) ⟨h, h₂, h₃⟩
    rw [if_pos h₂, if_pos h₂, if_neg h₃]
    omega
  · rw [if_neg h₂, if_neg h₂]
    omega

/-! ### One step of the loop -/

/-- The key's top 31 bits plus one, as the divisor: between `1` and `2 ^ 31`, and `2 ^ 31`
only at the top. -/
theorem divisor_bounds (key : UInt64) :
    1 ≤ ((key >>> 33) + 1).toNat ∧ ((key >>> 33) + 1).toNat ≤ 2 ^ 31 ∧
      (¬ AtTop key → ((key >>> 33) + 1).toNat ≤ 2 ^ 31 - 1) := by
  have hlt := key.toNat_lt
  have hshift : (key >>> 33).toNat = key.toNat / 2 ^ 33 := by
    simp [Nat.shiftRight_eq_div_pow]
  rw [UInt64.toNat_add, hshift, AtTop]
  simp only [UInt64.toNat_one]
  omega

/-- For a bucket below the top of `i64` the conversions of `2 ^ 31` and of the divisor are
exact, and `b + 1` does not wrap. -/
theorem nextJump_eq (key : UInt64) {b : ℤ} (hb : 0 ≤ b) (hb' : b ≤ 2 ^ 63 - 2) :
    nextJump key b = Binary64.toI64 (Binary64.round (Binary64.round ((b + 1 : ℤ) : ℚ) *
      Binary64.round ((2 ^ 31 : ℚ) / ((key >>> 33) + 1).toNat))) := by
  obtain ⟨hd1, hd2, -⟩ := divisor_bounds key
  have hadd : wrappingAddOne b = b + 1 := by rw [wrappingAddOne, if_neg (by omega)]
  have h31 : Binary64.round (2 ^ 31) = 2 ^ 31 := by
    have := Binary64.round_intCast (n := 2 ^ 31) (by norm_num)
    push_cast at this
    exact this
  have hdq : Binary64.round ((((key >>> 33) + 1).toNat : ℤ) : ℚ) = ((key >>> 33) + 1).toNat := by
    have := Binary64.round_intCast (n := ((key >>> 33) + 1).toNat)
      (by rw [abs_of_nonneg (by omega)]; omega)
    push_cast at this
    exact this
  rw [nextJump, hadd, h31, hdq]

/-- The rounded ratio is at least one. -/
theorem one_le_ratio (key : UInt64) :
    (1 : ℚ) ≤ Binary64.round ((2 ^ 31 : ℚ) / ((key >>> 33) + 1).toNat) := by
  obtain ⟨hd1, hd2, -⟩ := divisor_bounds key
  have h1 : Binary64.round 1 = 1 := by
    simpa using Binary64.round_intCast (n := 1) (by norm_num)
  rw [← h1]
  refine Binary64.round_mono zero_le_one ?_
  rw [le_div_iff₀ (by exact_mod_cast hd1), one_mul]
  exact_mod_cast hd2

/-- Off the top the rounded ratio exceeds one by more than the two roundings of the product
can take away. -/
theorem ratio_gt (key : UInt64) (h : ¬ AtTop key) :
    (1 + 1 / 2 ^ 32 : ℚ) < Binary64.round ((2 ^ 31 : ℚ) / ((key >>> 33) + 1).toNat) := by
  obtain ⟨hd1, -, hd3⟩ := divisor_bounds key
  set d := ((key >>> 33) + 1).toNat
  have hd : (0 : ℚ) < d := by exact_mod_cast hd1
  have hd' : (d : ℚ) + 1 ≤ 2 ^ 31 := by
    have := hd3 h
    exact_mod_cast (by omega : d + 1 ≤ 2 ^ 31)
  have hle : (2 ^ 31 / (2 ^ 31 - 1) : ℚ) ≤ 2 ^ 31 / d :=
    div_le_div_of_nonneg_left (by norm_num) hd (by linarith)
  have hround := Binary64.sub_lt_round (x := 2 ^ 31 / (d : ℚ)) (by positivity)
  calc (1 + 1 / 2 ^ 32 : ℚ) < 2 ^ 31 / (2 ^ 31 - 1) - 2 ^ 31 / (2 ^ 31 - 1) / 2 ^ 52 := by
        norm_num
    _ ≤ 2 ^ 31 / d - 2 ^ 31 / d / 2 ^ 52 := by linarith
    _ < _ := hround

/-- A bucket that is the floor of an `f64`: the only kind the loop's candidates are, short of
the saturated top of `i64`. -/
def OnGrid (j : ℤ) : Prop := ∃ y : ℚ, Binary64.round y = y ∧ (j : ℚ) ≤ y ∧ y < j + 1

theorem onGrid_zero : OnGrid 0 := ⟨0, Binary64.round_zero, by simp, by simp⟩

/-- The next candidate is never below a bucket on the grid: rounding `b + 1` cannot go below
the `f64` whose floor `b` is, and the ratio is at least one. -/
theorem le_nextJump (key : UInt64) {b : ℤ} (hb : 0 ≤ b) (hb' : b ≤ 2 ^ 63 - 2)
    (hgrid : OnGrid b) : b ≤ nextJump key b := by
  obtain ⟨y, hy, hby, hyb⟩ := hgrid
  set B : ℚ := ((b + 1 : ℤ) : ℚ)
  have hy0 : 0 ≤ y := le_trans (by exact_mod_cast hb) hby
  have hB0 : 0 ≤ Binary64.round B := Binary64.round_nonneg (by positivity)
  have h1 : y ≤ Binary64.round B := by
    rw [← hy]
    exact Binary64.round_mono hy0 (by push_cast [B]; exact hyb.le)
  have h2 : Binary64.round B ≤
      Binary64.round (Binary64.round B * Binary64.round ((2 ^ 31 : ℚ) / ((key >>> 33) + 1).toNat)) := by
    calc Binary64.round B = Binary64.round (Binary64.round B) := (Binary64.round_round (by positivity)).symm
      _ ≤ _ := Binary64.round_mono hB0 (le_mul_of_one_le_right hB0 (one_le_ratio key))
  rw [nextJump_eq key hb hb']
  exact Binary64.le_toI64 hb (by omega) (by linarith)

/-- Off the top the next candidate is above the bucket, wherever the bucket is: the ratio's
excess is more than the loss of the three roundings. -/
theorem lt_nextJump (key : UInt64) (h : ¬ AtTop key) {b : ℤ} (hb : 0 ≤ b)
    (hb' : b ≤ 2 ^ 63 - 2) : b < nextJump key b := by
  set B : ℚ := ((b + 1 : ℤ) : ℚ)
  set R := Binary64.round ((2 ^ 31 : ℚ) / ((key >>> 33) + 1).toNat)
  have hB : 1 ≤ B := by simp only [B]; exact_mod_cast (by omega : (1 : ℤ) ≤ b + 1)
  have hR := ratio_gt key h
  have hu := Binary64.sub_lt_round (x := B) (by positivity)
  have hu0 : 0 < Binary64.round B := by linarith
  have hP := Binary64.sub_lt_round (x := Binary64.round B * R) (by positivity)
  have hle : B ≤ Binary64.round (Binary64.round B * R) := by
    calc B ≤ (B - B / 2 ^ 52) * (1 + 1 / 2 ^ 32) * (1 - 1 / 2 ^ 52) := by nlinarith
      _ ≤ Binary64.round B * R * (1 - 1 / 2 ^ 52) := by gcongr
      _ = Binary64.round B * R - Binary64.round B * R / 2 ^ 52 := by ring
      _ ≤ _ := hP.le
  have hlt : b + 1 ≤ nextJump key b := by
    rw [nextJump_eq key hb hb']
    exact Binary64.le_toI64 (by omega) (by omega) hle
  omega

/-- A candidate below the top of `i64` is on the grid: it is the floor of a rounded product. -/
theorem onGrid_nextJump (key : UInt64) {b : ℤ} (hb : 0 ≤ b) (hb' : b ≤ 2 ^ 63 - 2)
    (h : nextJump key b < 2 ^ 63 - 1) : OnGrid (nextJump key b) := by
  rw [nextJump_eq key hb hb'] at h ⊢
  set Z := Binary64.round (Binary64.round ((b + 1 : ℤ) : ℚ) *
    Binary64.round ((2 ^ 31 : ℚ) / ((key >>> 33) + 1).toNat))
  have hZ : 0 ≤ Z := Binary64.round_nonneg (mul_nonneg (Binary64.round_nonneg (by positivity))
    (le_trans zero_le_one (one_le_ratio key)))
  rw [Binary64.toI64_eq_floor hZ h]
  exact ⟨Z, Binary64.round_round (mul_nonneg (Binary64.round_nonneg (by positivity))
    (le_trans zero_le_one (one_le_ratio key))), Int.floor_le Z, Int.lt_floor_add_one Z⟩

/-- One iteration from a candidate `j < n` on the grid: the candidate does not go down, the next
one is on the grid or past the count, and `3 * (n - j) + slack key` goes down. It stays put only
on a key at the top, which `slack` counts. -/
theorem jump_progress {n : ℤ} (hn : n ≤ 2 ^ 63 - 1) (key : UInt64) {j : ℤ} (hj : 0 ≤ j)
    (hjn : j < n) (hgrid : OnGrid j) :
    j ≤ nextJump (lcgStep key) j ∧ (OnGrid (nextJump (lcgStep key) j) ∨ n ≤ nextJump (lcgStep key) j) ∧
      3 * (n - nextJump (lcgStep key) j) + slack (lcgStep key) < 3 * (n - j) + slack key := by
  have hle := le_nextJump (lcgStep key) hj (by omega) hgrid
  refine ⟨hle, ?_, ?_⟩
  · by_cases htop : nextJump (lcgStep key) j < 2 ^ 63 - 1
    · exact .inl (onGrid_nextJump _ hj (by omega) htop)
    · exact .inr (by omega)
  · by_cases htop : AtTop (lcgStep key)
    · have := slack_lt_of_atTop htop
      omega
    · have := lt_nextJump _ htop hj (by omega)
      have := slack_le_two (lcgStep key)
      have := slack_nonneg key
      omega

/-! ### The loop -/

section Loop

variable {n : ℤ}

/-- Once the candidate is at or past the shard count, the loop stops with the bucket. -/
theorem jumpLoop_of_le (fuel : ℕ) (key : UInt64) (b : ℤ) {j : ℤ} (h : n ≤ j) :
    jumpLoop n fuel key b j = some b := by
  cases fuel <;> simp [jumpLoop, not_lt.2 h]

theorem jumpLoop_step (fuel : ℕ) (key : UInt64) (b : ℤ) {j : ℤ} (h : j < n) :
    jumpLoop n (fuel + 1) key b j = jumpLoop n fuel (lcgStep key) j (nextJump (lcgStep key) j) := by
  simp [jumpLoop, h]

/-- The loop from a candidate `j ≥ 0` on the grid, for a count below `2 ^ 63` and fuel for
`3 * (n - j) + slack key` iterations, stops at the last candidate below `n`, or at once with
the bucket it has. The induction is on the fuel, which each step's `jump_progress` keeps above
the measure. -/
theorem jumpLoop_spec (hn : n ≤ 2 ^ 63 - 1) :
    ∀ (fuel : ℕ) (key : UInt64) (b j : ℤ), 0 ≤ j → (OnGrid j ∨ n ≤ j) →
      3 * (n - j) + slack key ≤ fuel →
      ∃ r, jumpLoop n fuel key b j = some r ∧ (j < n → j ≤ r ∧ r < n) ∧ (n ≤ j → r = b)
  | 0, key, b, j, _, _, hfuel => by
    have := slack_nonneg key
    exact ⟨b, jumpLoop_of_le 0 key b (by omega), fun h => absurd h (by omega), fun _ => rfl⟩
  | fuel + 1, key, b, j, hj, hgrid, hfuel => by
    by_cases hlt : j < n
    · obtain ⟨hle, hgrid', hdown⟩ :=
        jump_progress hn key hj hlt (hgrid.resolve_right (not_le.2 hlt))
      obtain ⟨r, hr, hbelow, hstop⟩ := jumpLoop_spec hn fuel (lcgStep key) j
        (nextJump (lcgStep key) j) (by omega) hgrid' (by omega)
      refine ⟨r, by rw [jumpLoop_step fuel key b hlt, hr], fun _ => ?_,
        fun h => absurd hlt (not_lt.2 h)⟩
      -- the next candidate is past the count, and `j` is the result, or it is below and later
      -- candidates decide
      by_cases hlt' : nextJump (lcgStep key) j < n
      · have := hbelow hlt'
        omega
      · have := hstop (not_lt.1 hlt')
        omega
    · exact ⟨b, jumpLoop_of_le _ key b (not_lt.1 hlt), fun h => absurd h hlt, fun _ => rfl⟩

/-- With one shard more, the loop keeps its result or ends on the bucket `n` of the new shard:
the candidates do not depend on the count, so both loops step alike until one stops. -/
theorem jumpLoop_succ (hn : n + 1 ≤ 2 ^ 63 - 1) :
    ∀ (fuel : ℕ) (key : UInt64) (b j : ℤ), 0 ≤ j → (OnGrid j ∨ n + 1 ≤ j) →
      3 * (n + 1 - j) + slack key ≤ fuel →
      jumpLoop (n + 1) fuel key b j = jumpLoop n fuel key b j ∨
        jumpLoop (n + 1) fuel key b j = some n
  | 0, key, b, j, _, _, hfuel => by
    have := slack_nonneg key
    left
    rw [jumpLoop_of_le 0 key b (by omega), jumpLoop_of_le 0 key b (by omega)]
  | fuel + 1, key, b, j, hj, hgrid, hfuel => by
    by_cases hgt : n + 1 ≤ j
    · left
      rw [jumpLoop_of_le _ key b hgt, jumpLoop_of_le _ key b (by omega)]
    obtain ⟨hle, hgrid', hdown⟩ := jump_progress hn key hj (by omega) (hgrid.resolve_right hgt)
    rw [jumpLoop_step fuel key b (by omega : j < n + 1)]
    rcases lt_or_eq_of_le (show j ≤ n by omega) with hlt | heq
    · -- both loops step to the same state
      rw [jumpLoop_step fuel key b hlt]
      exact jumpLoop_succ hn fuel _ j _ (by omega) hgrid' (by omega)
    · -- only the loop over `n + 1` shards steps, and every later candidate below `n + 1` is `n`
      right
      obtain ⟨r, hr, hbelow, hstop⟩ := jumpLoop_spec hn fuel (lcgStep key) j
        (nextJump (lcgStep key) j) (by omega) hgrid' (by omega)
      rw [hr]
      by_cases hlt' : nextJump (lcgStep key) j < n + 1
      · have := hbelow hlt'
        congr 1
        omega
      · rw [hstop (not_lt.1 hlt'), heq]

end Loop

/-! ### `hash` -/

theorem usizeAsI64_of_lt {n : ℕ} (h : n < 2 ^ 63) : usizeAsI64 n = n := by
  rw [usizeAsI64, if_pos h]

/-- For `1 ≤ n < 2 ^ 63` shards and fuel for `3 * n + 2` iterations, the bucket is below `n`. -/
theorem bucket_spec {n : ℕ} (hn : 1 ≤ n) (hn' : n < 2 ^ 63) (hashKey : UInt64) {fuel : ℕ}
    (hfuel : 3 * n + 2 ≤ fuel) : ∃ b : ℕ, b < n ∧ bucket fuel n hashKey = some (b : ℤ) := by
  have hcast := usizeAsI64_of_lt hn'
  have := slack_le_two hashKey
  obtain ⟨r, hr, hbelow, -⟩ :=
    jumpLoop_spec (n := n) (by omega) fuel hashKey (-1) 0 le_rfl (.inl onGrid_zero) (by omega)
  obtain ⟨h0, hlt⟩ := hbelow (by omega)
  refine ⟨r.toNat, by omega, ?_⟩
  rw [bucket, hcast, hr, Int.toNat_of_nonneg h0]

/-- With one shard more, the bucket stays or is the new shard's. -/
theorem bucket_succ {n : ℕ} (hn : n + 1 < 2 ^ 63) (hashKey : UInt64) {fuel : ℕ}
    (hfuel : 3 * n + 5 ≤ fuel) :
    bucket fuel (n + 1) hashKey = bucket fuel n hashKey ∨
      bucket fuel (n + 1) hashKey = some (n : ℤ) := by
  have hcast := usizeAsI64_of_lt (n := n) (by omega)
  have hcast' := usizeAsI64_of_lt hn
  have := slack_le_two hashKey
  rw [bucket, bucket, hcast, hcast', Nat.cast_add, Nat.cast_one]
  exact jumpLoop_succ (by omega) fuel hashKey (-1) 0 le_rfl (.inl onGrid_zero) (by omega)

theorem JumpHash.hash_of_bucket {α : Type} (jh : JumpHash α) {fuel : ℕ} {hashKey : UInt64} {b : ℕ}
    (hb : b < jh.shards.length) (h : bucket fuel jh.shards.length hashKey = some (b : ℤ)) :
    jh.hash fuel hashKey = some jh.shards[b] := by
  simp [JumpHash.hash, h, hb]

theorem JumpHash.new_of_ne_nil {α : Type} {shards : List α} (h : shards ≠ []) :
    JumpHash.new shards = some ⟨shards, h⟩ := by
  rw [JumpHash.new, dif_neg h]

/-- Jump hashing over `1 ≤ n ≤ 2 ^ 63 - 2` shards, for every key and seed key: `hash` returns
the shard of a bucket `b < n` within `3 * n + 2` iterations, and the instance with one more
shard appended returns the shard of the same bucket or the new shard. -/
theorem hash_monotone {α : Type} (shards : List α) (s : α) (hn : shards ≠ [])
    (hlen : shards.length + 1 < 2 ^ 63) (hashKey : UInt64) {fuel : ℕ}
    (hfuel : 3 * shards.length + 5 ≤ fuel) :
    ∃ jh jh', JumpHash.new shards = some jh ∧ JumpHash.new (shards ++ [s]) = some jh' ∧
      ∃ b, ∃ hb : b < shards.length, bucket fuel shards.length hashKey = some (b : ℤ) ∧
        jh.hash fuel hashKey = some shards[b] ∧
        ((bucket fuel (shards.length + 1) hashKey = some (b : ℤ) ∧
            jh'.hash fuel hashKey = some shards[b]) ∨
          (bucket fuel (shards.length + 1) hashKey = some (shards.length : ℤ) ∧
            jh'.hash fuel hashKey = some s)) := by
  have hpos : 1 ≤ shards.length := List.length_pos_iff.2 hn
  obtain ⟨b, hb, hbucket⟩ := bucket_spec hpos (by omega) hashKey (by omega : 3 * _ + 2 ≤ fuel)
  have hne : shards ++ [s] ≠ [] := by simp
  have hlen' : (shards ++ [s]).length = shards.length + 1 := by simp
  refine ⟨⟨shards, hn⟩, ⟨shards ++ [s], hne⟩, JumpHash.new_of_ne_nil hn, JumpHash.new_of_ne_nil hne,
    b, hb, hbucket, JumpHash.hash_of_bucket ⟨shards, hn⟩ hb hbucket, ?_⟩
  rcases bucket_succ hlen hashKey hfuel with hsame | hnew
  · -- the same bucket, a shard of the old list
    have hb' : b < (shards ++ [s]).length := by rw [hlen']; omega
    refine .inl ⟨hsame.trans hbucket, ?_⟩
    rw [JumpHash.hash_of_bucket ⟨shards ++ [s], hne⟩ hb' (by rw [hlen', hsame, hbucket]),
      List.getElem_append_left hb]
  · -- the new bucket, the appended shard
    have hn' : shards.length < (shards ++ [s]).length := by rw [hlen']; omega
    refine .inr ⟨hnew, ?_⟩
    rw [JumpHash.hash_of_bucket ⟨shards ++ [s], hne⟩ hn' (by rw [hlen', hnew]),
      List.getElem_concat_length rfl]

theorem hash_monotone_three_shards :
    ∃ jh jh', JumpHash.new [0, 1, 2] = some jh ∧ JumpHash.new ([0, 1, 2] ++ [3]) = some jh' ∧
      ∃ b, ∃ hb : b < [0, 1, 2].length, bucket 14 [0, 1, 2].length 0 = some (b : ℤ) ∧
        jh.hash 14 0 = some [0, 1, 2][b] ∧
        ((bucket 14 ([0, 1, 2].length + 1) 0 = some (b : ℤ) ∧ jh'.hash 14 0 = some [0, 1, 2][b]) ∨
          (bucket 14 ([0, 1, 2].length + 1) 0 = some ([0, 1, 2].length : ℤ) ∧
            jh'.hash 14 0 = some 3)) :=
  hash_monotone [0, 1, 2] 3 (by simp) (by norm_num) 0 (by norm_num)

/-- With `2 ^ 63` shards (of a zero-sized type, as a `Vec` can hold that many) the count is
negative as an `i64`: the loop never runs, `b` stays `-1` and `assert!(b >= 0)` panics, for
every key and every amount of fuel. -/
theorem hash_none_of_length_two_pow_63 (hashKey : UInt64) (fuel : ℕ) :
    ∃ jh : JumpHash Unit, JumpHash.new (List.replicate (2 ^ 63) ()) = some jh ∧
      jh.hash fuel hashKey = none := by
  have hlen : (List.replicate (2 ^ 63) ()).length = 2 ^ 63 := List.length_replicate
  have hne : List.replicate (2 ^ 63) () ≠ [] :=
    List.ne_nil_of_length_pos (by rw [hlen]; exact Nat.two_pow_pos 63)
  have hcast : usizeAsI64 (2 ^ 63) = -2 ^ 63 := by
    rw [usizeAsI64, if_neg (lt_irrefl _)]
    norm_num
  -- the loop does not run: `b` stays `-1`
  have hb : bucket fuel (List.replicate (2 ^ 63) ()).length hashKey = some (-1) := by
    rw [hlen, bucket, hcast]
    exact jumpLoop_of_le fuel hashKey (-1) (by norm_num)
  refine ⟨⟨_, hne⟩, JumpHash.new_of_ne_nil hne, ?_⟩
  rw [JumpHash.hash, hb]
  rfl

/-- The key `0` with fuel for `2 ^ 63` iterations: `hash` panics, and not for want of fuel. -/
theorem hash_panics_of_two_pow_63 :
    ∃ jh : JumpHash Unit, JumpHash.new (List.replicate (2 ^ 63) ()) = some jh ∧
      jh.hash (2 ^ 63) 0 = none :=
  hash_none_of_length_two_pow_63 0 (2 ^ 63)

end IoxCore.Sharder

import IoxCore.Lib.Except
import Mathlib.Algebra.Order.Field.Rat
import Mathlib.Tactic.Linarith
import Mathlib.Tactic.Positivity

/-!
# backoff: exponential backoff with jitter

A model of `Backoff` (src/backoff/src/lib.rs): `Backoff::new_with_rng`, `fade_to`, the
`Iterator` impl whose `next` draws the next backoff from `init..=next*base` and clamps it to the
maximum, and `retry_with_backoff` / `retry_all_errors`, which call an operation until it
succeeds and sleep for each backoff in between.

## The model

Durations are non-negative rationals of seconds and the `f64` fields of `Backoff` are rationals:
the rounding of `f64` is not modelled, and no value is infinite or NaN, so `base.is_finite()`
holds. The random number generator is the sequence of its draws, each a number `u` in `[0, 1]`
that `gen_range(low..=high)` turns into `low + u * (high - low)`; `gen_range` panics on an empty
range. The operation retried is the list of its outcomes, one per call, and the draws are used
one per failed call; a run that is given too few of either is `none`. Sleeping and logging
are left out.

## What is proved

Every backoff `next` yields lies in `[min(init, max), max]`, the first being `min(init, max)`,
and no draw makes `next` panic (`nexts_bounded`). `next` ends the iteration when the deadline is
reached, and also, with or without a deadline, when the backoff it would yield is more than
`MAX_F64_SECS` = 10⁶ seconds (`next_spec`). `retry_with_backoff` reads that `None` as a
deadline and calls `deadline.expect("deadline")`, so without a deadline and with backoffs over
10⁶ seconds the first failure panics (`retryWithBackoff_panics_without_deadline`); with
backoffs up to 10⁶ seconds it never panics (`retryWithBackoff_ne_panic`).
-/

namespace IoxCore

/-- `BackoffConfig`, with its durations in seconds. -/
structure BackoffConfig where
  initBackoff : ℚ≥0
  maxBackoff : ℚ≥0
  base : ℚ
  deadline : Option ℚ≥0

/-- `BackoffConfig::default`: 100 ms, 500 s, base 3, no deadline. -/
def BackoffConfig.default : BackoffConfig := ⟨(1 / 10 : ℚ≥0), 500, 3, none⟩

/-- `Backoff`, without its random number generator, which is passed to `next` as its draw. -/
structure Backoff where
  initBackoff : ℚ
  nextBackoffSecs : ℚ
  maxBackoffSecs : ℚ
  base : ℚ
  total : ℚ
  deadline : Option ℚ

namespace Backoff

/-- `Backoff::new_with_rng`: its assertion that the base is finite holds of every rational; the
one that it is at least 1 is checked. -/
def new (config : BackoffConfig) : Except Failure Backoff :=
  if config.base < 1 then .error .panic
  else
    let maxBackoff : ℚ := config.maxBackoff
    let initBackoff := min (config.initBackoff : ℚ) maxBackoff
    .ok { initBackoff, nextBackoffSecs := initBackoff, maxBackoffSecs := maxBackoff,
          base := config.base, total := 0, deadline := config.deadline.map (↑) }

/-- `Backoff::fade_to`: the new configuration's bounds, base and deadline, with the backoff
and total reached so far. -/
def fadeTo (self : Backoff) (config : BackoffConfig) : Except Failure Backoff := do
  let new ← Backoff.new config
  pure { new with nextBackoffSecs := self.nextBackoffSecs, total := self.total }

/-- `Rng::gen_range(low..=high)` for the draw `u`; an empty range panics. -/
def genRange (low high u : ℚ) : Except Failure ℚ :=
  if low ≤ high then .ok (low + u * (high - low)) else .error .panic

/-- `MAX_F64_SECS`. -/
def maxF64Secs : ℚ := 1000000

/-- `duration_try_from_secs_f64`: a duration when the seconds lie in `0..=MAX_F64_SECS`. -/
def durationTryFromSecsF64 (secs : ℚ) : Option ℚ :=
  if 0 ≤ secs ∧ secs ≤ maxF64Secs then some secs else none

/-- `Iterator::next` with the draw `u`: the new backoff is drawn and clamped and counted in the
total, and the previous one is returned, unless the deadline is reached. -/
def next (self : Backoff) (u : ℚ) : Except Failure (Option ℚ × Backoff) := do
  let randBackoff ← genRange self.initBackoff (self.nextBackoffSecs * self.base) u
  let nextBackoff := min self.maxBackoffSecs randBackoff
  let total := self.total + nextBackoff
  let res := self.nextBackoffSecs
  let self := { self with total, nextBackoffSecs := nextBackoff }
  match self.deadline with
  | some deadline => if total ≥ deadline then pure (none, self) else pure (durationTryFromSecsF64 res, self)
  | none => pure (durationTryFromSecsF64 res, self)

/-- `ControlFlow`: what one call of the retried operation gives. -/
inductive ControlFlow (B E : Type) where
  | break (b : B)
  | continue (e : E)

/-- `BackoffError`. -/
inductive BackoffError (E : Type) where
  | deadlineExceeded (deadline : ℚ) (source : E)

variable {B E : Type}

/-- `retry_with_backoff`, over the outcomes of the successive calls and the draws of the
generator. When `next` gives no backoff, the error names the deadline, read with
`expect("deadline")`. -/
def retryWithBackoff (self : Backoff) :
    List (ControlFlow B E) → List ℚ → Option (Except Failure (Except (BackoffError E) B))
  | [], _ => none
  | .break r :: _, _ => some (.ok (.ok r))
  | .continue _ :: _, [] => none
  | .continue e :: calls, u :: draws =>
    match self.next u with
    | .error f => some (.error f)
    | .ok (some _, self) => self.retryWithBackoff calls draws
    | .ok (none, self) =>
      match self.deadline with
      | some deadline => some (.ok (.error (.deadlineExceeded deadline e)))
      | none => some (.error .panic)

/-- `retry_all_errors`: `retry_with_backoff` with each error as a reason to go on. -/
def retryAllErrors (self : Backoff) (calls : List (Except E B)) (draws : List ℚ) :
    Option (Except Failure (Except (BackoffError E) B)) :=
  self.retryWithBackoff (calls.map fun | .ok b => .break b | .error e => .continue e) draws

/-- The backoffs `next` yields for the given draws, one call per draw. -/
def nexts (self : Backoff) : List ℚ → Except Failure (List (Option ℚ))
  | [] => pure []
  | u :: draws => do
    let (d, self) ← self.next u
    let ds ← self.nexts draws
    pure (d :: ds)

/-! ## The invariant of a backoff -/

/-- What every backoff built by `new` keeps: the next backoff lies between the initial one and
the maximum, and the base is at least 1. -/
structure Inv (b : Backoff) : Prop where
  init_nonneg : 0 ≤ b.initBackoff
  init_le_next : b.initBackoff ≤ b.nextBackoffSecs
  next_le_max : b.nextBackoffSecs ≤ b.maxBackoffSecs
  one_le_base : 1 ≤ b.base

/-- A draw in `[0, 1]`. -/
def IsDraw (u : ℚ) : Prop := 0 ≤ u ∧ u ≤ 1

theorem new_inv {config : BackoffConfig} {b : Backoff} (h : Backoff.new config = .ok b) :
    b.Inv ∧ b.nextBackoffSecs = min (config.initBackoff : ℚ) config.maxBackoff ∧
      b.initBackoff = b.nextBackoffSecs ∧ b.maxBackoffSecs = config.maxBackoff ∧
      b.deadline = config.deadline.map (↑) := by
  unfold Backoff.new at h
  split at h
  · cases h
  · next hbase =>
    cases h
    refine ⟨⟨le_min (by positivity) (by positivity), le_rfl, min_le_right _ _, not_lt.1 hbase⟩,
      rfl, rfl, rfl, rfl⟩

/-- A drawn backoff lies between the initial backoff and `next * base`. -/
theorem genRange_spec {low high u : ℚ} (hle : low ≤ high) (hu : IsDraw u) :
    genRange low high u = .ok (low + u * (high - low)) ∧
      low ≤ low + u * (high - low) ∧ low + u * (high - low) ≤ high := by
  have hd : 0 ≤ high - low := sub_nonneg.2 hle
  refine ⟨if_pos hle, le_add_of_nonneg_right (mul_nonneg hu.1 hd), ?_⟩
  have : u * (high - low) ≤ high - low := mul_le_of_le_one_left hd hu.2
  linarith

/-- One `next`, all it can do: it never panics; it gives the previous backoff, or nothing exactly
when the deadline is reached or that backoff is out of `0..=MAX_F64_SECS`; and it keeps the
invariant, changing only the backoff and the total. -/
theorem next_spec {b : Backoff} (hb : b.Inv) {u : ℚ} (hu : IsDraw u) :
    ∃ b' d, b.next u = .ok (d, b') ∧
      (d = none ↔ (∃ D, b.deadline = some D ∧ D ≤ b'.total) ∨ maxF64Secs < b.nextBackoffSecs) ∧
      (∀ t, d = some t → t = b.nextBackoffSecs) ∧
      b'.Inv ∧ b'.initBackoff = b.initBackoff ∧ b'.maxBackoffSecs = b.maxBackoffSecs ∧
      b'.deadline = b.deadline := by
  -- the range is not empty: `init ≤ next ≤ next * base`
  have hrange : b.initBackoff ≤ b.nextBackoffSecs * b.base := by
    have : b.nextBackoffSecs ≤ b.nextBackoffSecs * b.base :=
      le_mul_of_one_le_right (hb.init_nonneg.trans hb.init_le_next) hb.one_le_base
    exact hb.init_le_next.trans this
  obtain ⟨hgen, hlo, -⟩ := genRange_spec hrange hu
  have hnonneg : 0 ≤ b.nextBackoffSecs := hb.init_nonneg.trans hb.init_le_next
  have htry : ∀ t, durationTryFromSecsF64 b.nextBackoffSecs = some t → t = b.nextBackoffSecs := by
    intro t ht
    simp only [durationTryFromSecsF64] at ht
    split at ht <;> cases ht
    rfl
  have htryNone : durationTryFromSecsF64 b.nextBackoffSecs = none ↔
      maxF64Secs < b.nextBackoffSecs := by
    simp [durationTryFromSecsF64, hnonneg]
  have hinv : Inv ⟨b.initBackoff, min b.maxBackoffSecs
      (b.initBackoff + u * (b.nextBackoffSecs * b.base - b.initBackoff)), b.maxBackoffSecs, b.base,
      b.total + min b.maxBackoffSecs
        (b.initBackoff + u * (b.nextBackoffSecs * b.base - b.initBackoff)), b.deadline⟩ :=
    ⟨hb.init_nonneg, le_min (hb.init_le_next.trans hb.next_le_max) hlo, min_le_left _ _,
      hb.one_le_base⟩
  simp only [Backoff.next, hgen, Except.ok_bind]
  -- the deadline check of the code, on the new total
  cases hdl : b.deadline with
  | none =>
    exact ⟨_, _, rfl, by simp [htryNone], htry, hdl ▸ hinv, rfl, rfl, rfl⟩
  | some D =>
    by_cases hD : b.total + min b.maxBackoffSecs
        (b.initBackoff + u * (b.nextBackoffSecs * b.base - b.initBackoff)) ≥ D
    · exact ⟨_, none, if_pos hD, by simp [hD], by simp, hdl ▸ hinv, rfl, rfl, rfl⟩
    · exact ⟨_, _, if_neg hD, by simp [hD, htryNone], htry, hdl ▸ hinv, rfl, rfl, rfl⟩

/-! ## Every backoff is bounded -/

/-- A run of `next` from a backoff of the invariant: no draw makes it panic, and every backoff
it yields lies between the initial backoff and the maximum, the first being the backoff the run
starts from. Induction on the draws, one `next_spec` step each. -/
theorem nexts_spec : ∀ (draws : List ℚ) {b : Backoff}, b.Inv → (∀ u ∈ draws, IsDraw u) →
    ∃ ds, b.nexts draws = .ok ds ∧
      (∀ d ∈ ds, ∀ t, d = some t → b.initBackoff ≤ t ∧ t ≤ b.maxBackoffSecs) ∧
      (∀ t, ds.head? = some (some t) → t = b.nextBackoffSecs)
  | [], _, _, _ => ⟨[], rfl, by simp, by simp⟩
  | u :: draws, b, hb, hdraws => by
    obtain ⟨b', d, hd, -, hyield, hb', hi, hm, -⟩ := next_spec hb (hdraws u List.mem_cons_self)
    obtain ⟨ds, hds, hbound, -⟩ :=
      nexts_spec draws hb' fun v hv => hdraws v (List.mem_cons_of_mem u hv)
    refine ⟨d :: ds, by simp [nexts, hd, hds], ?_, ?_⟩
    · intro d' hd' t ht
      rcases List.mem_cons.1 hd' with rfl | hmem
      · -- the backoff this call yields is the one the invariant bounds
        rw [hyield t ht]
        exact ⟨hb.init_le_next, hb.next_le_max⟩
      · rw [← hi, ← hm]
        exact hbound d' hmem t ht
    · intro t ht
      simp only [List.head?_cons, Option.some.injEq] at ht
      exact hyield t ht

/-- Every backoff `next` yields from a backoff built by `new` lies in `[min(init, max), max]`,
the first is `min(init, max)`, and no draw makes `next` panic. -/
theorem nexts_bounded {config : BackoffConfig} {b : Backoff} (hnew : Backoff.new config = .ok b)
    (draws : List ℚ) (hdraws : ∀ u ∈ draws, IsDraw u) :
    ∃ ds, b.nexts draws = .ok ds ∧
      (∀ d ∈ ds, ∀ t, d = some t →
        min (config.initBackoff : ℚ) config.maxBackoff ≤ t ∧ t ≤ config.maxBackoff) ∧
      (∀ t, ds.head? = some (some t) → t = min (config.initBackoff : ℚ) config.maxBackoff) := by
  obtain ⟨hinv, hfirst, hinit, hmax, -⟩ := new_inv hnew
  obtain ⟨ds, hds, hbound, hhead⟩ := nexts_spec draws hinv hdraws
  refine ⟨ds, hds, fun d hd t ht => ?_, fun t ht => (hhead t ht).trans hfirst⟩
  have := hbound d hd t ht
  rwa [hinit, hfirst, hmax] at this

/-! ## Retrying -/

/-- With backoffs of at most `MAX_F64_SECS`, retrying never panics: `next` ends only at the
deadline, and then there is one to name. Induction on the calls, one `next_spec` step per failed
call. -/
theorem retryWithBackoff_ne_panic {b : Backoff} (hb : b.Inv) (hmax : b.maxBackoffSecs ≤ maxF64Secs) :
    ∀ (calls : List (ControlFlow B E)) (draws : List ℚ), (∀ u ∈ draws, IsDraw u) →
      ∀ f, b.retryWithBackoff calls draws ≠ some (.error f) := by
  intro calls
  induction calls generalizing b with
  | nil => intro _ _ f h; cases h
  | cons call calls ih =>
    intro draws hdraws f h
    cases call with
    | «break» r => cases h
    | «continue» e =>
      cases draws with
      | nil => cases h
      | cons u draws =>
        obtain ⟨b', d, hd, hnone, -, hb', -, hm', hdl'⟩ := next_spec hb (hdraws u List.mem_cons_self)
        -- the backoff is within `MAX_F64_SECS`, so `next` ends only at the deadline
        have hwithin : ¬ maxF64Secs < b.nextBackoffSecs := not_lt.2 (hb.next_le_max.trans hmax)
        cases d with
        | none =>
          obtain ⟨D, hD, -⟩ := (hnone.1 rfl).resolve_right hwithin
          simp [retryWithBackoff, hd, hdl', hD] at h
        | some t =>
          simp only [retryWithBackoff, hd] at h
          exact ih hb' (hm'.trans_le hmax) draws
            (fun v hv => hdraws v (List.mem_cons_of_mem u hv)) f h

/-- Without a deadline, when the first backoff is more than `MAX_F64_SECS`, the first failure
makes `retry_with_backoff` panic: `next` gives no backoff and `deadline.expect("deadline")`
finds no deadline. -/
theorem retryWithBackoff_panics_without_deadline {config : BackoffConfig} {b : Backoff}
    (hnew : Backoff.new config = .ok b) (hdeadline : config.deadline = none)
    (hbig : maxF64Secs < min (config.initBackoff : ℚ) config.maxBackoff)
    (e : E) (calls : List (ControlFlow B E)) {u : ℚ} (hu : IsDraw u) (draws : List ℚ) :
    b.retryWithBackoff (.continue e :: calls) (u :: draws) = some (.error .panic) := by
  obtain ⟨hinv, hfirst, -, -, hdl⟩ := new_inv hnew
  obtain ⟨b', d, hd, hnone, -, -, -, -, hdl'⟩ := next_spec hinv hu
  have hnoBackoff : d = none := hnone.2 (.inr (hfirst ▸ hbig))
  simp [retryWithBackoff, hd, hnoBackoff, hdl', hdl, hdeadline]

/-- A backoff of 2·10⁶ seconds with no deadline: the first failed call panics. -/
theorem retryWithBackoff_panics_at_two_million_secs :
    ∃ b, Backoff.new ⟨2000000, 2000000, 1, none⟩ = .ok b ∧
      b.retryWithBackoff [ControlFlow.continue (), ControlFlow.break ()] [0] =
        some (.error .panic) := by
  refine ⟨_, rfl, @retryWithBackoff_panics_without_deadline Unit Unit ⟨2000000, 2000000, 1, none⟩
    _ rfl rfl ?_ () [.break ()] 0 ⟨le_rfl, zero_le_one⟩ []⟩
  norm_num [maxF64Secs]

end Backoff

end IoxCore

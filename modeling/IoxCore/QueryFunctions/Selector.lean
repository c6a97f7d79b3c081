import IoxCore.Lib.FirstBest
import Mathlib.Data.Prod.Lex

/-!
# Selectors

`Selector` (src/query_functions/src/selectors/internal.rs), the accumulator behind the
`selector_first`, `selector_last`, `selector_min` and `selector_max` aggregates: it keeps a
value, its time and the other fields of one row. `selector_first` and `selector_last` compare
times (`Target::Time`, with `Comparison::Min` and `Comparison::Max`); `selector_min` and
`selector_max` compare values (`Target::Value`) and, among the rows holding the value kept, keep
the least time.

## The model

A batch is its rows: the value, the time and the other fields at one index of the argument
arrays, `none` for NULL. Values are of a linear order (no NaN), times are `i64` nanoseconds. The
arrow kernels are `arrayMin` and `arrayMax` (which skip NULLs), `nullif` and `neq`; the first
index holding a time is found with `List.find?`. `try_from_array` is not modelled (it does not
fail on an index of the array). The `unwrap` on the index is a failure (`none`).

## Results

* `updateTimeBased_eq`, `updateValueBased_eq`: one batch keeps the better of the row kept and the
  first best row of the batch, in the order `Beats` of the selector;
* `foldlM_updateBatch`, `runFinal_eq`: over any batching, and when partial accumulators are
  merged through `state` and `merge_batch`, the selector keeps the first best row of all rows in
  the order they reach it;
* `selector_first_best`: what `evaluate` returns after any plan of partial and final
  aggregation; ties go to the partial accumulator merged first, not to the row first in the
  input (`selector_tie_follows_merge_order`).
-/

namespace IoxCore.QueryFunctions

/-- `Comparison`: how to compare values or times. -/
inductive Comparison
  | min
  | max
  deriving DecidableEq

/-- `Comparison::is_update`: whether `new` replaces `old`. -/
def Comparison.isUpdate {α : Type} [LT α] [DecidableLT α] : Comparison → α → α → Bool
  | .min, old, new => decide (new < old)
  | .max, old, new => decide (old < new)

/-- `Target`: what to compare. -/
inductive Target
  | time
  | value
  deriving DecidableEq

/-- `ActionNeeded`: whether a batch brings a new value, a new time for the value kept, or
nothing. -/
inductive ActionNeeded
  | updateValueAndTime
  /-- `UpdateTime` (the method `update_time` takes its name). -/
  | updateTimeOnly
  | nothing

def ActionNeeded.updateValue : ActionNeeded → Bool
  | .updateValueAndTime => true
  | .updateTimeOnly => false
  | .nothing => false

def ActionNeeded.updateTime : ActionNeeded → Bool
  | .updateValueAndTime => true
  | .updateTimeOnly => true
  | .nothing => false

/-! ### Arrow kernels -/

section Kernels

variable {α : Type}

/-- `arrow::compute::min`: the least non-NULL entry. -/
def arrayMin [Min α] (xs : List (Option α)) : Option α := (xs.filterMap id).min?

/-- `arrow::compute::max`: the greatest non-NULL entry. -/
def arrayMax [Max α] (xs : List (Option α)) : Option α := (xs.filterMap id).max?

/-- `arrow::compute::nullif`: NULL where the mask is true; a NULL mask entry keeps the entry. -/
def nullif (x : Option α) (mask : Option Bool) : Option α :=
  if mask = some true then none else x

/-- `arrow::compute::kernels::cmp::neq` on one entry: NULL where either side is. -/
def neq [DecidableEq α] : Option α → Option α → Option Bool
  | some a, some b => some (a != b)
  | _, _ => none

/-- `match self.comp { Min => min(..), Max => max(..) }`. -/
def Comparison.arrayBest [Min α] [Max α] : Comparison → List (Option α) → Option α
  | .min, xs => arrayMin xs
  | .max, xs => arrayMax xs

end Kernels

/-! ### The accumulator -/

/-- One row of a batch: the value, the time and the other fields at one index. -/
structure Row (V S : Type) where
  value : Option V
  time : Option ℤ
  other : List S

/-- The state of a `Selector`. -/
structure Selector (V S : Type) where
  comp : Comparison
  target : Target
  value : Option V
  time : Option ℤ
  other : List S

namespace Selector

variable {V S : Type} [LinearOrder V]

/-- `Selector::new`: a NULL value and time, and the NULLs of the other fields' types. -/
def new (comp : Comparison) (target : Target) (others : List S) : Selector V S :=
  ⟨comp, target, none, none, others⟩

/-- `update_time_based`: the first row holding the least (greatest) time among the rows with a
value replaces the row kept if its time is strictly better. -/
def updateTimeBased (sel : Selector V S) (rows : List (Row V S)) : Option (Selector V S) :=
  let times := rows.map fun r => nullif r.time (some r.value.isNone)
  let curTime := sel.comp.arrayBest times
  let needUpdate := match sel.time, curTime with
    | some time, some cur => sel.comp.isUpdate time cur
    | none, some _ => true
    | _, none => false
  if needUpdate then
    -- the first index whose time is `cur_time`
    match (rows.zip times).find? (fun p => p.2 == curTime) with
    | some (r, _) => some { sel with time := curTime, value := r.value, other := r.other }
    | none => none
  else some sel

/-- The block of `update_value_based` under `action_needed.update_time()`: the least time among
the rows holding the value kept replaces the time kept if smaller, and then the other fields are
those of the first row with that time. -/
def refreshTime (sel : Selector V S) (rows : List (Row V S)) : Option (Selector V S) :=
  -- the times of the rows holding the value kept, NULL elsewhere
  let times := rows.map fun r =>
    nullif (nullif r.time (neq sel.value r.value)) (some r.value.isNone)
  let (time, foundNewTime) : Option ℤ × Bool := match arrayMin times, sel.time with
    | some x, some y => if x < y then (some x, true) else (sel.time, false)
    | some x, none => (some x, true)
    | none, _ => (sel.time, false)
  let sel := { sel with time := time }
  if foundNewTime && !sel.other.isEmpty then
    match (rows.zip times).find? (fun p => p.2 == sel.time) with
    | some (r, _) => some { sel with other := r.other }
    | none => none
  else some sel

/-- `update_value_based`: a strictly better value replaces the one kept and resets its time; the
least time among the rows holding the value kept then replaces the time kept if smaller, and the
other fields are those of the first row with that time. -/
def updateValueBased (sel : Selector V S) (rows : List (Row V S)) : Option (Selector V S) :=
  let curValue := sel.comp.arrayBest (rows.map (·.value))
  let action : ActionNeeded := match sel.value, curValue with
    | some value, some cur =>
      if sel.comp.isUpdate value cur then .updateValueAndTime
      else if cur = value then .updateTimeOnly
      else .nothing
    | none, some _ => .updateValueAndTime
    | _, none => .nothing
  let sel := if action.updateValue then { sel with value := curValue, time := none } else sel
  if action.updateTime then sel.refreshTime rows else some sel

/-- `update_batch`. -/
def updateBatch (sel : Selector V S) (rows : List (Row V S)) : Option (Selector V S) :=
  match sel.target with
  | .time => sel.updateTimeBased rows
  | .value => sel.updateValueBased rows

/-- `state`: the value, the time and the other fields, one row. -/
def state (sel : Selector V S) : Row V S := ⟨sel.value, sel.time, sel.other⟩

/-- `merge_batch`: the same as `update_batch`, on the states of partial accumulators. -/
def mergeBatch (sel : Selector V S) (states : List (Row V S)) : Option (Selector V S) :=
  sel.updateBatch states

/-- `evaluate`: the struct of the value, the time and the other fields. -/
def evaluate (sel : Selector V S) : Row V S := ⟨sel.value, sel.time, sel.other⟩

/-- A partial accumulator: a selector fed its batches through `update_batch`. -/
def runPartial (sel : Selector V S) (batches : List (List (Row V S))) : Option (Selector V S) :=
  batches.foldlM updateBatch sel

/-- A final accumulator: a selector fed, through `merge_batch`, the states of a list of partial
accumulators at each call. -/
def runFinal (sel : Selector V S) (calls : List (List (Selector V S))) : Option (Selector V S) :=
  calls.foldlM (fun acc parts => acc.mergeBatch (parts.map state)) sel

end Selector

/-! ### The rows a selector can keep -/

/-- A row with a value and a time. -/
structure Present (V S : Type) where
  value : V
  time : ℤ
  other : List S

section Present

variable {V S : Type}

/-- The row as `evaluate` returns it. -/
def Present.toRow (p : Present V S) : Row V S := ⟨some p.value, some p.time, p.other⟩

/-- The row with its value and its time, if it has both. -/
def Row.present (r : Row V S) : Option (Present V S) :=
  match r.value, r.time with
  | some v, some t => some ⟨v, t, r.other⟩
  | _, _ => none

theorem Row.present_eq_some {r : Row V S} {p : Present V S} :
    r.present = some p ↔ r.value = some p.value ∧ r.time = some p.time ∧ r.other = p.other := by
  rcases r with ⟨_ | v, _ | t, o⟩ <;> rcases p with ⟨pv, pt, po⟩ <;>
    simp [Row.present]

variable [LinearOrder V]

/-- The order in which a selector ranks the rows it can keep: `Beats c t a b` when `a` replaces
a kept `b`. `selector_first` and `selector_last` compare times; `selector_min` and
`selector_max` compare values and, on equal values, prefer the smaller time. -/
def Beats : Comparison → Target → Present V S → Present V S → Prop
  | .min, .time, a, b => a.time < b.time
  | .max, .time, a, b => b.time < a.time
  | .min, .value, a, b => toLex (a.value, a.time) < toLex (b.value, b.time)
  | .max, .value, a, b =>
    toLex (OrderDual.toDual a.value, a.time) < toLex (OrderDual.toDual b.value, b.time)

instance instDecidableRelBeats (c : Comparison) (t : Target) :
    DecidableRel (Beats (V := V) (S := S) c t) := fun a b =>
  match c, t with
  | .min, .time => inferInstanceAs (Decidable (a.time < b.time))
  | .max, .time => inferInstanceAs (Decidable (b.time < a.time))
  | .min, .value => inferInstanceAs (Decidable (toLex (a.value, a.time) < toLex (b.value, b.time)))
  | .max, .value => inferInstanceAs
    (Decidable (toLex (OrderDual.toDual a.value, a.time) < toLex (OrderDual.toDual b.value, b.time)))

/-- Each `Beats` compares a key in a linear order. -/
theorem beats_iff_key : (c : Comparison) → (t : Target) →
    ∃ (β : Type) (_ : LinearOrder β) (f : Present V S → β), ∀ a b, Beats c t a b ↔ f a < f b
  | .min, .time => ⟨ℤ, inferInstance, (·.time), fun _ _ => Iff.rfl⟩
  | .max, .time =>
    ⟨ℤᵒᵈ, inferInstance, fun p => OrderDual.toDual p.time, fun _ _ => OrderDual.toDual_lt_toDual.symm⟩
  | .min, .value => ⟨V ×ₗ ℤ, inferInstance, fun p => toLex (p.value, p.time), fun _ _ => Iff.rfl⟩
  | .max, .value =>
    ⟨Vᵒᵈ ×ₗ ℤ, inferInstance, fun p => toLex (OrderDual.toDual p.value, p.time), fun _ _ => Iff.rfl⟩

instance (c : Comparison) (t : Target) : IsTrans (Present V S) (Beats c t) := by
  obtain ⟨β, _, f, h⟩ := beats_iff_key (V := V) (S := S) c t
  exact List.isTrans_of_key f h

instance (c : Comparison) (t : Target) : IsOrderConnected (Present V S) (Beats c t) := by
  obtain ⟨β, _, f, h⟩ := beats_iff_key (V := V) (S := S) c t
  exact List.isOrderConnected_of_key f h

end Present

/-! ### Lemmas on rows -/

section Rows

variable {V S : Type}

theorem nullif_time (r : Row V S) :
    nullif r.time (some r.value.isNone) = r.present.bind fun p => some p.time := by
  rcases r with ⟨_ | v, _ | t, o⟩ <;> rfl

theorem filterMap_bind_present {β : Type} (rows : List (Row V S)) (g : Present V S → Option β) :
    (rows.map fun r => r.present.bind g).filterMap id = (rows.filterMap Row.present).filterMap g := by
  rw [List.filterMap_map, List.filterMap_filterMap]
  rfl

/-- Searching the rows zipped with a column of theirs is searching the rows. -/
theorem find?_zip_map {α β : Type} (l : List α) (g : α → β) (q : β → Bool) :
    (l.zip (l.map g)).find? (fun p => q p.2) = (l.find? fun a => q (g a)).map fun a => (a, g a) := by
  induction l with
  | nil => rfl
  | cons a l ih => by_cases h : q (g a) <;> simp [h, ih]

/-- The first row whose present part `g` maps to `x` is the row of the first present part that
`g` maps to `x`. -/
theorem find?_bind_present {β : Type} [DecidableEq β] {rows : List (Row V S)}
    {g : Present V S → Option β} {x : β} {m : Present V S}
    (h : (rows.filterMap Row.present).find? (fun p => g p = some x) = some m) :
    ∃ r, rows.find? (fun r => r.present.bind g == some x) = some r ∧ r.present = some m := by
  induction rows with
  | nil => cases h
  | cons r rows ih =>
    cases hr : r.present with
    | none =>
      rw [List.filterMap_cons_none hr] at h
      obtain ⟨r', hfind, hr'⟩ := ih h
      exact ⟨r', by simp [hr, hfind], hr'⟩
    | some p =>
      rw [List.filterMap_cons_some hr, List.find?_cons] at h
      by_cases hp : g p = some x
      · simp only [hp, decide_true, Option.some.injEq] at h
        subst h
        exact ⟨r, by simp [hr, hp], hr⟩
      · simp only [hp, decide_false] at h
        obtain ⟨r', hfind, hr'⟩ := ih h
        exact ⟨r', by simp [hr, hp, hfind], hr'⟩

end Rows

namespace Selector

variable {V S : Type} {c : Comparison} {m : Present V S} {rows : List (Row V S)}
    {sel : Selector V S}

/-- The row kept, if the selector keeps one. -/
def best (sel : Selector V S) : Option (Present V S) := sel.state.present

/-- The selector keeping `b`, or unchanged for `none`. -/
def withBest (sel : Selector V S) : Option (Present V S) → Selector V S
  | none => sel
  | some p => { sel with value := some p.value, time := some p.time, other := p.other }

/-- The value and the time are NULL together. -/
def Consistent (sel : Selector V S) : Prop := sel.value.isNone = sel.time.isNone

@[simp] theorem comp_withBest (sel : Selector V S) (b : Option (Present V S)) :
    (sel.withBest b).comp = sel.comp := by
  cases b <;> rfl

@[simp] theorem target_withBest (sel : Selector V S) (b : Option (Present V S)) :
    (sel.withBest b).target = sel.target := by
  cases b <;> rfl

theorem withBest_best (h : sel.Consistent) : sel.withBest sel.best = sel := by
  rcases sel with ⟨c, t, _ | v, _ | tm, o⟩ <;> simp_all [Consistent, best, state, Row.present, withBest]

theorem best_eq_none (h : sel.Consistent) (hb : sel.best = none) :
    sel.value = none ∧ sel.time = none := by
  rcases sel with ⟨c, t, _ | v, _ | tm, o⟩ <;> simp_all [Consistent, best, state, Row.present]

theorem best_eq_some {b : Present V S} (hb : sel.best = some b) :
    sel.value = some b.value ∧ sel.time = some b.time ∧ sel.other = b.other :=
  Row.present_eq_some.1 hb

theorem best_withBest {b : Option (Present V S)}
    (h : b = none → sel.best = none) : (sel.withBest b).best = b := by
  cases b with
  | none => exact h rfl
  | some p => rfl

theorem consistent_withBest (h : sel.Consistent) (b : Option (Present V S)) :
    (sel.withBest b).Consistent := by
  cases b with
  | none => exact h
  | some p => rfl

theorem withBest_withBest (sel : Selector V S) {b b' : Option (Present V S)}
    (h : b' = none → b = none) : (sel.withBest b).withBest b' = sel.withBest b' := by
  cases b' with
  | none => rw [h rfl]; rfl
  | some p => cases b <;> rfl

variable [LinearOrder V]

/-! ### One batch, by time -/

/-- The time the time-based update finds is the time of the first best row. -/
theorem arrayBest_time
    (h : (rows.filterMap Row.present).foldl (List.argAux (Beats c .time)) none = some m) :
    c.arrayBest (rows.map fun r => r.present.bind fun p => some p.time) = some m.time := by
  obtain ⟨pre, post, hl, hpre, hpost⟩ := List.foldl_argAux_eq_some _ h
  have hmem : ∀ y ∈ (rows.filterMap Row.present).filterMap (fun p => some p.time),
      ∃ x ∈ pre ++ m :: post, x.time = y := by
    intro y hy
    obtain ⟨x, hx, hxy⟩ := List.mem_filterMap.1 hy
    exact ⟨x, hl ▸ hx, Option.some.inj hxy⟩
  have hm : m.time ∈ (rows.filterMap Row.present).filterMap (fun p => some p.time) :=
    List.mem_filterMap.2 ⟨m, by rw [hl]; simp, rfl⟩
  cases c with
  | min =>
    simp only [Comparison.arrayBest, arrayMin, filterMap_bind_present, List.min?_eq_some_iff]
    refine ⟨hm, fun y hy => ?_⟩
    obtain ⟨x, hx, rfl⟩ := hmem y hy
    rcases List.mem_append.1 hx with hx | hx
    · exact (hpre x hx).le
    · rcases List.mem_cons.1 hx with rfl | hx
      · exact le_rfl
      · exact not_lt.1 (hpost x hx)
  | max =>
    simp only [Comparison.arrayBest, arrayMax, filterMap_bind_present, List.max?_eq_some_iff]
    refine ⟨hm, fun y hy => ?_⟩
    obtain ⟨x, hx, rfl⟩ := hmem y hy
    rcases List.mem_append.1 hx with hx | hx
    · exact (hpre x hx).le
    · rcases List.mem_cons.1 hx with rfl | hx
      · exact le_rfl
      · exact not_lt.1 (hpost x hx)

/-- The first best row is the first row with its time. -/
theorem find?_time {l : List (Present V S)}
    (h : l.foldl (List.argAux (Beats c .time)) none = some m) :
    l.find? (fun p => p.time = m.time) = some m := by
  obtain ⟨pre, post, rfl, hpre, -⟩ := List.foldl_argAux_eq_some _ h
  have hnone : pre.find? (fun p => p.time = m.time) = none := by
    rw [List.find?_eq_none]
    intro x hx hxm
    have hb := hpre x hx
    cases c <;> simp only [Beats] at hb <;> simp at hxm <;> omega
  simp [List.find?_append, hnone]

/-- One batch of the time-based update keeps the better of the row kept and the first best row of
the batch. -/
theorem updateTimeBased_eq (sel : Selector V S) (rows : List (Row V S)) (hsel : sel.Consistent) :
    sel.updateTimeBased rows =
      some (sel.withBest ((rows.filterMap Row.present).foldl (List.argAux (Beats sel.comp .time))
        sel.best)) := by
  have htimes : (rows.map fun r => nullif r.time (some r.value.isNone)) =
      rows.map fun r => r.present.bind fun p => some p.time :=
    List.map_congr_left fun r _ => nullif_time r
  rw [List.foldl_argAux_eq_elim]
  cases hm : (rows.filterMap Row.present).foldl (List.argAux (Beats sel.comp .time)) none with
  | none =>
    -- no row has a value and a time: nothing changes
    have hnil := ((List.foldl_argAux_eq_none _).1 hm).1
    have hcur : sel.comp.arrayBest (rows.map fun r => r.present.bind fun p => some p.time) = none := by
      cases sel.comp <;>
        simp only [Comparison.arrayBest, arrayMin, arrayMax, filterMap_bind_present, hnil,
          List.filterMap_nil, List.min?_nil, List.max?_nil]
    simp only [updateTimeBased, htimes, hcur, Option.elim, withBest_best hsel]
    cases sel.time <;> rfl
  | some m =>
    have hcur := arrayBest_time hm
    obtain ⟨r, hr, hrm⟩ := find?_bind_present (g := fun p => some p.time) (x := m.time)
      (by simpa using find?_time hm)
    obtain ⟨hrv, -, hro⟩ := Row.present_eq_some.1 hrm
    have hfind : ((rows.zip (rows.map fun r => r.present.bind fun p => some p.time)).find?
        fun p => p.2 == some m.time) = some (r, some m.time) := by
      rw [find?_zip_map rows (fun r => r.present.bind fun p => some p.time) (· == some m.time), hr]
      simp [hrm]
    simp only [updateTimeBased, htimes, hcur, hfind, Option.elim]
    cases hb : sel.best with
    | none =>
      -- nothing kept: the batch's row is kept
      obtain ⟨-, ht⟩ := best_eq_none hsel hb
      simp [ht, hrv, hro, List.argAux, withBest]
    | some b =>
      -- a row kept: replaced when the batch's row beats it
      obtain ⟨-, ht, -⟩ := best_eq_some hb
      have hupd : sel.comp.isUpdate b.time m.time = decide (Beats sel.comp .time m b) := by
        cases sel.comp <;> rfl
      by_cases hbeat : Beats sel.comp .time m b
      · simp [ht, hupd, hbeat, hrv, hro, List.argAux, withBest]
      · simp only [ht, hupd, hbeat, decide_false, List.argAux, if_false, Bool.false_eq_true]
        rw [← hb, withBest_best hsel]

/-! ### One batch, by value -/

theorem beats_value_iff {a b : Present V S} :
    Beats c .value a b ↔ c.isUpdate b.value a.value = true ∨ a.value = b.value ∧ a.time < b.time := by
  cases c with
  | min | max => exact Prod.Lex.toLex_lt_toLex.trans (by simp [Comparison.isUpdate])

/-- The value a batch's best row holds is at least as good as that of every row. -/
theorem isUpdate_value_of_best {pre post : List (Present V S)}
    (hpre : ∀ x ∈ pre, Beats c .value m x) (hpost : ∀ x ∈ post, ¬ Beats c .value x m) :
    ∀ x ∈ pre ++ m :: post, c.isUpdate m.value x.value = false := by
  intro x hx
  rcases List.mem_append.1 hx with hx | hx
  · rcases beats_value_iff.1 (hpre x hx) with h | ⟨h, -⟩
    · cases c <;> simp_all [Comparison.isUpdate, lt_asymm]
    · cases c <;> simp [Comparison.isUpdate, h]
  · rcases List.mem_cons.1 hx with rfl | hx
    · cases c <;> simp [Comparison.isUpdate]
    · exact Bool.eq_false_iff.2 fun h => hpost x hx (beats_value_iff.2 (.inl h))

theorem masked_time (r : Row V S) (v : V) :
    nullif (nullif r.time (neq (some v) r.value)) (some r.value.isNone) =
      r.present.bind fun p => if p.value = v then some p.time else none := by
  rcases r with ⟨_ | w, _ | t, o⟩
  · rfl
  · rfl
  · by_cases h : w = v
    · simp [nullif, neq, Row.present, h]
    · simp [nullif, neq, Row.present, Ne.symm h]
  · by_cases h : w = v
    · simp [nullif, neq, Row.present, h]
    · simp [nullif, neq, Row.present, h, Ne.symm h]

omit [LinearOrder V] in
/-- When every row with a value has a time, the rows with a value are the present rows. -/
theorem filterMap_value (htime : ∀ r ∈ rows, r.value.isSome → r.time.isSome) :
    (rows.map (·.value)).filterMap id = (rows.filterMap Row.present).map (·.value) := by
  induction rows with
  | nil => rfl
  | cons r rows ih =>
    have ih' := ih fun r' hr' => htime r' (List.mem_cons_of_mem _ hr')
    rcases r with ⟨_ | v, tm, o⟩
    · rw [List.map_cons, List.filterMap_cons_none rfl, List.filterMap_cons_none rfl]
      exact ih'
    · obtain ⟨t, ht⟩ := Option.isSome_iff_exists.1 (htime _ List.mem_cons_self rfl)
      simp only at ht
      subst ht
      rw [List.map_cons, List.filterMap_cons_some (f := id) rfl, ih']
      rfl

/-- The value the value-based update finds is the value of the first best row. -/
theorem arrayBest_value (htime : ∀ r ∈ rows, r.value.isSome → r.time.isSome)
    (h : (rows.filterMap Row.present).foldl (List.argAux (Beats c .value)) none = some m) :
    c.arrayBest (rows.map (·.value)) = some m.value := by
  obtain ⟨pre, post, hl, hpre, hpost⟩ := List.foldl_argAux_eq_some _ h
  have hall := isUpdate_value_of_best hpre hpost
  rw [← hl] at hall
  have hmem : m.value ∈ (rows.filterMap Row.present).map (·.value) := by
    rw [hl]
    simp
  cases c with
  | min =>
    simp only [Comparison.arrayBest, arrayMin, filterMap_value htime, List.min?_eq_some_iff]
    refine ⟨hmem, fun y hy => ?_⟩
    obtain ⟨x, hx, rfl⟩ := List.mem_map.1 hy
    simpa [Comparison.isUpdate] using hall x hx
  | max =>
    simp only [Comparison.arrayBest, arrayMax, filterMap_value htime, List.max?_eq_some_iff]
    refine ⟨hmem, fun y hy => ?_⟩
    obtain ⟨x, hx, rfl⟩ := List.mem_map.1 hy
    simpa [Comparison.isUpdate] using hall x hx

/-- Among the rows holding the value of the first best row, its time is the least. -/
theorem arrayMin_masked
    (h : (rows.filterMap Row.present).foldl (List.argAux (Beats c .value)) none = some m) :
    arrayMin (rows.map fun r => r.present.bind fun p => if p.value = m.value then some p.time else none) =
      some m.time := by
  obtain ⟨pre, post, hl, hpre, hpost⟩ := List.foldl_argAux_eq_some _ h
  simp only [arrayMin, filterMap_bind_present, hl, List.min?_eq_some_iff]
  refine ⟨by simp, fun y hy => ?_⟩
  simp only [List.mem_filterMap, List.mem_append, List.mem_cons] at hy
  obtain ⟨x, hx, hxy⟩ := hy
  split_ifs at hxy with hv
  cases hxy
  rcases hx with hx | rfl | hx
  · rcases beats_value_iff.1 (hpre x hx) with h | ⟨-, h⟩
    · cases c <;> simp_all [Comparison.isUpdate]
    · exact h.le
  · exact le_rfl
  · exact not_lt.1 fun hlt => hpost x hx (beats_value_iff.2 (.inr ⟨hv, hlt⟩))

/-- The first best row is the first with its value and its time. -/
theorem find?_masked {l : List (Present V S)}
    (h : l.foldl (List.argAux (Beats c .value)) none = some m) :
    l.find? (fun p => (if p.value = m.value then some p.time else none) = some m.time) = some m := by
  obtain ⟨pre, post, rfl, hpre, -⟩ := List.foldl_argAux_eq_some _ h
  have hnone : pre.find? (fun p => (if p.value = m.value then some p.time else none) = some m.time) =
      none := by
    rw [List.find?_eq_none]
    intro x hx hxm
    rcases beats_value_iff.1 (hpre x hx) with h | ⟨hv, ht⟩
    · split_ifs at hxm with hv
      · cases c <;> simp_all [Comparison.isUpdate]
      · simp at hxm
    · simp [hv.symm] at hxm
      omega
  rw [List.find?_append, hnone, Option.none_or]
  simp

/-- The time refresh when the value kept is that of `m`, the first best row of the batch: `m`'s
time replaces a larger time kept, and then `m`'s other fields are taken. -/
theorem refreshTime_eq (sel : Selector V S)
   
    (h : (rows.filterMap Row.present).foldl (List.argAux (Beats c .value)) none = some m)
    (hv : sel.value = some m.value) (hother : sel.other = [] → m.other = []) :
    sel.refreshTime rows = some (match sel.time with
      | some y => if m.time < y then { sel with time := some m.time, other := m.other } else sel
      | none => { sel with time := some m.time, other := m.other }) := by
  let g : Present V S → Option ℤ := fun p => if p.value = m.value then some p.time else none
  have hmasked : (rows.map fun r => nullif (nullif r.time (neq sel.value r.value))
      (some r.value.isNone)) = rows.map fun r => r.present.bind g := by
    rw [hv]
    exact List.map_congr_left fun r _ => masked_time r m.value
  obtain ⟨r, hr, hrm⟩ := find?_bind_present (g := g) (x := m.time) (find?_masked h)
  have hfind : ((rows.zip (rows.map fun r => r.present.bind g)).find?
      fun p => p.2 == some m.time) = some (r, some m.time) := by
    rw [find?_zip_map rows (fun r => r.present.bind g) (· == some m.time), hr]
    simp [hrm, g]
  have hro := (Row.present_eq_some.1 hrm).2.2
  -- the found time replaces the one kept; the other fields follow unless there are none
  have hfound : (if (true && !sel.other.isEmpty) = true then
      match (rows.zip (rows.map fun r => r.present.bind g)).find? (fun p => p.2 == some m.time) with
      | some (r, _) => some { sel with time := some m.time, other := r.other }
      | none => none
      else some { sel with time := some m.time }) =
      some { sel with time := some m.time, other := m.other } := by
    by_cases he : sel.other = []
    · simp [he, hother he]
    · simp [he, hfind, hro]
  have hmin : arrayMin (rows.map fun r => r.present.bind g) = some m.time := arrayMin_masked h
  simp only [refreshTime, hmasked, hmin]
  cases ht : sel.time with
  | none => simpa using hfound
  | some y =>
    by_cases hlt : m.time < y
    · simpa [hlt] using hfound
    · simp [hlt, ← ht]

/-- One batch of the value-based update keeps the better of the row kept and the first best row of
the batch, when every row with a value has a time and every row the selector's other fields. -/
theorem updateValueBased_eq (sel : Selector V S) (rows : List (Row V S)) (hsel : sel.Consistent)
    (htime : ∀ r ∈ rows, r.value.isSome → r.time.isSome)
    (hother : ∀ r ∈ rows, r.other.length = sel.other.length) :
    sel.updateValueBased rows =
      some (sel.withBest ((rows.filterMap Row.present).foldl (List.argAux (Beats sel.comp .value))
        sel.best)) := by
  rw [List.foldl_argAux_eq_elim]
  cases hm : (rows.filterMap Row.present).foldl (List.argAux (Beats sel.comp .value)) none with
  | none =>
    -- no row has a value: nothing changes
    have hnil := ((List.foldl_argAux_eq_none _).1 hm).1
    have hcur : sel.comp.arrayBest (rows.map (·.value)) = none := by
      cases sel.comp <;>
        simp only [Comparison.arrayBest, arrayMin, arrayMax, filterMap_value htime, hnil,
          List.map_nil, List.min?_nil, List.max?_nil]
    simp only [updateValueBased, hcur, Option.elim, withBest_best hsel]
    cases sel.value <;> rfl
  | some m =>
    have hcur := arrayBest_value htime hm
    -- `m` is a row of the batch, so it has the selector's number of other fields
    have hmo : sel.other = [] → m.other = [] := by
      intro he
      obtain ⟨pre, post, hl, -, -⟩ := List.foldl_argAux_eq_some _ hm
      obtain ⟨r, hr, hrm⟩ := List.mem_filterMap.1 (show m ∈ rows.filterMap Row.present by
        rw [hl]; simp)
      have hlen := hother r hr
      rw [(Row.present_eq_some.1 hrm).2.2, he] at hlen
      exact List.eq_nil_of_length_eq_zero hlen
    simp only [updateValueBased, hcur, Option.elim]
    cases hb : sel.best with
    | none =>
      -- nothing kept: the batch's value and its first best row are taken
      obtain ⟨hv, -⟩ := best_eq_none hsel hb
      simp only [hv, ActionNeeded.updateValue, ActionNeeded.updateTime, if_true]
      rw [refreshTime_eq { sel with value := some m.value, time := none } hm rfl hmo]
      simp [List.argAux, withBest]
    | some b =>
      obtain ⟨hv, ht, -⟩ := best_eq_some hb
      by_cases hup : sel.comp.isUpdate b.value m.value = true
      · -- a better value replaces the row kept
        have hbeat : Beats sel.comp .value m b := beats_value_iff.2 (.inl hup)
        simp only [hv, hup, if_true, ActionNeeded.updateValue, ActionNeeded.updateTime]
        rw [refreshTime_eq { sel with value := some m.value, time := none } hm rfl hmo]
        simp [List.argAux, hbeat, withBest]
      · by_cases heq : m.value = b.value
        · -- the same value: a smaller time replaces the row kept
          have hup' : ¬ sel.comp.isUpdate b.value b.value = true := heq ▸ hup
          simp only [hv, hup', heq, if_false, if_true, Bool.false_eq_true, ActionNeeded.updateValue,
            ActionNeeded.updateTime]
          rw [refreshTime_eq sel hm (hv.trans (congrArg some heq.symm)) hmo, ht]
          by_cases hlt : m.time < b.time
          · have hbeat : Beats sel.comp .value m b := beats_value_iff.2 (.inr ⟨heq, hlt⟩)
            simp [hlt, hbeat, List.argAux, withBest, hv, heq]
          · have hbeat : ¬ Beats sel.comp .value m b := fun hb' =>
              (beats_value_iff.1 hb').elim hup fun h => hlt h.2
            simp only [hlt, if_false, hbeat, List.argAux]
            rw [← hb, withBest_best hsel]
        · -- a worse value: nothing changes
          have hbeat : ¬ Beats sel.comp .value m b := fun hb' =>
            (beats_value_iff.1 hb').elim hup fun h => heq h.1
          simp only [hv, hup, heq, if_false, Bool.false_eq_true, ActionNeeded.updateValue,
            ActionNeeded.updateTime, hbeat, List.argAux]
          rw [← hb, withBest_best hsel]

/-! ### Whole runs -/

/-- One batch keeps the better of the row kept and the first best row of the batch, whatever the
target. -/
theorem updateBatch_eq (sel : Selector V S) (rows : List (Row V S)) (hsel : sel.Consistent)
    (hrows : ∀ r ∈ rows, (r.value.isSome → r.time.isSome) ∧ r.other.length = sel.other.length) :
    sel.updateBatch rows =
      some (sel.withBest ((rows.filterMap Row.present).foldl
        (List.argAux (Beats sel.comp sel.target)) sel.best)) := by
  cases ht : sel.target with
  | time =>
    simp only [updateBatch, ht]
    exact updateTimeBased_eq sel rows hsel
  | value =>
    simp only [updateBatch, ht]
    exact updateValueBased_eq sel rows hsel (fun r hr => (hrows r hr).1) (fun r hr => (hrows r hr).2)

/-- The row kept after a fold has the selector's number of other fields, when every candidate has. -/
theorem other_length_withBest {t : Target}
    {l : List (Present V S)} (hl : ∀ p ∈ l, p.other.length = sel.other.length) :
    (sel.withBest (l.foldl (List.argAux (Beats c t)) sel.best)).other.length =
      sel.other.length := by
  cases hm : l.foldl (List.argAux (Beats c t)) sel.best with
  | none => rfl
  | some m =>
    show m.other.length = _
    rcases List.mem_of_foldl_argAux_eq_some _ hm with hb | hm'
    · rw [(best_eq_some hb).2.2]
    · exact hl m hm'

omit [LinearOrder V] in
/-- The present rows of a batch have the other fields of their rows. -/
theorem other_length_present {n : ℕ}
    (hrows : ∀ r ∈ rows, r.other.length = n) : ∀ p ∈ rows.filterMap Row.present, p.other.length = n := by
  intro p hp
  obtain ⟨r, hr, hrp⟩ := List.mem_filterMap.1 hp
  rw [← (Row.present_eq_some.1 hrp).2.2]
  exact hrows r hr

/-- Over any batching, `update_batch` keeps the first best row of all rows, in order: the run
lemma, by induction on the batches from the step lemma `updateBatch_eq`. -/
theorem foldlM_updateBatch (batches : List (List (Row V S))) (sel : Selector V S)
    (hsel : sel.Consistent)
    (hrows : ∀ b ∈ batches, ∀ r ∈ b,
      (r.value.isSome → r.time.isSome) ∧ r.other.length = sel.other.length) :
    batches.foldlM updateBatch sel =
      some (sel.withBest ((batches.flatten.filterMap Row.present).foldl
        (List.argAux (Beats sel.comp sel.target)) sel.best)) := by
  induction batches generalizing sel with
  | nil => simp [withBest_best hsel]
  | cons b bs ih =>
    -- the first batch leaves `sel.withBest B`, from which the others fold on
    have hb := hrows b List.mem_cons_self
    have hlen := other_length_withBest (c := sel.comp) (t := sel.target)
      (other_length_present fun r hr => (hb r hr).2)
    have hrest := ih _ (consistent_withBest hsel _) fun b' hb' r hr => by
      rw [hlen]
      exact hrows b' (List.mem_cons_of_mem _ hb') r hr
    rw [List.foldlM_cons, updateBatch_eq sel b hsel hb]
    refine hrest.trans ?_
    rw [comp_withBest, target_withBest,
      best_withBest fun h => ((List.foldl_argAux_eq_none _).1 h).2,
      withBest_withBest sel fun h => ((List.foldl_argAux_eq_none _).1 h).2,
      List.flatten_cons, List.filterMap_append, List.foldl_append]

omit [LinearOrder V] in
/-- A consistent partial accumulator's state row has a time when it has a value. -/
theorem state_time {p : Selector V S} (h : p.Consistent) :
    p.state.value.isSome → p.state.time.isSome := by
  simp only [state, Consistent] at h ⊢
  cases hv : p.value <;> cases ht : p.time <;> simp_all

/-- The final accumulator keeps the first best of the rows the partial accumulators kept, in the
order their states are merged. -/
theorem runFinal_eq (sel : Selector V S) (calls : List (List (Selector V S)))
    (hsel : sel.Consistent)
    (hparts : ∀ ps ∈ calls, ∀ p ∈ ps, p.Consistent ∧ p.other.length = sel.other.length) :
    sel.runFinal calls =
      some (sel.withBest ((calls.flatten.filterMap best).foldl
        (List.argAux (Beats sel.comp sel.target)) sel.best)) := by
  have hfit : ∀ b ∈ calls.map (List.map state), ∀ r ∈ b,
      (r.value.isSome → r.time.isSome) ∧ r.other.length = sel.other.length := by
    intro b hb r hr
    obtain ⟨ps, hps, rfl⟩ := List.mem_map.1 hb
    obtain ⟨p, hp, rfl⟩ := List.mem_map.1 hr
    obtain ⟨hc, hlen⟩ := hparts ps hps p hp
    exact ⟨state_time hc, hlen⟩
  -- `merge_batch` is `update_batch` on the states, and a state's present row is the row kept
  have hrun := foldlM_updateBatch _ sel hsel hfit
  rw [List.foldlM_map, ← List.map_flatten, List.filterMap_map] at hrun
  exact hrun

/-- A partial accumulator from `Selector::new` keeps the first best row of its batches. -/
theorem runPartial_new (c : Comparison) (t : Target) (others : List S)
    (batches : List (List (Row V S)))
    (hrows : ∀ b ∈ batches, ∀ r ∈ b,
      (r.value.isSome → r.time.isSome) ∧ r.other.length = others.length) :
    (new c t others : Selector V S).runPartial batches =
      some ((new c t others).withBest ((batches.flatten.filterMap Row.present).foldl
        (List.argAux (Beats c t)) none)) :=
  foldlM_updateBatch batches _ rfl hrows

/-- What `evaluate` returns for a fresh selector that keeps the first best of `l`: NULLs for an
empty `l`, and otherwise the element before which every element is worse and after which none is
better. -/
theorem evaluate_new_withBest (c : Comparison) (t : Target) (others : List S)
    (l : List (Present V S)) :
    (l = [] ∧ ((new c t others).withBest (l.foldl (List.argAux (Beats c t)) none)).evaluate =
        ⟨none, none, others⟩) ∨
      ∃ pre m post, l = pre ++ m :: post ∧ (∀ x ∈ pre, Beats c t m x) ∧
        (∀ x ∈ post, ¬ Beats c t x m) ∧
        ((new c t others).withBest (l.foldl (List.argAux (Beats c t)) none)).evaluate = m.toRow := by
  cases hm : l.foldl (List.argAux (Beats c t)) none with
  | none => exact .inl ⟨((List.foldl_argAux_eq_none _).1 hm).1, rfl⟩
  | some m =>
    obtain ⟨pre, post, hl, hpre, hpost⟩ := List.foldl_argAux_eq_some _ hm
    exact .inr ⟨pre, m, post, hl, hpre, hpost, rfl⟩

end Selector

/-- `mapM` of a function that succeeds everywhere. -/
theorem List.mapM_option_eq_some {α β : Type} {f : α → Option β} {g : α → β} {l : List α}
    (h : ∀ x ∈ l, f x = some (g x)) : l.mapM f = some (l.map g) := by
  induction l with
  | nil => rfl
  | cons x l ih =>
    rw [List.mapM_cons, h x List.mem_cons_self, ih fun y hy => h y (List.mem_cons_of_mem _ hy)]
    rfl

namespace Selector

variable {V S : Type} [LinearOrder V]

/-- A plan of aggregation: the final accumulator gets, at each call of `merge_batch`, the states of
a list of partial accumulators, each a `Selector::new` fed its batches through `update_batch`.
Whatever the plan, the final accumulator returns the first best row of all rows in the order they
reach it (each partial accumulator's rows in order, the partial accumulators in merge order), and
NULLs when no row has a value. -/
theorem selector_first_best (c : Comparison) (t : Target) (others : List S)
    (plan : List (List (List (List (Row V S)))))
    (hrows : ∀ call ∈ plan, ∀ part ∈ call, ∀ batch ∈ part, ∀ r ∈ batch,
      r.time.isSome ∧ r.other.length = others.length) :
    ∃ final, ((plan.mapM fun call => call.mapM (new c t others : Selector V S).runPartial) >>=
        (new c t others).runFinal) = some final ∧
      ((plan.flatten.flatten.flatten.filterMap Row.present = [] ∧
          final.evaluate = ⟨none, none, others⟩) ∨
        ∃ pre m post, plan.flatten.flatten.flatten.filterMap Row.present = pre ++ m :: post ∧
          (∀ x ∈ pre, Beats c t m x) ∧ (∀ x ∈ post, ¬ Beats c t x m) ∧
          final.evaluate = m.toRow) := by
  -- each partial accumulator keeps the first best row of its batches
  have hpartials : (plan.mapM fun call => call.mapM (new c t others : Selector V S).runPartial) =
      some (plan.map (List.map fun part => (new c t others).withBest
        ((part.flatten.filterMap Row.present).foldl (List.argAux (Beats c t)) none))) :=
    List.mapM_option_eq_some fun call hcall => List.mapM_option_eq_some fun part hpart =>
      runPartial_new c t others part fun b hb r hr =>
        ⟨fun _ => (hrows call hcall part hpart b hb r hr).1, (hrows call hcall part hpart b hb r hr).2⟩
  have hnew : (new c t others : Selector V S).Consistent := rfl
  have hfinal := runFinal_eq (new c t others) (plan.map (List.map fun part =>
      (new c t others).withBest
        ((part.flatten.filterMap Row.present).foldl (List.argAux (Beats c t)) none))) hnew (by
    intro ps hps p hp
    obtain ⟨call, hcall, rfl⟩ := List.mem_map.1 hps
    obtain ⟨part, hpart, rfl⟩ := List.mem_map.1 hp
    refine ⟨consistent_withBest hnew _, other_length_withBest (other_length_present fun r hr => ?_)⟩
    obtain ⟨b, hb, hr⟩ := List.mem_flatten.1 hr
    exact (hrows call hcall part hpart b hb r hr).2)
  -- the rows the partial accumulators kept, merged in order, are the first best of all rows
  have hbests : ((plan.map (List.map fun part => (new c t others : Selector V S).withBest
        ((part.flatten.filterMap Row.present).foldl (List.argAux (Beats c t)) none))).flatten.filterMap
        best).foldl (List.argAux (Beats c t)) none =
      (plan.flatten.flatten.flatten.filterMap Row.present).foldl (List.argAux (Beats c t)) none := by
    have hkept : (plan.map (List.map fun part => (new c t others : Selector V S).withBest
          ((part.flatten.filterMap Row.present).foldl (List.argAux (Beats c t)) none))).flatten.filterMap
          best =
        plan.flatten.filterMap fun part =>
          (part.flatten.filterMap Row.present).foldl (List.argAux (Beats c t)) none := by
      rw [← List.map_flatten, List.filterMap_map]
      congr 1
      funext part
      exact best_withBest fun _ => rfl
    have hall : plan.flatten.flatten.flatten.filterMap Row.present =
        (plan.flatten.map fun part => part.flatten.filterMap Row.present).flatten := by
      rw [List.flatten_flatten (L := plan.flatten), List.filterMap_flatten, List.map_map]
      rfl
    rw [hkept, hall, ← List.foldl_argAux_flatten, List.filterMap_map]
    rfl
  rw [hpartials]
  refine ⟨_, hfinal, ?_⟩
  rw [show (new c t others : Selector V S).best = none from rfl]
  exact hbests ▸ evaluate_new_withBest c t others _

/-- `selector_min` over one row, merged with an empty partial accumulator, returns that row. -/
theorem selector_first_best_one_row :
    (([[[[⟨some 7, some 5, []⟩]], []]] : List (List (List (List (Row ℤ ℤ))))).mapM
        (fun call => call.mapM (new .min .value [] : Selector ℤ ℤ).runPartial) >>=
        (new .min .value []).runFinal).map evaluate = some ⟨some 7, some 5, []⟩ := by
  obtain ⟨final, hfinal, hspec⟩ := selector_first_best .min .value ([] : List ℤ)
    ([[[[⟨some 7, some 5, []⟩]], []]] : List (List (List (List (Row ℤ ℤ))))) (by decide)
  rw [hfinal]
  rcases hspec with ⟨hnil, -⟩ | ⟨pre, m, post, hl, -, -, hm⟩
  · simp [Row.present] at hnil
  · simp [Row.present] at hl
    -- the plan has one row, so it is the row returned
    rcases pre with _ | ⟨a, pre⟩
    · injection hl with hx _
      rw [Option.map_some, hm, ← hx]
      rfl
    · injection hl with _ hl'
      simp at hl'

/-- Two rows of the same least time, the first with value 1 and the second with value 2, handled by
two partial accumulators whose states are merged second row first: `selector_first` returns the
second row, while the first best row of the input, in its order, is the first. -/
theorem selector_tie_follows_merge_order :
    (([[[[⟨some 2, some 5, []⟩]], [[⟨some 1, some 5, []⟩]]]] :
        List (List (List (List (Row ℤ ℤ))))).mapM
        (fun call => call.mapM (new .min .time [] : Selector ℤ ℤ).runPartial) >>=
        (new .min .time []).runFinal).map evaluate = some ⟨some 2, some 5, []⟩ ∧
      (([⟨some 1, some 5, []⟩, ⟨some 2, some 5, []⟩] : List (Row ℤ ℤ)).filterMap Row.present).foldl
        (List.argAux (Beats .min .time)) none = some ⟨1, 5, []⟩ :=
  ⟨rfl, rfl⟩

end Selector

end IoxCore.QueryFunctions

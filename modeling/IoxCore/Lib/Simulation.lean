import Mathlib.Logic.Basic

/-!
# Lock-step simulation

An implementation whose steps can fail (`none`: an assertion that does not hold) against a
total specification over the same inputs. When a relation between their states is kept by
every step, each step of the implementation from related states succeeding with the
specification's output, every run of the implementation succeeds with the specification's
outputs and ends related to it (`runPartial_of_step`). The invariant rule
(`runPartial_of_invariant`) is the same argument for one machine and a predicate on its states,
and `foldlM_of_invariant` and `mapM_of_forall` are its forms for a fold and a traversal whose
calls can fail; `run_of_invariant` is its form for a total machine.
-/

namespace Simulation

variable {σ τ α ρ : Type}

/-- The outputs of a run of a machine whose steps can fail, and its last state; `none` when a
step fails. -/
def runPartial (step : σ → α → Option (ρ × σ)) : σ → List α → Option (List ρ × σ)
  | s, [] => some ([], s)
  | s, a :: as => do
    let (r, s) ← step s a
    let (rs, s) ← runPartial step s as
    return (r :: rs, s)

/-- The outputs of a run of a total machine, and its last state. -/
def run (step : τ → α → ρ × τ) : τ → List α → List ρ × τ
  | t, [] => ([], t)
  | t, a :: as =>
    let (rs, t') := run step (step t a).2 as
    ((step t a).1 :: rs, t')

theorem run_cons (step : τ → α → ρ × τ) (t : τ) (a : α) (as : List α) :
    run step t (a :: as) =
      ((step t a).1 :: (run step (step t a).2 as).1, (run step (step t a).2 as).2) := rfl

/-- Lock-step simulation: a relation that each step keeps, with equal outputs, is kept by whole
runs, and the implementation never fails. -/
theorem runPartial_of_step (R : σ → τ → Prop) {step : σ → α → Option (ρ × σ)}
    {spec : τ → α → ρ × τ}
    (hstep : ∀ s t a, R s t → ∃ s', step s a = some ((spec t a).1, s') ∧ R s' (spec t a).2) :
    ∀ (as : List α) (s : σ) (t : τ), R s t →
      ∃ s', runPartial step s as = some ((run spec t as).1, s') ∧ R s' (run spec t as).2
  | [], s, _, h => ⟨s, rfl, h⟩
  | a :: as, s, t, h => by
    obtain ⟨s₁, hs₁, h₁⟩ := hstep s t a h
    obtain ⟨s₂, hs₂, h₂⟩ := runPartial_of_step R hstep as s₁ (spec t a).2 h₁
    refine ⟨s₂, ?_, h₂⟩
    simp [runPartial, hs₁, hs₂, run]

/-- The invariant rule for a total machine: when each step from a state of the invariant outputs
`g` of its input and stays in the invariant, a run outputs `g` of each input and ends in it. -/
theorem run_of_invariant (Inv : τ → Prop) {step : τ → α → ρ × τ} {g : α → ρ}
    (hstep : ∀ t a, Inv t → (step t a).1 = g a ∧ Inv (step t a).2) :
    ∀ (as : List α) (t : τ), Inv t → (run step t as).1 = as.map g ∧ Inv (run step t as).2
  | [], _, h => ⟨rfl, h⟩
  | a :: as, t, h => by
    obtain ⟨hout, h₁⟩ := hstep t a h
    obtain ⟨hrest, h₂⟩ := run_of_invariant Inv hstep as (step t a).2 h₁
    exact ⟨by simp [run, hout, hrest], h₂⟩

/-- The invariant rule for runs: when every step from a state of the invariant succeeds into the
invariant, so does every run. -/
theorem runPartial_of_invariant (Inv : σ → Prop) {step : σ → α → Option (ρ × σ)}
    (hstep : ∀ s a, Inv s → ∃ r s', step s a = some (r, s') ∧ Inv s') :
    ∀ (as : List α) (s : σ), Inv s → ∃ rs s', runPartial step s as = some (rs, s') ∧ Inv s'
  | [], s, h => ⟨[], s, rfl, h⟩
  | a :: as, s, h => by
    obtain ⟨r, s₁, hs₁, h₁⟩ := hstep s a h
    obtain ⟨rs, s₂, hs₂, h₂⟩ := runPartial_of_invariant Inv hstep as s₁ h₁
    exact ⟨r :: rs, s₂, by simp [runPartial, hs₁, hs₂], h₂⟩

/-- The invariant rule for a fold whose steps can fail. -/
theorem foldlM_of_invariant (Inv : σ → Prop) {f : σ → α → Option σ} :
    ∀ (as : List α) (s : σ), (∀ s a, a ∈ as → Inv s → ∃ s', f s a = some s' ∧ Inv s') → Inv s →
      ∃ s', as.foldlM f s = some s' ∧ Inv s'
  | [], s, _, h => ⟨s, rfl, h⟩
  | a :: as, s, hstep, h => by
    obtain ⟨s₁, hs₁, h₁⟩ := hstep s a List.mem_cons_self h
    obtain ⟨s₂, hs₂, h₂⟩ :=
      foldlM_of_invariant Inv as s₁ (fun s b hb => hstep s b (List.mem_cons_of_mem a hb)) h₁
    exact ⟨s₂, by simp [List.foldlM_cons, hs₁, hs₂], h₂⟩

/-- A traversal whose calls all succeed succeeds, and its outputs have what each call's output
has. -/
theorem mapM_of_forall (P : ρ → Prop) {f : α → Option ρ} :
    ∀ as : List α, (∀ a ∈ as, ∃ r, f a = some r ∧ P r) → ∃ rs, as.mapM f = some rs ∧ ∀ r ∈ rs, P r
  | [], _ => ⟨[], rfl, by simp⟩
  | a :: as, hall => by
    obtain ⟨r, hr, hP⟩ := hall a List.mem_cons_self
    obtain ⟨rs, hrs, hPs⟩ := mapM_of_forall P as fun b hb => hall b (List.mem_cons_of_mem a hb)
    refine ⟨r :: rs, by simp [List.mapM_cons, hr, hrs], ?_⟩
    intro x hx
    rcases List.mem_cons.1 hx with rfl | hx
    · exact hP
    · exact hPs x hx

/-- A traversal whose calls all succeed returns the outputs of the calls. -/
theorem mapM_eq_some {f : α → Option ρ} :
    ∀ as : List α, (∀ a ∈ as, ∃ r, f a = some r) → ∃ rs, as.mapM f = some rs ∧ rs.map some = as.map f
  | [], _ => ⟨[], rfl, rfl⟩
  | a :: as, hall => by
    obtain ⟨r, hr⟩ := hall a List.mem_cons_self
    obtain ⟨rs, hrs, hmap⟩ := mapM_eq_some as fun b hb => hall b (List.mem_cons_of_mem a hb)
    exact ⟨r :: rs, by simp [List.mapM_cons, hr, hrs], by simp [hr, hmap]⟩

/-- The outputs of a traversal, read through `g`, are what each input gives through `k` when
every output of a call is read so. -/
theorem map_eq_of_map_some {γ : Type} {f : α → Option ρ} {g : ρ → γ} {k : α → γ} :
    ∀ {as : List α} {rs : List ρ}, rs.map some = as.map f →
      (∀ a ∈ as, ∀ r, f a = some r → g r = k a) → rs.map g = as.map k
  | [], [], _, _ => rfl
  | [], _ :: _, h, _ => by simp at h
  | _ :: _, [], h, _ => by simp at h
  | a :: as, r :: rs, h, hk => by
    simp only [List.map_cons, List.cons.injEq] at h
    rw [List.map_cons, List.map_cons, hk a List.mem_cons_self r h.1.symm,
      map_eq_of_map_some h.2 fun a' ha' => hk a' (List.mem_cons_of_mem a ha')]

end Simulation

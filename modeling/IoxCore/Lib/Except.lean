import Mathlib.Logic.Basic

/-!
# Inversion lemmas for `Except`

Fallible code is modelled in `Except`; its spec lemmas peel a chain of `do`
steps apart. The lemmas here say when a bind or an error map succeeds, so that
callers `obtain` the intermediate values and never unfold `Except.bind`.
Code that can also panic fails with a `Failure`.
-/

/-- How a Rust function fails: with an error it returns, or with a panic (an `unwrap` of
nothing, an index out of range, or an arithmetic overflow in a debug build). -/
inductive Failure
  | error (message : String)
  | panic
  deriving DecidableEq, Repr

namespace Except

variable {ε ε' α β : Type}

/-- A bind succeeds exactly when its first step does and the continuation
succeeds on that value. -/
theorem bind_eq_ok_iff {x : Except ε α} {f : α → Except ε β} {b : β} :
    (x >>= f) = .ok b ↔ ∃ a, x = .ok a ∧ f a = .ok b := by
  cases x with
  | error e => simp [bind, Except.bind]
  | ok a => simp [bind, Except.bind]

@[simp] theorem pure_eq_ok (a : α) : (pure a : Except ε α) = .ok a := rfl

@[simp] theorem ok_bind (a : α) (f : α → Except ε β) : (Except.ok a >>= f) = f a := rfl

@[simp] theorem error_bind (e : ε) (f : α → Except ε β) : (Except.error e >>= f) = .error e := rfl

@[simp] theorem mapError_ok (f : ε → ε') (a : α) : (Except.ok a : Except ε α).mapError f = .ok a := rfl

@[simp] theorem mapError_error (f : ε → ε') (e : ε) :
    (Except.error e : Except ε α).mapError f = .error (f e) := rfl

@[simp] theorem toOption_ok (a : α) : (Except.ok a : Except ε α).toOption = some a := rfl

@[simp] theorem toOption_error (e : ε) : (Except.error e : Except ε α).toOption = none := rfl

/-- `toOption` keeps exactly the successes. -/
@[simp] theorem toOption_eq_some_iff {x : Except ε α} {a : α} : x.toOption = some a ↔ x = .ok a := by
  cases x <;> simp

/-- A fold that succeeds ends in a state with every property that its steps keep on the
fold's own elements: the invariant rule for a `try_fold`. -/
theorem foldlM_invariant (Inv : β → Prop) {f : β → α → Except ε β} {as : List α}
    (hstep : ∀ a ∈ as, ∀ b b', f b a = .ok b' → Inv b → Inv b') :
    ∀ {b b' : β}, as.foldlM f b = .ok b' → Inv b → Inv b' := by
  induction as with
  | nil =>
    intro b b' h hb
    cases h
    exact hb
  | cons a as ih =>
    intro b b' h hb
    rw [List.foldlM_cons] at h
    obtain ⟨b₁, h₁, h₂⟩ := bind_eq_ok_iff.1 h
    exact ih (fun x hx => hstep x (List.mem_cons_of_mem a hx)) h₂ (hstep a List.mem_cons_self b b₁ h₁ hb)

end Except

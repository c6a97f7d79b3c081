import Mathlib.Control.Lawful
import Mathlib.Data.List.Forall2

/-!
# Stateful computations with errors and panics

`StateErr σ ε α` is a computation over a state `σ` that ends in one of three ways: a value, an
error `ε`, or a panic. A value and an error both come with the state the computation leaves, so
an error keeps what was written before it, as code that mutates a shared store in place and
returns early with `?` does; a panic (`abort`, a failed `assert!` or `expect`) has no state. It is
`ExceptT ε (StateT σ Option)`, so programs are written in `do` notation.

The `exec` lemmas evaluate each operation from a given state. `exec_bind` splits a sequence at
its first step, and is left out of the simp set so that a proof chooses where to split.
-/

/-- A computation over `σ` with errors `ε` that keep the state, and panics. -/
abbrev StateErr (σ ε α : Type) := ExceptT ε (StateT σ Option) α

namespace StateErr

variable {σ ε ε' α β : Type}

/-- The outcome of a computation from a state: `none` for a panic. -/
def exec (x : StateErr σ ε α) (s : σ) : Option (Except ε α × σ) := x.run.run s

/-- A panic. -/
def abort : StateErr σ ε α := ExceptT.lift (StateT.lift none)

@[simp] theorem exec_pure (a : α) (s : σ) : exec (pure a : StateErr σ ε α) s = some (.ok a, s) :=
  rfl

@[simp] theorem exec_get (s : σ) : exec (get : StateErr σ ε σ) s = some (.ok s, s) := rfl

@[simp] theorem exec_set (s s' : σ) : exec (set s' : StateErr σ ε PUnit) s = some (.ok ⟨⟩, s') :=
  rfl

@[simp] theorem exec_throw (e : ε) (s : σ) : exec (throw e : StateErr σ ε α) s = some (.error e, s) :=
  rfl

@[simp] theorem exec_abort (s : σ) : exec (abort : StateErr σ ε α) s = none := rfl

theorem exec_bind (x : StateErr σ ε α) (f : α → StateErr σ ε β) (s : σ) :
    exec (x >>= f) s =
      match exec x s with
      | none => none
      | some (.ok a, s') => exec (f a) s'
      | some (.error e, s') => some (.error e, s') := by
  simp only [exec, ExceptT.run_bind, StateT.run_bind]
  cases h : x.run.run s with
  | none => rfl
  | some p =>
    obtain ⟨r, s'⟩ := p
    cases r <;> rfl

@[simp] theorem exec_map (f : α → β) (x : StateErr σ ε α) (s : σ) :
    exec (f <$> x) s = (exec x s).map fun p => (p.1.map f, p.2) := by
  simp only [exec, ExceptT.run_map, StateT.run_map]
  cases exec x s <;> rfl

@[simp] theorem exec_discard (x : StateErr σ ε α) (s : σ) :
    exec (discard x) s = (exec x s).map fun p => (p.1.map fun _ => ⟨⟩, p.2) := by
  show exec ((fun _ => PUnit.unit) <$> x) s = _
  rw [exec_map]

/-- `Result::map_err` around a computation. -/
@[simp] theorem exec_adapt (f : ε → ε') (x : StateErr σ ε α) (s : σ) :
    exec (ExceptT.adapt f x : StateErr σ ε' α) s = (exec x s).map fun p => (p.1.mapError f, p.2) := by
  simp only [exec, ExceptT.run_adapt, StateT.run_map]
  cases exec x s <;> rfl

theorem exec_tryCatch (x : StateErr σ ε α) (handle : ε → StateErr σ ε α) (s : σ) :
    exec (tryCatch x handle) s =
      match exec x s with
      | none => none
      | some (.ok a, s') => some (.ok a, s')
      | some (.error e, s') => exec (handle e) s' := by
  show (ExceptT.tryCatch x handle).run.run s = _
  simp only [ExceptT.tryCatch, ExceptT.run_mk, StateT.run_bind]
  change x.run.run s >>= _ = _
  unfold exec
  cases h : x.run.run s with
  | none => rfl
  | some p =>
    obtain ⟨r, s'⟩ := p
    cases r <;> rfl

/-! ### What a run that returns keeps -/

/-- `P` holds after `x` returns a value whenever it held before: a computation that ends in an
error or a panic is not held to it. -/
def Preserves (P : σ → Prop) (x : StateErr σ ε α) : Prop :=
  ∀ s a s', P s → exec x s = some (.ok a, s') → P s'

variable {P : σ → Prop} {x : StateErr σ ε α} {f : α → StateErr σ ε β} {l : List α}

theorem Preserves.pure (a : α) : Preserves P (pure a : StateErr σ ε α) := by
  intro s b s' hs h
  simp only [exec_pure, Option.some.injEq, Prod.mk.injEq] at h
  exact h.2 ▸ hs

theorem Preserves.throw (e : ε) : Preserves P (throw e : StateErr σ ε α) := by
  intro s a s' _ h
  simp at h

theorem Preserves.bind (hx : Preserves P x)
    (hf : ∀ a, Preserves P (f a)) : Preserves P (x >>= f) := by
  intro s b s' hs h
  rw [exec_bind] at h
  split at h
  · cases h
  · rename_i a s₁ hx'
    exact hf a s₁ b s' (hx s a s₁ hs hx') h
  · cases h

/-- A loop keeps what each of its iterations keeps: induction on the list. -/
theorem Preserves.forM {f : α → StateErr σ ε PUnit}
    (h : ∀ a ∈ l, Preserves P (f a)) : Preserves P (l.forM f) := by
  induction l with
  | nil => exact .pure _
  | cons a l ih =>
    show Preserves P (f a >>= fun _ => l.forM f)
    exact (h a List.mem_cons_self).bind fun _ =>
      ih fun b hb => h b (List.mem_cons_of_mem a hb)

theorem Preserves.mapM (h : ∀ a ∈ l, Preserves P (f a)) : Preserves P (l.mapM f) := by
  induction l with
  | nil => exact .pure _
  | cons a l ih =>
    rw [List.mapM_cons]
    exact (h a List.mem_cons_self).bind fun _ =>
      (ih fun b hb => h b (List.mem_cons_of_mem a hb)).bind fun _ => .pure _

theorem Preserves.discard (h : Preserves P x) : Preserves P (discard x) := by
  intro s u s' hs hx
  rw [exec_discard] at hx
  obtain ⟨⟨r, s₁⟩, hrun, heq⟩ := Option.map_eq_some_iff.1 hx
  cases r with
  | ok a =>
    simp only [Prod.mk.injEq] at heq
    exact heq.2 ▸ h s a s₁ hs hrun
  | error e => simp [Except.map] at heq

/-- A computation that ends in an error leaves the state it started from. -/
def FailsClean (x : StateErr σ ε α) : Prop :=
  ∀ s e s', exec x s = some (.error e, s') → s' = s

theorem FailsClean.discard (h : FailsClean x) : FailsClean (discard x) := by
  intro s e s' hx
  rw [exec_discard] at hx
  obtain ⟨⟨r, s₁⟩, hrun, heq⟩ := Option.map_eq_some_iff.1 hx
  cases r with
  | ok a => simp [Except.map] at heq
  | error e' =>
    simp only [Prod.mk.injEq] at heq
    exact heq.2 ▸ h s e' s₁ hrun

/-- What a computation keeps of each element, it keeps of all of them. -/
theorem Preserves.forall_mem {β : Type} {l : List β} {Q : β → σ → Prop}
    (h : ∀ b ∈ l, Preserves (Q b) x) : Preserves (fun s => ∀ b ∈ l, Q b s) x :=
  fun s a s' hs hx b hb => h b hb s a s' (hs b hb) hx

/-! ### What a run that returns establishes -/

/-- The value `x` returns and the state it leaves satisfy `Q`, from any state. -/
def Ensures (Q : α → σ → Prop) (x : StateErr σ ε α) : Prop :=
  ∀ s a s', exec x s = some (.ok a, s') → Q a s'

/-- Two facts a computation establishes. -/
theorem Ensures.and {Q R : α → σ → Prop} (hQ : Ensures Q x)
    (hR : Ensures R x) : Ensures (fun a s => Q a s ∧ R a s) x :=
  fun s a s' hx => ⟨hQ s a s' hx, hR s a s' hx⟩

/-- What the continuation establishes, the sequence establishes. -/
theorem Ensures.bind {Q : β → σ → Prop} (hf : ∀ a, Ensures Q (f a)) : Ensures Q (x >>= f) := by
  intro s b s' h
  rw [exec_bind] at h
  split at h
  · cases h
  · exact hf _ _ b s' h
  · cases h

/-- What the first computation establishes and the continuation keeps, the sequence
establishes. -/
theorem Ensures.bind_preserves {Q : σ → Prop}
    (hx : Ensures (fun _ => Q) x) (hf : ∀ a, Preserves Q (f a)) :
    Ensures (fun _ => Q) (x >>= f) := by
  intro s b s' h
  rw [exec_bind] at h
  split at h
  · cases h
  · rename_i a s₁ hx'
    exact hf a s₁ b s' (hx s a s₁ hx') h
  · cases h

/-- A loop establishes for every element what the element's iteration establishes, when every
iteration keeps it: induction on the list. -/
theorem ensures_forM {f : α → StateErr σ ε PUnit} {Q : α → σ → Prop}
    (h : ∀ a ∈ l, Ensures (fun _ => Q a) (f a)) (hp : ∀ a ∈ l, ∀ b ∈ l, Preserves (Q b) (f a)) :
    Ensures (fun _ s => ∀ a ∈ l, Q a s) (l.forM f) := by
  induction l with
  | nil => intro s _ s' _ a ha; cases ha
  | cons a l ih =>
    show Ensures _ (f a >>= fun _ => l.forM f)
    intro s u s' hrun
    rw [exec_bind] at hrun
    split at hrun
    · cases hrun
    · rename_i s₁ hfa
      have hl := ih (fun b hb => h b (List.mem_cons_of_mem a hb))
        (fun b hb c hc => hp b (List.mem_cons_of_mem a hb) c (List.mem_cons_of_mem a hc))
      intro b hb
      rcases List.mem_cons.1 hb with rfl | hb
      · -- the head's fact, kept by the rest of the loop
        exact (Preserves.forM fun c hc => hp c (List.mem_cons_of_mem _ hc) b List.mem_cons_self)
          s₁ u s' (h b List.mem_cons_self s _ s₁ hfa) hrun
      · exact hl s₁ u s' hrun b hb
    · cases hrun

/-- `mapM` establishes for each element and its value what the element's computation
establishes, when every computation keeps it: induction on the list. -/
theorem ensures_mapM {R : α → β → σ → Prop}
    (h : ∀ a ∈ l, Ensures (R a) (f a)) (hp : ∀ a ∈ l, ∀ b ∈ l, ∀ v, Preserves (R b v) (f a)) :
    Ensures (fun vs s => List.Forall₂ (fun a v => R a v s) l vs) (l.mapM f) := by
  induction l with
  | nil =>
    intro s vs s' hrun
    simp only [List.mapM_nil, exec_pure, Option.some.injEq, Prod.mk.injEq, Except.ok.injEq] at hrun
    rw [← hrun.1]
    exact .nil
  | cons a l ih =>
    have hl := ih (fun b hb => h b (List.mem_cons_of_mem a hb))
      (fun b hb c hc => hp b (List.mem_cons_of_mem a hb) c (List.mem_cons_of_mem a hc))
    intro s vs s' hrun
    rw [List.mapM_cons, exec_bind] at hrun
    split at hrun
    · cases hrun
    · rename_i v s₁ hfa
      rw [exec_bind] at hrun
      split at hrun
      · cases hrun
      · rename_i vs' s₂ hrest
        simp only [exec_pure, Option.some.injEq, Prod.mk.injEq, Except.ok.injEq] at hrun
        obtain ⟨rfl, rfl⟩ := hrun
        -- the head's fact, kept by the rest of the list
        have hhead := (Preserves.mapM fun c hc => hp c (List.mem_cons_of_mem _ hc) a
          List.mem_cons_self v) s₁ vs' s₂ (h a List.mem_cons_self s v s₁ hfa) hrest
        exact .cons hhead (hl s₁ vs' s₂ hrest)
      · cases hrun
    · cases hrun

end StateErr

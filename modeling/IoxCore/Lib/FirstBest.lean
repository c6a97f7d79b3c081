import Mathlib.Data.List.MinMax
import Mathlib.Order.RelClasses

/-!
# The first best element of a list

`List.argAux r` keeps the element it holds unless the next one is strictly better under `r`;
its left fold from `none` is the first of the best elements of a list (`List.argmin` is the case
`r a b := f a < f b`). An aggregate that keeps one element across batches computes such a fold,
and for an order that is transitive and connected (`a < c → a < b ∨ b < c`, a strict weak order)
the fold does not depend on how the list is cut:

* `foldl_argAux_eq_elim`: folding from a kept element gives the better of it and the best of the
  list, so the best of a list is the best of the bests of its parts (`foldl_argAux_flatten`);
* `foldl_argAux_eq_some`: the best element is the one before which every element is strictly
  worse and after which none is better.
-/

namespace List

section Connected

variable {α : Type*} (r : α → α → Prop) [DecidableRel r] [IsTrans α r] [IsOrderConnected α r]

/-- Two steps of `argAux` in a row keep the better of the three elements. -/
theorem argAux_argAux (o : Option α) (x m : α) :
    argAux r (argAux r o x) m = argAux r o (if r m x then m else x) := by
  cases o with
  | none => by_cases hmx : r m x <;> simp [argAux, hmx]
  | some c =>
    by_cases hxc : r x c <;> by_cases hmx : r m x
    · simp [argAux, hxc, hmx, trans_of r hmx hxc]
    · simp [argAux, hxc, hmx]
    · simp [argAux, hxc, hmx]
    · -- neither `m` beats `x` nor `x` beats `c`, so `m` does not beat `c`
      simp [argAux, hxc, hmx, IsOrderConnected.neg_trans hmx hxc]

/-- Folding from a kept element gives the better of it and the best of the list. -/
theorem foldl_argAux_eq_elim (l : List α) (o : Option α) :
    l.foldl (argAux r) o = (l.foldl (argAux r) none).elim o (argAux r o) := by
  induction l generalizing o with
  | nil => rfl
  | cons x l ih =>
    rw [foldl_cons, foldl_cons, ih, ih (argAux r none x)]
    cases hl : l.foldl (argAux r) none with
    | none => rfl
    | some m =>
      have hx : argAux r (argAux r none x) m = some (if r m x then m else x) := by
        by_cases hmx : r m x <;> simp [argAux, hmx]
      simp only [Option.elim, hx, argAux_argAux]

/-- The best of a list is the best of the bests of its parts, in order. -/
theorem foldl_argAux_flatten (ls : List (List α)) (o : Option α) :
    (ls.filterMap fun l => l.foldl (argAux r) none).foldl (argAux r) o =
      ls.flatten.foldl (argAux r) o := by
  induction ls generalizing o with
  | nil => rfl
  | cons l ls ih =>
    rw [flatten_cons, foldl_append, foldl_argAux_eq_elim r l o]
    cases hl : l.foldl (argAux r) none with
    | none => rw [filterMap_cons_none hl]; exact ih o
    | some m => rw [filterMap_cons_some hl, foldl_cons]; exact ih _

/-- The best element of a list: every element before it is strictly worse, and no element after
it is better. -/
theorem foldl_argAux_eq_some {l : List α} {m : α} (h : l.foldl (argAux r) none = some m) :
    ∃ pre post, l = pre ++ m :: post ∧ (∀ x ∈ pre, r m x) ∧ ∀ x ∈ post, ¬ r x m := by
  induction l generalizing m with
  | nil => cases h
  | cons x l ih =>
    rw [foldl_cons, foldl_argAux_eq_elim] at h
    cases hl : l.foldl (argAux r) none with
    | none =>
      -- only `x` is left
      rw [hl] at h
      obtain ⟨rfl, -⟩ := (foldl_argAux_eq_none r).1 hl
      cases h
      exact ⟨[], [], rfl, by simp, by simp⟩
    | some m' =>
      obtain ⟨pre, post, rfl, hpre, hpost⟩ := ih hl
      rw [hl] at h
      by_cases hm : r m' x
      · -- the best of the tail beats `x`
        simp only [Option.elim, argAux, if_pos hm, Option.some.injEq] at h
        subst h
        refine ⟨x :: pre, post, rfl, ?_, hpost⟩
        simpa [hm] using hpre
      · -- `x` is at least as good as every later element
        simp only [Option.elim, argAux, if_neg hm, Option.some.injEq] at h
        subst h
        refine ⟨[], pre ++ m' :: post, rfl, by simp, fun y hy => ?_⟩
        rcases mem_append.1 hy with hy | hy
        · exact fun hyx => hm (trans_of r (hpre y hy) hyx)
        · rcases mem_cons.1 hy with rfl | hy
          · exact hm
          · exact IsOrderConnected.neg_trans (hpost y hy) hm

/-- The element a fold keeps is the one it started from or an element of the list. -/
theorem mem_of_foldl_argAux_eq_some {l : List α} {o : Option α} {m : α}
    (h : l.foldl (argAux r) o = some m) : o = some m ∨ m ∈ l := by
  rw [foldl_argAux_eq_elim] at h
  cases hl : l.foldl (argAux r) none with
  | none =>
    rw [hl] at h
    exact .inl h
  | some m' =>
    obtain ⟨pre, post, rfl, -, -⟩ := foldl_argAux_eq_some r hl
    rw [hl] at h
    cases o with
    | none =>
      cases h
      exact .inr (by simp)
    | some c =>
      simp only [Option.elim, argAux] at h
      split_ifs at h
      · cases h
        exact .inr (by simp)
      · exact .inl h

end Connected

section Key

variable {α β : Type*} [LinearOrder β] {r : α → α → Prop}

/-- A relation that compares keys in a linear order is transitive. -/
theorem isTrans_of_key (f : α → β) (h : ∀ a b, r a b ↔ f a < f b) : IsTrans α r :=
  ⟨fun a b c hab hbc => (h a c).2 (lt_trans ((h a b).1 hab) ((h b c).1 hbc))⟩

/-- A relation that compares keys in a linear order is connected. -/
theorem isOrderConnected_of_key (f : α → β) (h : ∀ a b, r a b ↔ f a < f b) :
    IsOrderConnected α r :=
  ⟨fun a b c hac => by
    rw [h, h]
    rcases lt_or_ge (f a) (f b) with hab | hba
    · exact .inl hab
    · exact .inr (lt_of_le_of_lt hba ((h a c).1 hac))⟩

end Key

end List

import Mathlib.Data.Finset.Card
import Mathlib.Data.Nat.Find

/-!
# Linear probing

A table of `P` slots, each empty or holding a value, in which a value is stored in the first
empty slot at or after its home slot, wrapping around at `P`. A lookup walks the slots from a
home slot and stops at the first empty one.

`Inv` is what makes such lookups complete: every stored value is reached from its home slot over
occupied slots only. Storing into the first empty slot keeps it (`Inv.store`), and then the
run of occupied slots from a home slot holds every value of that home (`mem_run`). While fewer
than `P` slots are occupied, every walk meets an empty slot within `P` probes
(`exists_firstEmpty`), so that both the store and the lookup end.
-/

namespace LinearProbing

variable {α : Type} (P : ℕ) {t : ℕ → Option α}

/-- The slot `d` probes on from slot `h`. -/
def probe (h d : ℕ) : ℕ := (h + d) % P

/-- `e` is the first empty slot on from `h`: it is empty, and the slots before it are not. -/
def FirstEmpty (t : ℕ → Option α) (h e : ℕ) : Prop :=
  t (probe P h e) = none ∧ ∀ d < e, t (probe P h d) ≠ none

/-- Every stored value is reached from its home slot over occupied slots. -/
def Inv (t : ℕ → Option α) (home : α → ℕ) : Prop :=
  ∀ s a, t s = some a → ∃ d, probe P (home a) d = s ∧ ∀ d' < d, t (probe P (home a) d') ≠ none

/-- The occupied slots. -/
def occupied (t : ℕ → Option α) : Finset ℕ := (Finset.range P).filter fun s => (t s).isSome

/-- The values of the first `e` slots on from `h`. -/
def run (t : ℕ → Option α) (h e : ℕ) : List α := (List.range e).filterMap fun d => t (probe P h d)

/-- The table with `a` stored in slot `s`. -/
def store (t : ℕ → Option α) (s : ℕ) (a : α) : ℕ → Option α := Function.update t s (some a)

variable {P}

/-! ## Probes -/

theorem probe_lt (hP : 0 < P) (h d : ℕ) : probe P h d < P := Nat.mod_lt _ hP

theorem probe_succ (h d : ℕ) : probe P h (d + 1) = (probe P h d + 1) % P := by
  rw [probe, probe, Nat.mod_add_mod, Nat.add_assoc]

theorem probe_zero {h : ℕ} (hh : h < P) : probe P h 0 = h := by
  simp [probe, Nat.mod_eq_of_lt hh]

/-- Every slot lies on the first `P` probes from any slot. -/
theorem exists_probe_eq (h : ℕ) {s : ℕ} (hs : s < P) : ∃ d < P, probe P h d = s := by
  have hmod : h % P < P := Nat.mod_lt _ (by omega)
  have hsplit : ∀ d, probe P h d = (h % P + d) % P := by
    intro d
    rw [probe, Nat.mod_add_mod]
  by_cases hle : h % P ≤ s
  · refine ⟨s - h % P, by omega, ?_⟩
    rw [hsplit, show h % P + (s - h % P) = s by omega, Nat.mod_eq_of_lt hs]
  · refine ⟨s + P - h % P, by omega, ?_⟩
    rw [hsplit, show h % P + (s + P - h % P) = s + P by omega, Nat.add_mod_right,
      Nat.mod_eq_of_lt hs]

/-! ## Occupied slots -/

theorem store_self (t : ℕ → Option α) (s : ℕ) (a : α) : store t s a s = some a := by
  simp [store]

theorem store_of_ne (t : ℕ → Option α) {s s' : ℕ} (a : α) (h : s' ≠ s) : store t s a s' = t s' := by
  simp [store, h]

/-- Storing fills a slot and empties none. -/
theorem store_ne_none {s' : ℕ} (s : ℕ) (a : α) (h : t s' ≠ none) : store t s a s' ≠ none := by
  by_cases hs : s' = s
  · simp [hs, store_self]
  · rwa [store_of_ne t a hs]

theorem card_occupied_store {s : ℕ} (hs : s < P) (hnone : t s = none)
    (a : α) : (occupied P (store t s a)).card = (occupied P t).card + 1 := by
  have hins : occupied P (store t s a) = insert s (occupied P t) := by
    ext s'
    by_cases h : s' = s
    · subst h
      simp [occupied, store_self, hs]
    · simp [occupied, store_of_ne t a h, h]
  have hnot : s ∉ occupied P t := by simp [occupied, hnone]
  rw [hins, Finset.card_insert_of_notMem hnot]

/-- While a slot is free, every walk meets one within `P` probes, and a first one. -/
theorem exists_firstEmpty (hcard : (occupied P t).card < P) (h : ℕ) :
    ∃ e < P, FirstEmpty P t h e := by
  have hex : ∃ d, d < P ∧ t (probe P h d) = none := by
    by_contra hfull
    simp only [not_exists, not_and] at hfull
    -- every slot is on the walk, so every slot is occupied
    have hall : occupied P t = Finset.range P := by
      ext s
      simp only [occupied, Finset.mem_filter, Finset.mem_range, and_iff_left_iff_imp]
      intro hs
      obtain ⟨d, hd, rfl⟩ := exists_probe_eq h hs
      exact Option.isSome_iff_ne_none.mpr (hfull d hd)
    rw [hall, Finset.card_range] at hcard
    omega
  classical
  refine ⟨Nat.find hex, (Nat.find_spec hex).1, (Nat.find_spec hex).2, fun d hd hnone => ?_⟩
  exact Nat.find_min hex hd ⟨lt_trans hd (Nat.find_spec hex).1, hnone⟩

/-! ## The invariant -/

theorem inv_empty (home : α → ℕ) : Inv P (fun _ => none) home := by
  intro s a h
  simp at h

/-- Only the homes of stored values matter. -/
theorem Inv.congr {home home' : α → ℕ} (hinv : Inv P t home)
    (hhome : ∀ s a, t s = some a → home' a = home a) : Inv P t home' := by
  intro s a hs
  rw [hhome s a hs]
  exact hinv s a hs

/-- Storing a value in the first empty slot on from its home keeps the invariant. -/
theorem Inv.store {home : α → ℕ} (hinv : Inv P t home) {a : α} {e : ℕ}
    (hfe : FirstEmpty P t (home a) e) : Inv P (store t (probe P (home a) e) a) home := by
  intro s b hs
  by_cases hse : s = probe P (home a) e
  · -- the new value: the slots before it were occupied, and still are
    rw [hse, store_self, Option.some.injEq] at hs
    subst hs
    exact ⟨e, hse.symm, fun d hd => store_ne_none _ _ (hfe.2 d hd)⟩
  · rw [store_of_ne t a hse] at hs
    obtain ⟨d, hd, hocc⟩ := hinv s b hs
    exact ⟨d, hd, fun d' hd' => store_ne_none _ _ (hocc d' hd')⟩

theorem mem_run_iff {h e : ℕ} {a : α} : a ∈ run P t h e ↔ ∃ d < e, t (probe P h d) = some a := by
  simp [run]

/-- A walk from a home slot that stops at the first empty slot passes every value of that
home. -/
theorem mem_run {home : α → ℕ} (hinv : Inv P t home) {s : ℕ} {a : α}
    (hs : t s = some a) {e : ℕ} (hfe : FirstEmpty P t (home a) e) : a ∈ run P t (home a) e := by
  obtain ⟨d, hd, hocc⟩ := hinv s a hs
  have hlt : d < e := by
    by_contra hge
    rcases Nat.lt_or_eq_of_le (Nat.le_of_not_lt hge) with hlt | heq
    · exact hocc e hlt hfe.1
    · have hempty := hfe.1
      rw [heq, hd, hs] at hempty
      exact absurd hempty (by simp)
  exact mem_run_iff.mpr ⟨d, hlt, hd ▸ hs⟩

end LinearProbing

import Mathlib

/-!
# Sums over association lists

The sum of a quantity over the entries of an association list, and how `insert` and `erase`
change it. These are the two facts an accounting invariant over a keyed store needs: a total
kept beside the store equals the sum over the store, when every insert adds its entry's amount
and every removal takes off the amount of the entry it removes. Erasing an absent key leaves
the list as it is (`erase_of_lookup_none`), so a removal need not be split on whether the key was
there.
-/

namespace AList

variable {α : Type} {β : α → Type} [DecidableEq α] {s : AList β}

/-- The sum of `f` over the entries. -/
def sumBy (f : Sigma β → ℕ) (s : AList β) : ℕ := (s.entries.map f).sum

omit [DecidableEq α] in
@[simp] theorem sumBy_empty (f : Sigma β → ℕ) : sumBy f (∅ : AList β) = 0 := rfl

theorem sumBy_insert (f : Sigma β → ℕ) (s : AList β) (a : α) (b : β a) :
    sumBy f (s.insert a b) = f ⟨a, b⟩ + sumBy f (s.erase a) := by
  simp [sumBy, AList.entries_insert, AList.erase]

/-- The entry of a key counts once: erasing the key takes exactly its amount off. -/
theorem sumBy_of_lookup (f : Sigma β → ℕ) {a : α} {b : β a}
    (h : s.lookup a = some b) : sumBy f s = f ⟨a, b⟩ + sumBy f (s.erase a) := by
  have ha : a ∈ s.entries.keys := AList.mem_keys.1 (AList.lookup_isSome.1 (by simp [h]))
  obtain ⟨b', l₁, l₂, hl₁, hl, hk⟩ := List.exists_of_kerase ha
  -- the entry found in the middle is the one `lookup` reads
  have hb : b' = b := by
    have hlook : s.entries.dlookup a = some b := h
    rw [hl, List.dlookup_append, List.dlookup_eq_none.2 hl₁, List.dlookup_cons_eq] at hlook
    exact Option.some.inj hlook
  subst hb
  simp only [sumBy, AList.erase, hk]
  rw [hl]
  simp only [List.map_append, List.map_cons, List.sum_append, List.sum_cons]
  omega

theorem erase_of_lookup_none {a : α} (h : s.lookup a = none) : s.erase a = s := by
  have ha : a ∉ s.entries.keys := fun hm => AList.lookup_eq_none.1 h (AList.mem_keys.2 hm)
  exact AList.ext (List.kerase_of_notMem_keys ha)

theorem sumBy_erase_of_lookup_none (f : Sigma β → ℕ) {a : α}
    (h : s.lookup a = none) : sumBy f (s.erase a) = sumBy f s := by
  rw [erase_of_lookup_none h]

theorem sumBy_insert_of_lookup_none (f : Sigma β → ℕ) {a : α} (b : β a)
    (h : s.lookup a = none) : sumBy f (s.insert a b) = f ⟨a, b⟩ + sumBy f s := by
  rw [sumBy_insert, sumBy_erase_of_lookup_none f h]

theorem sumBy_eq_zero (f : Sigma β → ℕ)
    (h : ∀ a b, s.lookup a = some b → f ⟨a, b⟩ = 0) : sumBy f s = 0 := by
  refine List.sum_eq_zero fun x hx => ?_
  obtain ⟨e, he, rfl⟩ := List.mem_map.1 hx
  exact h e.1 e.2 (AList.mem_lookup_iff.2 he)

end AList

import Mathlib.Data.List.Basic

/-!
# Cutting a list into chunks

`chunks n l` is the slice method `chunks(n)`: the consecutive runs of `n`
elements of `l`, the last one shorter. The recursion is on an explicit fuel,
the length of the list, so that `chunks` computes by `decide` and `rfl`.
-/

namespace List

variable {α : Type*}

/-- The runs of `n` elements, with `fuel` bounding the number of runs taken. -/
def chunksAux (n : ℕ) : ℕ → List α → List (List α)
  | 0, _ => []
  | _ + 1, [] => []
  | fuel + 1, a :: l => (a :: l).take n :: chunksAux n fuel ((a :: l).drop n)

/-- `chunks(n)`: consecutive runs of `n` elements, the last one possibly shorter. -/
def chunks (n : ℕ) (l : List α) : List (List α) := chunksAux n l.length l

/-- With enough fuel, the runs put back together give the list. -/
theorem flatten_chunksAux {n : ℕ} (hn : 0 < n) :
    ∀ (fuel : ℕ) (l : List α), l.length ≤ fuel → (chunksAux n fuel l).flatten = l
  | 0, l, h => by
    rw [Nat.le_zero, List.length_eq_zero_iff] at h
    subst h
    rfl
  | _ + 1, [], _ => rfl
  | fuel + 1, a :: l, h => by
    -- the rest after one run is shorter by at least one element
    have hrest : ((a :: l).drop n).length ≤ fuel := by
      simp only [List.length_drop, List.length_cons] at h ⊢
      omega
    simp only [chunksAux, List.flatten_cons, flatten_chunksAux hn fuel _ hrest, List.take_append_drop]

/-- The chunks of a list, put back together, give the list. -/
theorem flatten_chunks {n : ℕ} (hn : 0 < n) (l : List α) : (chunks n l).flatten = l :=
  flatten_chunksAux hn l.length l (Nat.le_refl _)

/-- Every element of the list lies in one of its chunks. -/
theorem exists_mem_chunks {n : ℕ} (hn : 0 < n) {l : List α} {a : α} (ha : a ∈ l) :
    ∃ c ∈ chunks n l, a ∈ c := by
  rw [← flatten_chunks hn l] at ha
  exact List.mem_flatten.mp ha

example : chunks 3 [1, 2, 3, 4, 5, 6, 7, 8] = [[1, 2, 3], [4, 5, 6], [7, 8]] := by decide

end List

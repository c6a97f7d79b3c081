import IoxCore.MutableBatch.Writer

/-!
# What each write does

The rows the writes of `IoxCore.MutableBatch.Writer` fill, and the cells of a column. A write
is given the validity of its new rows (`maskBits`: the first `to_insert` bits of the mask, or
all valid).

## Results

* `setPositions_eq`: the positions a write visits, which `iter_set_positions` yields, are the
  set rows of `maskBits`.
* `Column.cells_of_represents`: the cells of a column are read off its validity list and the
  values of its data.
-/

namespace IoxCore.MutableBatch

open ArrowUtil PackedBits

variable {F : Type}

/-! ## The rows a write fills -/

/-- The validity of the new rows of a write: the first `to_insert` bits of the mask, or every
row valid. -/
def maskBits (validMask : Option (List UInt8)) (toInsert : ℕ) : List Bool :=
  match validMask with
  | some mask => bits mask toInsert
  | none => List.replicate toInsert true

/-- The rows from `j` on whose bit is set. -/
def positionsFrom : ℕ → List Bool → List ℕ
  | _, [] => []
  | j, true :: v => j :: positionsFrom (j + 1) v
  | j, false :: v => positionsFrom (j + 1) v

@[simp] theorem length_maskBits (validMask : Option (List UInt8)) (toInsert : ℕ) :
    (maskBits validMask toInsert).length = toInsert := by
  cases validMask <;> simp [maskBits]

theorem positionsFrom_map_range' (f : ℕ → Bool) :
    ∀ j n, positionsFrom j ((List.range' j n).map f) = (List.range' j n).filter f
  | _, 0 => rfl
  | j, n + 1 => by
    rw [List.range'_succ, List.map_cons, List.filter_cons]
    cases f j <;> simp [positionsFrom, positionsFrom_map_range' f (j + 1) n]

theorem positionsFrom_map_range (f : ℕ → Bool) (n : ℕ) :
    positionsFrom 0 ((List.range n).map f) = (List.range n).filter f := by
  rw [List.range_eq_range']
  exact positionsFrom_map_range' f 0 n

theorem takeWhile_lt_eq_filter :
    ∀ {l : List ℕ}, l.Pairwise (· < ·) → ∀ n, l.takeWhile (· < n) = l.filter (· < n)
  | [], _, _ => rfl
  | a :: l, h, n => by
    rw [List.pairwise_cons] at h
    by_cases ha : a < n
    · simp [ha, takeWhile_lt_eq_filter h.2 n]
    · have hnil : l.filter (· < n) = [] := by
        rw [List.filter_eq_nil_iff]
        intro b hb
        have := h.1 b hb
        simp only [decide_eq_true_eq]
        omega
      simp [ha, hnil]

/-- Rows past `m` where `p` never holds add nothing to the rows where it holds. -/
theorem filter_range_of_ge {p : ℕ → Bool} {m n : ℕ} (hmn : m ≤ n)
    (hp : ∀ i, m ≤ i → p i = false) : (List.range n).filter p = (List.range m).filter p := by
  rw [show n = m + (n - m) by omega, List.range_add, List.filter_append, List.filter_map]
  have hnil : (List.range (n - m)).filter (p ∘ (m + ·)) = [] := by
    rw [List.filter_eq_nil_iff]
    intro i _
    simp [hp (m + i) (Nat.le_add_right m i)]
  rw [hnil, List.map_nil, List.append_nil]

/-- The positions a write visits: `iter_set_positions` cut at `to_insert`, or every new row. -/
theorem setPositions_eq (validMask : Option (List UInt8)) (toInsert : ℕ) :
    setPositions validMask toInsert = positionsFrom 0 (maskBits validMask toInsert) := by
  cases validMask with
  | none =>
    have hrep : List.replicate toInsert true = (List.range toInsert).map fun _ => true := by
      rw [List.map_const', List.length_range]
    rw [setPositions, maskBits, hrep, positionsFrom_map_range, List.filter_eq_self.2 fun _ _ => rfl]
  | some mask =>
    -- from offset `0` the iterator yields every set bit of the buffer
    have hiter : BitSet.iterSetPositionsWithOffset mask 0 =
        (List.range (8 * mask.length)).filter (bitAt mask) := by
      simp [BitSet.iterSetPositionsWithOffset_eq]
    have hsorted : ((List.range (8 * mask.length)).filter (bitAt mask)).Pairwise (· < ·) :=
      List.pairwise_lt_range.filter _
    rw [setPositions, hiter, maskBits, takeWhile_lt_eq_filter hsorted, List.filter_filter, bits,
      positionsFrom_map_range]
    -- bits past the buffer are unset, so the positions below `to_insert` are all there is
    rcases Nat.le_total (8 * mask.length) toInsert with hle | hle
    · rw [filter_range_of_ge hle fun i hi => bitAt_eq_false_of_le hi]
      refine List.filter_congr fun i hi => ?_
      have : i < toInsert := by rw [List.mem_range] at hi; omega
      simp [this]
    · rw [filter_range_of_ge hle (p := fun i => decide (i < toInsert) && bitAt mask i)
        fun i hi => by simp; omega]
      refine List.filter_congr fun i hi => ?_
      simp [List.mem_range.1 hi]

/-! ## Cells -/

/-- The cells of the rows `vl`, a valid row holding what `value` reads at it. -/
def cellsOf (vl : List Bool) (value : ℕ → Option (Value F)) : List (Option (Value F)) :=
  (List.range vl.length).map fun i => if vl.getD i false then value i else none

theorem Column.cells_of_represents {c : Column F} {vl : List Bool} (h : c.valid.Represents vl) :
    c.cells = cellsOf vl c.data.value := by
  simp only [Column.cells, cellsOf, h.len_eq, h.packs.bitAt_eq]

theorem cellsOf_congr {vl : List Bool} {value value' : ℕ → Option (Value F)}
    (h : ∀ i < vl.length, vl.getD i false = true → value i = value' i) :
    cellsOf vl value = cellsOf vl value' := by
  refine List.map_congr_left fun i hi => ?_
  rw [List.mem_range] at hi
  by_cases hv : vl.getD i false = true
  · rw [if_pos hv, if_pos hv, h i hi hv]
  · rw [if_neg hv, if_neg hv]

theorem cellsOf_append (vl v : List Bool) (value : ℕ → Option (Value F)) :
    cellsOf (vl ++ v) value = cellsOf vl value ++
      (List.range v.length).map fun t => if v.getD t false then value (vl.length + t) else none := by
  rw [cellsOf, List.length_append, List.range_add, List.map_append, List.map_map]
  congr 1
  · refine List.map_congr_left fun i hi => ?_
    rw [List.mem_range] at hi
    simp only [List.getD_eq_getElem?_getD, List.getElem?_append_left hi]
  · refine List.map_congr_left fun t _ => ?_
    simp only [Function.comp, List.getD_eq_getElem?_getD,
      List.getElem?_append_right (Nat.le_add_right _ _), Nat.add_sub_cancel_left]

end IoxCore.MutableBatch

import Mathlib

/-!
# Ordering the inputs of a union by their value ranges

The rule `OrderUnionSortedInputs` of `iox_query::physical_optimizer::sort` replaces a
`SortPreservingMergeExec` on one column over a `UnionExec` of inputs sorted on that column by
a `ProgressiveEvalExec`, which reads the inputs one after the other. It does so when
`statistics::overlap` finds that the min/max ranges of the inputs do not overlap, and it
orders the inputs with `sort_by_value_ranges`, by the ranks of their minimums.

## The model

Values of the sort column are those of a linear order. arrow's `rank` gives each value its
place in the sorted order, counting from 1, equal values taking the highest of their places.
`overlap` panics on a range whose min exceeds its max (the error carries that range). The
rows the rewritten plan produces are those of its inputs, each already merged to one sorted
stream, read in turn and cut at `fetch` rows; the checks on the shape of the plan (one sort
column, a union below, the same ordering, statistics present) are the rule's preconditions and
are taken as met. Rows are sorted in ascending order.

## Results

* `overlap_point_range_at_min`: a range that is one point at the minimum of another is not
  seen as overlapping it, and when the wider range comes first the rewritten plan's rows are
  not sorted.
* `progressiveRows_sorted`: when the ranges of the inputs are pairwise disjoint, the rewritten
  plan's rows are a prefix of a sorted ordering of all the input rows.
-/

namespace IoxCore.IoxQuery

section OrderUnion

variable {α β : Type} [LinearOrder α] {valueRanges : List (α × α)} {values : List α}

/-- The place of `x` among `values` in ascending order, counting from 1, equal values
taking the highest of their places. -/
def rankOf (values : List α) (x : α) : ℕ := (values.filter fun y => decide (y ≤ x)).length

/-- rank of arrow: the place of each value in the sorted order, equal values taking the highest
of their places; in descending order the order is reversed. -/
def rank (descending : Bool) (values : List α) : List ℕ :=
  values.map fun x =>
    (values.filter fun y => if descending then decide (x ≤ y) else decide (y ≤ x)).length

/-- The check of overlap on the interleaved ranks of the minimums and maximums: the rank of
each max equals, or comes right after, the rank of its min. -/
def ranksAdjacent : List ℕ → Bool
  | a :: b :: rest => (a == b || b == a + 1) && ranksAdjacent rest
  | _ => true

/-- overlap: whether two of the min/max ranges overlap. A range whose min exceeds its max
panics. -/
def overlap (valueRanges : List (α × α)) : Except (α × α) Bool :=
  match valueRanges.find? fun r => decide (r.2 < r.1) with
  | some r => .error r
  | none => .ok !(ranksAdjacent (rank false (valueRanges.flatMap fun r => [r.1, r.2])))

/-- The order sort_by_value_ranges sorts by: the rank of the minimum, in a stable sort. -/
def rankLe (a b : β × ℕ) : Bool := decide (a.2 ≤ b.2)

/-- sort_by_value_ranges: none when the plans and ranges are not as many or the ranges
overlap; otherwise the plans and their ranges in the order of the ranks of their minimums. -/
def sortByValueRanges (plans : List β) (valueRanges : List (α × α)) (descending : Bool) :
    Except (α × α) (Option (List β × List (α × α))) :=
  if plans.length ≠ valueRanges.length then .ok none
  else
    match overlap valueRanges with
    | .error r => .error r
    | .ok true => .ok none
    | .ok false =>
      let ranks := rank descending (valueRanges.map Prod.fst)
      .ok (some (((plans.zip ranks).mergeSort rankLe).map Prod.fst,
        ((valueRanges.zip ranks).mergeSort rankLe).map Prod.fst))

/-- The rows of the plan after OrderUnionSortedInputs: none where the rule keeps the
SortPreservingMergeExec; otherwise ProgressiveEvalExec's rows, the inputs in their new order
read in turn, cut at `fetch` rows. -/
def progressiveRows (descending : Bool) (fetch : Option ℕ) (inputs : List (List α))
    (valueRanges : List (α × α)) : Except (α × α) (Option (List α)) :=
  match sortByValueRanges inputs valueRanges descending with
  | .error r => .error r
  | .ok none => .ok none
  | .ok (some (plans, _)) => .ok (some ((fetch.map fun f => plans.flatten.take f).getD plans.flatten))

/-- A range that is one point at the minimum of another passes overlap: the two copies of the
minimum share the higher rank. When the wider range is the first input, the rows of the
rewritten plan are out of order. -/
theorem overlap_point_range_at_min : overlap [((5 : ℤ), 7), (5, 5)] = .ok false ∧
      progressiveRows false none [[(5 : ℤ), 7], [5]] [(5, 7), (5, 5)] = .ok (some [5, 7, 5]) ∧
      ¬ [(5 : ℤ), 7, 5].Pairwise (· ≤ ·) := by
  have hov : overlap [((5 : ℤ), 7), (5, 5)] = .ok false := by decide
  have hranks : rank false [(5 : ℤ), 5] = [2, 2] := by decide
  refine ⟨hov, ?_, by decide⟩
  -- the stable sort keeps the tied inputs in their order
  simp only [progressiveRows, sortByValueRanges, hov, List.map_cons, List.map_nil, hranks]
  simp [List.mergeSort, rankLe]

/-! ### Disjoint ranges give sorted rows -/

theorem rank_false (values : List α) : rank false values = values.map (rankOf values) := rfl

theorem filter_le_sublist (values : List α) {x y : α} (h : x ≤ y) :
    (values.filter fun v => decide (v ≤ x)).Sublist (values.filter fun v => decide (v ≤ y)) :=
  List.monotone_filter_right values fun v hv => by
    simp only [decide_eq_true_eq] at hv ⊢
    exact hv.trans h

theorem rankOf_lt_rankOf {x y : α} (hy : y ∈ values) (hxy : x < y) :
    rankOf values x < rankOf values y := by
  have hsub := filter_le_sublist values hxy.le
  refine lt_of_le_of_ne hsub.length_le fun heq => ?_
  have hmem : y ∈ values.filter fun v => decide (v ≤ y) := by simp [hy]
  rw [← hsub.eq_of_length heq, List.mem_filter, decide_eq_true_eq] at hmem
  exact absurd hmem.2 (not_le.2 hxy)

theorem le_of_rankOf_le {x y : α} (hx : x ∈ values)
    (h : rankOf values x ≤ rankOf values y) : x ≤ y :=
  le_of_not_gt fun hyx => absurd h (not_le.2 (rankOf_lt_rankOf hx hyx))

/-- Of two disjoint ranges, the one whose minimum ranks first lies wholly before the other. -/
theorem max_lt_min_of_rankOf_le {r s : α × α} (hr : r.1 ∈ values)
    (hs : s.1 ≤ s.2) (hrank : rankOf values r.1 ≤ rankOf values s.1)
    (hd : r.2 < s.1 ∨ s.2 < r.1) : r.2 < s.1 := by
  have hle := le_of_rankOf_le hr hrank
  rcases hd with hd | hd
  · exact hd
  · exact absurd (hd.trans_le hle) (not_lt.2 hs)

theorem overlap_valid {b : Bool} (h : overlap valueRanges = .ok b) :
    ∀ r ∈ valueRanges, r.1 ≤ r.2 := by
  unfold overlap at h
  split at h
  · cases h
  · rename_i hfind
    intro r hr
    simpa using List.find?_eq_none.1 hfind r hr

theorem sortByValueRanges_plans {plans : List β} {descending : Bool} {out : List β × List (α × α)}
    (h : sortByValueRanges plans valueRanges descending = .ok (some out)) :
    plans.length = valueRanges.length ∧ overlap valueRanges = .ok false ∧
      out.1 = ((plans.zip (rank descending (valueRanges.map Prod.fst))).mergeSort rankLe).map
        Prod.fst := by
  unfold sortByValueRanges at h
  split_ifs at h with hlen
  · cases h
  · rcases ho : overlap valueRanges with r | _ | _ <;> simp only [ho] at h
    · cases h
    · cases h
      exact ⟨not_not.1 hlen, rfl, rfl⟩
    · cases h

/-- The inputs with their ranges and the ascending ranks of their minimums, as
sort_by_value_ranges pairs the plans and the ranges with the same ranks. -/
def rankedInputs (inputs : List β) (valueRanges : List (α × α)) : List (β × (α × α) × ℕ) :=
  inputs.zip (valueRanges.map fun r => (r, rankOf (valueRanges.map Prod.fst) r.1))

theorem mem_rankedInputs {inputs : List β} {t : β × (α × α) × ℕ}
    (ht : t ∈ rankedInputs inputs valueRanges) :
    (t.1, t.2.1) ∈ inputs.zip valueRanges ∧ t.2.2 = rankOf (valueRanges.map Prod.fst) t.2.1.1 := by
  rw [rankedInputs, List.zip_map_right, List.mem_map] at ht
  obtain ⟨p, hp, rfl⟩ := ht
  exact ⟨hp, rfl⟩

theorem rankedInputs_ranges {inputs : List β} (hlen : inputs.length = valueRanges.length) :
    (rankedInputs inputs valueRanges).map (·.2.1) = valueRanges := by
  rw [rankedInputs, List.zip_map_right, List.map_map]
  exact List.map_snd_zip hlen.ge

/-- The plans sort_by_value_ranges returns are those of the ranked inputs sorted by rank. -/
theorem plans_eq_rankedInputs (inputs : List β) (valueRanges : List (α × α)) :
    ((inputs.zip (rank false (valueRanges.map Prod.fst))).mergeSort rankLe).map Prod.fst =
      ((rankedInputs inputs valueRanges).mergeSort fun a b => decide (a.2.2 ≤ b.2.2)).map
        Prod.fst := by
  have hmap : (rankedInputs inputs valueRanges).map (fun t => (t.1, t.2.2)) =
      inputs.zip (rank false (valueRanges.map Prod.fst)) := by
    rw [rankedInputs, rank_false, List.map_map, List.zip_map_right, List.zip_map_right,
      List.map_map]
    rfl
  rw [← hmap, ← List.map_mergeSort (l := rankedInputs inputs valueRanges)
    (r := fun a b => decide (a.2.2 ≤ b.2.2)) (s := rankLe) (f := fun t => (t.1, t.2.2))
    fun _ _ _ _ => rfl, List.map_map]
  rfl

/-- When the ranges of the inputs are pairwise disjoint and each input is sorted and within its
range, the rows of the rewritten plan are a prefix of all the input rows in sorted order. -/
theorem progressiveRows_sorted {fetch : Option ℕ} {inputs : List (List α)} {rows : List α}
    (hsorted : ∀ input ∈ inputs, input.Pairwise (· ≤ ·))
    (hwithin : List.Forall₂ (fun input r => ∀ x ∈ input, r.1 ≤ x ∧ x ≤ r.2) inputs valueRanges)
    (hdisjoint : valueRanges.Pairwise fun r s => r.2 < s.1 ∨ s.2 < r.1)
    (h : progressiveRows false fetch inputs valueRanges = .ok (some rows)) :
    ∃ all : List α, all.Perm inputs.flatten ∧ all.Pairwise (· ≤ ·) ∧
      rows = (fetch.map fun f => all.take f).getD all := by
  unfold progressiveRows at h
  rcases hs : sortByValueRanges inputs valueRanges false with r | _ | ⟨plans, ranges⟩ <;>
    simp only [hs] at h
  · cases h
  · cases h
  obtain ⟨hlen, hov, hplans⟩ := sortByValueRanges_plans hs
  dsimp only at hplans
  simp only [Except.ok.injEq, Option.some.injEq] at h
  have hperm : plans.Perm inputs := by
    have hranks : inputs.length ≤ (rank false (valueRanges.map Prod.fst)).length := by
      simp [rank, hlen]
    have hsort := (List.mergeSort_perm (inputs.zip (rank false (valueRanges.map Prod.fst)))
      rankLe).map Prod.fst
    rwa [List.map_fst_zip hranks, ← hplans] at hsort
  refine ⟨plans.flatten, hperm.flatten, List.pairwise_flatten.2 ⟨?_, ?_⟩, h.symm⟩
  · exact fun input hi => hsorted input (hperm.mem_iff.1 hi)
  -- the ranked inputs in rank order, with the facts each pair of them carries
  set sorted := (rankedInputs inputs valueRanges).mergeSort fun a b => decide (a.2.2 ≤ b.2.2)
  have hvalid := overlap_valid hov
  have hzip : ∀ {input r}, (input, r) ∈ inputs.zip valueRanges → ∀ x ∈ input, r.1 ≤ x ∧ x ≤ r.2 :=
    (List.forall₂_iff_zip.1 hwithin).2
  have hmem : ∀ t ∈ sorted, (t.1, t.2.1) ∈ inputs.zip valueRanges ∧
      t.2.2 = rankOf (valueRanges.map Prod.fst) t.2.1.1 :=
    fun t ht => mem_rankedInputs ((List.mergeSort_perm _ _).mem_iff.1 ht)
  have hrank : sorted.Pairwise fun a b => decide (a.2.2 ≤ b.2.2) = true := by
    apply List.pairwise_mergeSort
    · intro a b c hab hbc
      simp only [decide_eq_true_eq] at hab hbc ⊢
      exact hab.trans hbc
    · intro a b
      simp only [Bool.or_eq_true, decide_eq_true_eq]
      exact le_total _ _
  have hranges : sorted.Pairwise fun a b => a.2.1.2 < b.2.1.1 ∨ b.2.1.2 < a.2.1.1 := by
    have hall : (rankedInputs inputs valueRanges).Pairwise
        fun a b => a.2.1.2 < b.2.1.1 ∨ b.2.1.2 < a.2.1.1 := by
      rw [← rankedInputs_ranges hlen, List.pairwise_map] at hdisjoint
      exact hdisjoint
    exact hall.perm (List.mergeSort_perm _ _).symm fun hd => hd.symm
  rw [hplans, plans_eq_rankedInputs, List.pairwise_map]
  refine (hrank.and hranges).imp_of_mem fun {a b} ha hb hab x hx y hy => ?_
  obtain ⟨haz, hak⟩ := hmem a ha
  obtain ⟨hbz, hbk⟩ := hmem b hb
  have hlt : a.2.1.2 < b.2.1.1 := by
    refine max_lt_min_of_rankOf_le (List.mem_map_of_mem (List.of_mem_zip haz).2)
      (hvalid _ (List.of_mem_zip hbz).2) ?_ hab.2
    rw [← hak, ← hbk]
    exact of_decide_eq_true hab.1
  calc x ≤ a.2.1.2 := (hzip haz x hx).2
    _ ≤ b.2.1.1 := hlt.le
    _ ≤ y := (hzip hbz y hy).1

end OrderUnion

end IoxCore.IoxQuery

import Mathlib

/-!
# Runs of equal elements

The maximal runs of equal consecutive elements of a list, each reported with the
range of its indices: what a run-length encoder that answers index ranges is
specified to produce.

## The model

`runsAfter (a, s, e) l` completes a pending run of `a` over the indices `[s, e)`
with the elements of `l`, which stand at the indices from `e` on; `runs l` starts
with the first element as a run of one. A range `(s, e)` stands for the indices
`s, …, e - 1` (`indices`).
-/

namespace Runs

/-- The indices of a range `[s, e)`. -/
def indices (r : ℕ × ℕ) : List ℕ := List.range' r.1 (r.2 - r.1)

/-- The values of a list with gaps, each gap filled with the value before it (`a` before
the first). -/
def fillNone {α : Type} : α → List (Option α) → List α
  | _, [] => []
  | a, none :: l => a :: fillNone a l
  | _, some b :: l => b :: fillNone b l

/-- The values of a list with gaps are among its values with the gaps filled. -/
theorem mem_fillNone {α : Type} {a b : α} : ∀ {l : List (Option α)}, some b ∈ l → b ∈ fillNone a l
  | none :: l, h => List.mem_cons_of_mem _ (mem_fillNone (by simpa using h))
  | some c :: l, h => by
    rcases List.mem_cons.1 h with h | h
    · cases h
      exact List.mem_cons_self
    · exact List.mem_cons_of_mem _ (mem_fillNone h)

section Runs

variable {α : Type} [DecidableEq α] {l : List α}

/-- The runs of `l` after a pending run of `a` over `[s, e)`. -/
def runsAfter : α × ℕ × ℕ → List α → List (α × ℕ × ℕ)
  | r, [] => [r]
  | (a, s, e), b :: l =>
    if b = a then runsAfter (a, s, e + 1) l else (a, s, e) :: runsAfter (b, e, e + 1) l

/-- The maximal runs of equal consecutive elements of a list, with their ranges. -/
def runs : List α → List (α × ℕ × ℕ)
  | [] => []
  | a :: l => runsAfter (a, 0, 1) l

/-- The indices of the elements equal to `k`, for a list that starts at index `s`. -/
def indicesOf (k : α) (s : ℕ) (l : List α) : List ℕ :=
  ((List.range' s l.length).zip l).filterMap fun p => if p.2 = k then some p.1 else none

theorem runsAfter_cons_same {a : α} {s e : ℕ} (l : List α) :
    runsAfter (a, s, e) (a :: l) = runsAfter (a, s, e + 1) l := by
  simp [runsAfter]

theorem runsAfter_cons_ne {a b : α} {s e : ℕ} (l : List α) (h : b ≠ a) :
    runsAfter (a, s, e) (b :: l) = (a, s, e) :: runsAfter (b, e, e + 1) l := by
  simp [runsAfter, h]

theorem indices_append {s m e : ℕ} (h₁ : s ≤ m) (h₂ : m ≤ e) :
    indices (s, m) ++ indices (m, e) = indices (s, e) := by
  obtain ⟨a, rfl⟩ := Nat.exists_eq_add_of_le h₁
  obtain ⟨b, rfl⟩ := Nat.exists_eq_add_of_le h₂
  simp only [indices, Nat.add_sub_cancel_left, show s + a + b - s = a + b by omega]
  exact List.range'_append_1

/-- The ranges of the runs cover the indices from the start of the pending run to
the end of the list, in order and without overlap. -/
theorem flatMap_indices_runsAfter (l : List α) : ∀ {a : α} {s e : ℕ}, s ≤ e →
      (runsAfter (a, s, e) l).flatMap (fun r => indices r.2) = indices (s, e + l.length) := by
  induction l with
  | nil => intro a s e _; simp [runsAfter]
  | cons b l ih =>
    intro a s e hse
    by_cases hb : b = a
    · subst hb
      rw [runsAfter_cons_same, ih (by omega), List.length_cons, Nat.add_assoc, Nat.add_comm 1]
    · rw [runsAfter_cons_ne l hb, List.flatMap_cons, ih (Nat.le_succ e),
        indices_append hse (by simp; omega), List.length_cons]
      congr 2
      omega

/-- Every run of a list is non-empty. -/
theorem lt_of_mem_runsAfter (l : List α) :
    ∀ {a : α} {s e : ℕ}, s < e → ∀ r ∈ runsAfter (a, s, e) l, r.2.1 < r.2.2 := by
  induction l with
  | nil => intro a s e h r hr; simp [runsAfter] at hr; subst hr; exact h
  | cons b l ih =>
    intro a s e h r hr
    by_cases hb : b = a
    · subst hb
      rw [runsAfter_cons_same] at hr
      exact ih (by omega) r hr
    · rw [runsAfter_cons_ne l hb] at hr
      rcases List.mem_cons.mp hr with rfl | hr
      · exact h
      · exact ih (Nat.lt_succ_self e) r hr

theorem head_runsAfter (l : List α) :
    ∀ {a : α} {s e : ℕ}, ∃ e' rest, runsAfter (a, s, e) l = (a, s, e') :: rest := by
  induction l with
  | nil => intro a s e; exact ⟨e, [], rfl⟩
  | cons b l ih =>
    intro a s e
    by_cases hb : b = a
    · subst hb
      rw [runsAfter_cons_same]
      exact ih
    · rw [runsAfter_cons_ne l hb]
      exact ⟨e, _, rfl⟩

/-- Consecutive runs carry different elements: the runs are maximal. -/
theorem chain_ne_runsAfter (l : List α) :
    ∀ {a : α} {s e : ℕ}, List.IsChain (fun r r' => r.1 ≠ r'.1) (runsAfter (a, s, e) l) := by
  induction l with
  | nil => intro a s e; exact List.IsChain.singleton _
  | cons b l ih =>
    intro a s e
    by_cases hb : b = a
    · subst hb
      rw [runsAfter_cons_same]
      exact ih
    · rw [runsAfter_cons_ne l hb]
      obtain ⟨e', rest, hrest⟩ := head_runsAfter l (a := b) (s := e) (e := e + 1)
      have htail := ih (a := b) (s := e) (e := e + 1)
      rw [hrest] at htail ⊢
      exact List.IsChain.cons_cons (Ne.symm hb) htail

/-- Consecutive runs are adjacent: each starts where the one before it ends. -/
theorem chain_adjacent_runsAfter (l : List α) :
    ∀ {a : α} {s e : ℕ}, List.IsChain (fun r r' => r.2.2 = r'.2.1) (runsAfter (a, s, e) l) := by
  induction l with
  | nil => intro a s e; exact List.IsChain.singleton _
  | cons b l ih =>
    intro a s e
    by_cases hb : b = a
    · subst hb
      rw [runsAfter_cons_same]
      exact ih
    · rw [runsAfter_cons_ne l hb]
      obtain ⟨e', rest, hrest⟩ := head_runsAfter l (a := b) (s := e) (e := e + 1)
      have htail := ih (a := b) (s := e) (e := e + 1)
      rw [hrest] at htail ⊢
      exact List.IsChain.cons_cons rfl htail

theorem indicesOf_cons (k a : α) (s : ℕ) (l : List α) :
    indicesOf k s (a :: l) = (if a = k then [s] else []) ++ indicesOf k (s + 1) l := by
  by_cases h : a = k <;> simp [indicesOf, List.range'_succ, h]

theorem indicesOf_append (k : α) (l₁ l₂ : List α) :
    ∀ s, indicesOf k s (l₁ ++ l₂) = indicesOf k s l₁ ++ indicesOf k (s + l₁.length) l₂ := by
  induction l₁ with
  | nil => intro s; simp [indicesOf]
  | cons a l₁ ih =>
    intro s
    rw [List.cons_append, indicesOf_cons, indicesOf_cons, ih, List.length_cons, List.append_assoc,
      Nat.add_assoc, Nat.add_comm 1]

theorem indicesOf_replicate (k a : α) (n : ℕ) :
    ∀ s, indicesOf k s (List.replicate n a) = if a = k then indices (s, s + n) else [] := by
  induction n with
  | zero => intro s; simp [indicesOf, indices]
  | succ n ih =>
    intro s
    rw [List.replicate_succ, indicesOf_cons, ih]
    by_cases ha : a = k
    · simp only [ha, if_true, indices, List.singleton_append]
      rw [show s + (n + 1) - s = (s + 1 + n - (s + 1)) + 1 by omega, List.range'_succ]
    · simp [ha]

theorem mem_indicesOf {k : α} {i : ℕ} :
    ∀ {s : ℕ} {l : List α}, i ∈ indicesOf k s l ↔ s ≤ i ∧ l[i - s]? = some k
  | s, [] => by simp [indicesOf]
  | s, a :: l => by
    rw [indicesOf_cons, List.mem_append, mem_indicesOf]
    by_cases hi : i = s
    · subst hi
      by_cases ha : a = k <;> simp [ha]
    · -- past the head, the index moves to the tail
      have hs : s ≤ i ↔ s + 1 ≤ i := by omega
      rw [hs]
      by_cases hle : s + 1 ≤ i
      · rw [show i - s = i - (s + 1) + 1 by omega, List.getElem?_cons_succ]
        by_cases ha : a = k <;> simp [ha, hi, hle]
      · by_cases ha : a = k <;> simp [ha, hi, hle]

/-- The indices of the values of a range of indices that are equal to `k`. -/
theorem indicesOf_map_range' (k : α) (f : ℕ → α) (n : ℕ) :
    ∀ s, indicesOf k s ((List.range' s n).map f) = (List.range' s n).filter fun i => f i = k := by
  induction n with
  | zero => intro s; rfl
  | succ n ih =>
    intro s
    rw [List.range'_succ, List.map_cons, indicesOf_cons, ih, List.filter_cons]
    by_cases h : f s = k <;> simp [h]

/-- The ranges of the runs of an element `k` hold exactly the indices of the
elements equal to `k`. -/
theorem flatMap_indices_filter_runsAfter (k : α) (l : List α) : ∀ {a : α} {s e : ℕ}, s ≤ e →
      ((runsAfter (a, s, e) l).filter (fun r => r.1 = k)).flatMap (fun r => indices r.2) =
        indicesOf k s (List.replicate (e - s) a ++ l) := by
  induction l with
  | nil =>
    intro a s e hse
    rw [List.append_nil, indicesOf_replicate, Nat.add_sub_cancel' hse]
    by_cases ha : a = k <;> simp [runsAfter, ha]
  | cons b l ih =>
    intro a s e hse
    by_cases hb : b = a
    · subst hb
      rw [runsAfter_cons_same, ih (by omega), show e + 1 - s = e - s + 1 by omega,
        List.replicate_succ', List.append_assoc, List.singleton_append]
    · rw [runsAfter_cons_ne l hb, List.filter_cons, indicesOf_append, indicesOf_replicate,
        List.length_replicate, Nat.add_sub_cancel' hse]
      have hrest := ih (a := b) (Nat.le_add_right e 1)
      rw [Nat.add_sub_cancel_left, List.replicate_one, List.singleton_append] at hrest
      by_cases ha : a = k <;> simp [ha, hrest]

/-- The runs of a list cover its indices, in order. -/
theorem flatMap_indices_runs (l : List α) :
    (runs l).flatMap (fun r => indices r.2) = List.range l.length := by
  cases l with
  | nil => rfl
  | cons a l =>
    rw [runs, flatMap_indices_runsAfter l (Nat.zero_le 1), indices, List.range_eq_range']
    simp [Nat.add_comm]

theorem chain_adjacent_runs (l : List α) : List.IsChain (fun r r' => r.2.2 = r'.2.1) (runs l) := by
  cases l with
  | nil => exact List.IsChain.nil
  | cons a l => exact chain_adjacent_runsAfter l

theorem lt_of_mem_runs {r : α × ℕ × ℕ} (h : r ∈ runs l) : r.2.1 < r.2.2 := by
  cases l with
  | nil => simp [runs] at h
  | cons a l => exact lt_of_mem_runsAfter l Nat.zero_lt_one r h

/-- Every run ends within the list. -/
theorem le_length_of_mem_runs {r : α × ℕ × ℕ} (h : r ∈ runs l) : r.2.2 ≤ l.length := by
  have hlt := lt_of_mem_runs h
  have hlast : r.2.2 - 1 ∈ (runs l).flatMap (fun r => indices r.2) :=
    List.mem_flatMap.mpr ⟨r, h, List.mem_range'_1.mpr ⟨by omega, by omega⟩⟩
  rw [flatMap_indices_runs, List.mem_range] at hlast
  omega

/-- The runs are in order: each ends at or before every later one starts. -/
theorem pairwise_runs (l : List α) : (runs l).Pairwise fun r r' => r.2.2 ≤ r'.2.1 := by
  -- adjacent non-empty runs also start one after another, which makes the relation transitive
  have hchain : (runs l).IsChain fun r r' => r.2.2 ≤ r'.2.1 ∧ r.2.1 < r'.2.1 := by
    refine (chain_adjacent_runs l).imp_of_mem_imp fun r r' hr _ h => ⟨h.le, ?_⟩
    have := lt_of_mem_runs hr
    omega
  have htrans : Trans (fun r r' : α × ℕ × ℕ => r.2.2 ≤ r'.2.1 ∧ r.2.1 < r'.2.1)
      (fun r r' : α × ℕ × ℕ => r.2.2 ≤ r'.2.1 ∧ r.2.1 < r'.2.1)
      (fun r r' : α × ℕ × ℕ => r.2.2 ≤ r'.2.1 ∧ r.2.1 < r'.2.1) :=
    ⟨fun h₁ h₂ => ⟨by omega, by omega⟩⟩
  exact hchain.pairwise.imp (·.1)

/-- Indices counted from `s + d` are those counted from `s`, moved by `d`. -/
theorem map_add_indicesOf (k : α) (d : ℕ) (l : List α) :
    ∀ s, (indicesOf k s l).map (· + d) = indicesOf k (s + d) l := by
  induction l with
  | nil => intro s; rfl
  | cons a l ih =>
    intro s
    rw [indicesOf_cons, indicesOf_cons, List.map_append, ih, Nat.add_right_comm]
    by_cases h : a = k <;> simp [h]

theorem chain_ne_runs (l : List α) : List.IsChain (fun r r' => r.1 ≠ r'.1) (runs l) := by
  cases l with
  | nil => exact List.IsChain.nil
  | cons a l => exact chain_ne_runsAfter l

/-- The ranges of the runs of `k` hold exactly the indices of the elements equal to `k`. -/
theorem flatMap_indices_filter_runs (k : α) (l : List α) :
    ((runs l).filter (fun r => r.1 = k)).flatMap (fun r => indices r.2) = indicesOf k 0 l := by
  cases l with
  | nil => rfl
  | cons a l =>
    rw [runs, flatMap_indices_filter_runsAfter k l (Nat.zero_le 1)]
    rfl

/-- Every index of a run holds the run's element. -/
theorem getElem?_of_mem_runs {r : α × ℕ × ℕ} (hr : r ∈ runs l) {i : ℕ}
    (hi : i ∈ indices r.2) : l[i]? = some r.1 := by
  have hmem : i ∈ ((runs l).filter (fun r' => r'.1 = r.1)).flatMap (fun r' => indices r'.2) :=
    List.mem_flatMap.mpr ⟨r, List.mem_filter.mpr ⟨hr, by simp⟩, hi⟩
  rw [flatMap_indices_filter_runs, mem_indicesOf, Nat.sub_zero] at hmem
  exact hmem.2

/-- Every element of a list is the element of one of its runs. -/
theorem exists_mem_runs_of_mem {x : α} (hx : x ∈ l) : ∃ r ∈ runs l, r.1 = x := by
  obtain ⟨i, hi, rfl⟩ := List.getElem_of_mem hx
  have hmem : i ∈ indicesOf l[i] 0 l := mem_indicesOf.2 ⟨Nat.zero_le i, by simp [hi]⟩
  rw [← flatMap_indices_filter_runs] at hmem
  obtain ⟨r, hr, -⟩ := List.mem_flatMap.1 hmem
  obtain ⟨hr, hk⟩ := List.mem_filter.1 hr
  exact ⟨r, hr, of_decide_eq_true hk⟩

end Runs

/-! ### The entries of ranges of a list

A list `xs` holds the entries `rows` of a list `s` when `xs.map some = rows.map (s[·]?)`: the
slices of `s` by ranges hold the entries of their indices, and a copy range by range appends
them (`foldlM_ranges`). -/

section Ranges

variable {α : Type}

theorem map_some_drop_take (s : List α) {a b : ℕ} (hab : a ≤ b) (hb : b ≤ s.length) :
    ((s.drop a).take (b - a)).map some = (indices (a, b)).map (s[·]?) := by
  apply List.ext_getElem
  · simp [indices]
    omega
  · intro t h₁ h₂
    simp only [List.length_map, List.length_take, List.length_drop] at h₁
    simp only [List.getElem_map, List.getElem_take, List.getElem_drop, indices,
      List.getElem_range', Nat.one_mul]
    rw [List.getElem?_eq_getElem (by omega)]

theorem map_some_flatMap_slices (s : List α) {ranges : List (ℕ × ℕ)}
    (hr : ∀ r ∈ ranges, r.1 ≤ r.2 ∧ r.2 ≤ s.length) :
    (ranges.flatMap fun r => (s.drop r.1).take (r.2 - r.1)).map some =
      (ranges.flatMap indices).map (s[·]?) := by
  rw [List.map_flatMap, List.map_flatMap]
  exact List.flatMap_congr fun r hr' => map_some_drop_take s (hr r hr').1 (hr r hr').2

theorem map_some_eq_map_range (s : List α) : s.map some = (List.range s.length).map (s[·]?) := by
  apply List.ext_getElem <;> simp

theorem length_of_map_some {xs s : List α} {rows : List ℕ} (h : xs.map some = rows.map (s[·]?)) :
    xs.length = rows.length := by
  simpa using congrArg List.length h

theorem getElem?_of_map_some {xs s : List α} {rows : List ℕ} (h : xs.map some = rows.map (s[·]?))
    {t : ℕ} (ht : t < rows.length) : xs[t]? = s[rows[t]]? := by
  have hat := congrArg (·[t]?) h
  simp only [List.getElem?_map, List.getElem?_eq_getElem ht, Option.map_some] at hat
  cases hx : xs[t]? with
  | none =>
    rw [hx] at hat
    cases hat
  | some x =>
    rw [hx] at hat
    exact Option.some.inj hat

/-- The run lemma of a copy range by range: when each step appends the entries of its range
and keeps `R`, the copy of the ranges appends those of each in turn. -/
theorem foldlM_ranges {β : Type} (R : β → List α → Prop) (step : β → ℕ × ℕ → Option β)
    {src : List α}
    (hstep : ∀ b l r, R b l → r.1 ≤ r.2 → r.2 ≤ src.length →
      ∃ b', step b r = some b' ∧ R b' (l ++ (src.drop r.1).take (r.2 - r.1))) :
    ∀ (ranges : List (ℕ × ℕ)) (b : β) (l : List α), R b l →
      (∀ r ∈ ranges, r.1 ≤ r.2 ∧ r.2 ≤ src.length) →
      ∃ b', ranges.foldlM step b = some b' ∧
        R b' (l ++ ranges.flatMap fun r => (src.drop r.1).take (r.2 - r.1))
  | [], b, l, h, _ => ⟨b, rfl, by simpa using h⟩
  | r :: ranges, b, l, h, hr => by
    obtain ⟨b₁, h₁, hR₁⟩ := hstep b l r h (hr r List.mem_cons_self).1 (hr r List.mem_cons_self).2
    obtain ⟨b₂, h₂, hR₂⟩ := foldlM_ranges R step hstep ranges b₁ _ hR₁
      fun r' h' => hr r' (List.mem_cons_of_mem r h')
    refine ⟨b₂, by simp [List.foldlM_cons, h₁, h₂], ?_⟩
    simpa [List.append_assoc] using hR₂

end Ranges

/-! ### Runs as groups

Read off by their ranges, the runs are the groups of Mathlib's `List.splitBy`; and the
groups of a concatenation are those of its left part, with only the last one reopened. -/

section Groups

variable {α β : Type} [DecidableEq α]

/-- The run pending over `p`, which stands after `pre`, completed with `l`: read off the
whole list by their ranges, the runs of the images are the groups of `p ++ l` with equal
images. The induction is on `l`; a new run moves the pending one into `pre`. -/
theorem map_slice_runsAfter (f : β → α) :
    ∀ (l pre p : List β) {a : α}, p ≠ [] → (∀ x ∈ p, f x = a) →
      (runsAfter (a, pre.length, pre.length + p.length) (l.map f)).map
          (fun r => ((pre ++ p ++ l).drop r.2.1).take (r.2.2 - r.2.1)) =
        (p ++ l).splitBy fun x y => decide (f x = f y)
  | [], pre, p, a, hp, hpa => by
    have hchain : p.IsChain fun x y => decide (f x = f y) :=
      (List.pairwise_of_forall_mem_list fun x hx y hy => by simp [hpa x hx, hpa y hy]).isChain
    simp only [List.append_nil, List.splitBy_of_isChain hp hchain]
    simp [runsAfter]
  | b :: l, pre, p, a, hp, hpa => by
    by_cases hb : f b = a
    · -- `b` extends the pending run
      have ih := map_slice_runsAfter f l pre (p ++ [b]) (by simp)
        (by intro x hx; rcases List.mem_append.1 hx with hx | hx
            · exact hpa x hx
            · rw [List.mem_singleton.1 hx, hb])
      rw [List.map_cons, hb, runsAfter_cons_same]
      simpa [Nat.add_assoc] using ih
    · -- `b` starts a new run; the pending one is the first group
      have ih := map_slice_runsAfter f l (pre ++ p) [b] (List.cons_ne_nil b []) (a := f b)
        (by simp)
      have hlast : ∀ x ∈ p.getLast?, decide (f x = f b) = false := by
        intro x hx
        simp [hpa x (List.mem_of_mem_getLast? hx), Ne.symm hb]
      rw [List.map_cons, runsAfter_cons_ne _ hb, List.map_cons, List.splitBy_append_cons _ hlast,
        List.splitBy_of_isChain hp
          (List.pairwise_of_forall_mem_list fun x hx y hy => by simp [hpa x hx, hpa y hy]).isChain]
      simp only [List.length_append, List.length_singleton, List.append_assoc,
        List.singleton_append] at ih
      simp [ih]

/-- The runs of the images of `l` under `f`, read off `l` by their ranges, are the maximal
runs of elements of `l` with equal images. -/
theorem map_slice_runs_map (f : β → α) (l : List β) :
    (runs (l.map f)).map (fun r => (l.drop r.2.1).take (r.2.2 - r.2.1)) =
      l.splitBy fun x y => decide (f x = f y) := by
  cases l with
  | nil => rfl
  | cons b l =>
    simpa [runs] using map_slice_runsAfter f l [] [b] (List.cons_ne_nil b []) (a := f b) (by simp)

omit [DecidableEq α] in
/-- The groups of `l ++ m` are those of `l` with the last one reopened: the groups before
the last are kept, and the last is split again together with `m`. -/
theorem splitBy_append_reopen_of_ne_nil {r : α → α → Bool} {l : List α} (m : List α)
    (hl : l ≠ []) :
    (l ++ m).splitBy r =
      (l.splitBy r).dropLast ++ ((l.splitBy r).getLast (List.splitBy_ne_nil.2 hl) ++ m).splitBy r := by
  set G := l.splitBy r with hG
  have hGne : G ≠ [] := List.splitBy_ne_nil.2 hl
  set L := G.getLast hGne
  have hL : L ≠ [] := List.ne_nil_of_mem_splitBy (List.getLast_mem hGne)
  have hsplit : l.splitBy r = G.dropLast ++ [L] := (List.dropLast_append_getLast hGne).symm
  obtain ⟨hflat, hnil, hchain, hadj⟩ := List.splitBy_eq_iff.1 hsplit
  rw [List.splitBy_eq_iff]
  refine ⟨?_, ?_, ?_, ?_⟩
  · -- the groups still join to the list
    have hl' : G.dropLast.flatten ++ L = l := by
      rw [hflat, List.flatten_append, List.flatten_singleton]
    rw [List.flatten_append, List.flatten_splitBy, ← List.append_assoc, hl']
  · -- no group is empty
    simp only [List.mem_append, not_or]
    exact ⟨fun h => hnil (List.mem_append_left _ h), List.nil_notMem_splitBy r _⟩
  · -- every group is a chain
    intro g hg
    rcases List.mem_append.1 hg with hg | hg
    · exact hchain g (List.mem_append_left _ hg)
    · exact List.isChain_of_mem_splitBy hg
  · -- the boundary before the reopened groups is the one before the last group
    rw [List.isChain_append] at hadj ⊢
    refine ⟨hadj.1, List.isChain_getLast_head_splitBy r _, ?_⟩
    intro x hx y hy
    obtain ⟨hx', _, hxL⟩ := hadj.2.2 x hx L (by simp)
    have hLm : L ++ m ≠ [] := by simp [hL]
    have hy' := (List.head_eq_iff_head?_eq_some (List.splitBy_ne_nil.2 hLm)).2 hy
    subst hy'
    refine ⟨hx', List.ne_nil_of_mem_splitBy (List.head_mem _), ?_⟩
    rw [List.head_head_splitBy r hLm, List.head_append_of_ne_nil hL]
    exact hxL

omit [DecidableEq α] in
/-- `splitBy_append_reopen_of_ne_nil`, with the last group of `[]` read as `[]`. -/
theorem splitBy_append_reopen (r : α → α → Bool) (l m : List α) :
    (l ++ m).splitBy r =
      (l.splitBy r).dropLast ++ (((l.splitBy r).getLast?.getD []) ++ m).splitBy r := by
  by_cases hl : l = []
  · subst hl
    simp
  · rw [splitBy_append_reopen_of_ne_nil m hl,
      List.getLast?_eq_some_getLast (List.splitBy_ne_nil.2 hl), Option.getD_some]

omit [DecidableEq α] in
/-- While the first groups have one element each, the first elements are those groups. -/
theorem take_flatten_of_length_eq_one :
    ∀ (G : List (List β)) (k : ℕ), (∀ g ∈ G.take k, g.length = 1) →
      G.flatten.take k = (G.take k).flatten
  | [], _, _ => by simp
  | _ :: _, 0, _ => by simp
  | g :: G, k + 1, h => by
    obtain ⟨x, rfl⟩ := List.length_eq_one_iff.1 (h g (by simp))
    have ih := take_flatten_of_length_eq_one G k fun g' hg' => h g' (by simp [hg'])
    simp [ih]

end Groups

end Runs

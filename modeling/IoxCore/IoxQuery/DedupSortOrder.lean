import IoxCore.Schema.Sort
import Mathlib.Data.List.Sort
import Mathlib.Data.List.Dedup
import Mathlib.Data.String.Basic

/-!
# iox_query: the sort order vote of `DedupSortOrder`

A model of the physical optimizer rule `DedupSortOrder`
(src/iox_query/src/physical_optimizer/dedup/dedup_sort_order.rs). Over a `DeduplicateExec` that
reads a set of chunks, the rule picks a new sort key for the deduplication: it places the sort
columns one at a time, each time the column that the most chunks have next. A chunk has a column
next when the column comes first among the chunk's sort columns not yet placed, or when the
chunk's sort key lacks it. Ties go to a column other than `time`, and then to the smaller name.

## The model

A chunk's sort key is the list of its column names; the rule asserts that every option is the
default, which is not modelled. A chunk without a sort key has the empty one. The node is its
sort keys, its chunk order flag and the sort keys of the chunks `extract_chunks` finds under it;
the model starts after that extraction. The order of the node's `HashSet` of sort columns does
not reach the result: the candidates are sorted by a key that ends with the column's distinct
name. `arrow_sort_key_exprs` keeps every column of the new key.

## What is proved

`dedupSortOrder_vote` puts the two halves together. `dedupSortOrder_spec`: the rule never
panics, the new sort key is a permutation of the old sort columns without `__chunk_order`, and
the chunk order flag is kept. `dedupSortOrder_keeps_chunk_orders`: when the chunks' sort keys use
only sort columns and some total order of them makes all of them increasing, every chunk's sort
key is a subsequence of the new one, so no chunk has to be sorted again. The greedy step chooses
a column every chunk has next (`votesFor_nextKey`): the head of a common order is one
(`votesFor_head`), and the choice maximizes the votes.
-/

namespace IoxCore.IoxQuery

open IoxCore.Schema

/-- `CHUNK_ORDER_COLUMN_NAME`. -/
def chunkOrderColumnName : String := "__chunk_order"

/-! ### The vote -/

/-- A chunk's vote for a column: the column is first among the chunk's remaining sort columns,
or not among them at all. -/
def votesFor (chunkSortKey : List String) (col : String) : Bool :=
  match chunkSortKey.idxOf? col with
  | some 0 => true
  | some _ => false
  | none => true

/-- The number of chunks that vote for a column. -/
def candidateCount (chunkSortKeys : List (List String)) (col : String) : ℕ :=
  (chunkSortKeys.filter fun chunkSortKey => votesFor chunkSortKey col).length

/-- The order `sorted` puts the candidates in, on `(Reverse(count), col == TIME_COLUMN_NAME, col)`:
more votes first, then a column other than `time`, then the smaller name. -/
def candidateLe (a b : ℕ × Bool × String) : Bool :=
  decide (b.1 < a.1) ||
    (a.1 == b.1 && ((!a.2.1 && b.2.1) || (a.2.1 == b.2.1 && decide (a.2.2 ≤ b.2.2))))

/-- The candidates of one turn, in the order of `sorted`. -/
def sortedCandidates (todo : List String) (chunkSortKeys : List (List String)) :
    List (ℕ × Bool × String) :=
  (todo.map fun col => (candidateCount chunkSortKeys col, col == timeColumnName, col)).mergeSort
    candidateLe

/-- The column placed next: the first candidate. -/
def nextKey (todo : List String) (chunkSortKeys : List (List String)) : Option String :=
  (sortedCandidates todo chunkSortKeys).head?.map (·.2.2)

theorem nextKey_mem {todo : List String} {chunkSortKeys : List (List String)} {next : String}
    (h : nextKey todo chunkSortKeys = some next) : next ∈ todo := by
  obtain ⟨c, hc, rfl⟩ := Option.map_eq_some_iff.1 h
  have hmem : c ∈ todo.map fun col => (candidateCount chunkSortKeys col, col == timeColumnName, col) :=
    (List.mergeSort_perm _ _).subset (List.mem_of_head? hc)
  obtain ⟨col, hcol, rfl⟩ := List.mem_map.1 hmem
  exact hcol

/-- `shift_remove_full` of a placed column from every chunk's sort key: the other columns keep
their order. -/
def removePlaced (next : String) (chunkSortKeys : List (List String)) : List (List String) :=
  chunkSortKeys.map (·.erase next)

/-- The `while` loop of the rule: place the chosen column, take it out of every chunk's sort key
and out of the columns still to place. -/
def voteLoop (todo : List String) (chunkSortKeys : List (List String)) (b : SortKeyBuilder) :
    Except Failure SortKeyBuilder :=
  if todo.isEmpty then .ok b
  else
    match h : nextKey todo chunkSortKeys with
    | none => .error .panic
    | some next =>
      have : (todo.erase next).length < todo.length := by
        rw [List.length_erase_of_mem (nextKey_mem h)]
        exact Nat.sub_lt (List.length_pos_of_mem (nextKey_mem h)) Nat.one_pos
      voteLoop (todo.erase next) (removePlaced next chunkSortKeys) (b.withCol next)
termination_by todo.length

/-- A `DeduplicateExec` over chunks: its sort keys, whether it sorts on `__chunk_order` last,
and the sort keys of its chunks. -/
structure DeduplicateExec where
  sortKeys : List String
  useChunkOrderCol : Bool
  chunkSortKeys : List (Option (List String))

/-- `DeduplicateExec::new` puts `__chunk_order` after the sort keys when it is used. -/
def DeduplicateExec.inputOrder (d : DeduplicateExec) : List String :=
  if d.useChunkOrderCol then d.sortKeys ++ [chunkOrderColumnName] else d.sortKeys

/-- `DeduplicateExec::sort_columns`: the `HashSet` of the input order's columns. -/
def DeduplicateExec.sortColumns (d : DeduplicateExec) : List String := d.inputOrder.dedup

/-- `DedupSortOrder::optimize` on one `DeduplicateExec`: the vote over the sort columns without
`__chunk_order`, and a new node on the same chunks with the voted key. -/
def dedupSortOrder (d : DeduplicateExec) : Except Failure DeduplicateExec :=
  let chunkSortKeys := d.chunkSortKeys.map (·.getD [])
  let todoPkColumns := d.sortColumns.erase chunkOrderColumnName
  (voteLoop todoPkColumns chunkSortKeys SortKeyBuilder.withCapacity).map fun quorum =>
    { sortKeys := quorum.build.toColumns, useChunkOrderCol := d.useChunkOrderCol,
      chunkSortKeys := d.chunkSortKeys }

/-! ### The order of the candidates -/

theorem candidateLe_trans (a b c : ℕ × Bool × String) :
    candidateLe a b = true → candidateLe b c = true → candidateLe a c = true := by
  obtain ⟨n₁, t₁, s₁⟩ := a
  obtain ⟨n₂, t₂, s₂⟩ := b
  obtain ⟨n₃, t₃, s₃⟩ := c
  simp only [candidateLe, Bool.or_eq_true, decide_eq_true_eq, Bool.and_eq_true, beq_iff_eq,
    Bool.not_eq_true']
  intro h₁ h₂
  rcases h₁ with h₁ | ⟨rfl, h₁⟩ <;> rcases h₂ with h₂ | ⟨rfl, h₂⟩
  · exact .inl (by omega)
  · exact .inl h₁
  · exact .inl h₂
  · refine .inr ⟨rfl, ?_⟩
    -- equal counts: the flag decides, and then the name
    cases t₁ <;> cases t₂ <;> cases t₃ <;> simp at h₁ h₂ ⊢ <;> exact le_trans h₁ h₂

theorem candidateLe_total (a b : ℕ × Bool × String) : (candidateLe a b || candidateLe b a) = true := by
  obtain ⟨n₁, t₁, s₁⟩ := a
  obtain ⟨n₂, t₂, s₂⟩ := b
  simp only [candidateLe, Bool.or_eq_true, decide_eq_true_eq, Bool.and_eq_true, beq_iff_eq,
    Bool.not_eq_true']
  rcases lt_trichotomy n₁ n₂ with h | rfl | h
  · exact .inr (.inl h)
  · cases t₁ <;> cases t₂ <;> rcases le_total s₁ s₂ with h | h <;> simp [h]
  · exact .inl (.inl h)

theorem pairwise_sortedCandidates (todo : List String) (chunkSortKeys : List (List String)) :
    (sortedCandidates todo chunkSortKeys).Pairwise fun a b => candidateLe a b = true :=
  List.pairwise_mergeSort candidateLe_trans candidateLe_total _

/-! ### The loop places every column once -/

/-- A turn with columns left always finds one to place. -/
theorem nextKey_isSome {todo : List String} (h : todo ≠ []) (chunkSortKeys : List (List String)) :
    (nextKey todo chunkSortKeys).isSome := by
  obtain ⟨col, hcol⟩ := List.exists_mem_of_ne_nil _ h
  have hmem : (candidateCount chunkSortKeys col, col == timeColumnName, col) ∈
      sortedCandidates todo chunkSortKeys :=
    (List.mergeSort_perm _ _).symm.subset (List.mem_map_of_mem hcol)
  cases hs : sortedCandidates todo chunkSortKeys with
  | nil => simp [hs] at hmem
  | cons c cs => simp [nextKey, hs]

/-- The loop appends the columns to place, in some order, to the key built so far. -/
theorem voteLoop_perm (todo : List String) (chunkSortKeys : List (List String))
    (b : SortKeyBuilder) (hnd : todo.Nodup) (hdisj : ∀ c ∈ todo, c ∉ b.columns.keys) :
    ∃ order, order.Perm todo ∧ ∃ b', voteLoop todo chunkSortKeys b = .ok b' ∧
      b'.columns.keys = b.columns.keys ++ order := by
  fun_induction voteLoop todo chunkSortKeys b with
  | case1 todo keys b hempty =>
    refine ⟨[], ?_, b, rfl, by simp⟩
    simp only [List.isEmpty_iff] at hempty
    simp [hempty]
  | case2 todo keys b hne hnone =>
    exact absurd hnone (Option.ne_none_iff_isSome.2 (nextKey_isSome (by simpa using hne) keys))
  | case3 todo keys b hne next hnext hlt ih =>
    have hmem := nextKey_mem hnext
    have hkeys : (b.withCol next).columns.keys = b.columns.keys ++ [next] :=
      IndexMap.keys_insert_of_not_mem _ (hdisj next hmem)
    obtain ⟨order, hperm, b', hloop, hb'⟩ := ih (hnd.erase next) fun c hc => by
      rw [hkeys, List.mem_append, List.mem_singleton, not_or]
      exact ⟨hdisj c ((List.erase_subset) hc), fun h => (hnd.mem_erase_iff.1 (h ▸ hc)).1 rfl⟩
    refine ⟨next :: order, ?_, b', hloop, by rw [hb', hkeys]; simp⟩
    exact (hperm.cons next).trans (List.perm_cons_erase hmem).symm

/-! ### A common order survives the vote -/

theorem votesFor_iff (chunkSortKey : List String) (col : String) :
    votesFor chunkSortKey col = true ↔ col ∉ chunkSortKey ∨ chunkSortKey.head? = some col := by
  cases chunkSortKey with
  | nil => simp [votesFor]
  | cons a k =>
    unfold votesFor
    rw [List.idxOf?_cons]
    by_cases ha : a = col
    · simp [ha]
    · have hne : (a == col) = false := by simpa using ha
      rcases hk : k.idxOf? col with _ | i
      · simp [hne, ha, Ne.symm ha, List.idxOf?_eq_none_iff.1 hk]
      · have : col ∈ k := by
          by_contra hc
          rw [List.idxOf?_eq_none_iff.2 hc] at hk
          cases hk
        simp [hne, ha, this]

/-- The first column of a common order is a column that every chunk has next. -/
theorem votesFor_head {y : String} {order : List String} (hnd : (y :: order).Nodup)
    {chunkSortKey : List String} (h : chunkSortKey.Sublist (y :: order)) :
    votesFor chunkSortKey y = true := by
  rw [votesFor_iff]
  rcases List.sublist_cons_iff.1 h with h | ⟨r, rfl, -⟩
  · exact .inl fun hy => (List.nodup_cons.1 hnd).1 (h.subset hy)
  · exact .inr rfl

/-- A column that every chunk votes for has the most votes possible. -/
theorem candidateCount_eq_length {chunkSortKeys : List (List String)} {col : String}
    (h : ∀ k ∈ chunkSortKeys, votesFor k col = true) :
    candidateCount chunkSortKeys col = chunkSortKeys.length := by
  rw [candidateCount, List.filter_eq_self.2 h]

/-- When the chunks' keys follow a common order of the columns to place, the column the vote
chooses is one that every chunk has next. It has at least the votes of the order's first
column, and that column has all of them. -/
theorem votesFor_nextKey {todo order : List String} {chunkSortKeys : List (List String)}
    {next : String} (hperm : order.Perm todo) (hnd : todo.Nodup)
    (hsub : ∀ k ∈ chunkSortKeys, k.Sublist order) (hnext : nextKey todo chunkSortKeys = some next) :
    ∀ k ∈ chunkSortKeys, votesFor k next = true := by
  obtain ⟨c, hc, rfl⟩ := Option.map_eq_some_iff.1 hnext
  cases order with
  | nil =>
    have : todo = [] := List.Perm.eq_nil hperm.symm
    subst this
    simp [nextKey, sortedCandidates] at hnext
  | cons y order =>
    have hy : ∀ k ∈ chunkSortKeys, votesFor k y = true :=
      fun k hk => votesFor_head (hperm.nodup_iff.2 hnd) (hsub k hk)
    -- the chosen candidate has at least the votes of `y`
    have hymem : (candidateCount chunkSortKeys y, y == timeColumnName, y) ∈
        sortedCandidates todo chunkSortKeys :=
      (List.mergeSort_perm _ _).symm.subset
        (List.mem_map_of_mem (hperm.subset List.mem_cons_self))
    obtain ⟨cs, hcs⟩ := List.head?_eq_some_iff.1 hc
    have hge : candidateCount chunkSortKeys y ≤ c.1 := by
      have hpw := pairwise_sortedCandidates todo chunkSortKeys
      rw [hcs] at hpw hymem
      rcases List.mem_cons.1 hymem with heq | hin
      · rw [← heq]
      · have hle := List.rel_of_pairwise_cons hpw hin
        simp only [candidateLe, Bool.or_eq_true, decide_eq_true_eq, Bool.and_eq_true,
          beq_iff_eq] at hle
        omega
    -- and a candidate's count is the number of votes for its column
    have hcmem : c ∈ todo.map fun col =>
        (candidateCount chunkSortKeys col, col == timeColumnName, col) :=
      (List.mergeSort_perm _ _).subset (List.mem_of_head? hc)
    obtain ⟨col, -, rfl⟩ := List.mem_map.1 hcmem
    rw [candidateCount_eq_length hy] at hge
    have hall : (chunkSortKeys.filter fun k => votesFor k col).length = chunkSortKeys.length :=
      le_antisymm (List.length_filter_le _ _) hge
    intro k hk
    exact List.length_filter_eq_length_iff.1 hall k hk

/-- The run lemma of the vote: when the remaining chunk keys follow a common order of the
remaining columns, each of them is a subsequence of the columns the loop goes on to place. -/
theorem voteLoop_sublist (todo : List String) (chunkSortKeys : List (List String))
    (b : SortKeyBuilder) (hnd : todo.Nodup) (hdisj : ∀ c ∈ todo, c ∉ b.columns.keys)
    (hcommon : ∃ order, order.Perm todo ∧ ∀ k ∈ chunkSortKeys, k.Sublist order) :
    ∃ rest b', voteLoop todo chunkSortKeys b = .ok b' ∧ b'.columns.keys = b.columns.keys ++ rest ∧
      ∀ k ∈ chunkSortKeys, k.Sublist rest := by
  fun_induction voteLoop todo chunkSortKeys b with
  | case1 todo keys b hempty =>
    obtain ⟨order, hperm, hsub⟩ := hcommon
    have htodo : todo = [] := by simpa using hempty
    subst htodo
    have horder : order = [] := List.Perm.eq_nil hperm
    subst horder
    exact ⟨[], b, rfl, by simp, hsub⟩
  | case2 todo keys b hne hnone =>
    exact absurd hnone (Option.ne_none_iff_isSome.2 (nextKey_isSome (by simpa using hne) keys))
  | case3 todo keys b hne next hnext hlt ih =>
    obtain ⟨order, hperm, hsub⟩ := hcommon
    have hmem := nextKey_mem hnext
    have hvotes := votesFor_nextKey hperm hnd hsub hnext
    have hkeys : (b.withCol next).columns.keys = b.columns.keys ++ [next] :=
      IndexMap.keys_insert_of_not_mem _ (hdisj next hmem)
    -- the common order, without the placed column, still serves the rest
    have hcommon' : ∃ order', order'.Perm (todo.erase next) ∧
        ∀ k ∈ removePlaced next keys, k.Sublist order' := by
      refine ⟨order.erase next, hperm.erase next, fun k hk => ?_⟩
      obtain ⟨k₀, hk₀, rfl⟩ := List.mem_map.1 hk
      exact (hsub k₀ hk₀).erase next
    obtain ⟨rest, b', hloop, hb', hrest⟩ := ih (hnd.erase next) (fun c hc => by
      rw [hkeys, List.mem_append, List.mem_singleton, not_or]
      exact ⟨hdisj c ((List.erase_subset) hc), fun h => (hnd.mem_erase_iff.1 (h ▸ hc)).1 rfl⟩)
      hcommon'
    refine ⟨next :: rest, b', hloop, by rw [hb', hkeys]; simp, fun k hk => ?_⟩
    -- each chunk had `next` first or not at all
    have hk' := hrest (k.erase next) (List.mem_map_of_mem hk)
    rcases (votesFor_iff k next).1 (hvotes k hk) with hnot | hhead
    · rw [List.erase_of_not_mem hnot] at hk'
      exact hk'.cons next
    · obtain ⟨r, rfl⟩ : ∃ r, k = next :: r := by
        cases k with
        | nil => simp at hhead
        | cons a r => simp only [List.head?_cons, Option.some.injEq] at hhead; exact ⟨r, by rw [hhead]⟩
      rw [List.erase_cons_head] at hk'
      exact hk'.cons_cons next

/-! ### The rule -/

/-- **`DedupSortOrder` on a deduplication over chunks.** It never panics, the new sort key is a
permutation of the sort columns other than `__chunk_order`, and the chunk order flag is kept. -/
theorem dedupSortOrder_spec (d : DeduplicateExec) :
    ∃ d', dedupSortOrder d = .ok d' ∧
      d'.sortKeys.Perm (d.sortColumns.erase chunkOrderColumnName) ∧
      d'.useChunkOrderCol = d.useChunkOrderCol ∧ d'.chunkSortKeys = d.chunkSortKeys := by
  obtain ⟨order, hperm, b', hloop, hb'⟩ := voteLoop_perm (d.sortColumns.erase chunkOrderColumnName)
    (d.chunkSortKeys.map (·.getD [])) SortKeyBuilder.withCapacity
    ((List.nodup_dedup _).erase _) (by simp [SortKeyBuilder.withCapacity])
  refine ⟨⟨b'.build.toColumns, d.useChunkOrderCol, d.chunkSortKeys⟩,
    by simp [dedupSortOrder, hloop, Except.map], ?_, rfl, rfl⟩
  simpa [SortKey.toColumns, SortKeyBuilder.build, hb', SortKeyBuilder.withCapacity] using hperm

/-- Lists that one strict total order makes increasing, on the elements of a duplicate-free list
`P`, are all subsequences of one arrangement of `P`: `P` sorted by that order. -/
theorem exists_perm_sublist_of_pairwise (r : String → String → Prop) [IsStrictTotalOrder String r]
    {P : List String} (hP : P.Nodup) {keys : List (List String)}
    (hkeys : ∀ k ∈ keys, k.Nodup ∧ k ⊆ P) (hsorted : ∀ k ∈ keys, k.Pairwise r) :
    ∃ order, order.Perm P ∧ ∀ k ∈ keys, k.Sublist order := by
  classical
  -- sort by the reflexive order `¬ r b a`, which is total and transitive
  let rc : String → String → Prop := fun a b => ¬ r b a
  have : Std.Total rc := ⟨fun a b => by
    by_contra h
    simp only [rc, not_or, not_not] at h
    exact asymm h.1 h.2⟩
  have : IsTrans String rc := ⟨fun a b c hab hbc hca => by
    rcases trichotomous_of r a b with h | rfl | h
    · exact hbc (trans_of r hca h)
    · exact hbc hca
    · exact hab h⟩
  have : Std.Antisymm r := ⟨fun _ _ h₁ h₂ => (asymm h₁ h₂).elim⟩
  have hperm : (P.insertionSort rc).Perm P := List.perm_insertionSort rc P
  -- on distinct elements the reflexive order is the strict one
  have hsortedP : (P.insertionSort rc).Pairwise r := by
    refine ((List.pairwise_insertionSort rc P).and (hperm.nodup_iff.2 hP)).imp ?_
    rintro a b ⟨hab, hne⟩
    rcases trichotomous_of r a b with h | h | h
    · exact h
    · exact absurd h hne
    · exact absurd h hab
  refine ⟨P.insertionSort rc, hperm, fun k hk => ?_⟩
  have hsub : k.Subperm (P.insertionSort rc) :=
    List.subperm_of_subset (hkeys k hk).1 fun x hx => hperm.symm.subset ((hkeys k hk).2 hx)
  exact List.sublist_of_subperm_of_pairwise hsub (hsorted k hk) hsortedP

/-- **No chunk is re-sorted when the chunks agree.** If the chunks' sort keys use only sort
columns and some strict total order of the columns makes all of them increasing, each of them is
a subsequence of the new sort key. -/
theorem dedupSortOrder_keeps_chunk_orders (d : DeduplicateExec)
    (hkeys : ∀ k ∈ d.chunkSortKeys, ∀ key ∈ k, key.Nodup ∧
      ∀ c ∈ key, c ∈ d.sortColumns.erase chunkOrderColumnName)
    (r : String → String → Prop) [IsStrictTotalOrder String r]
    (horder : ∀ k ∈ d.chunkSortKeys, ∀ key ∈ k, key.Pairwise r) :
    ∃ d', dedupSortOrder d = .ok d' ∧
      ∀ k ∈ d.chunkSortKeys, ∀ key ∈ k, key.Sublist d'.sortKeys := by
  have hnd : (d.sortColumns.erase chunkOrderColumnName).Nodup := (List.nodup_dedup _).erase _
  -- a chunk without a sort key votes with the empty one
  have hgetD : ∀ k ∈ d.chunkSortKeys.map (·.getD []), k.Nodup ∧
      k ⊆ d.sortColumns.erase chunkOrderColumnName ∧ k.Pairwise r := by
    intro k hk
    obtain ⟨o, ho, rfl⟩ := List.mem_map.1 hk
    cases o with
    | none => simp
    | some key => exact ⟨(hkeys _ ho key rfl).1, (hkeys _ ho key rfl).2, horder _ ho key rfl⟩
  obtain ⟨order, hperm, hsub⟩ := exists_perm_sublist_of_pairwise r hnd
    (fun k hk => ⟨(hgetD k hk).1, (hgetD k hk).2.1⟩) fun k hk => (hgetD k hk).2.2
  obtain ⟨rest, b', hloop, hb', hrest⟩ := voteLoop_sublist _ _ SortKeyBuilder.withCapacity hnd
    (by simp [SortKeyBuilder.withCapacity]) ⟨order, hperm, hsub⟩
  refine ⟨⟨b'.build.toColumns, d.useChunkOrderCol, d.chunkSortKeys⟩,
    by simp [dedupSortOrder, hloop, Except.map], fun k hk key hkey => ?_⟩
  have hcols : b'.build.toColumns = rest := by
    simpa [SortKey.toColumns, SortKeyBuilder.build, SortKeyBuilder.withCapacity] using hb'
  rw [hcols]
  obtain rfl : k = some key := hkey
  exact hrest key (List.mem_map.2 ⟨some key, hk, rfl⟩)

/-- **The sort order vote.** The rule rewrites the node with a permutation of its sort columns
other than `__chunk_order` and keeps the chunk order flag. When the chunks' sort keys are
duplicate-free, use only those columns, and are all increasing for one strict total order,
each of them is a subsequence of the new sort key. -/
theorem dedupSortOrder_vote (d : DeduplicateExec) :
    ∃ d', dedupSortOrder d = .ok d' ∧
      d'.sortKeys.Perm (d.sortColumns.erase chunkOrderColumnName) ∧
      d'.useChunkOrderCol = d.useChunkOrderCol ∧
      ((∀ k ∈ d.chunkSortKeys, ∀ key ∈ k, key.Nodup ∧
          ∀ c ∈ key, c ∈ d.sortColumns.erase chunkOrderColumnName) →
        ∀ (r : String → String → Prop), IsStrictTotalOrder String r →
          (∀ k ∈ d.chunkSortKeys, ∀ key ∈ k, key.Pairwise r) →
          ∀ k ∈ d.chunkSortKeys, ∀ key ∈ k, key.Sublist d'.sortKeys) := by
  obtain ⟨d', hd', hperm, hflag, -⟩ := dedupSortOrder_spec d
  refine ⟨d', hd', hperm, hflag, fun hkeys r hr horder => ?_⟩
  obtain ⟨d'', hd'', hsub⟩ := dedupSortOrder_keeps_chunk_orders d hkeys r horder
  obtain rfl : d' = d'' := Except.ok.inj (hd'.symm.trans hd'')
  exact hsub

/-- Two chunks sorted on `host, time` and on `region, time` under a deduplication on `host`,
`region` and `time`: both orders survive. -/
theorem dedupSortOrder_keeps_host_and_region :
    ∃ d', dedupSortOrder ⟨["host", "region", timeColumnName], true,
        [some ["host", timeColumnName], some ["region", timeColumnName]]⟩ = .ok d' ∧
      ["host", timeColumnName].Sublist d'.sortKeys ∧
      ["region", timeColumnName].Sublist d'.sortKeys := by
  obtain ⟨d', hd', -, -, hsub⟩ := dedupSortOrder_vote
    ⟨["host", "region", timeColumnName], true,
      [some ["host", timeColumnName], some ["region", timeColumnName]]⟩
  have hkeys := hsub (by decide) (· < ·) inferInstance (by decide)
  exact ⟨d', hd', hkeys _ (by simp) _ rfl, hkeys _ (by simp) _ rfl⟩

end IoxCore.IoxQuery

import IoxCore.Partition.Keys

/-!
# The writes of a partitioned batch

`PartitionWrite::partition` groups the ranges of `partition_batch` by key: for
each key its ranges in order, the number of their rows and the least and
greatest of their timestamps. With `partitionBatch_eq_runs` this gives the
theorem of the partitioning (`partitionBatch_refines_rowKey`): the ranges cover
the rows in order, each row lies in a range of its own key, and each key's
write holds exactly the rows whose own key it is.

## The model

`writeOf time ranges` is the write of a key with the ranges `ranges`, computed
from the ranges as a whole. The loop's invariant (`WritesOf`) is that the map
after some pairs holds each of their keys once, in some order, with the write
of its ranges; `upsert_map` is the one fact about `upsert` it needs.
-/

namespace IoxCore.Partition

open Runs

/-! ### Folds of `min` and `max` -/

section Fold

variable {α : Type} [LinearOrder α]

theorem foldl_min_le (l : List α) (a : α) : l.foldl min a ≤ a := by
  rw [List.foldl_min]
  exact min_le_left _ _

theorem le_foldl_max (l : List α) (a : α) : a ≤ l.foldl max a := by
  rw [List.foldl_max]
  exact le_max_left _ _

/-- A fold of `min` from a smaller start is the `min` of that start and the fold. -/
theorem foldl_min_of_le {a b : α} (h : a ≤ b) (l : List α) :
    l.foldl min a = min a (l.foldl min b) := by
  rw [List.foldl_min, List.foldl_min]
  cases l.min? with
  | none => simp [min_eq_left h]
  | some m => simp [← min_assoc, min_eq_left h]

theorem foldl_max_of_le {a b : α} (h : b ≤ a) (l : List α) :
    l.foldl max a = max a (l.foldl max b) := by
  rw [List.foldl_max, List.foldl_max]
  cases l.max? with
  | none => simp [max_eq_left h]
  | some m => simp [← max_assoc, max_eq_left h]

end Fold

/-! ### The least and greatest timestamp -/

theorem minMaxTime_eq (l : List ℤ) : minMaxTime l = (l.foldl min i64Max, l.foldl max i64Min) := by
  -- the two folds of the pair run side by side
  have h : ∀ (l : List ℤ) (a b : ℤ),
      l.foldl (fun acc t => (min acc.1 t, max acc.2 t)) (a, b) = (l.foldl min a, l.foldl max b) := by
    intro l
    induction l with
    | nil => intro a b; rfl
    | cons x l ih => intro a b; exact ih _ _
  exact h l _ _

theorem minMaxTime_append (l₁ l₂ : List ℤ) :
    minMaxTime (l₁ ++ l₂) =
      (min (minMaxTime l₁).1 (minMaxTime l₂).1, max (minMaxTime l₁).2 (minMaxTime l₂).2) := by
  rw [minMaxTime_eq, minMaxTime_eq, minMaxTime_eq, List.foldl_append, List.foldl_append,
    foldl_min_of_le (foldl_min_le l₁ i64Max), foldl_max_of_le (le_foldl_max l₁ i64Min)]

/-- For timestamps of type `i64`, `min_max_time` of a non-empty list is its least and
greatest element. -/
theorem minMaxTime_eq_min?_max? {l : List ℤ} (hl : l ≠ [])
    (hb : ∀ x ∈ l, -2 ^ 63 ≤ x ∧ x < 2 ^ 63) :
    l.min? = some (minMaxTime l).1 ∧ l.max? = some (minMaxTime l).2 := by
  obtain ⟨a, l, rfl⟩ := List.exists_cons_of_ne_nil hl
  have ha := hb a List.mem_cons_self
  have hmin : min i64Max a = a := min_eq_right (by simp only [i64Max]; omega)
  have hmax : max i64Min a = a := max_eq_right (by simp only [i64Min]; omega)
  rw [minMaxTime_eq, List.min?_cons', List.max?_cons', List.foldl_cons, List.foldl_cons, hmin,
    hmax]
  exact ⟨rfl, rfl⟩

/-! ### Slices and writes -/

/-- The timestamps of a range of rows within the time column. -/
theorem slice_eq_map {time : List ℤ} {r : ℕ × ℕ} (h : r.2 ≤ time.length) :
    slice time r = (indices r).map (time.getD · 0) := by
  apply List.ext_getElem
  · simp only [slice, indices, List.length_take, List.length_drop, List.length_map,
      List.length_range']
    omega
  · intro i h₁ h₂
    have hi : i < r.2 - r.1 := by simpa [indices] using h₂
    simp only [slice, List.getElem_take, List.getElem_drop, indices, List.getElem_map,
      List.getElem_range', Nat.one_mul]
    rw [List.getD_eq_getElem _ _ (by omega)]

/-- The write of a key with the ranges `ranges`: the ranges, the least and greatest
timestamp of their rows and the number of their rows. -/
def writeOf (time : List ℤ) (ranges : List (ℕ × ℕ)) : PartitionWrite :=
  ⟨ranges, (minMaxTime (ranges.flatMap (slice time))).1,
    (minMaxTime (ranges.flatMap (slice time))).2, (ranges.map fun r => r.2 - r.1).sum⟩

/-- The ranges of the pairs with the key `key`, in order. -/
def rangesOf (key : List Char) (pairs : List (Except PartitionKeyError (List Char) × ℕ × ℕ)) :
    List (ℕ × ℕ) :=
  (pairs.filter fun p => p.1 = .ok key).map (·.2)

@[simp] theorem writeOf_ranges (time : List ℤ) (ranges : List (ℕ × ℕ)) :
    (writeOf time ranges).ranges = ranges := rfl

@[simp] theorem writeOf_minTimestamp (time : List ℤ) (ranges : List (ℕ × ℕ)) :
    (writeOf time ranges).minTimestamp = (minMaxTime (ranges.flatMap (slice time))).1 := rfl

@[simp] theorem writeOf_maxTimestamp (time : List ℤ) (ranges : List (ℕ × ℕ)) :
    (writeOf time ranges).maxTimestamp = (minMaxTime (ranges.flatMap (slice time))).2 := rfl

@[simp] theorem writeOf_rowCount (time : List ℤ) (ranges : List (ℕ × ℕ)) :
    (writeOf time ranges).rowCount = (ranges.map fun r => r.2 - r.1).sum := rfl

/-- The row count of a write is the number of rows of its ranges. -/
theorem writeOf_rowCount_eq (time : List ℤ) (ranges : List (ℕ × ℕ)) :
    (writeOf time ranges).rowCount = (ranges.flatMap indices).length := by
  rw [writeOf_rowCount, List.length_flatMap]
  simp only [indices, List.length_range']

/-- The slices of ranges within the time column are the timestamps of their rows. -/
theorem flatMap_slice_eq_map {time : List ℤ} {ranges : List (ℕ × ℕ)}
    (hle : ∀ r ∈ ranges, r.2 ≤ time.length) :
    ranges.flatMap (slice time) = (ranges.flatMap indices).map (time.getD · 0) := by
  rw [List.map_flatMap]
  exact List.flatMap_congr fun r hr => slice_eq_map (hle r hr)

theorem writeOf_singleton (time : List ℤ) (r : ℕ × ℕ) :
    writeOf time [r] =
      ⟨[r], (minMaxTime (slice time r)).1, (minMaxTime (slice time r)).2, r.2 - r.1⟩ := by
  simp [writeOf]

theorem writeOf_append_singleton (time : List ℤ) (ranges : List (ℕ × ℕ)) (r : ℕ × ℕ) :
    writeOf time (ranges ++ [r]) =
      ⟨ranges ++ [r], min (writeOf time ranges).minTimestamp (minMaxTime (slice time r)).1,
        max (writeOf time ranges).maxTimestamp (minMaxTime (slice time r)).2,
        (writeOf time ranges).rowCount + (r.2 - r.1)⟩ := by
  simp [writeOf, List.flatMap_append, minMaxTime_append]

theorem rangesOf_append_singleton (key k : List Char)
    (done : List (Except PartitionKeyError (List Char) × ℕ × ℕ)) (r : ℕ × ℕ) :
    rangesOf k (done ++ [(.ok key, r)]) = rangesOf k done ++ if key = k then [r] else [] := by
  by_cases h : key = k <;> simp [rangesOf, h]

/-! ### `PartitionWrite::partition` -/

/-- `upsert` into a map with each key once: the key's write grows by the range, or
the key is added at the end. -/
theorem upsert_map (key : List Char) (r : ℕ × ℕ) (mn mx : ℤ) (c : ℕ)
    (w : List Char → PartitionWrite) :
    ∀ {ks : List (List Char)}, ks.Nodup →
      upsert key r mn mx c (ks.map fun k => (k, w k)) =
        if key ∈ ks then
          ks.map fun k => (k, if k = key then
            ⟨(w k).ranges ++ [r], min (w k).minTimestamp mn, max (w k).maxTimestamp mx,
              (w k).rowCount + c⟩ else w k)
        else ks.map (fun k => (k, w k)) ++ [(key, ⟨[r], mn, mx, c⟩)]
  | [], _ => rfl
  | k :: ks, hks => by
    have hk : k ∉ ks := (List.nodup_cons.mp hks).1
    rw [List.map_cons, upsert]
    by_cases hkey : k = key
    · -- the key's entry; the keys after it are other keys
      subst hkey
      have hrest : ∀ k' ∈ ks, k' ≠ k := fun k' hk' h => hk (h ▸ hk')
      simp only [if_pos, List.mem_cons_self, List.map_cons, List.cons.injEq]
      refine ⟨trivial, List.map_congr_left fun k' hk' => ?_⟩
      rw [if_neg (hrest k' hk')]
    · rw [if_neg hkey, upsert_map key r mn mx c w (List.nodup_cons.mp hks).2]
      by_cases hmem : key ∈ ks
      · rw [if_pos hmem, if_pos (List.mem_cons_of_mem k hmem), List.map_cons, if_neg hkey]
      · have hmem' : key ∉ k :: ks := by
          rw [List.mem_cons, not_or]
          exact ⟨Ne.symm hkey, hmem⟩
        rw [if_neg hmem, if_neg hmem', List.cons_append]

/-- The map after the pairs `done`: each of their keys once, with the write of its
ranges. -/
def WritesOf (time : List ℤ) (done : List (Except PartitionKeyError (List Char) × ℕ × ℕ))
    (m : List (List Char × PartitionWrite)) : Prop :=
  ∃ ks : List (List Char), ks.Nodup ∧ (∀ k, k ∈ ks ↔ rangesOf k done ≠ []) ∧
    m = ks.map fun k => (k, writeOf time (rangesOf k done))

/-- The step lemma of the loop: the `upsert` of a pair keeps the invariant. -/
theorem writesOf_upsert {time : List ℤ} {done : List (Except PartitionKeyError (List Char) × ℕ × ℕ)}
    {m : List (List Char × PartitionWrite)} (hm : WritesOf time done m) (key : List Char)
    (r : ℕ × ℕ) :
    WritesOf time (done ++ [(.ok key, r)])
      (upsert key r (minMaxTime (slice time r)).1 (minMaxTime (slice time r)).2 (r.2 - r.1) m) := by
  obtain ⟨ks, hks, hmem, rfl⟩ := hm
  rw [upsert_map _ _ _ _ _ _ hks]
  by_cases hkey : key ∈ ks
  · -- a key seen before: its write grows by the range
    rw [if_pos hkey]
    refine ⟨ks, hks, fun k => ?_, List.map_congr_left fun k _ => ?_⟩
    · rw [hmem, rangesOf_append_singleton]
      by_cases h : key = k
      · subst h
        simpa using (hmem key).mp hkey
      · simp [h]
    · rw [rangesOf_append_singleton]
      by_cases h : k = key
      · subst h
        rw [if_pos rfl, if_pos rfl, writeOf_append_singleton]
        rfl
      · rw [if_neg h, if_neg (Ne.symm h), List.append_nil]
  · -- a new key: it has no ranges before this one
    rw [if_neg hkey]
    have hnone : rangesOf key done = [] := by
      by_contra h
      exact hkey ((hmem key).mpr h)
    refine ⟨ks ++ [key], ?_, fun k => ?_, ?_⟩
    · exact List.nodup_append.mpr ⟨hks, List.nodup_singleton key,
        fun a ha b hb => by rw [List.mem_singleton] at hb; subst hb; exact fun h => hkey (h ▸ ha)⟩
    · rw [List.mem_append, List.mem_singleton, hmem, rangesOf_append_singleton]
      by_cases h : key = k
      · subst h
        simp
      · simp [h, Ne.symm h]
    · rw [List.map_append, List.map_singleton, rangesOf_append_singleton, if_pos rfl, hnone,
        List.nil_append, writeOf_singleton]
      congr 1
      refine List.map_congr_left fun k hk => ?_
      have h : key ≠ k := fun h => hkey (h ▸ hk)
      rw [rangesOf_append_singleton, if_neg h, List.append_nil]

/-- The run lemma of the loop of `PartitionWrite::partition`: pairs with keys and
non-empty ranges are all added to the map. -/
theorem partitionLoop_writes (time : List ℤ) :
    ∀ (pairs : List (Except PartitionKeyError (List Char) × ℕ × ℕ))
      {done : List (Except PartitionKeyError (List Char) × ℕ × ℕ)}
      {m : List (List Char × PartitionWrite)},
      (∀ p ∈ pairs, ∃ key, p.1 = .ok key) → (∀ p ∈ pairs, p.2.1 < p.2.2) →
      WritesOf time done m →
      ∃ m', partitionLoop time pairs m = some (.ok m') ∧ WritesOf time (done ++ pairs) m'
  | [], done, m, _, _, hm => ⟨m, rfl, by rw [List.append_nil]; exact hm⟩
  | (partition, range) :: pairs, done, m, hkeys, hne, hm => by
    obtain ⟨key, hkey⟩ := hkeys _ List.mem_cons_self
    have hne' : range.2 - range.1 ≠ 0 := by
      have := hne _ List.mem_cons_self
      simp only at this
      omega
    simp only at hkey
    subst hkey
    obtain ⟨m', hloop, hm'⟩ := partitionLoop_writes time pairs
      (fun p hp => hkeys p (List.mem_cons_of_mem _ hp))
      (fun p hp => hne p (List.mem_cons_of_mem _ hp)) (writesOf_upsert hm key range)
    refine ⟨m', ?_, by rw [List.append_cons]; exact hm'⟩
    simp only [partitionLoop, hne', if_false]
    exact hloop

/-- The loop answers `Ok` only when every pair has a key: it returns the first failed key. -/
theorem partitionLoop_ok_keys (time : List ℤ) :
    ∀ (pairs : List (Except PartitionKeyError (List Char) × ℕ × ℕ))
      {m w : List (List Char × PartitionWrite)}, partitionLoop time pairs m = some (.ok w) →
      ∀ p ∈ pairs, ∃ key, p.1 = .ok key
  | [], _, _, _, p, hp => absurd hp List.not_mem_nil
  | (partition, range) :: pairs, m, w, h, p, hp => by
    rw [partitionLoop] at h
    split_ifs at h
    cases partition with
    | error e => cases h
    | ok key =>
      rcases List.mem_cons.1 hp with rfl | hp
      · exact ⟨key, rfl⟩
      · exact partitionLoop_ok_keys time pairs h p hp

/-! ### Partitioning a batch -/

section Batch

variable {K : Type} (libs : Libs) (batch : Batch K) (time : List ℤ) (parts : List TemplatePart)

/-- The rows of the batch whose own key is `key`, in order. -/
def rowsWithKey (key : List Char) : List ℕ :=
  (List.range batch.numRows).filter fun r => rowKey libs batch time parts r = .ok key

variable {libs batch time parts}

/-- The ranges of a key among the runs of the row keys hold exactly its rows. -/
theorem flatMap_indices_rangesOf (key : List Char) :
    (rangesOf key (runs (rowKeys libs batch time parts))).flatMap indices =
      rowsWithKey libs batch time parts key := by
  rw [rangesOf, List.flatMap_map, flatMap_indices_filter_runs, rowKeys, List.range_eq_range',
    indicesOf_map_range', rowsWithKey, List.range_eq_range']

/-- A run of the row keys holds, at each of its rows, that row's key. -/
theorem rowKey_of_mem_runs {p : Except PartitionKeyError (List Char) × ℕ × ℕ}
    (hp : p ∈ runs (rowKeys libs batch time parts)) {r : ℕ} (hr : r ∈ indices p.2) :
    r < batch.numRows ∧ rowKey libs batch time parts r = p.1 := by
  have h := getElem?_of_mem_runs hp hr
  have hlt : r < batch.numRows := by
    simpa [rowKeys] using (List.getElem?_eq_some_iff.mp h).1
  rw [rowKeys, List.getElem?_map, List.getElem?_range hlt, Option.map_some,
    Option.some.injEq] at h
  exact ⟨hlt, h⟩

theorem rowsWithKey_ne_nil_iff (key : List Char) :
    rowsWithKey libs batch time parts key ≠ [] ↔
      ∃ r < batch.numRows, rowKey libs batch time parts r = .ok key := by
  simp [rowsWithKey, List.filter_eq_nil_iff]

/-- The timestamps of the rows of a key, within the bounds of `i64`. -/
theorem timestamps_rowsWithKey (htime : batch.timeColumn = .ok time) (key : List Char) :
    ∀ x ∈ (rowsWithKey libs batch time parts key).map (time.getD · 0),
      -2 ^ 63 ≤ x ∧ x < 2 ^ 63 := by
  intro x hx
  obtain ⟨r, hr, rfl⟩ := List.mem_map.mp hx
  have hr' : r < time.length := by
    rw [batch.timeColumn_length time htime]
    exact List.mem_range.mp (List.mem_filter.mp hr).1
  rw [List.getD_eq_getElem _ _ hr']
  exact batch.timeColumn_bounds time htime _ (List.getElem_mem hr')

/-- A key has ranges among the runs of the row keys exactly when it is some row's key. -/
theorem rangesOf_ne_nil_iff (key : List Char) :
    rangesOf key (runs (rowKeys libs batch time parts)) ≠ [] ↔
      ∃ r < batch.numRows, rowKey libs batch time parts r = .ok key := by
  rw [← rowsWithKey_ne_nil_iff, ← flatMap_indices_rangesOf]
  constructor
  · -- a range of a run holds a row
    intro hne
    obtain ⟨r, hr⟩ := List.exists_mem_of_ne_nil _ hne
    obtain ⟨p, hp, rfl⟩ := List.mem_map.mp hr
    have hlt := lt_of_mem_runs (List.mem_filter.mp hp).1
    exact List.ne_nil_of_mem (List.mem_flatMap.mpr
      ⟨p.2, hr, List.mem_range'_1.mpr ⟨le_rfl, by omega⟩⟩)
  · intro hne h
    rw [h, List.flatMap_nil] at hne
    exact hne rfl

/-- The write of a key's runs: its rows, their number, and their least and greatest
timestamp. -/
theorem writeOf_rangesOf (htime : batch.timeColumn = .ok time) {key : List Char}
    (hkey : ∃ r < batch.numRows, rowKey libs batch time parts r = .ok key) :
    (writeOf time (rangesOf key (runs (rowKeys libs batch time parts)))).ranges.flatMap indices =
        rowsWithKey libs batch time parts key ∧
      (writeOf time (rangesOf key (runs (rowKeys libs batch time parts)))).rowCount =
        (rowsWithKey libs batch time parts key).length ∧
      ((rowsWithKey libs batch time parts key).map (time.getD · 0)).min? =
        some (writeOf time (rangesOf key (runs (rowKeys libs batch time parts)))).minTimestamp ∧
      ((rowsWithKey libs batch time parts key).map (time.getD · 0)).max? =
        some (writeOf time (rangesOf key (runs (rowKeys libs batch time parts)))).maxTimestamp := by
  have hrows : (rangesOf key (runs (rowKeys libs batch time parts))).flatMap indices =
      rowsWithKey libs batch time parts key := flatMap_indices_rangesOf key
  -- every run ends within the time column
  have hle : ∀ r ∈ rangesOf key (runs (rowKeys libs batch time parts)), r.2 ≤ time.length := by
    intro r hr
    obtain ⟨p, hp, rfl⟩ := List.mem_map.mp hr
    have := le_length_of_mem_runs (List.mem_filter.mp hp).1
    rw [rowKeys, List.length_map, List.length_range] at this
    rw [batch.timeColumn_length time htime]
    exact this
  have hne : (rowsWithKey libs batch time parts key).map (time.getD · 0) ≠ [] := by
    rw [Ne, List.map_eq_nil_iff]
    exact (rowsWithKey_ne_nil_iff key).mpr hkey
  have hmm := minMaxTime_eq_min?_max? hne (timestamps_rowsWithKey htime key)
  rw [writeOf_ranges, writeOf_rowCount_eq, writeOf_minTimestamp, writeOf_maxTimestamp,
    flatMap_slice_eq_map hle, hrows]
  exact ⟨rfl, rfl, hmm.1, hmm.2⟩

variable [DecidableEq K]

/-- `PartitionWrite::partition`: each key of a row once, with the write of its runs. -/
theorem partition_eq_writes (htime : batch.timeColumn = .ok time) (hn : 0 < batch.numRows)
    (hlen : parts.length ≤ maximumNumberOfTemplateParts)
    (hok : ∀ r < batch.numRows, ∃ key, rowKey libs batch time parts r = .ok key) :
    ∃ m, PartitionWrite.partition libs batch parts = some (.ok m) ∧
      WritesOf time (runs (rowKeys libs batch time parts)) m := by
  have hpairs := partitionBatch_eq_runs htime hn hlen hok
  have hkeys : ∀ p ∈ runs (rowKeys libs batch time parts), ∃ key, p.1 = .ok key := by
    intro p hp
    have hr := rowKey_of_mem_runs hp (r := p.2.1) (List.mem_range'_1.mpr
      ⟨le_rfl, by have := lt_of_mem_runs hp; omega⟩)
    obtain ⟨key, hkey⟩ := hok _ hr.1
    exact ⟨key, hr.2 ▸ hkey⟩
  have hinit : WritesOf time [] [] := ⟨[], List.nodup_nil, fun k => by simp [rangesOf], rfl⟩
  obtain ⟨m, hloop, hm⟩ := partitionLoop_writes time _ hkeys (fun p hp => lt_of_mem_runs hp) hinit
  refine ⟨m, ?_, by rw [List.nil_append] at hm; exact hm⟩
  rw [PartitionWrite.partition, htime]
  simp only [hpairs, Option.bind_some]
  exact hloop

/-- `PartitionWrite::partition` answers `Ok` only for a template of at most the maximum number
of parts and a batch whose every row's key renders. -/
theorem rowKey_ok_of_partition (htime : batch.timeColumn = .ok time)
    {writes : List (List Char × PartitionWrite)}
    (hpart : PartitionWrite.partition libs batch parts = some (.ok writes)) :
    parts.length ≤ maximumNumberOfTemplateParts ∧
      ∀ r < batch.numRows, ∃ key, rowKey libs batch time parts r = .ok key := by
  simp only [PartitionWrite.partition, htime] at hpart
  obtain ⟨pairs, hpairs, hloop⟩ := Option.bind_eq_some_iff.1 hpart
  refine ⟨?_, fun r hr => ?_⟩
  · rw [partitionBatch] at hpairs
    split_ifs at hpairs with hlen
    omega
  · cases he : rowKey libs batch time parts r with
    | ok key => exact ⟨key, rfl⟩
    | error e =>
      -- the failed key reaches the loop, which returns it
      obtain ⟨p, hp, e', hpe⟩ := partitionBatch_error htime hpairs hr he
      obtain ⟨key, hkey⟩ := partitionLoop_ok_keys time pairs hloop p hp
      rw [hpe] at hkey
      cases hkey

variable (libs batch time parts)

/-- What partitioning a batch is specified to answer, from the keys of its rows
alone: non-empty ranges, each starting where the one before it ends, that cover
the rows in order; different keys in adjacent ranges; each row in a range of its
own key; and for each key of a row, once, a write with exactly the rows of that
key, their number and their least and greatest timestamp. -/
structure RowKeyPartition (pairs : List (Except PartitionKeyError (List Char) × ℕ × ℕ))
    (writes : List (List Char × PartitionWrite)) : Prop where
  nonempty : ∀ p ∈ pairs, p.2.1 < p.2.2
  cover : pairs.flatMap (fun p => indices p.2) = List.range batch.numRows
  adjacent : List.IsChain (fun p q => p.2.2 = q.2.1) pairs
  maximal : List.IsChain (fun p q => p.1 ≠ q.1) pairs
  rowKey_eq : ∀ p ∈ pairs, ∀ r ∈ indices p.2, rowKey libs batch time parts r = p.1
  keys_nodup : (writes.map Prod.fst).Nodup
  keys : ∀ key, (∃ w, (key, w) ∈ writes) ↔
    ∃ r < batch.numRows, rowKey libs batch time parts r = .ok key
  rows : ∀ key w, (key, w) ∈ writes →
    w.ranges.flatMap indices = rowsWithKey libs batch time parts key
  rowCount : ∀ key w, (key, w) ∈ writes →
    w.rowCount = (rowsWithKey libs batch time parts key).length
  minTimestamp : ∀ key w, (key, w) ∈ writes →
    ((rowsWithKey libs batch time parts key).map (time.getD · 0)).min? = some w.minTimestamp
  maxTimestamp : ∀ key w, (key, w) ∈ writes →
    ((rowsWithKey libs batch time parts key).map (time.getD · 0)).max? = some w.maxTimestamp

variable {libs batch time parts}

theorem partitionBatch_refines_rowKey (htime : batch.timeColumn = .ok time)
    (hn : 0 < batch.numRows) (hlen : parts.length ≤ maximumNumberOfTemplateParts)
    (hok : ∀ r < batch.numRows, ∃ key, rowKey libs batch time parts r = .ok key) :
    ∃ pairs writes, partitionBatch libs batch parts = some pairs ∧
      PartitionWrite.partition libs batch parts = some (.ok writes) ∧
      RowKeyPartition libs batch time parts pairs writes := by
  obtain ⟨writes, hpart, ks, hks, hmem, rfl⟩ := partition_eq_writes htime hn hlen hok
  -- every entry of the map is a key of the runs with the write of its ranges
  have hentry : ∀ key w, (key, w) ∈ ks.map (fun k =>
      (k, writeOf time (rangesOf k (runs (rowKeys libs batch time parts))))) →
      (∃ r < batch.numRows, rowKey libs batch time parts r = .ok key) ∧
        w = writeOf time (rangesOf key (runs (rowKeys libs batch time parts))) := by
    intro key w hw
    obtain ⟨k, hk, hkw⟩ := List.mem_map.mp hw
    simp only [Prod.mk.injEq] at hkw
    obtain ⟨rfl, rfl⟩ := hkw
    exact ⟨(rangesOf_ne_nil_iff k).mp ((hmem k).mp hk), rfl⟩
  refine ⟨_, _, partitionBatch_eq_runs htime hn hlen hok, hpart, ⟨fun p hp => lt_of_mem_runs hp,
    ?_, chain_adjacent_runs _, chain_ne_runs _, fun p hp r hr => (rowKey_of_mem_runs hp hr).2,
    ?_, fun key => ?_, ?_, ?_, ?_, ?_⟩⟩
  · rw [flatMap_indices_runs, rowKeys, List.length_map, List.length_range]
  · rw [List.map_map]
    exact (List.map_id' ks).symm ▸ hks
  · constructor
    · rintro ⟨w, hw⟩
      exact (hentry key w hw).1
    · intro hkey
      exact ⟨_, List.mem_map.mpr ⟨key, (hmem key).mpr ((rangesOf_ne_nil_iff key).mpr hkey), rfl⟩⟩
  · intro key w hw
    obtain ⟨hkey, rfl⟩ := hentry key w hw
    exact (writeOf_rangesOf htime hkey).1
  · intro key w hw
    obtain ⟨hkey, rfl⟩ := hentry key w hw
    exact (writeOf_rangesOf htime hkey).2.1
  · intro key w hw
    obtain ⟨hkey, rfl⟩ := hentry key w hw
    exact (writeOf_rangesOf htime hkey).2.2.1
  · intro key w hw
    obtain ⟨hkey, rfl⟩ := hentry key w hw
    exact (writeOf_rangesOf htime hkey).2.2.2

end Batch

/-! ### Batches for the examples -/

/-- Libraries for the batches below, which have no time parts and short tags: no
strftime rendering, a grapheme per character and a hash of zero. -/
def plainLibs : Libs := ⟨fun _ _ => none, fun s => s.map fun c => [c], fun _ => 0⟩

/-- A tag column with the dictionary `a`, `b` and the rows `a`, `a`, `b`. -/
def hostColumn : PartitioningColumn ℕ where
  isValid _ := true
  getTagIdentityKey idx := some (if idx < 2 then 0 else 1)
  getTagValue k := if k = 0 then some ['a'] else if k = 1 then some ['b'] else none
  typeDescription := "tag".toList
  getTagValue_isSome idx k _ hk := by
    simp only [Option.some.injEq] at hk
    subst hk
    split <;> simp

/-- Three rows at the times 10, 20 and 5, with the tag column `h`. -/
def hostBatch : Batch ℕ where
  numRows := 3
  column name := if name = ['h'] then some hostColumn else none
  timeColumn := .ok [10, 20, 5]
  timeColumn_length t h := by cases h; rfl
  timeColumn_bounds t h := by cases h; decide

theorem partitionBatch_refines_rowKey_hostBatch :
    hostBatch.timeColumn = .ok [10, 20, 5] ∧ 0 < hostBatch.numRows ∧
      [TemplatePart.tagValue ['h']].length ≤ maximumNumberOfTemplateParts ∧
      (∀ r < hostBatch.numRows,
        ∃ key, rowKey plainLibs hostBatch [10, 20, 5] [.tagValue ['h']] r = .ok key) ∧
      ∃ pairs writes, partitionBatch plainLibs hostBatch [.tagValue ['h']] = some pairs ∧
        PartitionWrite.partition plainLibs hostBatch [.tagValue ['h']] = some (.ok writes) ∧
        RowKeyPartition plainLibs hostBatch [10, 20, 5] [.tagValue ['h']] pairs writes := by
  have hok : ∀ r < hostBatch.numRows,
      ∃ key, rowKey plainLibs hostBatch [10, 20, 5] [.tagValue ['h']] r = .ok key := by
    intro r hr
    match r, hr with
    | 0, _ => exact ⟨['a'], rfl⟩
    | 1, _ => exact ⟨['a'], rfl⟩
    | 2, _ => exact ⟨['b'], rfl⟩
    | r + 3, hr =>
      change r + 3 < 3 at hr
      omega
  exact ⟨rfl, by decide, by decide, hok, partitionBatch_refines_rowKey rfl (by decide) (by decide) hok⟩

/-- A field column of type `i64`: a value in row 0, NULL in row 1. -/
def i64Column : PartitioningColumn ℕ where
  isValid idx := idx == 0
  getTagIdentityKey _ := none
  getTagValue _ := none
  typeDescription := "i64".toList
  getTagValue_isSome _ _ _ hk := by cases hk

/-- Two rows at time 0, with the field column `x`. -/
def fieldBatch : Batch ℕ where
  numRows := 2
  column name := if name = ['x'] then some i64Column else none
  timeColumn := .ok [0, 0]
  timeColumn_length t h := by cases h; rfl
  timeColumn_bounds t h := by cases h; decide

/-- A tag part on a field column: row 0 fails with `TagValueNotTag`, and row 1, whose
own key is `!`, is merged into the failed range, since the part remembers no key
after the failure and takes the NULL row for identical. -/
theorem null_row_joins_failed_range :
    rowKey plainLibs fieldBatch [0, 0] [.tagValue ['x']] 0 =
        .error (.tagValueNotTag "i64".toList) ∧
      rowKey plainLibs fieldBatch [0, 0] [.tagValue ['x']] 1 = .ok partitionKeyValueNullStr ∧
      partitionBatch plainLibs fieldBatch [.tagValue ['x']] =
        some [(.error (.tagValueNotTag "i64".toList), 0, 2)] :=
  ⟨rfl, rfl, rfl⟩

end IoxCore.Partition

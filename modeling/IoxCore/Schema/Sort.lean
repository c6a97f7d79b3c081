import IoxCore.Lib.Except
import IoxCore.Lib.IndexMap

/-!
# schema: sort keys

A model of `SortKey` (src/schema/src/sort.rs): the columns a chunk is sorted on, in order, each
with its `SortOptions`, held in an `IndexMap`. The module models `SortKey::from_columns`,
`SortKey::try_merge_key` and `adjust_sort_key_columns`. The last one brings a partition's
catalog sort key and the primary key of a write together.

## The model

Column names are strings, and the capacity hints of the builders are dropped. `from_columns`
inserts each column with the default options into an `IndexMap`, so a repeated column keeps its
first place. `try_merge_key` panics on an empty key (`Failure.panic`). Otherwise it walks the
shorter key and looks each column up in the longer one, with its options, and it answers the
longer key when the positions increase.

## What is proved

`adjustSortKeyColumns_spec`: for a primary key made of distinct tags followed by `time`, the
chunk's sort key `m` is the catalog key's columns that are tags, in the catalog's order, then
the tags the catalog key lacks, then `time`. So it is a permutation of the primary key. The
catalog update is `None` exactly when the catalog key already has every primary key column.
Otherwise it is the catalog key without `time`, then the missing tags, then `time`. `m` is a
subsequence of it, and `try_merge_key` of the two answers the update (`tryMergeKey_of_sublist`).
-/

namespace IoxCore.Schema

/-- arrow's `SortOptions`. -/
structure SortOptions where
  descending : Bool
  nullsFirst : Bool
  deriving DecidableEq, Repr

/-- `SortOptions::default()`: ascending, nulls first. -/
instance : Inhabited SortOptions := ⟨⟨false, true⟩⟩

/-- `TIME_COLUMN_NAME`. -/
def timeColumnName : String := "time"

/-- `SortKey`: the sort columns in order, with their options. -/
@[ext] structure SortKey where
  columns : IndexMap String SortOptions

/-- `SortKeyBuilder`. -/
structure SortKeyBuilder where
  columns : IndexMap String SortOptions

/-- `SortKeyBuilder::with_capacity`, the capacity dropped. -/
def SortKeyBuilder.withCapacity : SortKeyBuilder := ⟨.empty⟩

/-- `SortKeyBuilder::with_col_sort_opts`: an `IndexMap` insert, so a column already there
keeps its place and takes the new options. -/
def SortKeyBuilder.withColSortOpts (b : SortKeyBuilder) (col : String) (options : SortOptions) :
    SortKeyBuilder :=
  ⟨b.columns.insert col options⟩

/-- `SortKeyBuilder::with_col`: the default options. -/
def SortKeyBuilder.withCol (b : SortKeyBuilder) (column : String) : SortKeyBuilder :=
  b.withColSortOpts column default

/-- `SortKeyBuilder::build`. -/
def SortKeyBuilder.build (b : SortKeyBuilder) : SortKey := ⟨b.columns⟩

namespace SortKey

/-- `SortKey::from_columns`. -/
def fromColumns (columns : List String) : SortKey :=
  (columns.foldl (fun b c => b.withCol c) SortKeyBuilder.withCapacity).build

/-- `SortKey::to_columns`. -/
def toColumns (k : SortKey) : List String := k.columns.keys

/-- `SortKey::contains`. -/
def contains (k : SortKey) (column : String) : Bool := k.columns.containsKey column

@[simp] theorem contains_eq (k : SortKey) (column : String) :
    k.contains column = decide (column ∈ k.toColumns) := rfl

/-- `SortKey::len`. -/
def len (k : SortKey) : ℕ := k.columns.len

/-- `SortKey::is_empty`. -/
def isEmpty (k : SortKey) : Bool := k.columns.entries.isEmpty

/-- `SortKey::find_index`: the column's position, if it is there with these options. -/
def findIndex (k : SortKey) (column : String) (sortOptions : SortOptions) : Option ℕ :=
  match k.columns.getFull column with
  | some (sortOrdinal, options) => if options = sortOptions then some sortOrdinal else none
  | none => none

/-- The loop of `try_merge_key` over the short key's columns: each must be in the long key, with
its options, after the previous one. -/
def tryMergeLoop (longKey : SortKey) : Option ℕ → List (String × SortOptions) → Bool
  | _, [] => true
  | prevLongIdx, (col, sortOptions) :: rest =>
    match longKey.findIndex col sortOptions with
    | some longIdx =>
      match prevLongIdx with
      | none => tryMergeLoop longKey (some longIdx) rest
      | some prevIdx => if longIdx > prevIdx then tryMergeLoop longKey (some longIdx) rest else false
    | none => false

/-- `SortKey::try_merge_key`: the longer key, if the shorter one is a subsequence of it. The
second key counts as the longer one when the lengths are equal. -/
def tryMergeKey (key1 key2 : SortKey) : Except Failure (Option SortKey) :=
  if key1.isEmpty || key2.isEmpty then .error .panic
  else
    let (longKey, shortKey) := if key1.len > key2.len then (key1, key2) else (key2, key1)
    .ok (if tryMergeLoop longKey none shortKey.columns.entries then some longKey else none)

end SortKey

/-- `adjust_sort_key_columns`: the sort key of a new chunk, and the update of the partition's
catalog sort key if the primary key has columns the catalog key lacks. -/
def adjustSortKeyColumns (catalogSortKey : SortKey) (primaryKey : List String) :
    SortKey × Option SortKey :=
  let existingColumnsWithoutTime :=
    catalogSortKey.toColumns.filter fun col => timeColumnName != col
  let newColumns := primaryKey.filter fun col => !catalogSortKey.contains col
  let metadataSortKey := SortKey.fromColumns
    (existingColumnsWithoutTime.filter (fun col => primaryKey.contains col) ++ newColumns ++
      [timeColumnName])
  let catalogUpdate :=
    if newColumns.isEmpty then none
    else some (SortKey.fromColumns (existingColumnsWithoutTime ++ newColumns ++ [timeColumnName]))
  (metadataSortKey, catalogUpdate)

/-! ### `from_columns` -/

namespace SortKey

theorem foldl_withCol_columns (l : List String) (b : SortKeyBuilder) :
    (l.foldl (fun b c => b.withCol c) b).columns =
      l.foldl (fun m c => m.insert c default) b.columns := by
  induction l generalizing b with
  | nil => rfl
  | cons c l ih => exact ih (b.withCol c)

theorem fromColumns_columns (l : List String) :
    (fromColumns l).columns = l.foldl (fun m c => m.insert c default) IndexMap.empty :=
  foldl_withCol_columns l _

/-- Distinct columns are kept as given. -/
theorem toColumns_fromColumns {l : List String} (h : l.Nodup) : (fromColumns l).toColumns = l := by
  rw [toColumns, fromColumns_columns, IndexMap.keys_foldl_insert (fun _ => default) l _ (by simpa)]
  rfl

/-- A column that is there already, given again at the end, changes nothing. -/
theorem toColumns_fromColumns_append_mem {l : List String} (h : l.Nodup) {x : String}
    (hx : x ∈ l) : (fromColumns (l ++ [x])).toColumns = l := by
  have hkeys : (l.foldl (fun (m : IndexMap String SortOptions) c => m.insert c default)
      IndexMap.empty).keys = l := by
    rw [← fromColumns_columns]
    exact toColumns_fromColumns h
  rw [toColumns, fromColumns_columns, List.foldl_append, List.foldl_cons, List.foldl_nil,
    IndexMap.keys_insert_of_mem (default : SortOptions) (by rw [hkeys]; exact hx), hkeys]

/-- Every column of `from_columns` has the default options. -/
theorem entries_fromColumns (l : List String) :
    (fromColumns l).columns.entries = (fromColumns l).toColumns.map fun c => (c, default) := by
  have hdefault : ∀ e ∈ (fromColumns l).columns.entries, e.2 = default := by
    rw [fromColumns_columns]
    -- the values only ever come from inserts of the default options
    suffices ∀ (m : IndexMap String SortOptions), (∀ e ∈ m.entries, e.2 = default) →
        ∀ e ∈ (l.foldl (fun m c => m.insert c default) m).entries, e.2 = default from
      this _ (by simp)
    induction l with
    | nil => exact fun m hm => hm
    | cons c l ih =>
      intro m hm
      refine ih _ fun e he => ?_
      rcases IndexMap.mem_entries_insert he with he | rfl
      · exact hm e he
      · rfl
  rw [toColumns, IndexMap.keys, List.map_map]
  conv_lhs => rw [← List.map_id (fromColumns l).columns.entries]
  exact List.map_congr_left fun e he => by simp [← hdefault e he]

/-! ### `try_merge_key` -/

/-- The loop succeeds on the entries of any stretch of the long key, started past the entries
before it. The induction is on the `Sublist` proof, with the skipped entries moved into the
prefix. -/
theorem tryMergeLoop_of_sublist (longKey : SortKey) {short rest : List (String × SortOptions)}
    (h : short.Sublist rest) :
    ∀ (pre : List (String × SortOptions)) (prev : Option ℕ),
      longKey.columns.entries = pre ++ rest → (∀ p ∈ prev, p < pre.length) →
      tryMergeLoop longKey prev short = true := by
  induction h with
  | slnil => intro pre prev _ _; rfl
  | @cons l₁ l₂ e _ ih =>
    intro pre prev hsplit hprev
    refine ih (pre ++ [e]) prev (by simp [hsplit]) fun p hp => ?_
    simpa using Nat.lt_succ_of_lt (hprev p hp)
  | @cons_cons l₁ l₂ e _ ih =>
    intro pre prev hsplit hprev
    obtain ⟨col, opts⟩ := e
    have hfind : longKey.findIndex col opts = some pre.length := by
      simp [findIndex, IndexMap.getFull_of_entries_eq hsplit]
    have hnext := ih (pre ++ [(col, opts)]) (some pre.length) (by simp [hsplit]) (by simp)
    cases prev with
    | none => simp [tryMergeLoop, hfind, hnext]
    | some p => simp [tryMergeLoop, hfind, hnext, hprev p rfl]

theorem isEmpty_eq_false_of_mem {k : SortKey} {c : String} (h : c ∈ k.toColumns) :
    k.isEmpty = false := by
  simp only [isEmpty, List.isEmpty_eq_false_iff]
  rintro hnil
  simp [toColumns, IndexMap.keys, hnil] at h

/-- Of two keys built by `from_columns`, where the second's columns are a subsequence of the
first's, `try_merge_key` answers the first. With equal lengths the two keys are equal, and
the second one is the longer one. -/
theorem tryMergeKey_of_sublist (l₁ l₂ : List String) (h : (fromColumns l₂).toColumns.Sublist
      (fromColumns l₁).toColumns) (hne : (fromColumns l₂).toColumns ≠ []) :
    tryMergeKey (fromColumns l₁) (fromColumns l₂) = .ok (some (fromColumns l₁)) := by
  obtain ⟨c, hc⟩ := List.exists_mem_of_ne_nil _ hne
  have hne₁ := isEmpty_eq_false_of_mem (h.subset hc)
  have hne₂ := isEmpty_eq_false_of_mem hc
  have hsub : (fromColumns l₂).columns.entries.Sublist (fromColumns l₁).columns.entries := by
    rw [entries_fromColumns, entries_fromColumns]
    exact h.map _
  by_cases hlen : (fromColumns l₁).len > (fromColumns l₂).len
  · simp only [tryMergeKey, hne₁, hne₂, Bool.or_false, Bool.false_eq_true, if_false, hlen,
      if_true]
    rw [tryMergeLoop_of_sublist (fromColumns l₁) hsub [] none (by simp) (by simp), if_pos rfl]
  · -- a subsequence of the same length is the whole key
    have hlen' : (fromColumns l₂).toColumns.length = (fromColumns l₁).toColumns.length := by
      have := h.length_le
      simp only [toColumns, IndexMap.length_keys, len] at this hlen ⊢
      omega
    have heq : fromColumns l₂ = fromColumns l₁ := by
      refine SortKey.ext (IndexMap.ext ?_)
      rw [entries_fromColumns, entries_fromColumns, h.eq_of_length hlen']
    simp only [tryMergeKey, hne₁, hne₂, Bool.or_false, Bool.false_eq_true, if_false, hlen]
    rw [heq, tryMergeLoop_of_sublist (fromColumns l₁) (List.Sublist.refl _) [] none (by simp)
      (by simp), if_pos rfl]

end SortKey

/-! ### `adjust_sort_key_columns` -/

section Adjust

variable (catalogSortKey : SortKey) {tags : List String}

/-- The primary key's columns that the catalog key lacks: the missing tags, and `time` if the
catalog key lacks it. -/
theorem filter_not_contains :
    (tags ++ [timeColumnName]).filter (fun col => !catalogSortKey.contains col) =
      tags.filter (· ∉ catalogSortKey.toColumns) ++
        if timeColumnName ∈ catalogSortKey.toColumns then [] else [timeColumnName] := by
  have hpred : (fun col => !catalogSortKey.contains col) =
      fun col => decide (col ∉ catalogSortKey.toColumns) := by
    funext col
    by_cases h : col ∈ catalogSortKey.toColumns <;> simp [h]
  rw [hpred, List.filter_append]
  split_ifs with h <;> simp [h]

/-- The catalog key's columns without `time` that are primary key columns are its tags. -/
theorem filter_existing_mem (htime : timeColumnName ∉ tags) :
    (catalogSortKey.toColumns.filter fun col => timeColumnName != col).filter
        (fun col => (tags ++ [timeColumnName]).contains col) =
      catalogSortKey.toColumns.filter fun x => x ≠ timeColumnName ∧ x ∈ tags := by
  rw [List.filter_filter]
  refine List.filter_congr fun x _ => ?_
  by_cases hx : x = timeColumnName
  · subst hx
    simp [htime]
  · simp [hx, Ne.symm hx]

theorem filter_existing :
    (catalogSortKey.toColumns.filter fun col => timeColumnName != col) =
      catalogSortKey.toColumns.filter (· ≠ timeColumnName) :=
  List.filter_congr fun x _ => by
    by_cases hx : x = timeColumnName
    · simp [hx]
    · simp [hx, Ne.symm hx]

/-- Three parts of sort key columns that do not meet: catalog columns without `time`, tags the
catalog lacks, and `time`. -/
theorem nodup_three_parts (htags : tags.Nodup) (htime : timeColumnName ∉ tags)
    {kept : List String} (hkept : kept.Sublist (catalogSortKey.toColumns.filter (· ≠ timeColumnName))) :
    (kept ++ tags.filter (· ∉ catalogSortKey.toColumns) ++ [timeColumnName]).Nodup := by
  have hcat : (catalogSortKey.toColumns.filter (· ≠ timeColumnName)).Nodup :=
    catalogSortKey.columns.nodup.filter _
  refine ((hcat.sublist hkept).append (htags.filter _) ?_).append (List.nodup_singleton _) ?_
  · intro a hk hn
    have hk' := (List.mem_filter.1 (hkept.subset hk)).1
    exact (of_decide_eq_true (List.mem_filter.1 hn).2) hk'
  · intro a ha hat
    rw [List.mem_singleton] at hat
    subst hat
    rcases List.mem_append.1 ha with h | h
    · simpa using (List.mem_filter.1 (hkept.subset h)).2
    · exact htime (List.mem_filter.1 h).1

/-- A list of the three parts with `time` once more at the end, when the catalog lacked it,
builds the key of the three parts. -/
theorem toColumns_fromColumns_three_parts (htags : tags.Nodup) (htime : timeColumnName ∉ tags)
    {kept : List String} (hkept : kept.Sublist (catalogSortKey.toColumns.filter (· ≠ timeColumnName))) :
    (SortKey.fromColumns (kept ++ (tags.filter (· ∉ catalogSortKey.toColumns) ++
        if timeColumnName ∈ catalogSortKey.toColumns then [] else [timeColumnName]) ++
        [timeColumnName])).toColumns =
      kept ++ tags.filter (· ∉ catalogSortKey.toColumns) ++ [timeColumnName] := by
  have hnd := nodup_three_parts catalogSortKey htags htime hkept
  split_ifs
  · rw [List.append_nil]
    exact SortKey.toColumns_fromColumns hnd
  · rw [← List.append_assoc]
    exact SortKey.toColumns_fromColumns_append_mem hnd (by simp)

/-- **`adjust_sort_key_columns` against a primary key of distinct tags and `time`.** -/
theorem adjustSortKeyColumns_spec (htags : tags.Nodup) (htime : timeColumnName ∉ tags) :
    let m := (adjustSortKeyColumns catalogSortKey (tags ++ [timeColumnName])).1
    let u := (adjustSortKeyColumns catalogSortKey (tags ++ [timeColumnName])).2
    m.toColumns = catalogSortKey.toColumns.filter (fun x => x ≠ timeColumnName ∧ x ∈ tags) ++
        tags.filter (· ∉ catalogSortKey.toColumns) ++ [timeColumnName] ∧
      m.toColumns.Perm (tags ++ [timeColumnName]) ∧
      (u = none ↔ ∀ x ∈ tags ++ [timeColumnName], x ∈ catalogSortKey.toColumns) ∧
      ∀ k, u = some k →
        k.toColumns = catalogSortKey.toColumns.filter (· ≠ timeColumnName) ++ tags.filter (· ∉ catalogSortKey.toColumns) ++
            [timeColumnName] ∧
          (∀ x ∈ tags ++ [timeColumnName], x ∈ k.toColumns) ∧
          m.toColumns.Sublist k.toColumns ∧ SortKey.tryMergeKey k m = .ok (some k) := by
  intro m u
  have hkept : (catalogSortKey.toColumns.filter fun x => x ≠ timeColumnName ∧ x ∈ tags).Sublist
      (catalogSortKey.toColumns.filter (· ≠ timeColumnName)) :=
    List.monotone_filter_right catalogSortKey.toColumns fun x hx => by simp_all
  -- the chunk's key: the tags of the catalog key, the missing tags, `time`
  have hm : m.toColumns = catalogSortKey.toColumns.filter (fun x => x ≠ timeColumnName ∧ x ∈ tags) ++
      tags.filter (· ∉ catalogSortKey.toColumns) ++ [timeColumnName] := by
    show (SortKey.fromColumns _).toColumns = _
    rw [filter_existing_mem catalogSortKey htime, filter_not_contains catalogSortKey]
    exact toColumns_fromColumns_three_parts catalogSortKey htags htime hkept
  have hmne : m.toColumns ≠ [] := by simp [hm]
  have hnew : ((tags ++ [timeColumnName]).filter fun col => !catalogSortKey.contains col).isEmpty ↔
      ∀ x ∈ tags ++ [timeColumnName], x ∈ catalogSortKey.toColumns := by
    simp only [List.isEmpty_iff, List.filter_eq_nil_iff, SortKey.contains_eq, Bool.not_eq_true',
      decide_eq_false_iff_not, not_not]
  refine ⟨hm, ?_, ?_, fun k hk => ?_⟩
  · rw [hm, List.perm_ext_iff_of_nodup (nodup_three_parts catalogSortKey htags htime hkept)
      (htags.append (List.nodup_singleton _) (by simpa using htime))]
    intro a
    by_cases hat : a = timeColumnName
    · subst hat
      simp
    · by_cases hac : a ∈ catalogSortKey.toColumns <;> simp [hat, hac]
  · show (if _ then none else some _) = none ↔ _
    rw [← hnew]
    split_ifs <;> simp_all
  · -- the catalog update: the catalog key without `time`, the missing tags, `time`
    have hk' : k = SortKey.fromColumns ((catalogSortKey.toColumns.filter fun col => timeColumnName != col) ++
        ((tags ++ [timeColumnName]).filter fun col => !catalogSortKey.contains col) ++
        [timeColumnName]) := by
      change (if _ then none else some _) = some k at hk
      split_ifs at hk
      exact (Option.some.inj hk).symm
    have hkcols : k.toColumns = catalogSortKey.toColumns.filter (· ≠ timeColumnName) ++ tags.filter (· ∉ catalogSortKey.toColumns) ++
        [timeColumnName] := by
      rw [hk', filter_existing catalogSortKey, filter_not_contains catalogSortKey]
      exact toColumns_fromColumns_three_parts catalogSortKey htags htime (List.Sublist.refl _)
    have hsub : m.toColumns.Sublist k.toColumns := by
      rw [hm, hkcols]
      exact (hkept.append (List.Sublist.refl _)).append (List.Sublist.refl _)
    refine ⟨hkcols, fun x hx => ?_, hsub, ?_⟩
    · rw [hkcols]
      by_cases hxt : x = timeColumnName
      · simp [hxt]
      · have hxtags : x ∈ tags := by simpa [hxt] using hx
        by_cases hxc : x ∈ catalogSortKey.toColumns <;> simp [hxt, hxc, hxtags]
    · rw [hk']
      rw [hk'] at hsub
      exact SortKey.tryMergeKey_of_sublist _ _ hsub hmne

end Adjust

/-- A catalog key on `region` and a write with the tags `host` and `region`: the chunk is sorted
on `region`, then `host`, then `time`. -/
theorem adjustSortKeyColumns_region_then_host :
    (adjustSortKeyColumns (SortKey.fromColumns ["region", timeColumnName])
        (["host", "region"] ++ [timeColumnName])).1.toColumns =
      ["region", "host", timeColumnName] := by
  have hnd : (["host", "region"] : List String).Nodup := by decide
  have htime : timeColumnName ∉ ["host", "region"] := by decide
  rw [(adjustSortKeyColumns_spec (SortKey.fromColumns ["region", timeColumnName]) hnd htime).1,
    SortKey.toColumns_fromColumns (by decide)]
  decide

end IoxCore.Schema

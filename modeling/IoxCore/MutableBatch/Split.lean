import IoxCore.MutableBatch.Extend

/-!
# Splitting a batch

`MutableBatch::split_off(n)` leaves the rows `[0, n)` in the batch and returns the rows
`[n, rows)`, each column split by `Column::split_off`: the validity by `BitSet::split_off`, the
data by `Vec::split_off`, `BitSet::split_off` or `PackedStringArray::split_off`, and the ids of
a tag column on each side rewritten by `rebuild_dictionary` to a new dictionary of the strings
that side uses.

## The model

A split is the pair of the batch after the call and the batch returned. The assertion
`n <= row_count`, a `Vec::split_off` past the end and the `expect` of `rebuild_dictionary` are
panics (`none`). The batch model keeps no statistics: `splitStats` gives the ones `split_off`
writes on both sides from the NULL count the column had before, which is all they read of the
old ones.

## What is proved

Each side of a split of a well-formed column is a copy of a range of its rows (`SplitSide`):
a well-formed column of the same type holding the cells of those rows, whose dictionary holds
each string once and only strings its rows use. `splitOff_partitions` lifts this to the batch:
on a well-formed batch and `n <= rows`, `split_off` succeeds with the same columns on both
sides, the first `n` cells of every column on the left and the others on the right, and, when
the column's NULL count was exact and its NULL tag rows hold `NULL_DID`, the statistics of both
sides are those recounted from their cells.
-/

namespace IoxCore.MutableBatch

open ArrowUtil PackedBits Runs

variable {F : Type} {vl : List Bool} {d : ColumnData F} {c : Column F} {ids : List ℤ}
    {dict : StringDictionary}

/-! ## The model -/

/-- `Vec::split_off(n)`: the vector keeps `[0, n)` (the first component); past the end it
panics. -/
def splitVec {α : Type} (d : List α) (n : ℕ) : Option (List α × List α) :=
  if d.length < n then none else some (d.take n, d.drop n)

/-- The loop of `rebuild_dictionary` over the ids `data`: `NULL_DID` stays, and any other id is
replaced by the key in `dict` of its string in `original`, inserted when new. An id `original`
has no string for panics at the `expect`; a negative one is cast to a `usize` past the end. -/
def rebuildIds (original : StringDictionary) :
    StringDictionary → List ℤ → Option (StringDictionary × List ℤ)
  | dict, [] => some (dict, [])
  | dict, id :: data =>
    if id = nullDid then (rebuildIds original dict data).map fun r => (r.1, nullDid :: r.2)
    else do
      let value ← if id < 0 then none else original.storage.get id.toNat
      let (key, dict) ← dict.lookupValueOrInsert value
      let (dict, ids) ← rebuildIds original dict data
      some (dict, (key : ℤ) :: ids)

/-- `rebuild_dictionary`: a new dictionary of the strings the ids `data` use in `original`,
with the ids rewritten to its keys. -/
def rebuildDictionary (original : StringDictionary) (data : List ℤ) :
    Option (StringDictionary × List ℤ) :=
  rebuildIds original .new data

/-- The data of `Column::split_off`: the data kept (the first component) and the data
returned. The returned ids get their dictionary first, then the kept ones. -/
def ColumnData.splitOff (n : ℕ) : ColumnData F → Option (ColumnData F × ColumnData F)
  | .f64 d => (splitVec d n).map fun p => (.f64 p.1, .f64 p.2)
  | .i64 d => (splitVec d n).map fun p => (.i64 p.1, .i64 p.2)
  | .u64 d => (splitVec d n).map fun p => (.u64 p.1, .u64 p.2)
  | .bool d => (d.splitOff n).map fun p => (.bool p.1, .bool p.2)
  | .string d => (d.splitOff n).map fun p => (.string p.1, .string p.2)
  | .tag d dict => do
    let (left, right) ← splitVec d n
    let (newDict, right) ← rebuildDictionary dict right
    let (dict, left) ← rebuildDictionary dict left
    some (.tag left dict, .tag right newDict)

/-- `Column::split_off`: the column keeps the rows `[0, n)` (the first component) and the rows
`[n, len)` are returned; past the end the column stays as it is and an empty one is
returned. -/
def Column.splitOff [Zero F] (c : Column F) (n : ℕ) : Option (Column F × Column F) :=
  if c.valid.len < n then some (c, Column.new 0 c.influxType) else do
  let (left, right) ← c.valid.splitOff n
  let (leftData, rightData) ← c.data.splitOff n
  some ({ c with valid := left, data := leftData }, { c with valid := right, data := rightData })

/-- `MutableBatch::split_off`: the batch keeps the rows `[0, n)` (the first component) and
the rows `[n, rows)` are returned, in columns of the same names. -/
def splitOff [Zero F] (b : MutableBatch F) (n : ℕ) : Option (MutableBatch F × MutableBatch F) :=
  if b.rowCount < n then none else do
  let columns ← b.columns.mapM fun p => (p.2.splitOff n).map fun s => ((p.1, s.1), (p.1, s.2))
  some (⟨columns.map Prod.fst, n⟩, ⟨columns.map Prod.snd, b.rowCount - n⟩)

/-! ### Statistics -/

/-- The statistics `split_off` writes: the total and NULL counts and, for a tag column, the
distinct count. A `NonZeroU64` is a positive number; min and max are left `None`. -/
structure Stats where
  totalCount : ℕ
  nullCount : Option ℕ
  distinctCount : Option ℕ
  deriving DecidableEq, Repr

/-- `NonZeroU64::try_from(count).ok()`. -/
def nonZero (count : ℕ) : Option ℕ := if count = 0 then none else some count

/-- The statistics of both sides of `split_off`, from the NULL count the column had before:
the left NULL count is the old one less the NULL rows of the right, and the distinct count of
a tag side is the length of its dictionary, plus one when it has a NULL row. -/
def splitStats (nullCount : Option ℕ) (left right : Column F) : Stats × Stats :=
  let rightNulls := right.valid.countZeros
  let leftNulls := nullCount.map (· - rightNulls)
  match left.data, right.data with
  | .tag _ dict, .tag rightData newDict =>
    (⟨left.valid.len, leftNulls,
        nonZero (dict.storage.len + if 0 < leftNulls.getD 0 then 1 else 0)⟩,
      ⟨rightData.length, some rightNulls,
        nonZero (newDict.storage.len + if 0 < rightNulls then 1 else 0)⟩)
  | _, rightData => (⟨left.valid.len, leftNulls, none⟩, ⟨rightData.length, some rightNulls, none⟩)

/-- The statistics recounted from the cells of a column: its rows, its NULL rows and, for a
tag column, its distinct values with NULL counted as one. -/
def Column.recount [DecidableEq F] (c : Column F) : Stats :=
  ⟨c.cells.length, some (c.cells.count none),
    match c.data with
    | .tag _ _ => nonZero c.cells.dedup.length
    | _ => none⟩

/-! ## `rebuild_dictionary` -/

/-- What the loop of `rebuild_dictionary` leaves, run over the ids `data` of a dictionary of
the strings `ods`, from a new dictionary of the strings `ds`: the strings `ds'` of the new
dictionary, distinct and indexed, those past `ds` each used by an id, and every id rewritten to
a key of the same string. -/
structure Rebuilt (ods : List (List Char)) (data : List ℤ) (ds : List (List Char))
    (dict : StringDictionary) (ids : List ℤ) (ds' : List (List Char)) : Prop where
  holds : dict.storage.Holds ds'
  consistent : dict.Consistent
  indexed : dict.Indexed ds'
  nodup : ds'.Nodup
  grows : ds <+: ds'
  length_eq : ids.length = data.length
  null : ∀ i : ℕ, data[i]? = some nullDid → ids[i]? = some nullDid
  key : ∀ (i k : ℕ), data[i]? = some (k : ℤ) →
    ∃ k' : ℕ, ids[i]? = some (k' : ℤ) ∧ ds'[k']? = ods[k]?
  used : ∀ k' < ds'.length, k' < ds.length ∨ (k' : ℤ) ∈ ids

theorem natCast_ne_nullDid (k : ℕ) : (k : ℤ) ≠ nullDid := by
  simp only [nullDid]
  omega

/-- `rebuild_dictionary` over ids that are `NULL_DID` or keys of `original` never panics. The
induction is on the ids, the new dictionary threaded through. -/
theorem rebuildIds_spec {original : StringDictionary} {ods : List (List Char)}
    (hods : original.storage.Holds ods) :
    ∀ (data : List ℤ) (dict : StringDictionary) (ds : List (List Char)),
      (∀ id ∈ data, id = nullDid ∨ ∃ k : ℕ, id = k ∧ k < ods.length) →
      dict.storage.Holds ds → dict.Consistent → dict.Indexed ds → ds.Nodup →
      ∃ dict' ids ds', rebuildIds original dict data = some (dict', ids) ∧
        Rebuilt ods data ds dict' ids ds'
  | [], dict, ds, _, h, hc, hi, hnd =>
    ⟨dict, [], ds, rfl, ⟨h, hc, hi, hnd, List.prefix_rfl, rfl, by simp, by simp,
      fun _ hk => .inl hk⟩⟩
  | id :: data, dict, ds, hids, h, hc, hi, hnd => by
    have hrest : ∀ id' ∈ data, id' = nullDid ∨ ∃ k : ℕ, id' = k ∧ k < ods.length :=
      fun id' h' => hids id' (List.mem_cons_of_mem _ h')
    rcases hids id List.mem_cons_self with rfl | ⟨k, rfl, hk⟩
    · -- `NULL_DID` stays
      obtain ⟨dict', ids, ds', hrun, hr⟩ := rebuildIds_spec hods data dict ds hrest h hc hi hnd
      refine ⟨dict', nullDid :: ids, ds', by simp [rebuildIds, hrun], ⟨hr.holds, hr.consistent,
        hr.indexed, hr.nodup, hr.grows, by simp [hr.length_eq], fun i hi => ?_,
        fun i k' hk' => ?_, fun k' hk' => (hr.used k' hk').imp_right (List.mem_cons_of_mem _)⟩⟩
      · cases i with
        | zero => rfl
        | succ i => exact hr.null i hi
      · cases i with
        | zero => exact absurd (Option.some.inj hk').symm (natCast_ne_nullDid k')
        | succ i => exact hr.key i k' hk'
    · -- a key: its string looked up in the new dictionary, or inserted
      have hget : original.storage.get k = some ods[k] := by
        rw [hods.get, List.getElem?_eq_getElem hk]
      obtain ⟨key, d₁, ds₁, hl, h₁, hc₁, hi₁, hnd₁, hkey, hds₁⟩ :=
        StringDictionary.lookupValueOrInsert_indexed h hc hi hnd ods[k]
      obtain ⟨dict', ids, ds', hrun, hr⟩ := rebuildIds_spec hods data d₁ ds₁ hrest h₁ hc₁ hi₁ hnd₁
      have hpre : ds <+: ds₁ := by
        rcases hds₁ with ⟨rfl, -⟩ | ⟨rfl, -⟩
        · exact List.prefix_rfl
        · exact List.prefix_append _ _
      refine ⟨dict', (key : ℤ) :: ids, ds', ?_, ⟨hr.holds, hr.consistent, hr.indexed, hr.nodup,
        hpre.trans hr.grows, by simp [hr.length_eq], fun i hi => ?_, fun i k' hk' => ?_,
        fun k' hk' => ?_⟩⟩
      · simp [rebuildIds, natCast_ne_nullDid, hget, hl, hrun]
      · cases i with
        | zero => exact absurd (Option.some.inj hi) (natCast_ne_nullDid k)
        | succ i => exact hr.null i hi
      · cases i with
        | zero =>
          obtain rfl : k' = k := (Int.natCast_inj.mp (Option.some.inj hk')).symm
          obtain ⟨t, rfl⟩ := hr.grows
          refine ⟨key, rfl, ?_⟩
          rw [List.getElem?_append_left (List.getElem?_eq_some_iff.mp hkey).1, hkey,
            List.getElem?_eq_getElem hk]
        | succ i => exact hr.key i k' hk'
      · -- a string past `ds` is the one this lookup inserted, or used by a later id
        rcases hr.used k' hk' with h' | h'
        · rcases hds₁ with ⟨rfl, -⟩ | ⟨rfl, rfl⟩
          · exact .inl h'
          · rw [List.length_append, List.length_singleton] at h'
            rcases Nat.lt_succ_iff_lt_or_eq.mp h' with h' | rfl
            · exact .inl h'
            · exact .inr List.mem_cons_self
        · exact .inr (List.mem_cons_of_mem _ h')

/-- `rebuild_dictionary` over a part of the ids of a tag column. -/
theorem rebuildDictionary_spec {ods : List (List Char)}
    (hods : dict.storage.Holds ods) {part : List ℤ}
    (hpart : ∀ id ∈ part, id = nullDid ∨ ∃ k : ℕ, id = k ∧ k < ods.length) :
    ∃ dict' ids ds', rebuildDictionary dict part = some (dict', ids) ∧
      Rebuilt ods part [] dict' ids ds' :=
  rebuildIds_spec hods part .new [] hpart PackedStringArray.holds_new
    StringDictionary.consistent_new StringDictionary.indexed_new List.nodup_nil

/-! ## What a split does to the data of a column -/

/-- The NULL rows of a tag column hold `NULL_DID`, as the writes leave them. -/
def ColumnData.NullIds : ColumnData F → List Bool → Prop
  | .tag data _, valid => ∀ i, valid.getD i true = false → data[i]? = some nullDid
  | _, _ => True

/-- The dictionary of a tag column holds each string once, and every key of it is used by a
row. -/
def ColumnData.DictMinimal : ColumnData F → Prop
  | .tag data dict => ∃ ds, dict.storage.Holds ds ∧ ds.Nodup ∧ ∀ k < ds.length, (k : ℤ) ∈ data
  | _ => True

/-- The data `s` of a side of a split of the data `d` of the rows `vl`: the rows `sv`, from
row `a` on, with the same value at each valid row. -/
structure DataSide (d s : ColumnData F) (vl sv : List Bool) (a : ℕ) : Prop where
  fits : s.Fits sv
  hasType : ∀ t, d.HasType t → s.HasType t
  tagIds : s.TagIds
  minimal : s.DictMinimal
  nullIds : d.NullIds vl → s.NullIds sv
  value : ∀ t < sv.length, sv.getD t false = true → s.value t = d.value (a + t)

section Part

variable {α : Type}

theorem getElem?_drop_take (l : List α) {a m t : ℕ} (ht : t < m) :
    ((l.drop a).take m)[t]? = l[a + t]? := by
  rw [List.getElem?_take_of_lt ht, List.getElem?_drop]

theorem getD_drop_take (l : List α) (d : α) {a m t : ℕ} (ht : t < m) :
    ((l.drop a).take m).getD t d = l.getD (a + t) d := by
  rw [List.getD_eq_getElem?_getD, getElem?_drop_take l ht, List.getD_eq_getElem?_getD]

theorem lt_length_of_getD {l : List α} {d x : α} {i : ℕ} (h : l.getD i d = x) (hne : x ≠ d) :
    i < l.length := by
  by_contra hge
  rw [List.getD_eq_default _ _ (by omega)] at h
  exact hne h.symm

theorem drop_take_length {l : List α} {k : ℕ} (h : l.length = k) (n : ℕ) :
    (l.drop n).take (k - n) = l.drop n :=
  List.take_of_length_le (by rw [List.length_drop, h])

theorem length_drop_take {l : List α} {a m : ℕ} (h : a + m ≤ l.length) :
    ((l.drop a).take m).length = m := by
  simp only [List.length_take, List.length_drop]
  omega

end Part

/-- The cells of the rows `[a, a + m)`. -/
theorem cellsOf_drop_take (vl : List Bool) (value : ℕ → Option (Value F)) (a m : ℕ) :
    ((cellsOf vl value).drop a).take m =
      cellsOf ((vl.drop a).take m) fun t => value (a + t) := by
  apply List.ext_getElem
  · simp only [cellsOf, List.length_take, List.length_drop, List.length_map, List.length_range]
  · intro t h₁ h₂
    have ht : t < m := by simp only [cellsOf, List.length_take, List.length_drop,
      List.length_map, List.length_range] at h₁; omega
    simp only [List.getElem_take, List.getElem_drop, cellsOf, List.getElem_map,
      List.getElem_range, getD_drop_take vl false ht]

/-! ### Each kind of data -/

section Sides

variable {a m : ℕ}

/-- Data kept in a `Vec` of values that `wrap` makes cells of: it fits rows of its length, its
type and its dictionary invariants hold whatever the values, and `split_off` is the `Vec`'s. -/
structure VecData {α : Type} (mk : List α → ColumnData F) (wrap : α → Value F) : Prop where
  value : ∀ l i, (mk l).value i = l[i]?.map wrap
  fits : ∀ l (v : List Bool), (mk l).Fits v ↔ l.length = v.length
  hasType : ∀ l l' t, (mk l).HasType t → (mk l').HasType t
  tagIds : ∀ l, (mk l).TagIds
  minimal : ∀ l, (mk l).DictMinimal
  nullIds : ∀ l (v : List Bool), (mk l).NullIds v
  splitOff : ∀ n l, (mk l).splitOff n = (splitVec l n).map fun p => (mk p.1, mk p.2)

/-- The data kept in a `Vec`: the part `[a, a + m)`. -/
theorem dataSide_vec {α : Type} {mk : List α → ColumnData F} {wrap : α → Value F}
    (hmk : VecData mk wrap) {d : List α} (hd : d.length = vl.length) (h : a + m ≤ vl.length) :
    DataSide (mk d) (mk ((d.drop a).take m)) vl ((vl.drop a).take m) a where
  fits := (hmk.fits _ _).mpr (by rw [length_drop_take (hd ▸ h), length_drop_take h])
  hasType t ht := hmk.hasType _ _ t ht
  tagIds := hmk.tagIds _
  minimal := hmk.minimal _
  nullIds _ := hmk.nullIds _ _
  value t ht _ := by
    rw [length_drop_take h] at ht
    rw [hmk.value, hmk.value, getElem?_drop_take d ht]

theorem dataSide_bool {d : BitSet} {bl : List Bool} (hd : d.Represents bl)
    (hbl : bl.length = vl.length) {d' : BitSet} (hd' : d'.Represents ((bl.drop a).take m))
    (h : a + m ≤ vl.length) :
    DataSide (F := F) (.bool d) (.bool d') vl ((vl.drop a).take m) a where
  fits := ⟨_, hd', by rw [length_drop_take (hbl ▸ h), length_drop_take h]⟩
  hasType _ ht := ht
  tagIds := trivial
  minimal := trivial
  nullIds _ := trivial
  value t ht _ := by
    rw [length_drop_take h] at ht
    simp only [ColumnData.value, hd'.len_eq, hd.len_eq, hd'.packs.bitAt_eq, hd.packs.bitAt_eq,
      length_drop_take (hbl ▸ h)]
    rw [if_pos ht, if_pos (by omega), getD_drop_take bl false ht]

theorem dataSide_string {d : PackedStringArray} {ss : List (List Char)} (hd : d.Holds ss)
    (hss : ss.length = vl.length) (hnull : ∀ i, vl.getD i true = false → ss.getD i [] = [])
    {d' : PackedStringArray} (hd' : d'.Holds ((ss.drop a).take m)) (h : a + m ≤ vl.length) :
    DataSide (F := F) (.string d) (.string d') vl ((vl.drop a).take m) a where
  fits := by
    refine ⟨_, hd', by rw [length_drop_take (hss ▸ h), length_drop_take h], fun i hi => ?_⟩
    have him : i < m := length_drop_take h ▸ lt_length_of_getD hi (by decide)
    rw [getD_drop_take _ _ him] at hi ⊢
    exact hnull _ hi
  hasType _ ht := ht
  tagIds := trivial
  minimal := trivial
  nullIds _ := trivial
  value t ht _ := by
    rw [length_drop_take h] at ht
    simp only [ColumnData.value, hd'.get, hd.get, getElem?_drop_take ss ht]

/-- The ids of a tag column: the part `[a, a + m)` rewritten to a new dictionary. -/
theorem dataSide_tag {ods : List (List Char)}
    (hods : dict.storage.Holds ods) (hlen : ids.length = vl.length)
    (hvalid : ∀ i, vl.getD i false = true → ∃ k < ods.length, ids[i]? = some (k : ℤ))
    (hids : ∀ id ∈ ids, id = nullDid ∨ ∃ k : ℕ, id = k ∧ k < dict.storage.len)
    {dict' : StringDictionary} {ids' : List ℤ} {ds' : List (List Char)}
    (hr : Rebuilt ods ((ids.drop a).take m) [] dict' ids' ds') (h : a + m ≤ vl.length) :
    DataSide (F := F) (.tag ids dict) (.tag ids' dict') vl ((vl.drop a).take m) a where
  fits := by
    refine ⟨ds', hr.holds, by rw [hr.length_eq, length_drop_take (hlen ▸ h),
      length_drop_take h], fun i hi => ?_⟩
    have him : i < m := length_drop_take h ▸ lt_length_of_getD hi (by decide)
    rw [getD_drop_take _ _ him] at hi
    obtain ⟨k, hk, hik⟩ := hvalid _ hi
    obtain ⟨k', hk', hds⟩ := hr.key i k (by rw [getElem?_drop_take ids him, hik])
    have hsome : ds'[k']? = some ods[k] := hds.trans (List.getElem?_eq_getElem hk)
    exact ⟨k', (List.getElem?_eq_some_iff.mp hsome).1, hk'⟩
  hasType _ ht := ht
  tagIds := by
    refine ⟨hr.consistent, fun id hid => ?_⟩
    obtain ⟨i, hi⟩ := List.mem_iff_getElem?.mp hid
    have him : i < m := by
      have := (List.getElem?_eq_some_iff.mp hi).1
      rwa [hr.length_eq, length_drop_take (hlen ▸ h)] at this
    -- the id of the old row it was rewritten from
    obtain ⟨x, hx⟩ : ∃ x, ids[a + i]? = some x := ⟨_, List.getElem?_eq_getElem (by omega)⟩
    rcases hids x (List.mem_of_getElem? hx) with rfl | ⟨k, rfl, hk⟩
    · have := hr.null i (by rw [getElem?_drop_take ids him, hx])
      exact .inl (Option.some.inj (hi.symm.trans this))
    · rw [hods.len_eq] at hk
      obtain ⟨k', hk', hds⟩ := hr.key i k (by rw [getElem?_drop_take ids him, hx])
      have hsome : ds'[k']? = some ods[k] := hds.trans (List.getElem?_eq_getElem hk)
      refine .inr ⟨k', Option.some.inj (hi.symm.trans hk'), ?_⟩
      rw [hr.holds.len_eq]
      exact (List.getElem?_eq_some_iff.mp hsome).1
  minimal := ⟨ds', hr.holds, hr.nodup, fun k hk => (hr.used k hk).resolve_left (by simp)⟩
  nullIds hn i hi := by
    have him : i < m := length_drop_take h ▸ lt_length_of_getD hi (by decide)
    rw [getD_drop_take _ _ him] at hi
    exact hr.null i (by rw [getElem?_drop_take ids him, hn _ hi])
  value t ht hv := by
    rw [length_drop_take h] at ht
    rw [getD_drop_take _ _ ht] at hv
    obtain ⟨k, hk, hik⟩ := hvalid _ hv
    obtain ⟨k', hk', hds⟩ := hr.key t k (by rw [getElem?_drop_take ids ht, hik])
    simp only [ColumnData.value, hk', hik, Option.bind_some, Int.toNat_natCast, hr.holds.get,
      hods.get, hds]

/-- `split_off` of data kept in a `Vec` of the rows `vl` at `n ≤ len`. -/
theorem splitOff_sides_vec {α : Type} (mk : List α → ColumnData F) (wrap : α → Value F)
    (hmk : VecData mk wrap) {n : ℕ} {d : List α} (hf : (mk d).Fits vl) (hn : n ≤ vl.length) :
    ∃ l r, (mk d).splitOff n = some (l, r) ∧ DataSide (mk d) l vl ((vl.drop 0).take n) 0 ∧
      DataSide (mk d) r vl ((vl.drop n).take (vl.length - n)) n := by
  have hd := (hmk.fits d vl).mp hf
  refine ⟨_, _, ?_, dataSide_vec hmk hd (by omega), dataSide_vec hmk hd (by omega)⟩
  rw [hmk.splitOff, splitVec, if_neg (by omega), List.drop_zero, drop_take_length hd]
  rfl

/-- `split_off` of the data of the rows `vl` at `n ≤ len`: the rows `[0, n)` kept, and the
rows `[n, len)` returned. -/
theorem ColumnData.splitOff_sides (hf : d.Fits vl) (hi : d.TagIds) {n : ℕ} (hn : n ≤ vl.length) :
    ∃ l r, d.splitOff n = some (l, r) ∧ DataSide d l vl ((vl.drop 0).take n) 0 ∧
      DataSide d r vl ((vl.drop n).take (vl.length - n)) n := by
  have h₀ : 0 + n ≤ vl.length := by omega
  have h₁ : n + (vl.length - n) ≤ vl.length := by omega
  cases d with
  | f64 d =>
    exact splitOff_sides_vec .f64 .f64 ⟨fun _ _ => rfl, fun _ _ => Iff.rfl, fun _ _ _ h => h,
      fun _ => trivial, fun _ => trivial, fun _ _ => trivial, fun _ _ => rfl⟩ hf hn
  | i64 d =>
    exact splitOff_sides_vec .i64 .i64 ⟨fun _ _ => rfl, fun _ _ => Iff.rfl, fun _ _ _ h => h,
      fun _ => trivial, fun _ => trivial, fun _ _ => trivial, fun _ _ => rfl⟩ hf hn
  | u64 d =>
    exact splitOff_sides_vec .u64 .u64 ⟨fun _ _ => rfl, fun _ _ => Iff.rfl, fun _ _ _ h => h,
      fun _ => trivial, fun _ => trivial, fun _ _ => trivial, fun _ _ => rfl⟩ hf hn
  | bool d =>
    obtain ⟨bl, hbl, hlen⟩ := hf
    obtain ⟨left, right, hsplit, hl, hr⟩ := BitSet.splitOff_represents hbl (hlen ▸ hn)
    rw [← @List.drop_zero _ bl] at hl
    rw [← drop_take_length hlen n] at hr
    exact ⟨_, _, by simp [ColumnData.splitOff, hsplit], dataSide_bool hbl hlen hl h₀,
      dataSide_bool hbl hlen hr h₁⟩
  | string d =>
    obtain ⟨ss, hss, hlen, hnull⟩ := hf
    obtain ⟨left, right, hsplit, hl, hr⟩ := hss.splitOff (hlen ▸ hn)
    rw [← @List.drop_zero _ ss] at hl
    rw [← drop_take_length hlen n] at hr
    exact ⟨_, _, by simp [ColumnData.splitOff, hsplit], dataSide_string hss hlen hnull hl h₀,
      dataSide_string hss hlen hnull hr h₁⟩
  | tag ids dict =>
    obtain ⟨ods, hods, hlen, hvalid⟩ := hf
    have hpart : ∀ part : List ℤ, part ⊆ ids →
        ∀ id ∈ part, id = nullDid ∨ ∃ k : ℕ, id = k ∧ k < ods.length := fun part hp id hid =>
      hods.len_eq ▸ hi.2 id (hp hid)
    obtain ⟨dl, idsl, dsl, hrl, hl⟩ := rebuildDictionary_spec hods
      (hpart _ (List.take_subset n ids))
    obtain ⟨dr, idsr, dsr, hrr, hr⟩ := rebuildDictionary_spec hods
      (hpart _ (List.drop_subset n ids))
    rw [← @List.drop_zero _ ids] at hl
    rw [← drop_take_length hlen n] at hr
    refine ⟨_, _, ?_, dataSide_tag hods hlen hvalid hi.2 hl h₀,
      dataSide_tag hods hlen hvalid hi.2 hr h₁⟩
    simp [ColumnData.splitOff, splitVec, hlen, Nat.not_lt.mpr hn, hrl, hrr]

end Sides

/-! ## What a split does to a column -/

/-- A side of a split of the column `c`: a well-formed column of its type holding the cells of
its rows `[a, a + m)`, whose dictionary holds only strings they use, and whose NULL tag rows hold
`NULL_DID` when those of `c` do. -/
structure SplitSide (c s : Column F) (a m : ℕ) : Prop where
  influxType_eq : s.influxType = c.influxType
  wellFormed : s.WellFormed
  tagIds : s.data.TagIds
  len_eq : s.valid.len = m
  cells_eq : s.cells = (c.cells.drop a).take m
  minimal : s.data.DictMinimal
  nullIds : c.data.NullIds c.valid.toList → s.data.NullIds s.valid.toList

/-- A side is described by its validity and its data. -/
theorem splitSide_of {c s : Column F} {a m : ℕ} (hc : c.WellFormed) (h : a + m ≤ c.valid.len)
    (htype : s.influxType = c.influxType)
    (hs : s.valid.Represents ((c.valid.toList.drop a).take m))
    (hd : DataSide c.data s.data c.valid.toList ((c.valid.toList.drop a).take m) a) :
    SplitSide c s a m where
  influxType_eq := htype
  wellFormed := ⟨hs.valid, by rw [← hs.eq_toList]; exact hd.fits,
    htype ▸ hd.hasType _ hc.hasType⟩
  tagIds := hd.tagIds
  len_eq := by rw [hs.len_eq, length_drop_take (hc.valid.len_eq ▸ h)]
  cells_eq := by
    rw [Column.cells_of_represents hs, Column.cells_of_represents hc.valid, cellsOf_drop_take]
    exact cellsOf_congr fun t ht hv => hd.value t ht hv
  minimal := hd.minimal
  nullIds hn := by
    rw [← hs.eq_toList]
    exact hd.nullIds hn

/-- `Column::split_off` at `n ≤ len`: the rows `[0, n)` kept, and the rows `[n, len)`
returned. -/
theorem Column.splitOff_sides [Zero F] (hc : c.WellFormed) (hi : c.data.TagIds)
    {n : ℕ} (hn : n ≤ c.valid.len) :
    ∃ l r, c.splitOff n = some (l, r) ∧ SplitSide c l 0 n ∧ SplitSide c r n (c.valid.len - n) := by
  have hlen : c.valid.len = c.valid.toList.length := hc.valid.len_eq
  obtain ⟨left, right, hsplit, hl, hr⟩ := BitSet.splitOff_represents hc.valid (hlen ▸ hn)
  obtain ⟨ld, rd, hdsplit, hdl, hdr⟩ := ColumnData.splitOff_sides hc.fits hi (hlen ▸ hn)
  rw [← @List.drop_zero _ c.valid.toList] at hl
  rw [← drop_take_length (l := c.valid.toList) hlen.symm n] at hr
  rw [← hlen] at hdr
  refine ⟨{ c with valid := left, data := ld }, { c with valid := right, data := rd }, ?_,
    splitSide_of hc (by omega) rfl hl hdl, splitSide_of hc (by omega) rfl hr hdr⟩
  simp [Column.splitOff, Nat.not_lt.mpr hn, hsplit, hdsplit]

/-! ## The statistics of a split -/

theorem ColumnData.value_ne_none (hf : d.Fits vl) {i : ℕ}
    (hv : vl.getD i false = true) : d.value i ≠ none := by
  have hi : i < vl.length := lt_length_of_getD hv (by decide)
  cases d with
  | f64 d | i64 d | u64 d =>
    have hd : d.length = vl.length := hf
    simp [ColumnData.value, List.getElem?_eq_getElem (hd ▸ hi)]
  | bool d =>
    obtain ⟨bl, hbl, hlen⟩ := hf
    simp [ColumnData.value, hbl.len_eq, hlen, hi]
  | string d =>
    obtain ⟨ss, hss, hlen, -⟩ := hf
    simp [ColumnData.value, hss.get, List.getElem?_eq_getElem (hlen ▸ hi)]
  | tag ids dict =>
    obtain ⟨ds, hds, -, hvalid⟩ := hf
    obtain ⟨k, hk, hik⟩ := hvalid i hv
    simp [ColumnData.value, hik, hds.get, List.getElem?_eq_getElem hk]

theorem ColumnData.length_of_fits (hf : d.Fits vl) : d.length = vl.length := by
  cases d with
  | f64 d | i64 d | u64 d => exact hf
  | bool d =>
    obtain ⟨bl, hbl, hlen⟩ := hf
    rw [ColumnData.length, hbl.len_eq, hlen]
  | string d =>
    obtain ⟨ss, hss, hlen, -⟩ := hf
    rw [ColumnData.length, hss.len_eq, hlen]
  | tag ids dict =>
    obtain ⟨-, -, hlen, -⟩ := hf
    exact hlen

/-- A well-formed column is NULL exactly at its unset bits. -/
theorem Column.count_none_cells [DecidableEq F] (hc : c.WellFormed) :
    c.cells.count none = c.valid.toList.count false := by
  rw [Column.cells_of_represents hc.valid]
  conv_rhs => rw [← BitSet.map_getD_range c.valid.toList]
  rw [cellsOf, List.count_eq_countP, List.countP_map, List.count_eq_countP, List.countP_map]
  refine List.countP_congr fun i _ => ?_
  by_cases hv : c.valid.toList.getD i false = true
  · have hne := ColumnData.value_ne_none hc.fits hv
    rw [List.getD_eq_getElem?_getD] at hv
    simp [hv, hne]
  · rw [List.getD_eq_getElem?_getD] at hv
    simp [hv]

/-- The cells of a tag column whose NULL rows hold `NULL_DID` and whose dictionary `ds` is
minimal: the strings of the dictionary, and NULL when a row is NULL. -/
theorem mem_cellsOf_tag
    {ds : List (List Char)} (hds : dict.storage.Holds ds) (hlen : ids.length = vl.length)
    (hvalid : ∀ i, vl.getD i false = true → ∃ k < ds.length, ids[i]? = some (k : ℤ))
    (hnull : ∀ i, vl.getD i true = false → ids[i]? = some nullDid)
    (hused : ∀ k < ds.length, (k : ℤ) ∈ ids) {x : Option (Value F)} :
    x ∈ cellsOf vl (ColumnData.tag ids dict).value ↔
      (∃ v ∈ ds, some (.tag v) = x) ∨ (x = none ∧ false ∈ vl) := by
  constructor
  · intro hx
    obtain ⟨i, hi, rfl⟩ := List.mem_map.mp hx
    have hi : i < vl.length := List.mem_range.mp hi
    by_cases hv : vl.getD i false = true
    · obtain ⟨k, hk, hik⟩ := hvalid i hv
      refine .inl ⟨ds[k], List.getElem_mem hk, ?_⟩
      rw [if_pos hv]
      simp [ColumnData.value, hik, hds.get, List.getElem?_eq_getElem hk]
    · refine .inr ⟨by rw [if_neg hv], ?_⟩
      rw [List.getD_eq_getElem _ _ hi] at hv
      exact List.mem_of_getElem (by simpa using hv)
  · rintro (⟨v, hv, rfl⟩ | ⟨rfl, hf⟩)
    · -- a string of the dictionary is used by a row, which is not NULL
      obtain ⟨k, hk, rfl⟩ := List.getElem_of_mem hv
      obtain ⟨i, hik⟩ := List.mem_iff_getElem?.mp (hused k hk)
      have hi : i < vl.length := hlen ▸ (List.getElem?_eq_some_iff.mp hik).1
      have hv : vl.getD i false = true := by
        by_contra hv
        have hnul := hnull i (by rw [List.getD_eq_getElem _ _ hi] at hv ⊢; simpa using hv)
        exact natCast_ne_nullDid k (Option.some.inj (hik.symm.trans hnul))
      refine List.mem_map.mpr ⟨i, List.mem_range.mpr hi, ?_⟩
      rw [if_pos hv]
      simp [ColumnData.value, hik, hds.get, List.getElem?_eq_getElem hk]
    · obtain ⟨i, hi, hvi⟩ := List.getElem_of_mem hf
      refine List.mem_map.mpr ⟨i, List.mem_range.mpr hi, ?_⟩
      rw [List.getD_eq_getElem _ _ hi, hvi]
      rfl

/-- The distinct cells of such a column: its strings, and NULL once if a row is NULL. -/
theorem length_dedup_cellsOf_tag [DecidableEq F]
    {ds : List (List Char)} (hds : dict.storage.Holds ds)
    (hlen : ids.length = vl.length)
    (hvalid : ∀ i, vl.getD i false = true → ∃ k < ds.length, ids[i]? = some (k : ℤ))
    (hnull : ∀ i, vl.getD i true = false → ids[i]? = some nullDid)
    (hnd : ds.Nodup) (hused : ∀ k < ds.length, (k : ℤ) ∈ ids) :
    (cellsOf vl (ColumnData.tag (F := F) ids dict).value).dedup.length =
      ds.length + if 0 < vl.count false then 1 else 0 := by
  have hnone : (ds.map fun v => some (Value.tag (F := F) v)).Nodup ∧
      none ∉ ds.map fun v => some (Value.tag (F := F) v) :=
    ⟨hnd.map fun v w h => by simpa using h, by simp⟩
  by_cases hf : false ∈ vl
  · -- the strings, then NULL
    have hperm : (cellsOf vl (ColumnData.tag (F := F) ids dict).value).dedup.Perm
        ((ds.map fun v => some (Value.tag v)) ++ [none]) := by
      refine (List.perm_ext_iff_of_nodup (List.nodup_dedup _)
        (List.nodup_append.mpr ⟨hnone.1, List.nodup_cons.mpr ⟨List.not_mem_nil, List.nodup_nil⟩,
          fun a ha b hb hab => hnone.2 (by rw [List.mem_singleton] at hb; rwa [hab, hb] at ha)⟩))
        |>.mpr fun x => ?_
      rw [List.mem_dedup, mem_cellsOf_tag hds hlen hvalid hnull hused, List.mem_append,
        List.mem_map, List.mem_singleton]
      simp only [hf, and_true]
    rw [hperm.length_eq, if_pos (List.count_pos_iff.mpr hf), List.length_append, List.length_map,
      List.length_singleton]
  · -- the strings only
    have hperm : (cellsOf vl (ColumnData.tag (F := F) ids dict).value).dedup.Perm
        (ds.map fun v => some (Value.tag v)) := by
      refine (List.perm_ext_iff_of_nodup (List.nodup_dedup _) hnone.1).mpr fun x => ?_
      rw [List.mem_dedup, mem_cellsOf_tag hds hlen hvalid hnull hused, List.mem_map]
      simp only [hf, and_false, or_false]
    rw [hperm.length_eq, if_neg (mt List.count_pos_iff.mp hf), List.length_map, Nat.add_zero]

theorem ColumnData.hasType_tag_iff {t : InfluxColumnType} (h : d.HasType t) :
    (∃ ids dict, d = .tag ids dict) ↔ t = .tag := by
  cases d with
  | tag ids dict => exact ⟨fun _ => h, fun _ => ⟨ids, dict, rfl⟩⟩
  | i64 d =>
    rcases (h : t = .field .integer ∨ t = .timestamp) with rfl | rfl <;> simp
  | f64 d | u64 d | bool d | string d =>
    simp only [ColumnData.HasType] at h
    subst h
    simp

theorem splitStats_of_not_tag {l r : Column F} (h : ∀ ids dict, l.data ≠ .tag ids dict)
    (nullCount : Option ℕ) :
    splitStats nullCount l r = (⟨l.valid.len, nullCount.map (· - r.valid.countZeros), none⟩,
      ⟨r.data.length, some r.valid.countZeros, none⟩) := by
  unfold splitStats
  split
  · rename_i heq _
    exact absurd heq (h _ _)
  · rfl

theorem Column.recount_of_not_tag [DecidableEq F] (h : ∀ ids dict, c.data ≠ .tag ids dict) :
    c.recount = ⟨c.cells.length, some (c.cells.count none), none⟩ := by
  unfold Column.recount
  split
  · rename_i heq
    exact absurd heq (h _ _)
  · rfl

/-- The distinct count `split_off` writes for a side of a tag column. -/
theorem Column.nonZero_distinct [DecidableEq F] (hd : c.data = .tag ids dict) (hc : c.WellFormed)
    (hmin : c.data.DictMinimal) (hnull : c.data.NullIds c.valid.toList) :
    nonZero (dict.storage.len + if 0 < c.cells.count none then 1 else 0) =
      nonZero c.cells.dedup.length := by
  have hf := hc.fits
  rw [hd] at hf hmin hnull
  obtain ⟨ds, hds, hnd, hused⟩ := hmin
  obtain ⟨ds', hds', hlen, hvalid⟩ := hf
  obtain rfl := hds'.strings_eq hds
  rw [Column.count_none_cells hc, Column.cells_of_represents hc.valid, hd,
    length_dedup_cellsOf_tag hds hlen hvalid hnull hnd hused, hds.len_eq]

/-- On a column whose NULL count was exact and whose NULL tag rows hold `NULL_DID`, the
statistics `split_off` writes on both sides are those recounted from their cells. -/
theorem splitStats_recount [DecidableEq F] {c l r : Column F}
    (hnull : c.data.NullIds c.valid.toList) {n : ℕ} (hl : SplitSide c l 0 n) (hr : SplitSide c r n (c.valid.len - n))
    {nullCount : Option ℕ} (hcount : nullCount = some (c.cells.count none)) :
    splitStats nullCount l r = (l.recount, r.recount) := by
  -- the cells of the two sides make up those of `c`
  have hcells : c.cells = l.cells ++ r.cells := by
    rw [hl.cells_eq, hr.cells_eq, List.drop_zero,
      drop_take_length (by simp [Column.cells]) n, List.take_append_drop]
  have hrz : r.valid.countZeros = r.cells.count none := by
    rw [BitSet.countZeros_represents hr.wellFormed.valid, Column.count_none_cells hr.wellFormed]
  have hlz : nullCount.map (· - r.valid.countZeros) = some (l.cells.count none) := by
    rw [hcount, Option.map_some, hrz, hcells, List.count_append, Nat.add_sub_cancel]
  have hllen : l.valid.len = l.cells.length := by simp [Column.cells]
  have hrlen : r.data.length = r.cells.length := by
    rw [ColumnData.length_of_fits hr.wellFormed.fits, ← hr.wellFormed.valid.len_eq]
    simp [Column.cells]
  have hlt := ColumnData.hasType_tag_iff hl.wellFormed.hasType
  have hrt := ColumnData.hasType_tag_iff hr.wellFormed.hasType
  rw [hl.influxType_eq] at hlt
  rw [hr.influxType_eq] at hrt
  by_cases ht : c.influxType = .tag
  · -- a tag column: both sides are tag columns, with the distinct counts of their cells
    obtain ⟨lids, ldict, hld⟩ := hlt.mpr ht
    obtain ⟨rids, rdict, hrd⟩ := hrt.mpr ht
    have hrl : rids.length = r.cells.length := by rw [← hrlen, hrd]; rfl
    have hdl := Column.nonZero_distinct hld hl.wellFormed hl.minimal (hl.nullIds hnull)
    have hdr := Column.nonZero_distinct hrd hr.wellFormed hr.minimal (hr.nullIds hnull)
    simp only [splitStats, Column.recount, hld, hrd]
    rw [hlz, hrz, Option.getD_some, hdl, hdr, hllen, hrl]
  · have hl' : ∀ ids dict, l.data ≠ .tag ids dict := fun ids dict h => ht (hlt.mp ⟨ids, dict, h⟩)
    have hr' : ∀ ids dict, r.data ≠ .tag ids dict := fun ids dict h => ht (hrt.mp ⟨ids, dict, h⟩)
    rw [splitStats_of_not_tag hl', Column.recount_of_not_tag hl', Column.recount_of_not_tag hr',
      hlz, hrz, hllen, hrlen]

/-! ## What a split does to a batch -/

/-- The step of `MutableBatch::split_off` on one column. -/
def splitColumn [Zero F] (n : ℕ) (p : List Char × Column F) :
    Option ((List Char × Column F) × (List Char × Column F)) :=
  (p.2.splitOff n).map fun s => ((p.1, s.1), (p.1, s.2))

theorem splitOff_eq [Zero F] (b : MutableBatch F) (n : ℕ) :
    b.splitOff n = if b.rowCount < n then none else
      (b.columns.mapM (splitColumn n)).bind fun columns =>
        some (⟨columns.map Prod.fst, n⟩, ⟨columns.map Prod.snd, b.rowCount - n⟩) := rfl

section Batch

variable [Zero F] {b : MutableBatch F} {n : ℕ}

/-- Every column of a well-formed batch of at least `n` rows splits at `n`. -/
theorem splitColumn_sides (hb : b.WellFormed) (hn : n ≤ b.rows) {p : List Char × Column F}
    (hp : p ∈ b.columns) :
    ∃ s, p.2.splitOff n = some s ∧ splitColumn n p = some ((p.1, s.1), (p.1, s.2)) ∧
      SplitSide p.2 s.1 0 n ∧ SplitSide p.2 s.2 n (b.rows - n) := by
  obtain ⟨hwf, hti, hlen⟩ := hb.column p hp
  obtain ⟨l, r, hs, hl, hr⟩ := Column.splitOff_sides hwf hti
    (show n ≤ p.2.valid.len by rw [hlen]; exact hn)
  rw [hlen] at hr
  exact ⟨(l, r), hs, by simp [splitColumn, hs], hl, hr⟩

/-- The columns of both sides: each the split of a column of `b` under its name. -/
theorem mem_splitColumns (hb : b.WellFormed) (hn : n ≤ b.rows)
    {cs : List ((List Char × Column F) × (List Char × Column F))}
    (hmap : cs.map some = b.columns.map (splitColumn n))
    {q : (List Char × Column F) × (List Char × Column F)} (hq : q ∈ cs) :
    ∃ c, (q.1.1, c) ∈ b.columns ∧ q.2.1 = q.1.1 ∧ SplitSide c q.1.2 0 n ∧
      SplitSide c q.2.2 n (b.rows - n) := by
  obtain ⟨p, hp, hpq⟩ := List.mem_map.mp (hmap ▸ List.mem_map_of_mem (f := some) hq)
  obtain ⟨s, -, hsplit, hl, hr⟩ := splitColumn_sides hb hn hp
  obtain rfl := Option.some.inj (hsplit.symm.trans hpq)
  exact ⟨p.2, hp, rfl, hl, hr⟩

/-- Both sides of a split batch keep the names of `b`, in order. -/
theorem names_splitColumns (hb : b.WellFormed) (hn : n ≤ b.rows)
    {cs : List ((List Char × Column F) × (List Char × Column F))}
    (hmap : cs.map some = b.columns.map (splitColumn n))
    (side : (List Char × Column F) × (List Char × Column F) → List Char × Column F)
    (hside : ∀ (name : List Char) (l r : Column F), (side ((name, l), (name, r))).1 = name) :
    (cs.map side).map Prod.fst = b.columns.map Prod.fst := by
  rw [List.map_map]
  refine Simulation.map_eq_of_map_some hmap fun p hp q hq => ?_
  obtain ⟨s, -, hsplit, -⟩ := splitColumn_sides hb hn hp
  obtain rfl := Option.some.inj (hq.symm.trans hsplit)
  exact hside _ _ _

/-- `MutableBatch::split_off` at `n <= rows` of a well-formed batch: both sides have the
columns of `b`, the left its first `n` rows and the right the others, each column split into
sides that are well formed, of its type and with a minimal dictionary, whose statistics are
those recounted from their cells when the column's NULL count was exact and its NULL tag rows
hold `NULL_DID`. -/
theorem splitOff_partitions [DecidableEq F] (hb : b.WellFormed) (hn : n ≤ b.rows) :
    ∃ l r, b.splitOff n = some (l, r) ∧ l.rows = n ∧ r.rows = b.rows - n ∧
      l.columns.map Prod.fst = b.columns.map Prod.fst ∧
      r.columns.map Prod.fst = b.columns.map Prod.fst ∧ l.WellFormed ∧ r.WellFormed ∧
      (∀ name, columnCells l name = (columnCells b name).take n ∧
        columnCells r name = (columnCells b name).drop n) ∧
      ∀ name c, (name, c) ∈ b.columns → ∃ cl cr, (name, cl) ∈ l.columns ∧
        (name, cr) ∈ r.columns ∧ SplitSide c cl 0 n ∧ SplitSide c cr n (b.rows - n) ∧
        (c.data.NullIds c.valid.toList → ∀ nullCount, nullCount = some (c.cells.count none) →
          splitStats nullCount cl cr = (cl.recount, cr.recount)) := by
  obtain ⟨cs, hcs, hmap⟩ := Simulation.mapM_eq_some (f := splitColumn n) b.columns fun p hp =>
    (splitColumn_sides hb hn hp).elim fun _ h => ⟨_, h.2.1⟩
  have hfst := names_splitColumns hb hn hmap Prod.fst fun _ _ _ => rfl
  have hsnd := names_splitColumns hb hn hmap Prod.snd fun _ _ _ => rfl
  -- each column of `b` has its two sides in `cs`
  have hto : ∀ name c, (name, c) ∈ b.columns → ∃ cl cr, ((name, cl), (name, cr)) ∈ cs ∧
      SplitSide c cl 0 n ∧ SplitSide c cr n (b.rows - n) := by
    intro name c hc
    obtain ⟨s, -, hsplit, hl, hr⟩ := splitColumn_sides hb hn hc
    have hmem : some ((name, s.1), (name, s.2)) ∈ cs.map some := by
      rw [hmap, ← hsplit]
      exact List.mem_map_of_mem hc
    exact ⟨s.1, s.2, by simpa using hmem, hl, hr⟩
  let l : MutableBatch F := ⟨cs.map Prod.fst, n⟩
  let r : MutableBatch F := ⟨cs.map Prod.snd, b.rowCount - n⟩
  have hl : l.WellFormed := by
    refine ⟨by rw [hfst]; exact hb.nodup, fun p hp => ?_⟩
    obtain ⟨q, hq, rfl⟩ := List.mem_map.mp hp
    obtain ⟨c, -, -, hside, -⟩ := mem_splitColumns hb hn hmap hq
    exact ⟨hside.wellFormed, hside.tagIds, hside.len_eq⟩
  have hr : r.WellFormed := by
    refine ⟨by rw [hsnd]; exact hb.nodup, fun p hp => ?_⟩
    obtain ⟨q, hq, rfl⟩ := List.mem_map.mp hp
    obtain ⟨c, -, -, -, hside⟩ := mem_splitColumns hb hn hmap hq
    exact ⟨hside.wellFormed, hside.tagIds, hside.len_eq⟩
  refine ⟨l, r, by rw [splitOff_eq, if_neg (by exact Nat.not_lt.mpr hn), hcs]; rfl, rfl, rfl,
    hfst, hsnd, hl, hr, fun name => ?_, fun name c hc => ?_⟩
  · by_cases hname : name ∈ b.columns.map Prod.fst
    · -- a column of `b`: the cells of its sides
      obtain ⟨⟨x, c⟩, hc, rfl : x = name⟩ := List.mem_map.mp hname
      obtain ⟨cl, cr, hq, hsl, hsr⟩ := hto x c hc
      have hv : c.valid.len = b.rowCount := (hb.column _ hc).2.2
      have hlen : c.cells.length = b.rows := by simp [Column.cells, hv, MutableBatch.rows]
      rw [columnCells_of_mem hl.nodup (List.mem_map_of_mem (f := Prod.fst) hq),
        columnCells_of_mem hr.nodup (List.mem_map_of_mem (f := Prod.snd) hq),
        columnCells_of_mem hb.nodup hc, hsl.cells_eq, hsr.cells_eq, List.drop_zero,
        drop_take_length hlen]
      exact ⟨rfl, rfl⟩
    · -- a name `b` lacks: NULL on every row of both sides
      have h₁ : columnCells l name = List.replicate n none := columnCells_of_not_mem
        (show name ∉ (cs.map Prod.fst).map Prod.fst by rwa [hfst])
      have h₂ : columnCells r name = List.replicate (b.rowCount - n) none := columnCells_of_not_mem
        (show name ∉ (cs.map Prod.snd).map Prod.fst by rwa [hsnd])
      rw [h₁, h₂, columnCells_of_not_mem hname, List.take_replicate, List.drop_replicate,
        Nat.min_eq_left (show n ≤ b.rowCount from hn)]
      exact ⟨rfl, rfl⟩
  · obtain ⟨cl, cr, hq, hsl, hsr⟩ := hto name c hc
    have hsr' : SplitSide c cr n (c.valid.len - n) := by
      rw [(hb.column _ hc).2.2]
      exact hsr
    exact ⟨cl, cr, List.mem_map_of_mem (f := Prod.fst) hq, List.mem_map_of_mem (f := Prod.snd) hq,
      hsl, hsr, fun hnull _ hcount => splitStats_recount hnull hsl hsr' hcount⟩

/-- `split_off(1)` on `twoRows`: row 0 stays and row 1 is returned. -/
theorem splitOff_twoRows_at_one :
    ∃ l r, twoRows.splitOff 1 = some (l, r) ∧ columnCells l ['x'] = [some (.i64 1)] ∧
      columnCells r ['x'] = [some (.i64 2)] := by
  obtain ⟨l, r, hs, -, -, -, -, -, -, hcells, -⟩ :=
    splitOff_partitions twoRows_wellFormed (show 1 ≤ twoRows.rows by decide)
  refine ⟨l, r, hs, ?_, ?_⟩
  · rw [(hcells _).1]
    rfl
  · rw [(hcells _).2]
    rfl

end Batch

end IoxCore.MutableBatch

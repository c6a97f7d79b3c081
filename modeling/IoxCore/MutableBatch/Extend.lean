import IoxCore.MutableBatch.Writes
import IoxCore.Lib.Simulation
import IoxCore.Lib.Runs

/-!
# Copying rows between batches

`MutableBatch::extend_from_ranges` appends rows of another batch through a writer:
`write_batch_ranges` copies, column by column, the rows of each range (`write_slice` for the
numeric columns, `extend_from_range` for the bit sets and the packed strings, and the tag ids
through a mapping into the destination dictionary built as the source keys are met), and then
the commit pads the columns the source does not have. When the lengths of the ranges add up to
the source's row count it takes `write_batch` instead, which appends every row of the source.

## The model

The source's columns are visited in the order of their list (a `HashMap` in the source, whose
order only decides where new columns go). An `unreachable!`, a failed assertion, a slice or an
index out of bounds and an `unwrap` of `None` are panics (`none`). A `Result::Err` of
`column_mut` drops the writer, which rolls the batch back. The statistics are not modelled.

## What is proved

Each copy of a column is described by the cells it leaves (`ColumnExtends`): the destination's
cells, then those of some rows of the source, every row for `write_batch`
(`Column.extendFrom_extends`) and the rows of the ranges for `write_batch_ranges`
(`Column.extendFromRanges_extends`). `extendFromRanges_cells`: on well-formed batches whose
common columns have one type, with ranges within the source, `extend_from_ranges` succeeds, and
each column of the result holds its rows of the destination followed by the source's rows
`copiedRows`: the rows of the ranges, or every row of the source when their lengths add up to
its row count, whatever the ranges are.
-/

namespace IoxCore.MutableBatch

open ArrowUtil PackedBits Runs

variable {F : Type} {name : List Char} {t : InfluxColumnType} {w : Writer F} {b : MutableBatch F}
    {ranges : List (ℕ × ℕ)} {c : Column F} {idx : ℕ}

/-! ## The copies of the data of a column -/

/-- The keys in `dict` of the strings `values`, each looked up or inserted in turn: the
`mapping` of `write_batch`. -/
def lookupAll (dict : StringDictionary) :
    List (List Char) → Option (List ℕ × StringDictionary)
  | [] => some ([], dict)
  | value :: values => do
    let (id, dict) ← dict.lookupValueOrInsert value
    let (ids, dict) ← lookupAll dict values
    some (id :: ids, dict)

/-- The id of a source row of `write_batch` in the destination dictionary: `NULL_DID` stays,
and any other id indexes the mapping as a `usize` (a negative one is out of bounds). -/
def remapId (mapping : List ℕ) (id : ℤ) : Option ℤ :=
  if id = nullDid then some nullDid
  else if id < 0 then none
  else mapping[id.toNat]?.map (↑)

/-- The data of `write_batch` for one column: the rows of `src` after those of `dst`. Data
of two kinds is `unreachable!`. -/
def ColumnData.extendFrom : ColumnData F → ColumnData F → Option (ColumnData F)
  | .f64 d, .f64 s => some (.f64 (d ++ s))
  | .i64 d, .i64 s => some (.i64 (d ++ s))
  | .u64 d, .u64 s => some (.u64 (d ++ s))
  | .bool d, .bool s => (d.extendFrom s).map .bool
  | .string d, .string s => some (.string (d.extendFrom s))
  | .tag d dict, .tag s srcDict => do
    let (mapping, dict) ← lookupAll dict srcDict.storage.iter
    let ids ← s.mapM (remapId mapping)
    some (.tag (d ++ ids) dict)
  | _, _ => none

/-- `write_slice`: the rows `ranges` of `src` after `dst`. -/
def writeSlice {α : Type} (ranges : List (ℕ × ℕ)) (src dst : List α) : Option (List α) :=
  ranges.foldlM (fun dst range => (slice src range.1 range.2).map (dst ++ ·)) dst

/-- The id of a source row of `write_batch_ranges` in the destination dictionary. The
mapping keeps, for each source key, the id it got when it was first met; `lookup_id` of a
key not yet met is unwrapped. -/
def tagRangeStore (srcDict : StringDictionary) (p : StringDictionary × List (Option ℤ))
    (id : ℤ) : Option (ℤ × StringDictionary × List (Option ℤ)) :=
  if id = nullDid then some (nullDid, p)
  else if id < 0 then none
  else
    match p.2[id.toNat]? with
    | none => none
    | some (some did) => some (did, p)
    | some none => do
      let value ← srcDict.storage.get id.toNat
      let (did, dict) ← p.1.lookupValueOrInsert value
      some (did, dict, p.2.set id.toNat (some (did : ℤ)))

/-- One range of the tag copy of `write_batch_ranges`: the ids, the dictionary and the
mapping. -/
def tagRange (src : List ℤ) (srcDict : StringDictionary)
    (acc : List ℤ × StringDictionary × List (Option ℤ)) (range : ℕ × ℕ) :
    Option (List ℤ × StringDictionary × List (Option ℤ)) := do
  let ids ← slice src range.1 range.2
  ids.foldlM (fun acc id =>
    (tagRangeStore srcDict acc.2 id).map fun r => (acc.1 ++ [r.1], r.2)) acc

/-- The data of `write_batch_ranges` for one column: the rows `ranges` of `src` after those
of `dst`. -/
def ColumnData.extendFromRanges (ranges : List (ℕ × ℕ)) :
    ColumnData F → ColumnData F → Option (ColumnData F)
  | .f64 d, .f64 s => (writeSlice ranges s d).map .f64
  | .i64 d, .i64 s => (writeSlice ranges s d).map .i64
  | .u64 d, .u64 s => (writeSlice ranges s d).map .u64
  | .bool d, .bool s =>
    (ranges.foldlM (fun d range => BitSet.extendFromRange d s range) d).map .bool
  | .string d, .string s =>
    (ranges.foldlM (fun d range => PackedStringArray.extendFromRange d s range) d).map .string
  | .tag d dict, .tag s srcDict =>
    (ranges.foldlM (tagRange s srcDict) (d, dict, List.replicate srcDict.storage.len none)).map
      fun r => .tag r.1 r.2.1
  | _, _ => none

/-- `write_batch` on one column: its data, then its validity. -/
def Column.extendFrom (dst src : Column F) : Option (Column F) := do
  let data ← dst.data.extendFrom src.data
  let valid ← dst.valid.extendFrom src.valid
  some { dst with data, valid }

/-- `write_batch_ranges` on one column: its data, then its validity range by range. -/
def Column.extendFromRanges (ranges : List (ℕ × ℕ)) (dst src : Column F) : Option (Column F) := do
  let data ← dst.data.extendFromRanges ranges src.data
  let valid ← ranges.foldlM (fun valid range => valid.extendFromRange src.valid range) dst.valid
  some { dst with data, valid }

/-! ## The writes of a batch -/

namespace Writer

/-- The loop of `write_batch` and `write_batch_ranges` over the source's columns: each one
found or created by `column_mut`, then copied by `extend`. -/
def writeColumns [Zero F] (extend : Column F → Column F → Option (Column F)) :
    List (List Char × Column F) → Writer F → Writer F × Option Failure
  | [], w => (w, none)
  | (name, srcCol) :: rest, w =>
    match w.columnMut name srcCol.influxType with
    | (w, .error f) => (w, some f)
    | (w, .ok (idx, dstCol)) =>
      match extend dstCol srcCol with
      | none => (w, some .panic)
      | some col => writeColumns extend rest (w.setColumn idx col)

/-- `write_batch`: every row of `src`, which must have `to_insert` rows. -/
def writeBatch [Zero F] (w : Writer F) (src : MutableBatch F) : Writer F × Option Failure :=
  if src.rowCount = w.toInsert then writeColumns Column.extendFrom src.columns w
  else (w, some .panic)

/-- `write_batch_ranges`: the rows `ranges` of `src`, through `write_batch` when there are as
many as `src` has. -/
def writeBatchRanges [Zero F] (w : Writer F) (src : MutableBatch F) (ranges : List (ℕ × ℕ)) :
    Writer F × Option Failure :=
  if w.toInsert = src.rowCount then w.writeBatch src
  else writeColumns (Column.extendFromRanges ranges) src.columns w

end Writer

/-- `extend_from_ranges`: the batch after the commit, or after the rollback of the writer
with the error of `write_batch_ranges`. A reversed range overflows the subtraction of its
length. -/
def extendFromRanges [Zero F] (b other : MutableBatch F) (ranges : List (ℕ × ℕ)) :
    Option (MutableBatch F × Option Error) := do
  let lengths ← ranges.mapM fun range =>
    if range.1 ≤ range.2 then some (range.2 - range.1) else none
  match (Writer.new b lengths.sum).writeBatchRanges other ranges with
  | (w, none) => w.commit.map (·, none)
  | (w, some (.error e)) => w.rollback.map (·, some e)
  | (_, some .panic) => none

/-! ## What a copy of the data does -/

/-- Two data of the same kind. -/
def ColumnData.SameKind : ColumnData F → ColumnData F → Prop
  | .f64 _, .f64 _ | .i64 _, .i64 _ | .u64 _, .u64 _ | .bool _, .bool _ | .string _, .string _
  | .tag _ _, .tag _ _ => True
  | _, _ => False

theorem ColumnData.sameKind_of_hasType {d s : ColumnData F}
    (hd : d.HasType t) (hs : s.HasType t) : d.SameKind s := by
  cases d <;> cases s <;> simp_all [HasType, SameKind]

/-- The ids of a tag column are `NULL_DID` or keys of its dictionary, whose index is
consistent. -/
def ColumnData.TagIds : ColumnData F → Prop
  | .tag data dict => dict.Consistent ∧
      ∀ id ∈ data, id = nullDid ∨ ∃ k : ℕ, id = k ∧ k < dict.storage.len
  | _ => True

/-- `d'` holds the rows of `d` and then the rows `rows` of `s`: the same value at each valid
row, `vl` and `vs` being the validity of `d` and of `s`. -/
structure DataExtends (d' d s : ColumnData F) (vl vs : List Bool) (rows : List ℕ) : Prop where
  length_eq : d'.length = vl.length + rows.length
  old : ∀ i < vl.length, vl.getD i false = true → d'.value i = d.value i
  new : ∀ t (ht : t < rows.length), vs.getD rows[t] false = true →
    d'.value (vl.length + t) = s.value rows[t]

section DataExtends

variable {vl vs : List Bool} {rows : List ℕ}

/-- The data kept in a `Vec`. -/
theorem dataExtends_vec {α : Type} {mk : List α → ColumnData F} {wrap : α → Value F}
    (hval : ∀ l i, (mk l).value i = l[i]?.map wrap) (hlen : ∀ l, (mk l).length = l.length)
    {d xs s : List α} (hd : d.length = vl.length) (hx : xs.map some = rows.map (s[·]?)) :
    DataExtends (mk (d ++ xs)) (mk d) (mk s) vl vs rows where
  length_eq := by rw [hlen, List.length_append, hd, length_of_map_some hx]
  old i hi _ := by rw [hval, hval, List.getElem?_append_left (by omega)]
  new t ht _ := by
    rw [hval, hval, ← hd, List.getElem?_append_right (by omega), Nat.add_sub_cancel_left,
      getElem?_of_map_some hx ht]

theorem dataExtends_bool {d' d s : BitSet} {bl sl xs : List Bool} (hd : d.Represents bl)
    (hbl : bl.length = vl.length) (hs : s.Represents sl) (h' : d'.Represents (bl ++ xs))
    (hx : xs.map some = rows.map (sl[·]?)) :
    DataExtends (F := F) (.bool d') (.bool d) (.bool s) vl vs rows where
  length_eq := by simp [ColumnData.length, h'.len_eq, hbl, length_of_map_some hx]
  old i hi _ := by
    simp only [ColumnData.value, h'.len_eq, hd.len_eq, h'.packs.bitAt_eq, hd.packs.bitAt_eq,
      List.length_append]
    rw [if_pos (by omega), if_pos (by omega), List.getD_append _ _ _ _ (by omega)]
  new t ht _ := by
    have hxt := getElem?_of_map_some hx ht
    have hxlen := length_of_map_some hx
    have hlt : rows[t] < sl.length := by
      rw [List.getElem?_eq_getElem (by omega)] at hxt
      exact (List.getElem?_eq_some_iff.mp hxt.symm).1
    simp only [ColumnData.value, h'.len_eq, hs.len_eq, h'.packs.bitAt_eq, hs.packs.bitAt_eq,
      List.length_append]
    rw [if_pos (by omega), if_pos hlt, List.getD_append_right _ _ _ _ (by omega), ← hbl,
      Nat.add_sub_cancel_left, List.getD_eq_getElem?_getD, hxt, List.getD_eq_getElem?_getD]

theorem dataExtends_string {d' d s : PackedStringArray} {ss sss xs : List (List Char)}
    (hd : d.Holds ss) (hss : ss.length = vl.length) (hs : s.Holds sss)
    (h' : d'.Holds (ss ++ xs)) (hx : xs.map some = rows.map (sss[·]?)) :
    DataExtends (F := F) (.string d') (.string d) (.string s) vl vs rows where
  length_eq := by simp [ColumnData.length, h'.len_eq, hss, length_of_map_some hx]
  old i hi _ := by
    simp only [ColumnData.value, h'.get, hd.get]
    rw [List.getElem?_append_left (by omega)]
  new t ht _ := by
    simp only [ColumnData.value, h'.get, hs.get]
    rw [← hss, List.getElem?_append_right (by omega), Nat.add_sub_cancel_left,
      getElem?_of_map_some hx ht]

/-- The ids of a tag column: the old ones read the same strings in the grown dictionary, and
each new one the string of its source key. -/
theorem dataExtends_tag {dd xs s : List ℤ} {dict D sdict : StringDictionary}
    {ds extra sds : List (List Char)} (hd : dict.storage.Holds ds) (hdd : dd.length = vl.length)
    (hdv : ∀ i, vl.getD i false = true → ∃ k < ds.length, dd[i]? = some (k : ℤ))
    (hs : sdict.storage.Holds sds)
    (hsv : ∀ j, vs.getD j false = true → ∃ k < sds.length, s[j]? = some (k : ℤ))
    (hD : D.storage.Holds (ds ++ extra)) (hxlen : xs.length = rows.length)
    (hx : ∀ t (ht : t < rows.length) (k : ℕ), s[rows[t]]? = some (k : ℤ) → k < sds.length →
      ∃ did : ℕ, xs[t]? = some (did : ℤ) ∧ (ds ++ extra)[did]? = sds[k]?) :
    DataExtends (F := F) (.tag (dd ++ xs) D) (.tag dd dict) (.tag s sdict) vl vs rows where
  length_eq := by simp [ColumnData.length, hdd, hxlen]
  old i hi hv := by
    obtain ⟨k, hk, hdk⟩ := hdv i hv
    simp only [ColumnData.value, List.getElem?_append_left (by omega : i < dd.length), hdk,
      Option.bind_some, Int.toNat_natCast, hD.get, hd.get]
    rw [List.getElem?_append_left hk]
  new t ht hv := by
    obtain ⟨k, hk, hsk⟩ := hsv _ hv
    obtain ⟨did, hxt, hdid⟩ := hx t ht k hsk hk
    simp only [ColumnData.value, ← hdd, List.getElem?_append_right (Nat.le_add_right _ _),
      Nat.add_sub_cancel_left, hxt, hsk, Option.bind_some, Int.toNat_natCast, hD.get, hs.get,
      hdid]

end DataExtends

/-! ## `write_batch` on the data of a column -/

/-- The mapping of `write_batch` sends each source string to a key that holds it in the
destination, whose strings only grow at the end. -/
theorem lookupAll_spec : ∀ (values : List (List Char)) {dict : StringDictionary}
    {ds : List (List Char)}, dict.storage.Holds ds → dict.Consistent →
    ∃ mapping dict' extra, lookupAll dict values = some (mapping, dict') ∧
      dict'.storage.Holds (ds ++ extra) ∧ dict'.Consistent ∧ mapping.length = values.length ∧
      ∀ k (hk : k < values.length), (ds ++ extra)[mapping.getD k 0]? = some values[k]
  | [], dict, ds, h, hc => ⟨[], dict, [], rfl, by simpa using h, hc, rfl, fun k hk => by simp at hk⟩
  | value :: values, dict, ds, h, hc => by
    obtain ⟨key, d₁, e₁, hl, h₁, hc₁, hkey⟩ :=
      StringDictionary.lookupValueOrInsert_extends h hc value
    obtain ⟨mapping, dict', e₂, hrest, h₂, hc₂, hlen, hmap⟩ := lookupAll_spec values h₁ hc₁
    refine ⟨key :: mapping, dict', e₁ ++ e₂, by simp [lookupAll, hl, hrest],
      by simpa using h₂, hc₂, by simp [hlen], fun k hk => ?_⟩
    rw [← List.append_assoc]
    cases k with
    | zero =>
      rw [List.getD_cons_zero, List.getElem?_append_left (List.getElem?_eq_some_iff.mp hkey).1,
        hkey, List.getElem_cons_zero]
    | succ k =>
      rw [List.getD_cons_succ, hmap k (by simpa using hk), List.getElem_cons_succ]

theorem remapId_nullDid (mapping : List ℕ) : remapId mapping nullDid = some nullDid := by
  simp [remapId]

theorem remapId_natCast {mapping : List ℕ} {k : ℕ} (hk : k < mapping.length) :
    remapId mapping k = some (mapping[k] : ℤ) := by
  have hnull : (k : ℤ) ≠ nullDid := by simp [nullDid]
  simp [remapId, hnull, List.getElem?_eq_getElem hk]

/-- `write_batch` on data of one kind: the rows of the destination, then every row of the
source. -/
theorem ColumnData.extendFrom_extends {d s : ColumnData F}
    {vl vs : List Bool} (hd : d.Fits vl) (hdt : d.HasType t) (hdi : d.TagIds) (hs : s.Fits vs)
    (hst : s.HasType t) (hsi : s.TagIds) :
    ∃ d', d.extendFrom s = some d' ∧ DataExtends d' d s vl vs (List.range vs.length) := by
  have hkind := sameKind_of_hasType hdt hst
  cases d <;> cases s <;> simp only [SameKind] at hkind
  case f64.f64 d s | i64.i64 d s | u64.u64 d s =>
    exact ⟨_, rfl, dataExtends_vec (fun _ _ => rfl) (fun _ => rfl) hd
      (by rw [← hs]; exact map_some_eq_map_range s)⟩
  case bool.bool d s =>
    obtain ⟨bl, hbl, hbllen⟩ := hd
    obtain ⟨sl, hsl, hsllen⟩ := hs
    obtain ⟨d', h', hr'⟩ := BitSet.extendFrom_represents hbl hsl
    refine ⟨_, by simp [ColumnData.extendFrom, h'], dataExtends_bool hbl hbllen hsl hr' ?_⟩
    rw [← hsllen]
    exact map_some_eq_map_range sl
  case string.string d s =>
    obtain ⟨ss, hss, hsslen, -⟩ := hd
    obtain ⟨sss, hsss, hssslen, -⟩ := hs
    refine ⟨_, rfl, dataExtends_string hss hsslen hsss (hss.extendFrom hsss) ?_⟩
    rw [← hssslen]
    exact map_some_eq_map_range sss
  case tag.tag dd dict s sdict =>
    obtain ⟨ds, hds, hddlen, hdv⟩ := hd
    obtain ⟨sds, hsds, hslen, hsv⟩ := hs
    obtain ⟨mapping, D, extra, hmap, hD, -, hmlen, hmapv⟩ := lookupAll_spec sds hds hdi.1
    -- every source id is `NULL_DID` or a key, which the mapping has
    have hremap : ∀ id ∈ s, ∃ r, remapId mapping id = some r := by
      intro id hid
      rcases hsi.2 id hid with rfl | ⟨k, rfl, hk⟩
      · exact ⟨_, remapId_nullDid mapping⟩
      · rw [hsds.len_eq, ← hmlen] at hk
        exact ⟨_, remapId_natCast hk⟩
    obtain ⟨ids, hids, hidsmap⟩ := Simulation.mapM_eq_some s hremap
    refine ⟨.tag (dd ++ ids) D, by simp [ColumnData.extendFrom, hsds.iter, hmap, hids],
      dataExtends_tag hds hddlen hdv hsds hsv hD ?_ ?_⟩
    · simpa [hslen] using congrArg List.length hidsmap
    · intro j hj k hsk hk
      rw [List.getElem_range] at hsk
      have hat := congrArg (·[j]?) hidsmap
      simp only [List.getElem?_map, hsk, Option.map_some,
        remapId_natCast (hmlen ▸ hk : k < mapping.length)] at hat
      have hkl : k < mapping.length := by omega
      refine ⟨mapping[k], ?_, ?_⟩
      · cases hx : ids[j]? with
        | none => simp [hx] at hat
        | some x => simpa [hx] using hat
      · have hkey := hmapv k hk
        rw [List.getD_eq_getElem _ _ (by omega)] at hkey
        rw [hkey, List.getElem?_eq_getElem hk]

/-! ## `write_batch_ranges` on the data of a column -/

section Ranges

variable {α : Type}

/-- `write_slice` on ranges within the source: the entries of each range in turn. -/
theorem writeSlice_eq {src : List α}
    (hr : ∀ r ∈ ranges, r.1 ≤ r.2 ∧ r.2 ≤ src.length) (dst : List α) :
    writeSlice ranges src dst =
      some (dst ++ ranges.flatMap fun r => (src.drop r.1).take (r.2 - r.1)) := by
  obtain ⟨b, hb, rfl⟩ := foldlM_ranges (fun b l => b = dst ++ l)
    (fun dst range => (slice src range.1 range.2).map (dst ++ ·))
    (fun b l r hb h₁ h₂ => ⟨_, by rw [slice_of_le h₁ h₂, Option.map_some], by
      rw [hb, List.append_assoc]⟩) ranges dst [] (by simp) hr
  rw [writeSlice, hb, List.nil_append]

end Ranges

/-- The id `did` reads the string `v` among the strings `L`. -/
def ReadsAt (L : List (List Char)) (did : ℤ) (v : List Char) : Prop :=
  ∃ n : ℕ, did = n ∧ L[n]? = some v

theorem ReadsAt.append {L : List (List Char)} {did : ℤ} {v : List Char} (h : ReadsAt L did v)
    (e : List (List Char)) : ReadsAt (L ++ e) did v := by
  obtain ⟨n, rfl, hn⟩ := h
  exact ⟨n, rfl, by rw [List.getElem?_append_left (List.getElem?_eq_some_iff.mp hn).1, hn]⟩

/-- The tag copy of `write_batch_ranges` after it copied the source ids `copied`: the
destination's ids, then one for each id copied, that reads the string of its source key; the
dictionary holds the strings `L`, those of the destination and more; and the mapping sends
each key it has to an id that reads the key's string. -/
structure TagCopy (ds sds : List (List Char)) (dd copied : List ℤ)
    (acc : List ℤ × StringDictionary × List (Option ℤ)) (L : List (List Char)) : Prop where
  grows : ∃ extra, L = ds ++ extra
  holds : acc.2.1.storage.Holds L
  consistent : acc.2.1.Consistent
  mapping_length : acc.2.2.length = sds.length
  mapping : ∀ (k : ℕ) (did : ℤ), acc.2.2[k]? = some (some did) →
    ∃ v, sds[k]? = some v ∧ ReadsAt L did v
  ids : ∃ xs, acc.1 = dd ++ xs ∧ xs.length = copied.length ∧
    ∀ (t k : ℕ) (v : List Char), copied[t]? = some (k : ℤ) → sds[k]? = some v →
      ∃ did, xs[t]? = some did ∧ ReadsAt L did v

section TagCopy

variable {ds sds L : List (List Char)} {dd copied : List ℤ}
  {acc : List ℤ × StringDictionary × List (Option ℤ)}

/-- The ids copied so far, with one more whose id reads its key's string. -/
theorem TagCopy.ids_snoc (h : TagCopy ds sds dd copied acc L) (e : List (List Char))
    (id did : ℤ) (hdid : ∀ (k : ℕ) v, id = k → sds[k]? = some v → ReadsAt (L ++ e) did v) :
    ∃ xs, acc.1 ++ [did] = dd ++ xs ∧ xs.length = (copied ++ [id]).length ∧
      ∀ (t k : ℕ) (v : List Char), (copied ++ [id])[t]? = some (k : ℤ) → sds[k]? = some v →
        ∃ did', xs[t]? = some did' ∧ ReadsAt (L ++ e) did' v := by
  obtain ⟨xs, hxs, hlen, hread⟩ := h.ids
  refine ⟨xs ++ [did], by rw [hxs, List.append_assoc], by simp [hlen], fun t k v ht hv => ?_⟩
  by_cases hlt : t < copied.length
  · rw [List.getElem?_append_left hlt] at ht
    obtain ⟨did', hx, hr⟩ := hread t k v ht hv
    exact ⟨did', by rw [List.getElem?_append_left (by omega), hx], hr.append e⟩
  · have hle : copied.length ≤ t := by omega
    rw [List.getElem?_append_right hle] at ht
    have ht0 : t - copied.length = 0 := by
      by_contra hne
      rw [List.getElem?_singleton, if_neg hne] at ht
      cases ht
    rw [ht0, List.getElem?_singleton, if_pos rfl, Option.some.injEq] at ht
    refine ⟨did, ?_, hdid k v ht hv⟩
    rw [List.getElem?_append_right (by omega), hlen, ht0]
    rfl

/-- The step of the tag copy: a source id that is `NULL_DID` or a key. -/
theorem TagCopy.store {sdict : StringDictionary} (hsds : sdict.storage.Holds sds)
    (h : TagCopy ds sds dd copied acc L) {id : ℤ}
    (hid : id = nullDid ∨ ∃ k : ℕ, id = k ∧ k < sds.length) :
    ∃ r L', tagRangeStore sdict acc.2 id = some r ∧
      TagCopy ds sds dd (copied ++ [id]) (acc.1 ++ [r.1], r.2) L' := by
  rcases hid with rfl | ⟨k, rfl, hk⟩
  -- `NULL_DID` is copied as it is
  · refine ⟨(nullDid, acc.2), L, by simp [tagRangeStore], ⟨h.grows, h.holds, h.consistent,
      h.mapping_length, h.mapping, ?_⟩⟩
    simpa using h.ids_snoc [] nullDid nullDid
      (fun k v hk _ => absurd hk (by simp [nullDid]))
  have hnull : (k : ℤ) ≠ nullDid := by simp [nullDid]
  have hkm : k < acc.2.2.length := by rw [h.mapping_length]; exact hk
  cases hm : acc.2.2[k] with
  -- a key met before: the id the mapping has
  | some did =>
    obtain ⟨v, hv, hread⟩ := h.mapping k did (by rw [List.getElem?_eq_getElem hkm, hm])
    refine ⟨(did, acc.2), L, ?_, ⟨h.grows, h.holds, h.consistent, h.mapping_length, h.mapping,
      ?_⟩⟩
    · simp [tagRangeStore, hnull, List.getElem?_eq_getElem hkm, hm]
    · simpa using h.ids_snoc [] (k : ℤ) did fun k' v' hk' hv' => by
        rw [Int.natCast_inj.mp hk'.symm, hv] at hv'
        cases hv'
        simpa using hread
  -- a new key: its string looked up or inserted in the destination
  | none =>
    have hget : sdict.storage.get k = some sds[k] := by
      rw [hsds.get, List.getElem?_eq_getElem hk]
    obtain ⟨key, D, e, hl, hD, hDc, hkey⟩ :=
      StringDictionary.lookupValueOrInsert_extends h.holds h.consistent sds[k]
    have hreadKey : ReadsAt (L ++ e) key sds[k] := ⟨key, rfl, hkey⟩
    refine ⟨((key : ℤ), D, acc.2.2.set k (some (key : ℤ))), L ++ e, ?_, ⟨?_, hD, hDc, ?_, ?_, ?_⟩⟩
    · simp [tagRangeStore, hnull, List.getElem?_eq_getElem hkm, hm, hget, hl]
    · obtain ⟨extra, rfl⟩ := h.grows
      exact ⟨extra ++ e, by rw [List.append_assoc]⟩
    · simp [h.mapping_length]
    · intro k' did hk'
      by_cases hkk : k' = k
      · subst hkk
        rw [List.getElem?_set_self hkm, Option.some.injEq, Option.some.injEq] at hk'
        exact ⟨sds[k'], List.getElem?_eq_getElem hk, hk' ▸ hreadKey⟩
      · rw [List.getElem?_set_ne (Ne.symm hkk)] at hk'
        obtain ⟨v, hv, hr⟩ := h.mapping k' did hk'
        exact ⟨v, hv, hr.append e⟩
    · exact h.ids_snoc e _ _ fun k' v hk' hv => by
        rw [Int.natCast_inj.mp hk'.symm, List.getElem?_eq_getElem hk, Option.some.injEq] at hv
        exact hv ▸ hreadKey

/-- The tag copy of the ids of one range, each `NULL_DID` or a key. -/
theorem TagCopy.foldlM_store {sdict : StringDictionary} (hsds : sdict.storage.Holds sds) :
    ∀ (zs : List ℤ) {copied : List ℤ} {acc : List ℤ × StringDictionary × List (Option ℤ)}
      {L : List (List Char)}, TagCopy ds sds dd copied acc L →
      (∀ z ∈ zs, z = nullDid ∨ ∃ k : ℕ, z = k ∧ k < sds.length) →
      ∃ acc' L', zs.foldlM (fun acc id =>
          (tagRangeStore sdict acc.2 id).map fun r => (acc.1 ++ [r.1], r.2)) acc = some acc' ∧
        TagCopy ds sds dd (copied ++ zs) acc' L'
  | [], _, acc, L, h, _ => ⟨acc, L, rfl, by simpa using h⟩
  | z :: zs, _, _, _, h, hz => by
    obtain ⟨r, L₁, hr, h₁⟩ := h.store hsds (hz z List.mem_cons_self)
    obtain ⟨acc', L', hrest, h'⟩ :=
      foldlM_store hsds zs h₁ fun z' hz' => hz z' (List.mem_cons_of_mem z hz')
    exact ⟨acc', L', by simp [List.foldlM_cons, hr, hrest], by simpa using h'⟩

end TagCopy

/-- `write_batch_ranges` on data of one kind, with ranges within the source: the rows of the
destination, then the rows of the ranges. -/
theorem ColumnData.extendFromRanges_extends {d s : ColumnData F}
    {vl vs : List Bool} (hd : d.Fits vl) (hdt : d.HasType t)
    (hdi : d.TagIds) (hs : s.Fits vs) (hst : s.HasType t) (hsi : s.TagIds)
    (hr : ∀ r ∈ ranges, r.1 ≤ r.2 ∧ r.2 ≤ vs.length) :
    ∃ d', d.extendFromRanges ranges s = some d' ∧
      DataExtends d' d s vl vs (ranges.flatMap indices) := by
  have hkind := sameKind_of_hasType hdt hst
  cases d <;> cases s <;> simp only [SameKind] at hkind
  case f64.f64 d s | i64.i64 d s | u64.u64 d s =>
    rw [← hs] at hr
    exact ⟨_, by simp [ColumnData.extendFromRanges, writeSlice_eq hr],
      dataExtends_vec (fun _ _ => rfl) (fun _ => rfl) hd (map_some_flatMap_slices s hr)⟩
  case bool.bool d s =>
    obtain ⟨bl, hbl, hbllen⟩ := hd
    obtain ⟨sl, hsl, hsllen⟩ := hs
    rw [← hsllen] at hr
    obtain ⟨d', h', hr'⟩ := foldlM_ranges (fun b l => b.Represents (bl ++ l))
      (fun d range => BitSet.extendFromRange d s range)
      (fun b l r hb h₁ h₂ => by
        obtain ⟨b', hb', hr'⟩ := BitSet.extendFromRange_represents hb hsl h₁ h₂
        exact ⟨b', hb', by rwa [List.append_assoc] at hr'⟩) ranges d [] (by simpa using hbl) hr
    exact ⟨.bool d', by simp [ColumnData.extendFromRanges, h'],
      dataExtends_bool hbl hbllen hsl (by simpa using hr') (map_some_flatMap_slices sl hr)⟩
  case string.string d s =>
    obtain ⟨ss, hss, hsslen, -⟩ := hd
    obtain ⟨sss, hsss, hssslen, -⟩ := hs
    rw [← hssslen] at hr
    obtain ⟨d', h', hr'⟩ := foldlM_ranges (fun a l => a.Holds (ss ++ l))
      (fun d range => PackedStringArray.extendFromRange d s range)
      (fun a l r ha h₁ h₂ => by
        obtain ⟨a', ha', hr'⟩ := ha.extendFromRange hsss h₁ h₂
        exact ⟨a', ha', by rwa [List.append_assoc] at hr'⟩) ranges d [] (by simpa using hss) hr
    exact ⟨.string d', by simp [ColumnData.extendFromRanges, h'],
      dataExtends_string hss hsslen hsss (by simpa using hr') (map_some_flatMap_slices sss hr)⟩
  case tag.tag dd dict s sdict =>
    obtain ⟨ds, hds, hddlen, hdv⟩ := hd
    obtain ⟨sds, hsds, hslen, hsv⟩ := hs
    rw [← hslen] at hr
    have h₀ : TagCopy ds sds dd [] (dd, dict, List.replicate sdict.storage.len none) ds :=
      ⟨⟨[], by simp⟩, hds, hdi.1, by simp [hsds.len_eq],
        fun k did h => by simp [List.getElem?_replicate] at h, ⟨[], by simp, rfl, by simp⟩⟩
    -- each range copies ids of the source, which are `NULL_DID` or keys
    obtain ⟨acc, hfold, L, hcopy⟩ := foldlM_ranges (fun acc l => ∃ L, TagCopy ds sds dd l acc L)
      (tagRange s sdict)
      (fun acc l r ⟨L, hL⟩ h₁ h₂ => by
        obtain ⟨acc', L', hacc', hL'⟩ := hL.foldlM_store hsds ((s.drop r.1).take (r.2 - r.1))
          fun z hz => by
            rcases hsi.2 z (List.mem_of_mem_drop (List.mem_of_mem_take hz)) with h | ⟨k, h, hk⟩
            · exact .inl h
            · exact .inr ⟨k, h, hsds.len_eq ▸ hk⟩
        exact ⟨acc', by simp [tagRange, slice_of_le h₁ h₂, hacc'], L', hL'⟩)
      ranges _ [] ⟨ds, h₀⟩ hr
    obtain ⟨extra, rfl⟩ := hcopy.grows
    obtain ⟨xs, hxs, hxlen, hread⟩ := hcopy.ids
    have hmap := map_some_flatMap_slices s hr
    refine ⟨.tag acc.1 acc.2.1, by simp [ColumnData.extendFromRanges, hfold], ?_⟩
    rw [hxs]
    refine dataExtends_tag hds hddlen hdv hsds hsv hcopy.holds
      (by rw [hxlen, List.nil_append, length_of_map_some hmap]) fun t ht k hsk hk => ?_
    have hcopied := getElem?_of_map_some hmap ht
    rw [hsk] at hcopied
    obtain ⟨did, hx, n, rfl, hn⟩ := hread t k sds[k] (by simpa using hcopied)
      (List.getElem?_eq_getElem hk)
    exact ⟨n, hx, by rw [hn, List.getElem?_eq_getElem hk]⟩

/-! ## What a copy of a column does -/

/-- `c` holds the cells of `dst`, then the cells of the rows `rows` of `src`. -/
structure ColumnExtends (c dst src : Column F) (rows : List ℕ) : Prop where
  len_eq : c.valid.len = dst.valid.len + rows.length
  length_eq : c.data.length = dst.valid.len + rows.length
  cells_eq : c.cells = dst.cells ++ rows.map (src.cells.getD · none)

theorem getD_cellsOf (vl : List Bool) (value : ℕ → Option (Value F)) {j : ℕ} (hj : j < vl.length) :
    (cellsOf vl value).getD j none = if vl.getD j false then value j else none := by
  rw [List.getD_eq_getElem _ _ (by simpa [cellsOf] using hj)]
  simp [cellsOf]

/-- A copy is described by the cells it leaves once its validity and its data are. -/
theorem columnExtends_of {c dst src : Column F} {vl vs xs : List Bool} {rows : List ℕ}
    (hdst : dst.valid.Represents vl) (hsrc : src.valid.Represents vs)
    (hc : c.valid.Represents (vl ++ xs)) (hx : xs.map some = rows.map (vs[·]?))
    (hdata : DataExtends c.data dst.data src.data vl vs rows) :
    ColumnExtends c dst src rows where
  len_eq := by rw [hc.len_eq, hdst.len_eq, List.length_append, length_of_map_some hx]
  length_eq := by rw [hdata.length_eq, hdst.len_eq]
  cells_eq := by
    rw [Column.cells_of_represents hc, Column.cells_of_represents hdst,
      Column.cells_of_represents hsrc, cellsOf_append]
    congr 1
    · exact cellsOf_congr fun i hi hv => hdata.old i hi hv
    · apply List.ext_getElem
      · simp [length_of_map_some hx]
      · intro t h₁ h₂
        have ht : t < rows.length := by simpa using h₂
        have hxt := getElem?_of_map_some hx ht
        -- the valid bit copied for row `t` is the source's bit at its row
        have hlt : rows[t] < vs.length := by
          rw [List.getElem?_eq_getElem (by rw [length_of_map_some hx]; exact ht)] at hxt
          exact (List.getElem?_eq_some_iff.mp hxt.symm).1
        have hbit : xs.getD t false = vs.getD rows[t] false := by
          rw [List.getD_eq_getElem?_getD, hxt, List.getD_eq_getElem?_getD]
        simp only [List.getElem_map, List.getElem_range]
        rw [getD_cellsOf vs _ hlt, hbit]
        by_cases hv : vs.getD rows[t] false = true
        · rw [if_pos hv, if_pos hv, hdata.new t ht hv]
        · rw [if_neg hv, if_neg hv]

/-- `write_batch` on one column: the cells of the destination, then every cell of the
source. -/
theorem Column.extendFrom_extends {dst src : Column F} (hdst : dst.WellFormed)
    (hdi : dst.data.TagIds) (hsrc : src.WellFormed) (hsi : src.data.TagIds)
    (htype : dst.influxType = src.influxType) :
    ∃ c, dst.extendFrom src = some c ∧ ColumnExtends c dst src (List.range src.valid.len) := by
  obtain ⟨d', hd', hext⟩ := ColumnData.extendFrom_extends hdst.fits hdst.hasType hdi hsrc.fits
    (htype ▸ hsrc.hasType) hsi
  obtain ⟨v', hv', hrv⟩ := BitSet.extendFrom_represents hdst.valid hsrc.valid
  refine ⟨{ dst with data := d', valid := v' }, by simp [Column.extendFrom, hd', hv'], ?_⟩
  rw [hsrc.valid.len_eq]
  exact columnExtends_of hdst.valid hsrc.valid hrv (map_some_eq_map_range _) hext

/-- `write_batch_ranges` on one column, with ranges within the source: the cells of the
destination, then those of the rows of the ranges. -/
theorem Column.extendFromRanges_extends {dst src : Column F}
    (hdst : dst.WellFormed) (hdi : dst.data.TagIds) (hsrc : src.WellFormed)
    (hsi : src.data.TagIds) (htype : dst.influxType = src.influxType)
    (hr : ∀ r ∈ ranges, r.1 ≤ r.2 ∧ r.2 ≤ src.valid.len) :
    ∃ c, dst.extendFromRanges ranges src = some c ∧
      ColumnExtends c dst src (ranges.flatMap indices) := by
  rw [hsrc.valid.len_eq] at hr
  obtain ⟨d', hd', hext⟩ := ColumnData.extendFromRanges_extends hdst.fits hdst.hasType hdi
    hsrc.fits (htype ▸ hsrc.hasType) hsi hr
  obtain ⟨v', hv', hrv⟩ := foldlM_ranges (fun b l => b.Represents (dst.valid.toList ++ l))
    (fun valid range => valid.extendFromRange src.valid range)
    (fun b l r hb h₁ h₂ => by
      obtain ⟨b', hb', hr'⟩ := BitSet.extendFromRange_represents hb hsrc.valid h₁ h₂
      exact ⟨b', hb', by rwa [List.append_assoc] at hr'⟩) ranges dst.valid []
    (by rw [List.append_nil]; exact hdst.valid) hr
  refine ⟨{ dst with data := d', valid := v' }, by simp [Column.extendFromRanges, hd', hv'], ?_⟩
  exact columnExtends_of hdst.valid hsrc.valid (by simpa using hrv)
    (map_some_flatMap_slices _ hr) hext

/-! ## New columns and the padding of the commit -/

/-- The cells of rows that are all NULL. -/
theorem cellsOf_replicate_false (n : ℕ) (value : ℕ → Option (Value F)) :
    (List.range n).map (fun t => if (List.replicate n false).getD t false = true then value t
      else none) = List.replicate n none := by
  refine List.eq_replicate_iff.mpr ⟨by simp, fun x hx => ?_⟩
  obtain ⟨i, hi, rfl⟩ := List.mem_map.mp hx
  simp [List.getD_eq_getElem?_getD, List.mem_range.mp hi]

section Padding

variable [Zero F]

/-- A new column of `n` NULL rows is well formed. -/
theorem Column.new_wellFormed (n : ℕ) (t : InfluxColumnType) :
    (Column.new (F := F) n t).WellFormed ∧ (Column.new (F := F) n t).data.TagIds := by
  have hv := BitSet.appendUnset_represents BitSet.represents_new n
  rw [List.nil_append] at hv
  have hl : (Column.new (F := F) n t).valid.toList = List.replicate n false := hv.eq_toList.symm
  refine ⟨⟨hv.valid, ?_, ?_⟩, ?_⟩
  · rw [hl]
    cases t with
    | tag => exact ⟨[], PackedStringArray.holds_new, by simp, by simp⟩
    | timestamp => simp [Column.new, ColumnData.Fits]
    | field ft =>
      cases ft with
      | float | integer | uinteger => simp [Column.new, ColumnData.Fits]
      | boolean => exact ⟨_, hv, by simp⟩
      | string => exact ⟨_, PackedStringArray.holds_newEmpty n, by simp, by simp⟩
  · cases t with
    | tag | timestamp => simp [Column.new, ColumnData.HasType]
    | field ft => cases ft <;> simp [Column.new, ColumnData.HasType]
  · cases t with
    | tag =>
      exact ⟨StringDictionary.consistent_new, fun id hid => .inl (List.eq_of_mem_replicate hid)⟩
    | timestamp => trivial
    | field ft => cases ft <;> trivial

/-- A new column holds `n` NULL cells. -/
theorem Column.cells_new (n : ℕ) (t : InfluxColumnType) :
    (Column.new (F := F) n t).cells = List.replicate n none := by
  have hv := BitSet.appendUnset_represents BitSet.represents_new n
  rw [List.nil_append] at hv
  rw [Column.cells_of_represents hv, cellsOf, List.length_replicate]
  exact cellsOf_replicate_false n _

/-- The padding of `push_nulls_to_len`: NULL rows after the column's own. -/
theorem Column.pushNullsToLen_cells (hc : c.WellFormed) {len : ℕ} (hlen : c.valid.len ≤ len) :
    ∃ c', c.pushNullsToLen len = some c' ∧
      c'.cells = c.cells ++ List.replicate (len - c.valid.len) none := by
  by_cases heq : c.valid.len = len
  · exact ⟨c, by simp [Column.pushNullsToLen, heq], by simp [heq]⟩
  obtain ⟨t, valid, data⟩ := c
  dsimp only at hlen heq ⊢
  have hv := BitSet.appendUnset_represents hc.valid (len - valid.len)
  have hvlen : valid.toList.length = valid.len := hc.valid.len_eq.symm
  refine ⟨_, by
    simp only [Column.pushNullsToLen, if_neg heq, if_neg (by omega : ¬ len ≤ valid.len)]
    rfl, ?_⟩
  rw [Column.cells_of_represents hv, Column.cells_of_represents hc.valid, cellsOf_append]
  congr 1
  -- the data keeps the values of the old rows
  · refine cellsOf_congr fun i hi _ => ?_
    have hfits := hc.fits
    dsimp only at hi hfits
    rw [hvlen] at hi
    cases data with
    | f64 d | i64 d | u64 d =>
      simp only [ColumnData.Fits, hvlen] at hfits
      simp only [ColumnData.value, resize_of_le _ (by omega : d.length ≤ len)]
      rw [List.getElem?_append_left (by omega)]
    | bool d =>
      obtain ⟨bl, hbl, hbllen⟩ := hfits
      rw [hvlen] at hbllen
      have hd' := BitSet.appendUnset_represents hbl (len - valid.len)
      simp only [ColumnData.value, hd'.len_eq, hbl.len_eq, hd'.packs.bitAt_eq,
        hbl.packs.bitAt_eq, List.length_append]
      rw [if_pos (by omega), if_pos (by omega), List.getD_append _ _ _ _ (by omega)]
    | string d =>
      obtain ⟨ss, hss, hsslen, -⟩ := hfits
      rw [hvlen] at hsslen
      simp only [ColumnData.value, (hss.extend _).get, hss.get]
      rw [List.getElem?_append_left (by omega)]
    | tag d dict =>
      obtain ⟨-, -, hdlen, -⟩ := hfits
      rw [hvlen] at hdlen
      simp only [ColumnData.value, resize_of_le _ (by omega : d.length ≤ len)]
      rw [List.getElem?_append_left (by omega)]
  · rw [List.length_replicate]
    exact cellsOf_replicate_false _ _

end Padding

/-! ## The batches -/

/-- What the batches of `extend_from_ranges` keep: distinct column names, and well-formed
columns with one row for each of the batch's. -/
structure WellFormed (b : MutableBatch F) : Prop where
  nodup : (b.columns.map Prod.fst).Nodup
  column : ∀ p ∈ b.columns, p.2.WellFormed ∧ p.2.data.TagIds ∧ p.2.valid.len = b.rowCount

/-- The cells of the column `name`; a batch without that column is NULL there on every row. -/
def columnCells (b : MutableBatch F) (name : List Char) : List (Option (Value F)) :=
  match b.column? name with
  | some c => c.cells
  | none => List.replicate b.rowCount none

/-- The rows of a source of `n` rows that `extend_from_ranges` copies: those of the ranges in
turn, unless their lengths add up to `n`, when `write_batch` copies every row. -/
def copiedRows (n : ℕ) (ranges : List (ℕ × ℕ)) : List ℕ :=
  if (ranges.map fun r => r.2 - r.1).sum = n then List.range n else ranges.flatMap indices

theorem new_wellFormed : (MutableBatch.new : MutableBatch F).WellFormed :=
  ⟨List.nodup_nil, fun _ h => absurd h List.not_mem_nil⟩

theorem find?_fst_of_mem {cols : List (List Char × Column F)}
    (hnd : (cols.map Prod.fst).Nodup) (h : (name, c) ∈ cols) :
    cols.find? (fun p => p.1 == name) = some (name, c) := by
  induction cols with
  | nil => cases h
  | cons p rest ih =>
    rw [List.map_cons, List.nodup_cons] at hnd
    rcases List.mem_cons.mp h with rfl | hrest
    · simp
    · have hne : p.1 ≠ name := fun he => hnd.1 (List.mem_map.mpr ⟨_, hrest, he.symm⟩)
      simp [hne, ih hnd.2 hrest]

theorem column?_eq_some (hnd : (b.columns.map Prod.fst).Nodup) (h : (name, c) ∈ b.columns) :
    b.column? name = some c := by
  simp [column?, find?_fst_of_mem hnd h]

theorem column?_eq_none (h : name ∉ b.columns.map Prod.fst) : b.column? name = none := by
  simp only [column?, Option.map_eq_none_iff, List.find?_eq_none, beq_iff_eq]
  exact fun p hp he => h (List.mem_map.mpr ⟨p, hp, he⟩)

theorem columnCells_of_mem (hnd : (b.columns.map Prod.fst).Nodup) (h : (name, c) ∈ b.columns) :
    columnCells b name = c.cells := by
  rw [columnCells, column?_eq_some hnd h]

theorem columnCells_of_not_mem
    (h : name ∉ b.columns.map Prod.fst) : columnCells b name = List.replicate b.rowCount none := by
  rw [columnCells, column?_eq_none h]

/-- The cells of a column of any batch, from those of every column of that name. -/
theorem columnCells_eq {cells : List (Option (Value F))}
    (hmem : ∀ c, (name, c) ∈ b.columns → c.cells = cells)
    (hnot : name ∉ b.columns.map Prod.fst → List.replicate b.rowCount none = cells) :
    columnCells b name = cells := by
  unfold columnCells column?
  cases hf : b.columns.find? fun p => p.1 == name with
  | none =>
    refine hnot fun hn => ?_
    obtain ⟨p, hp, he⟩ := List.mem_map.mp hn
    exact absurd (by simpa using he) (List.find?_eq_none.mp hf p hp)
  | some p =>
    have hname : p.1 = name := by simpa using List.find?_some hf
    obtain ⟨x, c⟩ := p
    exact hmem c (hname ▸ List.mem_of_find?_eq_some hf)

/-! ## The writer over the source's columns -/

namespace Writer

theorem names_setColumn {col c : Column F} (hidx : w.batch.columns[idx]? = some (name, col)) :
    (w.setColumn idx c).batch.columns.map Prod.fst = w.batch.columns.map Prod.fst := by
  obtain ⟨l₁, a, l₂, hl, -, hmod⟩ := List.exists_of_modify (fun p : List Char × Column F => (p.1, c))
    (List.getElem?_eq_some_iff.mp hidx).1
  show (w.batch.columns.modify idx _).map Prod.fst = _
  rw [hmod, hl]
  simp

/-- `setColumn` at the index of the column `name` stores `c` in its place and keeps the other
columns. -/
theorem mem_setColumn {col c : Column F}
    (hnd : (w.batch.columns.map Prod.fst).Nodup) (hidx : w.batch.columns[idx]? = some (name, col))
    {x : List Char} {y : Column F} :
    (x, y) ∈ (w.setColumn idx c).batch.columns ↔
      x = name ∧ y = c ∨ x ≠ name ∧ (x, y) ∈ w.batch.columns := by
  obtain ⟨l₁, a, l₂, hl, hlen, hmod⟩ := List.exists_of_modify
    (fun p : List Char × Column F => (p.1, c)) (List.getElem?_eq_some_iff.mp hidx).1
  subst hlen
  rw [hl] at hidx hnd
  simp only [List.getElem?_append_right (le_refl _), Nat.sub_self, List.getElem?_cons_zero,
    Option.some.injEq] at hidx
  subst hidx
  -- the name of the column set is that of no other column
  have h₁ : ∀ y, (name, y) ∉ l₁ := fun y hy => by
    simp only [List.map_append, List.map_cons, List.nodup_append, List.nodup_cons] at hnd
    exact hnd.2.2 name (List.mem_map.mpr ⟨_, hy, rfl⟩) name List.mem_cons_self rfl
  have h₂ : ∀ y, (name, y) ∉ l₂ := fun y hy => by
    simp only [List.map_append, List.map_cons, List.nodup_append, List.nodup_cons] at hnd
    exact hnd.2.1.1 (List.mem_map.mpr ⟨_, hy, rfl⟩)
  show (x, y) ∈ w.batch.columns.modify l₁.length _ ↔ _
  rw [hmod, hl]
  simp only [List.mem_append, List.mem_cons, Prod.mk.injEq]
  grind

end Writer

section Copy

variable [Zero F]

theorem Column.len_new (n : ℕ) (t : InfluxColumnType) : (Column.new (F := F) n t).valid.len = n :=
  (BitSet.appendUnset_represents BitSet.represents_new n).len_eq.trans (by simp)

@[simp] theorem Column.influxType_new (n : ℕ) (t : InfluxColumnType) :
    (Column.new (F := F) n t).influxType = t := rfl

/-- The column a copy of the source column `name` of type `t` starts from: the destination's
own, or a new one of NULL rows. -/
def baseColumn (dst : MutableBatch F) (name : List Char) (t : InfluxColumnType) : Column F :=
  (dst.column? name).getD (Column.new dst.rowCount t)

theorem baseColumn_spec {dst : MutableBatch F} (hdst : dst.WellFormed) (name : List Char)
    (t : InfluxColumnType) :
    (baseColumn dst name t).WellFormed ∧ (baseColumn dst name t).data.TagIds ∧
      (baseColumn dst name t).valid.len = dst.rowCount ∧
      (baseColumn dst name t).cells = columnCells dst name := by
  by_cases h : name ∈ dst.columns.map Prod.fst
  · obtain ⟨⟨x, c⟩, hc, rfl : x = name⟩ := List.mem_map.mp h
    rw [baseColumn, column?_eq_some hdst.nodup hc, Option.getD_some,
      columnCells_of_mem hdst.nodup hc]
    exact ⟨(hdst.column _ hc).1, (hdst.column _ hc).2.1, (hdst.column _ hc).2.2, rfl⟩
  · rw [baseColumn, column?_eq_none h, Option.getD_none, columnCells_of_not_mem h]
    exact ⟨(Column.new_wellFormed _ _).1, (Column.new_wellFormed _ _).2, Column.len_new _ _,
      Column.cells_new _ _⟩

theorem baseColumn_influxType {dst : MutableBatch F} (hdst : dst.WellFormed)
    (htype : ∀ c, (name, c) ∈ dst.columns → c.influxType = t) :
    (baseColumn dst name t).influxType = t := by
  by_cases h : name ∈ dst.columns.map Prod.fst
  · obtain ⟨⟨x, c⟩, hc, rfl : x = name⟩ := List.mem_map.mp h
    rw [baseColumn, column?_eq_some hdst.nodup hc, Option.getD_some]
    exact htype c hc
  · rw [baseColumn, column?_eq_none h, Option.getD_none, Column.influxType_new]

namespace Writer

theorem columnMut_of_mem {col : Column F} (hnd : (w.batch.columns.map Prod.fst).Nodup)
    (hmem : (name, col) ∈ w.batch.columns) (hlen : col.valid.len = w.initialRows)
    (ht : col.influxType = t) :
    ∃ idx, w.columnMut name t = (w, .ok (idx, col)) ∧ w.batch.columns[idx]? = some (name, col) := by
  obtain ⟨idx, hidx⟩ : ∃ idx, w.batch.columns.findIdx? (fun p => p.1 == name) = some idx := by
    cases h : w.batch.columns.findIdx? (fun p => p.1 == name) with
    | none => exact absurd (List.findIdx?_eq_none_iff.mp h _ hmem) (by simp)
    | some idx => exact ⟨idx, rfl⟩
  obtain ⟨hlt, hname, -⟩ := List.findIdx?_eq_some_iff_getElem.mp hidx
  -- the column found is `col`, the names being distinct
  have hget : w.batch.columns[idx] = (name, col) :=
    List.inj_on_of_nodup_map hnd (List.getElem_mem hlt) hmem (by simpa using hname)
  have hget? : w.batch.columns[idx]? = some (name, col) := by rw [List.getElem?_eq_getElem hlt, hget]
  exact ⟨idx, by simp [columnMut, columnIndex, hidx, hget?, hlen, ht], hget?⟩

theorem columnMut_of_not_mem (hnot : name ∉ w.batch.columns.map Prod.fst) :
    w.columnMut name t = ({ w with batch := { w.batch with
        columns := w.batch.columns ++ [(name, Column.new w.initialRows t)] } },
      .ok (w.batch.columns.length, Column.new w.initialRows t)) := by
  have hidx : w.batch.columns.findIdx? (fun p => p.1 == name) = none :=
    List.findIdx?_eq_none_iff.mpr fun p hp => by
      have hne : p.1 ≠ name := fun he => hnot (List.mem_map.mpr ⟨p, hp, he⟩)
      simpa using hne
  simp [columnMut, columnIndex, hidx, Column.len_new, Column.influxType_new]

/-- The writer of `write_batch` or `write_batch_ranges` on `dst` after the source columns
`done`: each column copied holds the rows `rows` of the source column of its name after the
column it started from, and each other column is the destination's own. -/
structure Copied (dst : MutableBatch F) (rows : List ℕ) (done : List (List Char × Column F))
    (w : Writer F) : Prop where
  initialRows : w.initialRows = dst.rowCount
  toInsert : w.toInsert = rows.length
  nodup : (w.batch.columns.map Prod.fst).Nodup
  names : ∀ x, x ∈ w.batch.columns.map Prod.fst ↔
    x ∈ dst.columns.map Prod.fst ∨ x ∈ done.map Prod.fst
  copied : ∀ x c s, (x, c) ∈ w.batch.columns → (x, s) ∈ done →
    ColumnExtends c (baseColumn dst x s.influxType) s rows
  kept : ∀ x c, (x, c) ∈ w.batch.columns → x ∉ done.map Prod.fst → (x, c) ∈ dst.columns

variable {dst : MutableBatch F} {rows : List ℕ} {done : List (List Char × Column F)}

theorem Copied.new (hdst : dst.WellFormed) {n : ℕ} (hn : n = rows.length) :
    Copied dst rows [] (Writer.new dst n) where
  initialRows := rfl
  toInsert := hn
  nodup := hdst.nodup
  names _ := by simp [Writer.new]
  copied _ _ _ _ h := absurd h List.not_mem_nil
  kept _ _ h _ := h

/-- Storing the copy of the source column `(name, s)` at its index of a writer `w₁` that has
the columns of `w` and maybe a new one named `name`. -/
theorem Copied.setColumn {w w₁ : Writer F} {s col c : Column F}
    (hc : Copied dst rows done w) (hname : name ∉ done.map Prod.fst)
    (hnd : (w₁.batch.columns.map Prod.fst).Nodup)
    (hidx : w₁.batch.columns[idx]? = some (name, col))
    (hrows : w₁.initialRows = w.initialRows) (hins : w₁.toInsert = w.toInsert)
    (hnames : ∀ x, x ∈ w₁.batch.columns.map Prod.fst ↔
      x ∈ w.batch.columns.map Prod.fst ∨ x = name)
    (hother : ∀ x y, (x, y) ∈ w₁.batch.columns → x ≠ name → (x, y) ∈ w.batch.columns)
    (hcopy : ColumnExtends c (baseColumn dst name s.influxType) s rows) :
    Copied dst rows (done ++ [(name, s)]) (w₁.setColumn idx c) where
  initialRows := hrows.trans hc.initialRows
  toInsert := hins.trans hc.toInsert
  nodup := by rw [names_setColumn hidx]; exact hnd
  names x := by
    rw [names_setColumn hidx, hnames, hc.names]
    simp [or_assoc]
  copied x y s' hy hs' := by
    rcases (mem_setColumn hnd hidx).mp hy with ⟨rfl, rfl⟩ | ⟨hne, hy⟩
    · -- the source has one column of this name, and `done` does not have it
      rcases List.mem_append.mp hs' with hs' | hs'
      · exact absurd (List.mem_map.mpr ⟨_, hs', rfl⟩) hname
      · obtain rfl : s' = s := by simpa using hs'
        exact hcopy
    · exact hc.copied x y s' (hother x y hy hne) (by simpa [hne] using hs')
  kept x y hy hx := by
    have hne : x ≠ name := fun h => hx (by simp [h])
    rcases (mem_setColumn hnd hidx).mp hy with ⟨h, -⟩ | ⟨-, hy⟩
    · exact absurd h hne
    · exact hc.kept x y (hother x y hy hne) (fun h => hx (by simp [h]))

/-- What `extend` must do with a source column `s`: copy the rows `rows` of it after any
well-formed column of the destination's rows and of its type. -/
def CopiesRows (dst : MutableBatch F) (rows : List ℕ)
    (extend : Column F → Column F → Option (Column F)) (s : Column F) : Prop :=
  ∀ base : Column F, base.WellFormed → base.data.TagIds → base.valid.len = dst.rowCount →
    base.influxType = s.influxType → ∃ c, extend base s = some c ∧ ColumnExtends c base s rows

/-- One source column: `column_mut` finds or creates the column of its name, and `extend`
copies it there. -/
theorem Copied.columnMut_extend {s : Column F}
    {extend : Column F → Column F → Option (Column F)} (hdst : dst.WellFormed)
    (hc : Copied dst rows done w) (hname : name ∉ done.map Prod.fst)
    (htype : ∀ c, (name, c) ∈ dst.columns → c.influxType = s.influxType)
    (hext : CopiesRows dst rows extend s) :
    ∃ w₁ idx col c, w.columnMut name s.influxType = (w₁, .ok (idx, col)) ∧
      extend col s = some c ∧ Copied dst rows (done ++ [(name, s)]) (w₁.setColumn idx c) := by
  obtain ⟨hbase, hbi, hblen, -⟩ := baseColumn_spec hdst name s.influxType
  have hbt := baseColumn_influxType hdst htype
  by_cases hmem : name ∈ w.batch.columns.map Prod.fst
  · -- the destination's own column, not copied yet
    obtain ⟨⟨x, col⟩, hcol, rfl : x = name⟩ := List.mem_map.mp hmem
    have hb : baseColumn dst x s.influxType = col := by
      rw [baseColumn, column?_eq_some hdst.nodup (hc.kept x col hcol hname), Option.getD_some]
    rw [hb] at hbase hbi hblen hbt
    obtain ⟨idx, hmut, hidx⟩ :=
      columnMut_of_mem hc.nodup hcol (hblen.trans hc.initialRows.symm) hbt
    obtain ⟨c, hextend, hcopy⟩ := hext col hbase hbi hblen hbt
    refine ⟨w, idx, col, c, hmut, hextend, hc.setColumn hname hc.nodup hidx rfl rfl
      (fun y => ⟨.inl, fun h => h.elim id fun h => h ▸ hmem⟩) (fun _ _ h _ => h) ?_⟩
    rwa [hb]
  · -- a new column of NULL rows
    have hb : baseColumn dst name s.influxType = Column.new dst.rowCount s.influxType := by
      rw [baseColumn, column?_eq_none fun h => hmem ((hc.names name).mpr (.inl h)),
        Option.getD_none]
    rw [hb] at hbase hbi hblen hbt
    obtain ⟨c, hextend, hcopy⟩ := hext _ hbase hbi hblen hbt
    rw [← hc.initialRows] at hextend
    have hidx : (w.batch.columns ++ [(name, Column.new w.initialRows s.influxType)])[
        w.batch.columns.length]? = some (name, Column.new w.initialRows s.influxType) := by simp
    refine ⟨_, _, _, c, columnMut_of_not_mem hmem, hextend,
      hc.setColumn hname ?_ hidx rfl rfl ?_ ?_ (hb ▸ hcopy)⟩
    · simp only [List.map_append, List.map_cons, List.map_nil]
      rw [List.nodup_append]
      refine ⟨hc.nodup, List.nodup_singleton _, fun a ha b hb hab => ?_⟩
      rw [List.mem_singleton] at hb
      rw [hab, hb] at ha
      exact hmem ha
    · simp
    · intro x y hy hne
      simpa [hne] using hy

/-- `write_batch` and `write_batch_ranges` over the source columns `todo`, each of a name not
met before, copied by an `extend` that copies the rows `rows`. -/
theorem Copied.writeColumns {extend : Column F → Column F → Option (Column F)}
    (hdst : dst.WellFormed) :
    ∀ (todo done : List (List Char × Column F)) (w : Writer F),
      ((done ++ todo).map Prod.fst).Nodup →
      (∀ x c s, (x, c) ∈ dst.columns → (x, s) ∈ todo → c.influxType = s.influxType) →
      (∀ p ∈ todo, CopiesRows dst rows extend p.2) → Copied dst rows done w →
      ∃ w', Writer.writeColumns extend todo w = (w', none) ∧ Copied dst rows (done ++ todo) w'
  | [], done, w, _, _, _, hc => ⟨w, rfl, by rwa [List.append_nil]⟩
  | (name, s) :: rest, done, w, hnd, htypes, hext, hc => by
    have hname : name ∉ done.map Prod.fst := by
      simp only [List.map_append, List.map_cons, List.nodup_append] at hnd
      exact fun h => hnd.2.2 name h name List.mem_cons_self rfl
    obtain ⟨w₁, idx, col, c, hmut, hextend, hc'⟩ := hc.columnMut_extend hdst hname
      (fun c hc => htypes name c s hc List.mem_cons_self) (hext _ List.mem_cons_self)
    obtain ⟨w', hrun, hc''⟩ := Copied.writeColumns hdst rest (done ++ [(name, s)])
      (w₁.setColumn idx c) (by simpa using hnd)
      (fun x c s' hx hs' => htypes x c s' hx (List.mem_cons_of_mem _ hs'))
      (fun p hp => hext p (List.mem_cons_of_mem _ hp)) hc'
    refine ⟨w', ?_, by simpa using hc''⟩
    simp [Writer.writeColumns, hmut, hextend, hrun]

/-- The step of `commit` on one column. -/
def commitColumn (initialRows finalRows : ℕ) (p : List Char × Column F) :
    Option (List Char × Column F) :=
  if p.2.valid.len = initialRows then (p.2.pushNullsToLen finalRows).map (p.1, ·)
  else if p.2.valid.len = finalRows ∧ p.2.data.length = finalRows then some p
  else none

theorem commit_eq (w : Writer F) :
    w.commit = (w.batch.columns.mapM (commitColumn w.initialRows (w.initialRows + w.toInsert))).map
      fun columns => ⟨columns, w.initialRows + w.toInsert⟩ := rfl

/-- The commit once every source column is copied: each copied column holds every new row
already, and any other is the destination's own, padded with NULLs. -/
theorem Copied.commit {src : MutableBatch F} (hdst : dst.WellFormed)
    (hsrc : src.WellFormed) (hc : Copied dst rows src.columns w) :
    ∃ b, w.commit = some b ∧ b.rowCount = dst.rowCount + rows.length ∧
      ∀ name, columnCells b name =
        columnCells dst name ++ rows.map ((columnCells src name).getD · none) := by
  have hall : ∀ p ∈ w.batch.columns, ∃ c', commitColumn w.initialRows
      (w.initialRows + w.toInsert) p = some (p.1, c') ∧
      c'.cells = columnCells dst p.1 ++ rows.map ((columnCells src p.1).getD · none) := by
    rintro ⟨x, c⟩ hp
    rw [hc.initialRows, hc.toInsert]
    by_cases hs : x ∈ src.columns.map Prod.fst
    · obtain ⟨⟨x', s⟩, hsm, rfl : x' = x⟩ := List.mem_map.mp hs
      have hcopy := hc.copied x' c s hp hsm
      obtain ⟨-, -, hblen, hbcells⟩ := baseColumn_spec hdst x' s.influxType
      have hlen : c.valid.len = dst.rowCount + rows.length := by rw [hcopy.len_eq, hblen]
      refine ⟨c, ?_, by rw [hcopy.cells_eq, hbcells, columnCells_of_mem hsrc.nodup hsm]⟩
      -- with no new row the copy takes the first branch, where the padding does nothing
      by_cases h0 : rows.length = 0
      · simp [commitColumn, hlen, h0, Column.pushNullsToLen]
      · simp [commitColumn, hlen, h0, hcopy.length_eq, hblen]
    · have hd := hc.kept x c hp (by simpa using hs)
      obtain ⟨hwf, -, hlen⟩ : c.WellFormed ∧ _ ∧ c.valid.len = dst.rowCount := hdst.column _ hd
      obtain ⟨c', hpush, hcells⟩ := Column.pushNullsToLen_cells hwf
        (by omega : c.valid.len ≤ dst.rowCount + rows.length)
      refine ⟨c', by simp [commitColumn, hlen, hpush], ?_⟩
      rw [hcells, hlen, columnCells_of_not_mem hs, columnCells_of_mem hdst.nodup hd]
      simp
  obtain ⟨rs, hrs, hmap⟩ := Simulation.mapM_eq_some
    (f := commitColumn w.initialRows (w.initialRows + w.toInsert)) _ fun p hp =>
      (hall p hp).elim fun _ h => ⟨_, h.1⟩
  -- each column committed is that of a column of the writer
  have hfrom : ∀ x c', (x, c') ∈ rs → ∃ p ∈ w.batch.columns,
      commitColumn w.initialRows (w.initialRows + w.toInsert) p = some (x, c') := fun x c' h =>
    List.mem_map.mp (hmap ▸ List.mem_map_of_mem (f := some) h)
  refine ⟨⟨rs, _⟩, by rw [commit_eq, hrs]; rfl, by rw [hc.initialRows, hc.toInsert],
    fun name => columnCells_eq (fun c' hc' => ?_) fun hn => ?_⟩
  · obtain ⟨p, hp, hpc⟩ := hfrom name c' hc'
    obtain ⟨c'', hc'', hcells⟩ := hall p hp
    obtain ⟨rfl, rfl⟩ := Prod.mk.inj (Option.some.inj (hc''.symm.trans hpc))
    exact hcells
  · -- a name no column has is in neither batch
    have hw : name ∉ w.batch.columns.map Prod.fst := fun h => by
      obtain ⟨p, hp, rfl⟩ := List.mem_map.mp h
      obtain ⟨c', hc', -⟩ := hall p hp
      have hsome : some (p.1, c') ∈ rs.map some := by
        rw [hmap, ← hc']
        exact List.mem_map_of_mem hp
      exact hn (List.mem_map.mpr ⟨(p.1, c'), by simpa using hsome, rfl⟩)
    rw [hc.names] at hw
    rw [columnCells_of_not_mem fun h => hw (.inl h), columnCells_of_not_mem fun h => hw (.inr h),
      hc.initialRows, hc.toInsert, List.replicate_add]
    simp

end Writer

/-- The lengths of ranges none of which is reversed. -/
theorem mapM_lengths : ∀ ranges : List (ℕ × ℕ), (∀ r ∈ ranges, r.1 ≤ r.2) →
    ranges.mapM (fun range => if range.1 ≤ range.2 then some (range.2 - range.1) else none) =
      some (ranges.map fun r => r.2 - r.1)
  | [], _ => rfl
  | r :: ranges, h => by
    simp [List.mapM_cons, h r List.mem_cons_self,
      mapM_lengths ranges fun r' hr' => h r' (List.mem_cons_of_mem r hr')]

theorem length_copiedRows (n : ℕ) (ranges : List (ℕ × ℕ)) :
    (copiedRows n ranges).length = (ranges.map fun r => r.2 - r.1).sum := by
  unfold copiedRows
  split
  case isTrue h => rw [List.length_range, h]
  case isFalse => simp [List.length_flatMap, indices]

/-- `extend_from_ranges` on well-formed batches whose common columns have one type, with
ranges within the source: each column of the result holds its rows of `dst`, then the source's
rows `copiedRows`. -/
theorem extendFromRanges_cells {dst src : MutableBatch F} {ranges : List (ℕ × ℕ)}
    (hdst : dst.WellFormed) (hsrc : src.WellFormed)
    (htypes : ∀ name c s, (name, c) ∈ dst.columns → (name, s) ∈ src.columns →
      c.influxType = s.influxType)
    (hranges : ∀ r ∈ ranges, r.1 ≤ r.2 ∧ r.2 ≤ src.rows) :
    ∃ b, dst.extendFromRanges src ranges = some (b, none) ∧
      b.rows = dst.rows + (ranges.map fun r => r.2 - r.1).sum ∧
      ∀ name, columnCells b name = columnCells dst name ++
        (copiedRows src.rows ranges).map ((columnCells src name).getD · none) := by
  have hnd : (([] ++ src.columns).map Prod.fst).Nodup := by simpa using hsrc.nodup
  have hnew := Writer.Copied.new hdst (length_copiedRows src.rows ranges).symm
  -- both paths of `write_batch_ranges` copy every source column
  obtain ⟨w, hw, hc⟩ : ∃ w, (Writer.new dst (ranges.map fun r => r.2 - r.1).sum).writeBatchRanges
      src ranges = (w, none) ∧ Writer.Copied dst (copiedRows src.rows ranges) src.columns w := by
    by_cases hsum : (ranges.map fun r => r.2 - r.1).sum = src.rowCount
    · -- the lengths add up to the source's rows: `write_batch` copies every row
      have hrows : copiedRows src.rows ranges = List.range src.rowCount := if_pos hsum
      rw [hrows] at hnew
      obtain ⟨w, hw, hc⟩ := Writer.Copied.writeColumns hdst src.columns [] _ hnd htypes
        (fun p hp base hb hbi hbl hbt => by
          obtain ⟨hs, hsi, hslen⟩ := hsrc.column p hp
          rw [← hslen]
          exact Column.extendFrom_extends hb hbi hs hsi hbt) hnew
      refine ⟨w, ?_, by rwa [hrows]⟩
      have hins : (Writer.new dst (ranges.map fun r => r.2 - r.1).sum).toInsert = src.rowCount :=
        hsum
      rw [Writer.writeBatchRanges, if_pos hins, Writer.writeBatch, if_pos hins.symm]
      exact hw
    · have hrows : copiedRows src.rows ranges = ranges.flatMap indices := if_neg hsum
      rw [hrows] at hnew
      obtain ⟨w, hw, hc⟩ := Writer.Copied.writeColumns hdst src.columns [] _ hnd htypes
        (fun p hp base hb hbi hbl hbt => by
          obtain ⟨hs, hsi, hslen⟩ := hsrc.column p hp
          exact Column.extendFromRanges_extends hb hbi hs hsi hbt fun r hr =>
            hslen ▸ hranges r hr) hnew
      refine ⟨w, ?_, by rwa [hrows]⟩
      have hins : (Writer.new dst (ranges.map fun r => r.2 - r.1).sum).toInsert ≠ src.rowCount :=
        hsum
      rw [Writer.writeBatchRanges, if_neg hins]
      exact hw
  obtain ⟨b, hb, hrc, hcells⟩ := hc.commit hdst hsrc
  refine ⟨b, ?_, by rw [rows, rows, hrc, length_copiedRows], hcells⟩
  simp [extendFromRanges, mapM_lengths ranges fun r hr => (hranges r hr).1, hw, hb]

end Copy

/-- A source of two rows whose integer column `x` holds 1 and 2. -/
def twoRows : MutableBatch ℕ :=
  ⟨[(['x'], ⟨.field .integer, ⟨[3], 2⟩, .i64 [1, 2]⟩)], 2⟩

theorem twoRows_wellFormed : twoRows.WellFormed := by
  have hlow : ∀ i < 8, bitAt [3] i = [true, true].getD i false := by decide
  have hv : BitSet.Represents ⟨[3], 2⟩ [true, true] := ⟨rfl, rfl, fun i => by
    by_cases hi : i < 8
    · exact hlow i hi
    · rw [bitAt_eq_false_of_le (by simp; omega), List.getD_eq_default _ _ (by simp; omega)]⟩
  refine ⟨by decide, fun p hp => ?_⟩
  obtain rfl := List.mem_singleton.mp hp
  exact ⟨⟨hv.valid, by simp [ColumnData.Fits, ← hv.eq_toList], .inl rfl⟩, trivial, rfl⟩

/-- Row 0 of `twoRows` twice: the lengths add up to its two rows, so `write_batch` copies
rows 0 and 1 instead. -/
theorem extendFromRanges_copies_whole_source : [(0, 1), (0, 1)].flatMap indices = [0, 0] ∧
      copiedRows twoRows.rows [(0, 1), (0, 1)] = [0, 1] ∧
      ∃ b, MutableBatch.new.extendFromRanges twoRows [(0, 1), (0, 1)] = some (b, none) ∧
        columnCells b ['x'] = [some (.i64 1), some (.i64 2)] := by
  have hranges : ∀ r ∈ [((0 : ℕ), (1 : ℕ)), (0, 1)], r.1 ≤ r.2 ∧ r.2 ≤ twoRows.rows := by decide
  obtain ⟨b, hb, -, hcells⟩ := extendFromRanges_cells new_wellFormed twoRows_wellFormed
    (fun _ _ _ h => absurd h List.not_mem_nil) hranges
  refine ⟨rfl, rfl, b, hb, ?_⟩
  rw [hcells]
  rfl

end IoxCore.MutableBatch

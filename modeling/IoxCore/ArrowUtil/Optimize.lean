import Mathlib
import IoxCore.MutableBatch.Column
import IoxCore.Lib.SortedSet
import IoxCore.Schema.Merge

/-!
# Optimizing the dictionaries of a record batch

A model of `optimize_dictionaries` and `optimize_dict_col` (src/arrow_util/src/optimize.rs). Each
dictionary column is rebuilt: the keys in use are collected in a `BTreeSet`, their values are
looked up in a new `StringDictionary` in ascending key order, which stores each distinct string
once, and every key is remapped to the key of its string there. Every other column is kept.

## The model

A values array is a list of slots, each with the string `value(i)` reads and its validity bit:
`optimize_dict_col` reads `value(key)` whether the slot is NULL or not, so the string under a
NULL slot is part of the input. The keys are `i32`s held in `ℤ`, `none` for a NULL key. The
`HashMap` `old_to_new_idx` is a list of pairs read with `List.lookup`, over distinct keys. The
`StringDictionary` is the one of `IoxCore.MutableBatch`; a new key is an index in it, which fits
an `i32`. `RecordBatch::try_new` is not modelled: the batch keeps its schema and every column
its length, which is all it checks.

## Results

* `optimizeDictCol_spec`: on keys within the values array, the column keeps its length and its
  NULL keys, every row reads the string it read before, and the new values array holds each
  string in use once, none NULL and each read by some row; sorted values stay sorted.
* `optimizeDictCol_logicalValues`: a row whose key names a NULL slot reads NULL before and the
  string under the slot after, so the column keeps its logical values exactly when no key names
  a NULL slot.
* `optimizeDictionaries_spec`: the batch as a whole, column by column.
-/

namespace IoxCore.ArrowUtil

open MutableBatch Schema

variable {values : List StringSlot} {ds : List (List Char)} {oldToNew : List (ℤ × ℤ)}

/-- One slot of a `StringArray`: the string `value(i)` returns, and its validity bit. -/
structure StringSlot where
  value : List Char
  isValid : Bool
  deriving DecidableEq, Repr

/-- A `DictionaryArray<Int32Type>` with `Utf8` values. -/
structure DictionaryArray where
  keys : List (Option ℤ)
  values : List StringSlot
  deriving DecidableEq, Repr

namespace DictionaryArray

/-- `values.value(key as usize)`: the slot a key names; `none`, a panic, out of bounds, which a
negative key is once cast to `usize`. -/
def slot (values : List StringSlot) (key : ℤ) : Option StringSlot :=
  if 0 ≤ key then values[key.toNat]? else none

/-- Every non-NULL key names a slot of the values array. -/
def keysInRange (d : DictionaryArray) : Bool :=
  d.keys.all fun x => x.all fun k => decide (0 ≤ k ∧ k < (d.values.length : ℤ))

/-- The logical value of each row: NULL for a NULL key and for a key that names a NULL slot. -/
def logicalValues (d : DictionaryArray) : List (Option (List Char)) :=
  d.keys.map fun x => x.bind fun k =>
    (slot d.values k).bind fun s => if s.isValid then some s.value else none

/-- The string each row reads through its key, whether the slot is NULL or not. -/
def keyedValues (d : DictionaryArray) : List (Option (List Char)) :=
  d.keys.map fun x => x.bind fun k => (slot d.values k).map (·.value)

/-- No non-NULL key names a NULL slot. -/
def NoKeyAtNullSlot (d : DictionaryArray) : Prop :=
  ∀ k, some k ∈ d.keys → ∀ s, slot d.values k = some s → s.isValid = true

/-- The order of strings: lexicographic on the characters, which is the order of their UTF-8
bytes that Rust compares `str`s by. -/
def StrLt (a b : List Char) : Prop := List.Lex Char.lt a b

/-- Sorted order allows equal strings. -/
def StrLe (a b : List Char) : Prop := StrLt a b ∨ a = b

/-- The string a key reads, the empty one for a key out of bounds. -/
def keyValue (values : List StringSlot) (k : ℤ) : List Char := ((slot values k).map (·.value)).getD []

theorem keysInRange_iff {d : DictionaryArray} :
    d.keysInRange = true ↔ ∀ k, some k ∈ d.keys → 0 ≤ k ∧ k < d.values.length := by
  simp only [keysInRange, List.all_eq_true]
  constructor
  · intro h k hk
    simpa using h (some k) hk
  · intro h x hx
    cases x with
    | none => rfl
    | some k => simpa using h k hx

/-- A key within the values array names a slot, whose string is the key's. -/
theorem slot_of_lt {k : ℤ} (h0 : 0 ≤ k) (hk : k < values.length) :
    slot values k = some values[k.toNat] ∧ values[k.toNat].value = keyValue values k := by
  have hlt : k.toNat < values.length := by omega
  simp [keyValue, slot, h0, List.getElem?_eq_getElem hlt]

theorem mem_of_slot {k : ℤ} {s : StringSlot} (h : slot values k = some s) : s ∈ values := by
  unfold slot at h
  split at h
  · exact List.mem_of_getElem? h
  · cases h

/-- A row reads its logical value unless its key names a NULL slot. -/
theorem keyedValues_eq_logicalValues_iff (d : DictionaryArray) :
    d.keyedValues = d.logicalValues ↔ d.NoKeyAtNullSlot := by
  rw [keyedValues, logicalValues, List.map_inj_left]
  constructor
  · intro h k hk s hs
    by_contra hv
    have hrow := h (some k) hk
    simp [hs, hv] at hrow
  · intro h x hx
    cases x with
    | none => rfl
    | some k =>
      cases hs : slot d.values k with
      | none => simp [hs]
      | some s => simp [hs, h k hx s hs]

/-- Over values none of which is NULL, every row reads its logical value. -/
theorem logicalValues_eq_keyedValues {d : DictionaryArray} (h : ∀ s ∈ d.values, s.isValid = true) :
    d.logicalValues = d.keyedValues :=
  ((keyedValues_eq_logicalValues_iff d).2 fun _ _ s hs => h s (mem_of_slot hs)).symm

end DictionaryArray

open DictionaryArray

/-- The errors of `optimize_dict_col`. -/
inductive OptimizeError
  /-- `"truncating non-Int32 dictionaries not supported: {key_type}"` -/
  | nonInt32Keys (keyType : ArrowDataType)
  /-- `"truncating non-string dictionaries not supported: {value_type}"` -/
  | nonStringValues (valueType : ArrowDataType)
  /-- A panic: a key out of bounds, or an `expect`. -/
  | panic
  deriving DecidableEq, Repr

/-- The `BTreeSet` `used_keys`: the non-NULL keys, each once. -/
def usedKeys (keys : List (Option ℤ)) : SortedSet ℤ :=
  (keys.filterMap id).foldl (fun s k => (s.insert k).2) SortedSet.empty

/-- The loop over `used_keys`: each key's string is looked up in, or added to, the new
dictionary, and `old_to_new_idx` records its new key. -/
def dedupValues (values : List StringSlot) :
    List ℤ → StringDictionary → List (ℤ × ℤ) → Option (StringDictionary × List (ℤ × ℤ))
  | [], dict, oldToNew => some (dict, oldToNew)
  | key :: rest, dict, oldToNew => do
    let s ← slot values key
    let (newKey, dict) ← dict.lookupValueOrInsert s.value
    dedupValues values rest dict ((key, (newKey : ℤ)) :: oldToNew)

/-- The new key of a row: the one `old_to_new_idx` has for its key (an `expect`), `-1` for a
NULL key. -/
def newKey (oldToNew : List (ℤ × ℤ)) : Option ℤ → Option ℤ
  | some x => oldToNew.lookup x
  | none => some (-1)

/-- `StringDictionary::to_arrow`: the keys under the null buffer `nulls`, over the strings of
the dictionary, none of them NULL. -/
def toArrow (dict : StringDictionary) (keys : List ℤ) (nulls : List Bool) : DictionaryArray :=
  ⟨List.zipWith (fun k valid => if valid then some k else none) keys nulls,
    dict.storage.iter.map fun s => ⟨s, true⟩⟩

/-- `optimize_dict_col`. -/
def optimizeDictCol (keyType valueType : ArrowDataType) (col : DictionaryArray) :
    Except OptimizeError DictionaryArray :=
  if keyType ≠ .int32 then .error (.nonInt32Keys keyType)
  else if valueType ≠ .utf8 then .error (.nonStringValues valueType)
  else
    match dedupValues col.values (usedKeys col.keys).toList StringDictionary.new [] with
    | none => .error .panic
    | some (dict, oldToNew) =>
      match col.keys.mapM (newKey oldToNew) with
      | none => .error .panic
      | some newKeys => .ok (toArrow dict newKeys (col.keys.map Option.isSome))

/-- A column of a record batch: a dictionary column, with the key and value types of its field,
or any other column. The arrays of a dictionary column are read only when its types are `Int32`
and `Utf8`. -/
inductive Column (σ : Type)
  | dictionary (keyType valueType : ArrowDataType) (col : DictionaryArray)
  | other (array : σ)

/-- `optimize_dictionaries`. -/
def optimizeDictionaries {σ : Type} (batch : List (Column σ)) :
    Except OptimizeError (List (Column σ)) :=
  batch.mapM fun
    | .dictionary keyType valueType col =>
      (optimizeDictCol keyType valueType col).map (.dictionary keyType valueType)
    | .other array => .ok (.other array)

/-! ### Appending the strings not seen yet

What a dictionary holds after a run of lookups: the strings it held, then each string looked up
that it did not hold yet, in the order of the lookups. -/

section AppendNew

variable {α : Type} [DecidableEq α]

/-- `ds` followed by the elements of `vs` not seen before. -/
def appendNew (ds vs : List α) : List α :=
  vs.foldl (fun acc v => if v ∈ acc then acc else acc ++ [v]) ds

theorem appendNew_singleton (ds : List α) (v : α) :
    appendNew ds [v] = if v ∈ ds then ds else ds ++ [v] := rfl

theorem appendNew_cons (ds : List α) (v : α) (vs : List α) :
    appendNew ds (v :: vs) = appendNew (appendNew ds [v]) vs := rfl

theorem nodup_appendNew {ds : List α} (hds : ds.Nodup) (vs : List α) : (appendNew ds vs).Nodup := by
  induction vs generalizing ds with
  | nil => exact hds
  | cons v vs ih =>
    rw [appendNew_cons, appendNew_singleton]
    split
    · exact ih hds
    · rename_i hv
      exact ih (List.nodup_append.2 ⟨hds, List.nodup_singleton v,
        fun a ha b hb hab => hv (by rw [List.mem_singleton.1 hb] at hab; exact hab ▸ ha)⟩)

theorem mem_appendNew {ds vs : List α} {a : α} : a ∈ appendNew ds vs ↔ a ∈ ds ∨ a ∈ vs := by
  induction vs generalizing ds with
  | nil => simp [appendNew]
  | cons v vs ih =>
    rw [appendNew_cons, ih, appendNew_singleton]
    split
    · rename_i hv
      rw [List.mem_cons]
      constructor
      · exact fun h => h.imp_right Or.inr
      · rintro (h | rfl | h)
        · exact .inl h
        · exact .inl hv
        · exact .inr h
    · simp only [List.mem_append, List.mem_cons]
      tauto

/-- Lookups in increasing order, none below what is held, keep a strictly increasing list so:
`le` is the order of the lookups and `lt` its strict part on distinct elements. -/
theorem pairwise_appendNew {le lt : α → α → Prop} (hlt : ∀ a b, le a b → a ≠ b → lt a b)
    {ds vs : List α} (hds : ds.Pairwise lt) (hle : ∀ a ∈ ds, ∀ b ∈ vs, le a b)
    (hvs : vs.Pairwise le) : (appendNew ds vs).Pairwise lt := by
  induction vs generalizing ds with
  | nil => exact hds
  | cons v vs ih =>
    rw [List.pairwise_cons] at hvs
    rw [appendNew_cons, appendNew_singleton]
    split
    · exact ih hds (fun a ha b hb => hle a ha b (List.mem_cons_of_mem v hb)) hvs.2
    · rename_i hv
      -- `v` is above every element held, and below every later one
      have hltv : ∀ a ∈ ds, lt a v := fun a ha =>
        hlt a v (hle a ha v List.mem_cons_self) fun h => hv (h ▸ ha)
      refine ih (List.pairwise_append.2 ⟨hds, List.pairwise_singleton _ v, ?_⟩) ?_ hvs.2
      · intro a ha b hb
        rw [List.mem_singleton.1 hb]
        exact hltv a ha
      · intro a ha b hb
        rcases List.mem_append.1 ha with ha | ha
        · exact hle a ha b (List.mem_cons_of_mem v hb)
        · rw [List.mem_singleton.1 ha]
          exact hvs.1 b hb

/-- A key paired in a list is found by `lookup`, paired with a value of the list. -/
theorem lookup_of_mem {κ ν : Type} [BEq κ] [LawfulBEq κ] {m : List (κ × ν)} {k : κ} {j : ν}
    (h : (k, j) ∈ m) : ∃ j', m.lookup k = some j' ∧ (k, j') ∈ m := by
  induction m with
  | nil => cases h
  | cons p m ih =>
    obtain ⟨k', j''⟩ := p
    by_cases hk : k = k'
    · subst hk
      exact ⟨j'', by simp [List.lookup], List.mem_cons_self⟩
    · rcases List.mem_cons.1 h with h | h
      · exact absurd (Prod.mk.inj h).1 hk
      · obtain ⟨j', hl, hm⟩ := ih h
        refine ⟨j', ?_, List.mem_cons_of_mem _ hm⟩
        simp only [List.lookup, beq_false_of_ne hk]
        exact hl

end AppendNew

/-! ### The loop over the keys in use -/

/-- Every key in use is one of the keys, each once, in increasing order. -/
theorem mem_usedKeys {keys : List (Option ℤ)} {k : ℤ} : k ∈ (usedKeys keys).toList ↔ some k ∈ keys := by
  rw [usedKeys, SortedSet.mem_foldl_insert]
  simp

/-- Every pair of `old_to_new_idx` maps a key to an index of `ds` that holds the key's string. -/
def MapsInto (values : List StringSlot) (ds : List (List Char)) (oldToNew : List (ℤ × ℤ)) : Prop :=
  ∀ p ∈ oldToNew, ∃ j : ℕ, p.2 = j ∧ ds[j]? = some (keyValue values p.1)

theorem MapsInto.append (h : MapsInto values ds oldToNew) (extra : List (List Char)) :
    MapsInto values (ds ++ extra) oldToNew := fun p hp => by
  obtain ⟨j, hj, hds⟩ := h p hp
  exact ⟨j, hj, by rw [List.getElem?_append_left (List.getElem?_eq_some_iff.1 hds).1, hds]⟩

/-- What the loop leaves, run over the keys `rest` from a dictionary of the strings `ds`: the
dictionary holds `ds` and the new strings of the keys, and every key is mapped to its string. -/
structure Deduped (values : List StringSlot) (rest : List ℤ) (ds : List (List Char))
    (dict : StringDictionary) (oldToNew oldToNew' : List (ℤ × ℤ)) : Prop where
  holds : dict.storage.Holds (appendNew ds (rest.map (keyValue values)))
  consistent : dict.Consistent
  indexed : dict.Indexed (appendNew ds (rest.map (keyValue values)))
  maps : MapsInto values (appendNew ds (rest.map (keyValue values))) oldToNew'
  keeps : oldToNew ⊆ oldToNew'
  covers : ∀ k ∈ rest, ∃ j, (k, j) ∈ oldToNew'

/-- A lookup of the string of a key: the dictionary holds what `appendNew` says. -/
theorem lookupValueOrInsert_appendNew {d : StringDictionary}
    (h : d.storage.Holds ds) (hc : d.Consistent) (hi : d.Indexed ds) (hnd : ds.Nodup)
    (value : List Char) :
    ∃ key d', d.lookupValueOrInsert value = some (key, d') ∧
      d'.storage.Holds (appendNew ds [value]) ∧ d'.Consistent ∧
      d'.Indexed (appendNew ds [value]) ∧ (appendNew ds [value])[key]? = some value := by
  obtain ⟨key, d', ds', hl, h', hc', hi', hnd', hkey, hds'⟩ :=
    StringDictionary.lookupValueOrInsert_indexed h hc hi hnd value
  -- the strings after the lookup are those `appendNew` adds
  have hds : ds' = appendNew ds [value] := by
    rw [appendNew_singleton]
    rcases hds' with ⟨rfl, -⟩ | ⟨rfl, -⟩
    · rw [if_pos (List.mem_of_getElem? hkey)]
    · rw [if_neg (List.disjoint_of_nodup_append hnd' · (List.mem_singleton_self _))]
  rw [← hds]
  exact ⟨key, d', hl, h', hc', hi', hkey⟩

/-- The loop over keys within the values array never panics. The induction is on the keys,
the dictionary and `old_to_new_idx` threaded through. -/
theorem dedupValues_spec (values : List StringSlot) :
    ∀ (rest : List ℤ) (dict : StringDictionary) (ds : List (List Char)) (oldToNew : List (ℤ × ℤ)),
      (∀ k ∈ rest, 0 ≤ k ∧ k < values.length) →
      dict.storage.Holds ds → dict.Consistent → dict.Indexed ds → ds.Nodup →
      MapsInto values ds oldToNew →
      ∃ dict' oldToNew', dedupValues values rest dict oldToNew = some (dict', oldToNew') ∧
        Deduped values rest ds dict' oldToNew oldToNew'
  | [], dict, ds, oldToNew, _, h, hc, hi, _, hm =>
    ⟨dict, oldToNew, rfl, ⟨h, hc, hi, hm, fun _ hp => hp, by simp⟩⟩
  | key :: rest, dict, ds, oldToNew, hkeys, h, hc, hi, hnd, hm => by
    obtain ⟨h0, hlt⟩ := hkeys key List.mem_cons_self
    obtain ⟨hslot, hvalue⟩ := slot_of_lt h0 hlt
    obtain ⟨newKey, d₁, hl, h₁, hc₁, hi₁, hkey⟩ :=
      lookupValueOrInsert_appendNew h hc hi hnd (keyValue values key)
    -- the pair of this key maps it into the strings after the lookup, and the older ones too
    have hm₁ : MapsInto values (appendNew ds [keyValue values key])
        ((key, (newKey : ℤ)) :: oldToNew) := by
      intro p hp
      rcases List.mem_cons.1 hp with rfl | hp
      · exact ⟨newKey, rfl, hkey⟩
      · rw [appendNew_singleton]
        split
        · exact hm p hp
        · exact hm.append _ p hp
    have hnd₁ := nodup_appendNew hnd [keyValue values key]
    have happ : appendNew ds ((key :: rest).map (keyValue values)) =
        appendNew (appendNew ds [keyValue values key]) (rest.map (keyValue values)) := by
      rw [List.map_cons, appendNew_cons]
    obtain ⟨dict', oldToNew', hrun, hr⟩ := dedupValues_spec values rest d₁ _ _
      (fun k hk => hkeys k (List.mem_cons_of_mem key hk)) h₁ hc₁ hi₁ hnd₁ hm₁
    refine ⟨dict', oldToNew', ?_, ⟨happ ▸ hr.holds, hr.consistent, happ ▸ hr.indexed, happ ▸ hr.maps,
      fun p hp => hr.keeps (List.mem_cons_of_mem _ hp), fun k hk => ?_⟩⟩
    · simp [dedupValues, hslot, hvalue, hl, hrun]
    · rcases List.mem_cons.1 hk with rfl | hk
      · exact ⟨newKey, hr.keeps List.mem_cons_self⟩
      · exact hr.covers k hk

/-! ### The remapped column -/

/-- Where every key in use is paired, remapping never panics, and the new keys under the input's
null buffer are the keys looked up. -/
theorem mapM_newKey : ∀ {keys : List (Option ℤ)}, (∀ k, some k ∈ keys → ∃ j, (k, j) ∈ oldToNew) →
      ∃ newKeys, keys.mapM (newKey oldToNew) = some newKeys ∧
        List.zipWith (fun k valid => if valid then some k else none) newKeys
          (keys.map Option.isSome) = keys.map fun x => x.bind fun k => List.lookup k oldToNew
  | [], _ => ⟨[], rfl, rfl⟩
  | x :: keys, hcov => by
    obtain ⟨newKeys, hmap, hzip⟩ :=
      @mapM_newKey keys fun k hk => hcov k (List.mem_cons_of_mem x hk)
    cases x with
    | none => exact ⟨-1 :: newKeys, by simp [newKey, hmap], by simp [hzip]⟩
    | some k =>
      obtain ⟨j, hj⟩ := hcov k List.mem_cons_self
      obtain ⟨j', hl, -⟩ := lookup_of_mem hj
      exact ⟨j' :: newKeys, by simp [newKey, hl, hmap], by simp [hzip, hl]⟩

/-- The values of the new array are the dictionary's strings, none NULL. -/
theorem values_toArrow {dict : StringDictionary}
    (h : dict.storage.Holds ds) (keys : List ℤ) (nulls : List Bool) :
    (toArrow dict keys nulls).values = ds.map fun s => ⟨s, true⟩ := by
  simp [toArrow, h.iter]

/-- Keys in increasing order read strings in increasing order from a sorted values array. -/
theorem keyValue_le_of_lt (hs : (values.map (·.value)).Pairwise StrLe)
    {a b : ℤ} (ha : 0 ≤ a) (hab : a < b) (hb : b < values.length) :
    StrLe (keyValue values a) (keyValue values b) := by
  rw [← (slot_of_lt ha (by omega)).2, ← (slot_of_lt (by omega) hb).2]
  have hle := List.pairwise_iff_getElem.1 hs a.toNat b.toNat (by simp; omega) (by simp; omega)
    (by omega)
  simpa using hle

/-- The key of `old_to_new_idx` for a key in use reads, from the new values, the string the key
read from the old ones. -/
theorem lookup_reads (hm : MapsInto values ds oldToNew) {k j : ℤ} (hj : (k, j) ∈ oldToNew) :
    ∃ n : ℕ, List.lookup k oldToNew = some (n : ℤ) ∧ ds[n]? = some (keyValue values k) := by
  obtain ⟨j', hl, hj'⟩ := lookup_of_mem hj
  obtain ⟨n, rfl, hn⟩ := hm _ hj'
  exact ⟨n, hl, hn⟩

theorem slot_map_valid (ds : List (List Char)) (n : ℕ) :
    slot (ds.map fun s => (⟨s, true⟩ : StringSlot)) (n : ℤ) = ds[n]?.map fun s => ⟨s, true⟩ := by
  simp [slot]

/-- `optimize_dict_col` on keys within the values array: the column keeps its rows and its NULL
keys, every row reads the string it read, and the new values are the strings in use, each once,
none NULL and each read by a row; sorted values stay sorted. -/
theorem optimizeDictCol_spec (col : DictionaryArray) (h : col.keysInRange = true) :
    ∃ d', optimizeDictCol .int32 .utf8 col = .ok d' ∧
      d'.keys.map Option.isSome = col.keys.map Option.isSome ∧
      d'.keyedValues = col.keyedValues ∧
      (∀ s ∈ d'.values, s.isValid = true) ∧
      (d'.values.map (·.value)).Nodup ∧
      (∀ j < d'.values.length, some (j : ℤ) ∈ d'.keys) ∧
      ((col.values.map (·.value)).Pairwise StrLe → (d'.values.map (·.value)).Pairwise StrLt) := by
  have hrange := keysInRange_iff.1 h
  have hused : ∀ k ∈ (usedKeys col.keys).toList, 0 ≤ k ∧ k < col.values.length :=
    fun k hk => hrange k (mem_usedKeys.1 hk)
  obtain ⟨dict, m, hrun, hr⟩ := dedupValues_spec col.values _ .new [] [] hused
    PackedStringArray.holds_new StringDictionary.consistent_new StringDictionary.indexed_new
    List.nodup_nil (by simp [MapsInto])
  -- the strings of the new dictionary: those of the keys in use, each once
  have hholds := hr.holds
  have hmaps := hr.maps
  generalize hds : appendNew [] ((usedKeys col.keys).toList.map (keyValue col.values)) = ds
    at hholds hmaps
  have hnd : ds.Nodup := hds ▸ nodup_appendNew List.nodup_nil _
  -- every key of a row is in use, so paired, and read through the pair
  have hreads : ∀ k, some k ∈ col.keys →
      ∃ n : ℕ, List.lookup k m = some (n : ℤ) ∧ ds[n]? = some (keyValue col.values k) := by
    intro k hk
    obtain ⟨j, hj⟩ := hr.covers k (mem_usedKeys.2 hk)
    exact lookup_reads hmaps hj
  obtain ⟨newKeys, hmap, hkeys⟩ := @mapM_newKey m col.keys fun k hk =>
    hr.covers k (mem_usedKeys.2 hk)
  have hvalues := values_toArrow hholds newKeys (col.keys.map Option.isSome)
  have hstrings : (toArrow dict newKeys (col.keys.map Option.isSome)).values.map (·.value) = ds := by
    simp [hvalues, Function.comp_def]
  refine ⟨toArrow dict newKeys (col.keys.map Option.isSome), by simp [optimizeDictCol, hrun, hmap],
    ?_, ?_, ?_, ?_, ?_, ?_⟩
  · -- the NULL keys
    rw [show (toArrow dict newKeys _).keys = _ from hkeys, List.map_map]
    refine List.map_congr_left fun x hx => ?_
    cases x with
    | none => rfl
    | some k =>
      obtain ⟨n, hl, -⟩ := hreads k hx
      simp [hl]
  · -- the strings read
    rw [keyedValues, keyedValues, show (toArrow dict newKeys _).keys = _ from hkeys, hvalues,
      List.map_map]
    refine List.map_congr_left fun x hx => ?_
    cases x with
    | none => rfl
    | some k =>
      obtain ⟨n, hl, hn⟩ := hreads k hx
      obtain ⟨h0, hlt⟩ := hrange k hx
      simp [hl, slot_map_valid, hn, (slot_of_lt h0 hlt).1, (slot_of_lt h0 hlt).2]
  · rw [hvalues]
    simp
  · rw [hstrings]
    exact hnd
  · -- each string is that of a key in use, and that key's rows read it
    intro j hj
    rw [hvalues, List.length_map] at hj
    have hmem : ds[j] ∈ appendNew [] ((usedKeys col.keys).toList.map (keyValue col.values)) :=
      hds ▸ List.getElem_mem hj
    obtain ⟨k, hk, hkv⟩ := List.mem_map.1 ((mem_appendNew.1 hmem).resolve_left List.not_mem_nil)
    have hkeys' := mem_usedKeys.1 hk
    obtain ⟨n, hl, hn⟩ := hreads k hkeys'
    -- the strings are distinct, so the key's index is `j`
    have hnlt : n < ds.length := (List.getElem?_eq_some_iff.1 hn).1
    rw [hkv, ← List.getElem?_eq_getElem hj] at hn
    obtain rfl : n = j := (List.getElem?_inj hnlt hnd).1 hn
    rw [show (toArrow dict newKeys _).keys = _ from hkeys]
    exact List.mem_map.2 ⟨some k, hkeys', by simp [hl]⟩
  · intro hsorted
    have hinc : ((usedKeys col.keys).toList.map (keyValue col.values)).Pairwise StrLe := by
      rw [List.pairwise_map]
      exact (usedKeys col.keys).sorted.imp_of_mem fun ha hb hab =>
        keyValue_le_of_lt hsorted (hused _ ha).1 hab (hused _ hb).2
    have hlt := pairwise_appendNew (fun _ _ hab hne => Or.resolve_right hab hne)
      List.Pairwise.nil (by simp) hinc
    rw [hds] at hlt
    rw [hstrings]
    exact hlt

/-- `optimize_dict_col` on keys within the values array: a row whose key names a NULL slot reads
the string under the slot, no longer NULL, so the logical values are kept exactly when no key
names a NULL slot. -/
theorem optimizeDictCol_logicalValues (col : DictionaryArray) (h : col.keysInRange = true) :
    ∃ d', optimizeDictCol .int32 .utf8 col = .ok d' ∧ d'.logicalValues = col.keyedValues ∧
      (d'.logicalValues = col.logicalValues ↔ col.NoKeyAtNullSlot) := by
  obtain ⟨d', hd, -, hkeyed, hvalid, -⟩ := optimizeDictCol_spec col h
  have hlog : d'.logicalValues = col.keyedValues := (logicalValues_eq_keyedValues hvalid).trans hkeyed
  exact ⟨d', hd, hlog, by rw [hlog, keyedValues_eq_logicalValues_iff]⟩

/-- One row whose key names a NULL slot holding the empty string: NULL before, `""` after. -/
theorem optimizeDictCol_null_slot_reads_empty :
    (⟨[some 0], [⟨[], false⟩]⟩ : DictionaryArray).logicalValues = [none] ∧
      ∃ d', optimizeDictCol .int32 .utf8 ⟨[some 0], [⟨[], false⟩]⟩ = .ok d' ∧
        d'.logicalValues = [some []] := by
  obtain ⟨d', hd, hlog, -⟩ := optimizeDictCol_logicalValues ⟨[some 0], [⟨[], false⟩]⟩ rfl
  exact ⟨rfl, d', hd, hlog⟩

/-! ### The batch -/

section Batch

variable {σ : Type}

/-- A column `optimize_dictionaries` handles: any column but a dictionary of other key or value
types, or with a key out of bounds. -/
def Column.Optimizable : Column σ → Prop
  | .dictionary keyType valueType col => keyType = .int32 ∧ valueType = .utf8 ∧ col.keysInRange = true
  | .other _ => True

/-- A column and what `optimize_dictionaries` makes of it: the dictionary rebuilt under the
same field, any other column the same. -/
def Column.Optimized : Column σ → Column σ → Prop
  | .dictionary keyType valueType col, .dictionary keyType' valueType' col' =>
    keyType' = keyType ∧ valueType' = valueType ∧ optimizeDictCol keyType valueType col = .ok col'
  | .other array, .other array' => array' = array
  | _, _ => False

/-- `optimize_dictionaries` rebuilds every dictionary column and keeps every other one. -/
theorem optimizeDictionaries_spec : ∀ batch : List (Column σ), (∀ c ∈ batch, c.Optimizable) →
      ∃ batch', optimizeDictionaries batch = .ok batch' ∧ List.Forall₂ Column.Optimized batch batch'
  | [], _ => ⟨[], rfl, .nil⟩
  | c :: batch, h => by
    obtain ⟨batch', hrest, hall⟩ :=
      optimizeDictionaries_spec batch fun c' hc' => h c' (List.mem_cons_of_mem c hc')
    have hc := h c List.mem_cons_self
    cases c with
    | dictionary keyType valueType col =>
      obtain ⟨rfl, rfl, hrange⟩ := hc
      obtain ⟨d', hd, -⟩ := optimizeDictCol_spec col hrange
      refine ⟨.dictionary .int32 .utf8 d' :: batch', ?_, .cons ⟨rfl, rfl, hd⟩ hall⟩
      simp only [optimizeDictionaries, List.mapM_cons, hd] at hrest ⊢
      rw [hrest]
      rfl
    | other array =>
      refine ⟨.other array :: batch', ?_, .cons rfl hall⟩
      simp only [optimizeDictionaries, List.mapM_cons] at hrest ⊢
      rw [hrest]
      rfl

end Batch

end IoxCore.ArrowUtil

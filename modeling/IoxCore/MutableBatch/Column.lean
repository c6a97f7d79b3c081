import IoxCore.ArrowUtil.BitSet

/-!
# Columns of a mutable batch

`Column` and `ColumnData` of `mutable_batch::column`, with the two structures of `arrow_util`
they keep strings in: `PackedStringArray`, strings packed one after the other into one storage
with their end offsets, and `StringDictionary`, a packed string array with a hash index from
string to key.

## The model

Offsets count characters: a packed array is only sliced at offsets it wrote itself, which are
character boundaries. The statistics a column keeps are not modelled here. Floats are values of
a type `F`, copied and never computed with. A dictionary id (a `DID`, an `i32`) is an integer,
`-1` for NULL. The hash index of a dictionary (`dedup`) is the list of its keys, each with the
string it was inserted for: a lookup tries the keys inserted for that value, which are those of
the same hash, and unwraps the string stored at each.

A column stands for its cells (`Column.cells`): `none` for a NULL row, else the value its data
holds at that row. `Column.WellFormed` is what the writer keeps: one validity bit per row, one
entry of the column's type per row, the empty string in the NULL rows of a string column and a
key of the dictionary in the valid rows of a tag column.

## Results

* `PackedStringArray.Holds`: `a` packs the list of strings `ss`; every operation of the array
  is described by what it does to `ss` (`Holds.append`, `Holds.extend`, `Holds.truncate`,
  `Holds.get`).
* `StringDictionary.lookupValueOrInsert_spec`: a lookup answers a key that holds the value,
  either one already there or a new one at the end.
-/

namespace IoxCore.MutableBatch

open ArrowUtil PackedBits

/-- `InfluxFieldType`. -/
inductive InfluxFieldType
  | float
  | integer
  | uinteger
  | string
  | boolean
  deriving DecidableEq, Repr

/-- `InfluxColumnType`. -/
inductive InfluxColumnType
  | tag
  | field (fieldType : InfluxFieldType)
  | timestamp
  deriving DecidableEq, Repr

/-! ## Packed strings -/

/-- `PackedStringArray<i32>`: a leading `0` and the end offset of each string, into one
storage. -/
structure PackedStringArray where
  offsets : List ℕ
  storage : List Char
  deriving DecidableEq, Repr

namespace PackedStringArray

def new : PackedStringArray := ⟨[0], []⟩

def newEmpty (len : ℕ) : PackedStringArray := ⟨List.replicate (len + 1) 0, []⟩

/-- The number of strings. -/
def len (a : PackedStringArray) : ℕ := a.offsets.length - 1

def append (a : PackedStringArray) (data : List Char) : PackedStringArray :=
  ⟨a.offsets ++ [a.storage.length + data.length], a.storage ++ data⟩

/-- `extend`: pads with `len` empty strings. -/
def extend (a : PackedStringArray) (len : ℕ) : PackedStringArray :=
  ⟨a.offsets ++ List.replicate len a.storage.length, a.storage⟩

/-- `truncate`, which panics (`offsets empty`) on an array without offsets. -/
def truncate (a : PackedStringArray) (len : ℕ) : Option PackedStringArray :=
  let offsets := a.offsets.take (len + 1)
  offsets.getLast?.map fun last => ⟨offsets, a.storage.take last⟩

def clear (a : PackedStringArray) : PackedStringArray := ⟨a.offsets.take 1, []⟩

/-- `get`: `none` where Rust returns `None` and where its slice panics; its one caller, the
dictionary lookup, unwraps it. -/
def get (a : PackedStringArray) (index : ℕ) : Option (List Char) := do
  let start ← a.offsets[index]?
  let stop ← a.offsets[index + 1]?
  slice a.storage start stop

/-- `extend_from`: the strings of `other` after those of `a`. -/
def extendFrom (a other : PackedStringArray) : PackedStringArray :=
  ⟨a.offsets ++ (other.offsets.drop 1).map (· + a.storage.length), a.storage ++ other.storage⟩

/-- `extend_from_range`: the strings `range` of `other` after those of `a`. Slicing out of
bounds panics, and so does an offset below the range's first (the `usize` subtraction). -/
def extendFromRange (a other : PackedStringArray) (range : ℕ × ℕ) :
    Option PackedStringArray := do
  let firstOffset ← other.offsets[range.1]?
  let endOffset ← other.offsets[range.2]?
  let insertOffset := a.storage.length
  let storage ← slice other.storage firstOffset endOffset
  let offsets ← slice other.offsets (range.1 + 1) (range.2 + 1)
  let offsets ← offsets.mapM fun x =>
    if firstOffset ≤ x then some (x - firstOffset + insertOffset) else none
  some ⟨a.offsets ++ offsets, a.storage ++ storage⟩

/-- `split_off`: `a` keeps the strings `[0, n)` (the first component) and those of `[n, len)`
are returned, their offsets moved to start at zero; past the end an empty array is returned.
The `unwrap` of the last offset kept, a split of the storage past its end and an offset below
the split point (the `usize` subtraction) panic. -/
def splitOff (a : PackedStringArray) (n : ℕ) : Option (PackedStringArray × PackedStringArray) :=
  if a.len < n then some (a, new) else do
  let splitPoint ← (a.offsets.take (n + 1)).getLast?
  if a.storage.length < splitPoint then none else do
  let offsets ← (a.offsets.drop (n + 1)).mapM fun v =>
    if splitPoint ≤ v then some (v - splitPoint) else none
  some (⟨a.offsets.take (n + 1), a.storage.take splitPoint⟩,
    ⟨0 :: offsets, a.storage.drop splitPoint⟩)

/-- The strings of `iter()` from index `i` on, up to the first index `get` has none for;
`fuel` bounds the indices left, since `get` has none from `len` on. -/
def iterFrom (a : PackedStringArray) : ℕ → ℕ → List (List Char)
  | 0, _ => []
  | fuel + 1, i =>
    match a.get i with
    | none => []
    | some s => s :: a.iterFrom fuel (i + 1)

/-- `iter()`: the strings of the array. -/
def iter (a : PackedStringArray) : List (List Char) := a.iterFrom a.offsets.length 0

/-- The offsets of the strings `ss` packed after `start` characters. -/
def offsetsFrom (start : ℕ) : List (List Char) → List ℕ
  | [] => [start]
  | s :: ss => start :: offsetsFrom (start + s.length) ss

/-- `a` packs the strings `ss`. -/
structure Holds (a : PackedStringArray) (ss : List (List Char)) : Prop where
  offsets_eq : a.offsets = offsetsFrom 0 ss
  storage_eq : a.storage = ss.flatten

/-! ### Offsets -/

@[simp] theorem length_offsetsFrom (start : ℕ) (ss : List (List Char)) :
    (offsetsFrom start ss).length = ss.length + 1 := by
  induction ss generalizing start with
  | nil => rfl
  | cons s ss ih => simp [offsetsFrom, ih]

theorem offsetsFrom_concat (start : ℕ) (ss : List (List Char)) (s : List Char) :
    offsetsFrom start (ss ++ [s]) =
      offsetsFrom start ss ++ [start + (ss ++ [s]).flatten.length] := by
  induction ss generalizing start with
  | nil => simp [offsetsFrom]
  | cons t ss ih =>
    simp only [List.cons_append, offsetsFrom, ih, List.flatten_cons, List.length_append,
      Nat.add_assoc]

theorem getElem?_offsetsFrom (start : ℕ) (ss : List (List Char)) (i : ℕ) :
    (offsetsFrom start ss)[i]? =
      if i ≤ ss.length then some (start + (ss.take i).flatten.length) else none := by
  induction ss generalizing start i with
  | nil => cases i <;> simp [offsetsFrom]
  | cons s ss ih =>
    cases i with
    | zero => simp [offsetsFrom]
    | succ i =>
      simp only [offsetsFrom, List.getElem?_cons_succ, ih, List.length_cons, List.take_succ_cons,
        List.flatten_cons, List.length_append, Nat.add_le_add_iff_right, Nat.add_assoc]

theorem getLast?_offsetsFrom (start : ℕ) (ss : List (List Char)) :
    (offsetsFrom start ss).getLast? = some (start + ss.flatten.length) := by
  rw [List.getLast?_eq_getElem?, length_offsetsFrom, Nat.add_sub_cancel,
    getElem?_offsetsFrom, if_pos le_rfl, List.take_length]

theorem take_offsetsFrom (start : ℕ) (ss : List (List Char)) (k : ℕ) :
    (offsetsFrom start ss).take (k + 1) = offsetsFrom start (ss.take k) := by
  induction ss generalizing start k with
  | nil => simp [offsetsFrom]
  | cons s ss ih =>
    cases k with
    | zero => simp [offsetsFrom]
    | succ k => simp [offsetsFrom, ih]

theorem offsetsFrom_append (start : ℕ) (ss ss' : List (List Char)) :
    offsetsFrom start (ss ++ ss') =
      offsetsFrom start ss ++ (offsetsFrom (start + ss.flatten.length) ss').drop 1 := by
  induction ss generalizing start with
  | nil => cases ss' <;> simp [offsetsFrom]
  | cons s ss ih => simp [offsetsFrom, ih, Nat.add_assoc]

theorem map_add_offsetsFrom (start d : ℕ) (ss : List (List Char)) :
    (offsetsFrom start ss).map (· + d) = offsetsFrom (start + d) ss := by
  induction ss generalizing start with
  | nil => rfl
  | cons s ss ih => simp [offsetsFrom, ih, Nat.add_right_comm]

theorem le_of_mem_offsetsFrom {start x : ℕ} {ss : List (List Char)}
    (hx : x ∈ offsetsFrom start ss) : start ≤ x := by
  induction ss generalizing start with
  | nil => simp [offsetsFrom] at hx; omega
  | cons s ss ih =>
    rcases List.mem_cons.mp hx with rfl | hx
    · exact le_rfl
    · have := ih hx
      omega

/-! ### What each operation does to the strings -/

theorem holds_new : Holds new [] := ⟨rfl, rfl⟩

theorem holds_newEmpty (len : ℕ) : Holds (newEmpty len) (List.replicate len []) := by
  refine ⟨?_, by simp [newEmpty]⟩
  induction len with
  | zero => rfl
  | succ n ih =>
    simp only [newEmpty, List.replicate_succ, offsetsFrom, List.length_nil, Nat.add_zero] at ih ⊢
    rw [ih]

variable {a : PackedStringArray} {ss : List (List Char)}

theorem Holds.len_eq (h : Holds a ss) : a.len = ss.length := by
  simp [len, h.offsets_eq]

theorem Holds.append (h : Holds a ss) (s : List Char) : Holds (a.append s) (ss ++ [s]) := by
  constructor
  · simp [PackedStringArray.append, offsetsFrom_concat, h.offsets_eq, h.storage_eq]
  · simp [PackedStringArray.append, h.storage_eq]

theorem Holds.extend (h : Holds a ss) (n : ℕ) :
    Holds (a.extend n) (ss ++ List.replicate n []) := by
  induction n with
  | zero => simpa [PackedStringArray.extend] using h
  | succ n ih =>
    have hstep := ih.append []
    rw [List.append_assoc, ← List.replicate_succ'] at hstep
    refine ⟨?_, by simp [PackedStringArray.extend, h.storage_eq]⟩
    rw [← hstep.offsets_eq]
    simp [PackedStringArray.extend, PackedStringArray.append, List.replicate_succ',
      h.storage_eq]

theorem Holds.get (h : Holds a ss) (i : ℕ) : a.get i = ss[i]? := by
  rcases Nat.lt_or_ge i ss.length with hi | hi
  · have hflat : ss.flatten = (ss.take i).flatten ++ (ss[i] ++ (ss.drop (i + 1)).flatten) := by
      rw [← List.flatten_cons, ← List.drop_eq_getElem_cons hi, ← List.flatten_append,
        List.take_append_drop]
    have htake : (ss.take (i + 1)).flatten = (ss.take i).flatten ++ ss[i] := by
      rw [List.take_add_one, List.getElem?_eq_getElem hi, Option.toList_some, List.flatten_append,
        List.flatten_singleton]
    have hstart : (ss.take i).flatten.length ≤ (ss.take (i + 1)).flatten.length := by
      rw [htake, List.length_append]
      omega
    have hstop : (ss.take (i + 1)).flatten.length ≤ a.storage.length := by
      rw [h.storage_eq, hflat, htake]
      simp
    have hlen : (ss.take (i + 1)).flatten.length - (ss.take i).flatten.length = ss[i].length := by
      rw [htake, List.length_append]
      omega
    simp only [PackedStringArray.get, h.offsets_eq, getElem?_offsetsFrom, if_pos hi.le,
      if_pos (Nat.succ_le_of_lt hi), Nat.zero_add, List.getElem?_eq_getElem hi]
    show slice a.storage (ss.take i).flatten.length (ss.take (i + 1)).flatten.length = some ss[i]
    rw [slice_of_le hstart hstop, hlen, h.storage_eq, hflat, List.drop_left, List.take_left]
  · rcases hi.lt_or_eq with hi | rfl
    · simp [PackedStringArray.get, h.offsets_eq, Nat.not_le.2 hi,
        Nat.not_le.2 (Nat.lt_succ_of_lt hi), List.getElem?_eq_none hi.le]
    · simp [PackedStringArray.get, h.offsets_eq]

theorem Holds.truncate (h : Holds a ss) (k : ℕ) :
    ∃ a', a.truncate k = some a' ∧ Holds a' (ss.take k) := by
  refine ⟨⟨offsetsFrom 0 (ss.take k), (ss.take k).flatten⟩, ?_, ⟨rfl, rfl⟩⟩
  have hstorage : ss.flatten.take (ss.take k).flatten.length = (ss.take k).flatten := by
    have hsplit : ss.flatten = (ss.take k).flatten ++ (ss.drop k).flatten := by
      rw [← List.flatten_append, List.take_append_drop]
    rw [hsplit, List.take_left]
  simp only [PackedStringArray.truncate, h.offsets_eq, take_offsetsFrom, getLast?_offsetsFrom,
    Nat.zero_add, Option.map_some, h.storage_eq, hstorage]

theorem Holds.extendFrom {a' : PackedStringArray} {ss' : List (List Char)} (h : Holds a ss)
    (h' : Holds a' ss') : Holds (a.extendFrom a') (ss ++ ss') := by
  constructor
  · rw [PackedStringArray.extendFrom, h.offsets_eq, h'.offsets_eq, offsetsFrom_append,
      List.map_drop, map_add_offsetsFrom, h.storage_eq]
  · rw [PackedStringArray.extendFrom, h.storage_eq, h'.storage_eq, List.flatten_append]

/-- The offsets of a slice of the strings, moved to start at `insert`. -/
theorem mapM_offsets_shift {first insert : ℕ} (bs : List (List Char)) :
    ((offsetsFrom first bs).drop 1).mapM
        (fun x => if first ≤ x then some (x - first + insert) else none) =
      some ((offsetsFrom insert bs).drop 1) := by
  have hshift : (offsetsFrom first bs).map (fun x => x - first + insert) =
      offsetsFrom insert bs := by
    rw [← Nat.zero_add first, ← map_add_offsetsFrom, List.map_map, Nat.zero_add]
    rw [← Nat.zero_add insert, ← map_add_offsetsFrom 0 insert]
    exact List.map_congr_left fun x _ => by simp
  rw [← hshift, ← List.map_drop]
  have hle : ∀ x ∈ (offsetsFrom first bs).drop 1, first ≤ x :=
    fun x hx => le_of_mem_offsetsFrom (List.mem_of_mem_drop hx)
  generalize (offsetsFrom first bs).drop 1 = l at hle ⊢
  induction l with
  | nil => rfl
  | cons x l ih =>
    simp only [List.mapM_cons, if_pos (hle x List.mem_cons_self),
      ih fun y hy => hle y (List.mem_cons_of_mem x hy)]
    rfl

theorem Holds.extendFromRange {a' : PackedStringArray} {ss' : List (List Char)} (h : Holds a ss)
    (h' : Holds a' ss') {s e : ℕ} (hse : s ≤ e) (he : e ≤ ss'.length) :
    ∃ b, a.extendFromRange a' (s, e) = some b ∧ Holds b (ss ++ (ss'.drop s).take (e - s)) := by
  -- the strings before the range, in it and after it
  have hsplit : ss' = ss'.take s ++ ((ss'.drop s).take (e - s) ++ ss'.drop e) := by
    rw [show ss'.drop e = (ss'.drop s).drop (e - s) by rw [List.drop_drop]; congr 1; omega,
      List.take_append_drop, List.take_append_drop]
  set A := ss'.take s
  set B := (ss'.drop s).take (e - s)
  set C := ss'.drop e
  have hA : A.length = s := by rw [List.length_take]; omega
  have hB : B.length = e - s := by rw [List.length_take, List.length_drop]; omega
  have hoffs : a'.offsets = offsetsFrom 0 A ++
      ((offsetsFrom A.flatten.length B).drop 1 ++
        (offsetsFrom (A.flatten.length + B.flatten.length) C).drop 1) := by
    rw [h'.offsets_eq, hsplit, offsetsFrom_append, Nat.zero_add, offsetsFrom_append]
    cases B with
    | nil => simp [offsetsFrom]
    | cons b B => simp [offsetsFrom]
  have hfirst : a'.offsets[s]? = some A.flatten.length := by
    rw [hoffs, List.getElem?_append_left (by simp [hA]), getElem?_offsetsFrom, if_pos hA.ge,
      Nat.zero_add, List.take_of_length_le hA.le]
  have hend : a'.offsets[e]? = some (A.flatten.length + B.flatten.length) := by
    rw [h'.offsets_eq, getElem?_offsetsFrom, if_pos he, Nat.zero_add]
    congr 1
    rw [show ss'.take e = A ++ B by
      rw [hsplit, List.take_append, List.take_of_length_le (by omega), hA,
        List.take_append, List.take_of_length_le (by omega), hB,
        show e - s - (e - s) = 0 by omega, List.take_zero, List.append_nil]]
    simp
  have hstorage : slice a'.storage A.flatten.length (A.flatten.length + B.flatten.length) =
      some B.flatten := by
    rw [slice_of_le (by omega) (by rw [h'.storage_eq, hsplit]; simp), h'.storage_eq, hsplit]
    simp
  have hslice : slice a'.offsets (s + 1) (e + 1) = some ((offsetsFrom A.flatten.length B).drop 1) := by
    rw [slice_of_le (by omega) (by rw [h'.offsets_eq]; simp; omega), hoffs,
      List.drop_append_of_le_length (by simp [hA]), List.drop_eq_nil_of_le (by simp [hA]),
      List.nil_append, List.take_left' (by simp [hB])]
  refine ⟨⟨a.offsets ++ (offsetsFrom a.storage.length B).drop 1, a.storage ++ B.flatten⟩, ?_,
    ⟨?_, ?_⟩⟩
  · simp only [PackedStringArray.extendFromRange, hfirst, hend, hstorage, hslice,
      Option.bind_eq_bind, Option.bind_some, mapM_offsets_shift]
  · rw [h.offsets_eq, offsetsFrom_append, Nat.zero_add, h.storage_eq]
  · rw [h.storage_eq, List.flatten_append]

theorem offsetsFrom_eq_cons (start : ℕ) (ss : List (List Char)) :
    offsetsFrom start ss = start :: (offsetsFrom start ss).drop 1 := by
  cases ss <;> rfl

/-- `split_off` within the array: the first `n` strings stay, and the others are returned. -/
theorem Holds.splitOff (h : Holds a ss) {n : ℕ} (hn : n ≤ ss.length) :
    ∃ l r, a.splitOff n = some (l, r) ∧ Holds l (ss.take n) ∧ Holds r (ss.drop n) := by
  set sp := (ss.take n).flatten.length
  have hflat : ss.flatten = (ss.take n).flatten ++ (ss.drop n).flatten := by
    rw [← List.flatten_append, List.take_append_drop]
  have hoffs : a.offsets = offsetsFrom 0 (ss.take n) ++ (offsetsFrom sp (ss.drop n)).drop 1 := by
    rw [h.offsets_eq, ← Nat.zero_add sp, ← offsetsFrom_append, List.take_append_drop]
  have hlen : (offsetsFrom 0 (ss.take n)).length = n + 1 := by
    rw [length_offsetsFrom, List.length_take, Nat.min_eq_left hn]
  have hmap : ((offsetsFrom sp (ss.drop n)).drop 1).mapM
      (fun v => if sp ≤ v then some (v - sp) else none) =
        some ((offsetsFrom 0 (ss.drop n)).drop 1) :=
    @mapM_offsets_shift sp 0 (ss.drop n)
  refine ⟨⟨offsetsFrom 0 (ss.take n), (ss.take n).flatten⟩,
    ⟨offsetsFrom 0 (ss.drop n), (ss.drop n).flatten⟩, ?_, ⟨rfl, rfl⟩, ⟨rfl, rfl⟩⟩
  have hle : ¬ a.len < n := by rw [h.len_eq]; omega
  have hstore : ¬ a.storage.length < sp := by rw [h.storage_eq, hflat, List.length_append]; omega
  simp only [PackedStringArray.splitOff, if_neg hle, h.offsets_eq, take_offsetsFrom,
    getLast?_offsetsFrom, Nat.zero_add, Option.bind_eq_bind, Option.bind_some]
  rw [if_neg hstore, ← h.offsets_eq, hoffs, List.drop_left' hlen, hmap, Option.bind_some,
    ← offsetsFrom_eq_cons, h.storage_eq, hflat, List.take_left, List.drop_left]

/-- The strings `iter()` yields are those the array packs. -/
theorem Holds.iter (h : Holds a ss) : a.iter = ss := by
  have hfrom : ∀ fuel i, ss.length - i < fuel → a.iterFrom fuel i = ss.drop i := by
    intro fuel
    induction fuel with
    | zero => intro i hi; omega
    | succ fuel ih =>
      intro i hi
      rw [iterFrom, h.get]
      by_cases hlt : i < ss.length
      · rw [List.getElem?_eq_getElem hlt, ih (i + 1) (by omega), List.drop_eq_getElem_cons hlt]
      · rw [List.getElem?_eq_none (by omega), List.drop_eq_nil_of_le (by omega)]
  rw [PackedStringArray.iter, hfrom _ 0 (by rw [h.offsets_eq]; simp), List.drop_zero]

/-- An array is determined by the strings it packs. -/
theorem Holds.unique {a' : PackedStringArray} (h : Holds a ss) (h' : Holds a' ss) : a = a' := by
  cases a
  cases a'
  simp only [PackedStringArray.mk.injEq]
  exact ⟨h.offsets_eq.trans h'.offsets_eq.symm, h.storage_eq.trans h'.storage_eq.symm⟩

/-- The strings an array packs are determined by it. -/
theorem Holds.strings_eq {ss' : List (List Char)} (h : Holds a ss) (h' : Holds a ss') :
    ss = ss' :=
  List.ext_getElem? fun i => by rw [← h.get, ← h'.get]

end PackedStringArray

/-! ## The string dictionary -/

/-- `StringDictionary<i32>`: the index `dedup`, each key with the string it was inserted for,
and the strings in key order. -/
structure StringDictionary where
  dedup : List (ℕ × List Char)
  storage : PackedStringArray
  deriving DecidableEq, Repr

namespace StringDictionary

variable {ds : List (List Char)} {value : List Char} {d : StringDictionary}

def new : StringDictionary := ⟨[], .new⟩

/-- The probe of `dedup` for `value`: each candidate key's string is unwrapped (a panic where
the storage has none) and compared with `value`; `some none` where no candidate matches. -/
def findKey (storage : PackedStringArray) (value : List Char) :
    List (ℕ × List Char) → Option (Option ℕ)
  | [] => some none
  | (key, _) :: rest =>
    match storage.get key with
    | none => none
    | some s => if s = value then some (some key) else findKey storage value rest

/-- `lookup_value_or_insert`: the key of `value`, appended to the storage if not found;
`none` is a panic. -/
def lookupValueOrInsert (d : StringDictionary) (value : List Char) :
    Option (ℕ × StringDictionary) :=
  match findKey d.storage value (d.dedup.filter fun e => e.2 == value) with
  | none => none
  | some (some key) => some (key, d)
  | some none =>
    let index := d.storage.len
    some (index, ⟨d.dedup ++ [(index, value)], d.storage.append value⟩)

/-- `truncate`: keeps the keys up to `id`. The key is cast to `usize` and `id + 1` wraps to
`0` for `id = -1`, as in a release build. -/
def truncate (d : StringDictionary) (id : ℤ) : Option StringDictionary :=
  let id := (id % 2 ^ 64).toNat
  (d.storage.truncate ((id + 1) % 2 ^ 64)).map fun storage =>
    ⟨d.dedup.filter fun e => e.1 ≤ id, storage⟩

def clear (d : StringDictionary) : StringDictionary := ⟨[], d.storage.clear⟩

theorem findKey_spec {storage : PackedStringArray} : ∀ {cands : List (ℕ × List Char)} {key : ℕ},
      findKey storage value cands = some (some key) → storage.get key = some value
  | [], _, h => by simp [findKey] at h
  | (k, _) :: rest, key, h => by
    simp only [findKey] at h
    split at h
    · cases h
    · rename_i s hs
      split_ifs at h with hsv
      · cases h
        rw [hs, hsv]
      · exact findKey_spec h

/-- A lookup answers a key holding `value`: one already there, the dictionary unchanged, or a
new last key. -/
theorem lookupValueOrInsert_spec {d d' : StringDictionary} {key : ℕ} (h : d.storage.Holds ds)
    (hl : d.lookupValueOrInsert value = some (key, d')) :
    (d' = d ∧ ds[key]? = some value) ∨
      (key = ds.length ∧ d'.storage.Holds (ds ++ [value]) ∧
        d'.dedup = d.dedup ++ [(key, value)]) := by
  unfold lookupValueOrInsert at hl
  split at hl
  · cases hl
  · rename_i k hk
    cases hl
    left
    exact ⟨rfl, (h.get key).symm.trans (findKey_spec hk)⟩
  · cases hl
    right
    exact ⟨h.len_eq, h.append value, rfl⟩

/-- Every key of the index holds, in the storage, the string it was inserted for: what the
probe of `lookup_value_or_insert` unwraps. -/
def Consistent (d : StringDictionary) : Prop := ∀ e ∈ d.dedup, d.storage.get e.1 = some e.2

theorem consistent_new : new.Consistent := by simp [Consistent, new]

/-- The probe answers the first candidate when every candidate holds `value`. -/
theorem findKey_of_forall {storage : PackedStringArray} :
    ∀ cands : List (ℕ × List Char), (∀ e ∈ cands, storage.get e.1 = some e.2 ∧ e.2 = value) →
      findKey storage value cands = some (cands.head?.map (·.1))
  | [], _ => rfl
  | e :: _, hcands => by
    obtain ⟨hget, hv⟩ := hcands e List.mem_cons_self
    simp [findKey, hget, hv]

/-- On a consistent dictionary a lookup never panics, and leaves it consistent. -/
theorem lookupValueOrInsert_consistent
    (h : d.storage.Holds ds) (hc : d.Consistent) (value : List Char) :
    ∃ key d', d.lookupValueOrInsert value = some (key, d') ∧ d'.Consistent := by
  have hcands : ∀ e ∈ d.dedup.filter (fun e => e.2 == value),
      d.storage.get e.1 = some e.2 ∧ e.2 = value := by
    intro e he
    rw [List.mem_filter] at he
    exact ⟨hc e he.1, by simpa using he.2⟩
  rw [lookupValueOrInsert, findKey_of_forall _ hcands]
  cases hhead : (d.dedup.filter fun e => e.2 == value).head? with
  | some e => exact ⟨e.1, d, rfl, hc⟩
  | none =>
    refine ⟨_, _, rfl, ?_⟩
    -- the old keys keep their strings, and the new key holds `value`
    intro e he
    have happ := h.append value
    rw [List.mem_append, List.mem_singleton] at he
    rcases he with he | rfl
    · have hold := hc e he
      rw [h.get] at hold
      rw [happ.get, List.getElem?_append_left (List.getElem?_eq_some_iff.mp hold).1, hold]
    · rw [happ.get, h.len_eq, List.getElem?_append_right le_rfl, Nat.sub_self]
      rfl

/-- A lookup on a consistent dictionary: a key that holds `value` among the strings, which
only grow at the end. -/
theorem lookupValueOrInsert_extends
    (h : d.storage.Holds ds) (hc : d.Consistent) (value : List Char) :
    ∃ key d' extra, d.lookupValueOrInsert value = some (key, d') ∧
      d'.storage.Holds (ds ++ extra) ∧ d'.Consistent ∧ (ds ++ extra)[key]? = some value := by
  obtain ⟨key, d', hl, hc'⟩ := lookupValueOrInsert_consistent h hc value
  rcases lookupValueOrInsert_spec h hl with ⟨rfl, hk⟩ | ⟨rfl, hh, -⟩
  · exact ⟨key, d', [], hl, by simpa using h, hc', by simpa using hk⟩
  · exact ⟨ds.length, d', [value], hl, hh, hc', by simp⟩

/-- Every string of the storage is in the index under its key, so that a lookup finds a
string already stored instead of storing it twice. -/
def Indexed (d : StringDictionary) (ds : List (List Char)) : Prop :=
  ∀ (k : ℕ) v, ds[k]? = some v → (k, v) ∈ d.dedup

theorem indexed_new : new.Indexed [] := by simp [Indexed]

/-- On a consistent and indexed dictionary, a lookup answers a key of `value` and stores it
only when it is not there: the strings stay distinct. -/
theorem lookupValueOrInsert_indexed
    (h : d.storage.Holds ds) (hc : d.Consistent) (hi : d.Indexed ds) (hnd : ds.Nodup)
    (value : List Char) :
    ∃ key d' ds', d.lookupValueOrInsert value = some (key, d') ∧ d'.storage.Holds ds' ∧
      d'.Consistent ∧ d'.Indexed ds' ∧ ds'.Nodup ∧ ds'[key]? = some value ∧
      (ds' = ds ∧ key < ds.length ∨ ds' = ds ++ [value] ∧ key = ds.length) := by
  obtain ⟨key, d', hl, hc'⟩ := lookupValueOrInsert_consistent h hc value
  have hcands : ∀ e ∈ d.dedup.filter (fun e => e.2 == value),
      d.storage.get e.1 = some e.2 ∧ e.2 = value := by
    intro e he
    rw [List.mem_filter] at he
    exact ⟨hc e he.1, by simpa using he.2⟩
  have hl' := hl
  rw [lookupValueOrInsert, findKey_of_forall _ hcands] at hl'
  cases hhead : (d.dedup.filter fun e => e.2 == value).head? with
  | some e =>
    -- `value` is stored already, under the key of the first entry found
    rw [hhead] at hl'
    obtain ⟨rfl, rfl⟩ : e.1 = key ∧ d = d' := by simpa using hl'
    obtain ⟨hget, hv⟩ := hcands e (List.mem_of_mem_head? hhead)
    have hk : ds[e.1]? = some value := by rw [← h.get, hget, hv]
    exact ⟨e.1, d, ds, hl, h, hc', hi, hnd, hk, .inl ⟨rfl, (List.getElem?_eq_some_iff.mp hk).1⟩⟩
  | none =>
    -- no entry holds `value`, so the storage does not have it
    rw [hhead] at hl'
    obtain ⟨rfl, rfl⟩ : d.storage.len = key ∧
        (⟨d.dedup ++ [(d.storage.len, value)], d.storage.append value⟩ : StringDictionary) = d' := by
      simpa using hl'
    have hnot : value ∉ ds := fun hv => by
      obtain ⟨k, hk⟩ := List.mem_iff_getElem?.mp hv
      have hmem : (k, value) ∈ d.dedup.filter fun e => e.2 == value :=
        List.mem_filter.mpr ⟨hi k value hk, by simp⟩
      rw [List.head?_eq_none_iff, List.filter_eq_nil_iff] at hhead
      exact hhead _ (List.mem_filter.mp hmem).1 (List.mem_filter.mp hmem).2
    refine ⟨_, _, ds ++ [value], hl, h.append value, hc', fun k v hk => ?_,
      List.nodup_append.mpr ⟨hnd, List.nodup_cons.mpr ⟨List.not_mem_nil, List.nodup_nil⟩,
        fun a ha b hb hab => ?_⟩, ?_,
      .inr ⟨rfl, h.len_eq⟩⟩
    · rw [List.mem_append, List.mem_singleton]
      by_cases hlt : k < ds.length
      · rw [List.getElem?_append_left hlt] at hk
        exact .inl (hi k v hk)
      · have hk' := (List.getElem?_eq_some_iff.mp hk).1
        rw [List.length_append, List.length_singleton] at hk'
        obtain rfl : k = ds.length := by omega
        rw [List.getElem?_append_right le_rfl, Nat.sub_self] at hk
        simp only [List.getElem?_cons_zero, Option.some.injEq] at hk
        exact .inr (by rw [h.len_eq, hk])
    · rw [List.mem_singleton] at hb
      subst hb hab
      exact hnot ha
    · rw [h.len_eq, List.getElem?_append_right le_rfl, Nat.sub_self]
      rfl

end StringDictionary

/-! ## Columns -/

/-- `NULL_DID`. -/
def nullDid : ℤ := -1

/-- `ColumnData`, without the statistics. -/
inductive ColumnData (F : Type)
  | f64 (data : List F)
  | i64 (data : List Int64)
  | u64 (data : List UInt64)
  | bool (data : BitSet)
  | string (data : PackedStringArray)
  | tag (data : List ℤ) (dict : StringDictionary)

/-- `Column`. -/
structure Column (F : Type) where
  influxType : InfluxColumnType
  valid : BitSet
  data : ColumnData F

/-- A value held in a cell. -/
inductive Value (F : Type)
  | f64 (v : F)
  | i64 (v : Int64)
  | u64 (v : UInt64)
  | bool (v : Bool)
  | string (v : List Char)
  | tag (v : List Char)
  deriving DecidableEq, Repr

variable {F : Type}

namespace Column

/-- `Column::new`: `row_count` NULL rows. -/
def new [Zero F] (rowCount : ℕ) (columnType : InfluxColumnType) : Column F where
  influxType := columnType
  valid := BitSet.new.appendUnset rowCount
  data := match columnType with
    | .field .boolean => .bool (BitSet.new.appendUnset rowCount)
    | .field .uinteger => .u64 (List.replicate rowCount 0)
    | .field .float => .f64 (List.replicate rowCount 0)
    | .field .integer | .timestamp => .i64 (List.replicate rowCount 0)
    | .field .string => .string (.newEmpty rowCount)
    | .tag => .tag (List.replicate rowCount nullDid) .new

/-- `len`: the rows of the validity mask. -/
def len (c : Column F) : ℕ := c.valid.len

/-- `push_nulls_to_len`, which panics (`cannot shrink column`) on a shorter length. -/
def pushNullsToLen [Zero F] (c : Column F) (len : ℕ) : Option (Column F) :=
  if c.valid.len = len then some c
  else if len ≤ c.valid.len then none
  else
    let delta := len - c.valid.len
    some { c with
      valid := c.valid.appendUnset delta
      data := match c.data with
        | .f64 data => .f64 (resize data len 0)
        | .i64 data => .i64 (resize data len 0)
        | .u64 data => .u64 (resize data len 0)
        | .string data => .string (data.extend delta)
        | .bool data => .bool (data.appendUnset delta)
        | .tag data dict => .tag (resize data len nullDid) dict }

end Column

/-- The value the data of a column holds at row `i`. -/
def ColumnData.value : ColumnData F → ℕ → Option (Value F)
  | .f64 data, i => data[i]?.map .f64
  | .i64 data, i => data[i]?.map .i64
  | .u64 data, i => data[i]?.map .u64
  | .bool data, i => if i < data.len then some (.bool (bitAt data.buffer i)) else none
  | .string data, i => (data.get i).map .string
  | .tag data dict, i => data[i]?.bind fun did => (dict.storage.get did.toNat).map .tag

/-- The cells of a column: `none` for a NULL row. -/
def Column.cells (c : Column F) : List (Option (Value F)) :=
  (List.range c.valid.len).map fun i => if bitAt c.valid.buffer i then c.data.value i else none

/-- The column types each kind of data is kept for. -/
def ColumnData.HasType : ColumnData F → InfluxColumnType → Prop
  | .f64 _, t => t = .field .float
  | .i64 _, t => t = .field .integer ∨ t = .timestamp
  | .u64 _, t => t = .field .uinteger
  | .bool _, t => t = .field .boolean
  | .string _, t => t = .field .string
  | .tag _ _, t => t = .tag

/-- The data holds a row for each bit of `valid`: the NULL rows of a string column hold the
empty string, the valid rows of a tag column a key of its dictionary. -/
def ColumnData.Fits : ColumnData F → List Bool → Prop
  | .f64 data, valid => data.length = valid.length
  | .i64 data, valid => data.length = valid.length
  | .u64 data, valid => data.length = valid.length
  | .bool data, valid => ∃ bl, data.Represents bl ∧ bl.length = valid.length
  | .string data, valid => ∃ ss, data.Holds ss ∧ ss.length = valid.length ∧
      ∀ i, valid.getD i true = false → ss.getD i [] = []
  | .tag data dict, valid => ∃ ds, dict.storage.Holds ds ∧ data.length = valid.length ∧
      ∀ i, valid.getD i false = true → ∃ k < ds.length, data[i]? = some (k : ℤ)

/-- What every column of a batch built by the writer keeps. -/
structure Column.WellFormed (c : Column F) : Prop where
  valid : c.valid.Valid
  fits : c.data.Fits c.valid.toList
  hasType : c.data.HasType c.influxType

end IoxCore.MutableBatch

import Mathlib.Data.List.Nodup

/-!
# Insertion-ordered maps

`IndexMap κ ν` is the map of the `indexmap` crate: its entries in the order in which their keys
were first inserted, each key once. `insert` gives a key that is already there its new value
where it stands and puts a new key last; `get_full` answers a key with its position in that
order and its value.

The keys after a run of inserts are the keys inserted, first occurrences kept: a new key is
appended (`keys_insert_of_not_mem`), and a present one changes nothing (`keys_insert_of_mem`).
A value of the map is one that was inserted (`mem_entries_insert`). A key's `get_full` is read
off any split of the entries around it (`getFull_of_entries_eq`), and this is what an
order-preserving walk through a map needs: `Sublist` induction over the entries, with the
entries passed over as the prefix.
-/

/-- `IndexMap`: entries in insertion order, with distinct keys. -/
structure IndexMap (κ : Type*) (ν : Type*) where
  entries : List (κ × ν)
  nodup_keys : (entries.map Prod.fst).Nodup

namespace IndexMap

variable {κ ν : Type*}

/-- `IndexMap::keys`, in order. -/
def keys (m : IndexMap κ ν) : List κ := m.entries.map Prod.fst

theorem nodup (m : IndexMap κ ν) : m.keys.Nodup := m.nodup_keys

/-- A map is its entries: the distinctness of the keys is a proof. -/
@[ext] theorem ext {m m' : IndexMap κ ν} (h : m.entries = m'.entries) : m = m' := by
  cases m
  cases m'
  cases h
  rfl

/-- `IndexMap::new`. -/
def empty : IndexMap κ ν := ⟨[], List.nodup_nil⟩

@[simp] theorem keys_empty : (empty : IndexMap κ ν).keys = [] := rfl

@[simp] theorem entries_empty : (empty : IndexMap κ ν).entries = [] := rfl

/-- `IndexMap::len`. -/
def len (m : IndexMap κ ν) : ℕ := m.entries.length

@[simp] theorem length_keys (m : IndexMap κ ν) : m.keys.length = m.len := List.length_map _

variable [DecidableEq κ] {m : IndexMap κ ν}

/-- `IndexMap::contains_key`. -/
def containsKey (m : IndexMap κ ν) (k : κ) : Bool := decide (k ∈ m.keys)

/-- The entry of key `k` with its value replaced, any other entry as it is. -/
def replaceValue (k : κ) (v : ν) (e : κ × ν) : κ × ν := if e.1 = k then (k, v) else e

theorem map_fst_replaceValue (k : κ) (v : ν) (es : List (κ × ν)) :
    (es.map (replaceValue k v)).map Prod.fst = es.map Prod.fst := by
  rw [List.map_map]
  refine List.map_congr_left fun e _ => ?_
  simp only [Function.comp_apply, replaceValue]
  split <;> simp_all

/-- `IndexMap::insert`: a present key takes the new value in place, a new key goes last. -/
def insert (m : IndexMap κ ν) (k : κ) (v : ν) : IndexMap κ ν :=
  if h : k ∈ m.keys then ⟨m.entries.map (replaceValue k v), by
    rw [map_fst_replaceValue]; exact m.nodup_keys⟩
  else ⟨m.entries ++ [(k, v)], by
    rw [List.map_append]
    exact m.nodup_keys.append (List.nodup_singleton k) (by simpa [keys] using h)⟩

theorem keys_insert_of_mem {k : κ} (v : ν) (h : k ∈ m.keys) : (m.insert k v).keys = m.keys := by
  rw [insert, dif_pos h]
  exact map_fst_replaceValue k v m.entries

theorem keys_insert_of_not_mem {k : κ} (v : ν) (h : k ∉ m.keys) :
    (m.insert k v).keys = m.keys ++ [k] := by
  rw [insert, dif_neg h]
  simp [keys]

/-- Every entry after an insert was there before or is the one inserted. -/
theorem mem_entries_insert {k : κ} {v : ν} {e : κ × ν}
    (h : e ∈ (m.insert k v).entries) : e ∈ m.entries ∨ e = (k, v) := by
  unfold insert at h
  split at h
  · obtain ⟨e', he', rfl⟩ := List.mem_map.1 h
    unfold replaceValue
    split
    · exact .inr rfl
    · exact .inl he'
  · simpa using h

/-- Inserting keys that are distinct and new appends them in order. -/
theorem keys_foldl_insert (f : κ → ν) : ∀ (l : List κ) (m : IndexMap κ ν), (m.keys ++ l).Nodup →
      (l.foldl (fun m k => m.insert k (f k)) m).keys = m.keys ++ l
  | [], m, _ => by simp
  | k :: l, m, h => by
    have hk : k ∉ m.keys := fun hk => (List.nodup_append.1 h).2.2 k hk k (by simp) rfl
    have hins := keys_insert_of_not_mem (f k) hk
    rw [List.foldl_cons, keys_foldl_insert f l _ (by rwa [hins, List.append_assoc]), hins,
      List.append_assoc, List.singleton_append]

/-- The position and value of key `k` in a list of entries whose first one is at position
`i`: `get_full` walks the entries from the front. -/
def getFullFrom (k : κ) : ℕ → List (κ × ν) → Option (ℕ × ν)
  | _, [] => none
  | i, e :: es => if e.1 = k then some (i, e.2) else getFullFrom k (i + 1) es

/-- `IndexMap::get_full`, without the key it also returns. -/
def getFull (m : IndexMap κ ν) (k : κ) : Option (ℕ × ν) := getFullFrom k 0 m.entries

theorem getFullFrom_append_cons (k : κ) (v : ν) (post : List (κ × ν)) :
    ∀ (pre : List (κ × ν)) (i : ℕ), k ∉ pre.map Prod.fst →
      getFullFrom k i (pre ++ (k, v) :: post) = some (i + pre.length, v)
  | [], i, _ => by simp [getFullFrom]
  | e :: pre, i, h => by
    have hek : e.1 ≠ k := fun he => h (he ▸ List.mem_map_of_mem List.mem_cons_self)
    rw [List.cons_append, getFullFrom, if_neg hek,
      getFullFrom_append_cons k v post pre (i + 1) fun hk => h (List.mem_cons_of_mem _ hk)]
    simp only [List.length_cons]
    congr 2
    omega

/-- `get_full` of a key, read off a split of the entries at that key. -/
theorem getFull_of_entries_eq {pre post : List (κ × ν)} {k : κ} {v : ν}
    (h : m.entries = pre ++ (k, v) :: post) : m.getFull k = some (pre.length, v) := by
  have hnd := m.nodup_keys
  rw [h, List.map_append, List.map_cons] at hnd
  have hk : k ∉ pre.map Prod.fst := fun hk => (List.nodup_append.1 hnd).2.2 k hk k (by simp) rfl
  rw [getFull, h, getFullFrom_append_cons k v post pre 0 hk, Nat.zero_add]

end IndexMap

import IoxCore.CatalogCache.Quorum
import IoxCore.Lib.AListSum
import IoxCore.Lib.Transition

/-!
# The local catalog cache: memory accounting and not-recently-used eviction

`catalog_cache::local`. A `CatalogCache` keeps a `DashMap` from keys to entries, each a value
with an atomic `used` flag, an optional `MemoryLimiter` of the bytes the values hold, and an
optional observer told of every value stored and every entry removed:

* `get` returns the value of a key and sets its `used` flag;
* `insert` keeps an entry whose generation is the same or greater (`Ok(false)`); otherwise it
  reserves the growth of the value's bytes, or frees their shrinkage, tells the observer, and
  stores a new entry whose flag is set (`Ok(true)`), or ends with the limiter's error;
* `delete` tells the observer, frees the value's bytes and removes the entry;
* `evict_unused` runs `retain` over the map. For each entry it clears the flag and keeps the entry
  if the flag was set, and otherwise tells the observer, frees the bytes and removes the entry.

`MemoryLimiter::reserve` fails with `TooLarge` for a size over the limit. It adds the size to the
counter with a `fetch_update` that fails with `OutOfMemory` when the sum would pass the limit.
`free` is an unchecked `fetch_sub`, which wraps below zero.

## The model

A call holds the lock of its key's shard across its reads and writes of the entry, so the only
effect another call can see before the lock is released is the one change it makes to the
limiter's counter. Each call of `get`, `insert` and `delete` is therefore one step, and so is
the visit of one entry by `retain`: `evict_unused` is a sequence of steps interleaved with any
other, and `step` runs steps in any order. `list` reads only and is left out.

The map is an association list, data are byte lists, and `usize` counts are natural numbers; the
limit is below `2 ^ 64` and `free` subtracts modulo `2 ^ 64`. The observer is the list of calls
it receives. `accesses` is ghost state read by no step: the gets that returned a value, the
stores, and the visits of `retain`, newest first.

## Results

* `CatalogCache.Inv`: the limiter's counter is the sum of the lengths of the stored values,
  within the limit, the observer's calls replayed give the stored values, and an entry's flag is
  set exactly when a `get` returned it or an `insert` stored it since `retain` last visited it.
  Every step keeps it (`Inv.step`, `Inv.of_reachable`), and no `free` wraps.
* `insert_eq_ok_true_iff` and `insert_of_not_stored`: `insert` returns `Ok(true)` exactly when
  the key has no value or an older one and the reservation succeeds, and otherwise changes
  nothing; `step_generation_le`: no step lowers a stored generation.
* `visit_removes_iff` and `evictUnused_lookup`: `evict_unused` removes exactly the entries that
  no `get` returned and no `insert` stored since `retain` last visited them.
* `insert_values`: without a limiter, `insert` stores the values of the quorum model's
  `Cache.insert`.
-/

namespace IoxCore.CatalogCache

-- `CatalogCache` is the source's name of the structure in the crate `catalog_cache`
set_option linter.dupNamespace false

/-- `Bytes`. -/
abbrev Bytes := List UInt8

/-- `CacheEntry`: a value and its not-recently-used flag. -/
structure CacheEntry where
  value : CacheValue Bytes
  used : Bool

/-- `MemoryLimiter`: the bytes reserved, and the limit, a `usize`. -/
structure MemoryLimiter where
  current : ℕ
  limit : ℕ
  limit_lt : limit < 2 ^ 64

/-- `Error` of the local cache. -/
inductive Error
  | outOfMemory (size current limit : ℕ)
  | tooLarge (size limit : ℕ)
  deriving DecidableEq, Repr

/-- `MemoryLimiter::reserve`. -/
def MemoryLimiter.reserve (l : MemoryLimiter) (size : ℕ) : Except Error MemoryLimiter :=
  -- `limit.checked_sub(size)`
  if size ≤ l.limit then
    if l.current ≤ l.limit - size then .ok { l with current := l.current + size }
    else .error (.outOfMemory size l.current l.limit)
  else .error (.tooLarge size l.limit)

/-- `MemoryLimiter::free`: `fetch_sub` on an `AtomicUsize`, which wraps. -/
def MemoryLimiter.free (l : MemoryLimiter) (size : ℕ) : MemoryLimiter :=
  { l with current := (l.current + 2 ^ 64 - size) % 2 ^ 64 }

/-- A call the observer receives. -/
inductive ObserverCall (K : Type)
  | insert (key : K) (new : CacheValue Bytes) (old : Option (CacheValue Bytes))
  | evict (key : K) (value : CacheValue Bytes)

/-- What the flags record: a `get` that returned a key's value, an `insert` that stored one,
and a visit of `retain`. -/
inductive Access (K : Type)
  | hit (key : K)
  | stored (key : K)
  | visited (key : K)

variable {K : Type} [DecidableEq K]

/-- `CatalogCache`. -/
structure CatalogCache (K : Type) [DecidableEq K] where
  map : AList (fun _ : K => CacheEntry)
  limit : Option MemoryLimiter
  observed : List (ObserverCall K)
  accesses : List (Access K)

/-- `CatalogCache::new`, with a `usize` limit. -/
def CatalogCache.new (limit : Option (Fin (2 ^ 64))) : CatalogCache K :=
  ⟨∅, limit.map fun l => ⟨0, l.val, l.isLt⟩, [], []⟩

namespace CatalogCache

/-- `CatalogCache::get`. -/
def get (c : CatalogCache K) (key : K) : Option (CacheValue Bytes) × CatalogCache K :=
  match c.map.lookup key with
  | none => (none, c)
  | some e =>
    (some e.value,
      { c with map := c.map.insert key { e with used := true }, accesses := .hit key :: c.accesses })

/-- The reservation of `insert` for a vacant entry. -/
def vacantReserve : Option MemoryLimiter → ℕ → Except Error (Option MemoryLimiter)
  | none, _ => .ok none
  | some l, newLen => (l.reserve newLen).map some

/-- The reservation of `insert` over an entry of `curLen` bytes: the growth is reserved, the
shrinkage freed. -/
def occupiedReserve : Option MemoryLimiter → ℕ → ℕ → Except Error (Option MemoryLimiter)
  | none, _, _ => .ok none
  | some l, newLen, curLen =>
    if newLen > curLen then (l.reserve (newLen - curLen)).map some
    else .ok (some (l.free (curLen - newLen)))

/-- The end of an `insert` that stores: the observer is told, and a new entry, with its flag
set, replaces the old one. -/
def store (c : CatalogCache K) (key : K) (value : CacheValue Bytes)
    (old : Option (CacheValue Bytes)) (limit : Option MemoryLimiter) : CatalogCache K :=
  { c with
    map := c.map.insert key ⟨value, true⟩
    limit
    observed := c.observed ++ [.insert key value old]
    accesses := .stored key :: c.accesses }

/-- `CatalogCache::insert`: whether the value was stored. -/
def insert (c : CatalogCache K) (key : K) (value : CacheValue Bytes) :
    Except Error Bool × CatalogCache K :=
  match c.map.lookup key with
  | some e =>
    if value.generation ≤ e.value.generation then (.ok false, c)
    else
      match occupiedReserve c.limit value.data.length e.value.data.length with
      | .error err => (.error err, c)
      | .ok limit => (.ok true, c.store key value (some e.value) limit)
  | none =>
    match vacantReserve c.limit value.data.length with
    | .error err => (.error err, c)
    | .ok limit => (.ok true, c.store key value none limit)

/-- The removal of an entry, by `delete` and by `evict_unused`: the observer is told and the
bytes are freed. -/
def remove (c : CatalogCache K) (key : K) (value : CacheValue Bytes) : CatalogCache K :=
  { c with
    map := c.map.erase key
    limit := c.limit.map (·.free value.data.length)
    observed := c.observed ++ [.evict key value] }

/-- `CatalogCache::delete`. -/
def delete (c : CatalogCache K) (key : K) : Option (CacheValue Bytes) × CatalogCache K :=
  match c.map.lookup key with
  | none => (none, c)
  | some e => (some e.value, c.remove key e.value)

/-- The closure of `evict_unused` on one entry: `swap(false)` of its flag, and the entry kept if
the flag was set. -/
def visit (c : CatalogCache K) (key : K) : CatalogCache K :=
  match c.map.lookup key with
  | none => c
  | some e =>
    let c := { c with accesses := .visited key :: c.accesses }
    if e.used then { c with map := c.map.insert key { e with used := false } }
    else c.remove key e.value

/-- `CatalogCache::evict_unused` with no call in between: `retain` visits every entry. -/
def evictUnused (c : CatalogCache K) : CatalogCache K :=
  c.map.keys.foldl visit c

end CatalogCache

/-- The calls, each a step; a visit is the part of an `evict_unused` for one entry. -/
inductive LocalAction (K : Type)
  | get (key : K)
  | insert (key : K) (value : CacheValue Bytes)
  | delete (key : K)
  | visit (key : K)

namespace CatalogCache

/-- A step of the cache; `retain` visits only the entries there are. -/
def step (c : CatalogCache K) : LocalAction K → Option (CatalogCache K)
  | .get key => some (c.get key).2
  | .insert key value => some (c.insert key value).2
  | .delete key => some (c.delete key).2
  | .visit key => if key ∈ c.map then some (c.visit key) else none

end CatalogCache

/-! ### The limiter -/

namespace MemoryLimiter

theorem reserve_eq_ok {l l' : MemoryLimiter} {size : ℕ} (h : l.reserve size = .ok l') :
    l.current + size ≤ l.limit ∧ l' = { l with current := l.current + size } := by
  unfold reserve at h
  split at h
  · split at h
    · cases h
      exact ⟨by omega, rfl⟩
    · cases h
  · cases h

@[simp] theorem free_limit (l : MemoryLimiter) (size : ℕ) : (l.free size).limit = l.limit := by
  unfold free
  rfl

/-- `fetch_sub` of no more than the counter holds does not wrap. -/
theorem free_current {l : MemoryLimiter} (size : ℕ) (hsize : size ≤ l.current)
    (hcur : l.current ≤ l.limit) : (l.free size).current = l.current - size := by
  have := l.limit_lt
  simp only [free]
  rw [show l.current + 2 ^ 64 - size = (l.current - size) + 2 ^ 64 by omega, Nat.add_mod_right,
    Nat.mod_eq_of_lt (by omega)]

end MemoryLimiter

/-! ### What the invariant speaks of -/

/-- The bytes of the stored values. -/
def usage (map : AList (fun _ : K => CacheEntry)) : ℕ := map.sumBy fun e => e.2.value.data.length

/-- The values an observer holds that replays the calls it received. -/
def replay (calls : List (ObserverCall K)) : K → Option (CacheValue Bytes) :=
  calls.foldl (fun m call =>
    match call with
    | .insert key new _ => Function.update m key (some new)
    | .evict key _ => Function.update m key none) fun _ => none

/-- The key of an access. -/
def Access.key : Access K → K
  | .hit key | .stored key | .visited key => key

/-- A `get` returned the key's value, or an `insert` stored one, since `retain` last visited
the key: the accesses are newest first. -/
def touchedSince (key : K) : List (Access K) → Bool
  | [] => false
  | .hit k :: h | .stored k :: h => k == key || touchedSince key h
  | .visited k :: h => k != key && touchedSince key h

theorem touchedSince_cons_of_ne {key : K} {a : Access K} (h : a.key ≠ key) (l : List (Access K)) :
    touchedSince key (a :: l) = touchedSince key l := by
  cases a <;> simp_all [touchedSince, Access.key]

@[simp] theorem touchedSince_hit (key : K) (l : List (Access K)) :
    touchedSince key (.hit key :: l) = true := by
  simp [touchedSince]

@[simp] theorem touchedSince_stored (key : K) (l : List (Access K)) :
    touchedSince key (.stored key :: l) = true := by
  simp [touchedSince]

@[simp] theorem touchedSince_visited (key : K) (l : List (Access K)) :
    touchedSince key (.visited key :: l) = false := by
  simp [touchedSince]

theorem replay_append_insert (calls : List (ObserverCall K)) (key : K) (new : CacheValue Bytes)
    (old : Option (CacheValue Bytes)) :
    replay (calls ++ [.insert key new old]) = Function.update (replay calls) key (some new) := by
  simp [replay, List.foldl_append]

theorem replay_append_evict (calls : List (ObserverCall K)) (key : K) (value : CacheValue Bytes) :
    replay (calls ++ [.evict key value]) = Function.update (replay calls) key none := by
  simp [replay, List.foldl_append]

/-- A write of the entry of a key changes the bytes by the difference of the two values. -/
theorem usage_insert_of_lookup {map : AList (fun _ : K => CacheEntry)} {key : K}
    {e : CacheEntry} (h : map.lookup key = some e) (e' : CacheEntry) :
    usage (map.insert key e') + e.value.data.length = e'.value.data.length + usage map := by
  unfold usage
  rw [AList.sumBy_insert, AList.sumBy_of_lookup _ h]
  dsimp only
  omega

theorem usage_erase_of_lookup {map : AList (fun _ : K => CacheEntry)} {key : K}
    {e : CacheEntry} (h : map.lookup key = some e) :
    usage (map.erase key) + e.value.data.length = usage map := by
  unfold usage
  rw [AList.sumBy_of_lookup _ h]
  dsimp only
  omega

/-! ### What `insert` and a step do -/

namespace CatalogCache

/-- When `insert` stores its value: the key holds no value or an older one, and the limiter
reserves the bytes. -/
def InsertStores (c : CatalogCache K) (key : K) (value : CacheValue Bytes) : Prop :=
  match c.map.lookup key with
  | some e => e.value.generation < value.generation ∧
      ∃ limit, occupiedReserve c.limit value.data.length e.value.data.length = .ok limit
  | none => ∃ limit, vacantReserve c.limit value.data.length = .ok limit

variable {c : CatalogCache K} {key : K} {value : CacheValue Bytes}

theorem insert_eq_ok_true_iff : (c.insert key value).1 = .ok true ↔ InsertStores c key value := by
  unfold CatalogCache.insert InsertStores
  cases c.map.lookup key with
  | some e =>
    dsimp only
    split
    · rename_i hle
      refine iff_of_false (by simp) fun h => ?_
      exact absurd h.1 (not_lt.2 hle)
    · rename_i hlt
      split <;> simp_all
  | none =>
    dsimp only
    split <;> simp_all

/-- An `insert` that does not store leaves the cache as it was. -/
theorem insert_of_not_stored (h : (c.insert key value).1 ≠ .ok true) :
    (c.insert key value).2 = c := by
  revert h
  unfold CatalogCache.insert
  split
  · split
    · exact fun _ => rfl
    · split
      · exact fun _ => rfl
      · exact fun h => absurd rfl h
  · split
    · exact fun _ => rfl
    · exact fun h => absurd rfl h

/-- An `insert` that stores ends in `store`, over the value the key held. -/
theorem insert_stored (h : (c.insert key value).1 = .ok true) :
    ∃ limit, (c.insert key value).2 = c.store key value ((c.map.lookup key).map (·.value)) limit := by
  revert h
  unfold CatalogCache.insert
  split
  · rename_i e he
    split
    · simp
    · split
      · simp
      · exact fun _ => ⟨_, by rw [he]; rfl⟩
  · rename_i he
    split
    · simp
    · exact fun _ => ⟨_, by rw [he]; rfl⟩

/-- How one step changes the value of a key, and the calls the observer receives for it. -/
inductive Change (key : K) :
    Option (CacheValue Bytes) → Option (CacheValue Bytes) → List (ObserverCall K) → Prop
  /-- The value stays, and no call is made. -/
  | keep (v : Option (CacheValue Bytes)) : Change key v v []
  /-- A value of a greater generation is stored, and the observer receives one `insert`. -/
  | store (old : Option (CacheValue Bytes)) (new : CacheValue Bytes)
      (h : ∀ v ∈ old, v.generation < new.generation) : Change key old (some new) [.insert key new old]
  /-- The entry is removed, and the observer receives one `evict`. -/
  | evict (old : CacheValue Bytes) : Change key (some old) none [.evict key old]

/-- What one step can do: it changes the entry of one key only, the value of that key as
`Change` says, and the observer receives exactly the calls of that change. -/
theorem step_change {a : LocalAction K} {c' : CatalogCache K} (h : c.step a = some c') :
    ∃ key calls, (∀ k ≠ key, c'.map.lookup k = c.map.lookup k) ∧
      c'.observed = c.observed ++ calls ∧
      Change key ((c.map.lookup key).map (·.value)) ((c'.map.lookup key).map (·.value)) calls := by
  cases a with
  | get key =>
    cases h
    refine ⟨key, [], ?_⟩
    unfold CatalogCache.get
    split
    · exact ⟨fun _ _ => rfl, by simp, .keep _⟩
    · rename_i e he
      refine ⟨fun k hk => AList.lookup_insert_ne hk, by simp, ?_⟩
      simpa [AList.lookup_insert, he] using (Change.keep (some e.value) : Change key _ _ _)
  | insert key value =>
    cases h
    refine ⟨key, ?_⟩
    by_cases hstored : (c.insert key value).1 = .ok true
    · obtain ⟨limit, heq⟩ := insert_stored hstored
      have hgen : ∀ v ∈ (c.map.lookup key).map (·.value), v.generation < value.generation := by
        have := insert_eq_ok_true_iff.1 hstored
        unfold InsertStores at this
        intro v hv
        obtain ⟨e, he, rfl⟩ := Option.mem_map.1 hv
        rw [he] at this
        exact this.1
      rw [heq]
      refine ⟨_, fun k hk => AList.lookup_insert_ne hk, rfl, ?_⟩
      simpa [store, AList.lookup_insert] using (Change.store _ value hgen : Change key _ _ _)
    · rw [insert_of_not_stored hstored]
      exact ⟨[], fun _ _ => rfl, by simp, .keep _⟩
  | delete key =>
    cases h
    refine ⟨key, ?_⟩
    unfold CatalogCache.delete
    split
    · exact ⟨[], fun _ _ => rfl, by simp, .keep _⟩
    · rename_i e he
      refine ⟨_, fun k hk => AList.lookup_erase_ne hk, rfl, ?_⟩
      simpa [remove, AList.lookup_erase, he] using (Change.evict e.value : Change key _ _ _)
  | visit key =>
    simp only [CatalogCache.step] at h
    split at h
    · cases h
      refine ⟨key, ?_⟩
      unfold CatalogCache.visit
      split
      · exact ⟨[], fun _ _ => rfl, by simp, .keep _⟩
      · rename_i e he
        split
        · refine ⟨[], fun k hk => AList.lookup_insert_ne hk, by simp, ?_⟩
          simpa [AList.lookup_insert, he] using (Change.keep (some e.value) : Change key _ _ _)
        · refine ⟨_, fun k hk => AList.lookup_erase_ne hk, rfl, ?_⟩
          simpa [remove, AList.lookup_erase, he] using (Change.evict e.value : Change key _ _ _)
    · cases h

omit [DecidableEq K] in
/-- A value that stays or is replaced keeps or raises its generation. -/
theorem Change.generation_le {v v' : CacheValue Bytes} {calls : List (ObserverCall K)}
    (h : Change key (some v) (some v') calls) : v.generation ≤ v'.generation := by
  cases h with
  | keep => exact le_rfl
  | store _ _ hgen => exact (hgen v rfl).le

/-- No step lowers the generation a key holds. -/
theorem step_generation_le {a : LocalAction K} {c' : CatalogCache K} (h : c.step a = some c')
    {k : K} {e e' : CacheEntry} (he : c.map.lookup k = some e) (he' : c'.map.lookup k = some e') :
    e.value.generation ≤ e'.value.generation := by
  obtain ⟨key, calls, hother, -, hchange⟩ := step_change h
  by_cases hk : k = key
  · subst hk
    rw [he, he'] at hchange
    exact hchange.generation_le
  · rw [hother k hk, he] at he'
    rw [Option.some.inj he']

end CatalogCache

/-! ### The invariant -/

namespace CatalogCache

/-- What holds of the cache between steps. -/
structure Inv (c : CatalogCache K) : Prop where
  /-- The limiter's counter is the bytes of the stored values, within the limit. -/
  accounted : ∀ l ∈ c.limit, l.current = usage c.map ∧ l.current ≤ l.limit
  /-- The observer's calls replayed give the stored values. -/
  observed : ∀ key, replay c.observed key = (c.map.lookup key).map (·.value)
  /-- An entry's flag says whether it was read or stored since `retain` last visited it. -/
  flags : ∀ key e, c.map.lookup key = some e → e.used = touchedSince key c.accesses

theorem inv_new (limit : Option (Fin (2 ^ 64))) : Inv (CatalogCache.new limit : CatalogCache K) where
  accounted l hl := by
    obtain ⟨l', -, rfl⟩ := Option.mem_map.1 hl
    exact ⟨rfl, Nat.zero_le _⟩
  observed _ := rfl
  flags _ _ h := by simp [CatalogCache.new] at h

/-- A step that writes the entry of one key keeps the invariant if it keeps every other entry,
their accesses and the observer's view of them, and the entry of the key, the observer's view
of it, its flag and the accounting are right. -/
theorem Inv.write {c c' : CatalogCache K} (hs : Inv c) (key : K)
    (hmap : ∀ k ≠ key, c'.map.lookup k = c.map.lookup k)
    (haccesses : ∀ k ≠ key, touchedSince k c'.accesses = touchedSince k c.accesses)
    (hreplay : ∀ k ≠ key, replay c'.observed k = replay c.observed k)
    (hobserved : replay c'.observed key = (c'.map.lookup key).map (·.value))
    (hflag : ∀ e, c'.map.lookup key = some e → e.used = touchedSince key c'.accesses)
    (haccounted : ∀ l ∈ c'.limit, l.current = usage c'.map ∧ l.current ≤ l.limit) : Inv c' where
  accounted := haccounted
  observed k := by
    by_cases hk : k = key
    · exact hk ▸ hobserved
    · rw [hreplay k hk, hmap k hk, hs.observed k]
  flags k e he := by
    by_cases hk : k = key
    · exact hk ▸ hflag e (hk ▸ he)
    · rw [hmap k hk] at he
      rw [haccesses k hk]
      exact hs.flags k e he

variable {c : CatalogCache K} {key : K} {e : CacheEntry}

theorem Inv.get (hs : Inv c) (key : K) : Inv (c.get key).2 := by
  unfold CatalogCache.get
  split
  · exact hs
  · rename_i e he
    refine hs.write key (fun k hk => AList.lookup_insert_ne hk)
      (fun k hk => touchedSince_cons_of_ne (Ne.symm hk) _) (fun _ _ => rfl) ?_ ?_ ?_
    · simp [AList.lookup_insert, hs.observed, he]
    · intro e' he'
      simp only [AList.lookup_insert, Option.some.injEq] at he'
      simp [← he']
    · intro l hl
      have hsum := usage_insert_of_lookup he { e with used := true }
      have := hs.accounted l hl
      dsimp only at hsum ⊢
      omega

/-- A stored value is accounted for if the limiter then counts it and the other values. -/
theorem Inv.store (hs : Inv c) {value : CacheValue Bytes} {old : Option (CacheValue Bytes)}
    {limit : Option MemoryLimiter}
    (hlimit : ∀ l ∈ limit, l.current = value.data.length + usage (c.map.erase key) ∧
      l.current ≤ l.limit) :
    Inv (c.store key value old limit) := by
  refine hs.write key (fun k hk => AList.lookup_insert_ne hk)
    (fun k hk => touchedSince_cons_of_ne (Ne.symm hk) _)
    (fun k hk => by simp [CatalogCache.store, replay_append_insert, Function.update_of_ne hk]) ?_ ?_ ?_
  · simp [CatalogCache.store, replay_append_insert, AList.lookup_insert]
  · intro e' he'
    simp only [CatalogCache.store, AList.lookup_insert, Option.some.injEq] at he'
    simp [CatalogCache.store, ← he']
  · intro l hl
    unfold usage at hlimit ⊢
    simp only [CatalogCache.store, AList.sumBy_insert]
    exact hlimit l hl

/-- A removed entry's bytes are freed, and no `free` wraps. -/
theorem Inv.remove (hs : Inv c) (he : c.map.lookup key = some e) : Inv (c.remove key e.value) := by
  refine hs.write key (fun k hk => AList.lookup_erase_ne hk) (fun _ _ => rfl)
    (fun k hk => by simp [CatalogCache.remove, replay_append_evict, Function.update_of_ne hk]) ?_ ?_ ?_
  · simp [CatalogCache.remove, replay_append_evict, AList.lookup_erase]
  · intro e' he'
    simp [CatalogCache.remove, AList.lookup_erase] at he'
  · intro l' hl'
    obtain ⟨l, hl, rfl⟩ := Option.mem_map.1 hl'
    obtain ⟨hcur, hle⟩ := hs.accounted l hl
    have hsum := usage_erase_of_lookup he
    have hfree := MemoryLimiter.free_current e.value.data.length (by omega) hle
    refine ⟨?_, ?_⟩
    · rw [hfree]
      simp only [CatalogCache.remove]
      omega
    · rw [hfree, MemoryLimiter.free_limit]
      exact le_trans (Nat.sub_le _ _) hle

theorem Inv.insert (hs : Inv c) (key : K) (value : CacheValue Bytes) :
    Inv (c.insert key value).2 := by
  unfold CatalogCache.insert
  split
  · rename_i e he
    split
    · exact hs
    · split
      · exact hs
      · rename_i limit hres
        refine hs.store fun l' hl' => ?_
        -- the limiter, after reserving the growth or freeing the shrinkage
        have hsum := usage_erase_of_lookup he
        cases hlim : c.limit with
        | none =>
          simp only [occupiedReserve, hlim, Except.ok.injEq] at hres
          subst hres
          cases hl'
        | some l =>
          obtain ⟨hcur, hle⟩ := hs.accounted l hlim
          simp only [occupiedReserve, hlim] at hres
          split at hres
          · cases hr : l.reserve (value.data.length - e.value.data.length) with
            | error err => simp [hr, Except.map] at hres
            | ok l₁ =>
              simp only [hr, Except.map, Except.ok.injEq] at hres
              subst hres
              simp only [Option.mem_def, Option.some.injEq] at hl'
              subst hl'
              obtain ⟨hsize, rfl⟩ := MemoryLimiter.reserve_eq_ok hr
              exact ⟨by dsimp only; omega, by dsimp only; omega⟩
          · simp only [Except.ok.injEq] at hres
            subst hres
            simp only [Option.mem_def, Option.some.injEq] at hl'
            subst hl'
            have hfree := MemoryLimiter.free_current
              (e.value.data.length - value.data.length) (by omega) hle
            rw [hfree, MemoryLimiter.free_limit]
            exact ⟨by omega, by omega⟩
  · rename_i he
    split
    · exact hs
    · rename_i limit hres
      refine hs.store fun l' hl' => ?_
      rw [AList.erase_of_lookup_none he]
      cases hlim : c.limit with
      | none =>
        simp only [vacantReserve, hlim, Except.ok.injEq] at hres
        subst hres
        cases hl'
      | some l =>
        obtain ⟨hcur, -⟩ := hs.accounted l hlim
        cases hr : l.reserve value.data.length with
        | error err => simp [vacantReserve, hlim, hr, Except.map] at hres
        | ok l₁ =>
          simp only [vacantReserve, hlim, hr, Except.map, Except.ok.injEq] at hres
          subst hres
          simp only [Option.mem_def, Option.some.injEq] at hl'
          subst hl'
          obtain ⟨hsize, rfl⟩ := MemoryLimiter.reserve_eq_ok hr
          exact ⟨by dsimp only; omega, by dsimp only; omega⟩

theorem Inv.delete (hs : Inv c) (key : K) : Inv (c.delete key).2 := by
  unfold CatalogCache.delete
  split
  · exact hs
  · rename_i e he
    exact hs.remove he

theorem Inv.visit (hs : Inv c) (key : K) : Inv (c.visit key) := by
  unfold CatalogCache.visit
  split
  · exact hs
  · rename_i e he
    split
    · -- kept, with the flag cleared
      refine hs.write key (fun k hk => AList.lookup_insert_ne hk)
        (fun k hk => touchedSince_cons_of_ne (Ne.symm hk) _) (fun _ _ => rfl) ?_ ?_ ?_
      · simp [AList.lookup_insert, hs.observed, he]
      · intro e' he'
        simp only [AList.lookup_insert, Option.some.injEq] at he'
        simp [← he']
      · intro l hl
        have hsum := usage_insert_of_lookup he { e with used := false }
        have := hs.accounted l hl
        dsimp only at hsum ⊢
        omega
    · -- removed: its flag was clear, as the visit leaves it
      rename_i hunused
      have hvisited : Inv { c with accesses := .visited key :: c.accesses } :=
        hs.write key (fun _ _ => rfl) (fun k hk => touchedSince_cons_of_ne (Ne.symm hk) _)
          (fun _ _ => rfl) (hs.observed key)
          (fun e' he' => by
            obtain rfl : e = e' := Option.some.inj (he.symm.trans he')
            simpa using hunused)
          hs.accounted
      exact hvisited.remove he

/-- Every step keeps the invariant. -/
theorem Inv.step (hs : Inv c) {a : LocalAction K} {c' : CatalogCache K}
    (h : c.step a = some c') : Inv c' := by
  cases a with
  | get key =>
    cases h
    exact hs.get key
  | insert key value =>
    cases h
    exact hs.insert key value
  | delete key =>
    cases h
    exact hs.delete key
  | visit key =>
    simp only [CatalogCache.step] at h
    split at h
    · cases h
      exact hs.visit key
    · cases h

/-- The invariant holds in every state a run from a new cache reaches. -/
theorem Inv.of_reachable {limit : Option (Fin (2 ^ 64))}
    (h : Transition.Reachable CatalogCache.step (CatalogCache.new limit) c) : Inv c :=
  h.invariant Inv (inv_new limit) fun _ _ _ hs hstep => hs.step hstep

/-! ### Not-recently-used eviction -/

/-- What a visit of `retain` leaves of an entry: nothing if its flag was clear, and the entry
with its flag cleared otherwise. -/
def afterVisit (e : CacheEntry) : Option CacheEntry :=
  if e.used then some { e with used := false } else none

theorem visit_lookup_self (c : CatalogCache K) (key : K) :
    (c.visit key).map.lookup key = (c.map.lookup key).bind afterVisit := by
  unfold CatalogCache.visit
  split
  · rename_i he
    rw [he]
    rfl
  · rename_i e he
    rw [he]
    split
    · simp [AList.lookup_insert, afterVisit, *]
    · simp [CatalogCache.remove, AList.lookup_erase, afterVisit, *]

theorem visit_lookup_ne (c : CatalogCache K) {key k : K} (hk : k ≠ key) :
    (c.visit key).map.lookup k = c.map.lookup k := by
  unfold CatalogCache.visit
  split
  · rfl
  · split
    · exact AList.lookup_insert_ne hk
    · exact AList.lookup_erase_ne hk

/-- A visit removes an entry exactly when no `get` returned it and no `insert` stored it since
`retain` last visited it. -/
theorem visit_removes_iff (hs : Inv c) (he : c.map.lookup key = some e) :
    (c.visit key).map.lookup key = none ↔ touchedSince key c.accesses = false := by
  rw [visit_lookup_self, he, ← hs.flags key e he]
  cases hu : e.used <;> simp [afterVisit, hu]

/-- The visits of `retain` over distinct keys: each key visited as by `visit`, the others
kept. Induction on the keys. -/
theorem foldl_visit_lookup (k : K) :
    ∀ (ks : List K) (c : CatalogCache K), ks.Nodup →
      (ks.foldl visit c).map.lookup k =
        if k ∈ ks then (c.map.lookup k).bind afterVisit else c.map.lookup k
  | [], c, _ => by simp
  | key :: ks, c, hnodup => by
    obtain ⟨hkey, hks⟩ := List.nodup_cons.1 hnodup
    rw [List.foldl_cons, foldl_visit_lookup k ks _ hks]
    by_cases hk : k = key
    · -- the key is visited now, and not again
      subst hk
      simp [hkey, visit_lookup_self]
    · simp [hk, visit_lookup_ne _ hk]

/-- `evict_unused` run alone keeps exactly the entries whose flag was set, with the flag
cleared. -/
theorem evictUnused_lookup (c : CatalogCache K) (k : K) :
    c.evictUnused.map.lookup k = (c.map.lookup k).bind afterVisit := by
  unfold evictUnused
  rw [foldl_visit_lookup k _ c c.map.keys_nodup]
  split
  · rfl
  · rename_i hk
    rw [AList.lookup_eq_none.2 (fun h => hk (AList.mem_keys.1 h))]
    rfl

/-- `evict_unused` run alone removes exactly the entries that no `get` returned and no `insert`
stored since `retain` last visited them. -/
theorem evictUnused_removes_iff (hs : Inv c) (he : c.map.lookup key = some e) :
    c.evictUnused.map.lookup key = none ↔ touchedSince key c.accesses = false := by
  rw [evictUnused_lookup, ← visit_lookup_self]
  exact visit_removes_iff hs he

/-! ### The quorum model's cache -/

/-- The values the cache holds, as the quorum model sees a node's cache. -/
def values (c : CatalogCache K) : Cache K Bytes := fun k => (c.map.lookup k).map (·.value)

/-- Without a limiter, `insert` answers and stores as the quorum model's `Cache.insert`. -/
theorem insert_values (hl : c.limit = none) (value : CacheValue Bytes) :
    (c.insert key value).1 = .ok (Cache.insert (values c) key value).1 ∧
      values (c.insert key value).2 = (Cache.insert (values c) key value).2 := by
  unfold CatalogCache.insert Cache.insert
  cases he : c.map.lookup key with
  | none =>
    simp only [values, he, Option.map_none, hl, vacantReserve]
    refine ⟨by simp, funext fun k => ?_⟩
    by_cases hk : k = key
    · subst hk
      simp [store, values, AList.lookup_insert]
    · simp [store, AList.lookup_insert_ne hk, Function.update_of_ne hk, values]
  | some e =>
    simp only [values, he, Option.map_some]
    split
    · exact ⟨rfl, rfl⟩
    · simp only [hl, occupiedReserve]
      refine ⟨by simp, funext fun k => ?_⟩
      by_cases hk : k = key
      · subst hk
        simp [store, values, AList.lookup_insert]
      · simp [store, AList.lookup_insert_ne hk, Function.update_of_ne hk, values]

/-! ### Histories -/

/-- In every state that a history of `get`, `insert`, `delete` and `evict_unused` reaches from a
new cache: the limiter counts exactly the bytes of the stored values, within its limit;
`insert` returns `Ok(true)` exactly when the key holds no value or an older one and the
reservation succeeds, and then holds the value, and otherwise changes nothing; every step
changes the value of one key only, by keeping it, storing a greater generation or removing
it, and the observer receives one `insert` for a stored value and one `evict` for a removed
entry; and a visit of `evict_unused` removes an entry exactly when no `get` returned it and no
`insert` stored it since `retain` last visited it. -/
theorem catalogCache_reachable_spec {limit : Option (Fin (2 ^ 64))}
    (h : Transition.Reachable CatalogCache.step (CatalogCache.new limit) c) :
    (∀ l ∈ c.limit, l.current = usage c.map ∧ l.current ≤ l.limit) ∧
      (∀ key value, ((c.insert key value).1 = .ok true ↔ InsertStores c key value) ∧
        ((c.insert key value).1 = .ok true → values (c.insert key value).2 key = some value) ∧
        ((c.insert key value).1 ≠ .ok true → (c.insert key value).2 = c)) ∧
      (∀ a c', c.step a = some c' → ∃ key calls, (∀ k ≠ key, c'.map.lookup k = c.map.lookup k) ∧
        c'.observed = c.observed ++ calls ∧
        Change key ((c.map.lookup key).map (·.value)) ((c'.map.lookup key).map (·.value)) calls) ∧
      (∀ key e, c.map.lookup key = some e →
        ((c.visit key).map.lookup key = none ↔ touchedSince key c.accesses = false)) := by
  have hs := Inv.of_reachable h
  refine ⟨hs.accounted, fun key value => ⟨insert_eq_ok_true_iff, fun hstored => ?_,
    insert_of_not_stored⟩, fun _ _ hstep => step_change hstep,
    fun _ _ he => visit_removes_iff hs he⟩
  obtain ⟨l, heq⟩ := insert_stored hstored
  rw [heq]
  simp [values, store, AList.lookup_insert]

end CatalogCache

open CatalogCache in
/-- Three bytes stored under a limit of ten, and visited once: the limiter counts the three
bytes, and a second visit removes the entry, which nothing read since the first. -/
theorem catalogCache_three_bytes :
    let c := (((CatalogCache.new (some 10) : CatalogCache ℕ).insert 1 ⟨[1, 2, 3], 1⟩).2).visit 1
    (∀ l ∈ c.limit, l.current = 3) ∧ (c.visit 1).map.lookup 1 = none := by
  intro c
  have hreach : Transition.Reachable CatalogCache.step (CatalogCache.new (some 10)) c :=
    (Transition.Reachable.init.step (.insert 1 ⟨[1, 2, 3], 1⟩) rfl).step (.visit 1)
      (if_pos (by simp [CatalogCache.insert, CatalogCache.new, store, vacantReserve,
        MemoryLimiter.reserve, Except.map, AList.mem_keys]))
  obtain ⟨hacc, -, -, hvisit⟩ := catalogCache_reachable_spec hreach
  refine ⟨fun l hl => (hacc l hl).1.trans rfl, ?_⟩
  exact (hvisit 1 ⟨⟨[1, 2, 3], 1⟩, false⟩ rfl).2 rfl

end IoxCore.CatalogCache

import IoxCore.Lib.Transition
import Mathlib.Data.List.AList

/-!
# `remove_if_and_get` over the cache driver

`cache_system::backend::policy::remove_if` and `cache_system::cache::driver`.
`RemoveIfHandle::remove_if` removes a key's value from the `PolicyBackend` when a predicate
holds of it, by a change request under the backend's lock. `remove_if_and_get_with_status`
runs it, then the `CacheDriver`'s `get_with_status`, and decides from the status and whether its
removal fired whether the value may predate the removal: a `Hit` ("no other process loaded it")
and a `Miss` are used; a `MissAlreadyLoading` after a removal is checked again, and the call
loops if that check removes again. The driver keeps the backend and the running queries by tag
under its state lock; a query whose loader returns stores the value while it is its key's
running query (`submit`), then hands it to everyone awaiting it.

## The model

Each part of the code that runs under a lock is one step: `remove_if`'s change request, the part
of `get_with_status` under the state lock, and a query's `submit` with its broadcast. A call is
a program counter (`Pc`). The predicate is one function of the value, so a value it accepts is
never later rejected (the doc's "forward process"). The loaders' values are the environment's;
the doc's assumption on them is `World.forward`: a loader that starts after a `remove_if` removed
a value of its key returns one the predicate rejects. `removedKeys` and `Query.afterRemoval` are
what that assumption reads; the code does not keep them. No `set` side-loads a value.

## What is proved

* `returns_outdated_value`: a plain `get` starts a query, the call's `remove_if` finds nothing,
  the query stores an outdated value, and the call's `get` hits it, although another process did
  load the key between the two steps.
* `inv_of_reachable`: under the assumption, a cached value and a running query never share a key,
  and after a removal every value the key gets is one the predicate accepts. So a call whose
  removal fired returns such a value (`done_fresh_of_removed`), never loops (`advance_ne_get`),
  and returns once the query it awaits has loaded (`advance_of_result`).
-/

namespace IoxCore.CacheSystem.RemoveIf

variable {K V : Type} [DecidableEq K]

/-- `CacheGetStatus`. -/
inductive CacheGetStatus
  | hit
  | miss
  | missAlreadyLoading
  deriving DecidableEq, Repr

/-- A query the driver started: its key and tag, whether a `remove_if` had removed a value of
its key before it started, and the value its loader returned, once it has. -/
structure Query (K V : Type) where
  key : K
  tag : ℕ
  afterRemoval : Bool
  result : Option V

/-- Where a `remove_if_and_get_with_status` call is. -/
inductive Pc (V : Type)
  /-- Before its first `remove_if`. -/
  | start
  /-- At the top of the loop, with what the last `remove_if` returned. -/
  | get (removed : Bool)
  /-- Awaiting the value of the query of tag `tag`, which `get_with_status` returns with
  `status`. -/
  | wait (removed : Bool) (tag : ℕ) (status : CacheGetStatus)
  /-- Returned `(v, status)`. -/
  | done (v : V) (status : CacheGetStatus)
  deriving DecidableEq

/-- A `remove_if_and_get_with_status` call on key `key`. -/
structure Call (K V : Type) where
  key : K
  pc : Pc V
  deriving DecidableEq

/-- The driver's `CacheState`, the queries started so far, the keys a `remove_if` has removed
a value of, and the calls. -/
structure World (K V : Type) [DecidableEq K] where
  cachedEntries : AList (fun _ : K => V)
  runningQueries : AList (fun _ : K => ℕ)
  tagCounter : ℕ
  queries : List (Query K V)
  removedKeys : List K
  calls : List (Call K V)

/-- A new driver: `CacheDriver::new` on an empty backend. -/
def World.new : World K V := ⟨∅, ∅, 0, [], [], []⟩

/-- What can happen. -/
inductive Event (K V : Type)
  /-- A plain `get(k)`: its part under the state lock. -/
  | get (k : K)
  /-- A `remove_if_and_get_with_status(k)` call begins. -/
  | call (k : K)
  /-- Call number `i` takes its next step. -/
  | advance (i : ℕ)
  /-- The loader of the query of tag `tag` returns `v`. -/
  | load (tag : ℕ) (v : V)

namespace World

variable (P : V → Bool)

/-- `RemoveIfHandle::remove_if`: its change request removes the key's value if the predicate
holds of it, and reports whether it did. -/
def removeIf (w : World K V) (k : K) : Bool × World K V :=
  match w.cachedEntries.lookup k with
  | some v =>
    if P v then
      (true, { w with cachedEntries := w.cachedEntries.erase k, removedKeys := k :: w.removedKeys })
    else (false, w)
  | none => (false, w)

/-- The part of `CacheDriver::get_with_status` under the state lock: a cached value is a hit,
a running query is joined, and otherwise a new query starts, with the next tag. -/
def getWithStatus (w : World K V) (k : K) : (V ⊕ (ℕ × CacheGetStatus)) × World K V :=
  match w.cachedEntries.lookup k with
  | some v => (.inl v, w)
  | none =>
    match w.runningQueries.lookup k with
    | some tag => (.inr (tag, .missAlreadyLoading), w)
    | none =>
      let tag := w.tagCounter
      let query : Query K V := ⟨k, tag, decide (k ∈ w.removedKeys), none⟩
      (.inr (tag, .miss),
        { w with
          tagCounter := tag + 1
          runningQueries := w.runningQueries.insert k tag
          queries := query :: w.queries })

/-- The query of tag `tag`. -/
def query? (w : World K V) (tag : ℕ) : Option (Query K V) := w.queries.find? (·.tag = tag)

/-- The loader of the query of tag `tag` returns `v`: `ResultSubmitter::submit` stores it
while the query is its key's running query, and the query hands it on. -/
def submit (w : World K V) (tag : ℕ) (v : V) : World K V :=
  match w.query? tag with
  | some q =>
    if q.result.isNone ∧ w.runningQueries.lookup q.key = some tag then
      { w with
        runningQueries := w.runningQueries.erase q.key
        cachedEntries := w.cachedEntries.insert q.key v
        queries := w.queries.map fun q' => if q'.tag = tag then { q' with result := some v } else q' }
    else w
  | none => w

/-- Call `i` moves to `pc`. -/
def setPc (w : World K V) (i : ℕ) (c : Call K V) (pc : Pc V) : World K V :=
  { w with calls := w.calls.set i { c with pc := pc } }

/-- The next step of call `i`, as `remove_if_and_get_with_status` takes it. -/
def advance (w : World K V) (i : ℕ) : World K V :=
  match w.calls[i]? with
  | none => w
  | some c =>
    match c.pc with
    | .start =>
      let (removed, w) := w.removeIf P c.key
      w.setPc i c (.get removed)
    | .get removed =>
      let (r, w) := w.getWithStatus c.key
      match r with
      | .inl v => w.setPc i c (.done v .hit)
      | .inr (tag, status) => w.setPc i c (.wait removed tag status)
    | .wait removed tag status =>
      match (w.query? tag).bind (·.result) with
      -- the query has not handed its value on yet
      | none => w
      | some v =>
        match status with
        | .hit => w.setPc i c (.done v status)
        | .miss => w.setPc i c (.done v status)
        | .missAlreadyLoading =>
          if removed then
            -- the load may have overlapped with the removal: check again
            let (removed, w) := w.removeIf P c.key
            if removed then w.setPc i c (.get true) else w.setPc i c (.done v status)
          else w.setPc i c (.done v status)
    | .done _ _ => w

/-- One event. -/
def step (w : World K V) : Event K V → World K V
  | .get k => (w.getWithStatus k).2
  | .call k => { w with calls := w.calls ++ [⟨k, .start⟩] }
  | .advance i => w.advance P i
  | .load tag v => w.submit tag v

/-- What the doc assumes of the loaders: one that started after a `remove_if` removed a value
of its key returns a value the predicate rejects. -/
def forward (w : World K V) : Event K V → Bool
  | .load tag v => w.queries.all fun q => !(q.tag == tag && q.afterRemoval) || !P v
  | _ => true

/-- A step the assumption allows. -/
def stepForward (w : World K V) (e : Event K V) : Option (World K V) :=
  if w.forward P e then some (w.step P e) else none

end World

/-- Events one after the other, under the assumption. -/
def run (P : V → Bool) (w : World K V) (es : List (Event K V)) : Option (World K V) :=
  es.foldlM (World.stepForward P) w

/-- The call can return a value its predicate marks outdated (here `0`). A plain `get` starts
query `0`; the call's `remove_if` finds nothing to remove; the query's loader, started before
any removal, returns `0`; the call's `get` hits it. -/
theorem returns_outdated_value :
    ∃ w, run (fun v : ℕ => v == 0) (World.new : World ℕ ℕ)
        [.get 0, .call 0, .advance 0, .load 0 0, .advance 0] = some w ∧
      w.calls = [⟨0, .done 0 .hit⟩] := by
  decide +kernel

/-! ## The invariant -/

/-- Whether the last `remove_if` of a call at the top of its loop, or awaiting a query, fired. -/
def Pc.removed : Pc V → Bool
  | .get removed => removed
  | .wait removed _ _ => removed
  | _ => false

/-- A key is never both cached and loading; the query running for a key is one of its queries
that has not returned, and started after any removal of the key; tags are fresh; once a value
of a key has been removed, the key's value and the values of the queries started since are
ones the predicate accepts; and a call whose removal fired is on such a key, awaiting such a
query. -/
structure Inv (P : V → Bool) (w : World K V) : Prop where
  exclusive : ∀ k v, w.cachedEntries.lookup k = some v → w.runningQueries.lookup k = none
  running : ∀ k tag, w.runningQueries.lookup k = some tag → ∃ q ∈ w.queries, q.tag = tag ∧
    q.key = k ∧ q.result = none ∧ (k ∈ w.removedKeys → q.afterRemoval = true)
  tag_lt : ∀ q ∈ w.queries, q.tag < w.tagCounter
  nodup : (w.queries.map (·.tag)).Nodup
  cached_fresh : ∀ k v, k ∈ w.removedKeys → w.cachedEntries.lookup k = some v → P v = false
  result_fresh : ∀ q ∈ w.queries, q.afterRemoval = true → ∀ v, q.result = some v → P v = false
  call_removed : ∀ c ∈ w.calls, c.pc.removed = true → c.key ∈ w.removedKeys
  call_wait : ∀ c ∈ w.calls, ∀ tag st, c.pc = .wait true tag st →
    ∃ q ∈ w.queries, q.tag = tag ∧ q.afterRemoval = true

section Invariant

variable {P : V → Bool} {w : World K V} {tag : ℕ} {q : Query K V}

theorem inv_new : Inv P (World.new : World K V) where
  exclusive := by simp [World.new]
  running := by simp [World.new]
  tag_lt := by simp [World.new]
  nodup := List.nodup_nil
  cached_fresh := by simp [World.new]
  result_fresh := by simp [World.new]
  call_removed := by simp [World.new]
  call_wait := by simp [World.new]

theorem mem_of_query? (h : w.query? tag = some q) : q ∈ w.queries ∧ q.tag = tag :=
  ⟨List.mem_of_find?_eq_some h, by simpa using List.find?_some h⟩

/-- With fresh tags, the query of a tag is the one that has it. -/
theorem Inv.query?_eq (hi : Inv P w) (hq : q ∈ w.queries) : w.query? q.tag = some q := by
  obtain ⟨q', hq'⟩ := Option.isSome_iff_exists.mp
    (List.find?_isSome.mpr ⟨q, hq, by simp⟩ : (w.query? q.tag).isSome)
  obtain ⟨hmem, htag⟩ := mem_of_query? hq'
  rw [World.query?, hq', List.inj_on_of_nodup_map hi.nodup hmem hq htag]

/-! ### What each part does -/

/-- `remove_if` fires on a cached value the predicate holds of, and does nothing otherwise. -/
theorem removeIf_cases (w : World K V) (k : K) :
    w.removeIf P k = (false, w) ∨ ∃ v, w.cachedEntries.lookup k = some v ∧ P v = true ∧
      w.removeIf P k =
        (true, { w with cachedEntries := w.cachedEntries.erase k, removedKeys := k :: w.removedKeys }) := by
  unfold World.removeIf
  split
  · rename_i v hk
    by_cases hv : P v = true
    · exact Or.inr ⟨v, hk, hv, by rw [if_pos hv]⟩
    · exact Or.inl (by rw [if_neg hv])
  · exact Or.inl rfl

/-- A `get_with_status` hits a cached value, joins the key's running query, or starts one. -/
theorem getWithStatus_cases (w : World K V) (k : K) :
    (∃ v, w.cachedEntries.lookup k = some v ∧ w.getWithStatus k = (.inl v, w)) ∨
    (∃ tag, w.cachedEntries.lookup k = none ∧ w.runningQueries.lookup k = some tag ∧
      w.getWithStatus k = (.inr (tag, .missAlreadyLoading), w)) ∨
    (w.cachedEntries.lookup k = none ∧ w.runningQueries.lookup k = none ∧
      w.getWithStatus k = (.inr (w.tagCounter, .miss),
        { w with
          tagCounter := w.tagCounter + 1
          runningQueries := w.runningQueries.insert k w.tagCounter
          queries := ⟨k, w.tagCounter, decide (k ∈ w.removedKeys), none⟩ :: w.queries })) := by
  unfold World.getWithStatus
  split
  · rename_i v hk
    exact Or.inl ⟨v, hk, rfl⟩
  · rename_i hk
    split
    · rename_i tag hr
      exact Or.inr (Or.inl ⟨tag, hk, hr, rfl⟩)
    · rename_i hr
      exact Or.inr (Or.inr ⟨hk, hr, rfl⟩)

/-- A loader's value is stored when its query is still its key's running query. -/
theorem submit_cases (w : World K V) (tag : ℕ) (v : V) :
    w.submit tag v = w ∨ ∃ q, w.query? tag = some q ∧ q.result = none ∧
      w.runningQueries.lookup q.key = some tag ∧
      w.submit tag v =
        { w with
          runningQueries := w.runningQueries.erase q.key
          cachedEntries := w.cachedEntries.insert q.key v
          queries := w.queries.map fun q' => if q'.tag = tag then { q' with result := some v } else q' } := by
  unfold World.submit
  split
  · rename_i q hq
    split
    · rename_i h
      exact Or.inr ⟨q, hq, Option.isNone_iff_eq_none.mp h.1, h.2, rfl⟩
    · exact Or.inl rfl
  · exact Or.inl rfl

/-! ### Each part keeps the invariant -/

/-- `remove_if` firing: the key loses its value and has had a removal. -/
theorem Inv.erase (hi : Inv P w) {k : K} {v : V} (hk : w.cachedEntries.lookup k = some v) :
    Inv P { w with cachedEntries := w.cachedEntries.erase k, removedKeys := k :: w.removedKeys } where
  exclusive k' v' h' := by
    by_cases hk' : k' = k
    · rw [hk', AList.lookup_erase] at h'
      exact absurd h' (by simp)
    · rw [AList.lookup_erase_ne hk'] at h'
      exact hi.exclusive k' v' h'
  running k' tag h' := by
    obtain ⟨q, hq, htag, hkey, hres, hafter⟩ := hi.running k' tag h'
    refine ⟨q, hq, htag, hkey, hres, fun hmem => ?_⟩
    rcases List.mem_cons.mp hmem with rfl | hmem
    · -- the key had a value, so no query of it ran
      rw [hi.exclusive _ v hk] at h'
      exact absurd h' (by simp)
    · exact hafter hmem
  tag_lt := hi.tag_lt
  nodup := hi.nodup
  cached_fresh k' v' hmem h' := by
    by_cases hk' : k' = k
    · rw [hk', AList.lookup_erase] at h'
      exact absurd h' (by simp)
    · rw [AList.lookup_erase_ne hk'] at h'
      exact hi.cached_fresh k' v' ((List.mem_cons.mp hmem).resolve_left hk') h'
  result_fresh := hi.result_fresh
  call_removed c hc hr := List.mem_cons_of_mem _ (hi.call_removed c hc hr)
  call_wait := hi.call_wait

theorem Inv.removeIf (hi : Inv P w) (k : K) : Inv P (w.removeIf P k).2 := by
  rcases removeIf_cases (P := P) w k with h | ⟨v, hk, -, h⟩
  · rw [h]
    exact hi
  · rw [h]
    exact hi.erase hk

/-- A new query, for a key without value. -/
theorem Inv.startQuery (hi : Inv P w) {k : K} (hk : w.cachedEntries.lookup k = none) : Inv P
      { w with
        tagCounter := w.tagCounter + 1
        runningQueries := w.runningQueries.insert k w.tagCounter
        queries := ⟨k, w.tagCounter, decide (k ∈ w.removedKeys), none⟩ :: w.queries } where
  exclusive k' v h' := by
    by_cases hk' : k' = k
    · rw [hk', hk] at h'
      exact absurd h' (by simp)
    · rw [AList.lookup_insert_ne hk']
      exact hi.exclusive k' v h'
  running k' tag h' := by
    by_cases hk' : k' = k
    · rw [hk', AList.lookup_insert] at h'
      obtain rfl := Option.some.inj h'
      exact ⟨_, List.mem_cons_self, rfl, hk'.symm, rfl, fun hmem => by simpa [hk'] using hmem⟩
    · rw [AList.lookup_insert_ne hk'] at h'
      obtain ⟨q, hq, htag, hkey, hres, hafter⟩ := hi.running k' tag h'
      exact ⟨q, List.mem_cons_of_mem _ hq, htag, hkey, hres, hafter⟩
  tag_lt q hq := by
    rcases List.mem_cons.mp hq with rfl | hq
    · exact Nat.lt_succ_self _
    · exact Nat.lt_succ_of_lt (hi.tag_lt q hq)
  nodup := by
    rw [List.map_cons, List.nodup_cons]
    refine ⟨fun hmem => ?_, hi.nodup⟩
    -- the new tag is past every tag handed out
    obtain ⟨q, hq, htag⟩ := List.mem_map.mp hmem
    exact Nat.lt_irrefl _ (htag ▸ hi.tag_lt q hq)
  cached_fresh := hi.cached_fresh
  result_fresh q hq hafter v hres := by
    rcases List.mem_cons.mp hq with rfl | hq
    · exact absurd hres (by simp)
    · exact hi.result_fresh q hq hafter v hres
  call_removed := hi.call_removed
  call_wait c hc tag st hpc := by
    obtain ⟨q, hq, htag, hafter⟩ := hi.call_wait c hc tag st hpc
    exact ⟨q, List.mem_cons_of_mem _ hq, htag, hafter⟩

theorem Inv.getWithStatus (hi : Inv P w) (k : K) : Inv P (w.getWithStatus k).2 := by
  rcases getWithStatus_cases w k with ⟨v, -, h⟩ | ⟨tag, -, -, h⟩ | ⟨hk, -, h⟩
  · rw [h]
    exact hi
  · rw [h]
    exact hi
  · rw [h]
    exact hi.startQuery hk

/-- A loader's value stored: its query, the key's running query, returns it. -/
theorem Inv.store (hi : Inv P w) (hq : q ∈ w.queries) (htag : q.tag = tag)
    (hr : w.runningQueries.lookup q.key = some tag) {v : V}
    (hf : ∀ q' ∈ w.queries, q'.tag = tag → q'.afterRemoval = true → P v = false) :
    Inv P
      { w with
        runningQueries := w.runningQueries.erase q.key
        cachedEntries := w.cachedEntries.insert q.key v
        queries := w.queries.map fun q' => if q'.tag = tag then { q' with result := some v } else q' } where
  exclusive k v' h' := by
    by_cases hk : k = q.key
    · rw [hk, AList.lookup_erase]
    · rw [AList.lookup_insert_ne hk] at h'
      rw [AList.lookup_erase_ne hk]
      exact hi.exclusive k v' h'
  running k tag' h' := by
    by_cases hk : k = q.key
    · rw [hk, AList.lookup_erase] at h'
      exact absurd h' (by simp)
    · rw [AList.lookup_erase_ne hk] at h'
      obtain ⟨q₁, hq₁, htag₁, hkey₁, hres₁, hafter₁⟩ := hi.running k tag' h'
      -- another key's running query has another tag
      have hne : q₁.tag ≠ tag := fun h =>
        hk (hkey₁ ▸ (List.inj_on_of_nodup_map hi.nodup hq₁ hq (h.trans htag.symm)) ▸ rfl)
      exact ⟨q₁, List.mem_map.mpr ⟨q₁, hq₁, if_neg hne⟩, htag₁, hkey₁, hres₁, hafter₁⟩
  tag_lt q' hq' := by
    obtain ⟨q₀, hq₀, rfl⟩ := List.mem_map.mp hq'
    split <;> exact hi.tag_lt q₀ hq₀
  nodup := by
    have htags : (w.queries.map fun q' =>
        if q'.tag = tag then { q' with result := some v } else q').map (·.tag) =
        w.queries.map (·.tag) := by
      rw [List.map_map]
      refine List.map_congr_left fun q' _ => ?_
      simp only [Function.comp_apply]
      split <;> rfl
    rw [htags]
    exact hi.nodup
  cached_fresh k v' hmem h' := by
    by_cases hk : k = q.key
    · -- the stored value comes from the key's running query, which started after the removal
      rw [hk, AList.lookup_insert] at h'
      obtain rfl := Option.some.inj h'
      obtain ⟨q₁, hq₁, htag₁, -, -, hafter₁⟩ := hi.running q.key tag hr
      exact hf q₁ hq₁ htag₁ (hafter₁ (hk ▸ hmem))
    · rw [AList.lookup_insert_ne hk] at h'
      exact hi.cached_fresh k v' hmem h'
  result_fresh q' hq' hafter v' hres := by
    obtain ⟨q₀, hq₀, rfl⟩ := List.mem_map.mp hq'
    by_cases h : q₀.tag = tag
    · rw [if_pos h] at hafter hres
      obtain rfl := Option.some.inj hres
      exact hf q₀ hq₀ h hafter
    · rw [if_neg h] at hafter hres
      exact hi.result_fresh q₀ hq₀ hafter v' hres
  call_removed := hi.call_removed
  call_wait c hc tag' st hpc := by
    obtain ⟨q₁, hq₁, htag₁, hafter₁⟩ := hi.call_wait c hc tag' st hpc
    refine ⟨_, List.mem_map_of_mem hq₁, ?_, ?_⟩
    · split <;> exact htag₁
    · split <;> exact hafter₁

theorem Inv.submit (hi : Inv P w) {v : V} (hf : w.forward P (.load tag v) = true) :
    Inv P (w.submit tag v) := by
  rcases submit_cases w tag v with h | ⟨q, hq, -, hr, h⟩
  · rw [h]
    exact hi
  · rw [h]
    obtain ⟨hmem, htag⟩ := mem_of_query? hq
    refine hi.store hmem htag hr fun q' hq' htag' hafter => ?_
    have hall := List.all_eq_true.mp hf q' hq'
    simpa [htag', hafter] using hall

/-- A call moving on, to a place the invariant allows it. -/
theorem Inv.setPc (hi : Inv P w) (i : ℕ) (c : Call K V) {pc : Pc V}
    (hremoved : pc.removed = true → c.key ∈ w.removedKeys)
    (hwait : ∀ tag st, pc = .wait true tag st → ∃ q ∈ w.queries, q.tag = tag ∧ q.afterRemoval = true) :
    Inv P (w.setPc i c pc) where
  exclusive := hi.exclusive
  running := hi.running
  tag_lt := hi.tag_lt
  nodup := hi.nodup
  cached_fresh := hi.cached_fresh
  result_fresh := hi.result_fresh
  call_removed c' hc' hr := by
    rcases List.mem_or_eq_of_mem_set hc' with hc' | rfl
    · exact hi.call_removed c' hc' hr
    · exact hremoved hr
  call_wait c' hc' tag st hpc := by
    rcases List.mem_or_eq_of_mem_set hc' with hc' | rfl
    · exact hi.call_wait c' hc' tag st hpc
    · exact hwait tag st hpc

theorem Inv.setPc_done (hi : Inv P w) (i : ℕ) (c : Call K V) (v : V) (st : CacheGetStatus) :
    Inv P (w.setPc i c (.done v st)) :=
  hi.setPc i c (by simp [Pc.removed]) (by simp)

theorem Inv.advance (hi : Inv P w) (i : ℕ) : Inv P (w.advance P i) := by
  unfold World.advance
  split
  · exact hi
  · rename_i c hc
    have hmem : c ∈ w.calls := List.mem_of_getElem? hc
    split
    · -- the first `remove_if`
      rcases removeIf_cases (P := P) w c.key with h | ⟨v, hk, -, h⟩
      · rw [h]
        exact hi.setPc i c (by simp [Pc.removed]) (by simp)
      · rw [h]
        exact (hi.erase hk).setPc i c (fun _ => List.mem_cons_self) (by simp)
    · -- `get_with_status`
      rename_i removed hpc
      have hremoved : removed = true → c.key ∈ w.removedKeys := fun h =>
        hi.call_removed c hmem (by rw [hpc]; exact h)
      rcases getWithStatus_cases w c.key with ⟨v, -, h⟩ | ⟨tag, -, hr, h⟩ | ⟨hk, -, h⟩
      · rw [h]
        exact hi.setPc_done i c v .hit
      · -- it joins the key's running query, which started after any removal of the key
        rw [h]
        refine hi.setPc i c hremoved fun tag' st hpc' => ?_
        obtain ⟨rfl, rfl, -⟩ := Pc.wait.inj hpc'
        obtain ⟨q, hq, htag, -, -, hafter⟩ := hi.running c.key tag hr
        exact ⟨q, hq, htag, hafter (hremoved rfl)⟩
      · -- it starts a query, after its removal if that fired
        rw [h]
        refine (hi.startQuery hk).setPc i c hremoved fun tag' st hpc' => ?_
        obtain ⟨rfl, rfl, -⟩ := Pc.wait.inj hpc'
        exact ⟨_, List.mem_cons_self, rfl, by simpa using hremoved rfl⟩
    · -- the query's value, and what the call does with it
      rename_i removed tag status hpc
      split
      · exact hi
      · rename_i v hv
        split
        · exact hi.setPc_done i c v _
        · exact hi.setPc_done i c v _
        · split
          · rcases removeIf_cases (P := P) w c.key with h | ⟨v', hk, -, h⟩
            · rw [h]
              exact hi.setPc_done i c v _
            · rw [h]
              exact (hi.erase hk).setPc i c (fun _ => List.mem_cons_self) (by simp)
          · exact hi.setPc_done i c v _
    · exact hi

/-- A new call, before its first `remove_if`. -/
theorem Inv.call (hi : Inv P w) (k : K) : Inv P { w with calls := w.calls ++ [⟨k, .start⟩] } where
  exclusive := hi.exclusive
  running := hi.running
  tag_lt := hi.tag_lt
  nodup := hi.nodup
  cached_fresh := hi.cached_fresh
  result_fresh := hi.result_fresh
  call_removed c hc hr := by
    rcases List.mem_append.mp hc with hc | hc
    · exact hi.call_removed c hc hr
    · rw [List.mem_singleton.mp hc] at hr
      exact absurd hr (by simp [Pc.removed])
  call_wait c hc tag st hpc := by
    rcases List.mem_append.mp hc with hc | hc
    · exact hi.call_wait c hc tag st hpc
    · rw [List.mem_singleton.mp hc] at hpc
      exact absurd hpc (by simp)

/-- Every event the assumption allows keeps the invariant. -/
theorem Inv.step (hi : Inv P w) (e : Event K V) (hf : w.forward P e = true) :
    Inv P (w.step P e) := by
  cases e with
  | get k => exact hi.getWithStatus k
  | call k => exact hi.call k
  | advance i => exact hi.advance i
  | load tag v => exact hi.submit hf

/-- The invariant holds in every world reached under the assumption. -/
theorem inv_of_reachable (hw : Transition.Reachable (World.stepForward P) World.new w) : Inv P w :=
  hw.invariant (Inv P) inv_new fun w e w' hi h => by
    unfold World.stepForward at h
    split at h
    · rename_i hf
      obtain rfl := Option.some.inj h
      exact hi.step e hf
    · exact absurd h (by simp)

end Invariant

/-! ## What the invariant gives a call -/

section Calls

variable {P : V → Bool} {w : World K V} {i : ℕ} {c : Call K V} {removed : Bool} {tag : ℕ}
    {st : CacheGetStatus}

/-- Once a value of a key has been removed, `remove_if` finds nothing outdated there. -/
theorem removeIf_of_mem_removedKeys (hi : Inv P w) {k : K} (hk : k ∈ w.removedKeys) :
    w.removeIf P k = (false, w) := by
  rcases removeIf_cases (P := P) w k with h | ⟨v, hv, hP, -⟩
  · exact h
  · rw [hi.cached_fresh k v hk hv] at hP
    exact absurd hP (by simp)

theorem getElem?_setPc (hc : w.calls[i]? = some c) (w' : World K V) (hcalls : w'.calls = w.calls)
    (pc : Pc V) : (w'.setPc i c pc).calls[i]? = some { c with pc := pc } := by
  rw [World.setPc, hcalls]
  exact List.getElem?_set_self (List.getElem?_eq_some_iff.mp hc).1

/-- A call awaiting a query whose loader has returned takes the value and returns: the check
it makes again, if its removal fired, finds nothing to remove, so it never loops. -/
theorem advance_of_result (hi : Inv P w) (hc : w.calls[i]? = some c)
    (hpc : c.pc = .wait removed tag st) {v : V}
    (hv : (w.query? tag).bind (·.result) = some v) : w.advance P i = w.setPc i c (.done v st) := by
  unfold World.advance
  rw [hc]
  dsimp only
  rw [hpc]
  dsimp only
  rw [hv]
  dsimp only
  cases st with
  | hit => rfl
  | miss => rfl
  | missAlreadyLoading =>
    cases removed with
    | false => rfl
    | true =>
      have hk : c.key ∈ w.removedKeys := hi.call_removed c (List.mem_of_getElem? hc) (by rw [hpc]; rfl)
      simp only [if_true, removeIf_of_mem_removedKeys hi hk]
      rfl

/-- A call awaiting a query whose loader has not returned goes on waiting. -/
theorem advance_of_no_result (hc : w.calls[i]? = some c) (hpc : c.pc = .wait removed tag st)
    (hv : (w.query? tag).bind (·.result) = none) : w.advance P i = w := by
  unfold World.advance
  rw [hc]
  dsimp only
  rw [hpc]
  dsimp only
  rw [hv]

theorem advance_of_done (hc : w.calls[i]? = some c) {v : V}
    (hpc : c.pc = .done v st) : w.advance P i = w := by
  unfold World.advance
  rw [hc]
  dsimp only
  rw [hpc]

theorem calls_getWithStatus (w : World K V) (k : K) : (w.getWithStatus k).2.calls = w.calls := by
  rcases getWithStatus_cases w k with ⟨v, -, h⟩ | ⟨tag, -, -, h⟩ | ⟨-, -, h⟩ <;> rw [h]

/-- At the top of its loop, a call hits a value and returns, or awaits a query. -/
theorem pc_advance_get (hc : w.calls[i]? = some c) (hpc : c.pc = .get removed) :
    ((w.advance P i).calls[i]?).map (·.pc) = some (match (w.getWithStatus c.key).1 with
      | .inl v => .done v .hit
      | .inr (tag, st) => .wait removed tag st) := by
  unfold World.advance
  rw [hc]
  dsimp only
  rw [hpc]
  dsimp only
  rcases h : w.getWithStatus c.key with ⟨r, w₁⟩
  have hcalls : w₁.calls = w.calls := by rw [← calls_getWithStatus w c.key, h]
  rcases r with v | ⟨tag, st⟩
  · dsimp only
    rw [getElem?_setPc hc w₁ hcalls]
    rfl
  · dsimp only
    rw [getElem?_setPc hc w₁ hcalls]
    rfl

/-- A call whose removal fired returns a value the predicate accepts. -/
theorem done_fresh_of_removed (hi : Inv P w) (hc : w.calls[i]? = some c) (hr : c.pc.removed = true)
    {v : V} {st : CacheGetStatus}
    (hd : ((w.advance P i).calls[i]?).map (·.pc) = some (.done v st)) : P v = false := by
  have hmem := List.mem_of_getElem? hc
  have hk : c.key ∈ w.removedKeys := hi.call_removed c hmem hr
  cases hpc : c.pc with
  | start =>
    rw [hpc] at hr
    exact absurd hr (by simp [Pc.removed])
  | get removed =>
    -- a hit on the key's value, which the predicate accepts since the removal
    rw [pc_advance_get hc hpc] at hd
    rcases getWithStatus_cases w c.key with ⟨v', hv', h⟩ | ⟨tag, -, -, h⟩ | ⟨-, -, h⟩
    · rw [h] at hd
      obtain ⟨rfl, -⟩ := Pc.done.inj (Option.some.inj hd)
      exact hi.cached_fresh c.key _ hk hv'
    · rw [h] at hd
      exact absurd (Option.some.inj hd) (by simp)
    · rw [h] at hd
      exact absurd (Option.some.inj hd) (by simp)
  | wait removed tag status =>
    cases hv : (w.query? tag).bind (·.result) with
    | none =>
      rw [advance_of_no_result hc hpc hv, hc] at hd
      rw [Option.map_some, hpc] at hd
      exact absurd (Option.some.inj hd) (by simp)
    | some v' =>
      rw [advance_of_result hi hc hpc hv, getElem?_setPc hc w rfl] at hd
      obtain ⟨rfl, -⟩ := Pc.done.inj (Option.some.inj hd)
      -- the value of the query it awaits, which started after the removal
      have hrem : removed = true := by rw [hpc] at hr; exact hr
      obtain ⟨q, hq, htag, hafter⟩ := hi.call_wait c hmem tag status (by rw [hpc, hrem])
      rw [← htag, hi.query?_eq hq, Option.bind_some] at hv
      exact hi.result_fresh q hq hafter _ hv
  | done v' st' =>
    rw [hpc] at hr
    exact absurd hr (by simp [Pc.removed])

/-- The call's `remove_if` removes the cached `0`; its `get` starts a new query, whose loader
returns `5`, and the call returns `5`, which the predicate rejects. -/
theorem removed_then_reloaded : ∃ w, run (fun v : ℕ => v == 0) (World.new : World ℕ ℕ)
        [.get 0, .load 0 0, .call 0, .advance 0, .advance 0, .load 1 5] = some w ∧
      ((w.advance (fun v : ℕ => v == 0) 0).calls[0]?).map (·.pc) = some (.done 5 .miss) ∧
      (5 == 0) = false := by
  obtain ⟨w, hw, hc, hd⟩ : ∃ w, run (fun v : ℕ => v == 0) (World.new : World ℕ ℕ)
      [.get 0, .load 0 0, .call 0, .advance 0, .advance 0, .load 1 5] = some w ∧
      w.calls[0]? = some ⟨0, .wait true 1 .miss⟩ ∧
      ((w.advance (fun v : ℕ => v == 0) 0).calls[0]?).map (·.pc) = some (.done 5 .miss) := by
    decide +kernel
  exact ⟨w, hw, hd,
    done_fresh_of_removed (inv_of_reachable (Transition.reachable_of_foldlM _ .init hw)) hc rfl hd⟩

/-- A call that has begun never goes back to the top of its loop: the `continue` of
`remove_if_and_get_with_status` never runs. -/
theorem advance_ne_get (hi : Inv P w) (hc : w.calls[i]? = some c) (hstart : c.pc ≠ .start)
    (b : Bool) : ((w.advance P i).calls[i]?).map (·.pc) ≠ some (.get b) := by
  cases hpc : c.pc with
  | start => exact absurd hpc hstart
  | get removed =>
    rw [pc_advance_get hc hpc]
    rcases getWithStatus_cases w c.key with ⟨v, -, h⟩ | ⟨tag, -, -, h⟩ | ⟨-, -, h⟩ <;>
      · rw [h]
        simp
  | wait removed tag status =>
    cases hv : (w.query? tag).bind (·.result) with
    | none =>
      rw [advance_of_no_result hc hpc hv, hc, Option.map_some, hpc]
      simp
    | some v =>
      rw [advance_of_result hi hc hpc hv, getElem?_setPc hc w rfl]
      simp
  | done v st =>
    rw [advance_of_done hc hpc, hc, Option.map_some, hpc]
    simp

end Calls

end IoxCore.CacheSystem.RemoveIf

import IoxCore.Lib.SortedSet
import IoxCore.Lib.Simulation
import IoxCore.Lib.AListSum

/-!
# The addressable heap

`cache_system::addressable_heap`. `AddressableHeap` stores a value and an order for every key,
in a hash map from the key, and the pairs `(order, key)` in an ordered set, so that the entry of
least order (ties broken by the key) can be peeked and popped while every entry stays
addressable by its key. The two structures are kept in step by hand, and the source checks it
with `assert!`s (`data structures out of sync`, `key was in key_to_order`,
`entry should have been removed by now`, `o == o2`) and the `expect("value is in queue")`s.
`SimpleAddressableHeap` is the list the source's property test runs it against.

## The model

The hash map is an association list with distinct keys (`AList`): the heap only looks keys up,
inserts and removes them, so the map's iteration order plays no part. The ordered set is a
`SortedSet` of the pairs `(order, key)` under the lexicographic order. An operation returns
`none` where an assertion or an `expect` of the source fails.

## Results

* `Synced`: the representation invariant, `(o, k)` is queued exactly when the map holds `k` at
  order `o`; `Refines` adds that the list model holds each key once and the map's entries.
* One lemma per operation: from related states it succeeds, returns what the list model returns
  and leaves the states related (`insert_refines`, `pop_refines`, ...), and `apply_refines`.
* `run_refines`: from `new`, every sequence of calls returns what the list model returns, no
  assertion fails, and the representation invariant holds after it.
-/

namespace IoxCore.CacheSystem

variable {K V O : Type} [LinearOrder K] [LinearOrder O]

/-- `AddressableHeap`. -/
structure AddressableHeap (K V O : Type) [LinearOrder K] [LinearOrder O] where
  keyToOrderAndValue : AList (fun _ : K => V × O)
  queue : SortedSet (O ×ₗ K)

namespace AddressableHeap

/-- `AddressableHeap::new`. -/
def new : AddressableHeap K V O := ⟨∅, SortedSet.empty⟩

/-- `AddressableHeap::is_empty`. -/
def isEmpty (h : AddressableHeap K V O) : Option Bool :=
  let res1 := h.keyToOrderAndValue.entries.isEmpty
  let res2 := h.queue.toList.isEmpty
  -- `assert_eq!(res1, res2, "data structures out of sync")`
  if res1 = res2 then some res1 else none

/-- `AddressableHeap::insert`: the entry the key had, if any. -/
def insert (h : AddressableHeap K V O) (k : K) (v : V) (o : O) :
    Option (Option (V × O) × AddressableHeap K V O) := do
  let map := h.keyToOrderAndValue.insert k (v, o)
  let (result, queue) ← match h.keyToOrderAndValue.lookup k with
    | some (vOld, oOld) =>
      let (existed, queue) := h.queue.erase (toLex (oOld, k))
      -- `assert!(existed, "key was in key_to_order")`
      if existed then some (some (vOld, oOld), queue) else none
    | none => some (none, h.queue)
  let (inserted, queue) := queue.insert (toLex (o, k))
  -- `assert!(inserted, "entry should have been removed by now")`
  if inserted then some (result, ⟨map, queue⟩) else none

/-- `AddressableHeapIter::next` at the queued pair `(o, k)`. -/
def entryOf (h : AddressableHeap K V O) (e : O ×ₗ K) : Option (K × V × O) :=
  match h.keyToOrderAndValue.lookup (ofLex e).2 with
  -- `expect("value is in queue")`, then `assert!(o == o2)`
  | some (v, o2) => if (ofLex e).1 = o2 then some ((ofLex e).2, v, (ofLex e).1) else none
  | none => none

/-- `AddressableHeap::iter`, collected. -/
def iter (h : AddressableHeap K V O) : Option (List (K × V × O)) :=
  h.queue.toList.mapM h.entryOf

/-- `AddressableHeap::peek`: the first step of `iter`. -/
def peek (h : AddressableHeap K V O) : Option (Option (K × V × O)) :=
  match h.queue.toList with
  | [] => some none
  | e :: _ => (h.entryOf e).map some

/-- `AddressableHeap::pop`. -/
def pop (h : AddressableHeap K V O) : Option (Option (K × V × O) × AddressableHeap K V O) :=
  match h.queue.popFirst with
  | none => some (none, h)
  | some (e, queue) =>
    match h.keyToOrderAndValue.lookup (ofLex e).2 with
    -- `expect("value is in queue")`
    | none => none
    | some (v, o2) =>
      -- `assert!(o == o2)`
      if (ofLex e).1 = o2 then
        some (some ((ofLex e).2, v, (ofLex e).1), ⟨h.keyToOrderAndValue.erase (ofLex e).2, queue⟩)
      else none

/-- `AddressableHeap::get`. -/
def get (h : AddressableHeap K V O) (k : K) : Option (V × O) :=
  h.keyToOrderAndValue.lookup k

/-- `AddressableHeap::remove`. -/
def remove (h : AddressableHeap K V O) (k : K) : Option (Option (V × O) × AddressableHeap K V O) :=
  match h.keyToOrderAndValue.lookup k with
  | none => some (none, h)
  | some (v, o) =>
    let (existed, queue) := h.queue.erase (toLex (o, k))
    -- `assert!(existed, "key was in key_to_order")`
    if existed then some (some (v, o), ⟨h.keyToOrderAndValue.erase k, queue⟩) else none

/-- `AddressableHeap::update_order`: the order the key had, if any. -/
def updateOrder (h : AddressableHeap K V O) (k : K) (o : O) :
    Option (Option O × AddressableHeap K V O) :=
  match h.keyToOrderAndValue.lookup k with
  | none => some (none, h)
  | some (v, oOld) =>
    let map := h.keyToOrderAndValue.insert k (v, o)
    let (existed, queue) := h.queue.erase (toLex (oOld, k))
    -- `assert!(existed, "key was in key_to_order")`
    if existed then
      let (inserted, queue) := queue.insert (toLex (o, k))
      -- `assert!(inserted, "entry should have been removed by now")`
      if inserted then some (some oOld, ⟨map, queue⟩) else none
    else none

end AddressableHeap

/-! ### The list model -/

/-- `Iterator::min_by_key`, one element: a later element replaces the one kept only when its key
is strictly smaller, so the first of the least is kept. -/
def minByKeyStep {β γ : Type} [LinearOrder γ] (f : β → γ) : Option β → β → Option β
  | none, x => some x
  | some a, x => if f x < f a then some x else some a

/-- `Iterator::min_by_key`. -/
def minByKey {β γ : Type} [LinearOrder γ] (f : β → γ) (l : List β) : Option β :=
  l.foldl (minByKeyStep f) none

/-- `SimpleAddressableHeap`: the entries in the order they were pushed. -/
structure SimpleAddressableHeap (K V O : Type) where
  inner : List (K × V × O)

namespace SimpleAddressableHeap

/-- The sort key `(o, k)` of an entry `(k, v, o)`. -/
def sortKey (e : K × V × O) : O ×ₗ K := toLex (e.2.2, e.1)

/-- `SimpleAddressableHeap::new`. -/
def new : SimpleAddressableHeap K V O := ⟨[]⟩

/-- `SimpleAddressableHeap::is_empty`. -/
def isEmpty (s : SimpleAddressableHeap K V O) : Bool := s.inner.isEmpty

/-- `SimpleAddressableHeap::remove`: the first entry of the key. -/
def remove (s : SimpleAddressableHeap K V O) (k : K) :
    Option (V × O) × SimpleAddressableHeap K V O :=
  match s.inner.findIdx? (fun e => e.1 == k) with
  | none => (none, s)
  | some idx => (s.inner[idx]?.map (·.2), ⟨s.inner.eraseIdx idx⟩)

/-- `SimpleAddressableHeap::insert`. -/
def insert (s : SimpleAddressableHeap K V O) (k : K) (v : V) (o : O) :
    Option (V × O) × SimpleAddressableHeap K V O :=
  let (res, s) := s.remove k
  (res, ⟨s.inner ++ [(k, v, o)]⟩)

/-- `SimpleAddressableHeap::peek`. -/
def peek (s : SimpleAddressableHeap K V O) : Option (K × V × O) :=
  minByKey sortKey s.inner

/-- `SimpleAddressableHeap::dump_ordered`: a stable sort by `(o, k)`. -/
def dumpOrdered (s : SimpleAddressableHeap K V O) : List (K × V × O) :=
  s.inner.mergeSort (fun a b => sortKey a ≤ sortKey b)

/-- `SimpleAddressableHeap::pop`. -/
def pop (s : SimpleAddressableHeap K V O) : Option (K × V × O) × SimpleAddressableHeap K V O :=
  match minByKey (fun p => sortKey p.1) s.inner.zipIdx with
  | none => (none, s)
  | some (_, idx) => (s.inner[idx]?, ⟨s.inner.eraseIdx idx⟩)

/-- `SimpleAddressableHeap::get`. -/
def get (s : SimpleAddressableHeap K V O) (k : K) : Option (V × O) :=
  (s.inner.find? (fun e => e.1 == k)).map (·.2)

/-- `SimpleAddressableHeap::update_order`. -/
def updateOrder (s : SimpleAddressableHeap K V O) (k : K) (o : O) :
    Option O × SimpleAddressableHeap K V O :=
  match s.remove k with
  | (some (v, oOld), s) => (some oOld, (s.insert k v o).2)
  | (none, s) => (none, s)

end SimpleAddressableHeap

/-! ### The calls of the property test -/

/-- `Action`: a call of the property test. -/
inductive Action (K V O : Type)
  | isEmpty
  | insert (k : K) (v : V) (o : O)
  | peek
  | iter
  | pop
  | get (k : K)
  | remove (k : K)
  | updateOrder (k : K) (o : O)

/-- What a call returns. -/
inductive Response (K V O : Type)
  | isEmpty (res : Bool)
  | insert (res : Option (V × O))
  | peek (res : Option (K × V × O))
  | iter (res : List (K × V × O))
  | pop (res : Option (K × V × O))
  | get (res : Option (V × O))
  | remove (res : Option (V × O))
  | updateOrder (res : Option O)

/-- A call on the heap; `none` when an assertion fails. -/
def AddressableHeap.apply (h : AddressableHeap K V O) :
    Action K V O → Option (Response K V O × AddressableHeap K V O)
  | .isEmpty => h.isEmpty.map fun res => (.isEmpty res, h)
  | .insert k v o => (h.insert k v o).map fun (res, h) => (.insert res, h)
  | .peek => h.peek.map fun res => (.peek res, h)
  | .iter => h.iter.map fun res => (.iter res, h)
  | .pop => h.pop.map fun (res, h) => (.pop res, h)
  | .get k => some (.get (h.get k), h)
  | .remove k => (h.remove k).map fun (res, h) => (.remove res, h)
  | .updateOrder k o => (h.updateOrder k o).map fun (res, h) => (.updateOrder res, h)

/-- The same call on the list model (`iter` answered by `dump_ordered`). -/
def SimpleAddressableHeap.apply (s : SimpleAddressableHeap K V O) :
    Action K V O → Response K V O × SimpleAddressableHeap K V O
  | .isEmpty => (.isEmpty s.isEmpty, s)
  | .insert k v o => let (res, s) := s.insert k v o; (.insert res, s)
  | .peek => (.peek s.peek, s)
  | .iter => (.iter s.dumpOrdered, s)
  | .pop => let (res, s) := s.pop; (.pop res, s)
  | .get k => (.get (s.get k), s)
  | .remove k => let (res, s) := s.remove k; (.remove res, s)
  | .updateOrder k o => let (res, s) := s.updateOrder k o; (.updateOrder res, s)

/-! ### `min_by_key` -/

section MinByKey

variable {β γ : Type} [LinearOrder γ] (f : β → γ)

@[simp] theorem minByKey_nil : minByKey f [] = none := rfl

/-- From a kept element `a`, the fold keeps an element of `a :: l` whose key is least. -/
theorem foldl_minByKeyStep_some :
    ∀ (l : List β) (a : β), ∃ e, l.foldl (minByKeyStep f) (some a) = some e ∧ e ∈ a :: l ∧
      ∀ x ∈ a :: l, f e ≤ f x
  | [], a => ⟨a, rfl, List.mem_singleton_self a, by simp⟩
  | x :: l, a => by
    by_cases hx : f x < f a
    · obtain ⟨e, he, hmem, hmin⟩ := foldl_minByKeyStep_some l x
      refine ⟨e, by simpa [minByKeyStep, hx] using he, List.mem_cons_of_mem a hmem, ?_⟩
      intro y hy
      rcases List.mem_cons.1 hy with rfl | hy
      · exact (hmin x List.mem_cons_self).trans hx.le
      · exact hmin y hy
    · obtain ⟨e, he, hmem, hmin⟩ := foldl_minByKeyStep_some l a
      refine ⟨e, by simpa [minByKeyStep, hx] using he, ?_, ?_⟩
      · rcases List.mem_cons.1 hmem with rfl | h
        · exact List.mem_cons_self
        · exact List.mem_cons_of_mem _ (List.mem_cons_of_mem _ h)
      · intro y hy
        rcases List.mem_cons.1 hy with rfl | hy
        · exact hmin y List.mem_cons_self
        rcases List.mem_cons.1 hy with rfl | hy
        · exact (hmin a List.mem_cons_self).trans (not_lt.1 hx)
        · exact hmin y (List.mem_cons_of_mem _ hy)

/-- A nonempty list has a first element of least key. -/
theorem minByKey_cons (x : β) (l : List β) :
    ∃ e, minByKey f (x :: l) = some e ∧ e ∈ x :: l ∧ ∀ y ∈ x :: l, f e ≤ f y :=
  foldl_minByKeyStep_some f l x

end MinByKey

/-! ### The list model with each key once -/

namespace SimpleAddressableHeap

variable {s : SimpleAddressableHeap K V O}

omit [LinearOrder K] [LinearOrder O] in
theorem key_eq_of_sortKey_eq {a b : K × V × O} (h : sortKey a = sortKey b) : a.1 = b.1 := by
  simp only [sortKey, toLex_inj, Prod.mk.injEq] at h
  exact h.2

omit [LinearOrder K] [LinearOrder O] in
/-- Erasing the `i`-th entry of a list that holds each key once leaves the entries of the
other keys. -/
theorem mem_eraseIdx_iff {l : List (K × V × O)} (hnd : (l.map (·.1)).Nodup) {i : ℕ}
    {x : K × V × O} (hi : l[i]? = some x) (e : K × V × O) :
    e ∈ l.eraseIdx i ↔ e ∈ l ∧ e.1 ≠ x.1 := by
  obtain ⟨hlt, rfl⟩ := List.getElem?_eq_some_iff.1 hi
  have hinj : ∀ j (hj : j < l.length), l[j].1 = l[i].1 → j = i := fun j hj h =>
    (hnd.of_map _).getElem_inj_iff.1
      (List.inj_on_of_nodup_map hnd (List.getElem_mem hj) (List.getElem_mem hlt) h)
  rw [List.mem_eraseIdx_iff_getElem]
  constructor
  · rintro ⟨j, hj, hji, rfl⟩
    exact ⟨List.getElem_mem hj, fun h => hji (hinj j hj h)⟩
  · rintro ⟨he, hne⟩
    obtain ⟨j, hj, rfl⟩ := List.mem_iff_getElem.1 he
    exact ⟨j, hj, fun hji => hne (by subst hji; rfl), rfl⟩

omit [LinearOrder O] in
theorem remove_sublist (k : K) : List.Sublist (s.remove k).2.inner s.inner := by
  unfold remove
  split
  · exact List.Sublist.refl _
  · exact List.eraseIdx_sublist _ _

omit [LinearOrder O] in
theorem nodup_remove (hnd : (s.inner.map (·.1)).Nodup) (k : K) :
    ((s.remove k).2.inner.map (·.1)).Nodup :=
  hnd.sublist ((remove_sublist k).map _)

omit [LinearOrder O] in
/-- `remove` returns the entry `get` finds. -/
theorem remove_fst (k : K) : (s.remove k).1 = s.get k := by
  unfold remove get
  split
  · rename_i hidx
    rw [List.find?_eq_none.2 (by simpa using List.findIdx?_eq_none_iff.1 hidx)]
    rfl
  · rename_i i hidx
    obtain ⟨hi, hk, hbefore⟩ := List.findIdx?_eq_some_iff_getElem.1 hidx
    have hfind : s.inner.find? (fun e => e.1 == k) = some s.inner[i] :=
      List.find?_eq_some_iff_getElem.2 ⟨hk, i, hi, rfl, by simpa using hbefore⟩
    rw [hfind, List.getElem?_eq_getElem hi]

omit [LinearOrder O] in
/-- With each key once, `remove` leaves the entries of the other keys. -/
theorem mem_remove (hnd : (s.inner.map (·.1)).Nodup) (k : K) (e : K × V × O) :
    e ∈ (s.remove k).2.inner ↔ e ∈ s.inner ∧ e.1 ≠ k := by
  unfold remove
  split
  · rename_i hidx
    have hnone := List.findIdx?_eq_none_iff.1 hidx
    exact ⟨fun he => ⟨he, by simpa using hnone e he⟩, And.left⟩
  · rename_i i hidx
    obtain ⟨hi, hk, -⟩ := List.findIdx?_eq_some_iff_getElem.1 hidx
    rw [mem_eraseIdx_iff hnd (List.getElem?_eq_getElem hi), show s.inner[i].1 = k by simpa using hk]

omit [LinearOrder O] in
theorem mem_insert (hnd : (s.inner.map (·.1)).Nodup) (k : K) (v : V) (o : O) (e : K × V × O) :
    e ∈ (s.insert k v o).2.inner ↔ (e ∈ s.inner ∧ e.1 ≠ k) ∨ e = (k, v, o) := by
  simp only [insert, List.mem_append, List.mem_singleton, mem_remove hnd]

omit [LinearOrder O] in
theorem nodup_insert (hnd : (s.inner.map (·.1)).Nodup) (k : K) (v : V) (o : O) :
    ((s.insert k v o).2.inner.map (·.1)).Nodup := by
  simp only [insert, List.map_append, List.map_cons, List.map_nil]
  refine (nodup_remove hnd k).append (List.nodup_singleton k) ?_
  simp only [List.disjoint_singleton, List.mem_map, not_exists, not_and]
  intro e he
  exact ((mem_remove hnd k e).1 he).2

omit [LinearOrder O] in
theorem insert_fst (k : K) (v : V) (o : O) : (s.insert k v o).1 = s.get k :=
  remove_fst k

omit [LinearOrder O] in
/-- Without an entry of the key, `remove` changes nothing. -/
theorem remove_of_get_eq_none {k : K} (hk : s.get k = none) : s.remove k = (none, s) := by
  have hnone : ∀ e ∈ s.inner, (e.1 == k) = false := by
    simpa [get, List.find?_eq_none] using hk
  simp [remove, List.findIdx?_eq_none_iff.2 hnone]

end SimpleAddressableHeap

/-! ### The representation invariant and the refinement relation -/

/-- The representation invariant of `AddressableHeap`: the pair `(o, k)` is queued exactly when
the map holds `k` at order `o`. -/
def Synced (m : AList (fun _ : K => V × O)) (q : SortedSet (O ×ₗ K)) : Prop :=
  ∀ o k, toLex (o, k) ∈ q.toList ↔ ∃ v, m.lookup k = some (v, o)

/-- The list holds exactly the map's entries. -/
def Holds (m : AList (fun _ : K => V × O)) (l : List (K × V × O)) : Prop :=
  ∀ k v o, (k, v, o) ∈ l ↔ m.lookup k = some (v, o)

/-- The heap refines the list model: its two structures are in sync, and its map holds the
list's entries, which have each key once. -/
structure Refines (h : AddressableHeap K V O) (s : SimpleAddressableHeap K V O) : Prop where
  synced : Synced h.keyToOrderAndValue h.queue
  nodup : (s.inner.map (·.1)).Nodup
  holds : Holds h.keyToOrderAndValue s.inner

section Synced

variable {m : AList (fun _ : K => V × O)} {q q' : SortedSet (O ×ₗ K)} {k : K} {v vOld : V}
  {o oOld : O}

theorem synced_empty : Synced (∅ : AList (fun _ : K => V × O)) SortedSet.empty := by
  intro o k
  simp

theorem Synced.mem (hs : Synced m q) (hk : m.lookup k = some (v, o)) : toLex (o, k) ∈ q.toList :=
  (hs o k).2 ⟨v, hk⟩

theorem Synced.not_mem (hs : Synced m q) (hk : m.lookup k = none) : toLex (o, k) ∉ q.toList := by
  simp [hs o k, hk]

/-- Once the queued pair of `k` is taken off, no pair of `k` is left to clash with a new one. -/
theorem Synced.not_mem_erase (hs : Synced m q) (hk : m.lookup k = some (vOld, oOld)) :
    toLex (o, k) ∉ (q.erase (toLex (oOld, k))).2.toList := by
  rw [SortedSet.mem_erase, hs]
  rintro ⟨hne, v, hv⟩
  rw [hk, Option.some.injEq, Prod.mk.injEq] at hv
  exact hne (by rw [hv.2])

/-- Taking the queued pair of `k` off the queue and `k` off the map keeps them in sync. -/
theorem Synced.erase (hs : Synced m q) (hk : m.lookup k = some (v, o))
    (hq' : ∀ e, e ∈ q'.toList ↔ e ≠ toLex (o, k) ∧ e ∈ q.toList) :
    Synced (m.erase k) q' := by
  intro o' k'
  rw [hq', hs]
  by_cases hk' : k' = k
  · subst hk'
    simp [hk, AList.lookup_erase, eq_comm]
  · simp [AList.lookup_erase_ne hk', hk']

/-- Queuing `(o, k)` for a key the map lacks, as the map takes `k` at order `o`. -/
theorem Synced.insert (hs : Synced m q) (hk : m.lookup k = none)
    (hq' : ∀ e, e ∈ q'.toList ↔ e = toLex (o, k) ∨ e ∈ q.toList) :
    Synced (m.insert k (v, o)) q' := by
  intro o' k'
  rw [hq', hs]
  by_cases hk' : k' = k
  · subst hk'
    simp [hk, AList.lookup_insert, eq_comm]
  · simp [AList.lookup_insert_ne hk', hk']

/-- Replacing the queued pair of `k` by `(o, k)`, as the map takes `k` at order `o`. -/
theorem Synced.replace (hs : Synced m q) (hk : m.lookup k = some (vOld, oOld))
    (hq' : ∀ e, e ∈ q'.toList ↔ e = toLex (o, k) ∨ (e ≠ toLex (oOld, k) ∧ e ∈ q.toList)) :
    Synced (m.insert k (v, o)) q' := by
  intro o' k'
  rw [hq', hs]
  by_cases hk' : k' = k
  · subst hk'
    simp [hk, AList.lookup_insert, eq_comm]
  · simp [AList.lookup_insert_ne hk', hk']

theorem Synced.eq_nil_iff (hs : Synced m q) : q.toList = [] ↔ ∀ k, m.lookup k = none := by
  rw [List.eq_nil_iff_forall_not_mem]
  constructor
  · intro hnil k
    rw [Option.eq_none_iff_forall_ne_some]
    rintro ⟨v, o⟩ hk
    exact hnil _ (hs.mem hk)
  · intro hk e he
    obtain ⟨v, hv⟩ := (hs (ofLex e).1 (ofLex e).2).1 he
    simp [hk] at hv

end Synced

/-! ### The heap's calls under its invariant -/

section Calls

variable {h : AddressableHeap K V O} {k : K} {v vOld : V} {o oOld : O}

/-- `insert` returns the entry the key had, and the map takes the new one. -/
theorem insert_spec (hs : Synced h.keyToOrderAndValue h.queue) (k : K) (v : V) (o : O) :
    ∃ q, h.insert k v o = some (h.get k, ⟨h.keyToOrderAndValue.insert k (v, o), q⟩) ∧
      Synced (h.keyToOrderAndValue.insert k (v, o)) q := by
  cases hk : h.keyToOrderAndValue.lookup k with
  | none =>
    exact ⟨_, by simp [AddressableHeap.insert, AddressableHeap.get, hk, hs.not_mem hk],
      hs.insert hk fun _ => SortedSet.mem_insert⟩
  | some p =>
    obtain ⟨vOld, oOld⟩ := p
    refine ⟨((h.queue.erase (toLex (oOld, k))).2.insert (toLex (o, k))).2,
      by simp [AddressableHeap.insert, AddressableHeap.get, hk, hs.mem hk, hs.not_mem_erase hk],
      hs.replace hk fun _ => ?_⟩
    rw [SortedSet.mem_insert, SortedSet.mem_erase]

theorem remove_of_lookup_none (hk : h.keyToOrderAndValue.lookup k = none) :
    h.remove k = some (none, h) := by
  simp [AddressableHeap.remove, hk]

theorem remove_of_lookup_some (hs : Synced h.keyToOrderAndValue h.queue)
    (hk : h.keyToOrderAndValue.lookup k = some (v, o)) :
    ∃ q, h.remove k = some (some (v, o), ⟨h.keyToOrderAndValue.erase k, q⟩) ∧
      Synced (h.keyToOrderAndValue.erase k) q :=
  ⟨_, by simp [AddressableHeap.remove, hk, hs.mem hk], hs.erase hk fun _ => SortedSet.mem_erase⟩

/-- `remove` returns the entry the key had, and the map loses the key. -/
theorem remove_spec (hs : Synced h.keyToOrderAndValue h.queue) (k : K) :
    ∃ q, h.remove k = some (h.get k, ⟨h.keyToOrderAndValue.erase k, q⟩) ∧
      Synced (h.keyToOrderAndValue.erase k) q := by
  cases hk : h.keyToOrderAndValue.lookup k with
  | none =>
    rw [AList.erase_of_lookup_none hk]
    exact ⟨h.queue, by simp [remove_of_lookup_none hk, AddressableHeap.get, hk], hs⟩
  | some e =>
    obtain ⟨q, hr, hsq⟩ := remove_of_lookup_some hs hk
    exact ⟨q, by rw [hr, AddressableHeap.get, hk], hsq⟩

theorem updateOrder_of_lookup_none (hk : h.keyToOrderAndValue.lookup k = none) (o : O) :
    h.updateOrder k o = some (none, h) := by
  simp [AddressableHeap.updateOrder, hk]

theorem updateOrder_of_lookup_some (hs : Synced h.keyToOrderAndValue h.queue)
    (hk : h.keyToOrderAndValue.lookup k = some (v, oOld)) (o : O) :
    ∃ q, h.updateOrder k o = some (some oOld, ⟨h.keyToOrderAndValue.insert k (v, o), q⟩) ∧
      Synced (h.keyToOrderAndValue.insert k (v, o)) q := by
  refine ⟨((h.queue.erase (toLex (oOld, k))).2.insert (toLex (o, k))).2,
    by simp [AddressableHeap.updateOrder, hk, hs.mem hk, hs.not_mem_erase hk],
    hs.replace hk fun _ => ?_⟩
  rw [SortedSet.mem_insert, SortedSet.mem_erase]

theorem pop_of_popFirst_none (hp : h.queue.popFirst = none) : h.pop = some (none, h) := by
  simp [AddressableHeap.pop, hp]

/-- `pop` takes the first queued pair `(o, k)` off the queue and `k` off the map. -/
theorem pop_of_popFirst_some (hs : Synced h.keyToOrderAndValue h.queue) {e : O ×ₗ K}
    {q : SortedSet (O ×ₗ K)} (hp : h.queue.popFirst = some (e, q)) :
    ∃ v, h.keyToOrderAndValue.lookup (ofLex e).2 = some (v, (ofLex e).1) ∧
      h.pop = some (some ((ofLex e).2, v, (ofLex e).1), ⟨h.keyToOrderAndValue.erase (ofLex e).2, q⟩) ∧
      Synced (h.keyToOrderAndValue.erase (ofLex e).2) q := by
  have he : toLex ((ofLex e).1, (ofLex e).2) ∈ h.queue.toList := by
    simp [SortedSet.toList_of_popFirst hp]
  obtain ⟨v, hv⟩ := (hs _ _).1 he
  refine ⟨v, hv, by simp [AddressableHeap.pop, hp, hv], hs.erase hv fun _ => ?_⟩
  simpa using SortedSet.mem_of_popFirst hp

/-- `pop` of a heap in sync: nothing when its map is empty, else an entry of its map, which the
map loses. -/
theorem pop_of_synced (hs : Synced h.keyToOrderAndValue h.queue) :
    (h.pop = some (none, h) ∧ ∀ k, h.keyToOrderAndValue.lookup k = none) ∨
      ∃ k v o q, h.keyToOrderAndValue.lookup k = some (v, o) ∧
        h.pop = some (some (k, v, o), ⟨h.keyToOrderAndValue.erase k, q⟩) ∧
        Synced (h.keyToOrderAndValue.erase k) q := by
  cases hp : h.queue.popFirst with
  | none =>
    exact Or.inl ⟨pop_of_popFirst_none hp, hs.eq_nil_iff.1 (SortedSet.popFirst_eq_none.1 hp)⟩
  | some r =>
    obtain ⟨e, q⟩ := r
    obtain ⟨v, hv, hpop, hsq⟩ := pop_of_popFirst_some hs hp
    exact Or.inr ⟨_, v, _, q, hv, hpop, hsq⟩

/-- `peek` of a heap in sync: nothing when its map is empty, else the entry of least order, which
`pop` then takes off. -/
theorem peek_of_synced (hs : Synced h.keyToOrderAndValue h.queue) :
    (h.peek = some none ∧ h.pop = some (none, h) ∧ ∀ k, h.keyToOrderAndValue.lookup k = none) ∨
      ∃ k v o q, h.peek = some (some (k, v, o)) ∧ h.keyToOrderAndValue.lookup k = some (v, o) ∧
        (∀ k' v' o', h.keyToOrderAndValue.lookup k' = some (v', o') → o ≤ o') ∧
        h.pop = some (some (k, v, o), ⟨h.keyToOrderAndValue.erase k, q⟩) ∧
        Synced (h.keyToOrderAndValue.erase k) q := by
  cases hp : h.queue.popFirst with
  | none =>
    have hnil := SortedSet.popFirst_eq_none.1 hp
    exact Or.inl ⟨by simp [AddressableHeap.peek, hnil], pop_of_popFirst_none hp, hs.eq_nil_iff.1 hnil⟩
  | some r =>
    obtain ⟨e, q⟩ := r
    obtain ⟨v, hv, hpop, hsq⟩ := pop_of_popFirst_some hs hp
    have hq := SortedSet.toList_of_popFirst hp
    refine Or.inr ⟨_, v, _, q, by simp [AddressableHeap.peek, AddressableHeap.entryOf, hq, hv], hv,
      fun k' v' o' hk' => ?_, hpop, hsq⟩
    -- the queue's head is its least pair, so its order is the least
    have hle : e ≤ toLex (o', k') := SortedSet.head_le hq (hs.mem hk')
    rcases (Prod.Lex.le_iff).1 hle with hlt | ⟨heq, -⟩
    · exact hlt.le
    · exact heq.le

/-- `pop` takes one pair off the queue. -/
theorem length_queue_of_pop {h' : AddressableHeap K V O} {x : K × V × O}
    (hp : h.pop = some (some x, h')) : h'.queue.toList.length < h.queue.toList.length := by
  unfold AddressableHeap.pop at hp
  split at hp
  · cases hp
  · rename_i e q hpf
    split at hp
    · cases hp
    · split at hp
      · simp only [Option.some.injEq, Prod.mk.injEq] at hp
        rw [← hp.2, SortedSet.toList_of_popFirst hpf]
        simp
      · cases hp

/-- `remove` takes at most one pair off the queue. -/
theorem length_queue_of_remove {h' : AddressableHeap K V O} {r : Option (V × O)}
    (hr : h.remove k = some (r, h')) : h'.queue.toList.length ≤ h.queue.toList.length := by
  cases hk : h.keyToOrderAndValue.lookup k with
  | none =>
    rw [remove_of_lookup_none hk, Option.some.injEq, Prod.mk.injEq] at hr
    rw [← hr.2]
  | some e =>
    simp only [AddressableHeap.remove, hk, Option.ite_none_right_eq_some, Option.some.injEq,
      Prod.mk.injEq] at hr
    rw [← hr.2.2]
    exact SortedSet.length_erase_le _ _

/-- `insert` adds at most one pair to the queue. -/
theorem length_queue_of_insert {h' : AddressableHeap K V O} {r : Option (V × O)}
    (hi : h.insert k v o = some (r, h')) : h'.queue.toList.length ≤ h.queue.toList.length + 1 := by
  cases hk : h.keyToOrderAndValue.lookup k with
  | none =>
    simp only [AddressableHeap.insert, hk, Option.bind_eq_bind, Option.bind_some,
      Option.ite_none_right_eq_some, Option.some.injEq, Prod.mk.injEq] at hi
    rw [← hi.2.2]
    exact SortedSet.length_insert_le _ _
  | some e =>
    -- the key's old pair comes off the queue before the new one goes on
    simp only [AddressableHeap.insert, hk, Option.bind_eq_bind] at hi
    split at hi
    · simp only [Option.bind_some, Option.ite_none_right_eq_some, Option.some.injEq,
        Prod.mk.injEq] at hi
      rw [← hi.2.2]
      exact (SortedSet.length_insert_le _ _).trans
        (Nat.add_le_add_right (SortedSet.length_erase_le _ _) 1)
    · simp at hi

end Calls

section Holds

variable {m : AList (fun _ : K => V × O)} {l l' : List (K × V × O)} {k : K} {v : V} {o : O}

omit [LinearOrder O] in
/-- The list model's `get` reads the map. -/
theorem Holds.get (hl : Holds m l) (k : K) : SimpleAddressableHeap.get ⟨l⟩ k = m.lookup k := by
  unfold SimpleAddressableHeap.get
  cases hf : l.find? (fun e => e.1 == k) with
  | some e =>
    have hk : e.1 = k := by simpa using List.find?_some hf
    rw [Option.map_some, ← hk, ← (hl e.1 e.2.1 e.2.2).1 (List.mem_of_find?_eq_some hf)]
  | none =>
    have hnone : ∀ e ∈ l, e.1 ≠ k := by simpa [List.find?_eq_none] using hf
    symm
    rw [Option.map_none, Option.eq_none_iff_forall_ne_some]
    rintro ⟨v, o⟩ hk
    exact hnone _ ((hl k v o).2 hk) rfl

omit [LinearOrder O] in
theorem Holds.erase (hl : Holds m l) (hl' : ∀ e, e ∈ l' ↔ e ∈ l ∧ e.1 ≠ k) :
    Holds (m.erase k) l' := by
  intro k' v' o'
  rw [hl', hl]
  by_cases hk' : k' = k
  · subst hk'
    simp [AList.lookup_erase]
  · simp [AList.lookup_erase_ne hk', hk']

omit [LinearOrder O] in
theorem Holds.insert (hl : Holds m l)
    (hl' : ∀ e, e ∈ l' ↔ (e ∈ l ∧ e.1 ≠ k) ∨ e = (k, v, o)) : Holds (m.insert k (v, o)) l' := by
  intro k' v' o'
  rw [hl', hl]
  by_cases hk' : k' = k
  · subst hk'
    simp [AList.lookup_insert, eq_comm]
  · simp [AList.lookup_insert_ne hk', hk']

end Holds

section Refines

variable {h : AddressableHeap K V O} {s : SimpleAddressableHeap K V O}

omit [LinearOrder O] in
theorem entries_eq_nil_iff (m : AList (fun _ : K => V × O)) :
    m.entries = [] ↔ ∀ k, m.lookup k = none := by
  constructor
  · intro he k
    rw [AList.lookup_eq_none, AList.mem_keys, AList.keys, he]
    exact List.not_mem_nil
  · intro hk
    cases he : m.entries with
    | nil => rfl
    | cons a l =>
      have ha : a.2 ∈ m.lookup a.1 := AList.mem_lookup_iff.2 (by rw [he]; exact List.mem_cons_self)
      simp [hk a.1] at ha

omit [LinearOrder O] in
theorem Holds.eq_nil_iff {m : AList (fun _ : K => V × O)} {l : List (K × V × O)}
    (hl : Holds m l) : l = [] ↔ ∀ k, m.lookup k = none := by
  rw [List.eq_nil_iff_forall_not_mem]
  constructor
  · intro hnil k
    rw [Option.eq_none_iff_forall_ne_some]
    rintro ⟨v, o⟩ hk
    exact hnil _ ((hl k v o).2 hk)
  · rintro hk ⟨k, v, o⟩ he
    have hsome := (hl k v o).1 he
    rw [hk k] at hsome
    cases hsome

theorem isEmpty_refines (hr : Refines h s) : h.isEmpty = some s.isEmpty := by
  have hmap : h.keyToOrderAndValue.entries.isEmpty = s.inner.isEmpty := by
    rw [Bool.eq_iff_iff, List.isEmpty_iff, List.isEmpty_iff, entries_eq_nil_iff,
      hr.holds.eq_nil_iff]
  have hqueue : h.queue.toList.isEmpty = s.inner.isEmpty := by
    rw [Bool.eq_iff_iff, List.isEmpty_iff, List.isEmpty_iff, hr.synced.eq_nil_iff,
      hr.holds.eq_nil_iff]
  simp [AddressableHeap.isEmpty, SimpleAddressableHeap.isEmpty, hmap, hqueue]

theorem get_refines (hr : Refines h s) (k : K) : h.get k = s.get k :=
  (hr.holds.get k).symm

theorem insert_refines (hr : Refines h s) (k : K) (v : V) (o : O) :
    ∃ h', h.insert k v o = some ((s.insert k v o).1, h') ∧ Refines h' (s.insert k v o).2 := by
  obtain ⟨q, hins, hsync⟩ := insert_spec hr.synced k v o
  rw [SimpleAddressableHeap.insert_fst, ← get_refines hr]
  exact ⟨_, hins, hsync, SimpleAddressableHeap.nodup_insert hr.nodup k v o,
    hr.holds.insert (SimpleAddressableHeap.mem_insert hr.nodup k v o)⟩

theorem remove_refines (hr : Refines h s) (k : K) :
    ∃ h', h.remove k = some ((s.remove k).1, h') ∧ Refines h' (s.remove k).2 := by
  cases hk : h.keyToOrderAndValue.lookup k with
  | none =>
    have hget : s.get k = none := by rw [← get_refines hr, AddressableHeap.get, hk]
    rw [SimpleAddressableHeap.remove_of_get_eq_none hget]
    exact ⟨h, remove_of_lookup_none hk, hr⟩
  | some p =>
    obtain ⟨v, o⟩ := p
    obtain ⟨q, hrem, hsync⟩ := remove_of_lookup_some hr.synced hk
    rw [SimpleAddressableHeap.remove_fst, ← get_refines hr, AddressableHeap.get, hk]
    exact ⟨_, hrem, hsync, SimpleAddressableHeap.nodup_remove hr.nodup k,
      hr.holds.erase (SimpleAddressableHeap.mem_remove hr.nodup k)⟩

theorem updateOrder_refines (hr : Refines h s) (k : K) (o : O) :
    ∃ h', h.updateOrder k o = some ((s.updateOrder k o).1, h') ∧
      Refines h' (s.updateOrder k o).2 := by
  cases hk : h.keyToOrderAndValue.lookup k with
  | none =>
    have hget : s.get k = none := by rw [← get_refines hr, AddressableHeap.get, hk]
    have hs : s.updateOrder k o = (none, s) := by
      simp [SimpleAddressableHeap.updateOrder, SimpleAddressableHeap.remove_of_get_eq_none hget]
    rw [hs]
    exact ⟨h, updateOrder_of_lookup_none hk o, hr⟩
  | some p =>
    obtain ⟨v, oOld⟩ := p
    -- the list model removes the entry and pushes it back with the new order
    set s₁ := (s.remove k).2 with hs₁
    have hrem : s.remove k = (some (v, oOld), s₁) := by
      rw [Prod.ext_iff, SimpleAddressableHeap.remove_fst, ← get_refines hr, AddressableHeap.get, hk]
      exact ⟨rfl, rfl⟩
    have hnodup₁ := SimpleAddressableHeap.nodup_remove hr.nodup k
    have hmem : ∀ e, e ∈ (s₁.insert k v o).2.inner ↔
        (e ∈ s.inner ∧ e.1 ≠ k) ∨ e = (k, v, o) := by
      intro e
      rw [SimpleAddressableHeap.mem_insert hnodup₁, SimpleAddressableHeap.mem_remove hr.nodup,
        and_assoc, and_self]
    have hs : s.updateOrder k o = (some oOld, (s₁.insert k v o).2) := by
      simp only [SimpleAddressableHeap.updateOrder, hrem]
    rw [hs]
    obtain ⟨q, hup, hsync⟩ := updateOrder_of_lookup_some hr.synced hk o
    exact ⟨_, hup, hsync, SimpleAddressableHeap.nodup_insert hnodup₁ k v o, hr.holds.insert hmem⟩

end Refines

/-! ### The ordered calls -/

section Ordered

variable {h : AddressableHeap K V O} {s : SimpleAddressableHeap K V O}

open SimpleAddressableHeap (sortKey key_eq_of_sortKey_eq)

/-- Reading the queued pair of an entry of the list model finds that entry. -/
theorem entryOf_sortKey (hl : Holds h.keyToOrderAndValue s.inner) {y : K × V × O}
    (hy : y ∈ s.inner) : h.entryOf (sortKey y) = some y := by
  obtain ⟨k, v, o⟩ := y
  simp [AddressableHeap.entryOf, sortKey, (hl k v o).1 hy]

theorem sortKey_mem_queue (hr : Refines h s) {y : K × V × O} (hy : y ∈ s.inner) :
    sortKey y ∈ h.queue.toList :=
  hr.synced.mem ((hr.holds y.1 y.2.1 y.2.2).1 hy)

/-- Every queued pair is the sort key of an entry of the list model. -/
theorem exists_of_mem_queue (hr : Refines h s) {e : O ×ₗ K} (he : e ∈ h.queue.toList) :
    ∃ y ∈ s.inner, sortKey y = e := by
  obtain ⟨v, hv⟩ := (hr.synced (ofLex e).1 (ofLex e).2).1 (by simpa using he)
  exact ⟨((ofLex e).2, v, (ofLex e).1), (hr.holds _ _ _).2 hv, rfl⟩

/-- The first queued pair is the sort key of the list model's least entry. -/
theorem sortKey_eq_head (hr : Refines h s) {e : O ×ₗ K} {rest : List (O ×ₗ K)}
    (hq : h.queue.toList = e :: rest) {y : K × V × O} (hy : y ∈ s.inner)
    (hmin : ∀ z ∈ s.inner, sortKey y ≤ sortKey z) : sortKey y = e := by
  obtain ⟨x, hx, hxe⟩ := exists_of_mem_queue hr (hq ▸ List.mem_cons_self)
  have hle : sortKey y ≤ e := hxe ▸ hmin x hx
  exact le_antisymm hle (SortedSet.head_le hq (sortKey_mem_queue hr hy))

theorem peek_refines (hr : Refines h s) : h.peek = some s.peek := by
  unfold AddressableHeap.peek SimpleAddressableHeap.peek
  cases hq : h.queue.toList with
  | nil =>
    have hnil : s.inner = [] := hr.holds.eq_nil_iff.2 (hr.synced.eq_nil_iff.1 hq)
    simp [hnil]
  | cons e rest =>
    obtain ⟨x, hx, -⟩ := exists_of_mem_queue hr (hq ▸ List.mem_cons_self)
    obtain ⟨y, ys, hys⟩ := List.exists_cons_of_ne_nil (List.ne_nil_of_mem hx)
    obtain ⟨m, hm, hmmem, hmin⟩ := minByKey_cons sortKey y ys
    rw [← hys] at hmmem hmin
    rw [hys, hm, ← sortKey_eq_head hr hq hmmem hmin]
    simp [entryOf_sortKey hr.holds hmmem]

/-- The index `min_by_key` picks over `enumerate` holds an entry of least sort key. -/
theorem minByKey_zipIdx {l : List (K × V × O)} (hl : l ≠ []) :
    ∃ y idx, minByKey (fun p => sortKey p.1) l.zipIdx = some (y, idx) ∧ l[idx]? = some y ∧
      ∀ z ∈ l, sortKey y ≤ sortKey z := by
  obtain ⟨a, as, has⟩ : ∃ a as, l.zipIdx = a :: as := by
    cases l with
    | nil => exact absurd rfl hl
    | cons x xs => exact ⟨(x, 0), _, rfl⟩
  obtain ⟨⟨y, idx⟩, hm, hmem, hmin⟩ :=
    minByKey_cons (fun p : (K × V × O) × ℕ => sortKey p.1) a as
  rw [← has] at hmem hmin
  refine ⟨y, idx, has ▸ hm, List.mem_zipIdx_iff_getElem?.1 hmem, fun z hz => ?_⟩
  obtain ⟨j, hj, rfl⟩ := List.mem_iff_getElem.1 hz
  exact hmin (l[j], j) (List.mem_zipIdx_iff_getElem?.2 (List.getElem?_eq_getElem hj))

theorem pop_refines (hr : Refines h s) : ∃ h', h.pop = some (s.pop.1, h') ∧ Refines h' s.pop.2 := by
  cases hp : h.queue.popFirst with
  | none =>
    have hnil : s.inner = [] :=
      hr.holds.eq_nil_iff.2 (hr.synced.eq_nil_iff.1 (SortedSet.popFirst_eq_none.1 hp))
    have hs : s.pop = (none, s) := by simp [SimpleAddressableHeap.pop, hnil]
    rw [hs]
    exact ⟨h, by simp [AddressableHeap.pop, hp], hr⟩
  | some p =>
    obtain ⟨e, q'⟩ := p
    have hq := SortedSet.toList_of_popFirst hp
    obtain ⟨x, hx, -⟩ := exists_of_mem_queue hr (hq ▸ List.mem_cons_self)
    -- the entry the list model pops, at the index `min_by_key` picks
    obtain ⟨y, idx, hm, hyi, hmin⟩ := minByKey_zipIdx (List.ne_nil_of_mem hx)
    have hy : y ∈ s.inner := List.mem_of_getElem? hyi
    have hye : sortKey y = e := sortKey_eq_head hr hq hy hmin
    have hs : s.pop = (some y, ⟨s.inner.eraseIdx idx⟩) := by
      simp [SimpleAddressableHeap.pop, hm, hyi]
    rw [hs]
    obtain ⟨k, v, o⟩ := y
    have hlook : h.keyToOrderAndValue.lookup k = some (v, o) := (hr.holds k v o).1 hy
    subst hye
    refine ⟨⟨h.keyToOrderAndValue.erase k, q'⟩, ?_, ?_⟩
    · simp [AddressableHeap.pop, hp, sortKey, hlook]
    · exact ⟨hr.synced.erase hlook fun _ => SortedSet.mem_of_popFirst hp,
        hr.nodup.sublist ((List.eraseIdx_sublist _ _).map _),
        hr.holds.erase (SimpleAddressableHeap.mem_eraseIdx_iff hr.nodup hyi)⟩

/-- Iterating the queue reads, in queue order, entries of the list model. -/
theorem mapM_entryOf (hr : Refines h s) :
    ∀ l : List (O ×ₗ K), l ⊆ h.queue.toList →
      ∃ r, l.mapM h.entryOf = some r ∧ r.map sortKey = l ∧ ∀ x ∈ r, x ∈ s.inner
  | [], _ => ⟨[], rfl, rfl, by simp⟩
  | e :: l, hsub => by
    obtain ⟨y, hy, rfl⟩ := exists_of_mem_queue hr (hsub List.mem_cons_self)
    obtain ⟨r, hmapM, hmap, hmem⟩ :=
      mapM_entryOf hr l (List.Subset.trans (List.subset_cons_self _ _) hsub)
    refine ⟨y :: r, ?_, by rw [List.map_cons, hmap], ?_⟩
    · simp [List.mapM_cons, entryOf_sortKey hr.holds hy, hmapM]
    · intro x hx
      rcases List.mem_cons.1 hx with rfl | hx
      · exact hy
      · exact hmem x hx

theorem pairwise_dumpOrdered (s : SimpleAddressableHeap K V O) :
    s.dumpOrdered.Pairwise (fun a b => sortKey a ≤ sortKey b) := by
  have hsorted := @List.pairwise_mergeSort _ (fun a b : K × V × O => decide (sortKey a ≤ sortKey b))
    (fun a b c hab hbc => by simpa using le_trans (by simpa using hab) (by simpa using hbc))
    (fun a b => by simpa using le_total (sortKey a) (sortKey b)) s.inner
  simpa [SimpleAddressableHeap.dumpOrdered] using hsorted

/-- `iter` collects the entries in queue order, which is the list model's sort by `(o, k)`. -/
theorem iter_refines (hr : Refines h s) : h.iter = some s.dumpOrdered := by
  obtain ⟨r, hiter, hmap, hsub⟩ := mapM_entryOf hr h.queue.toList (List.Subset.refl _)
  rw [AddressableHeap.iter, hiter]
  have hsorted : r.Pairwise (fun a b => sortKey a ≤ sortKey b) := by
    have hq := h.queue.sorted
    rw [← hmap, List.pairwise_map] at hq
    exact hq.imp le_of_lt
  have hnodup : r.Nodup := List.Nodup.of_map sortKey (hmap ▸ h.queue.sorted.nodup)
  -- both lists hold exactly the list model's entries, once each
  have hperm : r.Perm s.dumpOrdered := by
    refine ((List.perm_ext_iff_of_nodup hnodup (hr.nodup.of_map _)).2 fun x =>
      ⟨hsub x, fun hx => ?_⟩).trans (List.mergeSort_perm _ _).symm
    obtain ⟨y, hy, hyx⟩ := List.mem_map.1 (hmap ▸ sortKey_mem_queue hr hx)
    rwa [List.inj_on_of_nodup_map hr.nodup (hsub y hy) hx (key_eq_of_sortKey_eq hyx)] at hy
  refine congrArg some (hperm.eq_of_pairwise (fun a b ha hb hab hba => ?_) hsorted
    (pairwise_dumpOrdered s))
  exact List.inj_on_of_nodup_map hr.nodup (hsub a ha) (List.mem_mergeSort.1 hb)
    (key_eq_of_sortKey_eq (le_antisymm hab hba))

/-- The map's entries, as the list model holds them. -/
def entriesList (h : AddressableHeap K V O) : SimpleAddressableHeap K V O :=
  ⟨h.keyToOrderAndValue.entries.map fun e => (e.1, e.2.1, e.2.2)⟩

/-- A heap in sync refines the list of its map's entries. -/
theorem refines_entriesList (hs : Synced h.keyToOrderAndValue h.queue) :
    Refines h (entriesList h) := by
  refine ⟨hs, ?_, ?_⟩
  · simpa [entriesList, List.NodupKeys, List.keys, Function.comp_def] using
      h.keyToOrderAndValue.nodupKeys
  · intro k v o
    simp [entriesList, ← AList.mem_lookup_iff]

/-- A heap in sync is iterated without a failed assertion, and what `iter` yields are the map's
entries. -/
theorem iter_of_synced (hs : Synced h.keyToOrderAndValue h.queue) :
    ∃ l, h.iter = some l ∧ ∀ x ∈ l, h.get x.1 = some x.2 := by
  refine ⟨_, iter_refines (refines_entriesList hs), fun x hx => ?_⟩
  obtain ⟨k, v, o⟩ := x
  exact ((refines_entriesList hs).holds k v o).1 (List.mem_mergeSort.1 hx)

/-- A heap in sync yields the entries of its map, each once, in strictly increasing `(o, k)`. -/
theorem iter_of_synced_sorted (hs : Synced h.keyToOrderAndValue h.queue) :
    ∃ l, h.iter = some l ∧ l.Pairwise (fun a b => sortKey a < sortKey b) ∧
      ∀ k v o, (k, v, o) ∈ l ↔ h.keyToOrderAndValue.lookup k = some (v, o) := by
  have hr := refines_entriesList hs
  refine ⟨_, iter_refines hr, ?_, fun k v o => List.mem_mergeSort.trans (hr.holds k v o)⟩
  -- the sort is by `≤`, and no two entries share a key
  have hnd : ((entriesList h).dumpOrdered.map (·.1)).Nodup :=
    ((List.mergeSort_perm _ _).map _).nodup_iff.2 hr.nodup
  exact ((pairwise_dumpOrdered _).and (List.pairwise_map.1 hnd)).imp fun hab =>
    lt_of_le_of_ne hab.1 fun he => hab.2 (key_eq_of_sortKey_eq he)

end Ordered

/-! ### Whole runs -/

theorem apply_refines {h : AddressableHeap K V O} {s : SimpleAddressableHeap K V O}
    (hr : Refines h s) (a : Action K V O) :
    ∃ h', h.apply a = some ((s.apply a).1, h') ∧ Refines h' (s.apply a).2 := by
  cases a with
  | isEmpty =>
    exact ⟨h, by simp [AddressableHeap.apply, SimpleAddressableHeap.apply, isEmpty_refines hr], hr⟩
  | insert k v o =>
    obtain ⟨h', heq, hr'⟩ := insert_refines hr k v o
    exact ⟨h', by simp [AddressableHeap.apply, SimpleAddressableHeap.apply, heq], hr'⟩
  | peek =>
    exact ⟨h, by simp [AddressableHeap.apply, SimpleAddressableHeap.apply, peek_refines hr], hr⟩
  | iter =>
    exact ⟨h, by simp [AddressableHeap.apply, SimpleAddressableHeap.apply, iter_refines hr], hr⟩
  | pop =>
    obtain ⟨h', heq, hr'⟩ := pop_refines hr
    exact ⟨h', by simp [AddressableHeap.apply, SimpleAddressableHeap.apply, heq], hr'⟩
  | get k =>
    exact ⟨h, by simp [AddressableHeap.apply, SimpleAddressableHeap.apply, get_refines hr], hr⟩
  | remove k =>
    obtain ⟨h', heq, hr'⟩ := remove_refines hr k
    exact ⟨h', by simp [AddressableHeap.apply, SimpleAddressableHeap.apply, heq], hr'⟩
  | updateOrder k o =>
    obtain ⟨h', heq, hr'⟩ := updateOrder_refines hr k o
    exact ⟨h', by simp [AddressableHeap.apply, SimpleAddressableHeap.apply, heq], hr'⟩

theorem refines_new : Refines (AddressableHeap.new : AddressableHeap K V O) SimpleAddressableHeap.new :=
  ⟨synced_empty, List.nodup_nil, fun k v o => by
    simp [AddressableHeap.new, SimpleAddressableHeap.new]⟩

/-- From `new`, every sequence of calls returns what the list model returns, no assertion of the
heap fails, and its two structures are in sync after it. -/
theorem run_refines (actions : List (Action K V O)) :
    ∃ h, Simulation.runPartial AddressableHeap.apply AddressableHeap.new actions =
        some ((Simulation.run SimpleAddressableHeap.apply SimpleAddressableHeap.new actions).1, h) ∧
      Synced h.keyToOrderAndValue h.queue := by
  obtain ⟨h, hrun, hr⟩ := Simulation.runPartial_of_step Refines (fun _ _ a hr => apply_refines hr a)
    actions AddressableHeap.new SimpleAddressableHeap.new refines_new
  exact ⟨h, hrun, hr.synced⟩

end IoxCore.CacheSystem

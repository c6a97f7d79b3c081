import IoxCore.CacheSystem.Lru

/-!
# Which entries a round of eviction takes

The victim loop of `clean_up_loop` (`selectVictims`) is a tournament: it keeps one
`EvictionCandidateIter` per member, each at the next entry of its member's heap, and takes the
candidate of least last-used time, ties to the least member id, until the pool is back within its
limit. Since every member's heap yields its entries in the order of `(last used, key)`, the
tournament is a k-way merge: it takes the entries in the one order of all entries by
`(last used, member id, key)` (`evictionKey`), and stops at the shortest prefix of that order whose
consumptions cover `current - limit`, or at the end of the entries.

## Results

* `minByKey_tournamentHeads`, `candidates_advance`: the head of the global order is the winner of
  the tournament, and what the tournament has left is the rest of that order.
* `selectVictims_eq_cover`: the victims are the shortest covering prefix of the global order, when
  every entry fits the pool (then counting one off never underflows).
* `eviction_victims_shortest_prefix`: the same for the members of a pool, their heaps in sync and
  every entry within the limit; an entry larger than the pool's `current` would make the loop's
  subtraction underflow.
* `run_eviction_victims_shortest_prefix`: every pool that a run from new members reaches is such a
  pool, by the invariant of the LRU policy, so its victims are the shortest covering prefix.
-/

namespace IoxCore.CacheSystem

variable {I K V T : Type} [LinearOrder I] [LinearOrder K] [LinearOrder T]
    {iters : List (I × List (T × ℕ × K))} {e : I × T × ℕ × K} {rest : List (I × T × ℕ × K)}

/-! ### The global order of the entries -/

/-- Every entry the members offer, with its member's id: `(id, last used, consumption, key)`. -/
def candidates (iters : List (I × List (T × ℕ × K))) : List (I × T × ℕ × K) :=
  iters.flatMap fun p => p.2.map fun c => (p.1, c)

/-- The order in which eviction takes entries: by last use, then member id, then key. -/
def evictionKey (e : I × T × ℕ × K) : T ×ₗ I ×ₗ K := toLex (e.2.1, toLex (e.1, e.2.2.2))

/-- The order of a member's heap: by last use, then key. -/
def heapKey (c : T × ℕ × K) : T ×ₗ K := toLex (c.1, c.2.2)

/-- What the tournament starts from: one iterator per member id, each in the order of its heap. -/
structure Snapshot (iters : List (I × List (T × ℕ × K))) : Prop where
  nodup : (iters.map (·.1)).Nodup
  sorted : ∀ p ∈ iters, p.2.Pairwise fun a b => heapKey a < heapKey b

/-- `n` is the length of the shortest prefix of `l` whose consumptions add up to `need`, or of
`l` when they never do. -/
def IsShortestCover (need : ℕ) (l : List (I × T × ℕ × K)) (n : ℕ) : Prop :=
  (need ≤ ((l.take n).map (·.2.2.1)).sum ∨ n = l.length) ∧
    ∀ m < n, ((l.take m).map (·.2.2.1)).sum < need

omit [LinearOrder I] [LinearOrder K] [LinearOrder T] in
theorem mem_candidates : e ∈ candidates iters ↔ ∃ l, (e.1, l) ∈ iters ∧ e.2 ∈ l := by
  simp only [candidates, List.mem_flatMap, List.mem_map]
  constructor
  · rintro ⟨⟨i, l⟩, hmem, c, hc, rfl⟩
    exact ⟨l, hmem, hc⟩
  · rintro ⟨l, hmem, hc⟩
    exact ⟨_, hmem, e.2, hc, rfl⟩

omit [LinearOrder I] in
/-- Member ids are distinct, so an id names one list. -/
theorem Snapshot.eq_of_mem (hs : Snapshot iters) {i : I}
    {l l' : List (T × ℕ × K)} (hl : (i, l) ∈ iters) (hl' : (i, l') ∈ iters) : l = l' := by
  have := List.inj_on_of_nodup_map hs.nodup hl hl' rfl
  simp only [Prod.mk.injEq, true_and] at this
  exact this

theorem evictionKey_lt_of_heapKey_lt {i : I} {c c' : T × ℕ × K} (h : heapKey c < heapKey c') :
    evictionKey (i, c) < evictionKey (i, c') := by
  simp only [heapKey, Prod.Lex.toLex_lt_toLex] at h
  simp only [evictionKey, Prod.Lex.toLex_lt_toLex, lt_self_iff_false, false_or, true_and]
  rcases h with h | ⟨h₁, h₂⟩
  · exact .inl h
  · exact .inr ⟨h₁, h₂⟩

/-- Between two members, the eviction order compares last use and then the ids. -/
theorem lt_of_evictionKey_lt {e e' : I × T × ℕ × K} (hne : e.1 ≠ e'.1)
    (h : evictionKey e < evictionKey e') : toLex (e.2.1, e.1) < toLex (e'.2.1, e'.1) := by
  simp only [evictionKey, Prod.Lex.toLex_lt_toLex] at h
  simp only [Prod.Lex.toLex_lt_toLex]
  rcases h with h | ⟨h₁, h₂ | ⟨h₂, -⟩⟩
  · exact .inl h
  · exact .inr ⟨h₁, h₂⟩
  · exact absurd h₂ hne

omit [LinearOrder I] [LinearOrder K] [LinearOrder T] in
/-- A first shortest cover stays one when an entry is put before it. -/
theorem IsShortestCover.cons {need n : ℕ}
    (h : IsShortestCover (need - e.2.2.1) rest n) (hneed : 0 < need) :
    IsShortestCover need (e :: rest) (n + 1) := by
  obtain ⟨hcover, hmin⟩ := h
  simp only [IsShortestCover, List.take_succ_cons, List.map_cons, List.sum_cons, List.length_cons]
  refine ⟨?_, fun m hm => ?_⟩
  · rcases hcover with h | h
    · exact .inl (by omega)
    · exact .inr (by omega)
  · cases m with
    | zero => simpa using hneed
    | succ m =>
      have := hmin m (by omega)
      simp only [List.take_succ_cons, List.map_cons, List.sum_cons]
      omega

omit [LinearOrder I] [LinearOrder K] [LinearOrder T] in
theorem isShortestCover_zero (l : List (I × T × ℕ × K)) : IsShortestCover 0 l 0 :=
  ⟨.inl (Nat.zero_le _), fun _ hm => absurd hm (Nat.not_lt_zero _)⟩

omit [LinearOrder I] [LinearOrder K] [LinearOrder T] in
theorem isShortestCover_nil (need : ℕ) : IsShortestCover need ([] : List (I × T × ℕ × K)) 0 :=
  ⟨.inr rfl, fun _ hm => absurd hm (Nat.not_lt_zero _)⟩

/-! ### The tournament is a merge -/

/-- A key strictly less than every other key is what `min_by_key` returns. -/
theorem minByKey_eq_of_lt {β γ : Type} [LinearOrder γ] {f : β → γ} {l : List β} {x : β}
    (hx : x ∈ l) (hlt : ∀ y ∈ l, y ≠ x → f x < f y) : minByKey f l = some x := by
  cases l with
  | nil => cases hx
  | cons a l =>
    obtain ⟨e, he, hmem, hmin⟩ := minByKey_cons f a l
    rw [he]
    by_cases hex : e = x
    · rw [hex]
    · exact absurd (hmin x hx) (not_le.2 (hlt e hmem hex))

/-- The least entry of the global order is the next entry of its member's iterator. -/
theorem Snapshot.head_eq (hs : Snapshot iters) (hperm : (e :: rest).Perm (candidates iters))
    (hsorted : (e :: rest).Pairwise fun a b => evictionKey a < evictionKey b) :
    ∃ l, (e.1, e.2 :: l) ∈ iters := by
  obtain ⟨L, hL, hc⟩ := mem_candidates.1 (hperm.subset List.mem_cons_self)
  cases L with
  | nil => cases hc
  | cons c L =>
    rcases List.mem_cons.1 hc with h | hc'
    · exact ⟨L, h ▸ hL⟩
    · -- the iterator's next entry `c` comes before `e` in its heap, so before `e` in the order
      exfalso
      have hcL : heapKey c < heapKey e.2 := List.rel_of_pairwise_cons (hs.sorted _ hL) hc'
      have hmem : (e.1, c) ∈ e :: rest :=
        hperm.symm.subset (mem_candidates.2 ⟨_, hL, List.mem_cons_self⟩)
      rcases List.mem_cons.1 hmem with h | hrest
      · rw [show c = e.2 from congrArg Prod.snd h] at hcL
        exact lt_irrefl _ hcL
      · exact lt_asymm (List.rel_of_pairwise_cons hsorted hrest)
          (evictionKey_lt_of_heapKey_lt hcL)

/-- The tournament's winner is the least entry of the global order. -/
theorem minByKey_tournamentHeads (hs : Snapshot iters) (hperm : (e :: rest).Perm (candidates iters))
    (hsorted : (e :: rest).Pairwise fun a b => evictionKey a < evictionKey b) :
    minByKey Prod.fst (tournamentHeads iters) = some (toLex (e.2.1, e.1), e.2.2.1, e.2.2.2) := by
  obtain ⟨l, hl⟩ := hs.head_eq hperm hsorted
  have hx : (toLex (e.2.1, e.1), e.2.2.1, e.2.2.2) ∈ tournamentHeads iters :=
    List.mem_filterMap.2 ⟨_, hl, rfl⟩
  apply minByKey_eq_of_lt hx
  intro y hy hne
  obtain ⟨⟨j, L⟩, hjL, hy'⟩ := List.mem_filterMap.1 hy
  obtain ⟨⟨t, s, k⟩, hc, rfl⟩ := Option.map_eq_some_iff.1 hy'
  -- another member's next entry comes later in the global order
  have hij : j ≠ e.1 := by
    rintro rfl
    rw [hs.eq_of_mem hjL hl, List.head?_cons, Option.some.injEq] at hc
    exact hne (by rw [← hc])
  have hmem : (j, t, s, k) ∈ e :: rest :=
    hperm.symm.subset (mem_candidates.2 ⟨L, hjL, List.mem_of_mem_head? hc⟩)
  rcases List.mem_cons.1 hmem with h | hrest
  · exact absurd (congrArg Prod.fst h) hij
  · exact lt_of_evictionKey_lt (Ne.symm hij) (List.rel_of_pairwise_cons hsorted hrest)

omit [LinearOrder K] [LinearOrder T] in
theorem advance_of_not_mem {i : I} (hi : i ∉ iters.map (·.1)) : advance i iters = iters := by
  rw [advance]
  conv_rhs => rw [← List.map_id iters]
  exact List.map_congr_left fun q hq => if_neg fun h => hi (List.mem_map.2 ⟨q, hq, h⟩)

/-- Once member `i` has given up its next entry `c`, the tournament offers the other entries. -/
theorem candidates_advance (hnd : (iters.map (·.1)).Nodup)
    {i : I} {c : T × ℕ × K} {l : List (T × ℕ × K)} (hl : (i, c :: l) ∈ iters) :
    (candidates (advance i iters)).Perm ((candidates iters).erase (i, c)) := by
  induction iters with
  | nil => cases hl
  | cons p ps ih =>
    rw [List.map_cons, List.nodup_cons] at hnd
    simp only [advance, candidates, List.map_cons, List.flatMap_cons] at ih ⊢
    by_cases hpi : p.1 = i
    · -- `p` is the member `i`, and no other member is
      have hp : p = (i, c :: l) := by
        rcases List.mem_cons.1 hl with h | h
        · exact h.symm
        · exact absurd (List.mem_map.2 ⟨_, h, rfl⟩) (hpi ▸ hnd.1)
      subst hp
      rw [if_pos rfl, ← advance, advance_of_not_mem hnd.1]
      simp
    · have hl' : (i, c :: l) ∈ ps := (List.mem_cons.1 hl).resolve_left fun h => hpi (by rw [← h])
      have hnot : (i, c) ∉ p.2.map fun c => (p.1, c) := fun h => by
        obtain ⟨c', -, hc'⟩ := List.mem_map.1 h
        exact hpi (congrArg Prod.fst hc')
      rw [if_neg hpi, List.erase_append_right _ hnot]
      exact (ih hnd.2 hl').append_left _

theorem Snapshot.advance (hs : Snapshot iters) (i : I) : Snapshot (advance i iters) where
  nodup := by
    rw [map_fst_advance]
    exact hs.nodup
  sorted := by
    intro p hp
    obtain ⟨q, hq, rfl⟩ := List.mem_map.1 hp
    split
    · exact (hs.sorted q hq).sublist (List.tail_sublist _)
    · exact hs.sorted q hq

/-! ### The victims -/

/-- The rest of the global order is the global order of what the tournament has left. -/
theorem perm_candidates_advance (hs : Snapshot iters) (hperm : (e :: rest).Perm (candidates iters))
    (hsorted : (e :: rest).Pairwise fun a b => evictionKey a < evictionKey b) :
    rest.Perm (candidates (advance e.1 iters)) := by
  obtain ⟨l, hl⟩ := hs.head_eq hperm hsorted
  have herase := hperm.erase e
  rw [List.erase_cons_head] at herase
  exact herase.trans (candidates_advance hs.nodup hl).symm

omit [LinearOrder K] in
/-- While the tournament has a winner, the order has an entry. -/
theorem ne_nil_of_minByKey {l : List (I × T × ℕ × K)}
    (hperm : l.Perm (candidates iters)) {x : (T ×ₗ I) × ℕ × K}
    (hbest : minByKey Prod.fst (tournamentHeads iters) = some x) : l ≠ [] := by
  rintro rfl
  obtain ⟨L, hL, hc⟩ := mem_tournamentHeads (minByKey_mem hbest)
  exact List.not_mem_nil
    (hperm.symm.subset (mem_candidates (e := ((ofLex x.1).2, (ofLex x.1).1, x.2)) |>.2 ⟨L, hL, hc⟩))

/-- The victim loop takes the shortest prefix of the global order whose consumptions cover
`current - limit`, or every entry: by induction along the loop, the tournament's winner being the
head of the order (`minByKey_tournamentHeads`) and what it leaves the rest of it
(`perm_candidates_advance`). No entry is larger than the limit, so counting the winner off the
pool's `current`, which is still over the limit, does not underflow. -/
theorem selectVictims_eq_cover (limit current : ℕ) (iters : List (I × List (T × ℕ × K)))
    (l : List (I × T × ℕ × K)) (hs : Snapshot iters) (hperm : l.Perm (candidates iters))
    (hsorted : l.Pairwise fun a b => evictionKey a < evictionKey b)
    (hfit : ∀ e ∈ l, e.2.2.1 ≤ limit) :
    ∃ n, selectVictims limit current iters = some ((l.take n).map fun e => (e.1, e.2.2.2)) ∧
      IsShortestCover (current - limit) l n := by
  fun_induction selectVictims limit current iters generalizing l with
  | case1 current iters hle =>
    exact ⟨0, rfl, Nat.sub_eq_zero_of_le hle ▸ isShortestCover_zero l⟩
  | case2 current iters hover hbest =>
    -- no member has an entry left, so neither has the order
    cases l with
    | nil => exact ⟨0, rfl, isShortestCover_nil _⟩
    | cons e rest => simp [minByKey_tournamentHeads hs hperm hsorted] at hbest
  | case3 current iters hover key s k hbest hsub =>
    cases l with
    | nil => exact absurd rfl (ne_nil_of_minByKey hperm hbest)
    | cons e rest =>
      rw [minByKey_tournamentHeads hs hperm hsorted, Option.some.injEq] at hbest
      have hs' : s = e.2.2.1 := (congrArg (·.2.1) hbest).symm
      have he := hfit e List.mem_cons_self
      simp only [resourceSub] at hsub
      split at hsub
      · cases hsub
      · omega
  | case4 current iters hover key s k hbest current' hsub ih =>
    cases l with
    | nil => exact absurd rfl (ne_nil_of_minByKey hperm hbest)
    | cons e rest =>
      rw [minByKey_tournamentHeads hs hperm hsorted, Option.some.injEq] at hbest
      obtain ⟨rfl, rfl, rfl⟩ : toLex (e.2.1, e.1) = key ∧ e.2.2.1 = s ∧ e.2.2.2 = k := by
        simpa only [Prod.mk.injEq] using hbest
      have hcur : current' = current - e.2.2.1 := by
        simp only [resourceSub] at hsub
        split at hsub
        · cases hsub
          rfl
        · cases hsub
      obtain ⟨n, hsel, hcover⟩ := ih rest (hs.advance _) (perm_candidates_advance hs hperm hsorted)
        (List.pairwise_cons.1 hsorted).2 fun x hx => hfit x (List.mem_cons_of_mem _ hx)
      refine ⟨n + 1, by rw [hsel]; rfl, IsShortestCover.cons ?_ (by omega)⟩
      rwa [hcur, Nat.sub_right_comm] at hcover

/-! ### The members of a pool -/

/-- A heap in sync offers its entries in the order of the heap, each with the consumption and the
last use its map holds. -/
theorem couldRemove_of_synced {h : AddressableHeap K ℕ T}
    (hs : Synced h.keyToOrderAndValue h.queue) :
    ∃ L, couldRemove h = some L ∧ L.Pairwise (fun a b => heapKey a < heapKey b) ∧
      ∀ c, c ∈ L ↔ h.keyToOrderAndValue.lookup c.2.2 = some (c.2.1, c.1) := by
  obtain ⟨l, hiter, hsorted, hmem⟩ := iter_of_synced_sorted hs
  refine ⟨_, by rw [couldRemove, hiter]; rfl, List.pairwise_map.2 (hsorted.imp fun {a b} h => ?_),
    fun ⟨t, s, k⟩ => ?_⟩
  · obtain ⟨k, s, t⟩ := a
    obtain ⟨k', s', t'⟩ := b
    exact h
  · rw [← hmem]
    constructor
    · rintro hc
      obtain ⟨⟨k', s', t'⟩, hx, he⟩ := List.mem_map.1 hc
      simp only [Prod.mk.injEq] at he
      obtain ⟨rfl, rfl, rfl⟩ := he
      exact hx
    · intro hx
      exact List.mem_map.2 ⟨(k, s, t), hx, rfl⟩

/-- The iterators of a pool's members whose heaps are in sync: one per member, in the order of its
heap, and together they offer every entry of every member. -/
theorem poolIters_spec {p : PoolState I K V T} (hsynced : ∀ i m, p.members.lookup i = some m →
      Synced m.lastUsed.keyToOrderAndValue m.lastUsed.queue) :
    ∃ iters, p.members.entries.mapM (fun e => (couldRemove e.2.lastUsed).map (e.1, ·)) = some iters ∧
      Snapshot iters ∧ ∀ e, e ∈ candidates iters ↔
        ∃ m, p.members.lookup e.1 = some m ∧
          m.lastUsed.keyToOrderAndValue.lookup e.2.2.2 = some (e.2.2.1, e.2.1) := by
  -- what each member's call returns
  have hcall : ∀ a ∈ p.members.entries, ∃ L, couldRemove a.2.lastUsed = some L ∧
      L.Pairwise (fun a b => heapKey a < heapKey b) ∧
      ∀ c, c ∈ L ↔ a.2.lastUsed.keyToOrderAndValue.lookup c.2.2 = some (c.2.1, c.1) :=
    fun a ha => couldRemove_of_synced (hsynced a.1 a.2 (AList.mem_lookup_iff.2 ha))
  obtain ⟨iters, hiters, hmap⟩ := Simulation.mapM_eq_some
      (f := fun e => (couldRemove e.2.lastUsed).map (e.1, ·)) p.members.entries fun a ha => by
    obtain ⟨L, hL, -⟩ := hcall a ha
    exact ⟨_, by rw [hL]; rfl⟩
  -- every iterator is the call of one member
  have hof : ∀ it ∈ iters, ∃ a ∈ p.members.entries, it = (a.1, it.2) ∧
      couldRemove a.2.lastUsed = some it.2 := by
    intro it hit
    obtain ⟨a, ha, hfa⟩ := List.mem_map.1 (hmap ▸ List.mem_map_of_mem (f := some) hit)
    obtain ⟨L, hL, -⟩ := hcall a ha
    rw [hL, Option.map_some, Option.some.injEq] at hfa
    exact ⟨a, ha, by rw [← hfa], by rw [hL, ← hfa]⟩
  have hfst : iters.map (·.1) = p.members.entries.map (·.1) :=
    Simulation.map_eq_of_map_some hmap fun a _ r hr => by
      obtain ⟨L, hL, -⟩ := hcall a ‹_›
      rw [hL, Option.map_some, Option.some.injEq] at hr
      rw [← hr]
  refine ⟨iters, hiters, ⟨?_, fun it hit => ?_⟩, fun e => ?_⟩
  · rw [hfst]
    exact p.members.nodupKeys
  · obtain ⟨a, ha, -, hL⟩ := hof it hit
    obtain ⟨L, hL', hsorted, -⟩ := hcall a ha
    rw [hL', Option.some.injEq] at hL
    exact hL ▸ hsorted
  · rw [mem_candidates]
    constructor
    · rintro ⟨L, hL, he⟩
      obtain ⟨a, ha, hfst', hcr⟩ := hof _ hL
      obtain ⟨L', hL', -, hmemL⟩ := hcall a ha
      rw [hL', Option.some.injEq] at hcr
      have hae : a.1 = e.1 := (congrArg Prod.fst hfst').symm
      refine ⟨a.2, hae ▸ AList.mem_lookup_iff.2 ha, (hmemL e.2).1 (hcr ▸ he)⟩
    · rintro ⟨m, hm, he⟩
      have ha : (⟨e.1, m⟩ : Sigma fun _ : I => Member K V T) ∈ p.members.entries :=
        AList.mem_lookup_iff.1 hm
      obtain ⟨L, hL, -, hmemL⟩ := hcall _ ha
      obtain ⟨it, hit, hsome⟩ := List.mem_map.1 (hmap ▸ List.mem_map_of_mem ha :
        (couldRemove m.lastUsed).map (e.1, ·) ∈ iters.map some)
      rw [hL, Option.map_some, Option.some.injEq] at hsome
      exact ⟨L, hsome ▸ hit, (hmemL e.2).2 he⟩

/-- A strictly sorted list holds each element once. -/
theorem nodup_of_pairwise_lt {α β : Type} [Preorder β] {f : α → β} {l : List α}
    (h : l.Pairwise fun a b => f a < f b) : l.Nodup :=
  h.imp fun {a b} hab => by
    rintro rfl
    exact lt_irrefl _ hab

omit [LinearOrder I] in
/-- No entry is offered twice: the members' ids are distinct and each heap holds a key once. -/
theorem Snapshot.nodup_candidates (hs : Snapshot iters) : (candidates iters).Nodup := by
  refine List.nodup_flatMap.2 ⟨fun q hq => ?_, ?_⟩
  · exact (nodup_of_pairwise_lt (hs.sorted q hq)).map fun c c' h => congrArg Prod.snd h
  · refine (List.pairwise_map.1 hs.nodup).imp fun {a b} hab => ?_
    intro x hxa hxb
    obtain ⟨c, -, rfl⟩ := List.mem_map.1 hxa
    obtain ⟨c', -, hc'⟩ := List.mem_map.1 hxb
    exact hab (congrArg Prod.fst hc').symm

/-- One round of `clean_up_loop` on a pool whose members' heaps are in sync and whose entries each
fit the pool's limit, as the LRU policy keeps them: with all the members' entries in the order of
last use, member id and key, the victims are the shortest prefix of that order whose consumptions
cover `current - limit`, or every entry when they do not. -/
theorem eviction_victims_shortest_prefix (cfg : LruConfig K V) (p : PoolState I K V T)
    (hheaps : ∀ i m, p.members.lookup i = some m →
      Synced m.lastUsed.keyToOrderAndValue m.lastUsed.queue ∧
        ∀ k s t, m.lastUsed.keyToOrderAndValue.lookup k = some (s, t) → s ≤ cfg.limit)
    (order : List (I × T × ℕ × K))
    (horder : ∀ e, e ∈ order ↔ ∃ m, p.members.lookup e.1 = some m ∧
      m.lastUsed.keyToOrderAndValue.lookup e.2.2.2 = some (e.2.2.1, e.2.1))
    (hsorted : order.Pairwise fun a b => evictionKey a < evictionKey b) :
    ∃ iters n, p.members.entries.mapM (fun e => (couldRemove e.2.lastUsed).map (e.1, ·)) =
        some iters ∧
      selectVictims cfg.limit p.current iters = some ((order.take n).map fun e => (e.1, e.2.2.2)) ∧
      IsShortestCover (p.current - cfg.limit) order n := by
  obtain ⟨iters, hiters, hs, hcand⟩ := poolIters_spec fun i m hm => (hheaps i m hm).1
  -- the order holds every entry once, as the tournament's candidates do
  have hperm : order.Perm (candidates iters) :=
    (List.perm_ext_iff_of_nodup (nodup_of_pairwise_lt hsorted) hs.nodup_candidates).2 fun e =>
      (horder e).trans (hcand e).symm
  have hfit : ∀ e ∈ order, e.2.2.1 ≤ cfg.limit := by
    intro e he
    obtain ⟨m, hm, hk⟩ := (horder e).1 he
    exact (hheaps e.1 m hm).2 _ _ _ hk
  obtain ⟨n, hsel, hcover⟩ := selectVictims_eq_cover cfg.limit p.current iters order hs hperm
    hsorted hfit
  exact ⟨iters, n, hiters, hsel, hcover⟩

/-- Sorting a list of distinct entries by a key that tells them apart orders them strictly. -/
theorem exists_sorted_perm {α β : Type} [LinearOrder β] (f : α → β) {l : List α} (hnd : l.Nodup)
    (hinj : ∀ a ∈ l, ∀ b ∈ l, f a = f b → a = b) :
    ∃ s : List α, s.Perm l ∧ s.Pairwise fun a b => f a < f b := by
  have hle := @List.pairwise_mergeSort α (fun a b => decide (f a ≤ f b))
    (fun a b c hab hbc => by simp only [decide_eq_true_eq] at *; exact hab.trans hbc)
    (fun a b => by simpa using le_total (f a) (f b)) l
  have hnd' := (List.mergeSort_perm l fun a b => decide (f a ≤ f b)).nodup_iff.2 hnd
  refine ⟨_, List.mergeSort_perm l _, (hle.and hnd').imp_of_mem fun ha hb h => ?_⟩
  refine lt_of_le_of_ne (by simpa using h.1) fun heq => h.2 ?_
  exact hinj _ (List.mem_mergeSort.1 ha) _ (List.mem_mergeSort.1 hb) heq

/-- Every run of calls on the members, eviction rounds and drops of policies, from a pool of new
members, reaches a pool whose next round of `clean_up_loop` evicts the shortest prefix of all its
entries, in the order of last use, member id and key, whose consumptions cover
`current - limit`, or every entry when they do not. The pool's invariant keeps every heap in
sync and every entry within the limit, as `set` removes a value larger than the limit. -/
theorem run_eviction_victims_shortest_prefix (cfg : LruConfig K V) (ids : List I)
    (ops : List (PoolOp I K V T)) :
    ∃ results p, Simulation.runPartial (PoolState.step cfg) (PoolState.fresh ids) ops =
        some (results, p) ∧
      ∃ order : List (I × T × ℕ × K), (∀ e, e ∈ order ↔ ∃ m, p.members.lookup e.1 = some m ∧
          m.lastUsed.keyToOrderAndValue.lookup e.2.2.2 = some (e.2.2.1, e.2.1)) ∧
        order.Pairwise (fun a b => evictionKey a < evictionKey b) ∧
        ∃ iters n, p.members.entries.mapM (fun e => (couldRemove e.2.lastUsed).map (e.1, ·)) =
            some iters ∧
          selectVictims cfg.limit p.current iters =
            some ((order.take n).map fun e => (e.1, e.2.2.2)) ∧
          IsShortestCover (p.current - cfg.limit) order n := by
  obtain ⟨results, p, hrun, hp⟩ := Simulation.runPartial_of_invariant (PoolState.Inv cfg)
    (fun p op hp => hp.step op) ops _ (PoolState.inv_fresh ids)
  have hheaps : ∀ i m, p.members.lookup i = some m →
      Synced m.lastUsed.keyToOrderAndValue m.lastUsed.queue ∧
        ∀ k s t, m.lastUsed.keyToOrderAndValue.lookup k = some (s, t) → s ≤ cfg.limit :=
    fun i m hm => ⟨(hp.tracks i m hm).synced,
      fun k s t hk => (hp.tracks i m hm).fits k s (by simp [AddressableHeap.get, hk])⟩
  obtain ⟨iters, -, hs, hcand⟩ := poolIters_spec fun i m hm => (hheaps i m hm).1
  -- member id and key tell the entries apart, as each id names one heap holding a key once
  have hinj : ∀ a ∈ candidates iters, ∀ b ∈ candidates iters,
      evictionKey a = evictionKey b → a = b := by
    rintro ⟨i, t, s, k⟩ ha ⟨i', t', s', k'⟩ hb hab
    simp only [evictionKey, EmbeddingLike.apply_eq_iff_eq, Prod.mk.injEq] at hab
    obtain ⟨rfl, rfl, rfl⟩ := hab
    obtain ⟨m, hm, hk⟩ := (hcand _).1 ha
    obtain ⟨m', hm', hk'⟩ := (hcand _).1 hb
    rw [hm, Option.some.injEq] at hm'
    subst hm'
    simp only [hk, Option.some.injEq, Prod.mk.injEq] at hk'
    rw [hk'.1]
  obtain ⟨order, hperm, hsorted⟩ := exists_sorted_perm evictionKey hs.nodup_candidates hinj
  have horder : ∀ e, e ∈ order ↔ ∃ m, p.members.lookup e.1 = some m ∧
      m.lastUsed.keyToOrderAndValue.lookup e.2.2.2 = some (e.2.2.1, e.2.1) :=
    fun e => hperm.mem_iff.trans (hcand e)
  exact ⟨results, p, hrun, order, horder, hsorted,
    eviction_victims_shortest_prefix cfg p hheaps order horder hsorted⟩

end IoxCore.CacheSystem

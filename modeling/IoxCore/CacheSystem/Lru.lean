import IoxCore.CacheSystem.AddressableHeap
import IoxCore.Lib.AListSum

/-!
# The LRU policy and its resource pool

`cache_system::backend::policy::lru`. Cache backends share one `ResourcePool`: each is a
`PolicyBackend` whose `LruPolicy` keeps, in an `AddressableHeap`, every key of the backend with
the resource consumption of its value and the time it was last used. The pool keeps the sum of
those consumptions (`current`), and while it is over its limit the background `clean_up_loop`
evicts the least recently used entries across all members.

A `PolicyBackend` call runs change requests breadth first (`perform_changes`): each request acts
on the inner backend through a `Recorder`, and the policy sees every record (a get, set or
remove) and may answer with further requests. The LRU policy answers only an oversized set,
whose value alone exceeds the pool's limit, with the removal of that key.

## The model

The inner backend is a map (`AList`), the resource is a natural number whose subtraction panics
on underflow (`checked_sub(..).expect("underflow")`), and times are any linear order. A change
request is the list of backend calls its closure makes: the single `get`, `set` and `remove`,
`ensure_empty`, and the removal of the keys eviction sends. The pool's members are its live
`LruPolicy`s by id, each with its backend, which starts empty (`PoolState.fresh`). A panic is
`none`. Metrics and the wake-up of the background task are not modelled: its rounds are steps.

## Results

* `Tracks`: a member's heap is in sync, every entry fits the pool, and the heap has exactly the
  keys of the backend, each with the estimator's consumption of the stored value.
* `Settling`: what holds while `perform_changes` plays a member's requests out; a key the heap
  does not track has its removal waiting. `Settling.onDispatch` is one record, and
  `performChanges_of_settling` the run.
* `PoolState.Inv`: every member is tracked, and `current` is the sum of the consumptions in all
  members' heaps. `PoolState.Inv.step`: every call, eviction round and drop keeps it, and no
  subtraction underflows; `run_keeps_pool_accounting` is every run.
-/

namespace IoxCore.CacheSystem

variable {I K V T : Type} [LinearOrder I] [LinearOrder K] [LinearOrder T]

/-! ### Change requests -/

/-- One call that the closure of a `ChangeRequest` makes on the `Recorder`. -/
inductive BackendOp (K V : Type)
  | get (k : K)
  | set (k : K) (v : V)
  | remove (k : K)
  /-- `ChangeRequest::ensure_empty`. -/
  | ensureEmpty

/-- `ChangeRequest`: the calls its closure makes, in order. -/
abbrev ChangeRequest (K V : Type) := List (BackendOp K V)

/-- `Record`: what the `Recorder` saw. -/
inductive Record (K V : Type)
  | get (k : K)
  | set (k : K) (v : V)
  | remove (k : K)

/-- `ChangeRequest::eval` on a `Recorder` over the inner backend: the backend after the calls,
and their records; `none` where `ensure_empty` panics. -/
def evalRequest (inner : AList (fun _ : K => V)) :
    ChangeRequest K V → Option (AList (fun _ : K => V) × List (Record K V))
  | [] => some (inner, [])
  | .get k :: ops => (evalRequest inner ops).map fun (inner, rs) => (inner, .get k :: rs)
  | .set k v :: ops =>
    (evalRequest (inner.insert k v) ops).map fun (inner, rs) => (inner, .set k v :: rs)
  | .remove k :: ops =>
    (evalRequest (inner.erase k) ops).map fun (inner, rs) => (inner, .remove k :: rs)
  | .ensureEmpty :: ops =>
    -- `assert!(backend.is_empty(), "inner backend is not empty")`
    if inner.entries.isEmpty then evalRequest inner ops else none

/-! ### The LRU policy -/

/-- The fixed parameters: the pool's limit, and the `ResourceEstimator` of the members. -/
structure LruConfig (K V : Type) where
  limit : ℕ
  consumption : K → V → ℕ

/-- The subtraction of a `Resource`, which panics on underflow. -/
def resourceSub (a b : ℕ) : Option ℕ := if b ≤ a then some (a - b) else none

/-- `Subscriber::get` of `LruPolicy`: the key was used now. -/
def lruGet (h : AddressableHeap K ℕ T) (k : K) (now : T) : Option (AddressableHeap K ℕ T) :=
  (h.updateOrder k now).map (·.2)

/-- What `Subscriber::set` of `LruPolicy` does with an entry that fits the pool: an entry the key
had gives its consumption back and passes on its last-used time, and the new entry is added. -/
def lruReplace (current : ℕ) (h : AddressableHeap K ℕ T) (k : K) (consumption : ℕ) (now : T) :
    Option (ℕ × AddressableHeap K ℕ T) := do
  let (removed, h) ← h.remove k
  let (current, lastUsedT) ← match removed with
    | some (c, tPrev) => (resourceSub current c).map fun current => (current, tPrev)
    | none => some (current, now)
  let (_, h) ← h.insert k consumption lastUsedT
  some (current + consumption, h)

/-- `Subscriber::set` of `LruPolicy`, with the pool's `current`. -/
def lruSet (cfg : LruConfig K V) (current : ℕ) (h : AddressableHeap K ℕ T) (k : K) (v : V)
    (now : T) : Option (ℕ × AddressableHeap K ℕ T × List (ChangeRequest K V)) :=
  let consumption := cfg.consumption k v
  -- an entry larger than the whole pool is removed again
  if consumption > cfg.limit then some (current, h, [[.remove k]])
  else (lruReplace current h k consumption now).map fun (current, h) => (current, h, [])

/-- `Subscriber::remove` of `LruPolicy`, with the pool's `current`. -/
def lruRemove (current : ℕ) (h : AddressableHeap K ℕ T) (k : K) :
    Option (ℕ × AddressableHeap K ℕ T) := do
  let (removed, h) ← h.remove k
  match removed with
  | some (c, _) => (resourceSub current c).map fun current => (current, h)
  | none => some (current, h)

/-- The policy sees one record, and answers with change requests. -/
def dispatch (cfg : LruConfig K V) (now : T) (current : ℕ) (h : AddressableHeap K ℕ T) :
    Record K V → Option (ℕ × AddressableHeap K ℕ T × List (ChangeRequest K V))
  | .get k => (lruGet h k now).map fun h => (current, h, [])
  | .set k v => lruSet cfg current h k v now
  | .remove k => (lruRemove current h k).map fun (current, h) => (current, h, [])

/-- The policy sees the records of one request in turn; their answers are queued in that order. -/
def dispatchAll (cfg : LruConfig K V) (now : T) :
    ℕ → AddressableHeap K ℕ T → List (Record K V) →
      Option (ℕ × AddressableHeap K ℕ T × List (ChangeRequest K V))
  | current, h, [] => some (current, h, [])
  | current, h, r :: rs => do
    let (current, h, reqs) ← dispatch cfg now current h r
    let (current, h, reqs') ← dispatchAll cfg now current h rs
    some (current, h, reqs ++ reqs')

/-- A member of the pool: the inner backend of a `PolicyBackend`, and the `last_used` heap of
its `LruPolicy`. -/
structure Member (K V T : Type) [LinearOrder K] [LinearOrder T] where
  inner : AList (fun _ : K => V)
  lastUsed : AddressableHeap K ℕ T

/-- How much a request can still cause: itself, and for each set a removal it may bring. -/
def requestWeight (req : ChangeRequest K V) : ℕ :=
  1 + 2 * req.countP fun | .set _ _ => true | _ => false

/-- The weight of a queue of requests, which `perform_changes` brings down at every request. -/
def queueWeight (queue : List (ChangeRequest K V)) : ℕ := (queue.map requestWeight).sum

omit [LinearOrder K] in
theorem queueWeight_append (queue queue' : List (ChangeRequest K V)) :
    queueWeight (queue ++ queue') = queueWeight queue + queueWeight queue' := by
  simp [queueWeight]

omit [LinearOrder K] in
theorem queueWeight_cons (req : ChangeRequest K V) (queue : List (ChangeRequest K V)) :
    queueWeight (req :: queue) = requestWeight req + queueWeight queue := by
  simp [queueWeight]

/-- The records of a request are one per call, so as many sets as the request makes. -/
theorem countP_set_of_evalRequest :
    ∀ {inner : AList (fun _ : K => V)} {req : ChangeRequest K V} {inner' records},
      evalRequest inner req = some (inner', records) →
        records.countP (fun | .set _ _ => true | _ => false) ≤
          req.countP fun | .set _ _ => true | _ => false
  | _, [], _, _, h => by
    simp only [evalRequest, Option.some.injEq, Prod.mk.injEq] at h
    simp [← h.2]
  | inner, .get _ :: ops, inner', records, h | inner, .set _ _ :: ops, inner', records, h
  | inner, .remove _ :: ops, inner', records, h => by
    obtain ⟨⟨i, rs⟩, hrec, heq⟩ := Option.map_eq_some_iff.1 h
    simp only [Prod.mk.injEq] at heq
    rw [← heq.2]
    simpa using countP_set_of_evalRequest hrec
  | inner, .ensureEmpty :: ops, inner', records, h => by
    unfold evalRequest at h
    split at h
    · simpa using countP_set_of_evalRequest h
    · cases h

/-- The policy answers at most one request, a removal, for each set it sees. -/
theorem queueWeight_of_dispatchAll {cfg : LruConfig K V} {now : T} :
    ∀ {current : ℕ} {h : AddressableHeap K ℕ T} {records : List (Record K V)} {current' h' reqs},
      dispatchAll cfg now current h records = some (current', h', reqs) →
        queueWeight reqs ≤ records.countP fun | .set _ _ => true | _ => false
  | _, _, [], _, _, _, hd => by
    simp only [dispatchAll, Option.some.injEq, Prod.mk.injEq] at hd
    simp [← hd.2.2, queueWeight]
  | current, h, r :: rs, current', h', reqs, hd => by
    simp only [dispatchAll, Option.bind_eq_bind, Option.bind_eq_some_iff] at hd
    obtain ⟨⟨c₁, h₁, reqs₁⟩, hr, ⟨c₂, h₂, reqs₂⟩, hrs, heq⟩ := hd
    simp only [Option.some.injEq, Prod.mk.injEq] at heq
    have ih := queueWeight_of_dispatchAll hrs
    rw [← heq.2.2]
    -- one record answers with at most one removal, and only a set
    have hone : queueWeight reqs₁ ≤ match r with | .set _ _ => 1 | _ => 0 := by
      cases r with
      | get k =>
        obtain ⟨_, _, he⟩ := Option.map_eq_some_iff.1 hr
        simp only [Prod.mk.injEq] at he
        simp [← he.2.2, queueWeight]
      | remove k =>
        obtain ⟨_, _, he⟩ := Option.map_eq_some_iff.1 hr
        simp only [Prod.mk.injEq] at he
        simp [← he.2.2, queueWeight]
      | set k v =>
        simp only [dispatch, lruSet] at hr
        split at hr
        · simp only [Option.some.injEq, Prod.mk.injEq] at hr
          simp [← hr.2.2, queueWeight, requestWeight]
        · obtain ⟨_, _, he⟩ := Option.map_eq_some_iff.1 hr
          simp only [Prod.mk.injEq] at he
          simp [← he.2.2, queueWeight]
    rw [queueWeight_append]
    cases r <;> simp only [List.countP_cons] at ih hone ⊢ <;> simp at hone ⊢ <;> omega

set_option linter.unusedVariables false in
/-- `perform_changes`: the requests are run breadth first, each answer queued behind the
requests already waiting. -/
def performChanges (cfg : LruConfig K V) (now : T) (m : Member K V T) (current : ℕ) :
    List (ChangeRequest K V) → Option (Member K V T × ℕ)
  | [] => some (m, current)
  | req :: queue =>
    match hreq : evalRequest m.inner req with
    | none => none
    | some (inner, records) =>
      match hd : dispatchAll cfg now current m.lastUsed records with
      | none => none
      | some (current, h, reqs) => performChanges cfg now ⟨inner, h⟩ current (queue ++ reqs)
termination_by queue => queueWeight queue
decreasing_by
  have hset := countP_set_of_evalRequest hreq
  have hw := queueWeight_of_dispatchAll hd
  simp only [queueWeight, List.map_append, List.sum_append, List.map_cons, List.sum_cons,
    requestWeight] at hw ⊢
  omega

/-! ### The pool -/

/-- The pool: its `current` consumption, and its live members by id. -/
structure PoolState (I K V T : Type) [LinearOrder I] [LinearOrder K] [LinearOrder T] where
  current : ℕ
  members : AList (fun _ : I => Member K V T)

/-- A pool of new members, each a new `PolicyBackend` with a new `LruPolicy`, and nothing used. -/
def PoolState.fresh (ids : List I) : PoolState I K V T :=
  ⟨0, ids.foldr (fun i ms => ms.insert i ⟨∅, AddressableHeap.new⟩) ∅⟩

/-- A call on the `PolicyBackend` of member `i`: `perform_changes` of one request. -/
def PoolState.onMember (cfg : LruConfig K V) (now : T) (p : PoolState I K V T) (i : I)
    (req : ChangeRequest K V) : Option (PoolState I K V T) :=
  match p.members.lookup i with
  | none => some p
  | some m => (performChanges cfg now m p.current [req]).map fun (m, current) =>
    ⟨current, p.members.insert i m⟩

/-- `PoolMember::could_remove`: a member's entries as `(last used, consumption, key)`, in the
order of its heap. -/
def couldRemove (h : AddressableHeap K ℕ T) : Option (List (T × ℕ × K)) :=
  h.iter.map (List.map fun (k, s, t) => (t, s, k))

/-- The next candidate of every member that has one, keyed by its time and the member's id: what
the tournament heap of `EvictionCandidateIter`s compares. -/
def tournamentHeads (iters : List (I × List (T × ℕ × K))) : List ((T ×ₗ I) × ℕ × K) :=
  iters.filterMap fun p => p.2.head?.map fun (t, s, k) => (toLex (t, p.1), s, k)

/-- The candidates left once member `i` has given up its next one. -/
def advance (i : I) (iters : List (I × List (T × ℕ × K))) : List (I × List (T × ℕ × K)) :=
  iters.map fun p => if p.1 = i then (p.1, p.2.tail) else p

theorem minByKey_mem {β γ : Type} [LinearOrder γ] {f : β → γ} {l : List β} {x : β}
    (h : minByKey f l = some x) : x ∈ l := by
  cases l with
  | nil => cases h
  | cons y ys =>
    obtain ⟨e, he, hmem, -⟩ := minByKey_cons f y ys
    rw [he] at h
    cases h
    exact hmem

omit [LinearOrder I] [LinearOrder K] [LinearOrder T] in
/-- A head of the tournament is the next candidate of the member it names. -/
theorem mem_tournamentHeads {iters : List (I × List (T × ℕ × K))} {key : T ×ₗ I} {s : ℕ} {k : K}
    (h : (key, s, k) ∈ tournamentHeads iters) :
    ∃ l, ((ofLex key).2, l) ∈ iters ∧ ((ofLex key).1, s, k) ∈ l := by
  obtain ⟨⟨j, l⟩, hmem, hhead⟩ := List.mem_filterMap.1 h
  obtain ⟨⟨t, s', k'⟩, hl, he⟩ := Option.map_eq_some_iff.1 hhead
  simp only [Prod.mk.injEq] at he
  obtain ⟨rfl, rfl, rfl⟩ := he
  exact ⟨l, hmem, List.mem_of_mem_head? hl⟩

omit [LinearOrder K] [LinearOrder T] in
/-- Giving up a candidate leaves fewer candidates: the member whose head it was loses one, and
no member gains any. -/
theorem sum_length_advance_lt {iters : List (I × List (T × ℕ × K))} {key : T ×ₗ I} {s : ℕ} {k : K}
    (h : (key, s, k) ∈ tournamentHeads iters) :
    ((advance (ofLex key).2 iters).map fun p => p.2.length).sum <
      (iters.map fun p => p.2.length).sum := by
  obtain ⟨l, hmem, hc⟩ := mem_tournamentHeads h
  simp only [advance, List.map_map]
  apply List.sum_lt_sum
  · intro p _
    simp only [Function.comp_apply]
    split <;> simp
  · refine ⟨_, hmem, ?_⟩
    cases l with
    | nil => cases hc
    | cons c l => simp

omit [LinearOrder K] [LinearOrder T] in
/-- The members keep their places in the tournament. -/
theorem map_fst_advance (i : I) (iters : List (I × List (T × ℕ × K))) :
    (advance i iters).map (·.1) = iters.map (·.1) := by
  rw [advance, List.map_map]
  refine List.map_congr_left fun p _ => ?_
  simp only [Function.comp_apply]
  split <;> rfl

omit [LinearOrder K] [LinearOrder T] in
/-- What a member has left to offer was among what it offered. -/
theorem mem_advance {i : I} {iters : List (I × List (T × ℕ × K))} {p : I × List (T × ℕ × K)}
    (h : p ∈ advance i iters) : ∃ l, (p.1, l) ∈ iters ∧ p.2 ⊆ l := by
  obtain ⟨⟨j, l⟩, hmem, rfl⟩ := List.mem_map.1 h
  dsimp only
  split
  · exact ⟨l, hmem, (List.tail_sublist l).subset⟩
  · exact ⟨l, hmem, List.Subset.refl l⟩

set_option linter.unusedVariables false in
/-- The victim loop of `clean_up_loop`: while the pool is over its limit, the candidate of the
earliest time (ties to the least member id) is taken and its consumption counted off. -/
def selectVictims (limit : ℕ) (current : ℕ) (iters : List (I × List (T × ℕ × K))) :
    Option (List (I × K)) :=
  if current ≤ limit then some []
  else
    match hbest : minByKey Prod.fst (tournamentHeads iters) with
    -- no member has a candidate left: some data went away meanwhile
    | none => some []
    | some (key, s, k) =>
      match resourceSub current s with
      | none => none
      | some current =>
        (selectVictims limit current (advance (ofLex key).2 iters)).map (((ofLex key).2, k) :: ·)
termination_by (iters.map fun p => p.2.length).sum
decreasing_by exact sum_length_advance_lt (minByKey_mem hbest)

/-- The victims grouped by member id, in increasing order (`BTreeMap<&str, Vec<Box<dyn Any>>>`). -/
def groupVictims (victims : List (I × K)) : List (I × List K) :=
  ((victims.map (·.1)).mergeSort fun a b => a ≤ b).dedup.map fun i =>
    (i, victims.filterMap fun (j, k) => if j = i then some k else none)

omit [LinearOrder K] in
/-- The victim loop runs to its end when every candidate fits the pool: while the pool is over
its limit, a candidate's consumption is less than `current`, so counting it off cannot underflow.
The victims are of the members the candidates came from. -/
theorem selectVictims_spec (limit current : ℕ) (iters : List (I × List (T × ℕ × K)))
    (hfit : ∀ p ∈ iters, ∀ c ∈ p.2, c.2.1 ≤ limit) :
    ∃ victims, selectVictims limit current iters = some victims ∧
      ∀ v ∈ victims, v.1 ∈ iters.map (·.1) := by
  fun_induction selectVictims limit current iters with
  | case1 => exact ⟨[], rfl, by simp⟩
  | case2 => exact ⟨[], rfl, by simp⟩
  | case3 current iters hover key s k hbest hsub =>
    obtain ⟨l, hmem, hc⟩ := mem_tournamentHeads (minByKey_mem hbest)
    have hs : s ≤ limit := hfit _ hmem _ hc
    simp only [resourceSub] at hsub
    split at hsub
    · cases hsub
    · omega
  | case4 current iters hover key s k hbest current' hsub ih =>
    obtain ⟨l, hmem, -⟩ := mem_tournamentHeads (minByKey_mem hbest)
    obtain ⟨victims, hv, hids⟩ := ih fun p hp c hc => by
      obtain ⟨l', hl', hsub'⟩ := mem_advance hp
      exact hfit _ hl' c (hsub' hc)
    refine ⟨_, by rw [hv]; rfl, fun v hvm => ?_⟩
    rcases List.mem_cons.1 hvm with rfl | hvm
    · exact List.mem_map.2 ⟨_, hmem, rfl⟩
    · rw [← map_fst_advance (ofLex key).2]
      exact hids v hvm

omit [LinearOrder K] in
/-- Every group of victims is of a member that had a victim. -/
theorem mem_groupVictims {victims : List (I × K)} {g : I × List K} (h : g ∈ groupVictims victims) :
    g.1 ∈ victims.map (·.1) := by
  obtain ⟨i, hi, rfl⟩ := List.mem_map.1 h
  exact List.mem_mergeSort.1 (List.mem_dedup.1 hi)

/-- `PoolMember::remove_keys` of member `i`: one request that removes the keys in turn. -/
def PoolState.removeKeys (cfg : LruConfig K V) (now : T) (p : PoolState I K V T) (i : I)
    (keys : List K) : Option (PoolState I K V T) :=
  match p.members.lookup i with
  -- `expect("did get this ID from this map")`
  | none => none
  | some m => (performChanges cfg now m p.current [keys.map .remove]).map fun (m, current) =>
    ⟨current, p.members.insert i m⟩

/-- One round of `clean_up_loop`. -/
def PoolState.evictionRound (cfg : LruConfig K V) (now : T) (p : PoolState I K V T) :
    Option (PoolState I K V T) :=
  -- within its limit the pool waits for a change
  if p.current ≤ cfg.limit then some p
  -- without members the round is tried again
  else if p.members.entries.isEmpty then some p
  else do
    let iters ← p.members.entries.mapM fun e => (couldRemove e.2.lastUsed).map (e.1, ·)
    let victims ← selectVictims cfg.limit p.current iters
    (groupVictims victims).foldlM (fun p (i, keys) => p.removeKeys cfg now i keys) p

set_option linter.unusedVariables false in
/-- The loop of `Drop for LruPolicy`: pops every entry, adding up their consumption. -/
def popAll (accu : ℕ) (h : AddressableHeap K ℕ T) : Option ℕ :=
  match hp : h.pop with
  | none => none
  | some (none, _) => some accu
  | some (some (_, s, _), h') => popAll (accu + s) h'
termination_by h.queue.toList.length
decreasing_by exact length_queue_of_pop hp

/-- Dropping the `LruPolicy` of member `i`, with its backend: its consumption goes back to the
pool, and it leaves the pool. -/
def PoolState.drop (p : PoolState I K V T) (i : I) : Option (PoolState I K V T) :=
  match p.members.lookup i with
  | none => some p
  | some m => do
    let total ← popAll 0 m.lastUsed
    let current ← resourceSub p.current total
    some ⟨current, p.members.erase i⟩

/-- What happens to the pool, one step at a time. -/
inductive PoolOp (I K V T : Type)
  | get (i : I) (k : K) (now : T)
  | set (i : I) (k : K) (v : V) (now : T)
  | remove (i : I) (k : K) (now : T)
  | evict (now : T)
  | drop (i : I)

/-- One step: a call on a member's `PolicyBackend` (a get answers with what the backend holds
once the changes have settled), a round of `clean_up_loop`, or the drop of a policy. -/
def PoolState.step (cfg : LruConfig K V) (p : PoolState I K V T) :
    PoolOp I K V T → Option (Option V × PoolState I K V T)
  | .get i k now => do
    let p ← p.onMember cfg now i [.get k]
    some ((p.members.lookup i).bind fun m => m.inner.lookup k, p)
  | .set i k v now => (p.onMember cfg now i [.set k v]).map (none, ·)
  | .remove i k now => (p.onMember cfg now i [.remove k]).map (none, ·)
  | .evict now => (p.evictionRound cfg now).map (none, ·)
  | .drop i => (p.drop i).map (none, ·)

/-! ### What a request does to the backend -/

/-- The record a call leaves on the `Recorder`; `ensure_empty` leaves none. -/
def BackendOp.toRecord : BackendOp K V → Option (Record K V)
  | .get k => some (.get k)
  | .set k v => some (.set k v)
  | .remove k => some (.remove k)
  | .ensureEmpty => none

/-- What the call of a record did to the backend. -/
def Record.apply (inner : AList (fun _ : K => V)) : Record K V → AList (fun _ : K => V)
  | .get _ => inner
  | .set k v => inner.insert k v
  | .remove k => inner.erase k

/-- The key whose value the call of a record replaced or removed. -/
def Record.writes : Record K V → Option K
  | .get _ => none
  | .set k _ => some k
  | .remove k => some k

/-- A request of backend calls only runs to its end: the backend has had each call in turn, and
the records are the calls'. -/
theorem evalRequest_of_calls : ∀ (inner : AList (fun _ : K => V)) (req : ChangeRequest K V),
    (∀ op ∈ req, op ≠ .ensureEmpty) →
      evalRequest inner req = some ((req.filterMap BackendOp.toRecord).foldl Record.apply inner,
        req.filterMap BackendOp.toRecord)
  | _, [], _ => rfl
  | inner, op :: ops, hreq => by
    have ih := fun inner =>
      evalRequest_of_calls inner ops fun op' h => hreq op' (List.mem_cons_of_mem _ h)
    cases op with
    | get k => simp [evalRequest, ih, BackendOp.toRecord, Record.apply]
    | set k v => simp [evalRequest, ih, BackendOp.toRecord, Record.apply]
    | remove k => simp [evalRequest, ih, BackendOp.toRecord, Record.apply]
    | ensureEmpty => exact absurd rfl (hreq _ List.mem_cons_self)

/-! ### The accounting invariant -/

/-- The consumption a heap accounts for. -/
def usage (h : AddressableHeap K ℕ T) : ℕ := h.keyToOrderAndValue.sumBy fun e => e.2.1

/-- The heap tracks key `k` of the backend: it has `k` exactly when the backend does, with the
estimator's consumption of the stored value. -/
def Consistent (cfg : LruConfig K V) (inner : AList (fun _ : K => V)) (h : AddressableHeap K ℕ T)
    (k : K) : Prop :=
  (h.get k).map (·.1) = (inner.lookup k).map (cfg.consumption k)

/-- What holds of a member between calls: its heap is in sync, every entry fits the pool, and
every key of the backend is tracked. -/
structure Tracks (cfg : LruConfig K V) (m : Member K V T) : Prop where
  synced : Synced m.lastUsed.keyToOrderAndValue m.lastUsed.queue
  fits : ∀ k c, (m.lastUsed.get k).map (·.1) = some c → c ≤ cfg.limit
  consistent : ∀ k, Consistent cfg m.inner m.lastUsed k

/-- What holds while a member's change requests are played out: the heap is in sync and fits
the pool, the pool's `current` counts the heap's consumption on top of the other members' `base`,
and every key the heap does not track is `pending`. -/
structure Settling (cfg : LruConfig K V) (base : ℕ) (inner : AList (fun _ : K => V))
    (h : AddressableHeap K ℕ T) (current : ℕ) (pending : K → Prop) : Prop where
  synced : Synced h.keyToOrderAndValue h.queue
  fits : ∀ k c, (h.get k).map (·.1) = some c → c ≤ cfg.limit
  current_eq : current = base + usage h
  consistent : ∀ k, Consistent cfg inner h k ∨ pending k


/-- The consumption of the entry a key has in the heap, or zero. -/
def oldConsumption (h : AddressableHeap K ℕ T) (k : K) : ℕ := ((h.get k).map (·.1)).getD 0

/-- `Subscriber::set` of an entry that fits: the old entry of the key is given back and its time
kept, and the new entry is added. -/
theorem lruReplace_spec {h : AddressableHeap K ℕ T} (hs : Synced h.keyToOrderAndValue h.queue)
    {current : ℕ} {k : K} (hle : oldConsumption h k ≤ current) (c : ℕ) (now : T) :
    ∃ q, lruReplace current h k c now = some (current - oldConsumption h k + c,
        ⟨(h.keyToOrderAndValue.erase k).insert k (c, ((h.get k).map (·.2)).getD now), q⟩) ∧
      Synced ((h.keyToOrderAndValue.erase k).insert k (c, ((h.get k).map (·.2)).getD now)) q := by
  obtain ⟨q₁, hrem, hs₁⟩ := remove_spec hs k
  cases hk : h.get k with
  | none =>
    obtain ⟨q₂, hins, hs₂⟩ := insert_spec (h := ⟨h.keyToOrderAndValue.erase k, q₁⟩) hs₁ k c now
    refine ⟨q₂, ?_, hs₂⟩
    rw [hk] at hrem
    rw [AddressableHeap.get] at hk
    simp [lruReplace, hrem, hins, oldConsumption, hk, AddressableHeap.get]
  | some e =>
    obtain ⟨cOld, tOld⟩ := e
    obtain ⟨q₂, hins, hs₂⟩ := insert_spec (h := ⟨h.keyToOrderAndValue.erase k, q₁⟩) hs₁ k c tOld
    refine ⟨q₂, ?_, hs₂⟩
    rw [hk] at hrem
    have hle' : cOld ≤ current := by simpa [oldConsumption, hk] using hle
    rw [AddressableHeap.get] at hk
    simp [lruReplace, hrem, hins, oldConsumption, hk, resourceSub, hle', AddressableHeap.get]

/-- `Subscriber::remove`: the entry of the key is given back. -/
theorem lruRemove_spec {h : AddressableHeap K ℕ T} (hs : Synced h.keyToOrderAndValue h.queue)
    {current : ℕ} {k : K} (hle : oldConsumption h k ≤ current) :
    ∃ q, lruRemove current h k =
        some (current - oldConsumption h k, ⟨h.keyToOrderAndValue.erase k, q⟩) ∧
      Synced (h.keyToOrderAndValue.erase k) q := by
  obtain ⟨q₁, hrem, hs₁⟩ := remove_spec hs k
  refine ⟨q₁, ?_, hs₁⟩
  cases hk : h.get k with
  | none =>
    rw [hk] at hrem
    simp [lruRemove, hrem, oldConsumption, hk]
  | some e =>
    obtain ⟨cOld, tOld⟩ := e
    rw [hk] at hrem
    have hle' : cOld ≤ current := by simpa [oldConsumption, hk] using hle
    simp [lruRemove, hrem, oldConsumption, hk, resourceSub, hle']

/-- Erasing a key gives its consumption back. -/
theorem usage_erase (h : AddressableHeap K ℕ T) (k : K) (q : SortedSet (T ×ₗ K)) :
    usage h = usage ⟨h.keyToOrderAndValue.erase k, q⟩ + oldConsumption h k := by
  cases hk : h.get k with
  | none =>
    simp [usage, oldConsumption, AList.sumBy_erase_of_lookup_none _ hk, hk]
  | some e =>
    rw [usage, usage, AList.sumBy_of_lookup _ hk]
    simp only [oldConsumption, hk, Option.map_some, Option.getD_some]
    omega

section Settling

variable {cfg : LruConfig K V} {base current : ℕ} {inner : AList (fun _ : K => V)}
  {h : AddressableHeap K ℕ T} {P : K → Prop}

theorem Settling.mono (hs : Settling cfg base inner h current P) {Q : K → Prop}
    (hPQ : ∀ k, P k → Q k) : Settling cfg base inner h current Q :=
  ⟨hs.synced, hs.fits, hs.current_eq, fun k => (hs.consistent k).imp_right (hPQ k)⟩

/-- A call that changes key `k` only keeps every other key as it was. -/
theorem Settling.write (hs : Settling cfg base inner h current P) {inner' h' current'} (k : K)
    {Q : K → Prop} (hsync : Synced h'.keyToOrderAndValue h'.queue)
    (hother : ∀ k', k' ≠ k → h'.get k' = h.get k' ∧ inner'.lookup k' = inner.lookup k')
    (hfit : ∀ c, (h'.get k).map (·.1) = some c → c ≤ cfg.limit)
    (hk : Consistent cfg inner' h' k ∨ Q k) (hcur : current' = base + usage h') :
    Settling cfg base inner' h' current' fun k' => (P k' ∧ k' ≠ k) ∨ Q k' := by
  refine ⟨hsync, fun k' c hc => ?_, hcur, fun k' => ?_⟩
  · by_cases hk' : k' = k
    · exact hfit c (hk' ▸ hc)
    · rw [(hother k' hk').1] at hc
      exact hs.fits k' c hc
  · by_cases hk' : k' = k
    · subst hk'
      exact hk.imp_right Or.inr
    · have hc : Consistent cfg inner' h' k' ↔ Consistent cfg inner h k' := by
        rw [Consistent, Consistent, (hother k' hk').1, (hother k' hk').2]
      rw [hc]
      exact (hs.consistent k').imp_right fun hp => Or.inl ⟨hp, hk'⟩

/-- `Subscriber::get` only moves the key's time. -/
theorem Settling.onGet (hs : Settling cfg base inner h current P) (k : K) (now : T) :
    ∃ h', lruGet h k now = some h' ∧ Settling cfg base inner h' current P := by
  cases hk : h.keyToOrderAndValue.lookup k with
  | none => exact ⟨h, by simp [lruGet, updateOrder_of_lookup_none hk], hs⟩
  | some e =>
    obtain ⟨c, t⟩ := e
    obtain ⟨q, hu, hsq⟩ := updateOrder_of_lookup_some hs.synced hk now
    refine ⟨⟨h.keyToOrderAndValue.insert k (c, now), q⟩, by simp [lruGet, hu], ?_⟩
    have hget : ∀ k', (AddressableHeap.get ⟨h.keyToOrderAndValue.insert k (c, now), q⟩ k').map
        (·.1) = (h.get k').map (·.1) := by
      intro k'
      by_cases hk' : k' = k
      · subst hk'
        simp [AddressableHeap.get, hk]
      · simp [AddressableHeap.get, AList.lookup_insert_ne hk']
    refine ⟨hsq, fun k' c' hc' => hs.fits k' c' (hget k' ▸ hc'), ?_, fun k' => ?_⟩
    · rw [hs.current_eq, usage, usage, AList.sumBy_insert, AList.sumBy_of_lookup _ hk]
    · rw [Consistent, hget k']
      exact hs.consistent k'

/-- `Subscriber::set` of an entry that fits the pool: the key is tracked with its new value. -/
theorem Settling.onReplace (hs : Settling cfg base inner h current P) (k : K) (v : V)
    (hfit : cfg.consumption k v ≤ cfg.limit) (now : T) :
    ∃ current' h', lruReplace current h k (cfg.consumption k v) now = some (current', h') ∧
      Settling cfg base (inner.insert k v) h' current' fun k' => (P k' ∧ k' ≠ k) ∨ False := by
  have hold := usage_erase h k h.queue
  have hle : oldConsumption h k ≤ current := by
    rw [hs.current_eq]
    omega
  obtain ⟨q, hrep, hsq⟩ := lruReplace_spec hs.synced hle (cfg.consumption k v) now
  refine ⟨_, _, hrep, hs.write k hsq (fun k' hk' => ?_) (fun c hc => ?_) (Or.inl ?_) ?_⟩
  · simp [AddressableHeap.get, AList.lookup_insert_ne hk', AList.lookup_erase_ne hk']
  · simp only [AddressableHeap.get, AList.lookup_insert, Option.map_some, Option.some.injEq] at hc
    omega
  · simp [Consistent, AddressableHeap.get]
  · -- the old entry's consumption leaves `current`, the new one's comes in
    have hnew : usage ⟨(h.keyToOrderAndValue.erase k).insert k
        (cfg.consumption k v, ((h.get k).map (·.2)).getD now), q⟩ =
          cfg.consumption k v + usage ⟨h.keyToOrderAndValue.erase k, h.queue⟩ := by
      simp [usage, AList.sumBy_insert_of_lookup_none _ _ (AList.lookup_erase k _)]
    rw [hnew, hs.current_eq]
    omega

/-- `Subscriber::set` of an entry larger than the pool leaves the heap as it is, and asks for the
key's removal. -/
theorem Settling.onOversized (hs : Settling cfg base inner h current P) (k : K) (v : V) :
    Settling cfg base (inner.insert k v) h current
      fun k' => (P k' ∧ k' ≠ k) ∨ [.remove k'] ∈ ([[.remove k]] : List (ChangeRequest K V)) :=
  hs.write k hs.synced (fun _ hk' => ⟨rfl, AList.lookup_insert_ne hk'⟩) (fun c hc => hs.fits k c hc)
    (Or.inr (by simp)) hs.current_eq

/-- `Subscriber::remove`: the key leaves the heap as it left the backend. -/
theorem Settling.onRemove (hs : Settling cfg base inner h current P) (k : K) :
    ∃ current' h', lruRemove current h k = some (current', h') ∧
      Settling cfg base (inner.erase k) h' current' fun k' => (P k' ∧ k' ≠ k) ∨ False := by
  have hold := usage_erase h k h.queue
  have hle : oldConsumption h k ≤ current := by
    rw [hs.current_eq]
    omega
  obtain ⟨q, hrem, hsq⟩ := lruRemove_spec hs.synced hle
  refine ⟨_, _, hrem, hs.write k hsq (fun k' hk' => ?_) (fun c hc => ?_) (Or.inl ?_) ?_⟩
  · simp [AddressableHeap.get, AList.lookup_erase_ne hk']
  · simp [AddressableHeap.get] at hc
  · simp [Consistent, AddressableHeap.get]
  · have hq : usage ⟨h.keyToOrderAndValue.erase k, q⟩ = usage ⟨h.keyToOrderAndValue.erase k, h.queue⟩ :=
      rfl
    rw [hq, hs.current_eq]
    omega

/-- The policy's answer to one record keeps the heap in step with the backend, except for the keys
whose removal it asks for; what it asks for are removals of single keys. -/
theorem Settling.onDispatch (hs : Settling cfg base inner h current P) (now : T) (r : Record K V) :
    ∃ current' h' reqs, dispatch cfg now current h r = some (current', h', reqs) ∧
      Settling cfg base (r.apply inner) h' current'
        (fun k => (P k ∧ r.writes ≠ some k) ∨ [.remove k] ∈ reqs) ∧
      ∀ req ∈ reqs, ∃ k, req = [.remove k] := by
  cases r with
  | get k =>
    obtain ⟨h', hget, hs'⟩ := hs.onGet k now
    exact ⟨current, h', [], by simp [dispatch, hget],
      hs'.mono fun k' hk' => Or.inl ⟨hk', by simp [Record.writes]⟩, by simp⟩
  | set k v =>
    by_cases hbig : cfg.consumption k v > cfg.limit
    · refine ⟨current, h, [[.remove k]], by simp [dispatch, lruSet, hbig],
        (hs.onOversized k v).mono fun k' => Or.imp_left fun hk' => ⟨hk'.1, ?_⟩, by simp⟩
      simp [Record.writes, Ne.symm hk'.2]
    · obtain ⟨current', h', hrep, hs'⟩ := hs.onReplace k v (not_lt.1 hbig) now
      refine ⟨current', h', [], by simp [dispatch, lruSet, hbig, hrep],
        hs'.mono fun k' => Or.imp (fun hk' => ⟨hk'.1, ?_⟩) False.elim, by simp⟩
      simp [Record.writes, Ne.symm hk'.2]
  | remove k =>
    obtain ⟨current', h', hrem, hs'⟩ := hs.onRemove k
    refine ⟨current', h', [], by simp [dispatch, hrem],
      hs'.mono fun k' => Or.imp (fun hk' => ⟨hk'.1, ?_⟩) False.elim, by simp⟩
    simp [Record.writes, Ne.symm hk'.2]

/-- The policy's answers to the records of one request, in turn. -/
theorem Settling.onDispatchAll (hs : Settling cfg base inner h current P) (now : T)
    (rs : List (Record K V)) :
    ∃ current' h' reqs, dispatchAll cfg now current h rs = some (current', h', reqs) ∧
      Settling cfg base (rs.foldl Record.apply inner) h' current'
        (fun k => (P k ∧ ∀ r ∈ rs, r.writes ≠ some k) ∨ [.remove k] ∈ reqs) ∧
      ∀ req ∈ reqs, ∃ k, req = [.remove k] := by
  induction rs generalizing inner h current P with
  | nil => exact ⟨current, h, [], rfl, hs.mono fun k hk => Or.inl ⟨hk, by simp⟩, by simp⟩
  | cons r rs ih =>
    obtain ⟨c₁, h₁, reqs₁, hd₁, hs₁, hr₁⟩ := hs.onDispatch now r
    obtain ⟨c₂, h₂, reqs₂, hd₂, hs₂, hr₂⟩ := ih hs₁
    refine ⟨c₂, h₂, reqs₁ ++ reqs₂, by simp [dispatchAll, hd₁, hd₂], hs₂.mono ?_, ?_⟩
    · -- a key stays pending when no record of the request wrote it, or its removal was asked for
      rintro k (⟨⟨hp, hw⟩ | hin, hws⟩ | hin)
      · exact Or.inl ⟨hp, List.forall_mem_cons.2 ⟨hw, hws⟩⟩
      · exact Or.inr (List.mem_append_left _ hin)
      · exact Or.inr (List.mem_append_right _ hin)
    · intro req hreq
      rcases List.mem_append.1 hreq with hreq | hreq
      · exact hr₁ req hreq
      · exact hr₂ req hreq

end Settling

section Members

variable {cfg : LruConfig K V} {m : Member K V T}

/-- `perform_changes` runs to its end when the requests waiting are backend calls and every key the
heap does not track has its removal waiting; once they are all played out, the heap tracks every
key. The induction follows `performChanges`: each request keeps the invariant, with its answers
queued. -/
theorem performChanges_of_settling {now : T} {base : ℕ} (m : Member K V T)
    (current : ℕ) (queue : List (ChangeRequest K V))
    (hq : ∀ req ∈ queue, ∀ op ∈ req, op ≠ .ensureEmpty)
    (hs : Settling cfg base m.inner m.lastUsed current fun k => [.remove k] ∈ queue) :
    ∃ m' current', performChanges cfg now m current queue = some (m', current') ∧
      Settling cfg base m'.inner m'.lastUsed current' fun _ => False := by
  fun_induction performChanges cfg now m current queue with
  | case1 m current => exact ⟨m, current, rfl, hs.mono fun k hk => by simp at hk⟩
  | case2 m current req queue hreq =>
    rw [evalRequest_of_calls _ _ (hq req List.mem_cons_self)] at hreq
    cases hreq
  | case3 m current req queue inner records hreq hd =>
    obtain ⟨_, _, _, hd', -⟩ := hs.onDispatchAll now records
    rw [hd'] at hd
    cases hd
  | case4 m current req queue inner records hreq current' h reqs hd ih =>
    rw [evalRequest_of_calls _ _ (hq req List.mem_cons_self), Option.some.injEq,
      Prod.mk.injEq] at hreq
    obtain ⟨rfl, rfl⟩ := hreq
    obtain ⟨c', h', reqs', hd', hs', hr'⟩ := hs.onDispatchAll now _
    rw [hd, Option.some.injEq, Prod.mk.injEq, Prod.mk.injEq] at hd'
    obtain ⟨rfl, rfl, rfl⟩ := hd'
    refine ih (fun req' hreq' op hop => ?_) (hs'.mono ?_)
    · rcases List.mem_append.1 hreq' with hreq' | hreq'
      · exact hq req' (List.mem_cons_of_mem _ hreq') op hop
      · obtain ⟨k, rfl⟩ := hr' req' hreq'
        rw [List.mem_singleton.1 hop]
        simp
    · -- the removal a request was waiting for has now been made
      rintro k (⟨hin, hw⟩ | hin)
      · rcases List.mem_cons.1 hin with hreq | hin
        · subst hreq
          exact absurd rfl (hw (.remove k) (by simp [BackendOp.toRecord]))
        · exact List.mem_append_left _ hin
      · exact List.mem_append_right _ hin

/-- A tracked member is settled, with anything pending. -/
theorem Tracks.settling (ht : Tracks cfg m) {base current : ℕ}
    (hc : current = base + usage m.lastUsed) (P : K → Prop) :
    Settling cfg base m.inner m.lastUsed current P :=
  ⟨ht.synced, ht.fits, hc, fun k => Or.inl (ht.consistent k)⟩

/-- A member settled with nothing pending tracks its backend. -/
theorem Settling.tracks {base current : ℕ} {inner : AList (fun _ : K => V)}
    {h : AddressableHeap K ℕ T} (hs : Settling cfg base inner h current fun _ => False) :
    Tracks cfg ⟨inner, h⟩ :=
  ⟨hs.synced, hs.fits, fun k => (hs.consistent k).resolve_right id⟩

/-- A call on a tracked member, one request of backend calls, is played out to its end, and the
member tracks its backend again. -/
theorem performChanges_of_tracks {now : T}
    (ht : Tracks cfg m) {base current : ℕ} (hc : current = base + usage m.lastUsed)
    {req : ChangeRequest K V} (hreq : ∀ op ∈ req, op ≠ .ensureEmpty) :
    ∃ m' current', performChanges cfg now m current [req] = some (m', current') ∧
      Tracks cfg m' ∧ current' = base + usage m'.lastUsed := by
  obtain ⟨m', current', hpc, hs⟩ :=
    performChanges_of_settling m current [req] (by simpa using hreq) (ht.settling hc _)
  exact ⟨m', current', hpc, hs.tracks, hs.current_eq⟩

/-- The candidates of a tracked member are its entries, each fitting the pool. -/
theorem couldRemove_of_tracks (ht : Tracks cfg m) :
    ∃ l, couldRemove m.lastUsed = some l ∧ ∀ c ∈ l, c.2.1 ≤ cfg.limit := by
  obtain ⟨l, hiter, hget⟩ := iter_of_synced ht.synced
  refine ⟨_, by rw [couldRemove, hiter]; rfl, fun c hc => ?_⟩
  obtain ⟨⟨k, s, t⟩, hx, rfl⟩ := List.mem_map.1 hc
  exact ht.fits k s (by simp [hget _ hx])

end Members

/-! ### The pool's invariant -/

/-- The pool's invariant: every member tracks its backend, and the pool's `current` is the sum of
the consumptions in all members' heaps. -/
structure PoolState.Inv (cfg : LruConfig K V) (p : PoolState I K V T) : Prop where
  tracks : ∀ i m, p.members.lookup i = some m → Tracks cfg m
  current_eq : p.current = p.members.sumBy fun e => usage e.2.lastUsed

section Pool

variable {cfg : LruConfig K V} {p : PoolState I K V T} {m : Member K V T}

/-- A new member tracks its empty backend. -/
theorem tracks_new : Tracks cfg (⟨∅, AddressableHeap.new⟩ : Member K V T) :=
  ⟨synced_empty, by simp [AddressableHeap.new, AddressableHeap.get],
    fun k => by simp [Consistent, AddressableHeap.new, AddressableHeap.get]⟩

theorem lookup_fresh {ids : List I} {i : I}
    (h : (PoolState.fresh ids : PoolState I K V T).members.lookup i = some m) :
    m = ⟨∅, AddressableHeap.new⟩ := by
  induction ids with
  | nil => simp [PoolState.fresh] at h
  | cons j ids ih =>
    simp only [PoolState.fresh, List.foldr_cons] at h ih
    by_cases hij : i = j
    · subst hij
      rw [AList.lookup_insert, Option.some.injEq] at h
      exact h.symm
    · rw [AList.lookup_insert_ne hij] at h
      exact ih h

/-- The pool starts out empty. -/
theorem PoolState.inv_fresh (ids : List I) : (PoolState.fresh ids : PoolState I K V T).Inv cfg := by
  refine ⟨fun i m hm => lookup_fresh hm ▸ tracks_new, ?_⟩
  rw [AList.sumBy_eq_zero]
  · rfl
  · intro i m hm
    rw [lookup_fresh hm]
    rfl

/-- The other members' consumption is what `current` holds besides member `i`'s. -/
theorem PoolState.Inv.current_eq_of_lookup (hp : p.Inv cfg) {i : I}
    (hm : p.members.lookup i = some m) :
    p.current = (p.members.erase i).sumBy (fun e => usage e.2.lastUsed) + usage m.lastUsed := by
  rw [hp.current_eq, AList.sumBy_of_lookup _ hm]
  dsimp only
  omega

/-- A call on member `i` keeps the invariant. -/
theorem PoolState.Inv.update (hp : p.Inv cfg) (now : T) {i : I}
    (hm : p.members.lookup i = some m) (req : ChangeRequest K V)
    (hreq : ∀ op ∈ req, op ≠ .ensureEmpty) :
    ∃ m' current', performChanges cfg now m p.current [req] = some (m', current') ∧
      PoolState.Inv cfg ⟨current', p.members.insert i m'⟩ := by
  obtain ⟨m', current', hpc, ht', hc'⟩ :=
    performChanges_of_tracks (hp.tracks i m hm) (hp.current_eq_of_lookup hm) hreq
  refine ⟨m', current', hpc, fun j mj hj => ?_, ?_⟩
  · by_cases hji : j = i
    · subst hji
      rw [AList.lookup_insert, Option.some.injEq] at hj
      exact hj ▸ ht'
    · rw [AList.lookup_insert_ne hji] at hj
      exact hp.tracks j mj hj
  · rw [AList.sumBy_insert, hc']
    dsimp only
    omega

theorem PoolState.Inv.onMember (hp : p.Inv cfg) (now : T) (i : I) (req : ChangeRequest K V)
    (hreq : ∀ op ∈ req, op ≠ .ensureEmpty) :
    ∃ p', p.onMember cfg now i req = some p' ∧ p'.Inv cfg := by
  cases hm : p.members.lookup i with
  | none => exact ⟨p, by simp [PoolState.onMember, hm], hp⟩
  | some m =>
    obtain ⟨m', current', hpc, hp'⟩ := hp.update now hm req hreq
    exact ⟨_, by simp [PoolState.onMember, hm, hpc], hp'⟩

/-- `remove_keys` of a live member keeps the invariant, and the pool keeps its members. -/
theorem PoolState.Inv.removeKeys (hp : p.Inv cfg) (now : T) {i : I} (hi : i ∈ p.members)
    (keys : List K) :
    ∃ p', p.removeKeys cfg now i keys = some p' ∧ p'.Inv cfg ∧ ∀ j, j ∈ p'.members ↔ j ∈ p.members := by
  obtain ⟨m, hm⟩ := Option.isSome_iff_exists.1 (AList.lookup_isSome.2 hi)
  obtain ⟨m', current', hpc, hp'⟩ := hp.update now hm (keys.map .remove) (by simp)
  refine ⟨_, by simp [PoolState.removeKeys, hm, hpc], hp', fun j => ?_⟩
  rw [AList.mem_insert]
  constructor
  · rintro (rfl | hj)
    · exact hi
    · exact hj
  · exact Or.inr

/-- The loop of `Drop for LruPolicy` empties a heap in sync, adding up its consumption. -/
theorem popAll_of_synced (accu : ℕ) (h : AddressableHeap K ℕ T)
    (hs : Synced h.keyToOrderAndValue h.queue) : popAll accu h = some (accu + usage h) := by
  fun_induction popAll accu h with
  | case1 accu h hp =>
    rcases pop_of_synced hs with ⟨hp', -⟩ | ⟨_, _, _, _, -, hp', -⟩ <;> rw [hp'] at hp <;> cases hp
  | case2 accu h h' hp =>
    rcases pop_of_synced hs with ⟨-, hnone⟩ | ⟨_, _, _, _, -, hp', -⟩
    · rw [usage, AList.sumBy_eq_zero _ fun k e hk => by rw [hnone k] at hk; cases hk]
      rfl
    · rw [hp'] at hp
      cases hp
  | case3 accu h k s t h' hp ih =>
    rcases pop_of_synced hs with ⟨hp', -⟩ | ⟨k', v, o, q, hk', hp', hsq⟩
    · rw [hp'] at hp
      cases hp
    · rw [hp', Option.some.injEq, Prod.mk.injEq, Option.some.injEq] at hp
      obtain ⟨hx, rfl⟩ := hp
      obtain ⟨rfl, rfl, rfl⟩ : k' = k ∧ v = s ∧ o = t := by simpa using hx
      rw [ih hsq, Option.some.injEq, usage, usage, AList.sumBy_of_lookup _ hk']
      dsimp only
      omega

/-- Dropping a member's policy gives all its consumption back and keeps the invariant. -/
theorem PoolState.Inv.drop (hp : p.Inv cfg) (i : I) : ∃ p', p.drop i = some p' ∧ p'.Inv cfg := by
  cases hm : p.members.lookup i with
  | none => exact ⟨p, by simp [PoolState.drop, hm], hp⟩
  | some m =>
    have hc := hp.current_eq_of_lookup hm
    refine ⟨⟨p.current - usage m.lastUsed, p.members.erase i⟩, ?_, fun j mj hj => ?_, ?_⟩
    · simp [PoolState.drop, hm, popAll_of_synced 0 _ (hp.tracks i m hm).synced, resourceSub, hc]
    · by_cases hji : j = i
      · subst hji
        rw [AList.lookup_erase] at hj
        cases hj
      · rw [AList.lookup_erase_ne hji] at hj
        exact hp.tracks j mj hj
    · dsimp only
      omega

/-- The candidates of every member, as `clean_up_loop` collects them. -/
theorem PoolState.Inv.candidates (hp : p.Inv cfg) :
    ∃ iters, p.members.entries.mapM (fun e => (couldRemove e.2.lastUsed).map (e.1, ·)) = some iters ∧
      ∀ it ∈ iters, it.1 ∈ p.members ∧ ∀ c ∈ it.2, c.2.1 ≤ cfg.limit := by
  refine Simulation.mapM_of_forall _ _ fun e he => ?_
  have hm : p.members.lookup e.1 = some e.2 := AList.mem_lookup_iff.2 he
  obtain ⟨l, hl, hfit⟩ := couldRemove_of_tracks (hp.tracks _ _ hm)
  exact ⟨(e.1, l), by rw [hl]; rfl, AList.lookup_isSome.1 (by rw [hm]; rfl), hfit⟩

/-- A round of `clean_up_loop` keeps the invariant and never panics. -/
theorem PoolState.Inv.evictionRound (hp : p.Inv cfg) (now : T) :
    ∃ p', p.evictionRound cfg now = some p' ∧ p'.Inv cfg := by
  unfold PoolState.evictionRound
  split_ifs with hle hempty
  · exact ⟨p, rfl, hp⟩
  · exact ⟨p, rfl, hp⟩
  · obtain ⟨iters, hiters, hits⟩ := hp.candidates
    obtain ⟨victims, hv, hids⟩ :=
      selectVictims_spec cfg.limit p.current iters fun it hit => (hits it hit).2
    -- `remove_keys` keeps the pool's members, so every group's member is still there
    have hstep : ∀ (q : PoolState I K V T) (g : I × List K), g ∈ groupVictims victims →
        (q.Inv cfg ∧ ∀ j, j ∈ q.members ↔ j ∈ p.members) →
          ∃ q', q.removeKeys cfg now g.1 g.2 = some q' ∧
            (q'.Inv cfg ∧ ∀ j, j ∈ q'.members ↔ j ∈ p.members) := by
      rintro q ⟨i, keys⟩ hg hq
      have hi : i ∈ p.members := by
        obtain ⟨v, hvm, hvi⟩ := List.mem_map.1 (mem_groupVictims hg)
        obtain ⟨it, hit, hiti⟩ := List.mem_map.1 (hids v hvm)
        have hiti' : it.1 = i := hiti.trans hvi
        exact hiti' ▸ (hits it hit).1
      obtain ⟨q', hq', hinv, hmem⟩ := hq.1.removeKeys now ((hq.2 i).2 hi) keys
      exact ⟨q', hq', hinv, fun j => (hmem j).trans (hq.2 j)⟩
    obtain ⟨p', hfold, hp', -⟩ := Simulation.foldlM_of_invariant _ (groupVictims victims) p hstep
      ⟨hp, fun _ => Iff.rfl⟩
    exact ⟨p', by simp [hiters, hv, hfold], hp'⟩

/-- Every step of the pool keeps the invariant and never panics. -/
theorem PoolState.Inv.step (hp : p.Inv cfg) (op : PoolOp I K V T) :
    ∃ r p', p.step cfg op = some (r, p') ∧ p'.Inv cfg := by
  cases op with
  | get i k now =>
    obtain ⟨p', hp', hinv⟩ := hp.onMember now i [.get k] (by simp)
    exact ⟨(p'.members.lookup i).bind fun m => m.inner.lookup k, p',
      by simp [PoolState.step, hp'], hinv⟩
  | set i k v now =>
    obtain ⟨p', hp', hinv⟩ := hp.onMember now i [.set k v] (by simp)
    exact ⟨none, p', by simp [PoolState.step, hp'], hinv⟩
  | remove i k now =>
    obtain ⟨p', hp', hinv⟩ := hp.onMember now i [.remove k] (by simp)
    exact ⟨none, p', by simp [PoolState.step, hp'], hinv⟩
  | evict now =>
    obtain ⟨p', hp', hinv⟩ := hp.evictionRound now
    exact ⟨none, p', by simp [PoolState.step, hp'], hinv⟩
  | drop i =>
    obtain ⟨p', hp', hinv⟩ := hp.drop i
    exact ⟨none, p', by simp [PoolState.step, hp'], hinv⟩

end Pool

/-- Every run of calls on the members, eviction rounds and drops of policies, from a pool of new
members, goes through without a panic, so no subtraction of a resource underflows; at its end
every member's heap holds exactly the keys of its backend, each with the estimator's consumption
of the stored value, and the pool's `current` is the sum of the consumptions in all members'
heaps. -/
theorem run_keeps_pool_accounting (cfg : LruConfig K V) (ids : List I)
    (ops : List (PoolOp I K V T)) :
    ∃ results p, Simulation.runPartial (PoolState.step cfg) (PoolState.fresh ids) ops =
        some (results, p) ∧
      (∀ i m, p.members.lookup i = some m → ∀ k,
        (m.lastUsed.get k).map (·.1) = (m.inner.lookup k).map (cfg.consumption k)) ∧
      p.current = p.members.sumBy fun e => usage e.2.lastUsed := by
  obtain ⟨results, p, hrun, hp⟩ := Simulation.runPartial_of_invariant (PoolState.Inv cfg)
    (fun p op hp => hp.step op) ops _ (PoolState.inv_fresh ids)
  exact ⟨results, p, hrun, fun i m hm => (hp.tracks i m hm).consistent, hp.current_eq⟩

end IoxCore.CacheSystem

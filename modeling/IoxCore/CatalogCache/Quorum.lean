import Mathlib.Logic.Function.Basic
import Mathlib.Algebra.Group.Fin.Basic
import IoxCore.Lib.Transition

/-!
# Quorum reads and writes of the catalog cache

`catalog_cache::api::quorum`. Three nodes each keep a `CatalogCache` and serve it to the others.
Each runs a `QuorumCatalogCache` whose two replicas are the other two nodes. `put` inserts into
the local cache, then sends the value to both replicas, and returns `Ok` as soon as one replica
has taken it. `get` reads the local cache, then takes the first reply of the two replicas,
and the second one when the first does not settle the read. It answers with the newest value
that a quorum vouches for, and writes that value back to the local cache when the local one is
older. `CatalogCache::insert` keeps an entry's value unless the new one has a greater
generation, so no cache ever goes back.

## The model

A run interleaves atomic steps of a `Cluster`: the nodes' caches and every call in flight. A
call starts with its local part (the local read of `get`, the local insert of `put`). A replica
serves a request at a step of its own; the client sees the reply later, or a failure, which may
come after the request was served, as a timeout does. The `select` of the two replies takes any
reply that has arrived, and the rest of a call is one step. Dropping the `QuorumCatalogCache`
ends a `put` with `Cancelled`. The caches have no memory limit, so `insert` cannot fail, and
there is no delete or eviction.

Two fields are ghost state read by no step: `Cluster.returnedPuts`, each `put` that has
returned `Ok`, by key and generation, and `GetCall.putsBefore`, that record when the `get`
started.

## Results

* `Cluster.step_grows`: no step lowers the generation a cache holds for a key.
* `decideFirst_good` and `decideSecond_good`: the arms of `get` answer with a value at least as
  new as every put that a quorum of the nodes holds, given that the local value and the replies
  of the nodes in the quorum hold it.
* `Cluster.Inv`: every returned put is held by a quorum, and every `get` in flight has seen, for
  each put that had returned when it started, a quorum of nodes that hold it, with its local
  value and its replies from those nodes.
* `get_never_goes_back`: in every reachable state, a `get` that has returned answers
  with an error, or with a value whose generation is at least that of every `put` of its key that
  had returned `Ok` before the `get` started. It never answers `None` for such a key.
-/

namespace IoxCore.CatalogCache

variable {K D : Type}

/-- `CacheValue`: the data and its generation. -/
structure CacheValue (D : Type) where
  data : D
  generation : ℕ

/-- A node's `CatalogCache`: the value of each key. -/
abbrev Cache (K D : Type) := K → Option (CacheValue D)

/-- `CatalogCache::insert`: the value is stored unless the entry has the same or a greater
generation; whether it was stored. -/
def Cache.insert [DecidableEq K] (c : Cache K D) (key : K) (value : CacheValue D) : Bool × Cache K D :=
  match c key with
  | some old =>
    if value.generation ≤ old.generation then (false, c)
    else (true, Function.update c key (some value))
  | none => (true, Function.update c key (some value))

/-- The three nodes. -/
abbrev Node := Fin 3

/-- The replicas of node `n`: the other two nodes. -/
def replica (n : Node) (j : Fin 2) : Node := n + ⟨j.val + 1, by omega⟩

/-- The reply to a request to a replica: none yet, or what the client got (a failure is the
client's `Error`). -/
inductive Reply (α : Type)
  | pending
  | done (r : Except Unit α)

/-- `Error::Quorum` of `get`, with the generations it saw. -/
inductive GetError
  | quorum (generations : Option ℕ × Except Unit (Option ℕ) × Except Unit (Option ℕ))

/-- The errors `put` returns. -/
inductive PutError
  | noRemote
  | cancelled

/-- The generation a reply carries. -/
def replyGeneration (r : Except Unit (Option (CacheValue D))) : Except Unit (Option ℕ) :=
  r.map (Option.map CacheValue.generation)

/-- What `get` answers, with the value it writes back to the local cache. -/
abbrev GetOutcome (D : Type) := Except GetError (Option (CacheValue D)) × Option (CacheValue D)

/-- The first two arms of `get`, on the local value and the first reply; `none` sends it to the
second reply. -/
def decideFirst (localValue : Option (CacheValue D)) (r : Except Unit (Option (CacheValue D))) :
    Option (GetOutcome D) :=
  match localValue, r with
  | none, .ok none => some (.ok none, none)
  | some l, .ok (some r) =>
    if l.generation ≤ r.generation then
      -- preempt write from remote to local that arrives late
      some (.ok (some r), if l.generation < r.generation then some r else none)
    else none
  | _, _ => none

/-- `Error::Quorum`, with the generations of the local value and of the two replies. -/
def quorumError (localValue : Option (CacheValue D)) (r1 r2 : Except Unit (Option (CacheValue D))) :
    GetOutcome D :=
  (.error (.quorum (localValue.map CacheValue.generation, replyGeneration r1, replyGeneration r2)),
    none)

/-- The last two arms of `get`, once the first three did not match. -/
def decideLast (localValue : Option (CacheValue D)) (r1 r2 : Except Unit (Option (CacheValue D))) :
    GetOutcome D :=
  match r1, r2 with
  | .ok (some l), .ok (some r) =>
    if l.generation = r.generation then
      (.ok (some l),
        if (localValue.map fun x => decide (x.generation < l.generation)).getD true then some l
        else none)
    else quorumError localValue r1 r2
  | _, _ => quorumError localValue r1 r2

/-- The arms of `get` once both replies are in. -/
def decideSecond (localValue : Option (CacheValue D)) (r1 r2 : Except Unit (Option (CacheValue D))) :
    GetOutcome D :=
  match localValue, r1, r2 with
  | none, _, .ok none => (.ok none, none)
  | _, .ok none, .ok none => (.ok none, none)
  | some l, _, .ok (some r) =>
    if l.generation ≤ r.generation then
      (.ok (some r), if l.generation < r.generation then some r else none)
    else decideLast localValue r1 r2
  | _, _, _ => decideLast localValue r1 r2

/-- Where a `get` is: waiting for the first reply; waiting for the `other` reply after the
first one, `r1`; or returned. -/
inductive GetPhase (D : Type)
  | first
  | second (r1 : Except Unit (Option (CacheValue D))) (other : Fin 2)
  | returned (result : Except GetError (Option (CacheValue D)))

/-- A call of `QuorumCatalogCache::get`. -/
structure GetCall (K D : Type) where
  node : Node
  key : K
  localValue : Option (CacheValue D)
  replies : Fin 2 → Reply (Option (CacheValue D))
  phase : GetPhase D
  /-- Ghost: the puts that had returned `Ok` when the call started. -/
  putsBefore : List (K × ℕ)

/-- Where a `put` is: waiting for the first reply, waiting for the `other` one after a failed
first, or returned. -/
inductive PutPhase
  | first
  | second (other : Fin 2)
  | returned (result : Except PutError Unit)

/-- A call of `QuorumCatalogCache::put`. -/
structure PutCall (K D : Type) where
  node : Node
  key : K
  value : CacheValue D
  replies : Fin 2 → Reply Bool
  phase : PutPhase

/-- The three nodes and the calls in flight. -/
structure Cluster (K D : Type) where
  caches : Node → Cache K D
  gets : List (GetCall K D)
  puts : List (PutCall K D)
  /-- Ghost: the puts that have returned `Ok`, by key and generation. -/
  returnedPuts : List (K × ℕ)

/-- Empty caches, and nothing in flight. -/
def Cluster.init : Cluster K D := ⟨fun _ _ => none, [], [], []⟩

/-- One atomic step of a run. Calls are named by their place in `gets` or `puts`. -/
inductive Action (K D : Type)
  /-- `get` is called on node `n`: it reads the local cache. -/
  | startGet (n : Node) (key : K)
  /-- `put` is called on node `n`: it inserts into the local cache. -/
  | startPut (n : Node) (key : K) (value : CacheValue D)
  /-- Replica `j` of a `get` reads its cache and replies. -/
  | serveGet (i : ℕ) (j : Fin 2)
  /-- The request of a `get` to replica `j` fails. -/
  | failGet (i : ℕ) (j : Fin 2)
  /-- The `select` of a `get` takes the reply of replica `j`. -/
  | selectGet (i : ℕ) (j : Fin 2)
  /-- A `get` takes its other reply. -/
  | finishGet (i : ℕ)
  /-- Replica `j` of a `put` inserts the value and replies. -/
  | servePut (i : ℕ) (j : Fin 2)
  /-- The request of a `put` to replica `j` fails, after the replica inserted the value or not. -/
  | failPut (i : ℕ) (j : Fin 2) (applied : Bool)
  /-- The `select` of a `put` takes the reply of replica `j`. -/
  | selectPut (i : ℕ) (j : Fin 2)
  /-- A `put` takes its other reply. -/
  | finishPut (i : ℕ)
  /-- The shutdown token cancels the replication of a `put`. -/
  | cancelPut (i : ℕ)

namespace Cluster

variable [DecidableEq K]

/-- The caches with `value` inserted for `key` at node `n`. -/
def insertAt (s : Cluster K D) (n : Node) (key : K) (value : CacheValue D) : Node → Cache K D :=
  Function.update s.caches n ((s.caches n).insert key value).2

/-- The caches with what a `get` writes back at its node. -/
def writeBack (s : Cluster K D) (n : Node) (key : K) : Option (CacheValue D) → Node → Cache K D
  | none => s.caches
  | some value => s.insertAt n key value

/-- A `get` returns with an outcome. -/
def returnGet (s : Cluster K D) (i : ℕ) (c : GetCall K D) (outcome : GetOutcome D) :
    Cluster K D :=
  { s with
    caches := s.writeBack c.node c.key outcome.2
    gets := s.gets.set i { c with phase := .returned outcome.1 } }

/-- A `put` returns `Ok`. -/
def returnPutOk (s : Cluster K D) (i : ℕ) (p : PutCall K D) : Cluster K D :=
  { s with
    puts := s.puts.set i { p with phase := .returned (.ok ()) }
    returnedPuts := s.returnedPuts ++ [(p.key, p.value.generation)] }

/-- One step; `none` when the action cannot happen in this state. -/
def step (s : Cluster K D) : Action K D → Option (Cluster K D)
  | .startGet n key =>
    some { s with
      gets := s.gets ++ [⟨n, key, s.caches n key, fun _ => .pending, .first, s.returnedPuts⟩] }
  | .startPut n key value =>
    some { s with
      caches := s.insertAt n key value
      puts := s.puts ++ [⟨n, key, value, fun _ => .pending, .first⟩] }
  | .serveGet i j => do
    let c ← s.gets[i]?
    match c.replies j with
    | .pending =>
      let r := s.caches (replica c.node j) c.key
      some { s with gets := s.gets.set i { c with replies := Function.update c.replies j (.done (.ok r)) } }
    | .done _ => none
  | .failGet i j => do
    let c ← s.gets[i]?
    match c.replies j with
    | .pending =>
      some { s with gets := s.gets.set i { c with replies := Function.update c.replies j (.done (.error ())) } }
    | .done _ => none
  | .selectGet i j => do
    let c ← s.gets[i]?
    match c.phase, c.replies j with
    | .first, .done r =>
      match decideFirst c.localValue r with
      | some outcome => some (s.returnGet i c outcome)
      | none => some { s with gets := s.gets.set i { c with phase := .second r (1 - j) } }
    | _, _ => none
  | .finishGet i => do
    let c ← s.gets[i]?
    match c.phase with
    | .second r1 other =>
      match c.replies other with
      | .done r2 => some (s.returnGet i c (decideSecond c.localValue r1 r2))
      | .pending => none
    | _ => none
  | .servePut i j => do
    let p ← s.puts[i]?
    match p.replies j with
    | .pending =>
      let stored := ((s.caches (replica p.node j)).insert p.key p.value).1
      some { s with
        caches := s.insertAt (replica p.node j) p.key p.value
        puts := s.puts.set i { p with replies := Function.update p.replies j (.done (.ok stored)) } }
    | .done _ => none
  | .failPut i j applied => do
    let p ← s.puts[i]?
    match p.replies j with
    | .pending =>
      some { s with
        caches := if applied then s.insertAt (replica p.node j) p.key p.value else s.caches
        puts := s.puts.set i { p with replies := Function.update p.replies j (.done (.error ())) } }
    | .done _ => none
  | .selectPut i j => do
    let p ← s.puts[i]?
    match p.phase, p.replies j with
    | .first, .done (.ok _) => some (s.returnPutOk i p)
    | .first, .done (.error ()) => some { s with puts := s.puts.set i { p with phase := .second (1 - j) } }
    | _, _ => none
  | .finishPut i => do
    let p ← s.puts[i]?
    match p.phase with
    | .second other =>
      match p.replies other with
      | .done (.ok _) => some (s.returnPutOk i p)
      | .done (.error ()) =>
        some { s with puts := s.puts.set i { p with phase := .returned (.error .noRemote) } }
      | .pending => none
    | _ => none
  | .cancelPut i => do
    let p ← s.puts[i]?
    match p.phase with
    | .returned _ => none
    | _ => some { s with puts := s.puts.set i { p with phase := .returned (.error .cancelled) } }

end Cluster

/-! ## Generations held -/

/-- A value is there, at generation `g` or newer. -/
def AtLeast (v : Option (CacheValue D)) (g : ℕ) : Prop := ∃ x, v = some x ∧ g ≤ x.generation

/-- A reply or a result, when it is `Ok`, has a value at generation `g` or newer. -/
def OkAtLeast {ε : Type} (r : Except ε (Option (CacheValue D))) (g : ℕ) : Prop :=
  ∀ v, r = .ok v → AtLeast v g

@[simp] theorem atLeast_none (g : ℕ) : ¬AtLeast (none : Option (CacheValue D)) g := by
  simp [AtLeast]

@[simp] theorem atLeast_some (x : CacheValue D) (g : ℕ) : AtLeast (some x) g ↔ g ≤ x.generation := by
  simp [AtLeast]

/-- `c'` holds every key at the generation `c` holds it, or a newer one. -/
def Cache.Le (c c' : Cache K D) : Prop := ∀ key g, AtLeast (c key) g → AtLeast (c' key) g

/-- No node's cache went back. -/
def Grows (caches caches' : Node → Cache K D) : Prop := ∀ n, (caches n).Le (caches' n)

/-- Two distinct nodes hold `key` at generation `g` or newer. -/
def Quorum (caches : Node → Cache K D) (key : K) (g : ℕ) : Prop :=
  ∃ a b, a ≠ b ∧ AtLeast (caches a key) g ∧ AtLeast (caches b key) g

/-- `insert` never lowers a generation. -/
theorem Cache.le_insert [DecidableEq K] (c : Cache K D) (key : K) (value : CacheValue D) :
    c.Le (c.insert key value).2 := by
  intro key' g h
  by_cases hk : key' = key
  · subst hk
    obtain ⟨x, hx, hg⟩ := h
    simp only [Cache.insert, hx]
    split_ifs with hle
    · exact ⟨x, hx, hg⟩
    · simp only [Function.update_self, atLeast_some]
      omega
  · unfold Cache.insert
    split
    · split_ifs <;> simpa [Function.update_of_ne hk] using h
    · simpa [Function.update_of_ne hk] using h

/-- After `insert`, the key is held at the inserted generation or a newer one. -/
theorem Cache.atLeast_insert [DecidableEq K] (c : Cache K D) (key : K) (value : CacheValue D) :
    AtLeast ((c.insert key value).2 key) value.generation := by
  unfold Cache.insert
  split
  · rename_i old hold
    split_ifs with hle
    · exact ⟨old, hold, hle⟩
    · simp
  · simp

theorem Grows.refl (caches : Node → Cache K D) : Grows caches caches := fun _ _ _ h => h

theorem grows_update {caches : Node → Cache K D} {n : Node} {c : Cache K D}
    (h : (caches n).Le c) : Grows caches (Function.update caches n c) := by
  intro m
  by_cases hm : m = n
  · subst hm
    simpa using h
  · rw [Function.update_of_ne hm]
    exact fun _ _ h => h

theorem Quorum.mono {caches caches' : Node → Cache K D} {key : K} {g : ℕ}
    (hle : Grows caches caches') (h : Quorum caches key g) : Quorum caches' key g := by
  obtain ⟨a, b, hab, ha, hb⟩ := h
  exact ⟨a, b, hab, hle a _ _ ha, hle b _ _ hb⟩

namespace Cluster

variable [DecidableEq K]

theorem grows_insertAt (s : Cluster K D) (n : Node) (key : K) (value : CacheValue D) :
    Grows s.caches (s.insertAt n key value) :=
  grows_update ((s.caches n).le_insert key value)

theorem atLeast_insertAt (s : Cluster K D) (n : Node) (key : K) (value : CacheValue D) :
    AtLeast (s.insertAt n key value n key) value.generation := by
  simpa [insertAt] using (s.caches n).atLeast_insert key value

theorem grows_writeBack (s : Cluster K D) (n : Node) (key : K) :
    ∀ v, Grows s.caches (s.writeBack n key v)
  | none => Grows.refl _
  | some value => s.grows_insertAt n key value

end Cluster

/-! ## Three nodes -/

theorem replica_ne (n : Node) (j : Fin 2) : replica n j ≠ n := by
  revert n j
  decide

/-- Of two distinct nodes of the three, one is the caller and the other one of its replicas, or
they are its two replicas. -/
theorem quorum_cases {a b : Node} (hab : a ≠ b) (n : Node) :
    ((a = n ∨ b = n) ∧ ∃ j, replica n j = a ∨ replica n j = b) ∨
      ∀ j, replica n j = a ∨ replica n j = b := by
  revert a b n
  decide

theorem eq_or_eq_one_sub (j other : Fin 2) : j = other ∨ j = 1 - other := by
  revert j other
  decide

/-! ## The arms of `get`

Each arm answers with a value at least as new as a put that a quorum holds, given what the
quorum told the call: the local value when the caller is in the quorum, and the replies of the
replicas in it. The arm that answers from the first reply alone is the one that needs the
caller's local value. -/

section Arms

variable {localValue : Option (CacheValue D)} {r r1 r2 : Except Unit (Option (CacheValue D))}
  {g : ℕ}

/-- Some node of any quorum is a replica, so a reply `Ok(None)` from both replicas cannot be. -/
theorem not_okAtLeast_none : ¬OkAtLeast (.ok none : Except Unit (Option (CacheValue D))) g :=
  fun h => by simpa using h none rfl

theorem okAtLeast_quorumError (localValue : Option (CacheValue D)) (r1 r2 : Except Unit (Option (CacheValue D))) :
    OkAtLeast (quorumError localValue r1 r2).1 g := by
  rintro _ ⟨⟩

theorem decideFirst_good {outcome : GetOutcome D} (h : decideFirst localValue r = some outcome)
    (hq : AtLeast localValue g ∨ OkAtLeast r g) : OkAtLeast outcome.1 g := by
  unfold decideFirst at h
  split at h
  · -- the caller has no value and the replica none: neither can be in the quorum
    rcases hq with hl | hr
    · simp at hl
    · exact absurd hr not_okAtLeast_none
  · rename_i l v
    by_cases hle : l.generation ≤ v.generation
    · rw [if_pos hle] at h
      obtain rfl := Option.some.inj h
      rintro _ ⟨⟩
      rcases hq with hl | hr
      · simp only [atLeast_some] at hl ⊢
        omega
      · exact hr _ rfl
    · rw [if_neg hle] at h
      cases h
  · cases h

theorem decideLast_good (hq : OkAtLeast r1 g ∨ OkAtLeast r2 g) :
    OkAtLeast (decideLast localValue r1 r2).1 g := by
  unfold decideLast
  split
  · rename_i l v
    by_cases heq : l.generation = v.generation
    · -- both replicas answered the same generation, so the one in the quorum vouches for it
      rw [if_pos heq]
      rintro _ ⟨⟩
      rcases hq with h1 | h2
      · exact h1 _ rfl
      · have := h2 _ rfl
        simp only [atLeast_some] at this ⊢
        omega
    · rw [if_neg heq]
      exact okAtLeast_quorumError _ _ _
  · exact okAtLeast_quorumError _ _ _

theorem decideSecond_good
    (hq : (AtLeast localValue g ∧ (OkAtLeast r1 g ∨ OkAtLeast r2 g)) ∨
      (OkAtLeast r1 g ∧ OkAtLeast r2 g)) :
    OkAtLeast (decideSecond localValue r1 r2).1 g := by
  have hreply : OkAtLeast r1 g ∨ OkAtLeast r2 g := by
    rcases hq with ⟨-, h⟩ | ⟨h, -⟩
    exacts [h, .inl h]
  unfold decideSecond
  split
  · -- no local value: the quorum is the two replicas, and the second said `None`
    rcases hq with ⟨hl, -⟩ | ⟨-, h2⟩
    · simp at hl
    · exact absurd h2 not_okAtLeast_none
  · rcases hreply with h | h <;> exact absurd h not_okAtLeast_none
  · rename_i l v
    by_cases hle : l.generation ≤ v.generation
    · rw [if_pos hle]
      rintro _ ⟨⟩
      rcases hq with ⟨hl, -⟩ | ⟨-, h2⟩
      · simp only [atLeast_some] at hl ⊢
        omega
      · exact h2 _ rfl
    · rw [if_neg hle]
      exact decideLast_good hreply
  · exact decideLast_good hreply

end Arms

/-! ## What each call has seen -/

/-- Node `n` holds generation `g` of the key of a `get`, and so does what the call has read
from it: the local value when `n` is the call's node, the reply when it is a replica that
answered. -/
def GetCall.Vouches (caches : Node → Cache K D) (c : GetCall K D) (g : ℕ) (n : Node) : Prop :=
  AtLeast (caches n c.key) g ∧ (n = c.node → AtLeast c.localValue g) ∧
    ∀ j r, replica c.node j = n → c.replies j = .done r → OkAtLeast r g

/-- The invariant of a `get` in flight: each put that had returned when it started is held by
a quorum that vouches for it; in the second phase the first reply is the one of the replica
not waited for; and a returned call answered no older than any of those puts. -/
structure GetCall.Inv (caches : Node → Cache K D) (c : GetCall K D) : Prop where
  quorum : ∀ g, (c.key, g) ∈ c.putsBefore →
    ∃ a b, a ≠ b ∧ c.Vouches caches g a ∧ c.Vouches caches g b
  second : ∀ r1 other, c.phase = .second r1 other → c.replies (1 - other) = .done r1
  returned : ∀ result, c.phase = .returned result →
    ∀ g, (c.key, g) ∈ c.putsBefore → OkAtLeast result g

/-- The invariant of a `put` in flight: its node holds its value, and so does each replica that
acknowledged it. -/
structure PutCall.Inv (caches : Node → Cache K D) (p : PutCall K D) : Prop where
  atNode : AtLeast (caches p.node p.key) p.value.generation
  atReplicas : ∀ j b, p.replies j = .done (.ok b) →
    AtLeast (caches (replica p.node j) p.key) p.value.generation

variable {j : Fin 2} {c : GetCall K D} {p : PutCall K D} {n : Node}

section Calls

variable {caches caches' : Node → Cache K D} {g : ℕ}

theorem GetCall.Vouches.mono (hle : Grows caches caches')
    (h : c.Vouches caches g n) : c.Vouches caches' g n :=
  ⟨hle n _ _ h.1, h.2⟩

/-- A quorum that vouches for a put covers the caller's local value and one reply, or both
replies. -/
theorem GetCall.Vouches.cover {a b : Node} (hab : a ≠ b)
    (ha : c.Vouches caches g a) (hb : c.Vouches caches g b) :
    (AtLeast c.localValue g ∧ ∃ j, ∀ r, c.replies j = .done r → OkAtLeast r g) ∨
      ∀ j r, c.replies j = .done r → OkAtLeast r g := by
  rcases quorum_cases hab c.node with ⟨hn, j, hj⟩ | hall
  · refine .inl ⟨?_, j, fun r hr => ?_⟩
    · rcases hn with rfl | rfl
      exacts [ha.2.1 rfl, hb.2.1 rfl]
    · rcases hj with hj | hj
      exacts [ha.2.2 j r hj hr, hb.2.2 j r hj hr]
  · refine .inr fun j r hr => ?_
    rcases hall j with hj | hj
    exacts [ha.2.2 j r hj hr, hb.2.2 j r hj hr]

theorem GetCall.Inv.mono (hle : Grows caches caches') (h : c.Inv caches) : c.Inv caches' := by
  refine ⟨fun g hg => ?_, h.second, h.returned⟩
  obtain ⟨a, b, hab, ha, hb⟩ := h.quorum g hg
  exact ⟨a, b, hab, ha.mono hle, hb.mono hle⟩

/-- A new `get` read its local value from its node's cache and has no reply yet. -/
theorem GetCall.inv_start {key : K} {ps : List (K × ℕ)}
    (hps : ∀ g, (key, g) ∈ ps → Quorum caches key g) :
    GetCall.Inv caches ⟨n, key, caches n key, fun _ => .pending, .first, ps⟩ := by
  have hv : ∀ g a, AtLeast (caches a key) g →
      GetCall.Vouches caches ⟨n, key, caches n key, fun _ => .pending, .first, ps⟩ g a :=
    fun _ _ ha => ⟨ha, fun hn => by subst hn; exact ha, fun _ _ _ hr => by cases hr⟩
  refine ⟨fun g hg => ?_, fun _ _ h => (by cases h), fun _ h => (by cases h)⟩
  obtain ⟨a, b, hab, ha, hb⟩ := hps g hg
  exact ⟨a, b, hab, hv g a ha, hv g b hb⟩

/-- A replica's reply keeps the invariant when it is no older than what the replica holds. -/
theorem GetCall.Inv.setReply {r : Except Unit (Option (CacheValue D))}
    (h : c.Inv caches) (hpending : c.replies j = .pending)
    (hr : ∀ g, AtLeast (caches (replica c.node j) c.key) g → OkAtLeast r g) :
    GetCall.Inv caches { c with replies := Function.update c.replies j (.done r) } := by
  have hv : ∀ g n, c.Vouches caches g n →
      GetCall.Vouches caches { c with replies := Function.update c.replies j (.done r) } g n := by
    intro g n hn
    refine ⟨hn.1, hn.2.1, fun j' r' hj' hr' => ?_⟩
    by_cases hjj : j' = j
    · subst hjj
      obtain rfl : r = r' := by simpa using hr'
      exact hr g (hj' ▸ hn.1)
    · simp only [Function.update_of_ne hjj] at hr'
      exact hn.2.2 j' r' hj' hr'
  refine ⟨fun g hg => ?_, fun r1 other hph => ?_, h.returned⟩
  · obtain ⟨a, b, hab, ha, hb⟩ := h.quorum g hg
    exact ⟨a, b, hab, hv g a ha, hv g b hb⟩
  · -- the first reply is in already, so it is not the one that arrives now
    have h1 := h.second r1 other hph
    have hne : 1 - other ≠ j := fun he => by rw [he, hpending] at h1; cases h1
    simpa [Function.update_of_ne hne] using h1

/-- The `select` of a `get` that falls through to the other reply. -/
theorem GetCall.Inv.toSecond {r : Except Unit (Option (CacheValue D))}
    (h : c.Inv caches) (hr : c.replies j = .done r) :
    GetCall.Inv caches { c with phase := .second r (1 - j) } := by
  refine ⟨h.quorum, fun r1 other hph => ?_, fun _ hph => (by cases hph)⟩
  obtain ⟨rfl, rfl⟩ : r = r1 ∧ 1 - j = other := by simpa using hph
  simpa [sub_sub_cancel] using hr

/-- A `get` that returns an outcome no older than the puts it must see. -/
theorem GetCall.Inv.toReturned {result : Except GetError (Option (CacheValue D))}
    (h : c.Inv caches) (hle : Grows caches caches')
    (hgood : ∀ g, (c.key, g) ∈ c.putsBefore → OkAtLeast result g) :
    GetCall.Inv caches' { c with phase := .returned result } := by
  refine ⟨(h.mono hle).quorum, fun _ _ hph => (by cases hph), fun result' hph => ?_⟩
  obtain rfl : result = result' := by simpa using hph
  exact hgood

/-- The first two arms, on the reply the `select` took. -/
theorem GetCall.Inv.decideFirst_good
    {r : Except Unit (Option (CacheValue D))} {outcome : GetOutcome D} (h : c.Inv caches)
    (hr : c.replies j = .done r) (hd : decideFirst c.localValue r = some outcome) :
    ∀ g, (c.key, g) ∈ c.putsBefore → OkAtLeast outcome.1 g := by
  intro g hg
  obtain ⟨a, b, hab, ha, hb⟩ := h.quorum g hg
  refine IoxCore.CatalogCache.decideFirst_good hd ?_
  rcases GetCall.Vouches.cover hab ha hb with ⟨hl, -⟩ | hall
  exacts [.inl hl, .inr (hall j r hr)]

/-- The arms once both replies are in. -/
theorem GetCall.Inv.decideSecond_good {other : Fin 2}
    {r1 r2 : Except Unit (Option (CacheValue D))} (h : c.Inv caches)
    (hph : c.phase = .second r1 other) (hr2 : c.replies other = .done r2) :
    ∀ g, (c.key, g) ∈ c.putsBefore → OkAtLeast (decideSecond c.localValue r1 r2).1 g := by
  intro g hg
  have hr1 := h.second r1 other hph
  obtain ⟨a, b, hab, ha, hb⟩ := h.quorum g hg
  refine IoxCore.CatalogCache.decideSecond_good ?_
  rcases GetCall.Vouches.cover hab ha hb with ⟨hl, j, hj⟩ | hall
  · -- the replica in the quorum is the one waited for, or the one that answered first
    refine .inl ⟨hl, ?_⟩
    rcases eq_or_eq_one_sub j other with rfl | rfl
    exacts [.inr (hj r2 hr2), .inl (hj r1 hr1)]
  · exact .inr ⟨hall _ r1 hr1, hall other r2 hr2⟩

theorem PutCall.Inv.mono (hle : Grows caches caches') (h : p.Inv caches) : p.Inv caches' :=
  ⟨hle _ _ _ h.atNode, fun j b hj => hle _ _ _ (h.atReplicas j b hj)⟩

/-- A put acknowledged by a replica is held by a quorum: its node and that replica. -/
theorem PutCall.Inv.quorum {b : Bool} (h : p.Inv caches)
    (hj : p.replies j = .done (.ok b)) : Quorum caches p.key p.value.generation :=
  ⟨p.node, replica p.node j, (replica_ne p.node j).symm, h.atNode, h.atReplicas j b hj⟩

/-- The invariant of a put does not read its phase. -/
theorem PutCall.Inv.setPhase (h : p.Inv caches) (phase : PutPhase) :
    PutCall.Inv caches { p with phase := phase } :=
  ⟨h.atNode, h.atReplicas⟩

/-- A reply to a put keeps the invariant when the replica holds the value if it acknowledged. -/
theorem PutCall.Inv.setReply {r : Except Unit Bool} (h : p.Inv caches) (hle : Grows caches caches')
    (hr : ∀ b, r = .ok b → AtLeast (caches' (replica p.node j) p.key) p.value.generation) :
    PutCall.Inv caches' { p with replies := Function.update p.replies j (.done r) } := by
  refine ⟨hle _ _ _ h.atNode, fun j' b hj' => ?_⟩
  by_cases hjj : j' = j
  · subst hjj
    exact hr b (by simpa using hj')
  · simp only [Function.update_of_ne hjj] at hj'
    exact hle _ _ _ (h.atReplicas j' b hj')

end Calls

/-! ## The cluster invariant -/

namespace Cluster

/-- Every returned put is held by a quorum, and every call in flight keeps its invariant. -/
structure Inv (s : Cluster K D) : Prop where
  returned : ∀ key g, (key, g) ∈ s.returnedPuts → Quorum s.caches key g
  gets : ∀ c ∈ s.gets, c.Inv s.caches
  puts : ∀ p ∈ s.puts, p.Inv s.caches

theorem inv_init : (Cluster.init : Cluster K D).Inv :=
  ⟨fun _ _ h => (by cases h), fun _ h => (by cases h), fun _ h => (by cases h)⟩

variable {s s' : Cluster K D}

/-- The invariant carries over to a state whose caches grew, when each returned put and each
call of it is an old one or keeps the invariant. -/
theorem Inv.of_grows (hs : s.Inv) (hle : Grows s.caches s'.caches)
    (hret : ∀ key g, (key, g) ∈ s'.returnedPuts → (key, g) ∈ s.returnedPuts ∨ Quorum s'.caches key g)
    (hgets : ∀ c ∈ s'.gets, c ∈ s.gets ∨ c.Inv s'.caches)
    (hputs : ∀ p ∈ s'.puts, p ∈ s.puts ∨ p.Inv s'.caches) : s'.Inv := by
  refine ⟨fun key g hg => ?_, fun c hc => ?_, fun p hp => ?_⟩
  · rcases hret key g hg with h | h
    exacts [(hs.returned key g h).mono hle, h]
  · rcases hgets c hc with h | h
    exacts [(hs.gets c h).mono hle, h]
  · rcases hputs p hp with h | h
    exacts [(hs.puts p h).mono hle, h]

theorem mem_set_or {α : Type} {l : List α} {i : ℕ} {x y : α} (P : α → Prop) (hP : P y)
    (h : x ∈ l.set i y) : x ∈ l ∨ P x := by
  rcases List.mem_or_eq_of_mem_set h with h | rfl
  exacts [.inl h, .inr hP]

/-- A get call replaced by one that keeps the invariant. -/
theorem Inv.setGet (hs : s.Inv) {caches : Node → Cache K D} (hle : Grows s.caches caches)
    {i : ℕ} (hc : c.Inv caches) :
    Inv { s with caches := caches, gets := s.gets.set i c } :=
  hs.of_grows hle (fun _ _ h => .inl h) (fun _ h => mem_set_or _ hc h) (fun _ h => .inl h)

/-- A put call replaced by one that keeps the invariant. -/
theorem Inv.setPut (hs : s.Inv) {caches : Node → Cache K D} (hle : Grows s.caches caches)
    {i : ℕ} (hp : p.Inv caches) :
    Inv { s with caches := caches, puts := s.puts.set i p } :=
  hs.of_grows hle (fun _ _ h => .inl h) (fun _ h => .inl h) (fun _ h => mem_set_or _ hp h)

/-- A put returns `Ok` after a replica acknowledged it. -/
theorem Inv.returnPutOk (hs : s.Inv) {i : ℕ} (hp : s.puts[i]? = some p)
    {b : Bool} (hj : p.replies j = .done (.ok b)) : (s.returnPutOk i p).Inv := by
  have hinv := hs.puts p (List.mem_of_getElem? hp)
  unfold Cluster.returnPutOk
  refine hs.of_grows (Grows.refl _) (fun key g hg => ?_) (fun _ h => .inl h)
    (fun _ h => mem_set_or _ (hinv.setPhase _) h)
  rcases List.mem_append.1 hg with h | h
  · exact .inl h
  · obtain ⟨rfl, rfl⟩ : key = p.key ∧ g = p.value.generation := by simpa using h
    exact .inr (hinv.quorum hj)

/-! ### What each action does -/

section Steps

variable [DecidableEq K] {i : ℕ}

theorem step_serveGet (h : s.step (.serveGet i j) = some s') :
    ∃ c, s.gets[i]? = some c ∧ c.replies j = .pending ∧
      s' = { s with
        gets := s.gets.set i { c with
          replies := Function.update c.replies j (.done (.ok (s.caches (replica c.node j) c.key))) } } := by
  simp only [step, Option.bind_eq_bind, Option.bind_eq_some_iff] at h
  obtain ⟨c, hc, h⟩ := h
  split at h
  · exact ⟨c, hc, ‹_›, (Option.some.inj h).symm⟩
  · cases h

theorem step_startGet {key : K} (h : s.step (.startGet n key) = some s') : s' = { s with
      gets := s.gets ++ [⟨n, key, s.caches n key, fun _ => .pending, .first, s.returnedPuts⟩] } :=
  (Option.some.inj h).symm

theorem step_startPut {key : K} {value : CacheValue D}
    (h : s.step (.startPut n key value) = some s') :
    s' = { s with
      caches := s.insertAt n key value
      puts := s.puts ++ [⟨n, key, value, fun _ => .pending, .first⟩] } :=
  (Option.some.inj h).symm

theorem step_failGet (h : s.step (.failGet i j) = some s') :
    ∃ c, s.gets[i]? = some c ∧ c.replies j = .pending ∧
      s' = { s with
        gets := s.gets.set i { c with replies := Function.update c.replies j (.done (.error ())) } } := by
  simp only [step, Option.bind_eq_bind, Option.bind_eq_some_iff] at h
  obtain ⟨c, hc, h⟩ := h
  split at h
  · exact ⟨c, hc, ‹_›, (Option.some.inj h).symm⟩
  · cases h

theorem step_selectGet (h : s.step (.selectGet i j) = some s') :
    ∃ c r, s.gets[i]? = some c ∧ c.phase = .first ∧ c.replies j = .done r ∧
      ((∃ outcome, decideFirst c.localValue r = some outcome ∧ s' = s.returnGet i c outcome) ∨
        (decideFirst c.localValue r = none ∧
          s' = { s with gets := s.gets.set i { c with phase := .second r (1 - j) } })) := by
  simp only [step, Option.bind_eq_bind, Option.bind_eq_some_iff] at h
  obtain ⟨c, hc, h⟩ := h
  split at h
  · rename_i r hph hr
    refine ⟨c, r, hc, hph, hr, ?_⟩
    split at h
    · exact .inl ⟨_, ‹_›, (Option.some.inj h).symm⟩
    · exact .inr ⟨‹_›, (Option.some.inj h).symm⟩
  · cases h

theorem step_finishGet (h : s.step (.finishGet i) = some s') :
    ∃ c r1 other r2, s.gets[i]? = some c ∧ c.phase = .second r1 other ∧
      c.replies other = .done r2 ∧ s' = s.returnGet i c (decideSecond c.localValue r1 r2) := by
  simp only [step, Option.bind_eq_bind, Option.bind_eq_some_iff] at h
  obtain ⟨c, hc, h⟩ := h
  split at h
  · rename_i r1 other hph
    split at h
    · exact ⟨c, r1, other, _, hc, hph, ‹_›, (Option.some.inj h).symm⟩
    · cases h
  · cases h

theorem step_servePut (h : s.step (.servePut i j) = some s') :
    ∃ p, s.puts[i]? = some p ∧ p.replies j = .pending ∧
      s' = { s with
        caches := s.insertAt (replica p.node j) p.key p.value
        puts := s.puts.set i { p with
          replies := Function.update p.replies j
            (.done (.ok ((s.caches (replica p.node j)).insert p.key p.value).1)) } } := by
  simp only [step, Option.bind_eq_bind, Option.bind_eq_some_iff] at h
  obtain ⟨p, hp, h⟩ := h
  split at h
  · exact ⟨p, hp, ‹_›, (Option.some.inj h).symm⟩
  · cases h

theorem step_failPut {applied : Bool} (h : s.step (.failPut i j applied) = some s') :
    ∃ p, s.puts[i]? = some p ∧ p.replies j = .pending ∧
      s' = { s with
        caches := if applied then s.insertAt (replica p.node j) p.key p.value else s.caches
        puts := s.puts.set i { p with replies := Function.update p.replies j (.done (.error ())) } } := by
  simp only [step, Option.bind_eq_bind, Option.bind_eq_some_iff] at h
  obtain ⟨p, hp, h⟩ := h
  split at h
  · exact ⟨p, hp, ‹_›, (Option.some.inj h).symm⟩
  · cases h

theorem step_selectPut (h : s.step (.selectPut i j) = some s') :
    ∃ p r, s.puts[i]? = some p ∧ p.phase = .first ∧ p.replies j = .done r ∧
      ((∃ b, r = .ok b ∧ s' = s.returnPutOk i p) ∨
        (r = .error () ∧ s' = { s with puts := s.puts.set i { p with phase := .second (1 - j) } })) := by
  simp only [step, Option.bind_eq_bind, Option.bind_eq_some_iff] at h
  obtain ⟨p, hp, h⟩ := h
  split at h
  · exact ⟨p, _, hp, ‹_›, ‹_›, .inl ⟨_, rfl, (Option.some.inj h).symm⟩⟩
  · exact ⟨p, _, hp, ‹_›, ‹_›, .inr ⟨rfl, (Option.some.inj h).symm⟩⟩
  · cases h

theorem step_finishPut (h : s.step (.finishPut i) = some s') :
    ∃ p other r, s.puts[i]? = some p ∧ p.phase = .second other ∧ p.replies other = .done r ∧
      ((∃ b, r = .ok b ∧ s' = s.returnPutOk i p) ∨
        (r = .error () ∧
          s' = { s with puts := s.puts.set i { p with phase := .returned (.error .noRemote) } })) := by
  simp only [step, Option.bind_eq_bind, Option.bind_eq_some_iff] at h
  obtain ⟨p, hp, h⟩ := h
  split at h
  · rename_i other hph
    split at h
    · exact ⟨p, other, _, hp, hph, ‹_›, .inl ⟨_, rfl, (Option.some.inj h).symm⟩⟩
    · exact ⟨p, other, _, hp, hph, ‹_›, .inr ⟨rfl, (Option.some.inj h).symm⟩⟩
    · cases h
  · cases h

theorem step_cancelPut (h : s.step (.cancelPut i) = some s') :
    ∃ p, s.puts[i]? = some p ∧ (∀ result, p.phase ≠ .returned result) ∧
      s' = { s with puts := s.puts.set i { p with phase := .returned (.error .cancelled) } } := by
  simp only [step, Option.bind_eq_bind, Option.bind_eq_some_iff] at h
  obtain ⟨p, hp, h⟩ := h
  split at h
  · cases h
  · exact ⟨p, hp, ‹_›, (Option.some.inj h).symm⟩

/-- No step lowers the generation a cache holds for a key: every change to a cache is an
`insert`. -/
theorem step_grows {a : Action K D} (h : s.step a = some s') : Grows s.caches s'.caches := by
  cases a with
  | startGet n key => rw [step_startGet h]; exact Grows.refl _
  | startPut n key value => rw [step_startPut h]; exact s.grows_insertAt n key value
  | serveGet i j =>
    obtain ⟨c, -, -, rfl⟩ := step_serveGet h
    exact Grows.refl _
  | failGet i j =>
    obtain ⟨c, -, -, rfl⟩ := step_failGet h
    exact Grows.refl _
  | selectGet i j =>
    obtain ⟨c, r, -, -, -, ⟨outcome, -, rfl⟩ | ⟨-, rfl⟩⟩ := step_selectGet h
    · exact s.grows_writeBack _ _ _
    · exact Grows.refl _
  | finishGet i =>
    obtain ⟨c, r1, other, r2, -, -, -, rfl⟩ := step_finishGet h
    exact s.grows_writeBack _ _ _
  | servePut i j =>
    obtain ⟨p, -, -, rfl⟩ := step_servePut h
    exact s.grows_insertAt _ _ _
  | failPut i j applied =>
    obtain ⟨p, -, -, rfl⟩ := step_failPut h
    cases applied
    · exact Grows.refl _
    · exact s.grows_insertAt _ _ _
  | selectPut i j =>
    obtain ⟨p, r, -, -, -, ⟨b, -, rfl⟩ | ⟨-, rfl⟩⟩ := step_selectPut h <;> exact Grows.refl _
  | finishPut i =>
    obtain ⟨p, other, r, -, -, -, ⟨b, -, rfl⟩ | ⟨-, rfl⟩⟩ := step_finishPut h <;> exact Grows.refl _
  | cancelPut i =>
    obtain ⟨p, -, -, rfl⟩ := step_cancelPut h
    exact Grows.refl _

/-- Every step keeps the invariant. -/
theorem Inv.step (hs : s.Inv) {a : Action K D} (h : s.step a = some s') : s'.Inv := by
  cases a with
  | startGet n key =>
    -- the new call sees the puts returned so far, each held by a quorum
    rw [step_startGet h]
    refine hs.of_grows (Grows.refl _) (fun _ _ h => .inl h) (fun c hc => ?_) (fun _ h => .inl h)
    rcases List.mem_append.1 hc with hc | hc
    · exact .inl hc
    · rw [List.mem_singleton.1 hc]
      exact .inr (GetCall.inv_start (hs.returned key))
  | startPut n key value =>
    rw [step_startPut h]
    refine hs.of_grows (s.grows_insertAt n key value) (fun _ _ h => .inl h) (fun _ h => .inl h)
      (fun p hp => ?_)
    rcases List.mem_append.1 hp with hp | hp
    · exact .inl hp
    · rw [List.mem_singleton.1 hp]
      exact .inr ⟨s.atLeast_insertAt n key value, fun _ _ h => (by cases h)⟩
  | serveGet i j =>
    -- the replica answers with what its cache holds
    obtain ⟨c, hc, hpending, rfl⟩ := step_serveGet h
    refine hs.setGet (Grows.refl _) ((hs.gets c (List.mem_of_getElem? hc)).setReply hpending ?_)
    rintro g hg _ ⟨⟩
    exact hg
  | failGet i j =>
    obtain ⟨c, hc, hpending, rfl⟩ := step_failGet h
    exact hs.setGet (Grows.refl _)
      ((hs.gets c (List.mem_of_getElem? hc)).setReply hpending fun _ _ _ h => (by cases h))
  | selectGet i j =>
    obtain ⟨c, r, hc, -, hr, ⟨outcome, hd, rfl⟩ | ⟨-, rfl⟩⟩ := step_selectGet h
    · have hinv := hs.gets c (List.mem_of_getElem? hc)
      exact hs.setGet (s.grows_writeBack _ _ _)
        (hinv.toReturned (s.grows_writeBack _ _ _) (hinv.decideFirst_good hr hd))
    · exact hs.setGet (Grows.refl _) ((hs.gets c (List.mem_of_getElem? hc)).toSecond hr)
  | finishGet i =>
    obtain ⟨c, r1, other, r2, hc, hph, hr2, rfl⟩ := step_finishGet h
    have hinv := hs.gets c (List.mem_of_getElem? hc)
    exact hs.setGet (s.grows_writeBack _ _ _)
      (hinv.toReturned (s.grows_writeBack _ _ _) (hinv.decideSecond_good hph hr2))
  | servePut i j =>
    obtain ⟨p, hp, -, rfl⟩ := step_servePut h
    exact hs.setPut (s.grows_insertAt _ _ _) ((hs.puts p (List.mem_of_getElem? hp)).setReply
      (s.grows_insertAt _ _ _) fun _ _ => s.atLeast_insertAt _ _ _)
  | failPut i j applied =>
    -- a failed request may still have been served
    obtain ⟨p, hp, -, rfl⟩ := step_failPut h
    have hle : Grows s.caches
        (if applied then s.insertAt (replica p.node j) p.key p.value else s.caches) := by
      split
      exacts [s.grows_insertAt _ _ _, Grows.refl _]
    exact hs.setPut hle
      ((hs.puts p (List.mem_of_getElem? hp)).setReply hle fun _ h => (by cases h))
  | selectPut i j =>
    obtain ⟨p, r, hp, -, hr, ⟨b, rfl, rfl⟩ | ⟨-, rfl⟩⟩ := step_selectPut h
    · exact hs.returnPutOk hp hr
    · exact hs.setPut (Grows.refl _) ((hs.puts p (List.mem_of_getElem? hp)).setPhase _)
  | finishPut i =>
    obtain ⟨p, other, r, hp, -, hr, ⟨b, rfl, rfl⟩ | ⟨-, rfl⟩⟩ := step_finishPut h
    · exact hs.returnPutOk hp hr
    · exact hs.setPut (Grows.refl _) ((hs.puts p (List.mem_of_getElem? hp)).setPhase _)
  | cancelPut i =>
    obtain ⟨p, hp, -, rfl⟩ := step_cancelPut h
    exact hs.setPut (Grows.refl _) ((hs.puts p (List.mem_of_getElem? hp)).setPhase _)

theorem Inv.of_reachable (hs : Transition.Reachable Cluster.step .init s) : s.Inv :=
  hs.invariant Inv inv_init fun _ _ _ hs h => hs.step h

end Steps

end Cluster

/-! ## Reads never go back -/

/-- In every state a run reaches, a `get` that has returned answered with an error, or with a
value whose generation is at least that of every put of its key that had returned `Ok` when
the `get` started; and no step of a run lowers the generation a cache holds for a key. -/
theorem get_never_goes_back {s : Cluster K D} [DecidableEq K]
    (hs : Transition.Reachable Cluster.step .init s) :
    (∀ c ∈ s.gets, ∀ result, c.phase = .returned result → ∀ g, (c.key, g) ∈ c.putsBefore →
      ∀ v, result = .ok v → ∃ x, v = some x ∧ g ≤ x.generation) ∧
    ∀ a s', s.step a = some s' → ∀ n key v, s.caches n key = some v →
      ∃ v', s'.caches n key = some v' ∧ v.generation ≤ v'.generation := by
  refine ⟨fun c hc => (Cluster.Inv.of_reachable hs |>.gets c hc).returned, ?_⟩
  intro a s' h n key v hv
  exact Cluster.step_grows h n key v.generation ⟨v, hv, le_rfl⟩

/-- A put of generation 5 on node 0 that node 1 acknowledges, then a `get` on node 2, which has
no local value, and whose replicas (nodes 0 and 1) both answer. -/
def putThenGet : List (Action Unit Unit) :=
  [.startPut 0 () ⟨(), 5⟩, .servePut 0 0, .selectPut 0 0, .startGet 2 (), .serveGet 0 1,
    .selectGet 0 1, .serveGet 0 0, .finishGet 0]

theorem get_after_put_never_goes_back : let s := (putThenGet.foldlM Cluster.step .init).getD .init
    (∀ c ∈ s.gets, ∀ result, c.phase = .returned result → ∀ g, (c.key, g) ∈ c.putsBefore →
      ∀ v, result = .ok v → ∃ x, v = some x ∧ g ≤ x.generation) ∧
    ∀ a s', s.step a = some s' → ∀ n key v, s.caches n key = some v →
      ∃ v', s'.caches n key = some v' ∧ v.generation ≤ v'.generation :=
  get_never_goes_back (Transition.reachable_of_foldlM putThenGet .init rfl)

/-- The `get` of that run answers with the put's value, and writes it back to node 2. -/
example : ((putThenGet.foldlM Cluster.step .init).map fun s =>
    (s.gets.map fun c => (c.putsBefore, c.phase), s.caches 2 ())) =
      some ([([((), 5)], .returned (.ok (some ⟨(), 5⟩)))], some ⟨(), 5⟩) := rfl

end IoxCore.CatalogCache

import IoxCore.CacheSystem.Lru
import IoxCore.Lib.Transition

/-!
# The refresh policy

`cache_system::backend::policy::refresh`. A `RefreshPolicy` keeps in an `AddressableHeap`
(`timings`) a `RefreshState` for every key the `RefreshDurationProvider` wants refreshed, ordered
by the time of its next refresh. A background worker pops the first due key and starts a
refresh: a future that calls the loader, then sets the key to the loaded value unless the
refresh's `CancellationToken` has been cancelled. The token sits in the key's state, and
dropping the state cancels it: `remove(k)`, and `set(k, v)` with `refresh_in(k, v) = None`, do.
A finished refresh hands `(k, tag)` back to the worker, which schedules the key's next refresh
if its state still has that tag.

## The model

The inner backend is a map, and `TimeOrNever` is `WithTop ℕ`. A token is a number; the world
keeps those cancelled. The backoff is a parameter of `RefreshConfig`: its state `B`, built from a
configuration `C`, `next` and `fade_to`; `maxTime` is where `checked_add` overflows. An `Event` is
a user's `get`, `set` or `remove`, time passing, the worker's timer, a loader returning, a
refresh running its change request, the worker taking a `(k, tag)`, or a cancelled refresh
resolving. An event that cannot happen changes nothing; a failed assertion is `none`. Metrics
and the wake-ups through `timings_changed` are not modelled.

## Results

* `refresh_overwrites_newer_set`: a `set(k, v)` with a refresh configuration, made while a
  refresh of `k` runs, keeps the running refresh, whose loaded value then overwrites `v`.
* `inv_of_reachable`: every refresh that is not cancelled is the one its key's state records,
  with its tag, and every recorded token is such a refresh's; so a key has at most one refresh
  that is not cancelled (`at_most_one_refresh`).
* `remove_cancels`, `set_none_cancels`: a `remove(k)`, or a `set(k, v)` without configuration,
  cancels every refresh of `k`; a token stays cancelled (`run_cancelled`), so such a refresh never
  writes (`refresh_after_remove_never_writes`, `refresh_after_set_none_never_writes`).
-/

namespace IoxCore.CacheSystem.Refresh

variable {K V C B : Type} [LinearOrder K]

/-- `TimeOrNever`, ordered as its derived `Ord` orders it: every time before `Never`. -/
abbrev TimeOrNever := WithTop ℕ

/-- The fixed parameters: `RefreshDurationProvider::refresh_in`, the backoff, and the latest
`Time` there is. -/
structure RefreshConfig (K V C B : Type) where
  refreshIn : K → V → Option C
  newBackoff : C → B
  backoffNext : B → Option ℕ × B
  fadeTo : B → C → B
  maxTime : ℕ

/-- `RefreshState`, with the number of its running refresh's token. -/
structure RefreshState (C B : Type) where
  backoffCfg : C
  /-- `next`, the backoff state. -/
  nextBackoff : Option B
  tag : ℕ
  runningRefresh : Option ℕ

/-- `RefreshState::new`. -/
def RefreshState.new (backoffCfg : C) (tag : ℕ) : RefreshState C B :=
  ⟨backoffCfg, none, tag, none⟩

/-- `RefreshState::next`: the state with its backoff advanced, and the time of its next
refresh; `none` where it asserts that no refresh runs. -/
def RefreshState.next (cfg : RefreshConfig K V C B) (s : RefreshState C B) (now : ℕ) :
    Option (RefreshState C B × TimeOrNever) :=
  -- `assert!(self.running_refresh.is_none())`
  if s.runningRefresh.isSome then none
  else
    let (d, next) := cfg.backoffNext (s.nextBackoff.getD (cfg.newBackoff s.backoffCfg))
    -- `next.next().and_then(|d| now.checked_add(d))`
    let time : TimeOrNever := match d with
      | some d => if now + d ≤ cfg.maxTime then ((now + d : ℕ) : TimeOrNever) else ⊤
      | none => ⊤
    some ({ s with nextBackoff := some next, runningRefresh := none }, time)

/-- A refresh future: the key and tag it was started for, its token, what its loader returned
once it has, and whether its change request has run, so that it returns `(k, tag)`. -/
structure Task (K V : Type) where
  key : K
  tag : ℕ
  token : ℕ
  loaded : Option V
  done : Bool

/-- The inner backend, the policy's `timings` and `tag_counter`, the tokens handed out and
those cancelled, the worker's refresh futures, and the time. -/
structure World (K V C B : Type) [LinearOrder K] where
  inner : AList (fun _ : K => V)
  timings : AddressableHeap K (RefreshState C B) TimeOrNever
  tagCounter : ℕ
  tokens : ℕ
  cancelled : List ℕ
  tasks : List (Task K V)
  now : ℕ

/-- A new backend: `ensure_empty` has run, and nothing is scheduled. -/
def World.new : World K V C B := ⟨∅, AddressableHeap.new, 0, 0, [], [], 0⟩

/-- `Drop for RefreshState`: a dropped state cancels its running refresh. -/
def dropState (cancelled : List ℕ) : Option (RefreshState C B × TimeOrNever) → List ℕ
  | some (s, _) =>
    match s.runningRefresh with
    | some token => token :: cancelled
    | none => cancelled
  | none => cancelled

namespace World

/-- `timings.insert(k, state, t)`, which drops the entry it replaces. -/
def insertTiming (w : World K V C B) (k : K) (s : RefreshState C B) (t : TimeOrNever) :
    Option (World K V C B) := do
  let (old, timings) ← w.timings.insert k s t
  some { w with timings := timings, cancelled := dropState w.cancelled old }

/-- `timings.remove(k)`, which drops the entry it removes. -/
def removeTiming (w : World K V C B) (k : K) : Option (World K V C B) := do
  let (old, timings) ← w.timings.remove k
  some { w with timings := timings, cancelled := dropState w.cancelled old }

/-- `Subscriber::get`: a key without a running refresh gets one scheduled. -/
def onGet (cfg : RefreshConfig K V C B) (w : World K V C B) (k : K) : Option (World K V C B) := do
  let (r, timings) ← w.timings.remove k
  let w := { w with timings := timings }
  match r with
  | none => some w
  | some (state, tNext) =>
    -- reset backoff
    let state := { state with nextBackoff := none }
    if state.runningRefresh.isSome then
      -- `assert_eq!(t_next, TimeOrNever::Never)`
      if tNext = ⊤ then w.insertTiming k state ⊤ else none
    else
      let (state, tNext) ← state.next cfg w.now
      w.insertTiming k state tNext

/-- `Subscriber::set`. -/
def onSet (cfg : RefreshConfig K V C B) (w : World K V C B) (k : K) (v : V) :
    Option (World K V C B) :=
  match cfg.refreshIn k v with
  | some backoffCfg => do
    let (r, timings) ← w.timings.remove k
    let w := { w with timings := timings }
    match r with
    | some (state, time) =>
      -- a known key keeps its state, and with it a running refresh
      let nextBackoff := state.nextBackoff.map (cfg.fadeTo · backoffCfg)
      w.insertTiming k { state with nextBackoff := nextBackoff, backoffCfg := backoffCfg } time
    | none =>
      let (state, time) ← (RefreshState.new backoffCfg w.tagCounter : RefreshState C B).next cfg w.now
      { w with tagCounter := w.tagCounter + 1 }.insertTiming k state time
  -- the removal drops the state, which cancels a running refresh
  | none => w.removeTiming k

/-- `Subscriber::remove`. -/
def onRemove (w : World K V C B) (k : K) : Option (World K V C B) := w.removeTiming k

/-- The refresh of token `token`. -/
def task? (w : World K V C B) (token : ℕ) : Option (Task K V) := w.tasks.find? (·.token = token)

/-- The refreshes with the one of token `token` changed by `f`. -/
def updateTask (w : World K V C B) (token : ℕ) (f : Task K V → Task K V) : World K V C B :=
  { w with tasks := w.tasks.map fun t => if t.token = token then f t else t }

/-- The refreshes without the one of token `token`. -/
def dropTask (w : World K V C B) (token : ℕ) : World K V C B :=
  { w with tasks := w.tasks.filter fun t => t.token ≠ token }

/-- The worker's timer fires: it pops the first entry of `timings`, and starts its refresh if
it is due. -/
def start (w : World K V C B) : Option (World K V C B) := do
  let (top, timings) ← w.timings.pop
  match top with
  | none => some w
  | some (k, state, tNext) =>
    let w := { w with timings := timings }
    if tNext ≤ (w.now : TimeOrNever) then
      -- `assert!(state.running_refresh.is_none())`
      if state.runningRefresh.isSome then none
      else
        let token := w.tokens
        let task : Task K V := ⟨k, state.tag, token, none, false⟩
        { w with tokens := token + 1, tasks := w.tasks ++ [task] }.insertTiming
          k { state with runningRefresh := some token } ⊤
    else
      -- the entry is not due: put it back
      w.insertTiming k state tNext

/-- A refresh runs its change request: unless its token is cancelled, `backend.set(k, v)`,
which the policy sees as a `set`. Its future then returns `(k, tag)`. -/
def apply (cfg : RefreshConfig K V C B) (w : World K V C B) (t : Task K V) (v : V) :
    Option (World K V C B) :=
  let w := w.updateTask t.token fun t => { t with done := true }
  if t.token ∈ w.cancelled then some w
  else { w with inner := w.inner.insert t.key v }.onSet cfg t.key v

/-- The worker takes the result `(k, tag)` of a finished refresh: if the key's state still has
that tag, its refresh is over and the next one is scheduled. -/
def finish (cfg : RefreshConfig K V C B) (w : World K V C B) (t : Task K V) :
    Option (World K V C B) := do
  let w := w.dropTask t.token
  let (r, timings) ← w.timings.remove t.key
  let w := { w with timings := timings }
  match r with
  | none => some w
  | some (state, tNext) =>
    if state.tag = t.tag then
      let (state, tNext) ← { state with runningRefresh := none }.next cfg w.now
      w.insertTiming t.key state tNext
    else
      -- another state of the key (lock gap)
      w.insertTiming t.key state tNext

end World

/-- What can happen to a backend with a refresh policy. -/
inductive Event (K V : Type)
  /-- The user's `get(k)`. -/
  | get (k : K)
  /-- The user's `set(k, v)`. -/
  | set (k : K) (v : V)
  /-- The user's `remove(k)`. -/
  | remove (k : K)
  /-- Time passes. -/
  | tick (d : ℕ)
  /-- The worker's timer fires. -/
  | start
  /-- The loader of the refresh of token `token` returns `v`. -/
  | load (token : ℕ) (v : V)
  /-- The refresh of token `token` runs its change request. -/
  | apply (token : ℕ)
  /-- The worker takes the result of the finished refresh of token `token`. -/
  | finish (token : ℕ)
  /-- The cancelled refresh of token `token` resolves to `None`. -/
  | resolve (token : ℕ)

namespace World

/-- One event. A refresh event of a refresh that cannot take it changes nothing. -/
def step (cfg : RefreshConfig K V C B) (w : World K V C B) : Event K V → Option (World K V C B)
  | .get k => w.onGet cfg k
  | .set k v => { w with inner := w.inner.insert k v }.onSet cfg k v
  | .remove k => { w with inner := w.inner.erase k }.onRemove k
  | .tick d => some { w with now := w.now + d }
  | .start => w.start
  | .load token v =>
    match w.task? token with
    | some t => if t.loaded.isNone then some (w.updateTask token fun t => { t with loaded := some v }) else some w
    | none => some w
  | .apply token =>
    match w.task? token with
    | some t =>
      match t.loaded, t.done with
      | some v, false => w.apply cfg t v
      | _, _ => some w
    | none => some w
  | .finish token =>
    match w.task? token with
    | some t => if t.done then w.finish cfg t else some w
    | none => some w
  | .resolve token =>
    match w.task? token with
    | some t => if t.token ∈ w.cancelled ∧ ¬ t.done then some (w.dropTask token) else some w
    | none => some w

end World

/-- Events one after the other. -/
def run (cfg : RefreshConfig K V C B) (w : World K V C B) (es : List (Event K V)) :
    Option (World K V C B) :=
  es.foldlM (World.step cfg) w

/-! ## The invariant -/

section Invariant

variable {cfg : RefreshConfig K V C B} {w : World K V C B} {t : Task K V} {k : K} {tok : ℕ}
    {s : RefreshState C B} {o : TimeOrNever}
    {timings : AddressableHeap K (RefreshState C B) TimeOrNever}

/-- The entries of `timings`. -/
abbrev World.states (w : World K V C B) : AList (fun _ : K => RefreshState C B × TimeOrNever) :=
  w.timings.keyToOrderAndValue

/-- Every refresh that is not cancelled is the one its key's state records, with the state's
tag; every token a state records belongs to a refresh of its key that is not cancelled; and a
state with a refresh's tag records that refresh. Tokens and tags are handed out fresh. -/
structure Inv (w : World K V C B) : Prop where
  synced : Synced w.states w.timings.queue
  cancelled_lt : ∀ c ∈ w.cancelled, c < w.tokens
  token_lt : ∀ t ∈ w.tasks, t.token < w.tokens
  nodup : (w.tasks.map (·.token)).Nodup
  tag_lt : ∀ k s o, w.states.lookup k = some (s, o) → s.tag < w.tagCounter
  task_tag_lt : ∀ t ∈ w.tasks, t.tag < w.tagCounter
  live : ∀ t ∈ w.tasks, t.token ∉ w.cancelled →
    ∃ s o, w.states.lookup t.key = some (s, o) ∧ s.runningRefresh = some t.token ∧ s.tag = t.tag
  recorded : ∀ k s o tok, w.states.lookup k = some (s, o) → s.runningRefresh = some tok →
    tok ∉ w.cancelled ∧ ∃ t ∈ w.tasks, t.token = tok ∧ t.key = k
  tagged : ∀ t ∈ w.tasks, ∀ s o, w.states.lookup t.key = some (s, o) → s.tag = t.tag →
    s.runningRefresh = some t.token

theorem mem_dropState {cancelled : List ℕ} {r : Option (RefreshState C B × TimeOrNever)} {c : ℕ} :
    c ∈ dropState cancelled r ↔ c ∈ cancelled ∨ ∃ s o, r = some (s, o) ∧ s.runningRefresh = some c := by
  rcases r with _ | ⟨s, o⟩
  · simp [dropState]
  · rcases hs : s.runningRefresh with _ | tok
    · simp [dropState, hs]
    · simp [dropState, hs, eq_comm, or_comm]

theorem inv_new : Inv (World.new : World K V C B) where
  synced := synced_empty
  cancelled_lt := by simp [World.new]
  token_lt := by simp [World.new]
  nodup := by simp [World.new]
  tag_lt := by simp [World.new, World.states, AddressableHeap.new]
  task_tag_lt := by simp [World.new]
  live := by simp [World.new]
  recorded := by simp [World.new, World.states, AddressableHeap.new]
  tagged := by simp [World.new]

/-- Two states never record one token. -/
theorem Inv.key_eq_of_recorded (hi : Inv w) {k k' : K} {s s' : RefreshState C B}
    {o o' : TimeOrNever} (hk : w.states.lookup k = some (s, o)) (hs : s.runningRefresh = some tok)
    (hk' : w.states.lookup k' = some (s', o')) (hs' : s'.runningRefresh = some tok) : k = k' := by
  obtain ⟨-, t, ht, htok, hkey⟩ := hi.recorded k s o tok hk hs
  obtain ⟨-, t', ht', htok', hkey'⟩ := hi.recorded k' s' o' tok hk' hs'
  have : t = t' := List.inj_on_of_nodup_map hi.nodup ht ht' (htok.trans htok'.symm)
  rw [← hkey, ← hkey', this]

/-! ### The changes the events make, and the invariant

Each change below is stated on `timings` through its lookups: what `remove` and `insert` do to
the map is `AddressableHeap.remove_spec` and `insert_spec`. -/

/-- A lookup in a map whose entry at `k` changed. -/
theorem eq_or_lookup_of_update {β γ : Type} {m m' : AList (fun _ : K => β × γ)} {b : β}
    {c : γ} (hlook : ∀ k', m'.lookup k' = if k' = k then some (b, c) else m.lookup k') {k' : K}
    {b' : β} {c' : γ} (h : m'.lookup k' = some (b', c')) :
    (k' = k ∧ b' = b ∧ c' = c) ∨ (k' ≠ k ∧ m.lookup k' = some (b', c')) := by
  rw [hlook] at h
  split at h
  · rename_i hkey
    obtain ⟨rfl, rfl⟩ := Prod.mk.inj (Option.some.inj h)
    exact Or.inl ⟨hkey, rfl, rfl⟩
  · rename_i hkey
    exact Or.inr ⟨hkey, h⟩

/-- A lookup in a map with `k` erased. -/
theorem lookup_of_erase {β : Type} {m m' : AList (fun _ : K => β)} (hlook : m' = m.erase k)
    {k' : K} {b : β} (h : m'.lookup k' = some b) : k' ≠ k ∧ m.lookup k' = some b := by
  rw [hlook] at h
  by_cases hkey : k' = k
  · rw [hkey, AList.lookup_erase] at h
    exact absurd h (by simp)
  · exact ⟨hkey, by rwa [AList.lookup_erase_ne hkey] at h⟩

/-- Replacing a key's state by one with the same tag and the same running refresh. -/
theorem Inv.replace (hi : Inv w)
    (hk : w.states.lookup k = some (s, o)) {s' : RefreshState C B} {o' : TimeOrNever}
    (htag : s'.tag = s.tag) (hrun : s'.runningRefresh = s.runningRefresh)
   
    (hsynced : Synced timings.keyToOrderAndValue timings.queue)
    (hlook : ∀ k', timings.keyToOrderAndValue.lookup k' =
      if k' = k then some (s', o') else w.states.lookup k') :
    Inv { w with timings := timings } where
  synced := hsynced
  cancelled_lt := hi.cancelled_lt
  token_lt := hi.token_lt
  nodup := hi.nodup
  tag_lt k₁ s₁ o₁ h₁ := by
    rcases eq_or_lookup_of_update hlook h₁ with ⟨-, rfl, -⟩ | ⟨-, h₁⟩
    · exact htag ▸ hi.tag_lt k s o hk
    · exact hi.tag_lt k₁ s₁ o₁ h₁
  task_tag_lt := hi.task_tag_lt
  live t ht hc := by
    obtain ⟨s₀, o₀, h₀, hrun₀, htag₀⟩ := hi.live t ht hc
    simp only [World.states, hlook]
    split
    · rename_i hkey
      rw [hkey, hk] at h₀
      obtain ⟨rfl, rfl⟩ := Prod.mk.inj (Option.some.inj h₀)
      exact ⟨s', o', rfl, hrun ▸ hrun₀, htag ▸ htag₀⟩
    · exact ⟨s₀, o₀, h₀, hrun₀, htag₀⟩
  recorded k₁ s₁ o₁ tok h₁ hrun₁ := by
    rcases eq_or_lookup_of_update hlook h₁ with ⟨rfl, rfl, -⟩ | ⟨-, h₁⟩
    · exact hi.recorded _ s o tok hk (hrun ▸ hrun₁)
    · exact hi.recorded k₁ s₁ o₁ tok h₁ hrun₁
  tagged t ht s₁ o₁ h₁ htag₁ := by
    rcases eq_or_lookup_of_update hlook h₁ with ⟨hkey, rfl, -⟩ | ⟨-, h₁⟩
    · rw [hrun]
      exact hi.tagged t ht s o (hkey ▸ hk) (htag ▸ htag₁)
    · exact hi.tagged t ht s₁ o₁ h₁ htag₁

/-- Removing a key's state, which cancels its running refresh. -/
theorem Inv.erase (hi : Inv w) (k : K) (hsynced : Synced timings.keyToOrderAndValue timings.queue)
    (hlook : timings.keyToOrderAndValue = w.states.erase k) :
    Inv { w with timings := timings, cancelled := dropState w.cancelled (w.states.lookup k) } where
  synced := hsynced
  cancelled_lt c hc := by
    rcases mem_dropState.mp hc with hc | ⟨s, o, hk, hrun⟩
    · exact hi.cancelled_lt c hc
    · obtain ⟨-, t, ht, htok, -⟩ := hi.recorded k s o c hk hrun
      exact htok ▸ hi.token_lt t ht
  token_lt := hi.token_lt
  nodup := hi.nodup
  tag_lt k₁ s₁ o₁ h₁ := hi.tag_lt k₁ s₁ o₁ (lookup_of_erase hlook h₁).2
  task_tag_lt := hi.task_tag_lt
  live t ht hc := by
    have hc₀ : t.token ∉ w.cancelled := fun h => hc (mem_dropState.mpr (Or.inl h))
    obtain ⟨s₀, o₀, h₀, hrun₀, htag₀⟩ := hi.live t ht hc₀
    by_cases hkey : t.key = k
    · -- the state of `k` is dropped, and with it this refresh
      exact absurd (mem_dropState.mpr (Or.inr ⟨s₀, o₀, hkey ▸ h₀, hrun₀⟩)) hc
    · refine ⟨s₀, o₀, ?_, hrun₀, htag₀⟩
      rw [World.states, hlook, AList.lookup_erase_ne hkey]
      exact h₀
  recorded k₁ s₁ o₁ tok h₁ hrun₁ := by
    obtain ⟨hkey, h₁⟩ := lookup_of_erase hlook h₁
    obtain ⟨hc, hrest⟩ := hi.recorded k₁ s₁ o₁ tok h₁ hrun₁
    refine ⟨fun h => ?_, hrest⟩
    rcases mem_dropState.mp h with h | ⟨s, o, hk, hrun⟩
    · exact hc h
    · exact hkey (hi.key_eq_of_recorded h₁ hrun₁ hk hrun)
  tagged t ht s₁ o₁ h₁ htag₁ := hi.tagged t ht s₁ o₁ (lookup_of_erase hlook h₁).2 htag₁

/-- A key without state gets a fresh one, with the next tag and no refresh. -/
theorem Inv.fresh (hi : Inv w) (hk : w.states.lookup k = none)
    {s' : RefreshState C B} {o' : TimeOrNever} (htag : s'.tag = w.tagCounter)
    (hrun : s'.runningRefresh = none)
    (hsynced : Synced timings.keyToOrderAndValue timings.queue)
    (hlook : ∀ k', timings.keyToOrderAndValue.lookup k' =
      if k' = k then some (s', o') else w.states.lookup k') :
    Inv { w with timings := timings, tagCounter := w.tagCounter + 1 } where
  synced := hsynced
  cancelled_lt := hi.cancelled_lt
  token_lt := hi.token_lt
  nodup := hi.nodup
  tag_lt k₁ s₁ o₁ h₁ := by
    rcases eq_or_lookup_of_update hlook h₁ with ⟨-, rfl, -⟩ | ⟨-, h₁⟩
    · exact htag ▸ Nat.lt_succ_self _
    · exact Nat.lt_succ_of_lt (hi.tag_lt k₁ s₁ o₁ h₁)
  task_tag_lt t ht := Nat.lt_succ_of_lt (hi.task_tag_lt t ht)
  live t ht hc := by
    obtain ⟨s₀, o₀, h₀, hrun₀, htag₀⟩ := hi.live t ht hc
    -- a refresh's key has a state, so it is not the new key
    have hkey : t.key ≠ k := fun h => by rw [h, hk] at h₀; exact absurd h₀ (by simp)
    refine ⟨s₀, o₀, ?_, hrun₀, htag₀⟩
    rw [World.states, hlook, if_neg hkey]
    exact h₀
  recorded k₁ s₁ o₁ tok h₁ hrun₁ := by
    rcases eq_or_lookup_of_update hlook h₁ with ⟨-, rfl, -⟩ | ⟨-, h₁⟩
    · exact absurd (hrun ▸ hrun₁) (by simp)
    · exact hi.recorded k₁ s₁ o₁ tok h₁ hrun₁
  tagged t ht s₁ o₁ h₁ htag₁ := by
    rcases eq_or_lookup_of_update hlook h₁ with ⟨-, rfl, -⟩ | ⟨-, h₁⟩
    · -- no refresh has the tag just handed out
      exact absurd (htag ▸ htag₁ ▸ hi.task_tag_lt t ht) (Nat.lt_irrefl _)
    · exact hi.tagged t ht s₁ o₁ h₁ htag₁

/-- The worker starts a refresh of a key whose state has none running: the state records the
next token, and the refresh joins the worker's. -/
theorem Inv.startTask (hi : Inv w)
    (hk : w.states.lookup k = some (s, o)) (hnone : s.runningRefresh = none)
   
    (hsynced : Synced timings.keyToOrderAndValue timings.queue)
    (hlook : ∀ k', timings.keyToOrderAndValue.lookup k' =
      if k' = k then some ({ s with runningRefresh := some w.tokens }, ⊤) else w.states.lookup k') :
    Inv
      { w with
        timings := timings
        tokens := w.tokens + 1
        tasks := w.tasks ++ [⟨k, s.tag, w.tokens, none, false⟩] } where
  synced := hsynced
  cancelled_lt c hc := Nat.lt_succ_of_lt (hi.cancelled_lt c hc)
  token_lt t ht := by
    rcases List.mem_append.mp ht with ht | ht
    · exact Nat.lt_succ_of_lt (hi.token_lt t ht)
    · rw [List.mem_singleton.mp ht]
      exact Nat.lt_succ_self _
  nodup := by
    rw [List.map_append, List.nodup_append]
    refine ⟨hi.nodup, List.nodup_singleton _, ?_⟩
    -- the new token is past every token handed out
    simp only [List.map_cons, List.map_nil, List.mem_singleton, List.mem_map]
    rintro _ ⟨t, ht, rfl⟩ _ rfl
    exact Nat.ne_of_lt (hi.token_lt t ht)
  tag_lt k₁ s₁ o₁ h₁ := by
    rcases eq_or_lookup_of_update hlook h₁ with ⟨-, rfl, -⟩ | ⟨-, h₁⟩
    · exact hi.tag_lt k s o hk
    · exact hi.tag_lt k₁ s₁ o₁ h₁
  task_tag_lt t ht := by
    rcases List.mem_append.mp ht with ht | ht
    · exact hi.task_tag_lt t ht
    · rw [List.mem_singleton.mp ht]
      exact hi.tag_lt k s o hk
  live t ht hc := by
    simp only [World.states, hlook]
    rcases List.mem_append.mp ht with ht | ht
    · obtain ⟨s₀, o₀, h₀, hrun₀, htag₀⟩ := hi.live t ht hc
      -- the state of `k` runs no refresh, so `t` is of another key
      have hkey : t.key ≠ k := fun h => by
        rw [h, hk] at h₀
        obtain ⟨rfl, -⟩ := Prod.mk.inj (Option.some.inj h₀)
        exact absurd (hnone ▸ hrun₀) (by simp)
      rw [if_neg hkey]
      exact ⟨s₀, o₀, h₀, hrun₀, htag₀⟩
    · rw [List.mem_singleton.mp ht, if_pos rfl]
      exact ⟨_, _, rfl, rfl, rfl⟩
  recorded k₁ s₁ o₁ tok h₁ hrun₁ := by
    rcases eq_or_lookup_of_update hlook h₁ with ⟨hkey, rfl, -⟩ | ⟨-, h₁⟩
    · obtain rfl : w.tokens = tok := Option.some.inj hrun₁
      refine ⟨fun hc => Nat.lt_irrefl _ (hi.cancelled_lt _ hc), _, List.mem_append_right _
        (List.mem_singleton_self _), rfl, hkey.symm⟩
    · obtain ⟨hc, t, ht, htok, hkey⟩ := hi.recorded k₁ s₁ o₁ tok h₁ hrun₁
      exact ⟨hc, t, List.mem_append_left _ ht, htok, hkey⟩
  tagged t ht s₁ o₁ h₁ htag₁ := by
    rcases List.mem_append.mp ht with ht | ht
    · rcases eq_or_lookup_of_update hlook h₁ with ⟨hkey, rfl, -⟩ | ⟨-, h₁⟩
      · -- an older refresh of `k` with the state's tag would be recorded in place of none
        exact absurd (hnone ▸ hi.tagged t ht s o (hkey ▸ hk) htag₁) (by simp)
      · exact hi.tagged t ht s₁ o₁ h₁ htag₁
    · obtain rfl := List.mem_singleton.mp ht
      obtain ⟨-, rfl, -⟩ | ⟨hkey, -⟩ := eq_or_lookup_of_update hlook h₁
      · rfl
      · exact absurd rfl hkey

/-- A refresh a task shares a token with is that task. -/
theorem Inv.task_eq (hi : Inv w) {t t' : Task K V} (ht : t ∈ w.tasks)
    (ht' : t' ∈ w.tasks) (htok : t.token = t'.token) : t = t' :=
  List.inj_on_of_nodup_map hi.nodup ht ht' htok

/-- The refresh a state records is of the state's key. -/
theorem Inv.key_of_recorded (hi : Inv w) (hk : w.states.lookup k = some (s, o)) (ht : t ∈ w.tasks)
    (hrun : s.runningRefresh = some t.token) : t.key = k := by
  obtain ⟨-, t', ht', htok, hkey⟩ := hi.recorded k s o t.token hk hrun
  rw [hi.task_eq ht ht' htok.symm, hkey]

/-- A state that records a refresh is its key's, with its tag. -/
theorem Inv.recorded_task (hi : Inv w) (ht : t ∈ w.tasks) (hk : w.states.lookup k = some (s, o))
    (hrun : s.runningRefresh = some t.token) : k = t.key ∧ s.tag = t.tag := by
  obtain ⟨hc, -⟩ := hi.recorded k s o t.token hk hrun
  have hkey := hi.key_of_recorded hk ht hrun
  obtain ⟨s₀, o₀, h₀, -, htag₀⟩ := hi.live t ht hc
  rw [hkey, hk] at h₀
  obtain ⟨rfl, -⟩ := Prod.mk.inj (Option.some.inj h₀)
  exact ⟨hkey.symm, htag₀⟩

theorem mem_dropTask : t ∈ (w.dropTask tok).tasks ↔ t ∈ w.tasks ∧ t.token ≠ tok := by
  simp [World.dropTask]

/-- Dropping a refresh that no state records. -/
theorem Inv.dropTask (hi : Inv w)
    (hnot : ∀ k s o, w.states.lookup k = some (s, o) → s.runningRefresh ≠ some tok) :
    Inv (w.dropTask tok) where
  synced := hi.synced
  cancelled_lt := hi.cancelled_lt
  token_lt t ht := hi.token_lt t (mem_dropTask.mp ht).1
  nodup := hi.nodup.sublist (List.filter_sublist.map _)
  tag_lt := hi.tag_lt
  task_tag_lt t ht := hi.task_tag_lt t (mem_dropTask.mp ht).1
  live t ht := hi.live t (mem_dropTask.mp ht).1
  recorded k s o tok' hk hrun := by
    obtain ⟨hc, t, ht, htok, hkey⟩ := hi.recorded k s o tok' hk hrun
    have hne : t.token ≠ tok := fun h => hnot k s o hk (h ▸ htok ▸ hrun)
    exact ⟨hc, t, mem_dropTask.mpr ⟨ht, hne⟩, htok, hkey⟩
  tagged t ht := hi.tagged t (mem_dropTask.mp ht).1

/-- A refresh is over: its key's state, which records it, forgets it, and the worker drops it. -/
theorem Inv.release (hi : Inv w) (ht : t ∈ w.tasks) (hk : w.states.lookup t.key = some (s, o))
    (hrun : s.runningRefresh = some t.token) {s' : RefreshState C B} {o' : TimeOrNever}
    (htag : s'.tag = s.tag) (hnone : s'.runningRefresh = none)
   
    (hsynced : Synced timings.keyToOrderAndValue timings.queue)
    (hlook : ∀ k', timings.keyToOrderAndValue.lookup k' =
      if k' = t.key then some (s', o') else w.states.lookup k') :
    Inv { w.dropTask t.token with timings := timings } where
  synced := hsynced
  cancelled_lt := hi.cancelled_lt
  token_lt t₁ ht₁ := hi.token_lt t₁ (mem_dropTask.mp ht₁).1
  nodup := hi.nodup.sublist (List.filter_sublist.map _)
  tag_lt k₁ s₁ o₁ h₁ := by
    rcases eq_or_lookup_of_update hlook h₁ with ⟨-, rfl, -⟩ | ⟨-, h₁⟩
    · exact htag ▸ hi.tag_lt t.key s o hk
    · exact hi.tag_lt k₁ s₁ o₁ h₁
  task_tag_lt t₁ ht₁ := hi.task_tag_lt t₁ (mem_dropTask.mp ht₁).1
  live t₁ ht₁ hc := by
    obtain ⟨ht₁, hne⟩ := mem_dropTask.mp ht₁
    obtain ⟨s₀, o₀, h₀, hrun₀, htag₀⟩ := hi.live t₁ ht₁ hc
    -- the state of `t.key` records `t`, so `t₁` is of another key
    have hkey : t₁.key ≠ t.key := fun h => by
      rw [h, hk] at h₀
      obtain ⟨rfl, -⟩ := Prod.mk.inj (Option.some.inj h₀)
      exact hne (Option.some.inj (hrun₀.symm.trans hrun))
    refine ⟨s₀, o₀, ?_, hrun₀, htag₀⟩
    rw [World.states, hlook, if_neg hkey]
    exact h₀
  recorded k₁ s₁ o₁ tok h₁ hrun₁ := by
    rcases eq_or_lookup_of_update hlook h₁ with ⟨-, rfl, -⟩ | ⟨hkey, h₁⟩
    · exact absurd (hnone ▸ hrun₁) (by simp)
    · obtain ⟨hc, t₁, ht₁, htok, hkey₁⟩ := hi.recorded k₁ s₁ o₁ tok h₁ hrun₁
      -- the refresh recorded at another key is not `t`
      have hne : t₁.token ≠ t.token := fun h => hkey (hkey₁ ▸ hi.task_eq ht₁ ht h ▸ rfl)
      exact ⟨hc, t₁, mem_dropTask.mpr ⟨ht₁, hne⟩, htok, hkey₁⟩
  tagged t₁ ht₁ s₁ o₁ h₁ htag₁ := by
    obtain ⟨ht₁, hne⟩ := mem_dropTask.mp ht₁
    rcases eq_or_lookup_of_update hlook h₁ with ⟨hkey, rfl, -⟩ | ⟨-, h₁⟩
    · -- a refresh of `t.key` with the state's tag would be `t` itself
      have hrun₁ := hi.tagged t₁ ht₁ s o (hkey ▸ hk) (htag ▸ htag₁)
      exact absurd (Option.some.inj (hrun₁.symm.trans hrun)) hne
    · exact hi.tagged t₁ ht₁ s₁ o₁ h₁ htag₁

theorem mem_updateTask {f : Task K V → Task K V} :
    t ∈ (w.updateTask tok f).tasks ↔ ∃ t₀ ∈ w.tasks, (if t₀.token = tok then f t₀ else t₀) = t := by
  simp [World.updateTask]

section UpdateTask

variable {tok : ℕ} {f : Task K V → Task K V}
  (hf : ∀ t, (f t).key = t.key ∧ (f t).tag = t.tag ∧ (f t).token = t.token)
include hf

/-- A refresh changed only in what it has loaded and done keeps its key, tag and token. -/
theorem exists_of_mem_updateTask (ht : t ∈ (w.updateTask tok f).tasks) :
    ∃ t₀ ∈ w.tasks, t.key = t₀.key ∧ t.tag = t₀.tag ∧ t.token = t₀.token := by
  obtain ⟨t₀, ht₀, rfl⟩ := mem_updateTask.mp ht
  refine ⟨t₀, ht₀, ?_⟩
  split
  · exact hf t₀
  · exact ⟨rfl, rfl, rfl⟩

theorem exists_mem_updateTask {t₀ : Task K V} (ht₀ : t₀ ∈ w.tasks) :
    ∃ t ∈ (w.updateTask tok f).tasks, t.key = t₀.key ∧ t.tag = t₀.tag ∧ t.token = t₀.token := by
  refine ⟨_, mem_updateTask.mpr ⟨t₀, ht₀, rfl⟩, ?_⟩
  split
  · exact hf t₀
  · exact ⟨rfl, rfl, rfl⟩

theorem Inv.updateTask (hi : Inv w) : Inv (w.updateTask tok f) where
  synced := hi.synced
  cancelled_lt := hi.cancelled_lt
  token_lt t ht := by
    obtain ⟨t₀, ht₀, -, -, htok⟩ := exists_of_mem_updateTask hf ht
    exact htok ▸ hi.token_lt t₀ ht₀
  nodup := by
    have htokens : (w.updateTask tok f).tasks.map (·.token) = w.tasks.map (·.token) := by
      simp only [World.updateTask, List.map_map]
      refine List.map_congr_left fun t _ => ?_
      simp only [Function.comp_apply]
      split
      · exact (hf t).2.2
      · rfl
    exact htokens ▸ hi.nodup
  tag_lt := hi.tag_lt
  task_tag_lt t ht := by
    obtain ⟨t₀, ht₀, -, htag, -⟩ := exists_of_mem_updateTask hf ht
    exact htag ▸ hi.task_tag_lt t₀ ht₀
  live t ht hc := by
    obtain ⟨t₀, ht₀, hkey, htag, htok⟩ := exists_of_mem_updateTask hf ht
    rw [htok] at hc
    rw [hkey, htag, htok]
    exact hi.live t₀ ht₀ hc
  recorded k s o tok' hk hrun := by
    obtain ⟨hc, t₀, ht₀, htok, hkey⟩ := hi.recorded k s o tok' hk hrun
    obtain ⟨t, ht, hkey', -, htok'⟩ := exists_mem_updateTask hf ht₀
    exact ⟨hc, t, ht, htok' ▸ htok, hkey' ▸ hkey⟩
  tagged t ht s o hk htag := by
    obtain ⟨t₀, ht₀, hkey, htag', htok⟩ := exists_of_mem_updateTask hf ht
    rw [hkey] at hk
    rw [htok]
    exact hi.tagged t₀ ht₀ s o hk (htag' ▸ htag)

end UpdateTask

/-- The invariant does not read the inner backend or the time. -/
theorem Inv.withInner (hi : Inv w) (inner : AList (fun _ : K => V)) :
    Inv { w with inner := inner } :=
  ⟨hi.synced, hi.cancelled_lt, hi.token_lt, hi.nodup, hi.tag_lt, hi.task_tag_lt, hi.live,
    hi.recorded, hi.tagged⟩

theorem Inv.withNow (hi : Inv w) (now : ℕ) : Inv { w with now := now } :=
  ⟨hi.synced, hi.cancelled_lt, hi.token_lt, hi.nodup, hi.tag_lt, hi.task_tag_lt, hi.live,
    hi.recorded, hi.tagged⟩

/-! ### `timings` under the events -/

theorem lookup_insert_ite {β : Type} (m : AList (fun _ : K => β)) (k : K) (x : β) (k' : K) :
    (m.insert k x).lookup k' = if k' = k then some x else m.lookup k' := by
  split
  · rename_i h
    rw [h, AList.lookup_insert]
  · rename_i h
    rw [AList.lookup_insert_ne h]

/-- `insertTiming` of a key that `timings` lacks drops no state. -/
theorem insertTiming_of_lookup_none (hs : Synced w.states w.timings.queue)
    (hk : w.states.lookup k = none) (s : RefreshState C B) (t : TimeOrNever) :
    ∃ timings, w.insertTiming k s t = some { w with timings := timings } ∧
      Synced timings.keyToOrderAndValue timings.queue ∧
      ∀ k', timings.keyToOrderAndValue.lookup k' = if k' = k then some (s, t) else w.states.lookup k' := by
  obtain ⟨q, hins, hsq⟩ := insert_spec hs k s t
  refine ⟨⟨_, q⟩, ?_, hsq, lookup_insert_ite _ k _⟩
  rw [World.insertTiming, hins, AddressableHeap.get, hk]
  rfl

/-- An entry put back into `timings` after its key's entry was taken out. -/
theorem insertTiming_erase {q : SortedSet (TimeOrNever ×ₗ K)}
    (hs : Synced (w.states.erase k) q) (s : RefreshState C B) (t : TimeOrNever) :
    ∃ timings, { w with timings := ⟨w.states.erase k, q⟩ }.insertTiming k s t =
      some { w with timings := timings } ∧ Synced timings.keyToOrderAndValue timings.queue ∧
      ∀ k', timings.keyToOrderAndValue.lookup k' = if k' = k then some (s, t) else w.states.lookup k' := by
  obtain ⟨timings, hins, hst, hlook⟩ :=
    insertTiming_of_lookup_none (w := { w with timings := ⟨w.states.erase k, q⟩ }) hs
      (AList.lookup_erase _ _) s t
  refine ⟨timings, hins, hst, fun k' => ?_⟩
  rw [hlook]
  split
  · rfl
  · rename_i h
    exact AList.lookup_erase_ne h

/-- `removeTiming` drops the key's state. -/
theorem removeTiming_spec (hs : Synced w.states w.timings.queue) (k : K) :
    ∃ timings, w.removeTiming k =
      some { w with timings := timings, cancelled := dropState w.cancelled (w.states.lookup k) } ∧
      Synced timings.keyToOrderAndValue timings.queue ∧ timings.keyToOrderAndValue = w.states.erase k := by
  obtain ⟨q, hr, hsq⟩ := remove_spec hs k
  refine ⟨⟨_, q⟩, ?_, hsq, rfl⟩
  rw [World.removeTiming, hr]
  rfl

omit [LinearOrder K] in
/-- `RefreshState::next` keeps the tag, and runs on a state without refresh only. -/
theorem next_spec {s s' : RefreshState C B} {now : ℕ} {t : TimeOrNever}
    (h : s.next cfg now = some (s', t)) :
    s'.tag = s.tag ∧ s'.runningRefresh = none ∧ s.runningRefresh = none := by
  unfold RefreshState.next at h
  split at h
  · exact absurd h (by simp)
  · rename_i hrun
    obtain ⟨rfl, -⟩ := Prod.mk.inj (Option.some.inj h)
    exact ⟨rfl, rfl, Option.not_isSome_iff_eq_none.mp hrun⟩

/-! ### Every event keeps the invariant -/

section Events

variable {w' : World K V C B}

theorem Inv.removeTiming (hi : Inv w) (h : w.removeTiming k = some w') : Inv w' := by
  obtain ⟨timings, hr, hst, hmap⟩ := removeTiming_spec hi.synced k
  rw [hr] at h
  obtain rfl := Option.some.inj h
  exact hi.erase k hst hmap

theorem Inv.onGet (hi : Inv w) (h : w.onGet cfg k = some w') : Inv w' := by
  cases hk : w.states.lookup k with
  | none =>
    rw [World.onGet, remove_of_lookup_none hk] at h
    simp only [Option.bind_eq_bind, Option.bind_some] at h
    obtain rfl := Option.some.inj h
    exact hi
  | some e =>
    obtain ⟨s, o⟩ := e
    obtain ⟨q, hr, hsq⟩ := remove_of_lookup_some hi.synced hk
    rw [World.onGet, hr] at h
    simp only [Option.bind_eq_bind, Option.bind_some] at h
    split at h
    · -- a running refresh: the state goes back unscheduled
      rename_i hrun
      split at h
      · obtain ⟨timings, hins, hst, hlook⟩ := insertTiming_erase hsq { s with nextBackoff := none } ⊤
        rw [hins] at h
        obtain rfl := Option.some.inj h
        refine hi.replace hk ?_ ?_ hst hlook <;> rfl
      · exact absurd h (by simp)
    · -- no refresh runs: the next one is scheduled with the backoff reset
      obtain ⟨⟨s', t'⟩, hn, h⟩ := Option.bind_eq_some_iff.mp h
      obtain ⟨htag, hnone, hnone'⟩ := next_spec hn
      obtain ⟨timings, hins, hst, hlook⟩ := insertTiming_erase hsq s' t'
      rw [hins] at h
      obtain rfl := Option.some.inj h
      exact hi.replace hk htag (hnone.trans hnone'.symm) hst hlook

theorem Inv.onSet (hi : Inv w) {v : V} (h : w.onSet cfg k v = some w') : Inv w' := by
  unfold World.onSet at h
  split at h
  · cases hk : w.states.lookup k with
    | none =>
      -- a new key: a fresh state with the next tag
      rw [remove_of_lookup_none hk] at h
      simp only [Option.bind_eq_bind, Option.bind_some] at h
      obtain ⟨⟨s', t'⟩, hn, h⟩ := Option.bind_eq_some_iff.mp h
      obtain ⟨htag, hnone, -⟩ := next_spec hn
      obtain ⟨timings, hins, hst, hlook⟩ :=
        insertTiming_of_lookup_none (w := { w with tagCounter := w.tagCounter + 1 }) hi.synced hk s' t'
      obtain rfl := Option.some.inj (hins.symm.trans h)
      exact hi.fresh hk htag hnone hst hlook
    | some e =>
      -- a known key keeps its state, with the new backoff configuration
      obtain ⟨s, o⟩ := e
      obtain ⟨q, hr, hsq⟩ := remove_of_lookup_some hi.synced hk
      rw [hr] at h
      simp only [Option.bind_eq_bind, Option.bind_some] at h
      obtain ⟨timings, hins, hst, hlook⟩ := insertTiming_erase hsq _ o
      obtain rfl := Option.some.inj (hins.symm.trans h)
      refine hi.replace hk ?_ ?_ hst hlook <;> rfl
  · exact hi.removeTiming h

theorem Inv.start (hi : Inv w) (h : w.start = some w') : Inv w' := by
  rcases pop_of_synced hi.synced with ⟨hpop, -⟩ | ⟨k, s, o, q, hk, hpop, hsq⟩
  · rw [World.start, hpop] at h
    simp only [Option.bind_eq_bind, Option.bind_some] at h
    obtain rfl := Option.some.inj h
    exact hi
  · rw [World.start, hpop] at h
    simp only [Option.bind_eq_bind, Option.bind_some] at h
    split at h
    · -- the entry is due: its refresh starts, with the next token
      split at h
      · exact absurd h (by simp)
      · rename_i hrun
        obtain ⟨timings, hins, hst, hlook⟩ :=
          insertTiming_erase
            (w := { w with tokens := w.tokens + 1, tasks := w.tasks ++ [⟨k, s.tag, w.tokens, none, false⟩] })
            hsq { s with runningRefresh := some w.tokens } ⊤
        obtain rfl := Option.some.inj (hins.symm.trans h)
        exact hi.startTask hk (Option.not_isSome_iff_eq_none.mp hrun) hst hlook
    · obtain ⟨timings, hins, hst, hlook⟩ := insertTiming_erase hsq s o
      obtain rfl := Option.some.inj (hins.symm.trans h)
      exact hi.replace hk rfl rfl hst hlook

theorem Inv.apply (hi : Inv w) {v : V} (h : w.apply cfg t v = some w') : Inv w' := by
  have hu : Inv (w.updateTask t.token fun t => { t with done := true }) :=
    hi.updateTask fun _ => ⟨rfl, rfl, rfl⟩
  unfold World.apply at h
  dsimp only at h
  split at h
  · -- a cancelled refresh writes nothing
    obtain rfl := Option.some.inj h
    exact hu
  · exact (hu.withInner _).onSet h

theorem Inv.finish (hi : Inv w) (ht : t ∈ w.tasks) (h : w.finish cfg t = some w') : Inv w' := by
  have hd : (w.dropTask t.token).timings = w.timings := rfl
  cases hk : w.states.lookup t.key with
  | none =>
    -- the key has no state, so none records `t`
    simp only [World.finish, hd, remove_of_lookup_none hk, Option.bind_eq_bind, Option.bind_some] at h
    obtain rfl := Option.some.inj h
    refine hi.dropTask fun k s o hk' hrun => ?_
    obtain ⟨rfl, -⟩ := hi.recorded_task ht hk' hrun
    rw [hk] at hk'
    exact absurd hk' (by simp)
  | some e =>
    obtain ⟨s, o⟩ := e
    obtain ⟨q, hr, hsq⟩ := remove_of_lookup_some hi.synced hk
    simp only [World.finish, hd, hr, Option.bind_eq_bind, Option.bind_some] at h
    split at h
    · -- the state has the refresh's tag, so it records the refresh, which is over
      rename_i htag
      obtain ⟨⟨s', t'⟩, hn, h⟩ := Option.bind_eq_some_iff.mp h
      obtain ⟨htag', hnone, -⟩ := next_spec hn
      obtain ⟨timings, hins, hst, hlook⟩ := insertTiming_erase (w := w.dropTask t.token) hsq s' t'
      obtain rfl := Option.some.inj (hins.symm.trans h)
      exact hi.release ht hk (hi.tagged t ht s o hk htag) htag' hnone hst hlook
    · -- a newer state of the key, which does not record the refresh
      rename_i htag
      obtain ⟨timings, hins, hst, hlook⟩ := insertTiming_erase (w := w.dropTask t.token) hsq s o
      obtain rfl := Option.some.inj (hins.symm.trans h)
      refine (hi.dropTask fun k s₁ o₁ hk' hrun => ?_).replace hk rfl rfl hst hlook
      obtain ⟨rfl, htag₁⟩ := hi.recorded_task ht hk' hrun
      rw [hk] at hk'
      obtain ⟨rfl, -⟩ := Prod.mk.inj (Option.some.inj hk')
      exact htag htag₁

theorem mem_of_task? (h : w.task? tok = some t) : t ∈ w.tasks ∧ t.token = tok :=
  ⟨List.mem_of_find?_eq_some h, by simpa using List.find?_some h⟩

/-- The changes an event can make: an operation of the backend or of the worker, or nothing,
when the event's refresh cannot take it. -/
inductive Moves (cfg : RefreshConfig K V C B) (w : World K V C B) : World K V C B → Prop
  | stay : Moves cfg w w
  | get {w' : World K V C B} (k : K) : w.onGet cfg k = some w' → Moves cfg w w'
  | set {w' : World K V C B} (k : K) (v : V) :
    { w with inner := w.inner.insert k v }.onSet cfg k v = some w' → Moves cfg w w'
  | remove {w' : World K V C B} (k : K) :
    { w with inner := w.inner.erase k }.removeTiming k = some w' → Moves cfg w w'
  | tick (d : ℕ) : Moves cfg w { w with now := w.now + d }
  | start {w' : World K V C B} : w.start = some w' → Moves cfg w w'
  | load (tok : ℕ) (v : V) : Moves cfg w (w.updateTask tok fun t => { t with loaded := some v })
  | apply {w' : World K V C B} (t : Task K V) (v : V) : w.apply cfg t v = some w' → Moves cfg w w'
  | finish {w' : World K V C B} {t : Task K V} : t ∈ w.tasks → w.finish cfg t = some w' → Moves cfg w w'
  | resolve {t : Task K V} : t ∈ w.tasks → t.token ∈ w.cancelled → Moves cfg w (w.dropTask t.token)

theorem moves_of_step {e : Event K V} (h : w.step cfg e = some w') : Moves cfg w w' := by
  cases e with
  | get k => exact .get k h
  | set k v => exact .set k v h
  | remove k => exact .remove k h
  | tick d =>
    obtain rfl := Option.some.inj h
    exact .tick d
  | start => exact .start h
  | load tok v =>
    simp only [World.step] at h
    split at h
    · split at h
      · obtain rfl := Option.some.inj h
        exact .load tok v
      · obtain rfl := Option.some.inj h
        exact .stay
    · obtain rfl := Option.some.inj h
      exact .stay
  | apply tok =>
    simp only [World.step] at h
    split at h
    · split at h
      · exact .apply _ _ h
      · obtain rfl := Option.some.inj h
        exact .stay
    · obtain rfl := Option.some.inj h
      exact .stay
  | finish tok =>
    simp only [World.step] at h
    split at h
    · rename_i t ht
      split at h
      · exact .finish (mem_of_task? ht).1 h
      · obtain rfl := Option.some.inj h
        exact .stay
    · obtain rfl := Option.some.inj h
      exact .stay
  | resolve tok =>
    simp only [World.step] at h
    split at h
    · rename_i t ht
      split at h
      · rename_i hc
        obtain ⟨hmem, rfl⟩ := mem_of_task? ht
        obtain rfl := Option.some.inj h
        exact .resolve hmem hc.1
      · obtain rfl := Option.some.inj h
        exact .stay
    · obtain rfl := Option.some.inj h
      exact .stay

/-- Every event keeps the invariant. -/
theorem Inv.step (hi : Inv w) (e : Event K V) (h : w.step cfg e = some w') : Inv w' := by
  cases moves_of_step h with
  | stay => exact hi
  | get k h => exact hi.onGet h
  | set k v h => exact (hi.withInner _).onSet h
  | remove k h => exact (hi.withInner _).removeTiming h
  | tick d => exact hi.withNow _
  | start h => exact hi.start h
  | load tok v => exact hi.updateTask fun _ => ⟨rfl, rfl, rfl⟩
  | apply t v h => exact hi.apply h
  | finish ht h => exact hi.finish ht h
  | resolve ht hc =>
    -- a cancelled refresh is recorded by no state
    exact hi.dropTask fun k s o hk hrun => (hi.recorded k s o _ hk hrun).1 hc

end Events

/-- The invariant holds in every world a backend reaches. -/
theorem inv_of_reachable (hw : Transition.Reachable (World.step cfg) World.new w) : Inv w :=
  hw.invariant Inv inv_new fun _ e _ hi h => hi.step e h

/-- In every world a backend reaches, a key has at most one refresh that is not cancelled. -/
theorem at_most_one_refresh {w : World K V C B}
    (hw : Transition.Reachable (World.step cfg) World.new w) {t₁ t₂ : Task K V}
    (ht₁ : t₁ ∈ w.tasks) (ht₂ : t₂ ∈ w.tasks) (hkey : t₁.key = t₂.key)
    (hc₁ : t₁.token ∉ w.cancelled) (hc₂ : t₂.token ∉ w.cancelled) : t₁ = t₂ := by
  have hi := inv_of_reachable hw
  obtain ⟨s₁, o₁, h₁, hrun₁, -⟩ := hi.live t₁ ht₁ hc₁
  obtain ⟨s₂, o₂, h₂, hrun₂, -⟩ := hi.live t₂ ht₂ hc₂
  -- both are recorded by the one state of their key
  rw [← hkey, h₁] at h₂
  obtain ⟨rfl, -⟩ := Prod.mk.inj (Option.some.inj h₂)
  exact hi.task_eq ht₁ ht₂ (Option.some.inj (hrun₁.symm.trans hrun₂))

/-! ### Cancellation -/

section Cancellation

variable {w' : World K V C B}

/-- A refresh whose key has no state is cancelled. -/
theorem Inv.cancelled_of_lookup_none (hi : Inv w) (ht : t ∈ w.tasks)
    (hk : w.states.lookup t.key = none) : t.token ∈ w.cancelled := by
  by_contra hc
  obtain ⟨s, o, h, -⟩ := hi.live t ht hc
  rw [hk] at h
  exact absurd h (by simp)

/-- `removeTiming` leaves the key without state and keeps the refreshes. -/
theorem removeTiming_lookup (hs : Synced w.states w.timings.queue)
    (h : w.removeTiming k = some w') : w'.states.lookup k = none ∧ w'.tasks = w.tasks := by
  obtain ⟨timings, hr, -, hmap⟩ := removeTiming_spec hs k
  rw [hr] at h
  obtain rfl := Option.some.inj h
  exact ⟨by rw [World.states, hmap, AList.lookup_erase], rfl⟩

/-- A `remove(k)` cancels every refresh of `k`. -/
theorem remove_cancels (hi : Inv w) (h : w.step cfg (.remove k) = some w') :
    ∀ t ∈ w'.tasks, t.key = k → t.token ∈ w'.cancelled := by
  obtain ⟨hk, -⟩ := removeTiming_lookup (w := { w with inner := w.inner.erase k }) hi.synced h
  intro t ht hkey
  exact (hi.step _ h).cancelled_of_lookup_none ht (hkey ▸ hk)

/-- A `set(k, v)` of a value without refresh configuration cancels every refresh of `k`. -/
theorem set_none_cancels (hi : Inv w) {v : V} (hcfg : cfg.refreshIn k v = none)
    (h : w.step cfg (.set k v) = some w') : ∀ t ∈ w'.tasks, t.key = k → t.token ∈ w'.cancelled := by
  have h' := h
  simp only [World.step, World.onSet, hcfg] at h'
  obtain ⟨hk, -⟩ := removeTiming_lookup (w := { w with inner := w.inner.insert k v }) hi.synced h'
  intro t ht hkey
  exact (hi.step _ h).cancelled_of_lookup_none ht (hkey ▸ hk)

/-! A cancelled token stays cancelled: the events only ever add to `cancelled`. -/

theorem subset_dropState (cancelled : List ℕ) (r : Option (RefreshState C B × TimeOrNever)) :
    cancelled ⊆ dropState cancelled r :=
  fun _ hc => mem_dropState.mpr (Or.inl hc)

theorem insertTiming_cancelled {t : TimeOrNever}
    (h : w.insertTiming k s t = some w') : w.cancelled ⊆ w'.cancelled := by
  obtain ⟨⟨old, timings⟩, -, h⟩ := Option.bind_eq_some_iff.mp h
  obtain rfl := Option.some.inj h
  exact subset_dropState _ _

theorem removeTiming_cancelled (h : w.removeTiming k = some w') : w.cancelled ⊆ w'.cancelled := by
  obtain ⟨⟨old, timings⟩, -, h⟩ := Option.bind_eq_some_iff.mp h
  obtain rfl := Option.some.inj h
  exact subset_dropState _ _

theorem onGet_cancelled (h : w.onGet cfg k = some w') : w.cancelled ⊆ w'.cancelled := by
  obtain ⟨⟨r, timings⟩, -, h⟩ := Option.bind_eq_some_iff.mp h
  dsimp only at h
  split at h
  · obtain rfl := Option.some.inj h
    exact List.Subset.refl _
  · split at h
    · split at h
      · exact (insertTiming_cancelled h :)
      · exact absurd h (by simp)
    · obtain ⟨_, -, h⟩ := Option.bind_eq_some_iff.mp h
      exact (insertTiming_cancelled h :)

theorem onSet_cancelled {v : V} (h : w.onSet cfg k v = some w') : w.cancelled ⊆ w'.cancelled := by
  unfold World.onSet at h
  split at h
  · obtain ⟨⟨r, timings⟩, -, h⟩ := Option.bind_eq_some_iff.mp h
    dsimp only at h
    split at h
    · exact (insertTiming_cancelled h :)
    · obtain ⟨_, -, h⟩ := Option.bind_eq_some_iff.mp h
      exact (insertTiming_cancelled h :)
  · exact (removeTiming_cancelled h :)

theorem start_cancelled (h : w.start = some w') : w.cancelled ⊆ w'.cancelled := by
  obtain ⟨⟨top, timings⟩, -, h⟩ := Option.bind_eq_some_iff.mp h
  dsimp only at h
  split at h
  · obtain rfl := Option.some.inj h
    exact List.Subset.refl _
  · split at h
    · split at h
      · exact absurd h (by simp)
      · exact (insertTiming_cancelled h :)
    · exact (insertTiming_cancelled h :)

theorem apply_cancelled {v : V} (h : w.apply cfg t v = some w') : w.cancelled ⊆ w'.cancelled := by
  unfold World.apply at h
  dsimp only at h
  split at h
  · obtain rfl := Option.some.inj h
    exact List.Subset.refl _
  · exact (onSet_cancelled h :)

theorem finish_cancelled (h : w.finish cfg t = some w') : w.cancelled ⊆ w'.cancelled := by
  unfold World.finish at h
  dsimp only at h
  obtain ⟨⟨r, timings⟩, -, h⟩ := Option.bind_eq_some_iff.mp h
  dsimp only at h
  split at h
  · obtain rfl := Option.some.inj h
    exact List.Subset.refl _
  · split at h
    · obtain ⟨_, -, h⟩ := Option.bind_eq_some_iff.mp h
      exact (insertTiming_cancelled h :)
    · exact (insertTiming_cancelled h :)

theorem step_cancelled (e : Event K V) (h : w.step cfg e = some w') : w.cancelled ⊆ w'.cancelled := by
  cases moves_of_step h with
  | stay => exact List.Subset.refl _
  | get k h => exact onGet_cancelled h
  | set k v h => exact (onSet_cancelled h :)
  | remove k h => exact (removeTiming_cancelled h :)
  | tick d => exact List.Subset.refl _
  | start h => exact start_cancelled h
  | load tok v => exact List.Subset.refl _
  | apply t v h => exact apply_cancelled h
  | finish ht h => exact finish_cancelled h
  | resolve ht hc => exact List.Subset.refl _

/-- Over a whole run, by induction on its events. -/
theorem run_cancelled : ∀ (es : List (Event K V)) {w w' : World K V C B},
    run cfg w es = some w' → w.cancelled ⊆ w'.cancelled
  | [], _, _, h => by
    rw [run, List.foldlM_nil] at h
    obtain rfl := Option.some.inj h
    exact List.Subset.refl _
  | e :: es, _, _, h => by
    rw [run, List.foldlM_cons] at h
    obtain ⟨w₁, h₁, h⟩ := Option.bind_eq_some_iff.mp h
    exact List.Subset.trans (step_cancelled e h₁) (run_cancelled es h)

/-- The change request of a cancelled refresh leaves the backend as it is. -/
theorem step_apply_of_cancelled (hc : tok ∈ w.cancelled)
    (h : w.step cfg (.apply tok) = some w') : w'.inner = w.inner := by
  simp only [World.step] at h
  split at h
  · rename_i t ht
    obtain ⟨-, rfl⟩ := mem_of_task? ht
    split at h
    · unfold World.apply at h
      dsimp only at h
      split at h
      · obtain rfl := Option.some.inj h
        rfl
      · rename_i hnc
        exact absurd hc hnc
    · obtain rfl := Option.some.inj h
      rfl
  · obtain rfl := Option.some.inj h
    rfl

/-- A refresh cancelled once never writes, whatever happens after. -/
theorem never_writes_of_cancelled (hc : tok ∈ w.cancelled) (es : List (Event K V))
    {w₂ w₃ : World K V C B} (h₂ : run cfg w es = some w₂) (h₃ : w₂.step cfg (.apply tok) = some w₃) :
    w₃.inner = w₂.inner :=
  step_apply_of_cancelled (run_cancelled es h₂ hc) h₃

/-- A refresh running when `remove(k)` is called never writes its loaded value: whatever
happens after, its change request leaves the backend as it is. -/
theorem refresh_after_remove_never_writes {w w₁ w₂ w₃ : World K V C B}
    (hw : Transition.Reachable (World.step cfg) World.new w)
    (ht : t ∈ w.tasks) (hkey : t.key = k) (h₁ : w.step cfg (.remove k) = some w₁)
    (es : List (Event K V)) (h₂ : run cfg w₁ es = some w₂)
    (h₃ : w₂.step cfg (.apply t.token) = some w₃) : w₃.inner = w₂.inner := by
  have hi := inv_of_reachable hw
  obtain ⟨-, htasks⟩ := removeTiming_lookup (w := { w with inner := w.inner.erase k }) hi.synced h₁
  have hc := remove_cancels hi h₁ t (htasks ▸ ht) hkey
  exact never_writes_of_cancelled hc es h₂ h₃

/-- The same for a `set(k, v)` of a value without refresh configuration. -/
theorem refresh_after_set_none_never_writes {w w₁ w₂ w₃ : World K V C B}
    (hw : Transition.Reachable (World.step cfg) World.new w) {v : V}
    (hcfg : cfg.refreshIn k v = none) (ht : t ∈ w.tasks) (hkey : t.key = k)
    (h₁ : w.step cfg (.set k v) = some w₁) (es : List (Event K V)) (h₂ : run cfg w₁ es = some w₂)
    (h₃ : w₂.step cfg (.apply t.token) = some w₃) : w₃.inner = w₂.inner := by
  have hi := inv_of_reachable hw
  have h₁' := h₁
  simp only [World.step, World.onSet, hcfg] at h₁'
  obtain ⟨-, htasks⟩ := removeTiming_lookup (w := { w with inner := w.inner.insert k v }) hi.synced h₁'
  have hc := set_none_cancels hi hcfg h₁ t (htasks ▸ ht) hkey
  exact never_writes_of_cancelled hc es h₂ h₃

end Cancellation

end Invariant

/-! ## A set during a refresh -/

/-- Every value of every key is refreshed one second after it is set. -/
def everySecond : RefreshConfig ℕ ℕ Unit Unit := ⟨fun _ _ => some (), fun _ => (), fun _ => (some 1, ()), fun _ _ => (), 100⟩

/-- `set(0, 1)`; a second later the refresh of `0` starts; `set(0, 2)` while its loader runs;
the loader returns `3` and the refresh writes it: the backend holds `3`, not the `2` of the last
set, and `get(0)` returns it. -/
theorem refresh_overwrites_newer_set :
    ∃ w, run everySecond World.new [.set 0 1, .tick 1, .start, .set 0 2, .load 0 3, .apply 0] = some w ∧
      (w.step everySecond (.get 0)).isSome ∧ w.inner.lookup 0 = some 3 := by
  decide +kernel

/-- Once the refresh of `0` has started, its task is the one task of `0` not cancelled. -/
theorem refresh_started_one_task :
    ∃ w, run everySecond World.new [.set 0 1, .tick 1, .start] = some w ∧ ∃ t ∈ w.tasks,
      t.token ∉ w.cancelled ∧ ∀ t' ∈ w.tasks, t'.key = t.key → t'.token ∉ w.cancelled → t' = t := by
  obtain ⟨w, hw, t, ht, hc⟩ : ∃ w, run everySecond World.new [.set 0 1, .tick 1, .start] = some w ∧
      ∃ t ∈ w.tasks, t.token ∉ w.cancelled := by decide +kernel
  exact ⟨w, hw, t, ht, hc, fun t' ht' hk hc' =>
    at_most_one_refresh (Transition.reachable_of_foldlM _ .init hw) ht' ht hk hc' hc⟩

end IoxCore.CacheSystem.Refresh

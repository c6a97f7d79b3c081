import IoxCore.Lib.Chunks
import Mathlib.Data.Int.Notation
import Mathlib.Data.List.Perm.Subperm

/-!
# The object-store garbage collector's checker

`garbage_collector/src/objectstore/checker.rs` receives the objects listed in the object store
and forwards to the deleter those that may be deleted. `should_delete` keeps an object when it
is newer than the cutoff or has no file name; an object whose file name is not `<uuid>.parquet`
with a parseable `ObjectStoreId` is deleted outright; the others are looked up in the catalog
in chunks of `CATALOG_BATCH_SIZE` ids, and are deleted when the catalog does not report them. A
failed lookup keeps its whole chunk. `perform_inner` accumulates received objects and runs
`should_delete` on the batch when it holds `CATALOG_BATCH_SIZE` objects or a receive times out.

## The model

An `ObjectMeta` is its location, as its path parts (`Path::parts()`), and its `last_modified`
instant, as an integer. Parsing an `ObjectStoreId` is a parameter `parseId`. The catalog may
change between lookups, so each lookup sees its own `CatalogView`: the object store ids of the
`parquet_file` table at that moment, soft-deleted rows included, and the answer of
`exists_by_object_store_id_batch`. A view carries the property the checker relies on: an answer
lists every asked id that is in the table, as the in-memory catalog's and an erroring one do.

`perform_inner` is a function of its turns: what `timeout(RECEIVE_TIMEOUT, items.recv())`
produced, the clock read when a batch is flushed, and the catalog that flush consults. Sending
to the deleter is taken to succeed (a failed send only ends the loop earlier).
-/

namespace IoxCore.GarbageCollector

/-- `object_store::ObjectMeta`, as far as the checker reads it. -/
structure ObjectMeta where
  /-- The parts of `location`. -/
  location : List String
  /-- `last_modified`. -/
  lastModified : ℤ
  deriving DecidableEq, Repr

/-- `CATALOG_BATCH_SIZE`: the number of parquet files asked for at once. -/
def CATALOG_BATCH_SIZE : ℕ := 100

/-- `str::strip_suffix`. -/
def stripSuffix (s suffix : String) : Option String :=
  if suffix.toList.isSuffixOf s.toList then
    some (String.ofList (s.toList.take (s.length - suffix.length)))
  else none

section Checker

variable {Id E : Type}

/-- The catalog as one lookup sees it. -/
structure CatalogView (Id E : Type) where
  /-- The object store ids of the `parquet_file` table, soft-deleted rows included. -/
  table : List Id
  /-- `ParquetFileRepo::exists_by_object_store_id_batch`. -/
  existsBatch : List Id → Except E (List Id)
  /-- An answer reports every asked id that is in the table. -/
  sound : ∀ ids found, existsBatch ids = .ok found → ∀ id ∈ ids, id ∈ table → id ∈ found

/-- `MemTxn::exists_by_object_store_id_batch` over the table `files`: the ids of the
files whose id was asked, in table order. -/
def memExistsBatch [DecidableEq Id] (files ids : List Id) : List Id :=
  files.filter fun f => ids.contains f

/-- The view of the in-memory catalog. -/
def CatalogView.mem [DecidableEq Id] (files : List Id) : CatalogView Id E where
  table := files
  existsBatch ids := .ok (memExistsBatch files ids)
  sound ids found h id hid hf := by
    cases h
    exact List.mem_filter.mpr ⟨hf, List.contains_iff_mem.mpr hid⟩

variable (parseId : String → Option Id)

/-- The id an object would have as a parquet file: its last path part, stripped of
`.parquet`, parsed as an `ObjectStoreId`. -/
def parquetId (candidate : ObjectMeta) : Option Id :=
  candidate.location.getLast?.bind fun fileName =>
    (stripSuffix fileName ".parquet").bind parseId

/-- What the first loop of `should_delete` does with one candidate. -/
inductive Verdict (Id : Type) where
  /-- Too new, or no file name: ignored. -/
  | keep
  /-- Not a `.parquet` file, or not a valid UUID: scheduled for deletion. -/
  | delete
  /-- To be checked against the catalog. -/
  | check (id : Id)

/-- The first loop's decision for `candidate`, against the cutoff. -/
def verdict (cutoff : ℤ) (candidate : ObjectMeta) : Verdict Id :=
  if cutoff < candidate.lastModified then .keep
  else
    match candidate.location.getLast? with
    | none => .keep
    | some fileName =>
      match stripSuffix fileName ".parquet" with
      | some uuid =>
        match parseId uuid with
        | some objectStoreId => .check objectStoreId
        | none => .delete
      | none => .delete

/-- The first loop of `should_delete`: `to_delete` and `to_check_in_catalog`, in order. -/
def classify (cutoff : ℤ) : List ObjectMeta → List ObjectMeta × List (Id × ObjectMeta)
  | [] => ([], [])
  | candidate :: items =>
    let (toDelete, toCheck) := classify cutoff items
    match verdict parseId cutoff candidate with
    | .keep => (toDelete, toCheck)
    | .delete => (candidate :: toDelete, toCheck)
    | .check objectStoreId => (toDelete, (objectStoreId, candidate) :: toCheck)

/-- The catalog loop of `should_delete`: the ids of `do_not_delete`, chunk `k` looked up
in `catalog k`. A failed lookup puts its whole chunk in. -/
def doNotDelete [DecidableEq Id] (catalog : ℕ → CatalogView Id E) : ℕ → List (List (Id × ObjectMeta)) → List Id
  | _, [] => []
  | k, batch :: batches =>
    let justUuids := batch.map (·.1)
    let present :=
      match (catalog k).existsBatch justUuids with
      | .ok presentUuids => presentUuids
      | .error _ => justUuids
    present ++ doNotDelete catalog (k + 1) batches

/-- `should_delete`: the objects that should be deleted. -/
def shouldDelete [DecidableEq Id] (items : List ObjectMeta) (cutoff : ℤ) (catalog : ℕ → CatalogView Id E) :
    List ObjectMeta :=
  let (toDelete, toCheck) := classify parseId cutoff items
  let kept := doNotDelete catalog 0 (toCheck.chunks CATALOG_BATCH_SIZE)
  toDelete ++ (toCheck.filter fun c => !kept.contains c.1).map (·.2)

/-- The lists of ids `should_delete` asks the catalog about, in order: the ids of the
chunks of `to_check_in_catalog`. -/
def catalogLookups (items : List ObjectMeta) (cutoff : ℤ) : List (List Id) :=
  ((classify parseId cutoff items).2.chunks CATALOG_BATCH_SIZE).map fun batch => batch.map (·.1)

/-! ### The first loop -/

variable {parseId}

/-- The first loop checks exactly the old-enough objects with a parquet id. -/
theorem verdict_eq_check_iff {cutoff : ℤ} {candidate : ObjectMeta} {objectStoreId : Id} :
    verdict parseId cutoff candidate = .check objectStoreId ↔
      candidate.lastModified ≤ cutoff ∧ parquetId parseId candidate = some objectStoreId := by
  unfold verdict parquetId
  by_cases hnew : cutoff < candidate.lastModified
  · simp only [hnew, if_true, reduceCtorEq, false_iff, not_and]
    exact fun h => absurd hnew (Int.not_lt.mpr h)
  · simp only [hnew, if_false, Int.not_lt.mp hnew, true_and]
    rcases hl : candidate.location.getLast? with _ | fileName
    · simp
    · rcases hs : stripSuffix fileName ".parquet" with _ | uuid
      · simp [hs]
      · rcases hp : parseId uuid with _ | objectStoreId' <;> simp [hs, hp]

/-- The first loop deletes outright only old-enough objects without a parquet id. -/
theorem verdict_eq_delete {cutoff : ℤ} {candidate : ObjectMeta}
    (h : verdict parseId cutoff candidate = .delete) :
    candidate.lastModified ≤ cutoff ∧ parquetId parseId candidate = none := by
  unfold verdict at h
  unfold parquetId
  by_cases hnew : cutoff < candidate.lastModified
  · simp [hnew] at h
  · refine ⟨Int.not_lt.mp hnew, ?_⟩
    simp only [hnew, if_false] at h
    rcases hl : candidate.location.getLast? with _ | fileName
    · simp [hl] at h
    · rcases hs : stripSuffix fileName ".parquet" with _ | uuid
      · simp [hs]
      · rcases hp : parseId uuid with _ | objectStoreId
        · simp [hs, hp]
        · simp [hl, hs, hp] at h

/-- What the first loop puts in `to_delete`. -/
theorem mem_classify_fst {cutoff : ℤ} {items : List ObjectMeta} {m : ObjectMeta}
    (h : m ∈ (classify parseId cutoff items).1) :
    m ∈ items ∧ verdict parseId cutoff m = .delete := by
  induction items with
  | nil => cases h
  | cons c items ih =>
    simp only [classify] at h
    rcases hv : verdict parseId cutoff c with _ | _ | objectStoreId <;> simp only [hv] at h
    · exact ⟨List.mem_cons_of_mem c (ih h).1, (ih h).2⟩
    · rcases List.mem_cons.mp h with rfl | h
      · exact ⟨List.mem_cons_self, hv⟩
      · exact ⟨List.mem_cons_of_mem c (ih h).1, (ih h).2⟩
    · exact ⟨List.mem_cons_of_mem c (ih h).1, (ih h).2⟩

/-- What the first loop puts in `to_check_in_catalog`. -/
theorem mem_classify_snd {cutoff : ℤ} {items : List ObjectMeta} {c : Id × ObjectMeta}
    (h : c ∈ (classify parseId cutoff items).2) :
    c.2 ∈ items ∧ verdict parseId cutoff c.2 = .check c.1 := by
  induction items with
  | nil => cases h
  | cons d items ih =>
    simp only [classify] at h
    rcases hv : verdict parseId cutoff d with _ | _ | objectStoreId <;> simp only [hv] at h
    · exact ⟨List.mem_cons_of_mem d (ih h).1, (ih h).2⟩
    · exact ⟨List.mem_cons_of_mem d (ih h).1, (ih h).2⟩
    · rcases List.mem_cons.mp h with rfl | h
      · exact ⟨List.mem_cons_self, hv⟩
      · exact ⟨List.mem_cons_of_mem d (ih h).1, (ih h).2⟩

variable (parseId) in
/-- The first loop sends each object to at most one of its two lists. -/
theorem classify_subperm (cutoff : ℤ) (items : List ObjectMeta) :
    ((classify parseId cutoff items).1 ++ (classify parseId cutoff items).2.map (·.2)).Subperm items := by
  induction items with
  | nil => exact List.Subperm.refl _
  | cons c items ih =>
    simp only [classify]
    cases verdict parseId cutoff c with
    | keep => exact ih.cons_right c
    | delete => exact (List.subperm_cons c).mpr ih
    | check objectStoreId =>
      simp only [List.map_cons]
      exact List.perm_middle.subperm_right.mpr ((List.subperm_cons c).mpr ih)

/-! ### The catalog loop -/

/-- An id of a chunk stays out of `do_not_delete` only if that chunk's lookup
answered, without it. -/
theorem doNotDelete_complete [DecidableEq Id] {catalog : ℕ → CatalogView Id E} {id : Id} :
    ∀ (batches : List (List (Id × ObjectMeta))) (k j : ℕ) (batch : List (Id × ObjectMeta)),
      batches[j]? = some batch → id ∈ batch.map (·.1) → id ∉ doNotDelete catalog k batches →
      ∃ found, (catalog (k + j)).existsBatch (batch.map (·.1)) = .ok found ∧ id ∉ found
  | [], _, _, _, hj, _, _ => by cases hj
  | b :: batches, k, 0, batch, hj, hid, hout => by
    cases hj
    simp only [doNotDelete, List.mem_append, not_or] at hout
    rcases hanswer : (catalog k).existsBatch (b.map (·.1)) with e | found
    · simp only [hanswer] at hout
      exact absurd hid hout.1
    · simp only [hanswer] at hout
      exact ⟨found, hanswer, hout.1⟩
  | b :: batches, k, j + 1, batch, hj, hid, hout => by
    simp only [doNotDelete, List.mem_append, not_or] at hout
    obtain ⟨found, hfound, hnot⟩ := doNotDelete_complete batches (k + 1) j batch hj hid hout.2
    exact ⟨found, by rwa [Nat.add_right_comm, Nat.add_assoc] at hfound, hnot⟩

/-! ### What `should_delete` returns -/

/-- An object kept by the catalog loop was checked in every chunk holding its id, and
each of those lookups answered without it, so it is absent from the table each
of them saw. -/
theorem absent_of_not_mem_doNotDelete [DecidableEq Id] {catalog : ℕ → CatalogView Id E}
    {toCheck : List (Id × ObjectMeta)} {objectStoreId : Id}
    (hout : objectStoreId ∉ doNotDelete catalog 0 (toCheck.chunks CATALOG_BATCH_SIZE))
    {j : ℕ} {ids : List Id}
    (hj : ((toCheck.chunks CATALOG_BATCH_SIZE).map fun batch => batch.map (·.1))[j]? = some ids)
    (hid : objectStoreId ∈ ids) :
    ∃ found, (catalog j).existsBatch ids = .ok found ∧ objectStoreId ∉ (catalog j).table := by
  rw [List.getElem?_map] at hj
  obtain ⟨batch, hbatch, rfl⟩ := Option.map_eq_some_iff.mp hj
  obtain ⟨found, hfound, hnot⟩ := doNotDelete_complete _ 0 j batch hbatch hid hout
  rw [Nat.zero_add] at hfound
  exact ⟨found, hfound, fun htable => hnot ((catalog j).sound _ found hfound objectStoreId hid htable)⟩

/-- Every entry of `to_check_in_catalog` is looked up in some chunk. -/
theorem exists_lookup_of_mem {toCheck : List (Id × ObjectMeta)} {c : Id × ObjectMeta}
    (hc : c ∈ toCheck) :
    ∃ (j : ℕ) (ids : List Id), ((toCheck.chunks CATALOG_BATCH_SIZE).map fun batch => batch.map (·.1))[j]? = some ids ∧
      c.1 ∈ ids := by
  obtain ⟨batch, hbatch, hcb⟩ := List.exists_mem_chunks (by decide : 0 < CATALOG_BATCH_SIZE) hc
  obtain ⟨j, hj, hget⟩ := List.mem_iff_getElem.mp hbatch
  refine ⟨j, batch.map (·.1), ?_, List.mem_map_of_mem hcb⟩
  rw [List.getElem?_map, List.getElem?_eq_getElem hj, hget]
  rfl

variable (parseId) in
/-- What may be handed to the deleter for a batch `items`, cutoff `cutoff` and catalog
lookups `catalog`: part of the batch (each object at most as often as it was
given), old enough, and an object with a parquet id only when every catalog
lookup of that id answered and found it absent from the `parquet_file` table it
saw; in particular an id whose lookup failed is never handed over. -/
def SafeDeletion [DecidableEq Id] (items : List ObjectMeta) (cutoff : ℤ)
    (catalog : ℕ → CatalogView Id E) (out : List ObjectMeta) : Prop :=
  out.Subperm items ∧
    ∀ m ∈ out,
      m.lastModified ≤ cutoff ∧
      ∀ objectStoreId, parquetId parseId m = some objectStoreId →
        (∃ (j : ℕ) (ids : List Id), (catalogLookups parseId items cutoff)[j]? = some ids ∧
          objectStoreId ∈ ids) ∧
        ∀ (j : ℕ) (ids : List Id), (catalogLookups parseId items cutoff)[j]? = some ids →
          objectStoreId ∈ ids →
          ∃ found, (catalog j).existsBatch ids = .ok found ∧ objectStoreId ∉ (catalog j).table

/-- `should_delete` returns only what may be deleted. -/
theorem shouldDelete_safe [DecidableEq Id] (items : List ObjectMeta) (cutoff : ℤ)
    (catalog : ℕ → CatalogView Id E) :
    SafeDeletion parseId items cutoff catalog (shouldDelete parseId items cutoff catalog) := by
  unfold SafeDeletion shouldDelete catalogLookups
  generalize hcl : classify parseId cutoff items = cl
  obtain ⟨toDelete, toCheck⟩ := cl
  have hsub : (toDelete ++ toCheck.map (·.2)).Subperm items := by
    simpa [hcl] using classify_subperm parseId cutoff items
  refine ⟨?_, ?_⟩
  · -- the checked objects that are returned are a sublist of all checked objects
    have hkept : ((toCheck.filter fun c => !(doNotDelete catalog 0
        (toCheck.chunks CATALOG_BATCH_SIZE)).contains c.1).map (·.2)).Sublist (toCheck.map (·.2)) :=
      (List.filter_sublist).map _
    exact ((List.subperm_append_left toDelete).mpr hkept.subperm).trans hsub
  · intro m hm
    rcases List.mem_append.mp hm with hdel | hcheck
    · have hd : m ∈ items ∧ verdict parseId cutoff m = .delete :=
        mem_classify_fst (by rw [hcl]; exact hdel)
      obtain ⟨hold, hnone⟩ := verdict_eq_delete hd.2
      refine ⟨hold, fun objectStoreId hid => ?_⟩
      rw [hnone] at hid
      cases hid
    · obtain ⟨c, hc, rfl⟩ := List.mem_map.mp hcheck
      obtain ⟨hcmem, hkeep⟩ := List.mem_filter.mp hc
      have hcv : c.2 ∈ items ∧ verdict parseId cutoff c.2 = .check c.1 :=
        mem_classify_snd (by rw [hcl]; exact hcmem)
      obtain ⟨hold, hid⟩ := verdict_eq_check_iff.mp hcv.2
      refine ⟨hold, fun objectStoreId hid' => ?_⟩
      rw [hid] at hid'
      cases hid'
      have hout : c.1 ∉ doNotDelete catalog 0 (toCheck.chunks CATALOG_BATCH_SIZE) := by
        simpa using hkeep
      exact ⟨exists_lookup_of_mem hcmem, fun j ids hj hmem => absent_of_not_mem_doNotDelete hout hj hmem⟩

/-! ### The receive loop -/

/-- What `timeout(RECEIVE_TIMEOUT, items.recv())` produced on one turn of the loop. -/
inductive Received where
  /-- `Ok(Some(item))`. -/
  | item (m : ObjectMeta)
  /-- `Ok(None)`: the channel has been closed. -/
  | closed
  /-- `Err(Elapsed)`: the receive timed out. -/
  | timedOut

/-- One turn of `perform_inner`: what was received, the clock `Utc::now()` if the
batch is flushed, and the catalog the flush's lookups see. -/
structure Turn (Id E : Type) where
  received : Received
  now : ℤ
  catalog : ℕ → CatalogView Id E

/-- `checker::Error`, as far as `perform_inner` raises it. -/
inductive Error where
  /-- The items channel closed unexpectedly. -/
  | channelClosed

/-- A batch handed to `should_delete`, its `older_than`, the catalog its lookups saw,
and what was sent to the deleter. -/
structure Flush (Id E : Type) where
  batch : List ObjectMeta
  olderThan : ℤ
  catalog : ℕ → CatalogView Id E
  sent : List ObjectMeta

variable (parseId) in
/-- `perform_inner` over a sequence of turns, from a pending `batch`: the flushes it
makes, and the error that ended the loop, if any. -/
def performInner [DecidableEq Id] (cutoff : ℤ) :
    List ObjectMeta → List (Turn Id E) → List (Flush Id E) × Option Error
  | _, [] => ([], none)
  | batch, turn :: turns =>
    match turn.received with
    | .closed => ([], some .channelClosed)
    | received =>
      let batch := match received with
        | .item m => batch ++ [m]
        | _ => batch
      let timedout := match received with
        | .timedOut => true
        | _ => false
      if CATALOG_BATCH_SIZE ≤ batch.length ∨ timedout = true then
        let olderThan := turn.now - cutoff
        let sent := shouldDelete parseId batch olderThan turn.catalog
        let (flushes, err) := performInner cutoff [] turns
        (⟨batch, olderThan, turn.catalog, sent⟩ :: flushes, err)
      else performInner cutoff batch turns

variable [DecidableEq Id] {cutoff : ℤ} {batch : List ObjectMeta} {turn : Turn Id E}
  {turns : List (Turn Id E)}

/-- A received item joins the batch, which is flushed once it is full. -/
theorem performInner_item {m : ObjectMeta} (hr : turn.received = .item m) :
    performInner parseId cutoff batch (turn :: turns) =
      if CATALOG_BATCH_SIZE ≤ (batch ++ [m]).length then
        (⟨batch ++ [m], turn.now - cutoff, turn.catalog,
            shouldDelete parseId (batch ++ [m]) (turn.now - cutoff) turn.catalog⟩ ::
          (performInner parseId cutoff [] turns).1, (performInner parseId cutoff [] turns).2)
      else performInner parseId cutoff (batch ++ [m]) turns := by
  simp [performInner, hr]

/-- A closed channel ends the loop with `ChannelClosed`. -/
theorem performInner_closed (hr : turn.received = .closed) :
    performInner parseId cutoff batch (turn :: turns) = ([], some .channelClosed) := by
  simp [performInner, hr]

/-- A timeout flushes the batch. -/
theorem performInner_timedOut (hr : turn.received = .timedOut) :
    performInner parseId cutoff batch (turn :: turns) =
      (⟨batch, turn.now - cutoff, turn.catalog,
          shouldDelete parseId batch (turn.now - cutoff) turn.catalog⟩ ::
        (performInner parseId cutoff [] turns).1, (performInner parseId cutoff [] turns).2) := by
  simp [performInner, hr]

/-- Every flush of `perform_inner` sends what `should_delete` returns for its batch. -/
theorem performInner_sent (cutoff : ℤ) :
    ∀ (turns : List (Turn Id E)) (batch : List ObjectMeta),
      ∀ f ∈ (performInner parseId cutoff batch turns).1,
        f.sent = shouldDelete parseId f.batch f.olderThan f.catalog
  | [], _, f, hf => by cases hf
  | turn :: turns, batch, f, hf => by
    rcases hr : turn.received with m | _ | _
    · rw [performInner_item hr] at hf
      split_ifs at hf with hflush
      · rcases List.mem_cons.mp hf with rfl | hf
        · rfl
        · exact performInner_sent cutoff turns [] f hf
      · exact performInner_sent cutoff turns _ f hf
    · rw [performInner_closed hr] at hf
      cases hf
    · rw [performInner_timedOut hr] at hf
      rcases List.mem_cons.mp hf with rfl | hf
      · rfl
      · exact performInner_sent cutoff turns [] f hf

/-- The objects received on a sequence of turns, up to a closed channel. -/
def receivedItems : List (Turn Id E) → List ObjectMeta
  | [] => []
  | turn :: turns =>
    match turn.received with
    | .item m => m :: receivedItems turns
    | .closed => []
    | .timedOut => receivedItems turns

/-- The flushed batches are the received objects, in order, each once: their
concatenation is a prefix of the pending batch followed by what is received. -/
theorem performInner_batches (cutoff : ℤ) :
    ∀ (turns : List (Turn Id E)) (batch : List ObjectMeta),
      ((performInner parseId cutoff batch turns).1.map (·.batch)).flatten <+:
        batch ++ receivedItems turns
  | [], batch => by simp [performInner]
  | turn :: turns, batch => by
    rcases hr : turn.received with m | _ | _
    · rw [performInner_item hr]
      have hrec : batch ++ receivedItems (turn :: turns) = batch ++ [m] ++ receivedItems turns := by
        simp [receivedItems, hr]
      rw [hrec]
      split_ifs with hflush
      · simpa using (List.prefix_append_right_inj (batch ++ [m])).mpr
          (performInner_batches cutoff turns [])
      · exact performInner_batches cutoff turns (batch ++ [m])
    · rw [performInner_closed hr]
      exact List.nil_prefix
    · rw [performInner_timedOut hr]
      have hrec : batch ++ receivedItems (turn :: turns) = batch ++ receivedItems turns := by
        simp [receivedItems, hr]
      rw [hrec]
      simpa using (List.prefix_append_right_inj batch).mpr (performInner_batches cutoff turns [])

/-- Object-store garbage collection never deletes a live file: for every batch, cutoff
and catalog, `should_delete` returns only what may be deleted, and so does every
flush of `perform_inner`, whatever the sequence of receives, timeouts, clocks and
catalog states. -/
theorem gc_never_deletes_live_file :
    (∀ (items : List ObjectMeta) (cutoff : ℤ) (catalog : ℕ → CatalogView Id E),
      SafeDeletion parseId items cutoff catalog (shouldDelete parseId items cutoff catalog)) ∧
    ∀ (cutoff : ℤ) (turns : List (Turn Id E)),
      ∀ f ∈ (performInner parseId cutoff [] turns).1,
        SafeDeletion parseId f.batch f.olderThan f.catalog f.sent := by
  refine ⟨shouldDelete_safe, fun cutoff turns f hf => ?_⟩
  rw [performInner_sent cutoff turns [] f hf]
  exact shouldDelete_safe f.batch f.olderThan f.catalog

end Checker

end IoxCore.GarbageCollector

import IoxCore.IoxCatalog.Mem
import IoxCore.Lib.Transition

/-!
# Parquet files in the in-memory catalog

`ParquetFileRepo for MemTxn` (iox_catalog/src/mem.rs), with the calls that create the
namespaces and partitions the files belong to. A parquet file gets the id
`stage.parquet_files.len() + 1` when it is created, and `delete_old_ids_only` removes it from the
vector once it has been flagged for deletion long enough. The calls:

* `create_upgrade_delete`: after an `assert!` that no file is both deleted and upgraded, on a
  clone of the collections, it flags each deleted file, sets the compaction level of the
  upgraded ones, and creates each new file; the clone replaces the collections only when all of
  it succeeded;
* `flag_for_delete_by_retention`: flags each unflagged file older than its namespace's retention
  period, through a lazy `filter_map` cut by `take(1_000)`;
* `delete_old_ids_only`: removes every file flagged before `older_than`, and returns the object
  store ids of the first `10_000` of them;
* `NamespaceRepo::create`, `NamespaceRepo::update_retention_period` and
  `PartitionRepo::create_or_get`.

## What is proved

* `exec_createUpgradeDelete_of_error`: a failed `create_upgrade_delete` leaves the catalog as it
  was; `createUpgradeDelete_spec`: one that returns has flagged every deleted file, put every
  upgraded file at the target level, and stored every created file under the id it returns.
* `Inv.of_reachable`: in every state a run reaches, namespace and partition ids are their
  positions, and no two parquet files share an object store id.
* `retentionScan_spec`: retention flags exactly the files it returns, each past its retention.
* `exec_deleteOldIdsOnly`: the state after `delete_old_ids_only` and the ids it returns.

Two properties one may expect do not hold. The id of a new file is computed from the length of
the vector, which `delete_old_ids_only` shortens, so a file can be created with the id of a live
one (`parquetFileId_reused`). And `delete_old_ids_only` removes every old file but reports at
most `10_000` of them, so the object store files of the others are never reported for deletion
(`deleteOldIdsOnly_drops_unreported`).

## The model

The calls read none of the rows the calls of `Mem` read, so they are modelled over their own
`MemCollections`, with the fields they read. Object store ids are the UUIDs' values, as in
`ParquetFile.Path`; times and ids are integers. The clock is read once per call (the source
reads it for each deleted file, and nothing depends on the marks being equal). A panic ends a
run, so the files the retention scan flagged before a panicking subtraction are not kept.
-/

namespace IoxCore.IoxCatalog

open RustStr (intText uuidText)

/-- `CompactionLevel`. -/
inductive CompactionLevel
  | initial
  | fileNonOverlapped
  | final
  deriving DecidableEq, Repr

namespace ParquetFiles

/-- `MAX_PARQUET_FILES_SELECTED_ONCE_FOR_RETENTION`. -/
def maxParquetFilesSelectedOnceForRetention : ℕ := 1000

/-- `MAX_PARQUET_FILES_SELECTED_ONCE_FOR_DELETE`. -/
def maxParquetFilesSelectedOnceForDelete : ℕ := 10000

/-- `Namespace`: its id, the name `create` and `update_retention_period` look up, and the
retention period the scan reads. -/
structure Namespace where
  id : ℤ
  name : List Char
  retentionPeriodNs : Option ℤ
  deriving DecidableEq, Repr

/-- `Partition`: the fields `create_or_get` matches and writes, and `new_file_at`. -/
structure Partition where
  id : ℤ
  tableId : ℤ
  partitionKey : List Char
  newFileAt : Option ℤ
  deriving DecidableEq, Repr

/-- `ParquetFileParams`: the fields the calls read. -/
structure ParquetFileParams where
  namespaceId : ℤ
  partitionId : ℤ
  objectStoreId : ℕ
  maxTime : ℤ
  compactionLevel : CompactionLevel
  createdAt : ℤ
  deriving DecidableEq, Repr

/-- `ParquetFile`: the fields the calls read or write. -/
structure ParquetFile where
  id : ℤ
  namespaceId : ℤ
  partitionId : ℤ
  objectStoreId : ℕ
  maxTime : ℤ
  toDelete : Option ℤ
  compactionLevel : CompactionLevel
  createdAt : ℤ
  deriving DecidableEq, Repr

/-- `ParquetFile::from_params`: not flagged for deletion. -/
def ParquetFile.fromParams (params : ParquetFileParams) (id : ℤ) : ParquetFile :=
  ⟨id, params.namespaceId, params.partitionId, params.objectStoreId, params.maxTime, none,
    params.compactionLevel, params.createdAt⟩

/-- The rows of `MemCollections` that the parquet file calls read and write. -/
structure MemCollections where
  namespaces : List Namespace
  partitions : List Partition
  parquetFiles : List ParquetFile
  deriving DecidableEq, Repr

/-- A call on `MemTxn`. -/
abbrev Txn (α : Type) := StateErr MemCollections Error α

/-- `iter_mut().find(p)` and an update of what it finds: `g` applied to the first element that
satisfies `p`. -/
def modifyFirst {α : Type} (p : α → Bool) (g : α → α) : List α → List α
  | [] => []
  | a :: l => if p a then g a :: l else a :: modifyFirst p g l

/-! ### Namespaces and partitions -/

/-- `NamespaceRepo::create`: the fields the model keeps. -/
def createNamespace (name : List Char) (retentionPeriodNs : Option ℤ) : Txn Namespace := do
  let stage ← get
  if stage.namespaces.any (·.name == name) then throw (.alreadyExists name)
  let ns : Namespace := ⟨stage.namespaces.length + 1, name, retentionPeriodNs⟩
  set { stage with namespaces := stage.namespaces ++ [ns] }
  pure ns

/-- `NamespaceRepo::update_retention_period`. -/
def updateRetentionPeriod (name : List Char) (retentionPeriodNs : Option ℤ) : Txn Namespace := do
  let stage ← get
  match stage.namespaces.find? (·.name == name) with
  | none => throw (.notFound name)
  | some n =>
    set { stage with
      namespaces := modifyFirst (·.name == name) (fun n => { n with retentionPeriodNs })
        stage.namespaces }
    pure { n with retentionPeriodNs }

/-- `PartitionRepo::create_or_get`. -/
def createOrGetPartition (key : List Char) (tableId : ℤ) : Txn Partition := do
  let stage ← get
  match stage.partitions.find? fun p => p.partitionKey == key && p.tableId == tableId with
  | some p => pure p
  | none =>
    let p : Partition := ⟨stage.partitions.length + 1, tableId, key, none⟩
    set { stage with partitions := stage.partitions ++ [p] }
    pure p

/-! ### The helpers of `create_upgrade_delete` -/

/-- `create_parquet_file`. The file is pushed before its partition is looked up, so a missing
partition fails the call with the file pushed; `create_upgrade_delete` then drops the stage. -/
def createParquetFile (params : ParquetFileParams) : Txn ParquetFile := do
  let stage ← get
  if stage.parquetFiles.any (·.objectStoreId == params.objectStoreId) then
    throw (.alreadyExists (uuidText params.objectStoreId))
  let parquetFile := ParquetFile.fromParams params (stage.parquetFiles.length + 1)
  let parquetFiles := stage.parquetFiles ++ [parquetFile]
  set { stage with parquetFiles }
  match stage.partitions.find? (·.id == params.partitionId) with
  | none => throw (.notFound (intText params.partitionId))
  | some _ =>
    -- `new_file_at` of the file's partition becomes its `created_at`
    set { stage with
      parquetFiles
      partitions := modifyFirst (·.id == params.partitionId)
        (fun p => { p with newFileAt := some params.createdAt }) stage.partitions }
    pure parquetFile

/-- The file `flag_for_delete` looks for. -/
def IsFileOf (partitionId : ℤ) (id : ℕ) (f : ParquetFile) : Bool :=
  f.objectStoreId == id && f.partitionId == partitionId

/-- `flag_for_delete`: the first file of the partition with the object store id, which must not
be flagged yet. -/
def flagForDelete (partitionId : ℤ) (id : ℕ) (markedAt : ℤ) : Txn Unit := do
  let stage ← get
  match stage.parquetFiles.find? (IsFileOf partitionId id) with
  | some f =>
    if f.toDelete.isNone then
      set { stage with
        parquetFiles := modifyFirst (IsFileOf partitionId id)
          (fun f => { f with toDelete := some markedAt }) stage.parquetFiles }
    else throw (.notFound ("parquet file ".toList ++ uuidText id ++ " not found for delete".toList))
  | none => throw (.notFound ("parquet file ".toList ++ uuidText id ++ " not found for delete".toList))

/-- The files `update_compaction_level` upgrades: those of the partition with one of the ids,
flagged or not. -/
def IsUpgraded (partitionId : ℤ) (objectStoreIds : List ℕ) (f : ParquetFile) : Bool :=
  decide (f.objectStoreId ∈ objectStoreIds) && f.partitionId == partitionId

/-- `update_compaction_level`: every id must be of an unflagged file of the partition. -/
def updateCompactionLevel (partitionId : ℤ) (objectStoreIds : List ℕ)
    (compactionLevel : CompactionLevel) : Txn (List ℕ) := do
  let stage ← get
  let allIds := (stage.parquetFiles.filter fun f => f.partitionId == partitionId && f.toDelete.isNone).map
    (·.objectStoreId)
  -- the loop over the ids returns at the first one missing
  match objectStoreIds.find? (· ∉ allIds) with
  | some id => throw (.notFound ("parquet file ".toList ++ uuidText id ++ " not found for upgrade".toList))
  | none =>
    set { stage with
      parquetFiles := stage.parquetFiles.map fun f =>
        if IsUpgraded partitionId objectStoreIds f then { f with compactionLevel } else f }
    pure ((stage.parquetFiles.filter (IsUpgraded partitionId objectStoreIds)).map (·.objectStoreId))

/-- The text of the error for a file of another partition. -/
def inconsistentMessage (partitionId other : ℤ) : List Char :=
  "Inconsistent ParquetFileParams, expected PartitionId(".toList ++ intText partitionId ++
    ") got PartitionId(".toList ++ intText other ++ ")".toList

/-- The loop of `create_upgrade_delete` over the files to create: each must be of the
partition. -/
def createInPartition (partitionId : ℤ) (file : ParquetFileParams) : Txn ℤ := do
  if file.partitionId ≠ partitionId then
    throw (.external (inconsistentMessage partitionId file.partitionId))
  let res ← createParquetFile file
  pure res.id

/-- What `create_upgrade_delete` does on its clone of the collections. -/
def createUpgradeDeleteStage (now partitionId : ℤ) (delete upgrade : List ℕ)
    (create : List ParquetFileParams) (targetLevel : CompactionLevel) : Txn (List ℤ) := do
  delete.forM fun id => flagForDelete partitionId id now
  let _ ← updateCompactionLevel partitionId upgrade targetLevel
  create.mapM (createInPartition partitionId)

/-- `ParquetFileRepo::create_upgrade_delete`: the work is done on a clone, which replaces the
collections only if all of it succeeded. -/
def createUpgradeDelete (now partitionId : ℤ) (delete upgrade : List ℕ)
    (create : List ParquetFileParams) (targetLevel : CompactionLevel) : Txn (List ℤ) := do
  -- `assert!(delete_set.is_disjoint(&upgrade_set))`
  if delete.any (· ∈ upgrade) then StateErr.abort
  let collections ← get
  tryCatch (createUpgradeDeleteStage now partitionId delete upgrade create targetLevel)
    fun e => do
      set collections
      throw e

/-! ### Retention and deletion -/

/-- `Timestamp - i64`: a `checked_sub` with an `expect`, `none` for its panic. -/
def timestampSub (a b : ℤ) : Option ℤ :=
  if -2 ^ 63 ≤ a - b ∧ a - b < 2 ^ 63 then some (a - b) else none

/-- The retention period of a file's namespace, if it has one. -/
def retentionOf (namespaces : List Namespace) (f : ParquetFile) : Option ℤ :=
  (namespaces.find? (·.id == f.namespaceId)).bind (·.retentionPeriodNs)

/-- The lazy `filter(..).filter_map(..).take(limit)` of `flag_for_delete_by_retention`: the files
with the flags set, and the partition and object store ids of the flagged ones; `none` for a
panic. Once `limit` files are flagged the scan stops, and no later file is looked at. -/
def retentionScan (namespaces : List Namespace) (now : ℤ) : ℕ → List ParquetFile →
    Option (List ParquetFile × List (ℤ × ℕ))
  | 0, files => some (files, [])
  | _ + 1, [] => some ([], [])
  | n + 1, f :: files =>
    match f.toDelete, retentionOf namespaces f with
    | none, some rp =>
      match timestampSub now rp with
      | none => none
      | some cutoff =>
        if f.maxTime < cutoff then
          (retentionScan namespaces now n files).map fun r =>
            ({ f with toDelete := some now } :: r.1, (f.partitionId, f.objectStoreId) :: r.2)
        else (retentionScan namespaces now (n + 1) files).map fun r => (f :: r.1, r.2)
    -- flagged already, or of a namespace without a retention period
    | _, _ => (retentionScan namespaces now (n + 1) files).map fun r => (f :: r.1, r.2)

/-- `ParquetFileRepo::flag_for_delete_by_retention`. -/
def flagForDeleteByRetention (now : ℤ) : Txn (List (ℤ × ℕ)) := do
  let stage ← get
  match retentionScan stage.namespaces now maxParquetFilesSelectedOnceForRetention
      stage.parquetFiles with
  | none => StateErr.abort
  | some (parquetFiles, flagged) =>
    set { stage with parquetFiles }
    pure flagged

/-- The files `delete_old_ids_only` removes: those flagged before `older_than`. -/
def IsOld (olderThan : ℤ) (f : ParquetFile) : Bool :=
  match f.toDelete with
  | some markedDeleted => decide (markedDeleted < olderThan)
  | none => false

/-- `ParquetFileRepo::delete_old_ids_only`: every old file is removed, and the object store ids
of the first `MAX_PARQUET_FILES_SELECTED_ONCE_FOR_DELETE` of them are returned. -/
def deleteOldIdsOnly (olderThan : ℤ) : Txn (List ℕ) := do
  let stage ← get
  set { stage with parquetFiles := stage.parquetFiles.filter fun f => !IsOld olderThan f }
  pure (((stage.parquetFiles.filter (IsOld olderThan)).take maxParquetFilesSelectedOnceForDelete).map
    (·.objectStoreId))

/-- A file the retention scan may flag: not flagged yet, and older than its namespace's
retention period allows. -/
def Expired (namespaces : List Namespace) (now : ℤ) (f : ParquetFile) : Prop :=
  f.toDelete = none ∧ ∃ rp, retentionOf namespaces f = some rp ∧ f.maxTime < now - rp

/-! ### Runs -/

/-- The modelled calls, with their arguments; `now` is the time the call reads. -/
inductive Call
  | createNamespace (name : List Char) (retentionPeriodNs : Option ℤ)
  | updateRetentionPeriod (name : List Char) (retentionPeriodNs : Option ℤ)
  | createOrGetPartition (key : List Char) (tableId : ℤ)
  | createUpgradeDelete (now partitionId : ℤ) (delete upgrade : List ℕ)
      (create : List ParquetFileParams) (targetLevel : CompactionLevel)
  | flagForDeleteByRetention (now : ℤ)
  | deleteOldIdsOnly (olderThan : ℤ)

/-- A call, its result dropped. -/
def Call.run : Call → Txn Unit
  | .createNamespace name retentionPeriodNs =>
    discard (ParquetFiles.createNamespace name retentionPeriodNs)
  | .updateRetentionPeriod name retentionPeriodNs =>
    discard (ParquetFiles.updateRetentionPeriod name retentionPeriodNs)
  | .createOrGetPartition key tableId => discard (ParquetFiles.createOrGetPartition key tableId)
  | .createUpgradeDelete now partitionId delete upgrade create targetLevel =>
    discard (ParquetFiles.createUpgradeDelete now partitionId delete upgrade create targetLevel)
  | .flagForDeleteByRetention now => discard (ParquetFiles.flagForDeleteByRetention now)
  | .deleteOldIdsOnly olderThan => discard (ParquetFiles.deleteOldIdsOnly olderThan)

/-- The state a call leaves, whether it returned or failed; `none` for a panic. -/
def step (s : MemCollections) (c : Call) : Option MemCollections :=
  (c.run.exec s).map (·.2)

/-- The empty catalog. -/
def MemCollections.empty : MemCollections := ⟨[], [], []⟩

/-! ### `modifyFirst` -/

section ModifyFirst

variable {α β : Type} {p : α → Bool} {g : α → α}

/-- A field that the update keeps is kept in every element. -/
theorem map_modifyFirst {k : α → β} (hk : ∀ a, k (g a) = k a) (l : List α) :
    (modifyFirst p g l).map k = l.map k := by
  induction l with
  | nil => rfl
  | cons a l ih =>
    unfold modifyFirst
    split <;> simp [hk, ih]

/-- An element is kept, unless it is the one found. -/
theorem mem_modifyFirst {x : α} {l : List α} (hx : x ∈ l) :
    x ∈ modifyFirst p g l ∨ l.find? p = some x := by
  induction l with
  | nil => cases hx
  | cons a l ih =>
    unfold modifyFirst
    by_cases hpa : p a
    · rcases List.mem_cons.1 hx with rfl | hx
      · exact .inr (by simp [hpa])
      · exact .inl (by simp [hpa, hx])
    · rcases List.mem_cons.1 hx with rfl | hx
      · exact .inl (by simp [hpa])
      · rcases ih hx with h | h
        · exact .inl (by simp [hpa, h])
        · exact .inr (by simp [hpa, h])

/-- The element found is updated. -/
theorem mem_modifyFirst_of_find {x : α} {l : List α} (h : l.find? p = some x) :
    g x ∈ modifyFirst p g l := by
  induction l with
  | nil => cases h
  | cons a l ih =>
    unfold modifyFirst
    by_cases hpa : p a
    · obtain rfl : a = x := by simpa [hpa] using h
      simp [hpa]
    · simp only [hpa, Bool.false_eq_true, if_false, List.mem_cons]
      exact .inr (ih (by simpa [hpa] using h))

end ModifyFirst

/-! ### The invariant -/

/-- The row at position `i` has id `i + 1`: so are the ids of rows pushed with the length of
their vector plus one and never removed. -/
def IdsArePositions (ids : List ℤ) : Prop :=
  ids = (List.range ids.length).map fun i : ℕ => (i : ℤ) + 1

theorem IdsArePositions.push {ids : List ℤ} (h : IdsArePositions ids) :
    IdsArePositions (ids ++ [(ids.length : ℤ) + 1]) := by
  unfold IdsArePositions at *
  rw [List.length_append, List.length_singleton, List.range_succ, List.map_append, ← h]
  rfl

theorem IdsArePositions.nodup {ids : List ℤ} (h : IdsArePositions ids) : ids.Nodup := by
  rw [h]
  exact List.Nodup.map (fun i j (hij : (i : ℤ) + 1 = j + 1) => by omega) List.nodup_range

/-- What every reachable state of the catalog satisfies. -/
structure Inv (s : MemCollections) : Prop where
  namespaceIds : IdsArePositions (s.namespaces.map (·.id))
  partitionIds : IdsArePositions (s.partitions.map (·.id))
  objectStoreIds : (s.parquetFiles.map (·.objectStoreId)).Nodup

/-! ### What each call does -/

variable {s s' : MemCollections} {params : ParquetFileParams} {delete upgrade : List ℕ}
    {create : List ParquetFileParams} {targetLevel : CompactionLevel}

section Calls

open StateErr

variable {name : List Char} {retentionPeriodNs : Option ℤ}

theorem exec_createNamespace (s : MemCollections) :
    (createNamespace name retentionPeriodNs).exec s =
      if s.namespaces.any (·.name == name) then some (.error (.alreadyExists name), s)
      else
        some (.ok ⟨s.namespaces.length + 1, name, retentionPeriodNs⟩,
          { s with namespaces := s.namespaces ++ [⟨s.namespaces.length + 1, name, retentionPeriodNs⟩] }) := by
  unfold createNamespace
  simp only [exec_bind, exec_get]
  by_cases h : s.namespaces.any (·.name == name) <;> simp only [h] <;> simp [Except.map]

theorem exec_updateRetentionPeriod (s : MemCollections) :
    (updateRetentionPeriod name retentionPeriodNs).exec s =
      match s.namespaces.find? (·.name == name) with
      | none => some (.error (.notFound name), s)
      | some n =>
        some (.ok { n with retentionPeriodNs }, { s with
          namespaces := modifyFirst (·.name == name) (fun n => { n with retentionPeriodNs })
            s.namespaces }) := by
  unfold updateRetentionPeriod
  split <;> simp [exec_bind, Except.map, *]

theorem exec_createOrGetPartition (s : MemCollections) (key : List Char) (tableId : ℤ) :
    (createOrGetPartition key tableId).exec s =
      match s.partitions.find? fun p => p.partitionKey == key && p.tableId == tableId with
      | some p => some (.ok p, s)
      | none =>
        some (.ok ⟨s.partitions.length + 1, tableId, key, none⟩,
          { s with partitions := s.partitions ++ [⟨s.partitions.length + 1, tableId, key, none⟩] }) := by
  unfold createOrGetPartition
  split <;> simp [exec_bind, Except.map, *]

/-- A created file is pushed with the next id, under an object store id no file has, and its
partition's `new_file_at` is set. -/
theorem createParquetFile_ok {file : ParquetFile}
    (h : (createParquetFile params).exec s = some (.ok file, s')) :
    params.objectStoreId ∉ s.parquetFiles.map (·.objectStoreId) ∧
      file = ParquetFile.fromParams params (s.parquetFiles.length + 1) ∧
      s' = { s with
        parquetFiles := s.parquetFiles ++ [file]
        partitions := modifyFirst (·.id == params.partitionId)
          (fun p => { p with newFileAt := some params.createdAt }) s.partitions } := by
  unfold createParquetFile at h
  simp only [exec_bind, exec_get] at h
  by_cases hid : s.parquetFiles.any (·.objectStoreId == params.objectStoreId)
  · simp [hid] at h
  · simp only [hid, Bool.false_eq_true, if_false, exec_set, exec_bind] at h
    split at h
    · simp at h
    · simp only [exec_bind, exec_set, exec_pure, Option.some.injEq, Prod.mk.injEq,
        Except.ok.injEq] at h
      obtain ⟨rfl, rfl⟩ := h
      simpa using hid

/-- A flag is set on the first file of the partition with the object store id, which had none. -/
theorem flagForDelete_ok {partitionId : ℤ} {id : ℕ} {markedAt : ℤ} {u : Unit}
    (h : (flagForDelete partitionId id markedAt).exec s = some (.ok u, s')) :
    ∃ f, s.parquetFiles.find? (IsFileOf partitionId id) = some f ∧ f.toDelete = none ∧
      s' = { s with
        parquetFiles := modifyFirst (IsFileOf partitionId id)
          (fun f => { f with toDelete := some markedAt }) s.parquetFiles } := by
  unfold flagForDelete at h
  simp only [exec_bind, exec_get] at h
  split at h
  · rename_i f hf
    by_cases hnone : f.toDelete.isNone
    · simp only [hnone, if_true, exec_set, Option.some.injEq, Prod.mk.injEq] at h
      exact ⟨f, hf, Option.isNone_iff_eq_none.1 hnone, h.2.symm⟩
    · simp [hnone] at h
  · simp at h

/-- Every id to upgrade is of an unflagged file of the partition, and the upgraded files get the
level. -/
theorem updateCompactionLevel_ok {partitionId : ℤ} {objectStoreIds : List ℕ}
    {compactionLevel : CompactionLevel} {r : List ℕ}
    (h : (updateCompactionLevel partitionId objectStoreIds compactionLevel).exec s = some (.ok r, s')) :
    (∀ id ∈ objectStoreIds, ∃ f ∈ s.parquetFiles,
        f.partitionId = partitionId ∧ f.toDelete = none ∧ f.objectStoreId = id) ∧
      s' = { s with
        parquetFiles := s.parquetFiles.map fun f =>
          if IsUpgraded partitionId objectStoreIds f then { f with compactionLevel } else f } := by
  unfold updateCompactionLevel at h
  simp only [exec_bind, exec_get] at h
  split at h
  · simp at h
  · rename_i hfind
    simp only [exec_bind, exec_set, exec_pure, Option.some.injEq, Prod.mk.injEq] at h
    refine ⟨fun id hid => ?_, h.2.symm⟩
    have := List.find?_eq_none.1 hfind id hid
    simpa using this

/-- A file to create is of the partition, and is created. -/
theorem createInPartition_ok {partitionId id : ℤ}
    (h : (createInPartition partitionId params).exec s = some (.ok id, s')) :
    params.partitionId = partitionId ∧ ∃ file, (createParquetFile params).exec s = some (.ok file, s') ∧
      id = file.id := by
  unfold createInPartition at h
  by_cases hp : params.partitionId = partitionId
  · simp only [hp, ne_eq, not_true_eq_false, if_false, exec_bind, exec_pure] at h
    refine ⟨hp, ?_⟩
    split at h
    · cases h
    · rename_i file s₁ hfile
      simp only [Option.some.injEq, Prod.mk.injEq, Except.ok.injEq] at h
      obtain ⟨rfl, rfl⟩ := h
      exact ⟨file, hfile, rfl⟩
    · cases h
  · simp [hp] at h

/-- `create_upgrade_delete` panics on a file both deleted and upgraded, and otherwise returns what
its stage returns, with the collections of the stage only if it returned. -/
theorem exec_createUpgradeDelete (s : MemCollections) {now partitionId : ℤ} :
    (createUpgradeDelete now partitionId delete upgrade create targetLevel).exec s =
      if delete.any (· ∈ upgrade) then none
      else
        match (createUpgradeDeleteStage now partitionId delete upgrade create targetLevel).exec s with
        | some (.error e, _) => some (.error e, s)
        | r => r := by
  unfold createUpgradeDelete
  by_cases hd : delete.any (· ∈ upgrade)
  · simp only [hd, if_true, exec_bind, exec_abort]
  · simp only [hd, Bool.false_eq_true, if_false, exec_bind, exec_get, exec_tryCatch]
    split <;> simp_all

/-! #### Retention -/

section Retention

variable {namespaces : List Namespace} {now : ℤ}

/-- Retention flags exactly the files it returns, in order, each of them expired, and at most
`limit` of them: induction on the files, one case for each branch of the scan. -/
theorem retentionScan_spec {n : ℕ} {files files' : List ParquetFile} {flagged : List (ℤ × ℕ)}
    (h : retentionScan namespaces now n files = some (files', flagged)) :
    List.Forall₂ (fun f f' => f' = f ∨ Expired namespaces now f ∧ f' = { f with toDelete := some now })
        files files' ∧
      flagged = ((files.zip files').filter fun p => p.1 != p.2).map
        (fun p => (p.1.partitionId, p.1.objectStoreId)) ∧
      flagged.length ≤ n := by
  induction files generalizing n files' flagged with
  | nil =>
    cases n <;> simp only [retentionScan, Option.some.injEq, Prod.mk.injEq] at h <;>
      obtain ⟨rfl, rfl⟩ := h <;> simp
  | cons f files ih =>
    cases n with
    | zero =>
      -- the scan has its `limit`: the rest is not looked at
      simp only [retentionScan, Option.some.injEq, Prod.mk.injEq] at h
      obtain ⟨rfl, rfl⟩ := h
      refine ⟨List.forall₂_same.2 fun _ _ => .inl rfl, ?_, le_rfl⟩
      have hzip : ∀ l : List ParquetFile, (l.zip l).filter (fun p => p.1 != p.2) = [] := by
        intro l
        induction l with
        | nil => rfl
        | cons a l ih => simpa using ih
      rw [hzip]
      rfl
    | succ n =>
      -- the three ways of the scan past one file: panic, flag, or pass over
      simp only [retentionScan] at h
      split at h
      · rename_i rp hdel hrp
        split at h
        · cases h
        · rename_i cutoff hcut
          have hcutoff : cutoff = now - rp := by
            unfold timestampSub at hcut
            split at hcut
            · exact (Option.some.inj hcut).symm
            · cases hcut
          split at h
          · rename_i hold
            obtain ⟨r, hr, hrfl⟩ := Option.map_eq_some_iff.1 h
            simp only [Prod.mk.injEq] at hrfl
            obtain ⟨rfl, rfl⟩ := hrfl
            obtain ⟨h₁, h₂, h₃⟩ := ih hr
            refine ⟨.cons (.inr ⟨⟨hdel, rp, hrp, hcutoff ▸ hold⟩, rfl⟩) h₁, ?_, by simpa using h₃⟩
            -- the flag changes the file, so the pair is one the filter keeps
            have hne : f ≠ { f with toDelete := some now } := fun he => by
              simpa [hdel] using congrArg ParquetFile.toDelete he
            rw [List.zip_cons_cons, List.filter_cons_of_pos (by simpa using hne), h₂]
            rfl
          · obtain ⟨r, hr, hrfl⟩ := Option.map_eq_some_iff.1 h
            simp only [Prod.mk.injEq] at hrfl
            obtain ⟨rfl, rfl⟩ := hrfl
            obtain ⟨h₁, h₂, h₃⟩ := ih hr
            exact ⟨.cons (.inl rfl) h₁, by simp [h₂], h₃⟩
      · obtain ⟨r, hr, hrfl⟩ := Option.map_eq_some_iff.1 h
        simp only [Prod.mk.injEq] at hrfl
        obtain ⟨rfl, rfl⟩ := hrfl
        obtain ⟨h₁, h₂, h₃⟩ := ih hr
        exact ⟨.cons (.inl rfl) h₁, by simp [h₂], h₃⟩

/-- A scan that flags fewer files than its limit has looked at every file, and flagged every
expired one. -/
theorem retentionScan_flags_all {n : ℕ} {files files' : List ParquetFile} {flagged : List (ℤ × ℕ)}
    (h : retentionScan namespaces now n files = some (files', flagged)) (hlt : flagged.length < n) :
    List.Forall₂ (fun f f' => Expired namespaces now f → f' = { f with toDelete := some now })
      files files' := by
  induction files generalizing n files' flagged with
  | nil =>
    cases n <;> simp only [retentionScan, Option.some.injEq, Prod.mk.injEq] at h <;>
      obtain ⟨rfl, rfl⟩ := h <;> exact .nil
  | cons f files ih =>
    cases n with
    | zero => cases hlt
    | succ n =>
      simp only [retentionScan] at h
      split at h
      · rename_i rp hdel hrp
        split at h
        · cases h
        · rename_i cutoff hcut
          have hcutoff : cutoff = now - rp := by
            unfold timestampSub at hcut
            split at hcut
            · exact (Option.some.inj hcut).symm
            · cases hcut
          split at h
          · obtain ⟨r, hr, hrfl⟩ := Option.map_eq_some_iff.1 h
            simp only [Prod.mk.injEq] at hrfl
            obtain ⟨rfl, rfl⟩ := hrfl
            exact .cons (fun _ => rfl) (ih hr (by simpa using hlt))
          · -- not older than the retention period: not expired
            rename_i hnew
            obtain ⟨r, hr, hrfl⟩ := Option.map_eq_some_iff.1 h
            simp only [Prod.mk.injEq] at hrfl
            obtain ⟨rfl, rfl⟩ := hrfl
            refine .cons (fun ⟨_, rp', hrp', hold⟩ => ?_) (ih hr hlt)
            obtain rfl : rp' = rp := Option.some.inj (hrp'.symm.trans hrp)
            exact absurd (hcutoff ▸ hold) hnew
      · -- flagged already, or no retention period: not expired
        rename_i hother
        obtain ⟨r, hr, hrfl⟩ := Option.map_eq_some_iff.1 h
        simp only [Prod.mk.injEq] at hrfl
        obtain ⟨rfl, rfl⟩ := hrfl
        refine .cons (fun ⟨hdel, rp, hrp, _⟩ => absurd hrp ?_) (ih hr hlt)
        exact fun hrp => hother rp hdel hrp

/-- With a limit of two, the one expired file of a namespace whose retention period is `10` is
flagged at `100`. -/
theorem retentionScan_flags_expired_file :
    List.Forall₂ (fun f f' => Expired [⟨1, ['n'], some 10⟩] 100 f → f' = { f with toDelete := some 100 })
      [⟨1, 1, 1, 1, 0, none, .initial, 0⟩] [⟨1, 1, 1, 1, 0, some 100, .initial, 0⟩] :=
  @retentionScan_flags_all _ _ 2 _ _ [(1, 1)] rfl (by decide)

end Retention

theorem exec_flagForDeleteByRetention (s : MemCollections) (now : ℤ) :
    (flagForDeleteByRetention now).exec s =
      (retentionScan s.namespaces now maxParquetFilesSelectedOnceForRetention s.parquetFiles).map
        fun r => (.ok r.2, { s with parquetFiles := r.1 }) := by
  unfold flagForDeleteByRetention
  simp only [exec_bind, exec_get]
  split <;> simp_all [Except.map]

theorem exec_deleteOldIdsOnly (s : MemCollections) (olderThan : ℤ) :
    (deleteOldIdsOnly olderThan).exec s =
      some (.ok (((s.parquetFiles.filter (IsOld olderThan)).take
          maxParquetFilesSelectedOnceForDelete).map (·.objectStoreId)),
        { s with parquetFiles := s.parquetFiles.filter fun f => !IsOld olderThan f }) := by
  simp [deleteOldIdsOnly, exec_bind, Except.map]

end Calls

/-! ### The invariant over runs -/

section Invariant

open StateErr

variable {partitionId : ℤ}

theorem preserves_flagForDelete {id : ℕ} {markedAt : ℤ} :
    Preserves Inv (flagForDelete partitionId id markedAt) := by
  intro s u s' hs h
  obtain ⟨f, -, -, rfl⟩ := flagForDelete_ok h
  exact { hs with objectStoreIds := by simpa [map_modifyFirst] using hs.objectStoreIds }

theorem preserves_updateCompactionLevel {objectStoreIds : List ℕ} {compactionLevel : CompactionLevel} :
    Preserves Inv (updateCompactionLevel partitionId objectStoreIds compactionLevel) := by
  intro s r s' hs h
  obtain ⟨-, rfl⟩ := updateCompactionLevel_ok h
  -- the upgrade keeps every file's object store id
  have hids : (s.parquetFiles.map fun f =>
      if IsUpgraded partitionId objectStoreIds f then { f with compactionLevel } else f).map
        (·.objectStoreId) = s.parquetFiles.map (·.objectStoreId) := by
    rw [List.map_map]
    exact List.map_congr_left fun f _ => by dsimp only [Function.comp]; split <;> rfl
  exact { hs with objectStoreIds := hids ▸ hs.objectStoreIds }

theorem preserves_createParquetFile : Preserves Inv (createParquetFile params) := by
  intro s file s' hs h
  obtain ⟨hfresh, rfl, rfl⟩ := createParquetFile_ok h
  refine ⟨hs.namespaceIds, ?_, ?_⟩
  · simpa [map_modifyFirst] using hs.partitionIds
  · simpa [List.nodup_append, ParquetFile.fromParams, hs.objectStoreIds] using hfresh

theorem preserves_createUpgradeDeleteStage {now : ℤ} :
    Preserves Inv (createUpgradeDeleteStage now partitionId delete upgrade create targetLevel) := by
  unfold createUpgradeDeleteStage
  refine (Preserves.forM fun _ _ => preserves_flagForDelete).bind fun _ =>
    preserves_updateCompactionLevel.bind fun _ => Preserves.mapM fun file _ => ?_
  intro s id s' hs h
  obtain ⟨-, file, hfile, -⟩ := createInPartition_ok h
  exact preserves_createParquetFile s file s' hs hfile

/-- What a relation that keeps a field says of the field along two lists. -/
theorem map_eq_of_forall₂ {α β : Type} {R : α → α → Prop} {k : α → β} {l l' : List α}
    (h : List.Forall₂ R l l') (hk : ∀ a b, R a b → k b = k a) : l'.map k = l.map k := by
  induction h with
  | nil => rfl
  | cons hab _ ih => simp [hk _ _ hab, ih]

theorem preserves_flagForDeleteByRetention {now : ℤ} :
    Preserves Inv (flagForDeleteByRetention now) := by
  intro s r s' hs h
  rw [exec_flagForDeleteByRetention] at h
  obtain ⟨⟨files', flagged⟩, hscan, hr⟩ := Option.map_eq_some_iff.1 h
  simp only [Prod.mk.injEq] at hr
  obtain ⟨-, rfl⟩ := hr
  -- a flag keeps the file's object store id
  have hids : files'.map (·.objectStoreId) = s.parquetFiles.map (·.objectStoreId) :=
    map_eq_of_forall₂ (retentionScan_spec hscan).1 fun f f' hff' => by
      rcases hff' with rfl | ⟨-, rfl⟩ <;> rfl
  exact { hs with objectStoreIds := hids ▸ hs.objectStoreIds }

theorem preserves_deleteOldIdsOnly {olderThan : ℤ} : Preserves Inv (deleteOldIdsOnly olderThan) := by
  intro s r s' hs h
  rw [exec_deleteOldIdsOnly] at h
  obtain ⟨-, rfl⟩ := Prod.mk.inj (Option.some.inj h)
  exact { hs with objectStoreIds := (List.filter_sublist.map _).nodup hs.objectStoreIds }

theorem preserves_createNamespace {name : List Char} {retentionPeriodNs : Option ℤ} :
    Preserves Inv (createNamespace name retentionPeriodNs) := by
  intro s n s' hs h
  rw [exec_createNamespace] at h
  split at h
  · simp at h
  · obtain ⟨-, rfl⟩ := Prod.mk.inj (Option.some.inj h)
    exact { hs with namespaceIds := by simpa using hs.namespaceIds.push }

theorem preserves_updateRetentionPeriod {name : List Char} {retentionPeriodNs : Option ℤ} :
    Preserves Inv (updateRetentionPeriod name retentionPeriodNs) := by
  intro s n s' hs h
  rw [exec_updateRetentionPeriod] at h
  split at h
  · simp at h
  · obtain ⟨-, rfl⟩ := Prod.mk.inj (Option.some.inj h)
    exact { hs with namespaceIds := by simpa [map_modifyFirst] using hs.namespaceIds }

theorem preserves_createOrGetPartition {key : List Char} {tableId : ℤ} :
    Preserves Inv (createOrGetPartition key tableId) := by
  intro s p s' hs h
  rw [exec_createOrGetPartition] at h
  split at h
  · obtain ⟨-, rfl⟩ := Prod.mk.inj (Option.some.inj h)
    exact hs
  · obtain ⟨-, rfl⟩ := Prod.mk.inj (Option.some.inj h)
    exact { hs with partitionIds := by simpa using hs.partitionIds.push }

theorem preserves_createUpgradeDelete {now : ℤ} :
    Preserves Inv (createUpgradeDelete now partitionId delete upgrade create targetLevel) := by
  intro s ids s' hs h
  rw [exec_createUpgradeDelete] at h
  split at h
  · cases h
  · split at h
    · simp at h
    · exact preserves_createUpgradeDeleteStage s ids s' hs h

theorem preserves_run (c : Call) : Preserves Inv c.run := by
  cases c with
  | createNamespace => exact preserves_createNamespace.discard
  | updateRetentionPeriod => exact preserves_updateRetentionPeriod.discard
  | createOrGetPartition => exact preserves_createOrGetPartition.discard
  | createUpgradeDelete => exact preserves_createUpgradeDelete.discard
  | flagForDeleteByRetention => exact preserves_flagForDeleteByRetention.discard
  | deleteOldIdsOnly => exact preserves_deleteOldIdsOnly.discard

end Invariant

/-! ### A failed call changes nothing -/

section Failures

open StateErr

/-- A failed `create_upgrade_delete` leaves the catalog as it was: its work was on a clone. -/
theorem exec_createUpgradeDelete_of_error {now partitionId : ℤ}
   
    {e : Error}
    (h : (createUpgradeDelete now partitionId delete upgrade create targetLevel).exec s =
      some (.error e, s')) : s' = s := by
  rw [exec_createUpgradeDelete] at h
  split at h
  · cases h
  · split at h
    · exact (Prod.mk.inj (Option.some.inj h)).2.symm
    · rename_i hne
      exact (hne e s' h).elim

/-- Every call that fails leaves the catalog as it was. -/
theorem failsClean_run (c : Call) : FailsClean c.run := by
  cases c with
  | createUpgradeDelete => exact FailsClean.discard fun s e s' h => exec_createUpgradeDelete_of_error h
  | createNamespace =>
    refine FailsClean.discard fun s e s' h => ?_
    rw [exec_createNamespace] at h
    split at h
    · exact (Prod.mk.inj (Option.some.inj h)).2.symm
    · simp at h
  | updateRetentionPeriod =>
    refine FailsClean.discard fun s e s' h => ?_
    rw [exec_updateRetentionPeriod] at h
    split at h
    · exact (Prod.mk.inj (Option.some.inj h)).2.symm
    · simp at h
  | createOrGetPartition =>
    refine FailsClean.discard fun s e s' h => ?_
    rw [exec_createOrGetPartition] at h
    split at h <;> simp at h
  | flagForDeleteByRetention =>
    refine FailsClean.discard fun s e s' h => ?_
    rw [exec_flagForDeleteByRetention] at h
    simp at h
  | deleteOldIdsOnly =>
    refine FailsClean.discard fun s e s' h => ?_
    rw [exec_deleteOldIdsOnly] at h
    simp at h

end Failures

/-! ### What a `create_upgrade_delete` that returns has done -/

section Applied

open StateErr

variable {partitionId now : ℤ}

/-- A file of the partition with the object store id is flagged at `now`. -/
def FlaggedAt (partitionId now : ℤ) (id : ℕ) (s : MemCollections) : Prop :=
  ∃ f ∈ s.parquetFiles, IsFileOf partitionId id f ∧ f.toDelete = some now

/-- A file of the partition with the object store id is at the level. -/
def AtLevel (partitionId : ℤ) (level : CompactionLevel) (id : ℕ) (s : MemCollections) : Prop :=
  ∃ f ∈ s.parquetFiles, IsFileOf partitionId id f ∧ f.compactionLevel = level

/-- Creating a file keeps every file. -/
theorem mem_of_createInPartition {id : ℤ}
    (h : (createInPartition partitionId params).exec s = some (.ok id, s')) {f : ParquetFile}
    (hf : f ∈ s.parquetFiles) : f ∈ s'.parquetFiles := by
  obtain ⟨-, file, hfile, -⟩ := createInPartition_ok h
  obtain ⟨-, -, rfl⟩ := createParquetFile_ok hfile
  exact List.mem_append_left _ hf

theorem preserves_exists_createInPartition {Q : ParquetFile → Prop} :
    Preserves (fun s => ∃ f ∈ s.parquetFiles, Q f) (createInPartition partitionId params) := by
  rintro s id s' ⟨f, hf, hq⟩ h
  exact ⟨f, mem_of_createInPartition h hf, hq⟩

theorem ensures_createInPartition :
    Ensures (fun id s => ParquetFile.fromParams params id ∈ s.parquetFiles)
      (createInPartition partitionId params) := by
  intro s id s' h
  obtain ⟨-, file, hfile, rfl⟩ := createInPartition_ok h
  obtain ⟨-, rfl, rfl⟩ := createParquetFile_ok hfile
  simp [ParquetFile.fromParams]

theorem ensures_flagForDelete {id : ℕ} :
    Ensures (fun _ => FlaggedAt partitionId now id) (flagForDelete partitionId id now) := by
  intro s u s' h
  obtain ⟨f, hfind, -, rfl⟩ := flagForDelete_ok h
  exact ⟨_, mem_modifyFirst_of_find hfind, by simpa [IsFileOf] using List.find?_some hfind, rfl⟩

/-- A flag stays: the file a later flag looks for is unflagged, so it is another file. -/
theorem preserves_flaggedAt_flagForDelete {id id' : ℕ} :
    Preserves (FlaggedAt partitionId now id) (flagForDelete partitionId id' now) := by
  rintro s u s' ⟨x, hx, hfile, hdel⟩ h
  obtain ⟨f, hfind, hnone, rfl⟩ := flagForDelete_ok h
  rcases mem_modifyFirst hx with hx' | hx'
  · exact ⟨x, hx', hfile, hdel⟩
  · obtain rfl := Option.some.inj (hfind.symm.trans hx')
    rw [hnone] at hdel
    cases hdel

/-- The upgrade leaves a file whose id is not upgraded as it is. -/
theorem preserves_flaggedAt_updateCompactionLevel {id : ℕ} {upgrade : List ℕ}
    {level : CompactionLevel} (hid : id ∉ upgrade) :
    Preserves (FlaggedAt partitionId now id) (updateCompactionLevel partitionId upgrade level) := by
  rintro s r s' ⟨x, hx, hfile, hdel⟩ h
  obtain ⟨-, rfl⟩ := updateCompactionLevel_ok h
  have hkeep : IsUpgraded partitionId upgrade x = false := by
    simp only [IsFileOf, Bool.and_eq_true, beq_iff_eq] at hfile
    simp [IsUpgraded, hfile.1, hid]
  exact ⟨x, List.mem_map.2 ⟨x, hx, by simp [hkeep]⟩, hfile, hdel⟩

theorem ensures_atLevel_updateCompactionLevel {upgrade : List ℕ} {level : CompactionLevel} :
    Ensures (fun _ s => ∀ id ∈ upgrade, AtLevel partitionId level id s)
      (updateCompactionLevel partitionId upgrade level) := by
  intro s r s' h id hid
  obtain ⟨hall, rfl⟩ := updateCompactionLevel_ok h
  obtain ⟨f, hf, hpart, -, rfl⟩ := hall id hid
  have hup : IsUpgraded partitionId upgrade f = true := by simp [IsUpgraded, hid, hpart]
  exact ⟨{ f with compactionLevel := level }, List.mem_map.2 ⟨f, hf, by simp [hup]⟩,
    by simp [IsFileOf, hpart], rfl⟩

/-- A `create_upgrade_delete` that returns has flagged every file to delete, set the level of
every file to upgrade, and created every file to create under the id it returns for it. The
facts are established in the order of the stage, and each later part keeps the earlier ones:
a flag stays flagged, the upgrade leaves the deleted files (the `assert!` keeps them apart),
and creating files only adds. -/
theorem createUpgradeDelete_spec {s s' : MemCollections} {delete upgrade : List ℕ}
    {create : List ParquetFileParams} {targetLevel : CompactionLevel} {ids : List ℤ}
    (h : (createUpgradeDelete now partitionId delete upgrade create targetLevel).exec s =
      some (.ok ids, s')) :
    (∀ id ∈ delete, FlaggedAt partitionId now id s') ∧
      (∀ id ∈ upgrade, AtLevel partitionId targetLevel id s') ∧
      List.Forall₂ (fun params id => ParquetFile.fromParams params id ∈ s'.parquetFiles) create ids := by
  rw [exec_createUpgradeDelete] at h
  split at h
  · cases h
  · rename_i hdisjoint
    have hapart : ∀ id ∈ delete, id ∉ upgrade := by simpa using hdisjoint
    split at h
    · cases h
    unfold createUpgradeDeleteStage at h
    refine ⟨?_, ?_, ?_⟩
    · refine (Ensures.bind_preserves (ensures_forM (fun _ _ => ensures_flagForDelete)
        (fun _ _ _ _ => preserves_flaggedAt_flagForDelete)) fun _ => ?_) s _ s' h
      refine (Preserves.forall_mem fun id hid =>
        preserves_flaggedAt_updateCompactionLevel (hapart id hid)).bind fun _ => ?_
      exact Preserves.mapM fun _ _ => Preserves.forall_mem fun _ _ =>
        preserves_exists_createInPartition
    · refine (Ensures.bind fun _ => Ensures.bind_preserves ensures_atLevel_updateCompactionLevel
        fun _ => ?_) s _ s' h
      exact Preserves.mapM fun _ _ => Preserves.forall_mem fun _ _ =>
        preserves_exists_createInPartition
    · refine (Ensures.bind fun _ => Ensures.bind fun _ =>
        ensures_mapM (fun _ _ => ensures_createInPartition) fun _ _ _ _ _ => ?_) s _ s' h
      exact fun s id s' hf hrun => mem_of_createInPartition hrun hf

end Applied

/-! ### Runs -/

theorem inv_empty : Inv .empty := ⟨rfl, rfl, .nil⟩

/-- A step keeps the invariant: a failed call changes nothing, and a call that returns keeps it. -/
theorem Inv.step {c : Call} (hs : Inv s) (h : step s c = some s') : Inv s' := by
  obtain ⟨⟨r, s''⟩, hrun, rfl⟩ := Option.map_eq_some_iff.1 h
  cases r with
  | error e => rwa [failsClean_run c s e s'' hrun]
  | ok u => exact preserves_run c s u s'' hs hrun

/-- The invariant holds in every state a run from the empty catalog reaches. -/
theorem Inv.of_reachable {s : MemCollections}
    (h : Transition.Reachable ParquetFiles.step .empty s) : Inv s :=
  h.invariant Inv inv_empty fun _ _ _ hs hstep => hs.step hstep

/-- In every state a run reaches, no two namespaces and no two partitions share an id, and no
two parquet files share an object store id. -/
theorem reachable_ids_nodup {s : MemCollections}
    (h : Transition.Reachable ParquetFiles.step .empty s) :
    (s.namespaces.map (·.id)).Nodup ∧ (s.partitions.map (·.id)).Nodup ∧
      (s.parquetFiles.map (·.objectStoreId)).Nodup :=
  have hs := Inv.of_reachable h
  ⟨hs.namespaceIds.nodup, hs.partitionIds.nodup, hs.objectStoreIds⟩

/-! ### What does not hold -/

/-- The parameters of a level-0 file of namespace `1` and partition `1`, under the object store
id `n`. -/
def fileParams (n : ℕ) : ParquetFileParams := ⟨1, 1, n, 0, .initial, 0⟩

/-- A file created in partition `1` is in the catalog under the id returned for it. -/
theorem createUpgradeDelete_stores_file :
    ∃ s', (createUpgradeDelete 10 1 [] [] [fileParams 1] .initial).exec ⟨[], [⟨1, 1, ['k'], none⟩], []⟩ =
        some (.ok [1], s') ∧ ParquetFile.fromParams (fileParams 1) 1 ∈ s'.parquetFiles := by
  obtain ⟨s', h⟩ : ∃ s', (createUpgradeDelete 10 1 [] [] [fileParams 1] .initial).exec
      ⟨[], [⟨1, 1, ['k'], none⟩], []⟩ = some (.ok [1], s') := ⟨_, rfl⟩
  exact ⟨s', h, (List.forall₂_cons.1 (createUpgradeDelete_spec h).2.2).1⟩

/-- A namespace and a partition; two files; the first flagged, then deleted; a third file. -/
def idReuseRun : List Call :=
  [.createNamespace ['n', 's'] none, .createOrGetPartition ['k'] 1,
    .createUpgradeDelete 10 1 [] [] [fileParams 1, fileParams 2] .initial,
    .createUpgradeDelete 20 1 [1] [] [] .initial,
    .deleteOldIdsOnly 30,
    .createUpgradeDelete 40 1 [] [] [fileParams 3] .initial]

/-- Parquet file ids are reused while the files that hold them are live: the third file of
`idReuseRun` gets the id `2` of the second, because the deletion shortened the vector whose
length the id is computed from. -/
theorem parquetFileId_reused : ∃ s, Transition.Reachable ParquetFiles.step .empty s ∧
      ∃ f ∈ s.parquetFiles, ∃ g ∈ s.parquetFiles, f ≠ g ∧ f.id = g.id := by
  have h : (idReuseRun.foldlM step .empty).isSome := by decide +kernel
  refine ⟨_, Transition.reachable_of_foldlM idReuseRun .init (Option.some_get h).symm, ?_⟩
  decide +revert +kernel

/-- The state `idReuseRun` reaches, where a file id is reused, still has unique ids. -/
theorem idReuseRun_ids_nodup :
    ∃ s, idReuseRun.foldlM step .empty = some s ∧ (s.namespaces.map (·.id)).Nodup ∧
      (s.partitions.map (·.id)).Nodup ∧ (s.parquetFiles.map (·.objectStoreId)).Nodup := by
  have h : (idReuseRun.foldlM step .empty).isSome := by decide +kernel
  exact ⟨_, (Option.some_get h).symm,
    reachable_ids_nodup (Transition.reachable_of_foldlM idReuseRun .init (Option.some_get h).symm)⟩

/-- `delete_old_ids_only` removes every old file but returns the object store ids of only the
first `MAX_PARQUET_FILES_SELECTED_ONCE_FOR_DELETE`: with more old files than that, one is
removed whose id is not returned, so its object store file is never reported for deletion. -/
theorem deleteOldIdsOnly_drops_unreported {olderThan : ℤ} {ids : List ℕ} (hs : Inv s)
    (hmany : maxParquetFilesSelectedOnceForDelete < (s.parquetFiles.filter (IsOld olderThan)).length)
    (h : (deleteOldIdsOnly olderThan).exec s = some (.ok ids, s')) :
    ∃ f ∈ s.parquetFiles, f ∉ s'.parquetFiles ∧ f.objectStoreId ∉ ids := by
  rw [exec_deleteOldIdsOnly] at h
  obtain ⟨hids, rfl⟩ := Prod.mk.inj (Option.some.inj h)
  cases hids
  set old := s.parquetFiles.filter (IsOld olderThan)
  set n := maxParquetFilesSelectedOnceForDelete
  -- a file past the first `n` old ones
  obtain ⟨f, hf⟩ : ∃ f, f ∈ old.drop n :=
    List.exists_mem_of_length_pos (by rw [List.length_drop]; omega)
  have hfold : f ∈ old := List.mem_of_mem_drop hf
  obtain ⟨hfs, hisold⟩ := List.mem_filter.1 hfold
  refine ⟨f, hfs, fun hf' => by simp [hisold] at hf', fun hid => ?_⟩
  -- the old files' object store ids are distinct, so the first `n` do not have `f`'s
  have hnodup : ((old.take n).map (·.objectStoreId) ++ (old.drop n).map (·.objectStoreId)).Nodup := by
    rw [← List.map_append, List.take_append_drop]
    exact (List.filter_sublist.map _).nodup hs.objectStoreIds
  exact List.disjoint_of_nodup_append hnodup hid (List.mem_map_of_mem hf)

end ParquetFiles

end IoxCore.IoxCatalog

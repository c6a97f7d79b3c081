import IoxCore.IoxCatalog.Mem
import IoxCore.MutableBatch.Writer

/-!
# Write-time schema validation

`iox_catalog::util::validate_or_insert_schema`: every batch of a write is checked against the
router's cached `NamespaceSchema`. A table the cache lacks is loaded from the catalog, or created
(`table_load_or_create`); each column the cached table has must have the batch's type, and the
columns it lacks are created in one call to the catalog (`validate_and_insert_columns`). The
schema is copied on write (`Cow`): the call returns the new schema when it added anything, and
`None` when the cached one stands.

## The model

The maps of the schema (`BTreeMap`s by name) are association lists with distinct keys: the code
only looks names up and inserts them. The `HashMap` of missing columns is the list of them in the
order the batch has them; the catalog creates them in that order. The catalog is the in-memory
one of `IoxCore.IoxCatalog.Mem`, and a failed `assert!` or `expect` is a panic of `StateErr`.

## Results

* `validateOrInsertSchema_cached`: when the cache has every table and column of the batches with
  their types, validation succeeds with `None` and leaves the catalog as it was.
* `validateAndInsertColumns_type_conflict`: a column whose cached type differs is rejected with
  `AlreadyExists`.
* `validateOrInsertSchema_cache_miss_at_column_limit`: a batch for a table the cache lacks fails
  with `LimitExceeded` once the table is at its namespace's column limit, whatever its columns,
  since `table_load_or_create` asks `create_or_get` for the time column and the in-memory
  `create_or_get` checks the limit before it looks the column up.
-/

namespace IoxCore.IoxCatalog

/-- `ColumnSchema`. -/
structure ColumnSchema where
  id : ℤ
  columnType : ColumnType
  deriving DecidableEq, Repr

/-- `TableSchema`. -/
structure TableSchema where
  id : ℤ
  partitionTemplate : PartitionTemplate
  columns : AList (fun _ : List Char => ColumnSchema)

/-- `NamespaceSchema`: the fields validation reads. -/
structure NamespaceSchema where
  id : ℤ
  tables : AList (fun _ : List Char => TableSchema)
  partitionTemplate : PartitionTemplate

/-- `std::borrow::Cow`: a value still borrowed, or a copy that has been written to. -/
inductive Cow (α : Type)
  | borrowed (a : α)
  | owned (a : α)

/-- The value a `Cow` derefs to. -/
def Cow.get {α : Type} : Cow α → α
  | .borrowed a => a
  | .owned a => a

@[simp] theorem Cow.get_borrowed {α : Type} (a : α) : (Cow.borrowed a).get = a := rfl

@[simp] theorem Cow.get_owned {α : Type} (a : α) : (Cow.owned a).get = a := rfl

/-- `TableScopedError`: an error of the catalog, with the table it arose at. -/
structure TableScopedError where
  table : List Char
  err : Error
  deriving DecidableEq, Repr

/-- `schema::TIME_COLUMN_NAME`. -/
def timeColumn : List Char := ['t', 'i', 'm', 'e']

/-- `TableSchema::new_empty_from`. -/
def TableSchema.newEmptyFrom (table : Table) : TableSchema := ⟨table.id, table.partitionTemplate, ∅⟩

/-- `TableSchema::add_column`; `none` where its assertions panic: a column of another table, or
a name the table has. -/
def TableSchema.addColumn (t : TableSchema) (col : Column) : Option TableSchema :=
  if col.tableId ≠ t.id then none
  else
    match t.columns.lookup col.name with
    | some _ => none
    | none => some { t with columns := t.columns.insert col.name ⟨col.id, col.columnType⟩ }

/-- `table_load_or_create`. -/
def tableLoadOrCreate (namespaceId : ℤ) (namespacePartitionTemplate : PartitionTemplate)
    (tableName : List Char) : Txn TableSchema := do
  let table ← match ← getByNamespaceAndName namespaceId tableName with
    | some table => pure table
    | none =>
      -- `TablePartitionTemplateOverride::try_new(None, ..)` takes the namespace's template
      tryCatch (createTable tableName namespacePartitionTemplate namespaceId) fun e =>
        match e with
        | .alreadyExists _ => do
          -- created by another writer in between: `expect` it to be there now
          match ← getByNamespaceAndName namespaceId tableName with
          | some table => pure table
          | none => StateErr.abort
        | e => throw e
  -- every table gets its time column
  let timeCol ← createOrGetColumn timeColumn table.id .time
  match (TableSchema.newEmptyFrom table).addColumn timeCol with
  | some table => pure table
  | none => StateErr.abort

/-- The loop of `validate_and_insert_columns`: each column the cached table has must have the
batch's type, and those it lacks are collected (`column_batch`); `none` is the panic of its
duplicate-name assertion. -/
def columnBatch (tableName : List Char) (table : TableSchema) :
    List (List Char × ColumnType) → List (List Char × ColumnType) →
      Option (Except TableScopedError (List (List Char × ColumnType)))
  | batch, [] => some (.ok batch)
  | batch, (name, columnType) :: columns =>
    match table.columns.lookup name with
    | some existing =>
      if existing.columnType = columnType then columnBatch tableName table batch columns
      else
        some (.error ⟨tableName,
          .alreadyExists (columnTypeMessage name existing.columnType columnType)⟩)
    | none =>
      if (batch.lookup name).isSome then none
      else columnBatch tableName table (batch ++ [(name, columnType)]) columns

/-- `validate_and_insert_columns`. -/
def validateAndInsertColumns (columns : List (List Char × ColumnType)) (tableName : List Char)
    (table : Cow TableSchema) : StateErr MemCollections TableScopedError (Cow TableSchema) := do
  match columnBatch tableName table.get [] columns with
  | none => StateErr.abort
  | some (.error e) => throw e
  | some (.ok batch) =>
    if batch.isEmpty then pure table
    else
      let created ← ExceptT.adapt (TableScopedError.mk tableName)
        (createOrGetManyUnchecked table.get.id batch)
      match created with
      | [] => pure table
      | _ =>
        -- `table.to_mut().add_column(c)` for each created column
        match created.foldlM TableSchema.addColumn table.get with
        | some t => pure (.owned t)
        | none => StateErr.abort

/-- The columns of a batch with their catalog types, as `validate_mutable_batch` hands them on. -/
def columnTypes {F : Type} (mb : MutableBatch F) : List (List Char × ColumnType) :=
  mb.columns.map fun (name, col) => (name, ColumnType.ofInflux col.influxType)

/-- `validate_mutable_batch`. -/
def validateMutableBatch {F : Type} (mb : MutableBatch F) (tableName : List Char)
    (schema : Cow NamespaceSchema) :
    StateErr MemCollections TableScopedError (Cow NamespaceSchema) := do
  let (schema, table) ← match schema.get.tables.lookup tableName with
    | some t => pure (schema, t)
    | none => do
      let table ← ExceptT.adapt (TableScopedError.mk tableName)
        (tableLoadOrCreate schema.get.id schema.get.partitionTemplate tableName)
      -- `assert!(schema.to_mut().tables.insert(..).is_none())`
      if (schema.get.tables.lookup tableName).isSome then StateErr.abort
      else pure (.owned { schema.get with tables := schema.get.tables.insert tableName table }, table)
  let table ← validateAndInsertColumns (columnTypes mb) tableName (.borrowed table)
  match table with
  | .owned table =>
    -- `assert!(schema.to_mut().tables.insert(..).is_some())`
    if (schema.get.tables.lookup tableName).isNone then StateErr.abort
    else pure (.owned { schema.get with tables := schema.get.tables.insert tableName table })
  | .borrowed _ => pure schema

/-- `validate_or_insert_schema`: the new schema when validation added to it, `None` when the cached
one stands. -/
def validateOrInsertSchema {F : Type} (tables : List (List Char × MutableBatch F))
    (schema : NamespaceSchema) :
    StateErr MemCollections TableScopedError (Option NamespaceSchema) := do
  let schema ← tables.foldlM (fun schema (tableName, batch) =>
    validateMutableBatch batch tableName schema) (Cow.borrowed schema)
  match schema with
  | .owned v => pure (some v)
  | .borrowed _ => pure none

/-! ### Batches the cache covers -/

/-- The cached table has each of the columns, with its type. -/
def TableSchema.Covers (t : TableSchema) (columns : List (List Char × ColumnType)) : Prop :=
  ∀ p ∈ columns, ∃ cs, t.columns.lookup p.1 = some cs ∧ cs.columnType = p.2

/-- The cached schema has the table of each batch, with the batch's columns and types. -/
def NamespaceSchema.Covers {F : Type} (schema : NamespaceSchema)
    (tables : List (List Char × MutableBatch F)) : Prop :=
  ∀ p ∈ tables, ∃ t, schema.tables.lookup p.1 = some t ∧ t.Covers (columnTypes p.2)

section Cached

open StateErr

variable (stage : MemCollections) {tableName : List Char} {t : TableSchema}

theorem columnBatch_of_covers :
    ∀ {columns : List (List Char × ColumnType)} (batch : List (List Char × ColumnType)),
      t.Covers columns → columnBatch tableName t batch columns = some (.ok batch)
  | [], _, _ => rfl
  | (name, columnType) :: columns, batch, hc => by
    obtain ⟨cs, hcs, hty⟩ := hc (name, columnType) List.mem_cons_self
    rw [columnBatch, hcs]
    simp only [hty, if_true]
    exact columnBatch_of_covers batch fun p hp => hc p (List.mem_cons_of_mem _ hp)

/-- Columns the cached table has with their types need no call to the catalog. -/
theorem validateAndInsertColumns_of_covers {columns : List (List Char × ColumnType)}
    {table : Cow TableSchema} (hc : table.get.Covers columns) :
    (validateAndInsertColumns columns tableName table).exec stage = some (.ok table, stage) := by
  simp [validateAndInsertColumns, columnBatch_of_covers [] hc]

theorem validateMutableBatch_of_covers {F : Type} (mb : MutableBatch F)
    (schema : Cow NamespaceSchema) (ht : schema.get.tables.lookup tableName = some t)
    (hc : t.Covers (columnTypes mb)) :
    (validateMutableBatch mb tableName schema).exec stage = some (.ok schema, stage) := by
  have hcols : (validateAndInsertColumns (columnTypes mb) tableName (.borrowed t)).exec stage =
      some (.ok (.borrowed t), stage) := validateAndInsertColumns_of_covers stage hc
  simp [validateMutableBatch, exec_bind, ht, hcols]

/-- The loop of `validate_or_insert_schema` over covered batches leaves the schema borrowed and
the catalog as it was. -/
theorem foldlM_validateMutableBatch_of_covers {F : Type} (schema : NamespaceSchema) :
    ∀ tables : List (List Char × MutableBatch F), schema.Covers tables →
      (tables.foldlM (fun schema (p : List Char × MutableBatch F) =>
        validateMutableBatch p.2 p.1 schema) (Cow.borrowed schema)).exec stage =
        some (.ok (.borrowed schema), stage)
  | [], _ => rfl
  | (tableName, mb) :: tables, hc => by
    obtain ⟨t, ht, hcols⟩ := hc (tableName, mb) List.mem_cons_self
    have hstep := validateMutableBatch_of_covers stage mb (.borrowed schema) ht hcols
    rw [List.foldlM_cons, exec_bind, hstep]
    exact foldlM_validateMutableBatch_of_covers schema tables
      fun p hp => hc p (List.mem_cons_of_mem _ hp)

/-- When the cache has every table and column of the batches with their types, validation
succeeds with `None` and leaves the catalog as it was. -/
theorem validateOrInsertSchema_cached {F : Type} (schema : NamespaceSchema)
    {tables : List (List Char × MutableBatch F)} (hc : schema.Covers tables) :
    (validateOrInsertSchema tables schema).exec stage = some (.ok none, stage) := by
  simp [validateOrInsertSchema, exec_bind, foldlM_validateMutableBatch_of_covers stage schema tables hc]

/-- The first column whose cached type differs from the batch's is rejected, when the columns
before it are cached with their types. -/
theorem columnBatch_type_conflict {pre post : List (List Char × ColumnType)} {name : List Char}
    {columnType : ColumnType} {cs : ColumnSchema} (hpre : t.Covers pre)
    (hname : t.columns.lookup name = some cs) (hne : cs.columnType ≠ columnType) :
    ∀ batch, columnBatch tableName t batch (pre ++ (name, columnType) :: post) =
      some (.error ⟨tableName, .alreadyExists (columnTypeMessage name cs.columnType columnType)⟩) := by
  induction pre with
  | nil =>
    intro batch
    simp [columnBatch, hname, hne]
  | cons p pre ih =>
    intro batch
    obtain ⟨cp, hcp, hty⟩ := hpre p List.mem_cons_self
    rw [List.cons_append, columnBatch, hcp]
    simp only [hty, if_true]
    exact ih (fun q hq => hpre q (List.mem_cons_of_mem _ hq)) batch

/-- A batch with a column whose cached type differs is rejected with `AlreadyExists`, and the
catalog is left as it was. -/
theorem validateMutableBatch_type_conflict {F : Type} (mb : MutableBatch F)
    (schema : Cow NamespaceSchema) (ht : schema.get.tables.lookup tableName = some t)
    {pre post : List (List Char × ColumnType)} {name : List Char} {columnType : ColumnType}
    {cs : ColumnSchema} (hcols : columnTypes mb = pre ++ (name, columnType) :: post)
    (hpre : t.Covers pre) (hname : t.columns.lookup name = some cs)
    (hne : cs.columnType ≠ columnType) :
    (validateMutableBatch mb tableName schema).exec stage =
      some (.error ⟨tableName, .alreadyExists (columnTypeMessage name cs.columnType columnType)⟩,
        stage) := by
  have hbatch : columnBatch tableName t [] (pre ++ (name, columnType) :: post) = _ :=
    columnBatch_type_conflict hpre hname hne []
  simp [validateMutableBatch, validateAndInsertColumns, ht, hcols, hbatch]

end Cached

/-! ### A table the cache lacks, at its column limit -/

section ColumnLimit

open StateErr

variable (stage : MemCollections) {table : Table} {n : Namespace}

/-- Loading a table at its column limit fails at the time column, which exists. -/
theorem tableLoadOrCreate_at_column_limit (namespaceId : ℤ) (template : PartitionTemplate)
    {tableName : List Char}
    (hget : stage.tables.find? (fun t => t.namespaceId == namespaceId && t.name == tableName) =
      some table)
    (hid : stage.tables.find? (fun t => t.id == table.id) = some table)
    (hns : stage.namespaces.find? (fun n => n.id == table.namespaceId) = some n)
    (hfull : n.maxColumnsPerTable ≤ (stage.columns.filter fun c => c.tableId == table.id).length) :
    (tableLoadOrCreate namespaceId template tableName).exec stage =
      some (.error (.limitExceeded (columnLimitMessage timeColumn table.id)), stage) := by
  have hcheck : checkColumnLimit stage timeColumn table.id = _ :=
    checkColumnLimit_of_full stage hid hns hfull
  simp [tableLoadOrCreate, exec_bind, hget, exec_createOrGetColumn_of_check stage hcheck]

theorem validateMutableBatch_at_column_limit {F : Type} (mb : MutableBatch F)
    (schema : Cow NamespaceSchema) {tableName : List Char}
    (hmiss : schema.get.tables.lookup tableName = none)
    (hget : stage.tables.find? (fun t => t.namespaceId == schema.get.id && t.name == tableName) =
      some table)
    (hid : stage.tables.find? (fun t => t.id == table.id) = some table)
    (hns : stage.namespaces.find? (fun n => n.id == table.namespaceId) = some n)
    (hfull : n.maxColumnsPerTable ≤ (stage.columns.filter fun c => c.tableId == table.id).length) :
    (validateMutableBatch mb tableName schema).exec stage =
      some (.error ⟨tableName, .limitExceeded (columnLimitMessage timeColumn table.id)⟩, stage) := by
  simp [validateMutableBatch, exec_bind, hmiss, Except.mapError,
    tableLoadOrCreate_at_column_limit stage _ _ hget hid hns hfull]

/-- A write whose first batch is for a table the cache lacks fails with `LimitExceeded` when that
table is at its namespace's column limit, whatever columns the batch has: `table_load_or_create`
asks `create_or_get` for the time column, which checks the limit before it finds the column. -/
theorem validateOrInsertSchema_cache_miss_at_column_limit {F : Type} (schema : NamespaceSchema)
    {tableName : List Char} (mb : MutableBatch F) (rest : List (List Char × MutableBatch F))
    (hmiss : schema.tables.lookup tableName = none)
    (hget : stage.tables.find? (fun t => t.namespaceId == schema.id && t.name == tableName) =
      some table)
    (hid : stage.tables.find? (fun t => t.id == table.id) = some table)
    (hns : stage.namespaces.find? (fun n => n.id == table.namespaceId) = some n)
    (hfull : n.maxColumnsPerTable ≤ (stage.columns.filter fun c => c.tableId == table.id).length) :
    (validateOrInsertSchema ((tableName, mb) :: rest) schema).exec stage =
      some (.error ⟨tableName, .limitExceeded (columnLimitMessage timeColumn table.id)⟩, stage) := by
  simp [validateOrInsertSchema, List.foldlM_cons, exec_bind,
    validateMutableBatch_at_column_limit stage mb (.borrowed schema) hmiss hget hid hns hfull]

/-- Namespace 1 allows two columns a table, and its table `cpu` has two: `time` and `v`. A write
of just those two columns, with their types, through a cache that lacks `cpu`, is refused. -/
theorem validateOrInsertSchema_existing_columns_refused :
    (validateOrInsertSchema
        [(['c', 'p', 'u'], (⟨[(timeColumn, MutableBatch.Column.new 1 .timestamp),
          (['v'], MutableBatch.Column.new 1 (.field .float))], 1⟩ : MutableBatch ℤ))]
        ⟨1, ∅, none⟩).exec
      ⟨[⟨1, 10, 2⟩], [⟨1, 1, ['c', 'p', 'u'], none⟩],
        [⟨1, 1, timeColumn, .time⟩, ⟨2, 1, ['v'], .f64⟩]⟩ =
      some (.error ⟨['c', 'p', 'u'], .limitExceeded (columnLimitMessage timeColumn 1)⟩,
        ⟨[⟨1, 10, 2⟩], [⟨1, 1, ['c', 'p', 'u'], none⟩],
          [⟨1, 1, timeColumn, .time⟩, ⟨2, 1, ['v'], .f64⟩]⟩) := by
  -- the table and the namespace are fixed first, so that the conclusion is matched against them
  have hget : [(⟨1, 1, ['c', 'p', 'u'], none⟩ : Table)].find?
      (fun t => t.namespaceId == 1 && t.name == ['c', 'p', 'u']) = some ⟨1, 1, ['c', 'p', 'u'], none⟩ := by
    decide
  have hns : [(⟨1, 10, 2⟩ : Namespace)].find? (fun n => n.id == 1) = some ⟨1, 10, 2⟩ := by decide
  have h := validateOrInsertSchema_cache_miss_at_column_limit
    ⟨[⟨1, 10, 2⟩], [⟨1, 1, ['c', 'p', 'u'], none⟩], [⟨1, 1, timeColumn, .time⟩, ⟨2, 1, ['v'], .f64⟩]⟩
    ⟨1, ∅, none⟩ (⟨[(timeColumn, MutableBatch.Column.new 1 .timestamp),
      (['v'], MutableBatch.Column.new 1 (.field .float))], 1⟩ : MutableBatch ℤ) [] rfl hget
    (by decide) hns (by decide)
  exact h

end ColumnLimit

end IoxCore.IoxCatalog

import IoxCore.Lib.StateErr
import IoxCore.Lib.Parse
import IoxCore.Partition.Template
import IoxCore.MutableBatch.Column

/-!
# The in-memory catalog

`iox_catalog::mem`: `MemCatalog` keeps the catalog in vectors of namespaces, tables and columns
behind one lock, and its repositories (`MemTxn`) search them and push onto them. Modelled here are
the calls that write-time schema validation makes:

* `ColumnRepo::create_or_get`, which is `create_or_get_column`: the column limit check of the
  table's namespace, then the table's column of that name, which must have the requested type,
  or a new column pushed at the end;
* `ColumnRepo::create_or_get_many_unchecked`: the same lookup or push for each column in turn,
  with no limit check;
* `TableRepo::get_by_namespace_and_name` and `TableRepo::create`: the table limit check, the
  push, and a tag column for each `TagValue` part of the table's partition template.

## The model

A call is a `StateErr` over `MemCollections`: what a call pushed before it returns an error stays
pushed, as it does under the lock. Ids are integers (the `i64`s of the source), names are
character lists, and a namespace keeps only the fields these calls read. The generations of
`Versioned` rows and the skipped compactions are left out: no modelled call reads them. The
partitions and parquet files are the state of the calls of `ParquetFiles`.
-/

namespace IoxCore.IoxCatalog

open RustStr (intText)
open MutableBatch (InfluxColumnType InfluxFieldType)
open IoxCore.Partition (TemplatePart)

/-- `ColumnType` of `data_types`. -/
inductive ColumnType
  | i64
  | u64
  | f64
  | bool
  | string
  | time
  | tag
  deriving DecidableEq, Repr

/-- `ColumnType::as_str`, which its `Display` writes. -/
def ColumnType.asStr : ColumnType → List Char
  | .i64 => "i64".toList
  | .u64 => "u64".toList
  | .f64 => "f64".toList
  | .bool => "bool".toList
  | .string => "string".toList
  | .time => "time".toList
  | .tag => "tag".toList

/-- `From<InfluxColumnType> for ColumnType`. -/
def ColumnType.ofInflux : InfluxColumnType → ColumnType
  | .tag => .tag
  | .field .float => .f64
  | .field .integer => .i64
  | .field .uinteger => .u64
  | .field .string => .string
  | .field .boolean => .bool
  | .timestamp => .time

/-- `Error` of the catalog interface: the variants the modelled calls return. -/
inductive Error
  | alreadyExists (descr : List Char)
  | limitExceeded (descr : List Char)
  | notFound (descr : List Char)
  | external (source : List Char)
  deriving DecidableEq, Repr

/-- `TablePartitionTemplateOverride`: the parts of a custom template, or `None` for the
default. -/
abbrev PartitionTemplate := Option (List TemplatePart)

/-- `PARTITION_BY_DAY_PROTO`, the one part of the default template. -/
def partitionByDay : List TemplatePart := [.timeFormat "%Y-%m-%d".toList]

/-- `TablePartitionTemplateOverride::parts`. -/
def PartitionTemplate.parts (t : PartitionTemplate) : List TemplatePart := t.getD partitionByDay

/-- `Namespace`: the fields the modelled calls read. -/
structure Namespace where
  id : ℤ
  maxTables : ℕ
  maxColumnsPerTable : ℕ
  deriving DecidableEq, Repr

/-- `Table`. -/
structure Table where
  id : ℤ
  namespaceId : ℤ
  name : List Char
  partitionTemplate : PartitionTemplate
  deriving DecidableEq, Repr

/-- `Column`. -/
structure Column where
  id : ℤ
  tableId : ℤ
  name : List Char
  columnType : ColumnType
  deriving DecidableEq, Repr

/-- `MemCollections`: the rows the modelled calls read and push. -/
structure MemCollections where
  namespaces : List Namespace
  tables : List Table
  columns : List Column
  deriving DecidableEq, Repr

/-- A call on `MemTxn`. -/
abbrev Txn (α : Type) := StateErr MemCollections Error α

/-- The text of the error for a column of another type than the one it has. -/
def columnTypeMessage (name : List Char) (existing requested : ColumnType) : List Char :=
  "column ".toList ++ name ++ " is type ".toList ++ existing.asStr ++
    " but schema update has type ".toList ++ requested.asStr

/-- The text of the error for a table at its namespace's column limit. -/
def columnLimitMessage (name : List Char) (tableId : ℤ) : List Char :=
  "couldn't create column ".toList ++ name ++ " in table ".toList ++ intText tableId ++
    "; limit reached on namespace".toList

/-- The column limit check of `create_or_get_column`. The source means its `NotFound` errors for
flow control only, but the `?` after the check returns them. -/
def checkColumnLimit (stage : MemCollections) (name : List Char) (tableId : ℤ) :
    Except Error Unit :=
  match stage.tables.find? fun t => t.id == tableId with
  | none => .error (.notFound ("table: ".toList ++ intText tableId))
  | some t =>
    match stage.namespaces.find? fun n => n.id == t.namespaceId with
    | none => .error (.notFound [])
    | some n =>
      let columnsCount := (stage.columns.filter fun c => c.tableId == tableId).length
      if columnsCount ≥ n.maxColumnsPerTable then .error (.limitExceeded (columnLimitMessage name tableId))
      else .ok ()

/-- What `create_or_get_column` and `create_or_get_many_unchecked` both do with one column: the
table's column of that name, which must have the requested type, or a new column. -/
def getOrPushColumn (name : List Char) (tableId : ℤ) (columnType : ColumnType) : Txn Column := do
  let stage ← get
  match stage.columns.find? fun c => c.name == name && c.tableId == tableId with
  | some c =>
    if columnType = c.columnType then pure c
    else throw (.alreadyExists (columnTypeMessage name c.columnType columnType))
  | none =>
    let column : Column := ⟨stage.columns.length + 1, tableId, name, columnType⟩
    set { stage with columns := stage.columns ++ [column] }
    pure column

/-- `create_or_get_column`, which `ColumnRepo::create_or_get` runs: the limit check comes first,
also for a column that exists. -/
def createOrGetColumn (name : List Char) (tableId : ℤ) (columnType : ColumnType) : Txn Column := do
  let stage ← get
  match checkColumnLimit stage name tableId with
  | .error e => throw e
  | .ok () => getOrPushColumn name tableId columnType

/-- `ColumnRepo::create_or_get_many_unchecked`: no limit check, and the first error ends the call
with the columns before it pushed. The columns come in the order the caller's `HashMap` yields
them. -/
def createOrGetManyUnchecked (tableId : ℤ) (columns : List (List Char × ColumnType)) :
    Txn (List Column) :=
  columns.mapM fun (columnName, columnType) => getOrPushColumn columnName tableId columnType

/-- `TableRepo::get_by_namespace_and_name`. -/
def getByNamespaceAndName (namespaceId : ℤ) (name : List Char) : Txn (Option Table) := do
  let stage ← get
  pure (stage.tables.find? fun t => t.namespaceId == namespaceId && t.name == name)

/-- The table limit check of `TableRepo::create`. -/
def checkTableLimit (stage : MemCollections) (name : List Char) (namespaceId : ℤ) :
    Except Error Unit :=
  match stage.namespaces.find? fun n => n.id == namespaceId with
  | none => .error (.notFound [])
  | some n =>
    let tablesCount := (stage.tables.filter fun t => t.namespaceId == namespaceId).length
    if tablesCount ≥ n.maxTables then
      .error (.limitExceeded ("couldn't create table ".toList ++ name ++
        "; limit reached on namespace ".toList ++ intText namespaceId))
    else .ok ()

/-- `TableRepo::create`. -/
def createTable (name : List Char) (partitionTemplate : PartitionTemplate) (namespaceId : ℤ) :
    Txn Table := do
  let stage ← get
  match checkTableLimit stage name namespaceId with
  | .error e => throw e
  | .ok () => pure ()
  let table ← match stage.tables.find? fun t => t.name == name && t.namespaceId == namespaceId with
    | some _ =>
      throw (.alreadyExists ("table '".toList ++ name ++ "' in namespace ".toList ++
        intText namespaceId))
    | none => do
      let table : Table := ⟨stage.tables.length + 1, namespaceId, name, partitionTemplate⟩
      set { stage with tables := stage.tables ++ [table] }
      pure table
  -- partitioning reads tags only, so every `TagValue` part gets its tag column in the same
  -- transaction
  for part in table.partitionTemplate.parts do
    match part with
    | .tagValue tagName => discard <| createOrGetColumn tagName table.id .tag
    | _ => pure ()
  pure table

/-! ### What the calls do -/

section Calls

variable (stage : MemCollections) {name : List Char} {tableId : ℤ} {columnType : ColumnType}

open StateErr

/-- A failed column limit check ends `create_or_get` with its error, before the column is looked
up. -/
theorem exec_createOrGetColumn_of_check {e : Error}
    (h : checkColumnLimit stage name tableId = .error e) :
    (createOrGetColumn name tableId columnType).exec stage = some (.error e, stage) := by
  simp [createOrGetColumn, exec_bind, h]

/-- The limit check fails for a table whose namespace's column limit its columns reach. -/
theorem checkColumnLimit_of_full {t : Table} {n : Namespace}
    (ht : stage.tables.find? (fun t' => t'.id == t.id) = some t)
    (hn : stage.namespaces.find? (fun n => n.id == t.namespaceId) = some n)
    (hfull : n.maxColumnsPerTable ≤ (stage.columns.filter fun c => c.tableId == t.id).length) :
    checkColumnLimit stage name t.id = .error (.limitExceeded (columnLimitMessage name t.id)) := by
  simp [checkColumnLimit, ht, hn, hfull]

@[simp] theorem exec_getByNamespaceAndName (namespaceId : ℤ) :
    (getByNamespaceAndName namespaceId name).exec stage =
      some (.ok (stage.tables.find? fun t => t.namespaceId == namespaceId && t.name == name), stage) := by
  simp [getByNamespaceAndName, Except.map]

end Calls

end IoxCore.IoxCatalog

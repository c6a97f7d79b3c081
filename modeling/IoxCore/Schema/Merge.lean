import IoxCore.Lib.Except
import IoxCore.Lib.IndexMap
import IoxCore.Schema.Sort
import Mathlib.Data.List.Sort

/-!
# schema: IOx schemas and their merge

A model of `Schema::try_from_arrow` (src/schema/src/lib.rs), which accepts an arrow schema as an
IOx schema, and of `SchemaMerger` (src/schema/src/merge.rs), which folds schemas into their
union: `merge`, `merge_field` and `build`.

## The model

Arrow data types are an inductive type with the types the checks name and one constructor for
all others. A field's IOx column type is the text of its `iox::column::type` metadata, parsed by
`InfluxColumnType::try_from`. A `Schema` is an arrow schema with the proof that
`try_from_arrow`'s checks pass on it, so a value of the type is exactly a schema that
`try_from_arrow` accepts (`tryFromArrow_eq_ok_iff`).

The merger's `HashMap` of fields is an `IndexMap`; `build` sorts the fields by their distinct
names, so the drain order does not show. A failure of `merge` is one of its two errors or a
panic of the `assert_eq`s in `merge_field` (`MergeFailure`). The interner of `with_interner`
only shares equal schemas, and it is not modelled.

## What is proved

`mergeField_of_getFull`: what `merge_field` does with a column of a known name, by whether its
IOx type differs, or only its arrow type or nullability. The last case panics, and it is
reachable from valid schemas: a tag may be a `Utf8` or a `Dictionary(Int32, Utf8)` column
(`tryFromArrow_tagOnly`), so merging two schemas that hold the same tag in the two forms panics
(`merge_tag_forms_panics`), although `merge_field`'s comment says that for valid schemas "this
should always hold". A timestamp with and without the `UTC` zone does the same.
-/

namespace IoxCore.Schema

set_option linter.dupNamespace false

/-! ### Arrow types and IOx column types -/

/-- arrow's `TimeUnit`. -/
inductive TimeUnit
  | second | millisecond | microsecond | nanosecond
  deriving DecidableEq, Repr

/-- arrow's `DataType`: the types that the schema checks name, and `other` for the rest. -/
inductive ArrowDataType
  | boolean
  | int32
  | int64
  | uint64
  | float64
  | utf8
  | dictionary (key value : ArrowDataType)
  | timestamp (unit : TimeUnit) (tz : Option String)
  | other (name : String)
  deriving DecidableEq, Repr

/-- `InfluxFieldType`. -/
inductive InfluxFieldType
  | float | integer | uInteger | string | boolean
  deriving DecidableEq, Repr

/-- `InfluxColumnType`. -/
inductive InfluxColumnType
  | tag
  | field (t : InfluxFieldType)
  | timestamp
  deriving DecidableEq, Repr

/-- `From<InfluxFieldType> for ArrowDataType`. -/
def InfluxFieldType.toArrow : InfluxFieldType → ArrowDataType
  | .float => .float64
  | .integer => .int64
  | .uInteger => .uint64
  | .string => .utf8
  | .boolean => .boolean

/-- `InfluxColumnType::valid_arrow_type`: a tag is a string or a dictionary of strings keyed by
`Int32`, a field has its one arrow type, and a timestamp is in nanoseconds, with no zone or
`UTC`. -/
def InfluxColumnType.validArrowType : InfluxColumnType → ArrowDataType → Bool
  | .tag, .utf8 => true
  | .tag, .dictionary key value => key == .int32 && value == .utf8
  | .tag, _ => false
  | .field t, dataType => dataType == t.toArrow
  | .timestamp, .timestamp .nanosecond none => true
  | .timestamp, .timestamp .nanosecond (some tz) => tz == "UTC"
  | .timestamp, _ => false

/-- `From<&InfluxColumnType> for &'static str`: the metadata text of a column type. -/
def InfluxColumnType.toStr : InfluxColumnType → String
  | .tag => "iox::column_type::tag"
  | .field .float => "iox::column_type::field::float"
  | .field .integer => "iox::column_type::field::integer"
  | .field .uInteger => "iox::column_type::field::uinteger"
  | .field .string => "iox::column_type::field::string"
  | .field .boolean => "iox::column_type::field::boolean"
  | .timestamp => "iox::column_type::timestamp"

/-- `TryFrom<&str> for InfluxColumnType`, the inverse of `toStr`. -/
def InfluxColumnType.tryFrom (s : String) : Except String InfluxColumnType :=
  if s = "iox::column_type::tag" then .ok .tag
  else if s = "iox::column_type::field::float" then .ok (.field .float)
  else if s = "iox::column_type::field::integer" then .ok (.field .integer)
  else if s = "iox::column_type::field::uinteger" then .ok (.field .uInteger)
  else if s = "iox::column_type::field::string" then .ok (.field .string)
  else if s = "iox::column_type::field::boolean" then .ok (.field .boolean)
  else if s = "iox::column_type::timestamp" then .ok .timestamp
  else .error ("Unknown column type in metadata: " ++ s)

theorem InfluxColumnType.tryFrom_toStr (t : InfluxColumnType) : tryFrom t.toStr = .ok t := by
  cases t with
  | tag => rfl
  | field f => cases f <;> rfl
  | timestamp => rfl

/-- An arrow field, with the value of its `iox::column::type` metadata. -/
structure ArrowField where
  name : String
  dataType : ArrowDataType
  nullable : Bool
  columnType : Option String
  deriving DecidableEq, Repr

/-- An arrow schema, with the value of its `iox::measurement::name` metadata. -/
structure ArrowSchema where
  fields : List ArrowField
  measurement : Option String
  deriving DecidableEq, Repr

/-- `get_influx_type`: the parsed metadata, or the metadata text that did not parse. -/
def getInfluxType (field : ArrowField) : Except (Option String) InfluxColumnType :=
  match field.columnType with
  | none => .error none
  | some md => (InfluxColumnType.tryFrom md).mapError fun _ => some md

/-! ### `Schema::try_from_arrow` -/

/-- The errors of `try_from_arrow`. -/
inductive Error
  | duplicateColumnName (columnName : String)
  | invalidInfluxColumnType (columnName : String) (md : Option String)
  | incompatibleMetadata (columnName : String) (influxdbColumnType : InfluxColumnType)
      (actualType : ArrowDataType)
  | nullability (columnName : String) (influxdbColumnType : InfluxColumnType) (nullable : Bool)
  | wrongTimeColumnName (columnName : String)
  deriving DecidableEq, Repr

/-- The nullability `try_from_arrow` expects of a column type. -/
def InfluxColumnType.expectedNullable : InfluxColumnType → Bool
  | .tag => true
  | .field _ => true
  | .timestamp => false

/-- One turn of `try_from_arrow`'s loop: the name is new, the metadata parses, the arrow type
suits it, the nullability is the expected one, and a timestamp is named `time`. The names
seen so far are the loop's `HashSet`. -/
def checkField (fieldNames : List String) (field : ArrowField) : Except Error (List String) :=
  if field.name ∈ fieldNames then .error (.duplicateColumnName field.name)
  else
    match getInfluxType field with
    | .error md => .error (.invalidInfluxColumnType field.name md)
    | .ok influxdbColumnType =>
      if !influxdbColumnType.validArrowType field.dataType then
        .error (.incompatibleMetadata field.name influxdbColumnType field.dataType)
      else if field.nullable != influxdbColumnType.expectedNullable then
        .error (.nullability field.name influxdbColumnType influxdbColumnType.expectedNullable)
      else if influxdbColumnType == .timestamp && field.name != timeColumnName then
        .error (.wrongTimeColumnName field.name)
      else .ok (field.name :: fieldNames)

/-- What `try_from_arrow` checks of an arrow schema. -/
def ArrowSchema.Valid (inner : ArrowSchema) : Prop :=
  ∃ names, inner.fields.foldlM checkField [] = .ok names

/-- `Schema`: an arrow schema that `try_from_arrow` accepts. -/
structure Schema where
  inner : ArrowSchema
  valid : inner.Valid

/-- `Schema::try_from_arrow`. -/
def Schema.tryFromArrow (inner : ArrowSchema) : Except Error Schema :=
  match h : inner.fields.foldlM checkField [] with
  | .ok _ => .ok ⟨inner, _, h⟩
  | .error e => .error e

/-- `Schema::measurement`. -/
def Schema.measurement (s : Schema) : Option String := s.inner.measurement

/-- `Schema::iter`: each field with its column type. The `expect` cannot fail on a schema that
was checked, so the fields whose metadata does not parse are simply passed over. -/
def Schema.iter (s : Schema) : List (InfluxColumnType × ArrowField) :=
  s.inner.fields.filterMap fun field => (getInfluxType field).toOption.map fun t => (t, field)

theorem Schema.tryFromArrow_eq_ok_iff {inner : ArrowSchema} {s : Schema} :
    Schema.tryFromArrow inner = .ok s ↔ s.inner = inner := by
  unfold Schema.tryFromArrow
  split
  · constructor
    · rintro ⟨⟩
      rfl
    · intro h
      obtain ⟨inner', hv⟩ := s
      subst h
      rfl
  · rename_i e h
    refine iff_of_false (by simp) fun hs => ?_
    obtain ⟨names, hok⟩ := s.valid
    rw [hs, h] at hok
    cases hok

/-! ### `SchemaMerger` -/

/-- The errors of `merge` and `merge_field`. -/
inductive MergeError
  | tryMergeDifferentMeasurementNames (existingMeasurement newMeasurement : String)
  | tryMergeBadColumnType (fieldName : String) (existingColumnType newColumnType : InfluxColumnType)
  deriving DecidableEq, Repr

/-- How a merge fails: with an error it returns, or with a panic of an `assert_eq`. -/
inductive MergeFailure
  | error (e : MergeError)
  | panic
  deriving DecidableEq, Repr

/-- `SchemaMerger`: the fields seen so far, by name, with their column types, and the
measurement. -/
structure SchemaMerger where
  fields : IndexMap String (ArrowField × InfluxColumnType)
  measurement : Option String

/-- `SchemaMerger::new`. -/
def SchemaMerger.new : SchemaMerger := ⟨.empty, none⟩

/-- `SchemaMerger::merge_field`: a new name is added with the field's arrow type and
nullability but no metadata. A known name must have the same column type (else an error),
and then the same nullability and arrow type (else the `assert_eq`s panic). -/
def SchemaMerger.mergeField (self : SchemaMerger) (field : ArrowField)
    (columnType : InfluxColumnType) : Except MergeFailure SchemaMerger :=
  match self.fields.getFull field.name with
  | none =>
    .ok { self with
      fields := self.fields.insert field.name
        (⟨field.name, field.dataType, field.nullable, none⟩, columnType) }
  | some (_, (existingField, existingColumnType)) =>
    if existingColumnType != columnType then
      .error (.error (.tryMergeBadColumnType field.name existingColumnType columnType))
    else if field.nullable != existingField.nullable then .error .panic
    else if field.dataType != existingField.dataType then .error .panic
    else .ok self

/-- `SchemaMerger::merge`: the measurement names must agree where both are given; then every
column of `other` is merged in order, and the first failure ends the merge. -/
def SchemaMerger.merge (self : SchemaMerger) (other : Schema) : Except MergeFailure SchemaMerger :=
  let checked : Except MergeFailure SchemaMerger :=
    match self.measurement, other.measurement with
    | some existingMeasurement, some newMeasurement =>
      if existingMeasurement != newMeasurement then
        .error (.error (.tryMergeDifferentMeasurementNames existingMeasurement newMeasurement))
      else .ok self
    | none, some m => .ok { self with measurement := some m }
    | _, _ => .ok self
  checked >>= fun self => other.iter.foldlM (fun m (t, field) => m.mergeField field t) self

/-- `Schema::new_from_parts`: each field gets the metadata of its column type, the fields are
sorted by name if asked, and the result goes through `try_from_arrow`. The sort is unstable in
the source, and the merger's names are distinct, so a stable sort gives the same order. -/
def Schema.newFromParts (measurement : Option String)
    (fields : List (ArrowField × InfluxColumnType)) (sortColumns : Bool) : Except Error Schema :=
  let fields := fields.map fun (field, columnType) => { field with columnType := some columnType.toStr }
  let fields := if sortColumns then fields.mergeSort fun a b => decide (a.name ≤ b.name) else fields
  Schema.tryFromArrow ⟨fields, measurement⟩

/-- `SchemaMerger::build`: the `expect` panics if `new_from_parts` fails. -/
def SchemaMerger.build (self : SchemaMerger) : Except MergeFailure Schema :=
  match Schema.newFromParts self.measurement (self.fields.entries.map (·.2)) true with
  | .ok schema => .ok schema
  | .error _ => .error .panic

/-! ### Merging two forms of one column -/

/-- `merge_field` on a name the merger holds, by what differs. -/
theorem SchemaMerger.mergeField_of_getFull {self : SchemaMerger} {field existingField : ArrowField}
    {i : ℕ} {columnType existingColumnType : InfluxColumnType}
    (h : self.fields.getFull field.name = some (i, (existingField, existingColumnType))) :
    self.mergeField field columnType =
      if existingColumnType ≠ columnType then
        .error (.error (.tryMergeBadColumnType field.name existingColumnType columnType))
      else if field.nullable ≠ existingField.nullable ∨ field.dataType ≠ existingField.dataType then
        .error .panic
      else .ok self := by
  simp only [mergeField, h]
  by_cases ht : existingColumnType = columnType
  · by_cases hn : field.nullable = existingField.nullable <;>
      by_cases hd : field.dataType = existingField.dataType <;> simp [ht, hn, hd]
  · simp [ht]

/-- The arrow schema of a single tag column of the given arrow type. -/
def tagOnly (name : String) (dataType : ArrowDataType) : ArrowSchema :=
  ⟨[⟨name, dataType, true, some InfluxColumnType.tag.toStr⟩], none⟩

/-- A tag may be stored as a string or as a dictionary of strings keyed by `Int32`: both forms
pass `try_from_arrow`. -/
theorem tryFromArrow_tagOnly (name : String) (dataType : ArrowDataType)
    (h : InfluxColumnType.tag.validArrowType dataType = true) :
    ∃ s, Schema.tryFromArrow (tagOnly name dataType) = .ok s := by
  have hcheck : (tagOnly name dataType).fields.foldlM checkField [] = .ok [name] := by
    simp [tagOnly, checkField, getInfluxType, InfluxColumnType.tryFrom_toStr, h,
      InfluxColumnType.expectedNullable]
  exact ⟨⟨tagOnly name dataType, _, hcheck⟩, Schema.tryFromArrow_eq_ok_iff.2 rfl⟩

/-- **Merging a tag stored as a string with the same tag stored as a dictionary panics.** Both
schemas are accepted by `try_from_arrow`, and the column types agree, so `merge_field` reaches
its `assert_eq` of the arrow types, which differ. -/
theorem merge_tag_forms_panics (name : String) :
    ∃ a b, Schema.tryFromArrow (tagOnly name .utf8) = .ok a ∧
      Schema.tryFromArrow (tagOnly name (.dictionary .int32 .utf8)) = .ok b ∧
      [a, b].foldlM SchemaMerger.merge SchemaMerger.new = .error .panic := by
  obtain ⟨a, ha⟩ := tryFromArrow_tagOnly name .utf8 rfl
  obtain ⟨b, hb⟩ := tryFromArrow_tagOnly name (.dictionary .int32 .utf8) rfl
  refine ⟨a, b, ha, hb, ?_⟩
  have ha' := Schema.tryFromArrow_eq_ok_iff.1 ha
  have hb' := Schema.tryFromArrow_eq_ok_iff.1 hb
  simp [SchemaMerger.merge, Schema.measurement, Schema.iter, ha', hb', tagOnly, getInfluxType,
    InfluxColumnType.tryFrom_toStr, SchemaMerger.new, SchemaMerger.mergeField, IndexMap.getFull,
    IndexMap.getFullFrom, IndexMap.insert, IndexMap.keys]

end IoxCore.Schema

/-
# Table definitions

`TableDefinition` of `chirondb-types/src/relational.rs` and what
`chirondb-core/src/relational.rs` reads off a definition: column positions, the owners
of physical indexes and `validate_row`.

Reading a row past its width panics in the source; here it is an error.
-/

import ChironDB.Relational.RowStore

namespace ChironDB.Relational

open Std (ExtTreeMap)

/-- `IdentityGeneration`. -/
inductive IdentityGeneration
  | always
  | byDefault
  deriving DecidableEq, Repr

/-- `RelationalColumn`. -/
structure RelationalColumn where
  name : String
  dataType : RelationalType
  nullable : Bool := false
  default : Option RelationalValue := none
  identity : Option IdentityGeneration := none
  deriving DecidableEq, Repr

/-- `UniqueConstraint`. -/
structure UniqueConstraint where
  indexId : UInt64
  name : Option String := none
  columns : List String
  deriving DecidableEq, Repr

/-- `ScalarIndexDefinition`. -/
structure ScalarIndexDefinition where
  indexId : UInt64
  name : String
  columns : List String
  unique : Bool := false
  deriving DecidableEq, Repr

/-- `CheckConstraintDefinition`. -/
structure CheckConstraintDefinition where
  name : Option String := none
  expression : String
  deriving DecidableEq, Repr

/-- `ReferencedKeyKind`. -/
inductive ReferencedKeyKind
  | primaryKey
  | uniqueConstraint
  | uniqueIndex
  deriving DecidableEq, Repr

/-- `ForeignKeyMatch`. -/
inductive ForeignKeyMatch
  | simple
  | full
  deriving DecidableEq, Repr

/-- `ForeignKeyAction`. -/
inductive ForeignKeyAction
  | noAction
  | restrict
  | cascade
  | setNull
  | setDefault
  deriving DecidableEq, Repr

/-- `ForeignKeyDefinition`. -/
structure ForeignKeyDefinition where
  indexId : UInt64
  name : Option String := none
  columns : List String
  referencedTable : String
  referencedColumns : List String := []
  referencedKeyKind : Option ReferencedKeyKind := none
  referencedKeyName : Option String := none
  matchKind : ForeignKeyMatch := .simple
  onDelete : ForeignKeyAction := .noAction
  onUpdate : ForeignKeyAction := .noAction
  deferrable : Bool := false
  initiallyDeferred : Bool := false
  deriving DecidableEq, Repr

/-- `TableDefinition`; `referenceIndexIds` lists its map in the order of the columns. -/
structure TableDefinition where
  tableId : UInt64
  securityIncarnation : Option Uuid := none
  creatorPrincipalId : Option String := none
  tenantId : Option String := none
  managedByMl : Bool := false
  name : String
  columns : List RelationalColumn
  primaryKey : List String := []
  primaryKeyName : Option String := none
  primaryKeyIndexId : Option UInt64 := none
  uniqueConstraints : List UniqueConstraint := []
  checkConstraints : List CheckConstraintDefinition := []
  foreignKeys : List ForeignKeyDefinition := []
  indexes : List ScalarIndexDefinition := []
  referenceIndexIds : List (String × UInt64) := []
  deriving DecidableEq, Repr

/-! ### Columns -/

/-- The value at a position; an index past the end of the row panics in the source. -/
def valueAt (values : RowValues) (position : ℕ) : Result RelationalValue :=
  match values[position]? with
  | some value => .ok value
  | none => .error (invalid "index out of bounds")

theorem valueAt_eq_ok {values : RowValues} {position : ℕ} {value : RelationalValue} :
    valueAt values position = .ok value ↔ values[position]? = some value := by
  unfold valueAt
  cases values[position]? <;> simp

/-- `column_index`. -/
def columnIndex (definition : TableDefinition) (name : String) : Result ℕ :=
  match definition.columns.findIdx? (·.name = name) with
  | some position => .ok position
  | none => .error (invalid s!"unknown column {name}")

/-- The positions of several columns. -/
def columnIndexes (definition : TableDefinition) (names : List String) : Result (List ℕ) :=
  names.mapM (columnIndex definition)

/-- The type of the column at a position. -/
def typeAt (definition : TableDefinition) (position : ℕ) : Result RelationalType :=
  match definition.columns[position]? with
  | some column => .ok column.dataType
  | none => .error (invalid "index out of bounds")

/-! ### Physical indexes -/

/-- `catalog_index_owners`. -/
def catalogIndexOwners (definition : TableDefinition) : List (UInt64 × List String) :=
  (definition.primaryKeyIndexId.toList.map fun id => (id, definition.primaryKey)) ++
  (definition.uniqueConstraints.map fun constraint => (constraint.indexId, constraint.columns)) ++
  (definition.indexes.map fun index => (index.indexId, index.columns)) ++
  (definition.foreignKeys.map fun foreignKey => (foreignKey.indexId, foreignKey.columns)) ++
  (definition.referenceIndexIds.map fun (column, id) => (id, [column]))

/-- `existing_index_id`. -/
def existingIndexId (definition : TableDefinition) (columns : List String) : Option UInt64 :=
  (catalogIndexOwners definition).findSome? fun (indexId, candidate) =>
    if indexId ≠ 0 ∧ candidate = columns then some indexId else none

/-- The column lists that `IndexCatalog::new` gives an index, in order. -/
def indexSpecifications (definition : TableDefinition) : List (List String) :=
  (if definition.primaryKey = [] then [] else [definition.primaryKey]) ++
  (definition.uniqueConstraints.map (·.columns)) ++
  (definition.foreignKeys.map (·.columns)) ++
  (definition.indexes.map (·.columns)) ++
  (definition.referenceIndexIds.map fun (column, _) => [column])

/-! ### Rows -/

section

variable [Chrono]

/-- The loop of `validate_row`. -/
def validateColumns : List RelationalColumn → RowValues → Result Unit
  | column :: columns, value :: values =>
    if value = .null then
      if column.nullable then validateColumns columns values
      else .error (invalid ("column " ++ column.name ++ " cannot be NULL"))
    else do
      validateValue column.dataType value
      validateColumns columns values
  | _, _ => .ok ()

/-- `validate_row`. -/
def validateRow (definition : TableDefinition) (row : RowValues) : Result Unit :=
  if row.length ≠ definition.columns.length then
    .error (invalid "row width does not match table definition")
  else validateColumns definition.columns row

end

end ChironDB.Relational

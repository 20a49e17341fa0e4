import Gogo.Models.Equality

/-!
# Operations and migrations

The data of `core/migrations/migrations.go`: an operation with its historical snapshot, the
constructors that take the snapshot, and a migration.

An operation is one flat record, as in the source: its kind says which of the other members
are read. A kind that no code path knows is kept with its text.
-/

namespace Gogo.Migrations

open Gogo.Lib Gogo.Models

/-- The kinds that a code path of the package knows. -/
inductive KnownOperation
  | createModel | deleteModel | addField | removeField | alterField | renameField
  | addIndex | removeIndex | indexOrder | addConstraint | removeConstraint | constraintOrder
  | sql | data
deriving DecidableEq

/-- The text of a known kind. -/
def KnownOperation.tag : KnownOperation → String
  | .createModel => "create_model"
  | .deleteModel => "delete_model"
  | .addField => "add_field"
  | .removeField => "remove_field"
  | .alterField => "alter_field"
  | .renameField => "rename_field"
  | .addIndex => "add_index"
  | .removeIndex => "remove_index"
  | .indexOrder => "index_order"
  | .addConstraint => "add_constraint"
  | .removeConstraint => "remove_constraint"
  | .constraintOrder => "constraint_order"
  | .sql => "sql"
  | .data => "data"

def KnownOperation.all : List KnownOperation :=
  [.createModel, .deleteModel, .addField, .removeField, .alterField, .renameField, .addIndex,
    .removeIndex, .indexOrder, .addConstraint, .removeConstraint, .constraintOrder, .sql, .data]

/-- The known kind with a given text. -/
def KnownOperation.ofText? (text : String) : Option KnownOperation :=
  KnownOperation.all.find? fun k => k.tag = text

lemma KnownOperation.ofText?_tag (k : KnownOperation) :
    KnownOperation.ofText? k.tag = some k := by
  cases k <;> decide

/-- Source: `migrations.go` `Operation.Kind`, a text. A text that is a known kind can only be
written as that kind. -/
inductive OperationKind
  | known (k : KnownOperation)
  | unknown (text : String) (h : KnownOperation.ofText? text = none)
deriving DecidableEq

/-- The text of an operation kind. -/
def OperationKind.text : OperationKind → String
  | .known k => k.tag
  | .unknown text _ => text

/-- The operation kind with a given text. -/
def OperationKind.ofText (text : String) : OperationKind :=
  match h : KnownOperation.ofText? text with
  | some k => .known k
  | none => .unknown text h

lemma OperationKind.ofText_text (k : OperationKind) : OperationKind.ofText k.text = k := by
  unfold OperationKind.ofText
  cases k with
  | known k =>
    have hk : KnownOperation.ofText? (OperationKind.known k).text = some k := k.ofText?_tag
    split
    · next k' h => rw [hk, Option.some.injEq] at h; rw [h]
    · next h => rw [hk] at h; cases h
  | unknown text hu =>
    have hu' : KnownOperation.ofText? (OperationKind.unknown text hu).text = none := hu
    split
    · next k' h => rw [hu'] at h; cases h
    · rfl

instance : Inhabited OperationKind := ⟨OperationKind.ofText ""⟩

/-- Source: `migrations.go` `Operation`. -/
structure Operation where
  kind : OperationKind := default
  schema : Schema := {}
  field : Field := {}
  oldField : Field := {}
  index : Index := {}
  indexOrder : List String := []
  oldIndexOrder : List String := []
  constraint : Option Constraint := none
  constraintOrder : List String := []
  oldConstraintOrder : List String := []
  name : String := ""
  oldName : String := ""
  sql : String := ""
  reverseSQL : String := ""
  args : List Value := []
  reverseArgs : List Value := []
  codeID : String := ""
  forward : Option Callback := none
  backward : Option Callback := none

instance : Inhabited Operation := ⟨{}⟩

/-- The key of the model an operation is about. -/
def Operation.key (op : Operation) : String := op.schema.key

/-- The operation has a given known kind. -/
def Operation.is (op : Operation) (k : KnownOperation) : Bool := op.kind == .known k

/-- Source: `migrations.go` `CreateModel`. -/
def createModel (schema : Schema) : Operation :=
  { kind := .known .createModel, schema := schema.clone }

/-- Source: `migrations.go` `DeleteModel`. -/
def deleteModel (schema : Schema) : Operation :=
  { kind := .known .deleteModel, schema := schema.clone }

/-- Source: `migrations.go` `AddField`. -/
def addField (schema : Schema) (field : Field) : Operation :=
  { kind := .known .addField, schema := schema.clone, field := field }

/-- Source: `migrations.go` `RemoveField`. -/
def removeField (schema : Schema) (field : Field) : Operation :=
  { kind := .known .removeField, schema := schema.clone, field := field }

/-- Source: `migrations.go` `AlterField`. -/
def alterField (schema : Schema) (old new : Field) : Operation :=
  { kind := .known .alterField, schema := schema.clone, oldField := old, field := new }

/-- Source: `migrations.go` `RenameField`. -/
def renameField (schema : Schema) (old new : String) : Operation :=
  { kind := .known .renameField, schema := schema.clone, oldName := old, name := new }

/-- Source: `migrations.go` `AddIndex`. -/
def addIndex (schema : Schema) (index : Index) : Operation :=
  { kind := .known .addIndex, schema := schema.clone, index := index }

/-- Source: `migrations.go` `RemoveIndex`. -/
def removeIndex (schema : Schema) (index : Index) : Operation :=
  { kind := .known .removeIndex, schema := schema.clone, index := index }

/-- The operation that reorders the indexes. Source: `index_lifecycle.go` `detectIndexes`. -/
def reorderIndexes (schema : Schema) (old new : List String) : Operation :=
  { kind := .known .indexOrder, schema := schema.clone, oldIndexOrder := old, indexOrder := new }

/-- Source: `migrations.go` `AddConstraint`. -/
def addConstraint (schema : Schema) (constraint : Constraint) : Operation :=
  { kind := .known .addConstraint, schema := schema.clone, constraint := some constraint }

/-- Source: `migrations.go` `RemoveConstraint`. -/
def removeConstraint (schema : Schema) (constraint : Constraint) : Operation :=
  { kind := .known .removeConstraint, schema := schema.clone, constraint := some constraint }

/-- The operation that reorders the constraints.
Source: `constraint_lifecycle.go` `detectConstraints`. -/
def reorderConstraints (schema : Schema) (old new : List String) : Operation :=
  { kind := .known .constraintOrder, schema := schema.clone, oldConstraintOrder := old,
    constraintOrder := new }

/-- Source: `migrations.go` `Migration`. -/
structure Migration where
  app : String := ""
  name : String := ""
  dependencies : List String := []
  operations : List Operation := []
  nonAtomic : Bool := false
  replaces : List String := []

/-- Source: `migrations.go` `Migration.Key`. -/
def Migration.key (m : Migration) : String := m.app ++ "." ++ m.name

end Gogo.Migrations

import Gogo.Migrations.Operation
import Gogo.Lib.Keyed
import Gogo.Lib.Named

/-!
# Historical state

The state a list of migrations describes: `schemaState` of `core/migrations/planning.go` with the
per-operation transitions of `rename_state.go`, `index_lifecycle.go` and
`constraint_lifecycle.go`.

* `renameFieldState`, `applyIndexState`, `applyConstraintState`, `fieldStateAfter` — the
  transitions, each as its source has it, with every error text.
* `Operation.onModel` — what an operation does to the schema of its own model.
* `applyOperation` — what it does to the whole state: only a field rename reaches other models,
  whose relations name the renamed field.
* `schemaState` — the fold over all operations, and the sorted snapshots at its end.
-/

namespace Gogo.Migrations

open Gogo.Lib Gogo.Models

/-- A value, or the error that stands for its absence. -/
def orFail {α : Type} (value : Option α) (err : Err) : Except Err α :=
  match value with
  | some v => .ok v
  | none => .error err

/-! ## Renames -/

/-- Replace one name. -/
def renameName (old new name : String) : String := if name = old then new else name

/-- Source: `strings.TrimPrefix(name, "-")`. -/
def trimMinus (name : String) : String :=
  match name.toList with
  | '-' :: rest => String.ofList rest
  | _ => name

/-- Source: `strings.TrimSuffix`. -/
def trimSuffix (name suffix : String) : String :=
  if suffix.toList.isSuffixOf name.toList then
    String.ofList (name.toList.take (name.toList.length - suffix.toList.length))
  else name

/-- Source: `rename_state.go` `renameRelationFieldReferences`. -/
def renameRelationFieldReferences (model old new : String) (relation : Relation) : Relation :=
  { relation with
    targetFields :=
      if relation.target = model then relation.targetFields.map (renameName old new)
      else relation.targetFields
    throughFields :=
      if relation.through = model then relation.throughFields.map (renameName old new)
      else relation.throughFields }

/-- The relations of a schema follow a field rename of `model`.
Source: `planning.go` `schemaState`, the loop over the other models; it clones each first. -/
def renameReferences (model old new : String) (schema : Schema) : Schema :=
  { schema.clone with
    fields := schema.clone.fields.map fun f =>
      { f with relation := f.relation.map (renameRelationFieldReferences model old new) } }

/-- One field of the renamed model. Source: `rename_state.go` `renameFieldState`, the field loop. -/
def renameInField (model old new : String) (f : Field) : Field :=
  { f with
    name := renameName old new f.name
    uniqueForDate := renameName old new f.uniqueForDate
    uniqueForMonth := renameName old new f.uniqueForMonth
    uniqueForYear := renameName old new f.uniqueForYear
    relation := f.relation.map (renameRelationFieldReferences model old new) }

/-- One entry of the ordering. -/
def renameInOrdering (old new name : String) : String :=
  if trimMinus name = old then trimSuffix name old ++ new else name

/-- The renamed schema. Source: `rename_state.go` `renameFieldState`, after its checks. -/
def renamedSchema (schema : Schema) (old new : String) : Schema :=
  { schema.clone with
    fields := schema.clone.fields.map (renameInField schema.key old new)
    primaryKey := schema.primaryKey.map (renameName old new)
    indexes := schema.indexes.map fun i =>
      { i with
        fields := i.fields.map (renameName old new)
        includeFields := i.includeFields.map (renameName old new) }
    constraints := schema.constraints.map fun c =>
      { c with fields := c.fields.map (renameName old new) }
    ordering := schema.ordering.map (renameInOrdering old new)
    parentLink := renameName old new schema.parentLink }

/-- Source: `rename_state.go` `renameFieldState`. -/
def renameFieldState (schema : Schema) (old new : String) : Except Err Schema := do
  failIf (schema.field? old).isNone (.text "migrations: renamed field does not exist")
  failIf ((schema.field? new).isSome || !validIdentifier new)
    (.text "migrations: invalid or colliding renamed field")
  failIf (schema.indexes.any fun i => i.condition != "")
    (.text "migrations: field rename with conditional indexes requires explicit state and SQL operations")
  failIf (schema.constraints.any fun c => c.condition != "" || c.expression != "")
    (.text "migrations: field rename with SQL expressions requires explicit state and SQL operations")
  .ok (renamedSchema schema old new)

/-! ## Indexes and constraints -/

/-- A list of named descriptors inside a schema: its indexes or its constraints. -/
structure Part (α : Type) where
  /-- The name of a descriptor. -/
  name : α → String
  /-- The descriptors of a schema. -/
  get : Schema → List α
  /-- Replace them. -/
  set : List α → Schema → Schema
  get_set : ∀ values s, get (set values s) = values
  set_get : ∀ s, set (get s) s = s
  set_set : ∀ values values' s, set values (set values' s) = set values s
  clone_set : ∀ values s, (set values s).clone = set values s.clone
  get_clone : ∀ s, get s.clone = get s
  fields_set : ∀ values s, (set values s).fields = s.fields
  options_set : ∀ values s, (set values s).toSchemaOptions = s.toSchemaOptions

def indexPart : Part Index where
  name := Index.name
  get := Schema.indexes
  set indexes s := { s with indexes := indexes }
  get_set _ _ := rfl
  set_get _ := rfl
  set_set _ _ _ := rfl
  clone_set _ _ := rfl
  get_clone _ := rfl
  fields_set _ _ := rfl
  options_set _ _ := rfl

def constraintPart : Part Constraint where
  name := Constraint.name
  get := Schema.constraints
  set constraints s := { s with constraints := constraints }
  get_set _ _ := rfl
  set_get _ := rfl
  set_set _ _ _ := rfl
  clone_set _ _ := rfl
  get_clone _ := rfl
  fields_set _ _ := rfl
  options_set _ _ := rfl

/-- Change one part of a schema and validate the result. -/
def applyPart {α : Type} (part : Part α) (change : List α → Except Err (List α))
    (schema : Schema) : Except Err Schema := do
  let values ← change (part.get schema)
  let next := part.set values schema.clone
  next.validate
  .ok next

/-- Reorder a part whose order is the recorded one. -/
def reorderPart {α : Type} (part : Part α) (old new : List String) (differs incomplete : Err)
    (values : List α) : Except Err (List α) := do
  failIf (values.map part.name != old || new.length != values.length) differs
  orFail (Named.pick new (Named.index part.name values)) incomplete

/-- The change of the indexes. Source: `index_lifecycle.go` `applyIndexState`, the switch. -/
def indexChange (op : Operation) (indexes : List Index) : Except Err (List Index) :=
  match op.kind with
  | .known .addIndex =>
    orFail (Named.add? Index.name op.index indexes)
      (.text "migrations: index name already exists in historical state")
  | .known .removeIndex =>
    orFail (Named.remove? Index.name op.index indexes)
      (.text "migrations: removed index differs from historical state")
  | .known .indexOrder =>
    reorderPart indexPart op.oldIndexOrder op.indexOrder
      (.text "migrations: index order differs from historical state")
      (.text "migrations: index order must name every index exactly once") indexes
  | _ => .ok indexes

/-- Source: `index_lifecycle.go` `applyIndexState`. -/
def applyIndexState (schema : Schema) (op : Operation) : Except Err Schema :=
  applyPart indexPart (indexChange op) schema

/-- The change of the constraints.
Source: `constraint_lifecycle.go` `applyConstraintState`, the reordering and the switch. -/
def constraintChange (op : Operation) (constraints : List Constraint) :
    Except Err (List Constraint) :=
  if op.is .constraintOrder then
    reorderPart constraintPart op.oldConstraintOrder op.constraintOrder
      (.text "migrations: constraint order differs from historical state")
      (.text "migrations: constraint order must name every constraint exactly once") constraints
  else do
    let constraint ← orFail op.constraint
      (.text "migrations: constraint operation requires immutable descriptor")
    match op.kind with
    | .known .addConstraint =>
      orFail (Named.add? Constraint.name constraint constraints)
        (.text "migrations: constraint already exists in historical state")
    | .known .removeConstraint =>
      orFail (Named.remove? Constraint.name constraint constraints)
        (.text "migrations: removed constraint differs from historical state")
    | _ => .ok constraints

/-- Source: `constraint_lifecycle.go` `applyConstraintState`. -/
def applyConstraintState (schema : Schema) (op : Operation) : Except Err Schema :=
  applyPart constraintPart (constraintChange op) schema

/-! ## Fields -/

/-- Replace the first field with a given name, or append. -/
def replaceField (old : String) (field : Field) : List Field → List Field
  | [] => [field]
  | f :: rest => if f.name = old then field :: rest else f :: replaceField old field rest

/-- Source: `index_lifecycle.go` `fieldStateAfter`. -/
def fieldStateAfter (schema : Schema) (old : String) (field : Field) : Schema :=
  { schema.clone with fields := replaceField old field.clone schema.clone.fields }

/-! ## Operations -/

/-- The schema of an operation's model after the operation; `none` is an absent model.
Source: `planning.go` `schemaState`, the switch. A missing model reads as the zero schema. -/
def Operation.onModel (current : Option Schema) (op : Operation) : Except Err (Option Schema) :=
  let schema := current.getD {}
  match op.kind with
  | .known .createModel => .ok (some op.schema.clone)
  | .known .deleteModel => .ok none
  | .known .addField => .ok (some { schema with fields := schema.fields ++ [op.field] })
  | .known .removeField =>
    .ok (some { schema with fields := schema.fields.filter fun f => f.name ≠ op.field.name })
  | .known .alterField =>
    .ok (some { schema with
      fields := schema.fields.map fun f => if f.name = op.oldField.name then op.field else f })
  | .known .renameField => (renameFieldState schema op.oldName op.name).map some
  | .known .addIndex | .known .removeIndex | .known .indexOrder =>
    (applyIndexState schema op).map some
  | .known .addConstraint | .known .removeConstraint | .known .constraintOrder =>
    (applyConstraintState schema op).map some
  | .known .sql | .known .data | .unknown _ _ => .ok current

/-- The state of a history: one schema for every model key. -/
abbrev State := FinMap String Schema

/-- After a rename of a field of `key`, the relations of every other model follow. -/
def followRename (key old new : String) (state : State) : State :=
  state.mapValues fun k schema => if k = key then schema else renameReferences key old new schema

/-- One operation of `schemaState`. -/
def applyOperation (state : State) (op : Operation) : Except Err State := do
  let next ← keyedStep Operation.key Operation.onModel state op
  if op.is .renameField then
    .ok (followRename op.key op.oldName op.name next)
  else
    .ok next

/-- The state that a list of operations describes, before the snapshots are taken. -/
def replay (operations : List Operation) : Except Err State :=
  run applyOperation FinMap.empty operations

/-- The snapshots of a state, by key in sorted order. -/
def State.schemas (state : State) : List Schema :=
  (sortStrings state.keys).filterMap fun key => (state.get? key).map Schema.clone

/-- Source: `planning.go` `schemaState`. -/
def schemaState (plan : List Migration) : Except Err (List Schema) := do
  let state ← replay (plan.flatMap fun m => m.operations)
  .ok state.schemas

end Gogo.Migrations

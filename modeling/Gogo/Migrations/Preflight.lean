import Gogo.Migrations.Order
import Gogo.Migrations.Plan

/-!
# What is checked before a migration runs

`core/migrations/index_preflight.go`, `constraint_lifecycle.go` and `schema_transition.go`: the
checks that an executor makes of every migration of a plan before it takes the lock, and the schema
editor that it resolves from the historical states on both sides of the migration.

* `EditorApi` — what a schema editor can do; the editors themselves belong to the backends.
* `withHistoricalSchemas` — the editor for one migration.
* `prepare` — the whole check of one migration.
-/

namespace Gogo.Migrations

open Gogo.Lib Gogo.Models

/-- The optional interfaces of a schema editor and the editors they resolve to. The size limits of
`detachTransitionValues` are the editor's as well, since they only bound what it is handed. -/
structure EditorApi (ε : Type) where
  /-- The editor implements `db.ConstraintLifecycleEditor`. -/
  constraintLifecycle : ε → Bool
  /-- The editor implements `db.IndexLifecycleEditor`. -/
  indexLifecycle : ε → Bool
  /-- Source: `transition_values.go` `detachTransitionValues`. -/
  detachTransitionValues : List Schema → Except Err Unit
  /-- `WithSchemaTransition`, for a `db.SchemaTransitionEditor`. -/
  withSchemaTransition : ε → Option (List Schema → List Schema → Except Err ε)
  /-- `WithSchemas`, for a `db.SchemaResolverEditor`. -/
  withSchemas : ε → Option (List Schema → Except Err ε)

variable {ε : Type} (api : EditorApi ε)

/-- One operation of `validateConstraintOperations`. -/
def validateConstraintOperation (editor : ε) (m : Migration) (op : Operation) :
    Except Err Unit :=
  if !op.is .addConstraint && !op.is .removeConstraint then .ok ()
  else do
    failIf op.constraint.isNone
      (.text "migrations: constraint operation requires immutable descriptor")
    failIf (!api.constraintLifecycle editor)
      (.unsupported "Constraint operations require a definition-aware schema editor")
    failIf m.nonAtomic (.unsupported "Constraint lifecycle requires an atomic migration")

/-- Source: `constraint_lifecycle.go` `validateConstraintOperations`. -/
def validateConstraintOperations (editor : ε) (m : Migration) : Except Err Unit :=
  m.operations.forM (validateConstraintOperation api editor m)

/-- One operation of `validateIndexOperations`. -/
def validateIndexOperation (editor : ε) (m : Migration) (reverse : Bool) (op : Operation) :
    Except Err Unit := do
  failIf (op.is .createModel && !reverse && !m.nonAtomic && op.schema.indexes.any Index.concurrent)
    (.unsupported "Concurrent indexes cannot be created inside an atomic model migration")
  let removes := (op.is .removeIndex && !reverse) || (op.is .addIndex && reverse)
  failIf (removes && !api.indexLifecycle editor)
    (.unsupported "Historical index removal requires a definition-aware schema editor")
  failIf (removes && (op.index.concurrent || m.nonAtomic))
    (.unsupported "Index lifecycle removal requires an atomic nonconcurrent migration")
  failIf (op.is .addIndex && !reverse && op.index.concurrent && !m.nonAtomic)
    (.unsupported "Concurrent index creation requires an explicit non-atomic migration")
  failIf (op.is .removeIndex && op.index.concurrent)
    (.unsupported "Concurrent index removal requires an explicit online migration")

/-- Source: `index_preflight.go` `validateIndexOperations`. -/
def validateIndexOperations (editor : ε) (m : Migration) (reverse : Bool) : Except Err Unit := do
  validateConstraintOperations api editor m
  m.operations.forM (validateIndexOperation api editor m reverse)

/-! ## Automatic many-to-many relations -/

/-- A many-to-many field without a model of its own for the links. -/
def automaticRelation (f : Field) : Option Relation :=
  if f.kind = .known .manyToMany then f.relation.filter fun r => r.through = "" else none

/-- The fields that an operation brings into storage. -/
def introducedFields (op : Operation) : List Field :=
  if op.is .createModel && createsModelStorage op.schema then op.schema.fields
  else if op.is .addField then [op.field]
  else []

/-- Source: `schema_transition.go` `validateAutomaticTransitionTargets`. -/
def validateAutomaticTransitionTargets (m : Migration) (before after : List Schema) :
    Except Err Unit :=
  let known := (before ++ after).map fun s => s.key
  failIf
    ((m.operations.flatMap introducedFields).any fun f =>
      (automaticRelation f).any fun r => !known.contains r.target)
    (.unsupported "Automatic relations to transient targets require separate migrations")

/-- A stored automatic relation of the old state that the new state does not have. -/
def removesAutomaticRelation (current : State) (source : Schema) (f : Field) : Bool :=
  match automaticRelation f with
  | none => false
  | some r =>
    match current.get? source.key with
    | none => true
    | some new =>
      match new.field? f.name with
      | none => true
      | some newField =>
        (current.get? r.target).isNone ||
          !((automaticRelation newField).any fun r' => r'.target = r.target)

/-- Source: `schema_transition.go` `removesAutomaticRelations`. -/
def removesAutomaticRelations (before after : List Schema) : Bool :=
  let current : State := FinMap.ofList (after.map fun s => (s.key, s))
  before.any fun source =>
    createsModelStorage source && source.fields.any (removesAutomaticRelation current source)

/-- An operation that drops the links of a relation. -/
def dropsRelation (source : Schema) (f : Field) (r : Relation) (op : Operation) : Bool :=
  (op.is .deleteModel && createsModelStorage op.schema &&
      (op.schema.key == source.key || op.schema.key == r.target)) ||
    (op.is .removeField && op.schema.key == source.key && op.field.name == f.name)

/-- Source: `schema_transition.go` `needsAutomaticTransition`. -/
def needsAutomaticTransition (m : Migration) (before after : List Schema) : Bool :=
  removesAutomaticRelations before after ||
    before.any fun source =>
      createsModelStorage source && source.fields.any fun f =>
        (automaticRelation f).any fun r => m.operations.any (dropsRelation source f r)

/-! ## The editor of one migration -/

/-- Source: `migrations.go` `withHistoricalSchemas`. -/
def withHistoricalSchemas (migrations : List Migration) (editor : ε) (target : String)
    (reverse : Bool) : Except Err ε := do
  let order ← plan migrations target
  let last ← orFail order.getLast?
    (.text "migrations: schema transition requires a migration")
  let after ← schemaState order
  let before ← schemaState order.dropLast
  validateAutomaticTransitionTargets last before after
  api.detachTransitionValues before
  api.detachTransitionValues after
  match api.withSchemaTransition editor with
  | some resolve => if reverse then resolve after before else resolve before after
  | none => do
    failIf (!reverse && needsAutomaticTransition last before after)
      (.unsupported "Automatic relation removal requires a historical schema transition editor")
    match api.withSchemas editor with
    | some resolve => resolve after
    | none => .ok editor

/-- The check of one migration before the lock is taken. Source: the first loop of `Apply`, and
the part of the loop of `Reverse` for an applied migration. -/
def prepare (migrations : List Migration) (editor : ε) (m : Migration) (reverse : Bool) :
    Except Err Unit := do
  validateIndexOperations api editor m reverse
  let resolved ← withHistoricalSchemas api migrations editor m.key reverse
  validateIndexOperations api resolved m reverse

end Gogo.Migrations

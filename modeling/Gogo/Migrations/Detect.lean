import Gogo.Migrations.Order

/-!
# The autodetector

`Detect` of `core/migrations/planning.go` with `detectFieldRenames` of `rename_state.go`,
`detectIndexes` of `index_lifecycle.go` and `detectConstraints` of `constraint_lifecycle.go`.

* `detectFieldRenames` — the declared renames, in sorted order, on the whole old state.
* `detectModel` — the difference of one model that both sides have. The snapshot `previous`
  moves with the operations that are emitted.
* `detectOperations` — renames, then the models of the new state in sorted order, then the
  removed models; the last component is the old state after the renames.
* `detect` — the same operations in dependency order.
-/

namespace Gogo.Migrations

open Gogo.Lib Gogo.Models

/-- A set of texts as a test. -/
abbrev NameSet := List String

/-- Source: `planning.go` `DetectOptions`. -/
structure DetectOptions where
  allowRemoveModels : NameSet := []
  allowRemoveFields : NameSet := []
  renames : FinMap String String := FinMap.empty

/-! ## Comparison -/

/-- A field without the members that the comparison ignores. -/
def comparedField (f : Field) : Field :=
  { f with validators := .nil, defaultFunc := none, codec := .nil }

/-- Source: `planning.go` `fieldEquivalent`. -/
def fieldEquivalent (a b : Field) : Bool := (comparedField a).deepEqual (comparedField b)

/-- Source: `index_lifecycle.go` `supportedModelStateChange`. -/
def supportedModelStateChange (before after : Schema) : Except Err Unit :=
  failIf (before.toSchemaOptions != after.toSchemaOptions)
    (.unsupported "Model option changes require explicit state-aware model operations")

/-! ## Renames -/

/-- The text before and after the last dot. Source: `strings.LastIndexByte`. -/
def splitReference (reference : String) : Option (String × String) :=
  let tail := reference.toList.reverse.takeWhile (· ≠ '.')
  match reference.toList.reverse.dropWhile (· ≠ '.') with
  | [] => none
  | _ :: rest => some (String.ofList rest.reverse, String.ofList tail.reverse)

/-- One declared rename. -/
def detectFieldRename (after : State) (renames : FinMap String String) (old : State)
    (reference : String) : Except Err (Operation × State) := do
  let (key, name) ← orFail (splitReference reference)
    (.text "migrations: field rename requires a model-qualified source")
  let new := (renames.get? reference).getD ""
  match old.get? key, after.get? key with
  | some schema, some next => do
    failIf (next.field? new).isNone (.text "migrations: renamed field is missing from target state")
    let renamed ← renameFieldState schema name new
    .ok (renameField schema name new, followRename key name new (old.set key renamed))
  | _, _ => .error (.text "migrations: field rename requires an existing retained model")

/-- The declared renames one after the other, with the old state after them. -/
def detectRenamesIn (after : State) (renames : FinMap String String) :
    List String → State → Except Err (List Operation × State)
  | [], old => .ok ([], old)
  | reference :: rest, old => do
    let (op, old') ← detectFieldRename after renames old reference
    let (ops, old'') ← detectRenamesIn after renames rest old'
    .ok (op :: ops, old'')

/-- Source: `rename_state.go` `detectFieldRenames`. -/
def detectFieldRenames (old after : State) (renames : FinMap String String) :
    Except Err (List Operation × State) :=
  detectRenamesIn after renames (sortStrings renames.keys) old

/-! ## Indexes and constraints -/

/-- The operations of one difference: removals, additions and a reordering. -/
structure Changes where
  remove : List Operation
  add : List Operation
  order : List Operation

/-- The difference of one part of a schema. The descriptors that are kept stand in front, in
their old order, when the reordering is decided. -/
def partChanges {α : Type} [DecidableEq α] (part : Part α) (remove add : Schema → α → Operation)
    (reorder : Schema → List String → List String → Operation) (before after : Schema) : Changes :=
  let added := Named.added part.name (part.get before) (part.get after)
  let current :=
    (Named.kept part.name (part.get before) (part.get after) ++ added).map part.name
  let desired := (part.get after).map part.name
  { remove := (Named.removed part.name (part.get before) (part.get after)).map (remove before)
    add := added.map (add after)
    order := if current = desired then [] else [reorder after current desired] }

/-- A concurrent index, or one that takes the place of a concurrent index. -/
def concurrentChange (others : List Index) (index : Index) : Bool :=
  index.concurrent || (((Named.index Index.name others).get? index.name).getD {}).concurrent

/-- Source: `index_lifecycle.go` `detectIndexes`. -/
def detectIndexes (before after : Schema) : Except Err Changes := do
  failIf (!before.indexNames.Nodup)
    (.text "migrations: historical index names are ambiguous")
  failIf ((Named.removed Index.name before.indexes after.indexes).any
        (concurrentChange after.indexes) ||
      (Named.added Index.name before.indexes after.indexes).any
        (concurrentChange before.indexes))
    (.unsupported "Concurrent index changes require an explicit online migration")
  .ok (partChanges indexPart removeIndex addIndex reorderIndexes before after)

/-- Source: `constraint_lifecycle.go` `detectConstraints`. -/
def detectConstraints (before after : Schema) : Except Err Changes := do
  failIf (!before.constraintNames.Nodup)
    (.text "migrations: historical constraint names are ambiguous")
  .ok (partChanges constraintPart removeConstraint addConstraint reorderConstraints before after)

/-! ## Fields -/

/-- The loop over the new fields; `oldFields` holds the old fields not met so far. -/
def detectFields (key : String) : List Field → Schema → FinMap String Field →
    Except Err (List Operation × Schema × FinMap String Field)
  | [], previous, oldFields => .ok ([], previous, oldFields)
  | f :: rest, previous, oldFields =>
    match oldFields.get? f.name with
    | none => do
      failIf (!f.null && !f.hasDefault && !f.isAuto)
        (.text ("migrations: nonnullable added field " ++ key ++ "." ++ f.name ++
          " requires default or staged backfill"))
      let (ops, result) ← detectFields key rest (fieldStateAfter previous f.name f) oldFields
      .ok (addField previous f :: ops, result)
    | some oldField =>
      if fieldEquivalent oldField f then
        detectFields key rest previous (oldFields.erase f.name)
      else do
        let (ops, result) ← detectFields key rest (fieldStateAfter previous oldField.name f)
          (oldFields.erase f.name)
        .ok (alterField previous oldField f :: ops, result)

/-- The loop over the removed field names. -/
def detectRemovedFields (key : String) (options : DetectOptions)
    (oldFields : FinMap String Field) :
    List String → Schema → Except Err (List Operation)
  | [], _ => .ok []
  | name :: rest, previous => do
    failIf (!options.allowRemoveFields.contains (key ++ "." ++ name))
      (.text ("migrations: removing " ++ key ++ "." ++ name ++ " requires explicit intent"))
    let ops ← detectRemovedFields key options oldFields rest
      { previous with fields := previous.fields.filter fun f => f.name ≠ name }
    .ok (removeField previous ((oldFields.get? name).getD {}) :: ops)

/-! ## Models -/

/-- The fields of a schema by name. -/
def fieldsByName (s : Schema) : FinMap String Field :=
  FinMap.ofList (s.fields.map fun f => (f.name, f))

/-- The difference of one model that both states have.
Source: `planning.go` `Detect`, the loop body after the model is found in both. -/
def detectModel (key : String) (options : DetectOptions) (previous schema : Schema) :
    Except Err (List Operation) := do
  supportedModelStateChange previous schema
  let indexes ← detectIndexes previous schema
  let constraints ← detectConstraints previous schema
  let previous ← run applyIndexState previous indexes.remove
  let previous ← run applyConstraintState previous constraints.remove
  let (changed, previous, oldFields) ←
    detectFields key schema.fields previous (fieldsByName previous)
  let removed ← detectRemovedFields key options oldFields (sortStrings oldFields.keys) previous
  .ok (indexes.remove ++ constraints.remove ++ changed ++ removed ++ indexes.add ++
    constraints.add ++ indexes.order ++ constraints.order)

/-- One model of the new state. -/
def detectModelAt (options : DetectOptions) (old after : State) (key : String) :
    Except Err (List Operation) :=
  match after.get? key with
  | none => .ok []
  | some schema =>
    match old.get? key with
    | none => .ok [createModel schema]
    | some previous => detectModel key options previous schema

/-- One model that the new state does not have. -/
def detectRemovedModel (options : DetectOptions) (old : State) (key : String) :
    Except Err (List Operation) := do
  failIf (!options.allowRemoveModels.contains key)
    (.text ("migrations: removing " ++ key ++ " requires explicit intent"))
  .ok [deleteModel ((old.get? key).getD {})]

/-- A list of schemas by key. -/
def stateOf (schemas : List Schema) : State := FinMap.ofList (schemas.map fun s => (s.key, s))

/-- The operations of `Detect` before they are ordered, and the old state after the renames. -/
def detectOperations (before after : List Schema) (options : DetectOptions) :
    Except Err (List Operation × State) := do
  after.forM fun s => s.validate
  let new := stateOf after
  let (renamed, old) ← detectFieldRenames (stateOf before) new options.renames
  let changed ← (sortStrings new.keys).mapM (detectModelAt options old new)
  let removed ← (sortStrings (old.keys.filter fun key => (new.get? key).isNone)).mapM
    (detectRemovedModel options old)
  .ok (renamed ++ changed.flatten ++ removed.flatten, old)

/-- Source: `planning.go` `Detect`. -/
def detect (before after : List Schema) (options : DetectOptions) :
    Except Err (List Operation) := do
  let (operations, historical) ← detectOperations before after options
  orderDetectedOperations operations historical (stateOf after)

lemma topological_of_detect {before after : List Schema} {options : DetectOptions}
    {ops : List Operation} (h : detect before after options = .ok ops) :
    ∃ detected old edges order, detectOperations before after options = .ok (detected, old) ∧
      dependencyEdges detected old (stateOf after) = .ok edges ∧
      IsTopological detected.length edges order ∧ order.map (opAt detected) = ops := by
  obtain ⟨⟨detected, old⟩, hdetected, h⟩ := bind_eq_ok.mp h
  obtain ⟨edges, order, horder⟩ := topological_of_order h
  exact ⟨detected, old, edges, order, hdetected, horder⟩

end Gogo.Migrations

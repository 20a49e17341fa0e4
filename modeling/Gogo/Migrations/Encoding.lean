import Gogo.Migrations.Operation
import Gogo.Models.Encoding

/-!
# Generated migrations

A generated migration is Go source that decodes a JSON text: `Generate` writes `json.Marshal` of
the migration and `MustDecode` reads it back when the program starts.

* `Migration.reread` — what comes back; `Migration.unmarshal_marshal` — **the trip through JSON is
  `reread`.**
* `generate`, `mustDecode` — with the checks both make before they write or return: a migration
  with callbacks is refused, and so is one without a checksum.
-/

namespace Gogo.Migrations

open Gogo.Lib Gogo.Models

/-! ## Operations -/

/-- A list that is left out when it is empty: the tag `json:",omitempty"`. -/
def omitEmpty (l : List String) : Option Json := if l = [] then none else some (marshalStrings l)

/-- Source: `json.Marshal` of an `Operation`. -/
def Operation.marshal (op : Operation) : Option Json := do
  let schema ← op.schema.marshal
  let field ← op.field.marshal
  let oldField ← op.oldField.marshal
  let args ← marshalItems Value.marshal op.args
  let reverseArgs ← marshalItems Value.marshal op.reverseArgs
  some (.obj
    (Json.optionalMember "IndexOrder" (omitEmpty op.indexOrder) <|
      Json.optionalMember "OldIndexOrder" (omitEmpty op.oldIndexOrder) <|
      Json.optionalMember "Constraint" (op.constraint.map Constraint.marshal) <|
      Json.optionalMember "ConstraintOrder" (omitEmpty op.constraintOrder) <|
      Json.optionalMember "OldConstraintOrder" (omitEmpty op.oldConstraintOrder)
      [("Kind", .str op.kind.text), ("Schema", schema), ("Field", field), ("OldField", oldField),
        ("Index", op.index.marshal), ("Name", .str op.name), ("OldName", .str op.oldName),
        ("SQL", .str op.sql), ("ReverseSQL", .str op.reverseSQL), ("Args", args),
        ("ReverseArgs", reverseArgs), ("CodeID", .str op.codeID)]))

/-- Read an operation kind. -/
def OperationKind.read (j : Json) : Option OperationKind := j.toString?.map OperationKind.ofText

/-- Source: `json.Unmarshal` into an `Operation`. -/
def Operation.unmarshal (j : Json) : Option Operation := do
  let kind ← j.read "Kind" default OperationKind.read
  let schema ← j.read "Schema" {} Schema.unmarshal
  let field ← j.read "Field" {} Field.unmarshal
  let oldField ← j.read "OldField" {} Field.unmarshal
  let index ← j.read "Index" {} Index.unmarshal
  let indexOrder ← j.read "IndexOrder" [] (Json.toList? Json.toString?)
  let oldIndexOrder ← j.read "OldIndexOrder" [] (Json.toList? Json.toString?)
  let constraint ← j.read "Constraint" none (Json.toPointer? Constraint.unmarshal)
  let constraintOrder ← j.read "ConstraintOrder" [] (Json.toList? Json.toString?)
  let oldConstraintOrder ← j.read "OldConstraintOrder" [] (Json.toList? Json.toString?)
  let name ← j.read "Name" "" Json.toString?
  let oldName ← j.read "OldName" "" Json.toString?
  let sql ← j.read "SQL" "" Json.toString?
  let reverseSQL ← j.read "ReverseSQL" "" Json.toString?
  let args ← j.read "Args" [] (Json.toList? Value.read)
  let reverseArgs ← j.read "ReverseArgs" [] (Json.toList? Value.read)
  let codeID ← j.read "CodeID" "" Json.toString?
  some
    { kind, schema, field, oldField, index, indexOrder, oldIndexOrder, constraint,
      constraintOrder, oldConstraintOrder, name, oldName, sql, reverseSQL, args, reverseArgs,
      codeID }

/-- What an operation comes back as. -/
def Operation.reread (op : Operation) : Operation :=
  { op with
    schema := op.schema.reread
    field := op.field.reread
    oldField := op.oldField.reread
    args := op.args.map Value.reread
    reverseArgs := op.reverseArgs.map Value.reread
    forward := none
    backward := none }

lemma toPointer_constraint (c : Constraint) :
    Json.toPointer? Constraint.unmarshal c.marshal = some (some c) := by
  show (Constraint.unmarshal c.marshal).map some = _
  rw [c.unmarshal_marshal]
  rfl

variable {op : Operation} {j : Json} {m : Migration}

/-- **An operation comes back as `reread`.** -/
theorem Operation.unmarshal_marshal (h : op.marshal = some j) :
    Operation.unmarshal j = some op.reread := by
  unfold Operation.marshal at h
  obtain ⟨schema, hschema, h⟩ := Option.bind_eq_some_iff.mp h
  obtain ⟨field, hfield, h⟩ := Option.bind_eq_some_iff.mp h
  obtain ⟨oldField, holdField, h⟩ := Option.bind_eq_some_iff.mp h
  obtain ⟨args, hargs, h⟩ := Option.bind_eq_some_iff.mp h
  obtain ⟨reverseArgs, hreverse, h⟩ := Option.bind_eq_some_iff.mp h
  cases h
  clear h
  have homit : ∀ l, (omitEmpty l).elim (some []) (Json.toList? Json.toString?) = some l := by
    intro l
    unfold omitEmpty
    split_ifs with hnil
    · rw [hnil]
      rfl
    · exact toList_marshalStrings l
  have hconstraint : (op.constraint.map Constraint.marshal).elim (some none)
      (Json.toPointer? Constraint.unmarshal) = some op.constraint := by
    rcases op.constraint with _ | c
    · rfl
    · exact toPointer_constraint c
  unfold Operation.unmarshal
  -- the members that are always there lie behind the optional ones
  simp only [Json.read_optionalMember_of_ne, ne_eq, String.reduceEq, not_false_eq_true]
  simp only [Json.read_optionalMember_self, Json.lookupLast_optionalMember, Json.lookupLast,
    String.reduceEq, if_false, Option.or_none, homit, hconstraint]
  show ((Schema.unmarshal schema).bind fun schema => (Field.unmarshal field).bind fun field =>
    (Field.unmarshal oldField).bind fun oldField => (Index.unmarshal op.index.marshal).bind
    fun index => (Json.toList? Value.read args).bind fun args =>
    (Json.toList? Value.read reverseArgs).bind fun reverseArgs =>
    some { op.reread with
      kind := .ofText op.kind.text, schema, field, oldField, index, args, reverseArgs }) = _
  have hvalues : ∀ {l : List Value} {j : Json}, marshalItems Value.marshal l = some j →
      Json.toList? Value.read j = some (l.map Value.reread) :=
    toList_marshalItems fun _ _ => Value.read_marshal
  rw [Schema.unmarshal_marshal hschema, Field.unmarshal_marshal hfield,
    Field.unmarshal_marshal holdField, Index.unmarshal_marshal, hvalues hargs, hvalues hreverse,
    OperationKind.ofText_text]
  rfl

/-! ## Migrations -/

/-- Source: `json.Marshal` of a `Migration`. -/
def Migration.marshal (m : Migration) : Option Json := do
  let operations ← marshalItems Operation.marshal m.operations
  some (.obj [("App", .str m.app), ("Name", .str m.name),
    ("Dependencies", marshalStrings m.dependencies), ("Operations", operations),
    ("NonAtomic", .bool m.nonAtomic), ("Replaces", marshalStrings m.replaces)])

/-- Source: `json.Unmarshal` into a `Migration`. -/
def Migration.unmarshal (j : Json) : Option Migration := do
  let app ← j.read "App" "" Json.toString?
  let name ← j.read "Name" "" Json.toString?
  let dependencies ← j.read "Dependencies" [] (Json.toList? Json.toString?)
  let operations ← j.read "Operations" [] (Json.toList? Operation.unmarshal)
  let nonAtomic ← j.read "NonAtomic" false Json.toBool?
  let replaces ← j.read "Replaces" [] (Json.toList? Json.toString?)
  some { app, name, dependencies, operations, nonAtomic, replaces }

/-- What a migration comes back as. -/
def Migration.reread (m : Migration) : Migration :=
  { m with operations := m.operations.map Operation.reread }

/-- **A migration comes back as `reread`.** -/
theorem Migration.unmarshal_marshal (h : m.marshal = some j) :
    Migration.unmarshal j = some m.reread := by
  unfold Migration.marshal at h
  obtain ⟨operations, hoperations, h⟩ := Option.bind_eq_some_iff.mp h
  cases h
  show ((Json.toList? Json.toString? (marshalStrings m.dependencies)).bind fun dependencies =>
    (Json.toList? Operation.unmarshal operations).bind fun operations =>
    (Json.toList? Json.toString? (marshalStrings m.replaces)).bind fun replaces =>
    some { m with dependencies, operations, replaces }) = _
  rw [toList_marshalStrings, toList_marshalItems (fun _ _ => Operation.unmarshal_marshal)
    hoperations, toList_marshalStrings]
  rfl

/-- The error of `Migration.Checksum`, if it has one: a data operation without an identifier or
a forward callback, or a value that cannot be encoded. -/
def Migration.checksumError (m : Migration) : Option Err :=
  if m.operations.any fun op => op.is .data && (op.codeID == "" || op.forward.isNone) then
    some (.text "migrations: data operation requires stable CodeID and forward callback")
  else if m.marshal.isNone then
    some (.text "json: unsupported value")
  else none

/-- The pattern of a migration name: `^[A-Za-z0-9_]{1,128}$`. -/
def migrationName (name : String) : Bool :=
  name.toList.all isIdentifierPart && 1 ≤ name.length && name.length ≤ 128

/-- The text that a migration is generated as, where the file system lets it be written.
Source: `generate.go` `Generate`. -/
def generate (m : Migration) : Except Err Json := do
  failIf (m.operations.any fun op => op.forward.isSome || op.backward.isSome)
    (.text "migrations: write callback migrations as explicit Go source")
  failIf (!migrationName m.name) (.text "migrations: invalid migration filename")
  match m.checksumError with
  | some err => .error err
  | none => match m.marshal with
      | some j => .ok j
      | none => .error (.text "json: unsupported value")

/-- The migration that a generated text stands for; `none` where the source panics.
Source: `generate.go` `MustDecode`. -/
def mustDecode (j : Json) : Option Migration := do
  let m ← Migration.unmarshal j
  if m.checksumError.isSome then none else some m

lemma generate_eq_ok (hj : generate m = .ok j) :
    migrationName m.name = true ∧ m.marshal = some j := by
  unfold generate at hj
  obtain ⟨-, -, hj⟩ := bind_eq_ok.mp hj
  obtain ⟨_, hname, hj⟩ := bind_eq_ok.mp hj
  refine ⟨by simpa using failIf_eq_ok.mp hname, ?_⟩
  rcases hchecksum : m.checksumError with _ | err
  · rcases hm : m.marshal with _ | j'
    · rw [hchecksum, hm] at hj
      cases hj
    · rw [hchecksum, hm] at hj
      exact congrArg some (Except.ok.inj hj)
  · rw [hchecksum] at hj
    cases hj

lemma mustDecode_of_marshal (h : m.marshal = some j) :
    mustDecode j = if m.reread.checksumError.isSome then none else some m.reread := by
  unfold mustDecode
  rw [Migration.unmarshal_marshal h]
  rfl

/-- A migration is generated and decoded where neither of the two refuses. -/
lemma exists_decoded (hok : (generate m).isOk = true)
    (hdecode : m.reread.checksumError.isSome = false) :
    ∃ j, generate m = .ok j ∧ mustDecode j = some m.reread := by
  rcases hj : generate m with e | j
  · rw [hj] at hok
    cases hok
  · refine ⟨j, rfl, ?_⟩
    rw [mustDecode_of_marshal (generate_eq_ok hj).2, hdecode]
    rfl

/-- **A generated migration is decoded as `reread`.** -/
theorem mustDecode_generate {m' : Migration} (hj : generate m = .ok j)
    (h : mustDecode j = some m') :
    m' = m.reread ∧ m.marshal = some j ∧ m'.checksumError = none := by
  have hmarshal := (generate_eq_ok hj).2
  rw [mustDecode_of_marshal hmarshal] at h
  split_ifs at h with hsome
  cases h
  exact ⟨rfl, hmarshal, by simpa using hsome⟩

end Gogo.Migrations

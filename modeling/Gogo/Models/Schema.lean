import Gogo.Models.Value
import Gogo.Lib.FinMap

/-!
# Schemas

The descriptor types of `core/models/schema.go` and the two operations every migration step
rests on: `Schema.Validate` and `Schema.Clone`.

* `Slice` — a slice that may be nil. `reflect.DeepEqual` tells a nil slice from an allocated
  empty one, and `Clone` turns the second into the first, so the descriptors that are compared
  with `reflect.DeepEqual` keep the difference. Slices that are only ever compared elementwise
  or after a `Clone` are lists.
* `FieldOptions`, `FieldAttrs`, `Field` — one descriptor in three layers: what is compared by
  plain equality, the members of type `any` and the callbacks, and the chain of `Element`
  descriptors, outermost first.
* `Schema.validate` — with every error text; `Schema.clone` — what isolates a snapshot.
-/

namespace Gogo.Models

open Gogo.Lib

/-! ## Slices -/

/-- A slice: nil, or allocated with some elements. -/
inductive Slice (α : Type)
  | nil
  | of (elems : List α)
deriving DecidableEq

namespace Slice

variable {α : Type}

def toList : Slice α → List α
  | .nil => []
  | .of elems => elems

/-- Source: `append([]T(nil), s...)`, which is nil when there is nothing to append. -/
def clone (s : Slice α) : Slice α :=
  match s.toList with
  | [] => .nil
  | a :: l => .of (a :: l)

/-- Rewrite the elements in place. -/
def map (f : α → α) : Slice α → Slice α
  | .nil => .nil
  | .of elems => .of (elems.map f)

@[simp] lemma toList_clone (s : Slice α) : s.clone.toList = s.toList := by
  unfold clone
  cases h : s.toList <;> rfl

@[simp] lemma clone_clone (s : Slice α) : s.clone.clone = s.clone := by
  rw [clone, toList_clone]
  rfl

lemma clone_map (f : α → α) (s : Slice α) : (s.map f).clone = s.clone.map f := by
  cases s with
  | nil => rfl
  | of elems => cases elems <;> rfl

end Slice

/-! ## Kinds and policies -/

/-- Source: `schema.go` `Kind`, the constants. -/
inductive KnownKind
  | smallInteger | integer | bigInteger | positiveSmallInteger | positiveInteger
  | positiveBigInteger | smallAuto | auto | bigAuto | uuid | decimal | float | boolean | char
  | text | slug | email | url | genericIPAddress | filePath | date | dateTime | time | duration
  | binary | json | file | image | foreignKey | oneToOne | manyToMany | generated | array
  | hstore | range | searchVector | geometry | geography | raster | custom
deriving DecidableEq

/-- The text of a kind constant. -/
def KnownKind.tag : KnownKind → String
  | .smallInteger => "small_integer"
  | .integer => "integer"
  | .bigInteger => "big_integer"
  | .positiveSmallInteger => "positive_small_integer"
  | .positiveInteger => "positive_integer"
  | .positiveBigInteger => "positive_big_integer"
  | .smallAuto => "small_auto"
  | .auto => "auto"
  | .bigAuto => "big_auto"
  | .uuid => "uuid"
  | .decimal => "decimal"
  | .float => "float"
  | .boolean => "boolean"
  | .char => "char"
  | .text => "text"
  | .slug => "slug"
  | .email => "email"
  | .url => "url"
  | .genericIPAddress => "ip_address"
  | .filePath => "file_path"
  | .date => "date"
  | .dateTime => "datetime"
  | .time => "time"
  | .duration => "duration"
  | .binary => "binary"
  | .json => "json"
  | .file => "file"
  | .image => "image"
  | .foreignKey => "foreign_key"
  | .oneToOne => "one_to_one"
  | .manyToMany => "many_to_many"
  | .generated => "generated"
  | .array => "array"
  | .hstore => "hstore"
  | .range => "range"
  | .searchVector => "search_vector"
  | .geometry => "geometry"
  | .geography => "geography"
  | .raster => "raster"
  | .custom => "custom"

/-- All kind constants. -/
def KnownKind.all : List KnownKind :=
  [.smallInteger, .integer, .bigInteger, .positiveSmallInteger, .positiveInteger,
    .positiveBigInteger, .smallAuto, .auto, .bigAuto, .uuid, .decimal, .float, .boolean, .char,
    .text, .slug, .email, .url, .genericIPAddress, .filePath, .date, .dateTime, .time, .duration,
    .binary, .json, .file, .image, .foreignKey, .oneToOne, .manyToMany, .generated, .array,
    .hstore, .range, .searchVector, .geometry, .geography, .raster, .custom]

/-- The constant with a given text. -/
def KnownKind.ofText? (text : String) : Option KnownKind :=
  KnownKind.all.find? fun k => k.tag = text

lemma KnownKind.ofText?_tag (k : KnownKind) : KnownKind.ofText? k.tag = some k := by
  cases k <;> decide

/-- Source: `schema.go` `Kind`: a text, one of the constants or any other. A text that is a
constant can only be written as the constant. -/
inductive Kind
  | known (k : KnownKind)
  | unknown (text : String) (h : KnownKind.ofText? text = none)
deriving DecidableEq

def Kind.text : Kind → String
  | .known k => k.tag
  | .unknown text _ => text

/-- The kind with a given text. -/
def Kind.ofText (text : String) : Kind :=
  match h : KnownKind.ofText? text with
  | some k => .known k
  | none => .unknown text h

lemma Kind.ofText_text (k : Kind) : Kind.ofText k.text = k := by
  unfold Kind.ofText
  cases k with
  | known k =>
    have hk : KnownKind.ofText? (Kind.known k).text = some k := k.ofText?_tag
    split
    · next k' h => rw [hk, Option.some.injEq] at h; rw [h]
    · next h => rw [hk] at h; cases h
  | unknown text hu =>
    have hu' : KnownKind.ofText? (Kind.unknown text hu).text = none := hu
    split
    · next k' h => rw [hu'] at h; cases h
    · rfl

instance : Inhabited Kind := ⟨Kind.ofText ""⟩

/-- Source: `schema.go` `knownKind`. -/
def knownKind : Kind → Bool
  | .known _ => true
  | .unknown _ _ => false

/-- Source: `schema.go` `DeletePolicy`: a text, compared with the constant `SetNull` only. -/
structure DeletePolicy where
  /-- The text of the policy; empty when it is not set. -/
  text : String := ""
deriving DecidableEq

/-- Source: `schema.go` `SetNull`. -/
def DeletePolicy.setNull : DeletePolicy := ⟨"SET_NULL"⟩

/-! ## Descriptors -/

/-- Source: `schema.go` `Relation`. -/
structure Relation where
  target : String := ""
  targetFields : Slice String := .nil
  relatedName : String := ""
  relatedQueryName : String := ""
  onDelete : DeletePolicy := {}
  through : String := ""
  throughFields : Slice String := .nil
  symmetrical : Option Bool := none
  noConstraint : Bool := false
deriving DecidableEq

/-- Source: `schema.go` `Choice`. -/
structure Choice where
  value : Value := .nil
  label : String := ""

/-- A function value, by its identity. -/
structure Callback where
  ident : Nat
deriving DecidableEq

/-- The members of a field descriptor that are compared by plain equality.
Source: `schema.go` `Field`. -/
structure FieldOptions where
  name : String := ""
  structField : String := ""
  column : String := ""
  kind : Kind := default
  null : Bool := false
  blank : Bool := false
  editable : Bool := false
  primaryKey : Bool := false
  unique : Bool := false
  dbIndex : Bool := false
  autoNow : Bool := false
  autoNowAdd : Bool := false
  allowUnicode : Bool := false
  label : String := ""
  helpText : String := ""
  comment : String := ""
  collation : String := ""
  tablespace : String := ""
  maxLength : Int := 0
  minLength : Int := 0
  maxDigits : Int := 0
  decimalPlaces : Int := 0
  defaultID : String := ""
  dbDefault : String := ""
  generatedExpression : String := ""
  relation : Option Relation := none
  rangeType : Kind := default
  uniqueForDate : String := ""
  uniqueForMonth : String := ""
  uniqueForYear : String := ""
deriving DecidableEq

/-- A field descriptor without its `Element`: the members of type `any` and the callbacks on
top of the plain ones. Source: `schema.go` `Field`. -/
structure FieldAttrs extends FieldOptions where
  min : Value := .nil
  max : Value := .nil
  choices : Slice Choice := .nil
  default : Value := .nil
  defaultFunc : Option Callback := none
  validators : Slice (Option Callback) := .nil
  /-- The `Codec` interface value; `Value.nil` when there is none. -/
  codec : Value := .nil

/-- A field descriptor. `elements` is the chain of `Element` pointers: the element descriptor,
its own element descriptor, and so on until one has none. Source: `schema.go` `Field`. -/
structure Field extends FieldAttrs where
  elements : List FieldAttrs := []

/-- Source: `schema.go` `Index`. -/
structure Index where
  name : String := ""
  fields : List String := []
  unique : Bool := false
  method : String := ""
  condition : String := ""
  includeFields : List String := []
  concurrent : Bool := false
  nullsDistinct : Option Bool := none
deriving DecidableEq

/-- Source: `schema.go` `Constraint`. -/
structure Constraint where
  name : String := ""
  kind : String := ""
  fields : List String := []
  expression : String := ""
  condition : String := ""
  deferrable : Bool := false
  nullsDistinct : Option Bool := none
deriving DecidableEq

/-- The members of a schema other than its fields, indexes and constraints.
Source: `schema.go` `Schema`. -/
structure SchemaOptions where
  appLabel : String := ""
  name : String := ""
  table : String := ""
  primaryKey : List String := []
  ordering : List String := []
  abstract : Bool := false
  proxy : Bool := false
  unmanaged : Bool := false
  parent : String := ""
  parentLink : String := ""
  concrete : String := ""
  autoCreatedBy : String := ""
  autoCreatedField : String := ""
  label : String := ""
  labelPlural : String := ""
  comment : String := ""
  tablespace : String := ""
  requiredCapabilities : List String := []
deriving DecidableEq

/-- Source: `schema.go` `Schema`. -/
structure Schema extends SchemaOptions where
  fields : List Field := []
  indexes : List Index := []
  constraints : List Constraint := []

instance : Inhabited Field := ⟨{}⟩
instance : Inhabited Schema := ⟨{}⟩

/-! ## Reading descriptors -/

/-- Source: `schema.go` `Field.DBColumn`. -/
def FieldOptions.dbColumn (f : FieldOptions) : String := if f.column ≠ "" then f.column else f.name

/-- Source: `schema.go` `Field.IsAuto`. -/
def FieldOptions.isAuto (f : FieldOptions) : Bool :=
  f.kind == .known .auto || f.kind == .known .bigAuto || f.kind == .known .smallAuto

/-- The nil interface. -/
def Value.isNil : Value → Bool
  | .nil => true
  | _ => false

/-- Source: `schema.go` `Field.HasDefault`. -/
def FieldAttrs.hasDefault (f : FieldAttrs) : Bool :=
  !f.default.isNil || f.defaultFunc.isSome || f.dbDefault != ""

/-- Source: `schema.go` `Schema.Key`. -/
def SchemaOptions.key (s : SchemaOptions) : String := s.appLabel ++ "." ++ s.name

/-- The lower case of a character, as far as it is an ASCII character: outside ASCII, only the
dotted capital I and the Kelvin sign have one. -/
def lowerChar (c : Char) : Char :=
  if c = '\u0130' then 'i' else if c = '\u212a' then 'k' else c.toLower

/-- Source: `strings.ToLower`, as far as its results are ASCII. -/
def toLower (s : String) : String := String.ofList (s.toList.map lowerChar)

/-- Source: `schema.go` `Schema.DBTable`. -/
def SchemaOptions.dbTable (s : SchemaOptions) : String :=
  if s.table ≠ "" then s.table else toLower (s.appLabel ++ "_" ++ s.name)

/-- Source: `schema.go` `Schema.Field`. -/
def Schema.field? (s : Schema) (name : String) : Option Field :=
  s.fields.find? fun f => f.name = name

/-- Source: `schema.go` `Schema.PKFields`. -/
def Schema.pkFields (s : Schema) : List Field :=
  if s.primaryKey ≠ [] then s.primaryKey.filterMap s.field?
  else s.fields.filter fun f => f.primaryKey

/-! ## Validation -/

/-- A letter or an underscore. -/
def isIdentifierStart (c : Char) : Bool :=
  ('a' ≤ c && c ≤ 'z') || ('A' ≤ c && c ≤ 'Z') || c == '_'

/-- A letter, a digit or an underscore. -/
def isIdentifierPart (c : Char) : Bool := isIdentifierStart c || ('0' ≤ c && c ≤ '9')

/-- Source: `schema.go` `ValidIdentifier`: the pattern `^[A-Za-z_][A-Za-z0-9_]*$`. -/
def validIdentifier (value : String) : Bool :=
  match value.toList with
  | [] => false
  | c :: rest => isIdentifierStart c && rest.all isIdentifierPart

/-- An error of the migration packages: a plain error with its text, or a `db.Error` with the
code `UnsupportedFeature`. -/
inductive Err
  | text (message : String)
  | unsupported (message : String)
deriving DecidableEq

/-- One character of a quoted text. -/
def quoteChar (c : Char) : List Char :=
  let hex (n : Nat) : Char := (Nat.toDigits 16 n).headD '0'
  match c with
  | '"' => ['\\', '"']
  | '\\' => ['\\', '\\']
  | '\n' => ['\\', 'n']
  | '\r' => ['\\', 'r']
  | '\t' => ['\\', 't']
  | c =>
    if c.toNat = 7 then ['\\', 'a']
    else if c.toNat = 8 then ['\\', 'b']
    else if c.toNat = 11 then ['\\', 'v']
    else if c.toNat = 12 then ['\\', 'f']
    else if c.toNat < 32 || c.toNat = 127 then
      ['\\', 'x', hex (c.toNat / 16), hex (c.toNat % 16)]
    else [c]

/-- Source: the verb `%q` of `fmt`, on printable text and control characters. -/
def quote (s : String) : String := "\"" ++ String.ofList (s.toList.flatMap quoteChar) ++ "\""

def isRelationKind (k : Kind) : Bool :=
  k == .known .foreignKey || k == .known .oneToOne || k == .known .manyToMany

/-- The statement `if bad { return err }` of a function that returns an error only. -/
def failIf (bad : Bool) (err : Err) : Except Err Unit := if bad then .error err else .ok ()

/-- The checks on one field of `Schema.Validate`, after those on its name and column. -/
def Field.validate (f : Field) : Except Err Unit := do
  failIf (!knownKind f.kind) (.text ("models: unknown field kind " ++ quote f.kind.text))
  failIf (f.maxLength < 0 || f.minLength < 0 || (f.maxLength > 0 && f.minLength > f.maxLength))
    (.text ("models: invalid length bounds for " ++ f.name))
  failIf (f.kind == .known .decimal &&
      (f.maxDigits < 1 || f.decimalPlaces < 0 || f.decimalPlaces > f.maxDigits))
    (.text ("models: invalid decimal precision for " ++ f.name))
  failIf (f.defaultFunc.isSome && f.defaultID == "")
    (.text ("models: callable default for " ++ f.name ++ " needs stable DefaultID"))
  failIf (isRelationKind f.kind && f.relation.isNone)
    (.text ("models: relation " ++ f.name ++ " needs target metadata"))
  failIf (f.relation.any (fun r => r.onDelete == .setNull) && !f.null)
    (.text ("models: SET_NULL requires nullable " ++ f.name))
  failIf (f.kind == .known .array && f.elements.isEmpty)
    (.text ("models: array " ++ f.name ++ " needs element field"))

/-- The field loop of `Schema.Validate`; `seen` and `columns` are the names and columns so far. -/
def validateFields : List Field → List String → List String → Except Err Unit
  | [], _, _ => pure ()
  | f :: rest, seen, columns => do
    failIf (!validIdentifier f.name || !validIdentifier f.dbColumn || seen.contains f.name ||
        columns.contains f.dbColumn)
      (.text ("models: duplicate or invalid field " ++ quote f.name))
    f.validate
    validateFields rest (f.name :: seen) (f.dbColumn :: columns)

/-- The first of `names` that is not among `seen` is an error. -/
def validateNames (seen : List String) (err : String → Err) : List String → Except Err Unit
  | [] => pure ()
  | name :: rest => do
    failIf (!seen.contains name) (err name)
    validateNames seen err rest

/-- The index loop of `Schema.Validate`; `seen` holds the field names, `names` the index names
so far. -/
def validateIndexes (seen : List String) : List Index → List String → Except Err Unit
  | [], _ => pure ()
  | index :: rest, names => do
    failIf (!validIdentifier index.name || names.contains index.name)
      (.text ("models: duplicate or invalid index name " ++ quote index.name))
    validateNames seen (fun name => .text ("models: index references unknown field " ++ name))
      (index.fields ++ index.includeFields)
    validateIndexes seen rest (index.name :: names)

/-- The checks on one constraint of `Schema.Validate`, after those on its name. -/
def Constraint.validate (seen indexNames : List String) (table : String) (c : Constraint) :
    Except Err Unit := do
  validateNames seen (fun _ => .text "models: constraint references unknown field") c.fields
  failIf (c.condition != "" && c.deferrable)
    (.text "models: conditional constraints cannot be deferred")
  failIf ((c.condition ++ c.expression).toList.any fun ch => ch == ';' || ch == '\x00')
    (.text "models: invalid constraint expression")
  if toLower c.kind = "unique" then do
    failIf c.fields.isEmpty (.text "models: unique constraint requires fields")
    failIf (c.expression != "")
      (.text "models: expression-based unique constraints require explicit supported operations")
    failIf (indexNames.contains c.name || c.name == table)
      (.text "models: unique constraint name collides with a table or declared index")
  else if toLower c.kind = "check" then do
    failIf (c.expression == "") (.text "models: check constraint requires expression")
    failIf (c.condition != "" || c.deferrable || c.nullsDistinct.isSome)
      (.text "models: check constraint options are not supported")
  else
    .error (.text "models: unsupported constraint kind")

/-- The constraint loop of `Schema.Validate`; `names` holds the constraint names so far. -/
def validateConstraints (seen indexNames : List String) (table : String) :
    List Constraint → List String → Except Err Unit
  | [], _ => pure ()
  | c :: rest, names => do
    failIf (!validIdentifier c.name || names.contains c.name)
      (.text "models: invalid or duplicate constraint name")
    c.validate seen indexNames table
    validateConstraints seen indexNames table rest (c.name :: names)

/-- Source: `schema.go` `Schema.Validate`. -/
def Schema.validate (s : Schema) : Except Err Unit := do
  failIf (!validIdentifier s.appLabel || !validIdentifier s.name || !validIdentifier s.dbTable)
    (.text "models: invalid app, model or table identifier")
  validateFields s.fields [] []
  let seen := s.fields.map fun f => f.name
  failIf (!s.abstract && s.pkFields.isEmpty) (.text "models: concrete schema needs a primary key")
  validateNames seen (fun key => .text ("models: unknown primary key field " ++ key)) s.primaryKey
  validateIndexes seen s.indexes []
  validateConstraints seen (s.indexes.map fun i => i.name) s.dbTable s.constraints []

/-! ## Clone -/

/-- A relation with its slices copied. -/
def Relation.clone (r : Relation) : Relation :=
  { r with targetFields := r.targetFields.clone, throughFields := r.throughFields.clone }

/-- One descriptor with its slices copied. -/
def FieldAttrs.clone (f : FieldAttrs) : FieldAttrs :=
  { f with
    choices := f.choices.clone
    validators := f.validators.clone
    relation := f.relation.map Relation.clone }

/-- A field with its slices copied, and its elements with theirs.
Source: `schema.go` `Schema.Clone`, the field loop. -/
def Field.clone (f : Field) : Field :=
  { toFieldAttrs := f.toFieldAttrs.clone, elements := f.elements.map FieldAttrs.clone }

/-- Source: `schema.go` `Schema.Clone`. Copying a list changes nothing here; what a clone does
change is that allocated empty slices inside the fields become nil. -/
def Schema.clone (s : Schema) : Schema := { s with fields := s.fields.map Field.clone }

end Gogo.Models

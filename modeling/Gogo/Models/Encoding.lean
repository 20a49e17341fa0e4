import Gogo.Models.Equality

/-!
# JSON encodings of descriptors

`json.Marshal` and `json.Unmarshal` on the descriptor types of `core/models/schema.go`, member by
member under the names the struct fields have. Callbacks carry the tag `json:"-"`: they are
neither written nor read.

* `Field.reread`, `Schema.reread` — what comes back: every value of type `any` as decoding makes
  it, and no callbacks. `Field.unmarshal_marshal`, `Schema.unmarshal_marshal` — **the trip through
  JSON is `reread`.**
-/

namespace Gogo.Models

open List Gogo.Lib

/-! ## Slices -/

/-- Write a slice: a nil slice is null. -/
def Slice.marshal {α : Type} (write : α → Option Json) : Slice α → Option Json
  | .nil => some .null
  | .of elems => (elems.mapM write).map .arr

/-- Read a slice. -/
def Slice.unmarshal {α : Type} (read : Json → Option α) : Json → Option (Slice α)
  | .null => some .nil
  | .arr items => (items.mapM read).map .of
  | _ => none

/-- Write a list whose empty case is a nil slice. -/
def marshalStrings : List String → Json
  | [] => .null
  | s :: rest => .arr ((s :: rest).map .str)

/-- Write a list whose empty case is a nil slice, its elements by `write`. -/
def marshalItems {α : Type} (write : α → Option Json) : List α → Option Json
  | [] => some .null
  | a :: rest => ((a :: rest).mapM write).map .arr

/-- Write a pointer to a Boolean. -/
def marshalFlag : Option Bool → Json
  | none => .null
  | some b => .bool b

lemma mapM_toString (l : List String) : (l.map Json.str).mapM Json.toString? = some l := by
  induction l with
  | nil => rfl
  | cons s rest ih =>
    rw [map_cons, mapM_cons, ih]
    rfl

lemma toList_marshalStrings (l : List String) :
    Json.toList? Json.toString? (marshalStrings l) = some l := by
  rcases l with _ | ⟨s, rest⟩
  · rfl
  · exact mapM_toString (s :: rest)

lemma toPointer_marshalFlag (b : Option Bool) :
    Json.toPointer? Json.toBool? (marshalFlag b) = some b := by
  rcases b with _ | b <;> rfl

variable {α : Type} {j : Json} {v : Value} {c : Choice} {f : FieldAttrs}
  {elements : List FieldAttrs} {s : Schema}

variable {write : α → Option Json} {l : List α}

/-- If every element comes back as its image under `f`, so does the list. -/
lemma mapM_read_write {read : Json → Option α} {f : α → α}
    (h : ∀ a j, write a = some j → read j = some (f a)) {items : List Json}
    (hl : l.mapM write = some items) : items.mapM read = some (l.map f) := by
  induction l generalizing items with
  | nil =>
    cases hl
    rfl
  | cons a rest ih =>
    rw [mapM_cons] at hl
    obtain ⟨j, hj, hl⟩ := Option.bind_eq_some_iff.mp hl
    obtain ⟨tail, htail, hl⟩ := Option.bind_eq_some_iff.mp hl
    cases hl
    rw [mapM_cons, h a j hj, ih htail]
    rfl

lemma toList_marshalItems {read : Json → Option α} {f : α → α}
    (h : ∀ a j, write a = some j → read j = some (f a)) (hl : marshalItems write l = some j) :
    Json.toList? read j = some (l.map f) := by
  rcases l with _ | ⟨a, rest⟩
  · cases hl
    rfl
  · obtain ⟨items, hitems, rfl⟩ := Option.map_eq_some_iff.mp hl
    exact mapM_read_write h hitems

lemma toList_marshalSome {read : Json → Option α} {write : α → Json}
    (h : ∀ a, read (write a) = some a) (hl : marshalItems (fun a => some (write a)) l = some j) :
    Json.toList? read j = some l := by
  rw [toList_marshalItems (f := id) (fun a j ha => Option.some.inj ha ▸ h a) hl, map_id]

lemma Slice.unmarshal_marshal {read : Json → Option α} {f : α → α}
    (h : ∀ a j, write a = some j → read j = some (f a)) {s : Slice α}
    (hs : s.marshal write = some j) : Slice.unmarshal read j = some (s.map f) := by
  rcases s with _ | elems
  · cases hs
    rfl
  · obtain ⟨items, hitems, rfl⟩ := Option.map_eq_some_iff.mp hs
    show (items.mapM read).map Slice.of = _
    rw [mapM_read_write h hitems]
    rfl

/-! ## Values and choices -/

/-- What a value of type `any` comes back as. -/
def Value.reread (v : Value) : Value := (v.marshal.map Value.unmarshal).getD v

/-- Source: `json.Unmarshal` into an `any`, which accepts every JSON value. -/
def Value.read (j : Json) : Option Value := some (Value.unmarshal j)

lemma Value.read_marshal (h : v.marshal = some j) : Value.read j = some v.reread := by
  unfold Value.read Value.reread
  rw [h]
  rfl

/-- Source: `json.Marshal` of a `Choice`. -/
def Choice.marshal (c : Choice) : Option Json := do
  let value ← c.value.marshal
  some (.obj [("Value", value), ("Label", .str c.label)])

/-- Source: `json.Unmarshal` into a `Choice`. -/
def Choice.unmarshal (j : Json) : Option Choice := do
  let value ← j.read "Value" .nil Value.read
  let label ← j.read "Label" "" Json.toString?
  some { value, label }

/-- What a choice comes back as. -/
def Choice.reread (c : Choice) : Choice := { c with value := c.value.reread }

lemma Choice.unmarshal_marshal (h : c.marshal = some j) : Choice.unmarshal j = some c.reread := by
  obtain ⟨value, hvalue, h⟩ := Option.bind_eq_some_iff.mp h
  cases h
  show ((Value.read value).bind fun value => some { c with value }) = _
  rw [Value.read_marshal hvalue]
  rfl

/-! ## Relations -/

/-- Write a string. -/
def writeString (s : String) : Option Json := some (.str s)

lemma marshal_strings (s : Slice String) : ∃ j, s.marshal writeString = some j ∧
    Slice.unmarshal Json.toString? j = some s := by
  have hmapM : ∀ l : List String, l.mapM writeString = some (l.map Json.str) := by
    intro l
    induction l with
    | nil => rfl
    | cons s rest ih =>
      rw [mapM_cons, ih]
      rfl
  rcases s with _ | elems
  · exact ⟨.null, rfl, rfl⟩
  · refine ⟨.arr (elems.map Json.str), ?_, ?_⟩
    · show (elems.mapM writeString).map Json.arr = _
      rw [hmapM]
      rfl
    · show ((elems.map Json.str).mapM Json.toString?).map Slice.of = _
      rw [mapM_toString]
      rfl

/-- Source: `json.Marshal` of a `Relation`. -/
def Relation.marshal (r : Relation) : Option Json := do
  let targetFields ← r.targetFields.marshal writeString
  let throughFields ← r.throughFields.marshal writeString
  some (.obj [("Target", .str r.target), ("TargetFields", targetFields),
    ("RelatedName", .str r.relatedName), ("RelatedQueryName", .str r.relatedQueryName),
    ("OnDelete", .str r.onDelete.text), ("Through", .str r.through),
    ("ThroughFields", throughFields), ("Symmetrical", marshalFlag r.symmetrical),
    ("NoConstraint", .bool r.noConstraint)])

/-- Source: `json.Unmarshal` into a `Relation`. -/
def Relation.unmarshal (j : Json) : Option Relation := do
  let target ← j.read "Target" "" Json.toString?
  let targetFields ← j.read "TargetFields" .nil (Slice.unmarshal Json.toString?)
  let relatedName ← j.read "RelatedName" "" Json.toString?
  let relatedQueryName ← j.read "RelatedQueryName" "" Json.toString?
  let onDelete ← j.read "OnDelete" "" Json.toString?
  let through ← j.read "Through" "" Json.toString?
  let throughFields ← j.read "ThroughFields" .nil (Slice.unmarshal Json.toString?)
  let symmetrical ← j.read "Symmetrical" none (Json.toPointer? Json.toBool?)
  let noConstraint ← j.read "NoConstraint" false Json.toBool?
  some
    { target, targetFields, relatedName, relatedQueryName, onDelete := ⟨onDelete⟩, through,
      throughFields, symmetrical, noConstraint }

lemma Relation.unmarshal_marshal (r : Relation) :
    ∃ j, r.marshal = some j ∧ j ≠ .null ∧ Relation.unmarshal j = some r := by
  obtain ⟨t, ht, ht'⟩ := marshal_strings r.targetFields
  obtain ⟨u, hu, hu'⟩ := marshal_strings r.throughFields
  unfold Relation.marshal
  rw [ht, hu]
  refine ⟨_, rfl, Json.noConfusion, ?_⟩
  show ((Slice.unmarshal Json.toString? t).bind fun targetFields =>
    (Slice.unmarshal Json.toString? u).bind fun throughFields =>
    (Json.toPointer? Json.toBool? (marshalFlag r.symmetrical)).bind fun symmetrical =>
    some { r with targetFields, throughFields, symmetrical }) = _
  rw [ht', hu', toPointer_marshalFlag]
  rfl

/-- Write a pointer to a relation. -/
def marshalRelation : Option Relation → Option Json
  | none => some .null
  | some r => r.marshal

lemma toPointer_marshalRelation (r : Option Relation) : ∃ j, marshalRelation r = some j ∧
    Json.toPointer? Relation.unmarshal j = some r := by
  rcases r with _ | r
  · exact ⟨.null, rfl, rfl⟩
  · obtain ⟨j, hj, hne, hread⟩ := r.unmarshal_marshal
    refine ⟨j, hj, ?_⟩
    have hpointer : Json.toPointer? Relation.unmarshal j = (Relation.unmarshal j).map some := by
      rcases j with _ | _ | _ | _ | _ | _
      · exact absurd rfl hne
      all_goals rfl
    rw [hpointer, hread]
    rfl

/-! ## Fields -/

/-- The members of a field descriptor, its `Element` aside. `AllowUnicode` carries the tag
`json:",omitempty"`. Source: `json.Marshal` of a `Field`. -/
def FieldAttrs.members (f : FieldAttrs) : Option (List (String × Json)) := do
  let relation ← marshalRelation f.relation
  let min ← f.min.marshal
  let max ← f.max.marshal
  let choices ← f.choices.marshal Choice.marshal
  let default ← f.default.marshal
  some ((if f.allowUnicode then [("AllowUnicode", .bool true)] else []) ++
    [("Name", .str f.name), ("StructField", .str f.structField), ("Column", .str f.column),
      ("Kind", .str f.kind.text), ("Null", .bool f.null), ("Blank", .bool f.blank),
      ("Editable", .bool f.editable), ("PrimaryKey", .bool f.primaryKey),
      ("Unique", .bool f.unique), ("DBIndex", .bool f.dbIndex), ("AutoNow", .bool f.autoNow),
      ("AutoNowAdd", .bool f.autoNowAdd), ("Label", .str f.label), ("HelpText", .str f.helpText),
      ("Comment", .str f.comment), ("Collation", .str f.collation),
      ("Tablespace", .str f.tablespace), ("MaxLength", .num (.int f.maxLength)),
      ("MinLength", .num (.int f.minLength)), ("MaxDigits", .num (.int f.maxDigits)),
      ("DecimalPlaces", .num (.int f.decimalPlaces)), ("Min", min), ("Max", max),
      ("Choices", choices), ("Default", default), ("DefaultID", .str f.defaultID),
      ("DBDefault", .str f.dbDefault), ("GeneratedExpression", .str f.generatedExpression),
      ("Relation", relation), ("RangeType", .str f.rangeType.text),
      ("UniqueForDate", .str f.uniqueForDate), ("UniqueForMonth", .str f.uniqueForMonth),
      ("UniqueForYear", .str f.uniqueForYear)])

/-- Read a kind. -/
def Kind.read (j : Json) : Option Kind := j.toString?.map Kind.ofText

/-- Source: `json.Unmarshal` into a `Field`, its `Element` aside. -/
def FieldAttrs.unmarshal (j : Json) : Option FieldAttrs := do
  let name ← j.read "Name" "" Json.toString?
  let structField ← j.read "StructField" "" Json.toString?
  let column ← j.read "Column" "" Json.toString?
  let kind ← j.read "Kind" Inhabited.default Kind.read
  let null ← j.read "Null" false Json.toBool?
  let blank ← j.read "Blank" false Json.toBool?
  let editable ← j.read "Editable" false Json.toBool?
  let primaryKey ← j.read "PrimaryKey" false Json.toBool?
  let unique ← j.read "Unique" false Json.toBool?
  let dbIndex ← j.read "DBIndex" false Json.toBool?
  let autoNow ← j.read "AutoNow" false Json.toBool?
  let autoNowAdd ← j.read "AutoNowAdd" false Json.toBool?
  let allowUnicode ← j.read "AllowUnicode" false Json.toBool?
  let label ← j.read "Label" "" Json.toString?
  let helpText ← j.read "HelpText" "" Json.toString?
  let comment ← j.read "Comment" "" Json.toString?
  let collation ← j.read "Collation" "" Json.toString?
  let tablespace ← j.read "Tablespace" "" Json.toString?
  let maxLength ← j.read "MaxLength" 0 Json.toInt?
  let minLength ← j.read "MinLength" 0 Json.toInt?
  let maxDigits ← j.read "MaxDigits" 0 Json.toInt?
  let decimalPlaces ← j.read "DecimalPlaces" 0 Json.toInt?
  let min ← j.read "Min" .nil Value.read
  let max ← j.read "Max" .nil Value.read
  let choices ← j.read "Choices" .nil (Slice.unmarshal Choice.unmarshal)
  let default ← j.read "Default" .nil Value.read
  let defaultID ← j.read "DefaultID" "" Json.toString?
  let dbDefault ← j.read "DBDefault" "" Json.toString?
  let generatedExpression ← j.read "GeneratedExpression" "" Json.toString?
  let relation ← j.read "Relation" none (Json.toPointer? Relation.unmarshal)
  let rangeType ← j.read "RangeType" Inhabited.default Kind.read
  let uniqueForDate ← j.read "UniqueForDate" "" Json.toString?
  let uniqueForMonth ← j.read "UniqueForMonth" "" Json.toString?
  let uniqueForYear ← j.read "UniqueForYear" "" Json.toString?
  some
    { name, structField, column, kind, null, blank, editable, primaryKey, unique, dbIndex,
      autoNow, autoNowAdd, allowUnicode, label, helpText, comment, collation, tablespace,
      maxLength, minLength, maxDigits, decimalPlaces, min, max, choices, default, defaultID,
      dbDefault, generatedExpression, relation, rangeType, uniqueForDate, uniqueForMonth,
      uniqueForYear }

/-- What one descriptor comes back as. -/
def FieldAttrs.reread (f : FieldAttrs) : FieldAttrs :=
  { toFieldOptions := f.toFieldOptions
    min := f.min.reread
    max := f.max.reread
    choices := f.choices.map Choice.reread
    default := f.default.reread }

lemma FieldAttrs.unmarshal_members {members : List (String × Json)} (h : f.members = some members)
    (element : Json) :
    FieldAttrs.unmarshal (.obj (("Element", element) :: members)) = some f.reread := by
  unfold FieldAttrs.members at h
  obtain ⟨relation, hrelation, h⟩ := Option.bind_eq_some_iff.mp h
  obtain ⟨min, hmin, h⟩ := Option.bind_eq_some_iff.mp h
  obtain ⟨max, hmax, h⟩ := Option.bind_eq_some_iff.mp h
  obtain ⟨choices, hchoices, h⟩ := Option.bind_eq_some_iff.mp h
  obtain ⟨default, hdefault, h⟩ := Option.bind_eq_some_iff.mp h
  obtain ⟨relation', hrelation', hpointer⟩ := toPointer_marshalRelation f.relation
  rw [hrelation, Option.some.injEq] at hrelation'
  subst hrelation'
  have hslice := Slice.unmarshal_marshal (fun _ _ => Choice.unmarshal_marshal) hchoices
  -- `AllowUnicode` may be absent, so the object is known in each case only
  generalize hunicode : f.allowUnicode = unicode at h
  have hread : FieldAttrs.unmarshal (.obj (("Element", element) :: members)) =
      (Value.read min).bind fun min => (Value.read max).bind fun max =>
      (Slice.unmarshal Choice.unmarshal choices).bind fun choices =>
      (Value.read default).bind fun default =>
      (Json.toPointer? Relation.unmarshal relation).bind fun relation =>
      some { f.reread with
        kind := .ofText f.kind.text, allowUnicode := unicode, min, max, choices, default, relation
        rangeType := .ofText f.rangeType.text } := by
    cases h
    cases unicode <;> rfl
  rw [hread, Value.read_marshal hmin, Value.read_marshal hmax, hslice, Value.read_marshal hdefault,
    hpointer, Kind.ofText_text, Kind.ofText_text, ← hunicode]
  rfl

/-- A descriptor and the chain of its elements, as nested objects. -/
def marshalChain : FieldAttrs → List FieldAttrs → Option Json
  | f, [] => f.members.map fun members => .obj (("Element", .null) :: members)
  | f, element :: rest => do
    let inner ← marshalChain element rest
    let members ← f.members
    some (.obj (("Element", inner) :: members))

/-- Source: `json.Marshal` of a `Field`. -/
def Field.marshal (f : Field) : Option Json := marshalChain f.toFieldAttrs f.elements

/-- The chain of elements below an object. -/
def unmarshalElements (j : Json) : Option (List FieldAttrs) :=
  match h : j.field "Element" with
  | none => some []
  | some .null => some []
  | some inner => do
    have := Json.sizeOf_field h
    let element ← FieldAttrs.unmarshal inner
    let rest ← unmarshalElements inner
    some (element :: rest)
termination_by sizeOf j

/-- Source: `json.Unmarshal` into a `Field`. -/
def Field.unmarshal (j : Json) : Option Field := do
  let attrs ← FieldAttrs.unmarshal j
  let elements ← unmarshalElements j
  some { toFieldAttrs := attrs, elements }

/-- What a field comes back as. -/
def Field.reread (f : Field) : Field :=
  { toFieldAttrs := f.toFieldAttrs.reread, elements := f.elements.map FieldAttrs.reread }

lemma field_element {members : List (String × Json)} (h : f.members = some members)
    (element : Json) :
    Json.field "Element" (.obj (("Element", element) :: members)) = some element := by
  unfold FieldAttrs.members at h
  obtain ⟨relation, -, h⟩ := Option.bind_eq_some_iff.mp h
  obtain ⟨min, -, h⟩ := Option.bind_eq_some_iff.mp h
  obtain ⟨max, -, h⟩ := Option.bind_eq_some_iff.mp h
  obtain ⟨choices, -, h⟩ := Option.bind_eq_some_iff.mp h
  obtain ⟨default, -, h⟩ := Option.bind_eq_some_iff.mp h
  rcases hunicode : f.allowUnicode with _ | _
  all_goals
    rw [hunicode] at h
    cases h
    rfl

/-- The chain comes back descriptor by descriptor. -/
lemma unmarshal_marshalChain (h : marshalChain f elements = some j) :
    FieldAttrs.unmarshal j = some f.reread ∧
      unmarshalElements j = some (elements.map FieldAttrs.reread) ∧ j ≠ .null := by
  induction elements generalizing f j with
  | nil =>
    obtain ⟨members, hmembers, rfl⟩ := Option.map_eq_some_iff.mp h
    refine ⟨FieldAttrs.unmarshal_members hmembers _, ?_, Json.noConfusion⟩
    unfold unmarshalElements
    split
    · rfl
    · rfl
    · rename_i inner hne hfield
      rw [field_element hmembers, Option.some.injEq] at hfield
      exact absurd hfield.symm hne
  | cons element rest ih =>
    obtain ⟨inner, hinner, h⟩ := Option.bind_eq_some_iff.mp h
    obtain ⟨members, hmembers, h⟩ := Option.bind_eq_some_iff.mp h
    cases h
    obtain ⟨hattrs, helements, hne⟩ := ih hinner
    refine ⟨FieldAttrs.unmarshal_members hmembers _, ?_, Json.noConfusion⟩
    unfold unmarshalElements
    split
    · rename_i hfield
      rw [field_element hmembers] at hfield
      cases hfield
    · rename_i hfield
      rw [field_element hmembers, Option.some.injEq] at hfield
      exact absurd hfield hne
    · rename_i inner' hne' hfield
      rw [field_element hmembers, Option.some.injEq] at hfield
      subst hfield
      rw [hattrs, helements]
      rfl

/-- **A field comes back as `reread`.** -/
theorem Field.unmarshal_marshal {f : Field} (h : f.marshal = some j) :
    Field.unmarshal j = some f.reread := by
  obtain ⟨hattrs, helements, -⟩ := unmarshal_marshalChain h
  unfold Field.unmarshal
  rw [hattrs, helements]
  rfl

/-! ## Indexes, constraints and schemas -/

/-- Source: `json.Marshal` of an `Index`. -/
def Index.marshal (i : Index) : Json :=
  .obj [("Name", .str i.name), ("Fields", marshalStrings i.fields), ("Unique", .bool i.unique),
    ("Method", .str i.method), ("Condition", .str i.condition),
    ("Include", marshalStrings i.includeFields), ("Concurrent", .bool i.concurrent),
    ("NullsDistinct", marshalFlag i.nullsDistinct)]

/-- Source: `json.Unmarshal` into an `Index`. -/
def Index.unmarshal (j : Json) : Option Index := do
  let name ← j.read "Name" "" Json.toString?
  let fields ← j.read "Fields" [] (Json.toList? Json.toString?)
  let unique ← j.read "Unique" false Json.toBool?
  let method ← j.read "Method" "" Json.toString?
  let condition ← j.read "Condition" "" Json.toString?
  let includeFields ← j.read "Include" [] (Json.toList? Json.toString?)
  let concurrent ← j.read "Concurrent" false Json.toBool?
  let nullsDistinct ← j.read "NullsDistinct" none (Json.toPointer? Json.toBool?)
  some { name, fields, unique, method, condition, includeFields, concurrent, nullsDistinct }

lemma Index.unmarshal_marshal (i : Index) : Index.unmarshal i.marshal = some i := by
  show ((Json.toList? Json.toString? (marshalStrings i.fields)).bind fun fields =>
    (Json.toList? Json.toString? (marshalStrings i.includeFields)).bind fun includeFields =>
    (Json.toPointer? Json.toBool? (marshalFlag i.nullsDistinct)).bind fun nullsDistinct =>
    some { i with fields, includeFields, nullsDistinct }) = _
  rw [toList_marshalStrings, toList_marshalStrings, toPointer_marshalFlag]
  rfl

/-- Source: `json.Marshal` of a `Constraint`. -/
def Constraint.marshal (c : Constraint) : Json :=
  .obj [("Name", .str c.name), ("Kind", .str c.kind), ("Fields", marshalStrings c.fields),
    ("Expression", .str c.expression), ("Condition", .str c.condition),
    ("Deferrable", .bool c.deferrable), ("NullsDistinct", marshalFlag c.nullsDistinct)]

/-- Source: `json.Unmarshal` into a `Constraint`. -/
def Constraint.unmarshal (j : Json) : Option Constraint := do
  let name ← j.read "Name" "" Json.toString?
  let kind ← j.read "Kind" "" Json.toString?
  let fields ← j.read "Fields" [] (Json.toList? Json.toString?)
  let expression ← j.read "Expression" "" Json.toString?
  let condition ← j.read "Condition" "" Json.toString?
  let deferrable ← j.read "Deferrable" false Json.toBool?
  let nullsDistinct ← j.read "NullsDistinct" none (Json.toPointer? Json.toBool?)
  some { name, kind, fields, expression, condition, deferrable, nullsDistinct }

lemma Constraint.unmarshal_marshal (c : Constraint) : Constraint.unmarshal c.marshal = some c := by
  show ((Json.toList? Json.toString? (marshalStrings c.fields)).bind fun fields =>
    (Json.toPointer? Json.toBool? (marshalFlag c.nullsDistinct)).bind fun nullsDistinct =>
    some { c with fields, nullsDistinct }) = _
  rw [toList_marshalStrings, toPointer_marshalFlag]
  rfl

/-- Source: `json.Marshal` of a `Schema`. -/
def Schema.marshal (s : Schema) : Option Json := do
  let fields ← marshalItems Field.marshal s.fields
  let indexes ← marshalItems (fun i => some i.marshal) s.indexes
  let constraints ← marshalItems (fun c => some c.marshal) s.constraints
  some (.obj [("AppLabel", .str s.appLabel), ("Name", .str s.name), ("Table", .str s.table),
    ("Fields", fields), ("PrimaryKey", marshalStrings s.primaryKey), ("Indexes", indexes),
    ("Constraints", constraints), ("Ordering", marshalStrings s.ordering),
    ("Abstract", .bool s.abstract), ("Proxy", .bool s.proxy), ("Unmanaged", .bool s.unmanaged),
    ("Parent", .str s.parent), ("ParentLink", .str s.parentLink), ("Concrete", .str s.concrete),
    ("AutoCreatedBy", .str s.autoCreatedBy), ("AutoCreatedField", .str s.autoCreatedField),
    ("Label", .str s.label), ("LabelPlural", .str s.labelPlural), ("Comment", .str s.comment),
    ("Tablespace", .str s.tablespace),
    ("RequiredCapabilities", marshalStrings s.requiredCapabilities)])

/-- Source: `json.Unmarshal` into a `Schema`. -/
def Schema.unmarshal (j : Json) : Option Schema := do
  let appLabel ← j.read "AppLabel" "" Json.toString?
  let name ← j.read "Name" "" Json.toString?
  let table ← j.read "Table" "" Json.toString?
  let fields ← j.read "Fields" [] (Json.toList? Field.unmarshal)
  let primaryKey ← j.read "PrimaryKey" [] (Json.toList? Json.toString?)
  let indexes ← j.read "Indexes" [] (Json.toList? Index.unmarshal)
  let constraints ← j.read "Constraints" [] (Json.toList? Constraint.unmarshal)
  let ordering ← j.read "Ordering" [] (Json.toList? Json.toString?)
  let abstract ← j.read "Abstract" false Json.toBool?
  let proxy ← j.read "Proxy" false Json.toBool?
  let unmanaged ← j.read "Unmanaged" false Json.toBool?
  let parent ← j.read "Parent" "" Json.toString?
  let parentLink ← j.read "ParentLink" "" Json.toString?
  let concrete ← j.read "Concrete" "" Json.toString?
  let autoCreatedBy ← j.read "AutoCreatedBy" "" Json.toString?
  let autoCreatedField ← j.read "AutoCreatedField" "" Json.toString?
  let label ← j.read "Label" "" Json.toString?
  let labelPlural ← j.read "LabelPlural" "" Json.toString?
  let comment ← j.read "Comment" "" Json.toString?
  let tablespace ← j.read "Tablespace" "" Json.toString?
  let requiredCapabilities ← j.read "RequiredCapabilities" [] (Json.toList? Json.toString?)
  some
    { appLabel, name, table, fields, primaryKey, indexes, constraints, ordering, abstract, proxy,
      unmanaged, parent, parentLink, concrete, autoCreatedBy, autoCreatedField, label,
      labelPlural, comment, tablespace, requiredCapabilities }

/-- What a schema comes back as. -/
def Schema.reread (s : Schema) : Schema := { s with fields := s.fields.map Field.reread }

/-- **A schema comes back as `reread`.** -/
theorem Schema.unmarshal_marshal (h : s.marshal = some j) : Schema.unmarshal j = some s.reread := by
  unfold Schema.marshal at h
  obtain ⟨fields, hfields, h⟩ := Option.bind_eq_some_iff.mp h
  obtain ⟨indexes, hindexes, h⟩ := Option.bind_eq_some_iff.mp h
  obtain ⟨constraints, hconstraints, h⟩ := Option.bind_eq_some_iff.mp h
  have hread : Schema.unmarshal j =
      (Json.toList? Field.unmarshal fields).bind fun fields =>
      (Json.toList? Json.toString? (marshalStrings s.primaryKey)).bind fun primaryKey =>
      (Json.toList? Index.unmarshal indexes).bind fun indexes =>
      (Json.toList? Constraint.unmarshal constraints).bind fun constraints =>
      (Json.toList? Json.toString? (marshalStrings s.ordering)).bind fun ordering =>
      (Json.toList? Json.toString? (marshalStrings s.requiredCapabilities)).bind
        fun requiredCapabilities =>
      some { s with
        fields, primaryKey, indexes, constraints, ordering, requiredCapabilities } := by
    cases h
    rfl
  rw [hread, toList_marshalItems (fun _ _ => Field.unmarshal_marshal) hfields,
    toList_marshalStrings, toList_marshalSome Index.unmarshal_marshal hindexes,
    toList_marshalSome Constraint.unmarshal_marshal hconstraints, toList_marshalStrings,
    toList_marshalStrings]
  rfl

end Gogo.Models

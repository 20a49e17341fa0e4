import Gogo.Models.Validity
import Gogo.Lib.Keyset

/-!
# Keyset pagination

`Resource.cursorList` lists a collection page by page: a page ends with a signed position, the
ordering values of its last row, and the next page is the rows that a predicate puts after that
position. The ordering is made total by appending the primary key.

* `totalOrder`, `newCursor` — which orderings a resource with a cursor accepts;
  `cursorPredicate`, `cursorList` — one page.
* `cursorPredicate_selects` — **the predicate of a position selects the rows after it.**
* `ListedBefore` — the order of a listing, read off the names: a minus sign means downwards.
* `Traversal` — following `Next` until it is absent; `traversal_visits_every_row_iff` — **a traversal
  of a table that does not change lists every matching row once, in the ordering, unless there are
  more rows than fit a page and more than sixteen names to order by.** `newCursor` counts distinct
  names, and `totalOrder` appends a repeated entry of the primary key as often as it is declared.
-/

namespace Gogo.Models

/-- Source: `schema.go` `Field.IsStored`. -/
def FieldOptions.isStored (f : FieldOptions) : Bool := f.kind != .known .manyToMany

end Gogo.Models

namespace Gogo.Api

open List Gogo.Lib Gogo.Models

inductive ListError
  /-- `invalidCursor()`. -/
  | invalidCursor
  /-- `invalidQuery()`. -/
  | invalidQuery
  /-- `auth.ErrPermissionDenied`. -/
  | permissionDenied
  | text (message : String)
deriving DecidableEq

/-! ## Orderings -/

/-- Source: `filters.go` `queryScalar`. -/
def queryScalar (field : Field) : Bool :=
  field.isStored && field.relation.isNone &&
    [KnownKind.char, .text, .slug, .email, .url, .uuid, .genericIPAddress, .smallInteger, .integer,
      .bigInteger, .positiveSmallInteger, .positiveInteger, .positiveBigInteger, .smallAuto, .auto,
      .bigAuto, .float, .decimal, .boolean, .date, .dateTime, .time, .duration].any
      fun kind => field.kind == .known kind

/-- Source: `strings.TrimPrefix(order, "-")`. -/
def orderName (order : String) : String :=
  match order.toList with
  | '-' :: rest => String.ofList rest
  | _ => order

/-- Source: `strings.HasPrefix(order, "-")`. -/
def isDescending (order : String) : Bool :=
  match order.toList with
  | '-' :: _ => true
  | _ => false

/-- Source: `filters.go` `FilterBackend`, as far as the ordering goes. `NewFilterBackend` has
validated the schema. -/
structure FilterBackend where
  schema : Schema
  ordering : List String
  defaults : List String
  valid : schema.validate = .ok ()

/-- The first loop of `totalOrder`, with the names seen so far. -/
def FilterBackend.checkOrder (f : FilterBackend) (isPublic : Bool) :
    List String → List String → Except ListError (List String)
  | seen, [] => .ok seen
  | seen, value :: rest =>
    match f.schema.field? (orderName value) with
    | none => .error (.text "api: invalid ordering")
    | some field =>
      if !queryScalar field || seen.contains (orderName value) ||
          isPublic && !f.ordering.contains (orderName value) then
        .error (.text "api: invalid ordering")
      else f.checkOrder isPublic (orderName value :: seen) rest

/-- The second loop of `totalOrder`. -/
def FilterBackend.appendKeys (seen : List String) : List Field → Except ListError (List String)
  | [] => .ok []
  | field :: rest =>
    if !queryScalar field then .error (.text "api: unsupported resource primary key")
    else do
      let keys ← appendKeys seen rest
      .ok (if seen.contains field.name then keys else field.name :: keys)

/-- Source: `filters.go` `FilterBackend.totalOrder`. -/
def FilterBackend.totalOrder (f : FilterBackend) (order : List String) (isPublic : Bool) :
    Except ListError (List String) := do
  let seen ← f.checkOrder isPublic [] order
  let keys ← FilterBackend.appendKeys seen f.schema.pkFields
  .ok (order ++ keys)

/-- The loop of `newCursor` over the immutable fields, with those seen so far: distinct non-null
scalar fields without a codec. -/
def FilterBackend.checkImmutable (f : FilterBackend) :
    List String → List String → Except ListError Unit
  | _, [] => .ok ()
  | seen, name :: rest =>
    if seen.contains name then .error (.text "api: duplicate immutable cursor field")
    else if !((f.schema.field? name).any fun field =>
        queryScalar field && !field.null && field.codec.isNil) then
      .error (.text "api: cursor fields must be non-null scalar fields")
    else f.checkImmutable (name :: seen) rest

/-- The loop of `newCursor` over the names in use: the map from field names to the names under
which the serializer exposes them; `exposed` is empty for a field it does not expose directly. -/
def cursorFields (immutableFields : List String) (exposed : String → String) :
    List (String × String) → List String → Except ListError (List (String × String))
  | fields, [] => .ok fields
  | fields, value :: rest =>
    if !immutableFields.contains (orderName value) then
      .error (.text "api: cursor ordering requires explicit immutable fields")
    else if (fields.map Prod.fst).contains (orderName value) then
      cursorFields immutableFields exposed fields rest
    else if exposed (orderName value) = "" then
      .error (.text "api: cursor keys must be directly exposed by the output serializer")
    else cursorFields immutableFields exposed
      ((orderName value, exposed (orderName value)) :: fields) rest

/-- Source: `cursor.go` `Resource.newCursor`, the checks on the fields: every ordering field is
immutable and exposed, and there are at most sixteen. -/
def FilterBackend.newCursor (f : FilterBackend) (immutableFields : List String)
    (exposed : String → String) : Except ListError (List (String × String)) := do
  f.checkImmutable [] immutableFields
  let used := f.ordering ++ f.defaults ++ f.schema.pkFields.map fun key => key.name
  let fields ← cursorFields immutableFields exposed [] used
  refuseIf (fields.length > 16) (.text "api: at most sixteen cursor ordering fields are supported")
  .ok fields

/-! ## Pages -/

variable {α V : Type}

/-- A resource with a cursor, and what it uses of the serializer, the signed codec (for the query
at hand) and the field checks. -/
structure Resource (α V : Type) where
  filters : FilterBackend
  /-- `resourceCursor.fields`. -/
  fields : List (String × String)
  /-- The value of a field in a row; ordering fields are not null. -/
  read : α → String → V
  /-- `represent`: the output of a row by public name. -/
  represent : α → Except ListError (String → Option V)
  /-- `json.Marshal` of the values, `codec.Encode` of one to sixteen of them, and
  `validateNavigation`. -/
  encode : List V → Except ListError String
  /-- `codec.Decode`. -/
  decode : String → Option (List V)
  /-- The JSON decoding of one value of a position and `cleanQueryValue`. -/
  clean : String → V → Option V

/-- The lookups of a cursor predicate. -/
inductive CursorLookup
  | exact
  | gt
  | lt
deriving DecidableEq

/-- One comparison `Q(name + lookup, value)`. -/
structure Comparison (V : Type) where
  name : String
  lookup : CursorLookup
  value : V

/-- The loop of `cursorPredicate` over the ordering: `before` are the equalities with the keys
before. -/
def cursorAlternatives : List (Comparison V) → List (String × V) → List (List (Comparison V))
  | _, [] => []
  | before, (order, value) :: rest =>
    (before ++ [⟨orderName order, if isDescending order then .lt else .gt, value⟩]) ::
      cursorAlternatives (before ++ [⟨orderName order, .exact, value⟩]) rest

/-- One value of a position, checked. -/
def Resource.cleanValue (resource : Resource α V) (entry : String × V) :
    Except ListError (String × V) :=
  match resource.clean (orderName entry.1) entry.2 with
  | none => .error .invalidCursor
  | some value => .ok (entry.1, value)

/-- Source: `cursor.go` `Resource.cursorPredicate`: a disjunction of conjunctions. -/
def Resource.cursorPredicate (resource : Resource α V) (ordering : List String)
    (position : List V) : Except ListError (List (List (Comparison V))) := do
  refuseIf (position.length ≠ ordering.length ∨ ordering.length = 0 ∨ ordering.length > 16)
    .invalidCursor
  let values ← (ordering.zip position).mapM resource.cleanValue
  .ok (cursorAlternatives [] values)

/-- Source: `cursor.go` `Collection`, without the count. `next` is empty when it is absent. -/
structure Collection (V : Type) where
  results : List (String → Option V)
  next : String

/-- The public name of a field. -/
def Resource.publicName (resource : Resource α V) (name : String) : String :=
  (resource.fields.lookup name).getD ""

/-- The position of a represented row. -/
def Resource.position (resource : Resource α V) (ordering : List String)
    (values : String → Option V) : Except ListError (List V) :=
  ordering.mapM fun order =>
    match values (resource.publicName (orderName order)) with
    | none => .error .permissionDenied
    | some value => .ok value

/-- Source: `pagination/cursor.go` `CursorCodec.Encode`, with the number of values that
`validPosition` asks for. -/
def Resource.encodePosition (resource : Resource α V) (position : List V) :
    Except ListError String := do
  refuseIf (position.length < 1 ∨ position.length > 16) (.text "pagination: invalid pagination parameters")
  resource.encode position

section Listing

variable [LinearOrder V]

/-- The rows a comparison selects. -/
def Resource.compares (resource : Resource α V) (row : α) (comparison : Comparison V) : Bool :=
  match comparison.lookup with
  | .exact => decide (resource.read row comparison.name = comparison.value)
  | .gt => decide (comparison.value < resource.read row comparison.name)
  | .lt => decide (resource.read row comparison.name < comparison.value)

/-- The rows a cursor predicate selects. -/
def Resource.selects (resource : Resource α V) (predicate : List (List (Comparison V)))
    (row : α) : Bool :=
  predicate.any fun all => all.all (resource.compares row)

def Resource.sortKeys (resource : Resource α V) (ordering : List String) : List (SortKey α V) :=
  ordering.map fun order => ⟨fun row => resource.read row (orderName order), isDescending order⟩

/-- The continuation of a page: the position of its last row, if there is more. -/
def Resource.continuation (resource : Resource α V) (ordering : List String)
    (results : List (String → Option V)) (hasMore : Bool) : Except ListError String :=
  match results.getLast? with
  | none => .ok ""
  | some last =>
    if hasMore then do
      let position ← resource.position ordering last
      resource.encodePosition position
    else .ok ""

/-- The page made of the rows that the query returned: at most `size` of them, and a position when
there are more. -/
def Resource.page (resource : Resource α V) (ordering : List String) (size : ℕ)
    (rows : List α) : Except ListError (Collection V) := do
  let results ← (rows.take size).mapM resource.represent
  let next ← resource.continuation ordering results (decide (rows.length > size))
  .ok ⟨results, next⟩

/-- Source: `cursor.go` `Resource.cursorList`: `query` selects the rows of the scope and the
filters, and `token` is the query parameter `cursor`. -/
def Resource.cursorList (resource : Resource α V) (table : List α) (query : α → Bool)
    (ordering : List String) (size : ℕ) (token : String) :
    Except ListError (Collection V) := do
  let filtered ← if token = "" then .ok query
    else
      match resource.decode token with
      | none => .error .invalidCursor
      | some position => do
        let predicate ← resource.cursorPredicate ordering position
        .ok fun row => query row && resource.selects predicate row
  resource.page ordering size
    ((orderBy (resource.sortKeys ordering) (table.filter filtered)).take (size + 1))

end Listing

/-! ## What is accepted -/

/-- The names the ordering may use. -/
def FilterBackend.usedNames (f : FilterBackend) : List String :=
  (f.ordering ++ f.defaults ++ f.schema.pkFields.map fun key => key.name).map orderName

lemma orderName_of_valid {name : String} (h : validIdentifier name = true) :
    orderName name = name := by
  unfold orderName
  split
  · next rest heq =>
      rw [validIdentifier, heq, Bool.and_eq_true] at h
      exact absurd h.1 (by decide)
  · rfl

lemma FilterBackend.orderName_field (f : FilterBackend) {field : Field}
    (h : field ∈ f.schema.fields) : orderName field.name = field.name :=
  orderName_of_valid (((Schema.validate_eq_ok_iff f.schema).mp f.valid).fields field h).name

lemma FilterBackend.mem_fields_of_pk (f : FilterBackend) {pk : Field}
    (h : pk ∈ f.schema.pkFields) : pk ∈ f.schema.fields := by
  unfold Schema.pkFields at h
  split_ifs at h
  · obtain ⟨name, -, hname⟩ := mem_filterMap.mp h
    exact mem_of_find?_eq_some hname
  · exact (mem_filter.mp h).1

variable {f : FilterBackend} {isPublic : Bool} {seen order ordering immutableFields : List String}
  {exposed : String → String} {fields : List (String × String)}

lemma FilterBackend.checkOrder_spec {seen' : List String}
    (h : f.checkOrder isPublic seen order = .ok seen') :
    seen' = (order.map orderName).reverse ++ seen ∧ (seen.Nodup → seen'.Nodup) ∧
      (∀ o ∈ order, ∃ field ∈ f.schema.fields, field.name = orderName o) ∧
      (isPublic = true → ∀ o ∈ order, orderName o ∈ f.ordering) := by
  induction order generalizing seen with
  | nil =>
    cases h
    exact ⟨rfl, id, fun o ho => absurd ho not_mem_nil,
      fun _ o ho => absurd ho not_mem_nil⟩
  | cons value rest ih =>
    unfold checkOrder at h
    split at h
    · cases h
    next field hfield =>
    have hname : field.name = orderName value := by simpa using find?_some hfield
    split_ifs at h with hbad
    simp only [Bool.or_eq_true, Bool.not_eq_true', Bool.and_eq_true, contains_eq_mem,
      decide_eq_true_eq, decide_eq_false_iff_not, not_or, not_and, not_not] at hbad
    obtain ⟨rfl, hnodup, hnamed, hpublic⟩ := ih h
    refine ⟨by simp, fun hseen => hnodup (nodup_cons.mpr ⟨hbad.1.2, hseen⟩),
      forall_mem_cons.mpr ⟨⟨field, mem_of_find?_eq_some hfield, hname⟩, hnamed⟩, ?_⟩
    intro hisPublic
    exact forall_mem_cons.mpr ⟨hbad.2 hisPublic, hpublic hisPublic⟩

lemma FilterBackend.appendKeys_spec {keys : List String} {fields : List Field}
    (h : appendKeys seen fields = .ok keys) :
    keys = (fields.map fun field => field.name).filter fun name => !seen.contains name := by
  induction fields generalizing keys with
  | nil => exact (Except.ok.inj h).symm
  | cons field rest ih =>
    unfold appendKeys at h
    rw [if_neg (by intro hbad; rw [if_pos hbad] at h; cases h)] at h
    obtain ⟨keys', hkeys', h⟩ := bind_eq_ok.mp h
    cases h
    rw [ih hkeys', map_cons, filter_cons]
    by_cases hseen : field.name ∈ seen <;> simp [hseen]

/-- The number of names to order by: those requested, and the entries of the primary key that are
not among them, as often as they are declared. -/
def FilterBackend.keyCount (f : FilterBackend) (order : List String) : ℕ :=
  order.length +
    (f.schema.pkFields.filter fun key => !(order.map orderName).contains key.name).length

/-- What `totalOrder` makes of the names it accepts. -/
structure FilterBackend.Ordered (f : FilterBackend) (order ordering : List String) : Prop where
  length : ordering.length = f.keyCount order
  nodup : (f.schema.pkFields.map fun key => key.name).Nodup → (ordering.map orderName).Nodup
  used : ∀ o ∈ ordering, orderName o ∈ f.usedNames
  named : ∀ o ∈ ordering, ∃ field ∈ f.schema.fields, field.name = orderName o
  key : ∀ pk ∈ f.schema.pkFields, pk.name ∈ ordering.map orderName

/-- What `totalOrder` accepts: names of fields in use, the primary key among them. -/
lemma FilterBackend.totalOrder_spec (h : f.totalOrder order isPublic = .ok ordering)
    (hdefaults : isPublic = false → order = f.defaults) : f.Ordered order ordering := by
  obtain ⟨seen, hseen, h⟩ := bind_eq_ok.mp h
  obtain ⟨keys, hkeys, h⟩ := bind_eq_ok.mp h
  cases h
  obtain ⟨rfl, hnodup, hnamed, hpublic⟩ := checkOrder_spec hseen
  rw [append_nil] at hnodup hkeys
  have hkeys := appendKeys_spec hkeys
  have hmemKey : ∀ name, name ∈ keys ↔
      (∃ pk ∈ f.schema.pkFields, pk.name = name) ∧ name ∉ order.map orderName := by
    intro name
    simp [hkeys, mem_filter]
  have hkeyName : ∀ name, (∃ pk ∈ f.schema.pkFields, pk.name = name) → orderName name = name := by
    rintro name ⟨pk, hpk, rfl⟩
    exact f.orderName_field (f.mem_fields_of_pk hpk)
  have hkeysMap : keys.map orderName = keys := by
    refine (map_congr_left ?_).trans (map_id _)
    exact fun name hname => hkeyName name ((hmemKey name).mp hname).1
  refine ⟨?_, ?_, ?_, ?_, ?_⟩
  · rw [length_append, hkeys, filter_map, length_map, keyCount]
    simp [Function.comp_def]
  · intro hnames
    rw [map_append, hkeysMap]
    refine List.Nodup.append (nodup_reverse.mp (hnodup nodup_nil))
      (hkeys ▸ hnames.filter _) ?_
    intro name hname hkey
    exact ((hmemKey name).mp hkey).2 hname
  · intro o ho
    rw [usedNames]
    rcases mem_append.mp ho with ho | ho
    · cases isPublic with
      | true =>
        obtain ⟨field, hfield, hname⟩ := hnamed o ho
        refine mem_map.mpr ⟨orderName o, ?_, hname ▸ f.orderName_field hfield⟩
        exact mem_append_left _ (mem_append_left _ (hpublic rfl o ho))
      | false =>
        rw [hdefaults rfl] at ho
        exact mem_map_of_mem (mem_append_left _ (mem_append_right _ ho))
    · refine mem_map_of_mem (mem_append_right _ ?_)
      obtain ⟨⟨pk, hpk, rfl⟩, -⟩ := (hmemKey o).mp ho
      exact mem_map_of_mem hpk
  · intro o ho
    rcases mem_append.mp ho with ho | ho
    · exact hnamed o ho
    · obtain ⟨⟨pk, hpk, rfl⟩, -⟩ := (hmemKey o).mp ho
      exact ⟨pk, f.mem_fields_of_pk hpk, (hkeyName _ ⟨pk, hpk, rfl⟩).symm⟩
  · intro pk hpk
    rw [map_append, hkeysMap, mem_append]
    by_cases hmem : pk.name ∈ order.map orderName
    · exact .inl hmem
    · exact .inr ((hmemKey pk.name).mpr ⟨⟨pk, hpk, rfl⟩, hmem⟩)

lemma cursorFields_spec {fields' : List (String × String)} {used : List String}
    (h : cursorFields immutableFields exposed fields used = .ok fields') :
    fields.map Prod.fst ⊆ fields'.map Prod.fst ∧
      ∀ value ∈ used, orderName value ∈ fields'.map Prod.fst := by
  induction used generalizing fields with
  | nil =>
    cases h
    exact ⟨List.Subset.refl _, fun value hvalue => absurd hvalue not_mem_nil⟩
  | cons value rest ih =>
    unfold cursorFields at h
    split_ifs at h with _ hknown
    · obtain ⟨hsub, hall⟩ := ih h
      rw [contains_eq_mem, decide_eq_true_eq] at hknown
      exact ⟨hsub, forall_mem_cons.mpr ⟨hsub hknown, hall⟩⟩
    · obtain ⟨hsub, hall⟩ := ih h
      rw [map_cons] at hsub
      exact ⟨List.Subset.trans (subset_cons_self _ _) hsub,
        forall_mem_cons.mpr ⟨hsub mem_cons_self, hall⟩⟩

/-- A resource with a cursor has at most sixteen names to order by. -/
lemma FilterBackend.newCursor_spec (h : f.newCursor immutableFields exposed = .ok fields) :
    fields.length ≤ 16 ∧ f.usedNames ⊆ fields.map Prod.fst := by
  obtain ⟨-, -, h⟩ := bind_eq_ok.mp h
  obtain ⟨fields', hfields, h⟩ := bind_eq_ok.mp h
  obtain ⟨_, hlength, h⟩ := bind_eq_ok.mp h
  cases h
  refine ⟨not_lt.mp (refuseIf_eq_ok.mp hlength), fun name hname => ?_⟩
  obtain ⟨value, hvalue, rfl⟩ := mem_map.mp hname
  exact (cursorFields_spec hfields).2 value hvalue

/-- An accepted ordering has at most sixteen fields, if no entry of the primary key is repeated. -/
lemma FilterBackend.Ordered.keyCount_le (h : f.Ordered order ordering)
    (hcursor : f.newCursor immutableFields exposed = .ok fields)
    (hnames : (f.schema.pkFields.map fun key => key.name).Nodup) : f.keyCount order ≤ 16 := by
  obtain ⟨hlength, hsub⟩ := newCursor_spec hcursor
  have hmem : ordering.map orderName ⊆ fields.map Prod.fst := by
    intro name hname
    obtain ⟨o, ho, rfl⟩ := mem_map.mp hname
    exact hsub (h.used o ho)
  have hle := ((h.nodup hnames).subperm hmem).length_le
  rw [length_map, length_map, h.length] at hle
  exact hle.trans hlength

/-! ## The predicate of a position -/

variable [LinearOrder V] {resource : Resource α V} {ordering : List String}

/-- The ordering values of a row. -/
def Resource.orderValues (resource : Resource α V) (ordering : List String) (row : α) : List V :=
  ordering.map fun order => resource.read row (orderName order)

omit [LinearOrder V] in
lemma sortKeys_cons (order : String) (rest : List String) :
    resource.sortKeys (order :: rest) =
      ⟨fun row => resource.read row (orderName order), isDescending order⟩ ::
        resource.sortKeys rest := rfl

lemma selects_alternatives (before : List (Comparison V)) (last row : α) :
    resource.selects (cursorAlternatives before
        (ordering.map fun order => (order, resource.read last (orderName order)))) row = true ↔
      before.all (resource.compares row) = true ∧
        follows (resource.sortKeys ordering) last row = true := by
  induction ordering generalizing before with
  | nil => simp [cursorAlternatives, Resource.selects, Resource.sortKeys, follows]
  | cons order rest ih =>
    have hcompare : resource.compares row ⟨orderName order,
        if isDescending order then .lt else .gt, resource.read last (orderName order)⟩ =
          (SortKey.mk (fun r => resource.read r (orderName order)) (isDescending order)).lt
            last row := by
      by_cases hdesc : isDescending order = true <;>
        simp [Resource.compares, SortKey.lt, hdesc]
    have hexact : resource.compares row ⟨orderName order, .exact,
        resource.read last (orderName order)⟩ = true ↔
          resource.read last (orderName order) = resource.read row (orderName order) := by
      simp [Resource.compares, eq_comm]
    have hrest := ih (before ++ [⟨orderName order, .exact,
      resource.read last (orderName order)⟩])
    rw [map_cons, cursorAlternatives, Resource.selects, any_cons, Bool.or_eq_true]
    rw [Resource.selects] at hrest
    rw [hrest, all_append, all_append, all_cons, all_cons, all_nil,
      Bool.and_true, Bool.and_true, Bool.and_eq_true, Bool.and_eq_true, hcompare, hexact,
      sortKeys_cons, follows_cons]
    tauto

/-- What the traversal assumes of the values in use: every ordering value survives its
representation, the encoding of the cursor and the cleaning unchanged. -/
structure Resource.Survives (resource : Resource α V) (table : List α) (ordering : List String) :
    Prop where
  represented : ∀ row ∈ table, ∃ values, resource.represent row = .ok values ∧
    ∀ order ∈ ordering, values (resource.publicName (orderName order)) =
      some (resource.read row (orderName order))
  encoded : ∀ row ∈ table, ∃ token, resource.encode (resource.orderValues ordering row) =
    .ok token ∧ token ≠ "" ∧ resource.decode token = some (resource.orderValues ordering row)
  cleaned : ∀ row ∈ table, ∀ order ∈ ordering,
    resource.clean (orderName order) (resource.read row (orderName order)) =
      some (resource.read row (orderName order))

/-- **The predicate of a position selects the rows after it.** -/
theorem cursorPredicate_selects {table : List α} (hsurvives : resource.Survives table ordering)
    (hpos : ordering ≠ []) (hlength : ordering.length ≤ 16) {last : α} (hlast : last ∈ table) :
    ∃ predicate, resource.cursorPredicate ordering (resource.orderValues ordering last) =
        .ok predicate ∧
      ∀ row, resource.selects predicate row =
        follows (resource.sortKeys ordering) last row := by
  have hentries : ordering.zip (resource.orderValues ordering last) =
      ordering.map fun order => (order, resource.read last (orderName order)) := by
    exact map_prod_left_eq_zip.symm
  have hclean : (ordering.zip (resource.orderValues ordering last)).mapM resource.cleanValue =
      .ok (ordering.map fun order => (order, resource.read last (orderName order))) := by
    rw [hentries, mapM_eq_ok_map (g := id)]
    · rw [map_id]
    · intro entry hentry
      obtain ⟨order, horder, rfl⟩ := mem_map.mp hentry
      rw [Resource.cleanValue, hsurvives.cleaned last hlast order horder]
      rfl
  refine ⟨cursorAlternatives [] (ordering.map fun order =>
    (order, resource.read last (orderName order))), ?_, ?_⟩
  · have haccepted : ¬ ((resource.orderValues ordering last).length ≠ ordering.length ∨
        ordering.length = 0 ∨ ordering.length > 16) := by
      rw [Resource.orderValues, length_map]
      simp [hpos, hlength]
    rw [Resource.cursorPredicate, refuseIf, if_neg haccepted, ok_bind, hclean, ok_bind]
  · intro row
    rw [Bool.eq_iff_iff, selects_alternatives]
    simp

/-! ## Pages -/

section Traversal

variable {table : List α} {query : α → Bool} {size : ℕ}

/-- The matching rows in the ordering. -/
abbrev Resource.listing (resource : Resource α V) (table : List α) (query : α → Bool)
    (ordering : List String) : List α := orderBy (resource.sortKeys ordering) (table.filter query)

/-- The outputs of rows, one for each. -/
abbrev Resource.Represents (resource : Resource α V) (rows : List α)
    (results : List (String → Option V)) : Prop :=
  List.Forall₂ (fun row values => resource.represent row = .ok values) rows results

/-- A token stands for the rows that are still to be listed. -/
def Resource.Marks (resource : Resource α V) (ordering : List String) (rows rest : List α)
    (token : String) : Prop :=
  (token = "" ∧ rest = rows) ∨
    ∃ before last, rows = before ++ last :: rest ∧ token ≠ "" ∧
      resource.decode token = some (resource.orderValues ordering last)

variable {rest : List α} {token : String} {rows : ℕ}

lemma mem_of_mem_listing {row : α} (h : row ∈ resource.listing table query ordering) :
    row ∈ table :=
  (mem_filter.mp ((perm_orderBy _ _).mem_iff.mp h)).1

/-- The first page. -/
lemma cursorList_first : resource.cursorList table query ordering size "" =
    resource.page ordering size ((resource.listing table query ordering).take (size + 1)) := by
  rw [Resource.cursorList, if_pos rfl, ok_bind]

section Page

variable (hsurvives : resource.Survives table ordering)

include hsurvives

omit [LinearOrder V] in
/-- Rows that fit a page are the last one. -/
lemma page_of_le {rows : List α} (hrows : ∀ row ∈ rows, row ∈ table) (hle : rows.length ≤ size) :
    ∃ results, resource.page ordering size rows = .ok ⟨results, ""⟩ ∧
      resource.Represents rows results := by
  have hrepresented : ∀ row ∈ rows, ∃ values, resource.represent row = .ok values :=
    fun row hrow => (hsurvives.represented row (hrows row hrow)).imp fun _ h => h.1
  obtain ⟨results, hresults⟩ := exists_mapM_eq_ok hrepresented
  have hcont : resource.continuation ordering results (decide (rows.length > size)) = .ok "" := by
    rw [Resource.continuation, decide_eq_false (by omega)]
    cases results.getLast? <;> rfl
  refine ⟨results, ?_, mapM_eq_ok_iff.mp hresults⟩
  rw [Resource.page, take_of_length_le hle, hresults, ok_bind, hcont, ok_bind]

omit [LinearOrder V] in
/-- The page before others ends with the encoded ordering values of its last row. -/
lemma page_of_lt (hsize : 1 ≤ size) {rows : List α} (hrows : ∀ row ∈ rows, row ∈ table)
    (hlt : size < rows.length) :
    ∃ results before last, rows.take size = before ++ [last] ∧ last ∈ table ∧
      resource.Represents (rows.take size) results ∧
      resource.page ordering size rows = (do
        let next ← resource.encodePosition (resource.orderValues ordering last)
        .ok ⟨results, next⟩) := by
  have htaken : ∀ row ∈ rows.take size, row ∈ table :=
    fun row hrow => hrows row (mem_of_mem_take hrow)
  obtain ⟨results, hresults⟩ := exists_mapM_eq_ok fun row hrow =>
    (hsurvives.represented row (htaken row hrow)).imp fun _ h => h.1
  have hne : rows.take size ≠ [] := by
    rw [Ne, take_eq_nil_iff]
    rintro (hzero | rfl)
    · omega
    · simp at hlt
  obtain ⟨before, last, hsplit⟩ := eq_nil_or_concat (rows.take size) |>.resolve_left hne
  rw [concat_eq_append] at hsplit
  have hlast : last ∈ table := htaken last (by rw [hsplit]; simp)
  obtain ⟨values, hvalues, hpublic⟩ := hsurvives.represented last hlast
  have hgetLast : results.getLast? = some values := by
    have hmap := hresults
    rw [hsplit, mapM_append] at hmap
    obtain ⟨front, -, hmap⟩ := bind_eq_ok.mp hmap
    have hone : [last].mapM resource.represent = .ok [values] := by
      rw [mapM_cons, hvalues]
      rfl
    rw [hone, ok_bind] at hmap
    cases hmap
    exact getLast?_concat
  have hposition : resource.position ordering values =
      .ok (resource.orderValues ordering last) := by
    rw [Resource.position]
    refine mapM_eq_ok_map fun order horder => ?_
    rw [hpublic order horder]
  have hcont : resource.continuation ordering results (decide (rows.length > size)) =
      resource.encodePosition (resource.orderValues ordering last) := by
    rw [Resource.continuation, hgetLast]
    dsimp only
    rw [if_pos (decide_eq_true hlt), hposition, ok_bind]
  refine ⟨results, before, last, hsplit, hlast, mapM_eq_ok_iff.mp hresults, ?_⟩
  rw [Resource.page, hresults, ok_bind, hcont]

variable (hpos : ordering ≠ []) (hlength : ordering.length ≤ 16)

include hpos hlength

omit [LinearOrder V] in
/-- The token after a page: the ordering values of its last row, when there are more rows. -/
lemma page_spec (hsize : 1 ≤ size) {rows : List α} (hrows : ∀ row ∈ rows, row ∈ table) :
    ∃ page, resource.page ordering size rows = .ok page ∧
      resource.Represents (rows.take size) page.results ∧
      (rows.length ≤ size → page.next = "") ∧
      (size < rows.length → ∃ before last, rows.take size = before ++ [last] ∧ page.next ≠ "" ∧
        resource.decode page.next = some (resource.orderValues ordering last)) := by
  rcases le_or_gt rows.length size with hle | hlt
  · obtain ⟨results, hpage, hresults⟩ := page_of_le hsurvives hrows hle
    rw [take_of_length_le hle]
    exact ⟨⟨results, ""⟩, hpage, hresults, fun _ => rfl, fun hlt => absurd hle hlt.not_ge⟩
  · obtain ⟨results, before, last, hsplit, hlast, hresults, hpage⟩ :=
      page_of_lt hsurvives hsize hrows hlt
    obtain ⟨token, hencode, htoken, hdecode⟩ := hsurvives.encoded last hlast
    have haccepted : ¬ ((resource.orderValues ordering last).length < 1 ∨
        (resource.orderValues ordering last).length > 16) := by
      have := length_pos_of_ne_nil hpos
      rw [Resource.orderValues, length_map]
      omega
    rw [Resource.encodePosition, refuseIf, if_neg haccepted, ok_bind, hencode, ok_bind] at hpage
    exact ⟨⟨results, token⟩, hpage, hresults, fun hle => absurd hlt hle.not_gt,
      fun _ => ⟨before, last, hsplit, htoken, hdecode⟩⟩

variable (hsep : Separates (resource.sortKeys ordering) table)

include hsep

/-- The rows a token selects, in the ordering. -/
lemma cursorList_rows
    (hmarks : resource.Marks ordering (resource.listing table query ordering) rest token) :
    resource.cursorList table query ordering size token =
      resource.page ordering size (rest.take (size + 1)) := by
  have hsepQuery : Separates (resource.sortKeys ordering) (table.filter query) :=
    hsep.sublist filter_sublist
  rcases hmarks with ⟨rfl, rfl⟩ | ⟨before, last, hsplit, htoken, hdecode⟩
  · exact cursorList_first
  · have hlast : last ∈ table := mem_of_mem_listing (by rw [hsplit]; simp)
    obtain ⟨predicate, hpredicate, hselects⟩ :=
      cursorPredicate_selects hsurvives hpos hlength hlast
    have hfilter : (table.filter fun row => query row && resource.selects predicate row) =
        (table.filter query).filter fun row => follows (resource.sortKeys ordering) last row := by
      rw [filter_filter]
      refine filter_congr fun row _ => ?_
      rw [hselects, Bool.and_comm]
    have hrows : orderBy (resource.sortKeys ordering)
        (table.filter fun row => query row && resource.selects predicate row) = rest := by
      have hpairwise := pairwise_orderBy hsepQuery
      rw [Resource.listing] at hsplit
      rw [hfilter, orderBy_filter hsepQuery]
      rw [hsplit] at hpairwise ⊢
      exact filter_follows hpairwise
    rw [Resource.cursorList, if_neg htoken, hdecode]
    dsimp only
    rw [hpredicate, ok_bind, ok_bind, hrows]

variable (hsize : 1 ≤ size)

include hsize

/-- **A page lists the next rows, and its token stands for the rest of them.** -/
lemma cursorList_spec
    (hmarks : resource.Marks ordering (resource.listing table query ordering) rest token) :
    ∃ page, resource.cursorList table query ordering size token = .ok page ∧
      resource.Represents (rest.take size) page.results ∧
      (rest.length ≤ size → page.next = "") ∧
      (size < rest.length → page.next ≠ "" ∧ resource.Marks ordering
        (resource.listing table query ordering) (rest.drop size) page.next) := by
  have hrows : ∀ row ∈ rest.take (size + 1), row ∈ table := by
    intro row hrow
    have hmem : row ∈ resource.listing table query ordering := by
      rcases hmarks with ⟨-, rfl⟩ | ⟨before, last, hsplit, -, -⟩
      · exact mem_of_mem_take hrow
      · rw [hsplit]
        exact mem_append_right _ (mem_cons_of_mem _ (mem_of_mem_take hrow))
    exact mem_of_mem_listing hmem
  have hshort : (rest.take (size + 1)).take size = rest.take size := by
    rw [take_take, min_eq_left (Nat.le_succ size)]
  obtain ⟨page, hpage, hresults, hlast, hmore⟩ := page_spec hsurvives hpos hlength hsize hrows
  rw [hshort] at hresults hmore
  rw [length_take] at hlast hmore
  refine ⟨page, (cursorList_rows hsurvives hpos hlength hsep hmarks).trans hpage, hresults,
    fun hle => hlast (by omega), fun hlt => ?_⟩
  obtain ⟨front, last, hfront, hnext, hdecode⟩ := hmore (by omega)
  refine ⟨hnext, .inr ?_⟩
  have hrest : rest = front ++ last :: rest.drop size := by
    conv_lhs => rw [← take_append_drop size rest, hfront]
    simp
  rcases hmarks with ⟨-, rfl⟩ | ⟨before, last', hsplit, -, -⟩
  · exact ⟨front, last, hrest, hnext, hdecode⟩
  · refine ⟨before ++ last' :: front, last, ?_, hnext, hdecode⟩
    rw [hsplit]
    conv_lhs => rw [hrest]
    simp

end Page

/-- Following `Next` from a token until it is absent. -/
inductive Resource.Traversal (resource : Resource α V) (table : List α) (query : α → Bool)
    (ordering : List String) (size : ℕ) : String → List (Collection V) → Prop
  | last {token : String} {page : Collection V}
      (hpage : resource.cursorList table query ordering size token = .ok page)
      (hnext : page.next = "") : Traversal resource table query ordering size token [page]
  | more {token : String} {page : Collection V} {pages : List (Collection V)}
      (hpage : resource.cursorList table query ordering size token = .ok page)
      (hnext : page.next ≠ "")
      (hrest : Traversal resource table query ordering size page.next pages) :
      Traversal resource table query ordering size token (page :: pages)

/-- A traversal is determined by where it starts. -/
lemma Resource.Traversal.unique {pages pages' : List (Collection V)}
    (h : resource.Traversal table query ordering size token pages)
    (h' : resource.Traversal table query ordering size token pages') : pages' = pages := by
  induction h generalizing pages' with
  | last hpage hnext =>
    cases h' with
    | last hpage' _ => rw [Except.ok.inj (hpage.symm.trans hpage')]
    | more hpage' hnext' _ =>
      obtain rfl := Except.ok.inj (hpage.symm.trans hpage')
      exact absurd hnext hnext'
  | more hpage hnext _ ih =>
    cases h' with
    | last hpage' hnext' =>
      obtain rfl := Except.ok.inj (hpage.symm.trans hpage')
      exact absurd hnext' hnext
    | more hpage' _ hrest' =>
      obtain rfl := Except.ok.inj (hpage.symm.trans hpage')
      rw [ih hrest']

/-- The number of pages: one for no rows, and the rounded up quotient otherwise. -/
def pageCount (rows size : ℕ) : ℕ := if rows = 0 then 1 else (rows + size - 1) / size

lemma pageCount_of_le (hsize : 1 ≤ size) (h : rows ≤ size) : pageCount rows size = 1 := by
  unfold pageCount
  split_ifs with hzero
  · rfl
  · exact Nat.div_eq_of_lt_le (by omega) (by omega)

lemma pageCount_of_lt (hsize : 1 ≤ size) (h : size < rows) :
    pageCount rows size = pageCount (rows - size) size + 1 := by
  unfold pageCount
  rw [if_neg (by omega), if_neg (by omega), ← Nat.add_div_right _ hsize]
  congr 1
  omega

/-- The pages from a token on list these rows, and are as many as the rows fill. -/
def Resource.Lists (resource : Resource α V) (table : List α) (query : α → Bool)
    (ordering : List String) (size : ℕ) (token : String) (rows : List α) : Prop :=
  ∃ pages, resource.Traversal table query ordering size token pages ∧
    resource.Represents rows (pages.flatMap Collection.results) ∧
    pages.length = pageCount rows.length size

/-- From a token on, the pages list the rows that are still to be listed. -/
lemma lists_of_marks (hsurvives : resource.Survives table ordering) (hpos : ordering ≠ [])
    (hlength : ordering.length ≤ 16) (hsep : Separates (resource.sortKeys ordering) table)
    (hsize : 1 ≤ size)
    (hmarks : resource.Marks ordering (resource.listing table query ordering) rest token) :
    resource.Lists table query ordering size token rest := by
  -- by induction on the number of rows still to be listed
  induction hn : rest.length using Nat.strong_induction_on generalizing rest token with
  | _ n ih =>
    obtain ⟨page, hpage, hresults, hlast, hmore⟩ :=
      cursorList_spec hsurvives hpos hlength hsep hsize hmarks
    by_cases hshort : rest.length ≤ size
    · refine ⟨[page], .last hpage (hlast hshort), ?_, (pageCount_of_le hsize hshort).symm⟩
      rw [take_of_length_le hshort] at hresults
      simpa using hresults
    · obtain ⟨hnext, hmarks'⟩ := hmore (not_le.mp hshort)
      have hdrop : (rest.drop size).length = rest.length - size := length_drop
      obtain ⟨pages, htraversal, hforall, hcount⟩ := ih _ (by omega) hmarks' rfl
      refine ⟨page :: pages, .more hpage hnext htraversal, ?_, ?_⟩
      · rw [flatMap_cons, ← take_append_drop size rest]
        exact rel_append hresults hforall
      · rw [length_cons, hcount, hdrop, pageCount_of_lt hsize (not_le.mp hshort)]

/-- The primary key of a row. -/
def Resource.primaryKey (resource : Resource α V) (row : α) : List V :=
  resource.filters.schema.pkFields.map fun pk => resource.read row pk.name

omit [LinearOrder V] in
/-- An ordering with the primary key tells rows with distinct primary keys apart. -/
lemma separates_of_primaryKey (hkeys : (table.map resource.primaryKey).Nodup)
    (hpk : ∀ pk ∈ resource.filters.schema.pkFields, pk.name ∈ ordering.map orderName) :
    Separates (resource.sortKeys ordering) table := by
  rw [List.Nodup, pairwise_map] at hkeys
  refine hkeys.imp fun {r s} hne => ?_
  by_contra hsame
  refine hne (map_congr_left fun pk hmem => ?_)
  obtain ⟨order, horder, hname⟩ := mem_map.mp (hpk pk hmem)
  by_contra hdiff
  refine hsame ⟨_, mem_map_of_mem horder, ?_⟩
  rw [hname]
  exact hdiff

omit [LinearOrder V] in
/-- Without a key to order by there is at most one row. -/
lemma length_le_one_of_nil (hsep : Separates (resource.sortKeys []) table) : table.length ≤ 1 := by
  rcases table with _ | ⟨r, _ | ⟨s, rest⟩⟩
  · exact Nat.zero_le _
  · exact le_rfl
  · obtain ⟨key, hkey, -⟩ := (pairwise_cons.mp hsep).1 s mem_cons_self
    exact absurd hkey not_mem_nil

/-- Rows that fit a page are listed on one, whatever they are ordered by. -/
lemma lists_of_short (hsurvives : resource.Survives table ordering) (hsize : 1 ≤ size)
    (hshort : (table.filter query).length ≤ size) :
    resource.Lists table query ordering size "" (resource.listing table query ordering) := by
  have hlength : (resource.listing table query ordering).length ≤ size :=
    (perm_orderBy _ _).length_eq.trans_le hshort
  obtain ⟨results, hpage, hresults⟩ := page_of_le hsurvives
    (fun row hrow => mem_of_mem_listing hrow) hlength
  refine ⟨[⟨results, ""⟩], .last ?_ rfl, by simpa using hresults,
    (pageCount_of_le hsize hlength).symm⟩
  rw [cursorList_first, take_of_length_le (by omega)]
  exact hpage

/-- With more than sixteen names to order by there is no page that others follow. -/
lemma not_traversal_of_crowded (hsurvives : resource.Survives table ordering) (hsize : 1 ≤ size)
    (hlength : 16 < ordering.length) (hlong : size < (table.filter query).length)
    (pages : List (Collection V)) : ¬ resource.Traversal table query ordering size "" pages := by
  have hlt : size < ((resource.listing table query ordering).take (size + 1)).length := by
    rw [length_take, (perm_orderBy _ _).length_eq]
    omega
  obtain ⟨results, before, last, -, -, -, hpage⟩ := page_of_lt hsurvives hsize
    (fun row hrow => mem_of_mem_listing (mem_of_mem_take hrow)) hlt
  have hrefused : resource.cursorList table query ordering size "" =
      .error (.text "pagination: invalid pagination parameters") := by
    rw [cursorList_first, hpage, Resource.encodePosition, refuseIf, if_pos]
    · rfl
    · exact .inr (by simpa [Resource.orderValues] using hlength)
  intro h
  cases h with
  | last hok _ => cases hrefused.symm.trans hok
  | more hok _ _ => cases hrefused.symm.trans hok

/-! ## The order of a listing -/

/-- The row `r` is listed before the row `s`: a request orders by the name of a field, or by the
name after a minus sign, downwards. -/
inductive Resource.ListedBefore (resource : Resource α V) (r s : α) : List String → Prop
  | ascending {field : Field} (hfield : field ∈ resource.filters.schema.fields)
      (h : resource.read r field.name < resource.read s field.name) (rest : List String) :
      ListedBefore resource r s (field.name :: rest)
  | descending {field : Field} (hfield : field ∈ resource.filters.schema.fields)
      (h : resource.read s field.name < resource.read r field.name) (rest : List String) :
      ListedBefore resource r s (("-" ++ field.name) :: rest)
  | level {field : Field} (hfield : field ∈ resource.filters.schema.fields) {order : String}
      (horder : order = field.name ∨ order = "-" ++ field.name)
      (h : resource.read r field.name = resource.read s field.name) {rest : List String}
      (hrest : ListedBefore resource r s rest) : ListedBefore resource r s (order :: rest)

/-- A name to order by is a plain one, or one after a minus sign. -/
lemma eq_orderName (order : String) :
    isDescending order = false ∧ order = orderName order ∨
      isDescending order = true ∧ order = "-" ++ orderName order := by
  unfold isDescending orderName
  split
  · next rest heq =>
    refine .inr ⟨rfl, String.ext ?_⟩
    simp [heq]
  · exact .inl ⟨rfl, rfl⟩

/-- Rows that are sorted by the keys are listed in the order of the names. -/
lemma listedBefore_of_follows {r s : α}
    (hnamed : ∀ o ∈ ordering, ∃ field ∈ resource.filters.schema.fields, field.name = orderName o)
    (h : follows (resource.sortKeys ordering) r s = true) :
    resource.ListedBefore r s ordering := by
  induction ordering with
  | nil => cases h
  | cons order rest ih =>
    obtain ⟨⟨field, hfield, hname⟩, hrest⟩ := forall_mem_cons.mp hnamed
    rw [sortKeys_cons, follows_cons, ← hname] at h
    rcases eq_orderName order with ⟨hup, horder⟩ | ⟨hdown, horder⟩ <;> rw [← hname] at horder
    · rcases h with hlt | ⟨heq, hlater⟩
      · rw [horder]
        exact .ascending hfield (by simpa [SortKey.lt, hup] using hlt) rest
      · exact .level hfield (.inl horder) heq (ih hrest hlater)
    · rcases h with hlt | ⟨heq, hlater⟩
      · rw [horder]
        exact .descending hfield (by simpa [SortKey.lt, hdown] using hlt) rest
      · exact .level hfield (.inr horder) heq (ih hrest hlater)

/-- **Keyset pagination visits every row once, up to sixteen keys.** For every table with distinct
primary keys, every filter, every ordering that a resource with a cursor accepts and every page
size: following `Next` from the first page lists the represented matching rows, each once and in the
ordering, in as many pages as the rows fill, exactly when the names to order by are at most sixteen
or the rows fit one page. Distinct entries of the primary key are never too many.
Source: `cursor.go` `Resource.cursorList`, `cursorPredicate`; `filters.go` `totalOrder`. -/
theorem traversal_visits_every_row_iff (immutableFields : List String) (exposed : String → String)
    (hcursor : resource.filters.newCursor immutableFields exposed = .ok resource.fields)
    (order : List String) (isPublic : Bool)
    (hdefaults : isPublic = false → order = resource.filters.defaults)
    (hordering : resource.filters.totalOrder order isPublic = .ok ordering)
    (hkeys : (table.map resource.primaryKey).Nodup)
    (hsurvives : resource.Survives table ordering) (hsize : 1 ≤ size) (query : α → Bool) :
    ((∃ (pages : List (Collection V)) (rows : List α),
      (∀ l, resource.Traversal table query ordering size "" l ↔ l = pages) ∧
      rows.Perm (table.filter query) ∧
      (rows.Pairwise fun r s => resource.ListedBefore r s ordering) ∧
      List.Forall₂ (fun row values => resource.represent row = .ok values) rows
        (pages.flatMap Collection.results) ∧
      pages.length = pageCount rows.length size) ↔
      resource.filters.keyCount order ≤ 16 ∨ (table.filter query).length ≤ size) ∧
    ((resource.filters.schema.pkFields.map fun key => key.name).Nodup →
      resource.filters.keyCount order ≤ 16) := by
  have hordered := FilterBackend.totalOrder_spec hordering hdefaults
  refine ⟨⟨?_, fun hfits => ?_⟩, hordered.keyCount_le hcursor⟩
  · rintro ⟨pages, -, htraversal, -⟩
    by_contra hnot
    rw [not_or, not_le, not_le, ← hordered.length] at hnot
    exact not_traversal_of_crowded hsurvives hsize hnot.1 hnot.2 pages ((htraversal pages).mpr rfl)
  · have hsep := separates_of_primaryKey hkeys hordered.key
    have hlists : resource.Lists table query ordering size ""
        (resource.listing table query ordering) := by
      rcases hfits with hfew | hshort
      · rcases eq_or_ne ordering [] with rfl | hpos
        · exact lists_of_short hsurvives hsize
            ((length_filter_le _ _).trans ((length_le_one_of_nil hsep).trans hsize))
        · exact lists_of_marks hsurvives hpos (hordered.length.trans_le hfew) hsep hsize
            (.inl ⟨rfl, rfl⟩)
      · exact lists_of_short hsurvives hsize hshort
    obtain ⟨pages, htraversal, hresults, hcount⟩ := hlists
    refine ⟨pages, resource.listing table query ordering, fun l => ?_, perm_orderBy _ _, ?_,
      hresults, hcount⟩
    · exact ⟨fun hl => htraversal.unique hl, fun hl => hl ▸ htraversal⟩
    · exact (pairwise_orderBy (hsep.sublist filter_sublist)).imp
        fun {r s} h => listedBefore_of_follows hordered.named h

/-! ## A resource of integers -/

/-- The primary key of the sample rows. -/
def numberField : Field := { name := "id", kind := .known .integer, primaryKey := true }

/-- A model with one integer. -/
def numberSchema : Schema :=
  { appLabel := "demo", name := "Number", table := "number", fields := [numberField] }

/-- A resource whose rows are integers, listed by their value under any number of names. -/
def numbers (filters : FilterBackend) (names : ℕ) : Resource ℕ ℕ where
  filters := filters
  fields := [("id", "id")]
  read row _ := row
  represent row := .ok fun _ => some row
  encode values := .ok (String.ofList (replicate (values.headD 0 + 1) 'i'))
  decode token := some (replicate names (token.toList.length - 1))
  clean _ value := some value

lemma survives_numbers (filters : FilterBackend) (table : List ℕ) (ordering : List String) :
    (numbers filters ordering.length).Survives table ordering where
  represented row _ := ⟨fun _ => some row, rfl, fun _ _ => rfl⟩
  encoded row _ := by
    refine ⟨_, rfl, fun hempty => ?_, ?_⟩
    · have hlist := congrArg String.toList hempty
      simp at hlist
    · cases ordering <;>
        simp [numbers, Resource.orderValues, map_const', replicate_succ]
  cleaned _ _ _ _ := rfl

/-- Integers that are listed downwards. -/
def downwards : FilterBackend := ⟨numberSchema, ["id"], ["-id"], by decide +kernel⟩

/-- The rows 1, 2 and 3 are listed as 3, 2, 1 on two pages of two. -/
theorem numbers_are_listed :
    ∃ pages, (numbers downwards 1).Traversal [1, 2, 3] (fun _ => true) ["-id"] 2 "" pages ∧
      pages.flatMap Collection.results = [3, 2, 1].map (fun row _ => some row) ∧
      pages.length = 2 := by
  have hiff := traversal_visits_every_row_iff ["id"] id (by decide +kernel) ["-id"] false
    (fun _ => rfl) (by decide +kernel) (by decide +kernel)
    (survives_numbers downwards [1, 2, 3] ["-id"]) (by norm_num : 1 ≤ 2)
  obtain ⟨pages, rows, hpages, hperm, hsorted, hresults, hcount⟩ :=
    (hiff (fun _ => true)).1.mpr (.inl (by decide +kernel))
  have hdown : rows.Pairwise (fun r s => s < r) := by
    refine hsorted.imp fun {r s} h => ?_
    generalize hordering : ["-id"] = ordering at h
    cases h with
    | ascending hfield _ _ =>
      obtain rfl := mem_singleton.mp hfield
      exact absurd (cons.inj hordering).1 (by decide)
    | descending _ h _ => exact h
    | level _ _ _ hrest =>
      obtain rfl := (cons.inj hordering).2
      cases hrest
  obtain rfl : rows = [3, 2, 1] := by
    refine List.Perm.eq_of_pairwise ?_ hdown (by decide) (hperm.trans (by decide))
    intro r s _ _ hrs hsr
    exact absurd hrs hsr.asymm
  refine ⟨pages, (hpages pages).mpr rfl, ?_, hcount⟩
  have heq : List.Forall₂ Eq ([3, 2, 1].map fun row (_ : String) => some row)
      (pages.flatMap Collection.results) :=
    forall₂_map_left_iff.mpr (hresults.imp fun _ _ h => Except.ok.inj h)
  rw [forall₂_eq_eq_eq] at heq
  exact heq.symm

/-- The primary key that is declared seventeen times. -/
def repeated : FilterBackend :=
  ⟨{ numberSchema with primaryKey := replicate 17 "id" }, ["id"], [], by decide +kernel⟩

/-- A resource whose primary key is declared seventeen times is accepted, and has no page that
another one follows. -/
theorem repeated_key_is_refused :
    repeated.newCursor ["id"] id = .ok (numbers repeated 17).fields ∧
      repeated.totalOrder [] false = .ok (replicate 17 "id") ∧
      ([1, 2, 3].map (numbers repeated 17).primaryKey).Nodup ∧
      (numbers repeated 17).Survives [1, 2, 3] (replicate 17 "id") ∧
      ∀ pages, ¬ (numbers repeated 17).Traversal [1, 2, 3] (fun _ => true) (replicate 17 "id")
        2 "" pages := by
  have hsurvives := survives_numbers repeated [1, 2, 3] (replicate 17 "id")
  exact ⟨by decide +kernel, by decide +kernel, by decide +kernel, hsurvives,
    not_traversal_of_crowded hsurvives (by norm_num) (by decide) (by decide)⟩

end Traversal

end Gogo.Api

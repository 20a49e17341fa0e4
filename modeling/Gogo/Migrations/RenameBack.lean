import Gogo.Migrations.Soundness

/-!
# A field rename and its inverse

`rename_state.go`, `renameFieldState` and the propagation of `schemaState` to the other models,
followed by the rename from the new name back to the old one.

* `Relation.NamesOnly`, `Field.NamesOnly`, `Schema.NamesOnlyFields` — what refers to a field of a
  model by name refers to one that it has.
* `renamedSchema_back` — **a name moves back exactly when it has moved**: each of the places that
  name a field holds the old name or a name that is not the new one.
* `rename_is_invertible` — **renaming back succeeds and restores the model, and with it every
  other model of a state.** What comes back is the snapshot that `Clone` takes.
-/

namespace Gogo.Models

/-! ## References to fields -/

/-- The relation names fields of `model` only among `names`. -/
def Relation.NamesOnly (model : String) (names : List String) (r : Relation) : Prop :=
  (r.target = model → ∀ name ∈ r.targetFields.toList, name ∈ names) ∧
    (r.through = model → ∀ name ∈ r.throughFields.toList, name ∈ names)

/-- An optional reference to one of `names`. -/
def NamesOne (names : List String) (name : String) : Prop := name = "" ∨ name ∈ names

/-- The references of a field to the fields of its own model. -/
structure Field.NamesOnly (model : String) (names : List String) (f : Field) : Prop where
  uniqueForDate : NamesOne names f.uniqueForDate
  uniqueForMonth : NamesOne names f.uniqueForMonth
  uniqueForYear : NamesOne names f.uniqueForYear
  relation : ∀ r, f.relation = some r → r.NamesOnly model names

end Gogo.Models

namespace Gogo.Migrations

open List Gogo.Lib Gogo.Models

/-- The references of a schema that `Schema.Validate` does not check. -/
structure NamesOnlyFields (s : Schema) : Prop where
  fields : ∀ f ∈ s.fields, f.NamesOnly s.key s.fieldNames
  ordering : ∀ name ∈ s.ordering, trimMinus name ∈ s.fieldNames
  parentLink : NamesOne s.fieldNames s.parentLink

section Names

variable {old new name : String} {names : List String}

/-- A name other than the new one comes back. -/
lemma renameName_back (h : name ≠ new) : renameName new old (renameName old new name) = name := by
  unfold renameName
  by_cases hold : name = old
  · rw [if_pos hold, if_pos rfl, hold]
  · rw [if_neg hold, if_neg h]

lemma map_renameName_back {l : List String} (h : ∀ name ∈ l, name ≠ new) :
    (l.map (renameName old new)).map (renameName new old) = l := by
  rw [List.map_map]
  exact map_congr_left (fun name hname => renameName_back (h name hname)) |>.trans
    (map_id l)

lemma slice_map_renameName_back {l : Slice String} (h : ∀ name ∈ l.toList, name ≠ new) :
    (l.map (renameName old new)).map (renameName new old) = l := by
  cases l with
  | nil => rfl
  | of elems => exact congrArg Slice.of (map_renameName_back h)

lemma ne_of_namesOne (h : NamesOne names name) (hempty : new ≠ "") (hnew : new ∉ names) :
    name ≠ new := by
  rintro rfl
  exact h.elim hempty hnew

lemma validIdentifier_ne_empty (h : validIdentifier name = true) : name ≠ "" := by
  rintro rfl
  cases h

/-- An identifier does not start with a sign. -/
lemma trimMinus_identifier (h : validIdentifier name = true) : trimMinus name = name := by
  unfold trimMinus
  split
  · next rest hlist =>
      unfold validIdentifier at h
      rw [hlist] at h
      cases h
  · rfl

lemma trimMinus_minus (name : String) : trimMinus ("-" ++ name) = name := by
  unfold trimMinus
  rw [String.toList_append]
  show String.ofList name.toList = name
  exact String.ofList_toList

variable {term : String}

/-- An ordering term with a given name is the name, with a sign or without. -/
lemma eq_of_trimMinus_eq (h : trimMinus term = name) : term = name ∨ term = "-" ++ name := by
  unfold trimMinus at h
  split at h
  · next rest hlist =>
      right
      apply String.toList_injective
      rw [hlist, ← h, String.toList_append]
      show '-' :: rest = '-' :: (String.ofList rest).toList
      rw [String.toList_ofList]
  · exact .inl h

lemma trimSuffix_append (front name : String) : trimSuffix (front ++ name) name = front := by
  unfold trimSuffix
  rw [String.toList_append, if_pos (isSuffixOf_iff_suffix.mpr (suffix_append _ _)),
    length_append, Nat.add_sub_cancel, take_left]
  exact String.ofList_toList

/-- The term of a field that is renamed keeps its sign. -/
lemma renameInOrdering_of_eq {front : String} (h : trimMinus (front ++ old) = old) :
    renameInOrdering old new (front ++ old) = front ++ new := by
  unfold renameInOrdering
  rw [if_pos h, trimSuffix_append]

lemma renameInOrdering_back (hnew : validIdentifier new = true) (h : trimMinus term ≠ new) :
    renameInOrdering new old (renameInOrdering old new term) = term := by
  by_cases hterm : trimMinus term = old
  · rcases eq_of_trimMinus_eq hterm with rfl | rfl
    · have hthere : renameInOrdering term new ("" ++ term) = "" ++ new :=
        renameInOrdering_of_eq (by rw [String.empty_append]; exact hterm)
      have hback : renameInOrdering new term ("" ++ new) = "" ++ term :=
        renameInOrdering_of_eq (by rw [String.empty_append]; exact trimMinus_identifier hnew)
      rw [String.empty_append, String.empty_append] at hthere hback
      rw [hthere, hback]
    · rw [renameInOrdering_of_eq (trimMinus_minus old),
        renameInOrdering_of_eq (trimMinus_minus new)]
  · have hthere : renameInOrdering old new term = term := by
      unfold renameInOrdering
      rw [if_neg hterm]
    rw [hthere]
    unfold renameInOrdering
    rw [if_neg h]

end Names

/-! ## Schemas -/

section Schemas

variable {model old new : String} {names : List String} {s : Schema}

lemma slice_if_back {p : Prop} [Decidable p] {l : Slice String}
    (h : p → ∀ name ∈ l.toList, name ≠ new) :
    (if p then (if p then l.map (renameName old new) else l).map (renameName new old)
      else if p then l.map (renameName old new) else l) = l := by
  split_ifs with hp
  · exact slice_map_renameName_back (h hp)
  · rfl

variable {r : Relation} {f : Field}

lemma relation_back (h : r.NamesOnly model names) (hnew : new ∉ names) :
    renameRelationFieldReferences model new old (renameRelationFieldReferences model old new r) =
      r := by
  have htarget : r.target = model → ∀ name ∈ r.targetFields.toList, name ≠ new :=
    fun htarget name hname heq => hnew (heq ▸ h.1 htarget name hname)
  have hthrough : r.through = model → ∀ name ∈ r.throughFields.toList, name ≠ new :=
    fun hthrough name hname heq => hnew (heq ▸ h.2 hthrough name hname)
  unfold renameRelationFieldReferences
  simp only [slice_if_back htarget, slice_if_back hthrough]

lemma relation_clone_rename (r : Relation) :
    (renameRelationFieldReferences model old new r).clone =
      renameRelationFieldReferences model old new r.clone := by
  unfold renameRelationFieldReferences Relation.clone
  simp only [apply_ite Slice.clone, Slice.clone_map]

lemma relationNamesOnly_clone (h : r.NamesOnly model names) : r.clone.NamesOnly model names := by
  refine ⟨fun htarget name hname => ?_, fun hthrough name hname => ?_⟩
  · exact h.1 htarget name (Slice.toList_clone r.targetFields ▸ hname)
  · exact h.2 hthrough name (Slice.toList_clone r.throughFields ▸ hname)

lemma map_relation_back {r : Option Relation} (h : ∀ r', r = some r' → r'.NamesOnly model names)
    (hnew : new ∉ names) :
    (r.map (renameRelationFieldReferences model old new)).map
      (renameRelationFieldReferences model new old) = r := by
  rcases r with _ | r
  · rfl
  · exact congrArg some (relation_back (h r rfl) hnew)

lemma field_back (h : f.NamesOnly model names) (hempty : new ≠ "") (hname : f.name ∈ names)
    (hnew : new ∉ names) : renameInField model new old (renameInField model old new f) = f := by
  unfold renameInField
  simp only [renameName_back (fun heq => hnew (heq ▸ hname) : f.name ≠ new),
    renameName_back (ne_of_namesOne h.uniqueForDate hempty hnew),
    renameName_back (ne_of_namesOne h.uniqueForMonth hempty hnew),
    renameName_back (ne_of_namesOne h.uniqueForYear hempty hnew), map_relation_back h.relation hnew]

lemma relation_map_clone (r : Option Relation) :
    (r.map (renameRelationFieldReferences model old new)).map Relation.clone =
      (r.map Relation.clone).map (renameRelationFieldReferences model old new) := by
  rcases r with _ | r
  · rfl
  · exact congrArg some (relation_clone_rename r)

lemma field_clone_rename (f : Field) :
    (renameInField model old new f).clone = renameInField model old new f.clone := by
  unfold renameInField Field.clone FieldAttrs.clone
  simp only [relation_map_clone]

lemma fieldNamesOnly_clone (h : f.NamesOnly model names) : f.clone.NamesOnly model names := by
  refine ⟨h.uniqueForDate, h.uniqueForMonth, h.uniqueForYear, fun r hr => ?_⟩
  obtain ⟨r', hr', rfl⟩ := Option.map_eq_some_iff.mp hr
  exact relationNamesOnly_clone (h.relation r' hr')

lemma names_of_validate {c : Constraint} {seen indexNames : List String} {table : String}
    (h : c.validate seen indexNames table = .ok ()) : ∀ name ∈ c.fields, name ∈ seen := by
  obtain ⟨_, hnames, -⟩ := bind_eq_ok.mp h
  exact (validateNames_eq_ok_iff _ _ _ _).mp hnames

/-- **A name moves back exactly when it has moved.** -/
theorem renamedSchema_back (hs : s.Valid) (hnames : NamesOnlyFields s)
    (hvalid : validIdentifier new = true) (hnew : new ∉ s.fieldNames) :
    renamedSchema (renamedSchema s old new) new old = s.clone := by
  have hne : ∀ {name}, name ∈ s.fieldNames → name ≠ new := fun hname heq => hnew (heq ▸ hname)
  have hempty : new ≠ "" := validIdentifier_ne_empty hvalid
  have hfields : ((renamedSchema s old new).fields.map Field.clone).map
      (renameInField s.key new old) = s.fields.map Field.clone := by
    unfold renamedSchema Schema.clone
    simp only [List.map_map]
    refine map_congr_left fun f hf => ?_
    rw [Function.comp_apply, Function.comp_apply, Function.comp_apply, field_clone_rename,
      Field.clone_clone]
    exact field_back (fieldNamesOnly_clone (hnames.fields f hf)) hempty
      (Schema.mem_fieldNames.mpr ⟨f, hf, rfl⟩) hnew
  have hindexes : ((renamedSchema s old new).indexes.map fun i =>
      { i with
        fields := i.fields.map (renameName new old)
        includeFields := i.includeFields.map (renameName new old) }) = s.indexes := by
    unfold renamedSchema
    simp only [List.map_map]
    refine (map_congr_left fun i hi => ?_).trans (map_id _)
    have hall := (hs.indexes i hi).fields
    simp only [Function.comp_apply, id]
    rw [map_renameName_back fun name hname => hne (hall name (mem_append_left _ hname)),
      map_renameName_back fun name hname => hne (hall name (mem_append_right _ hname))]
  have hconstraints : ((renamedSchema s old new).constraints.map fun c =>
      { c with fields := c.fields.map (renameName new old) }) = s.constraints := by
    unfold renamedSchema
    simp only [List.map_map]
    refine (map_congr_left fun c hc => ?_).trans (map_id _)
    have hall := names_of_validate (hs.constraints c hc).options
    simp only [Function.comp_apply, id]
    rw [map_renameName_back fun name hname => hne (hall name hname)]
  have hordering : (s.ordering.map (renameInOrdering old new)).map (renameInOrdering new old) =
      s.ordering := by
    rw [List.map_map]
    refine (map_congr_left fun term hterm => ?_).trans (map_id _)
    exact renameInOrdering_back hvalid (hne (hnames.ordering term hterm))
  have hprimary : (s.primaryKey.map (renameName old new)).map (renameName new old) =
      s.primaryKey := map_renameName_back fun name hname => hne (hs.primaryKey name hname)
  have hparent : renameName new old (renameName old new s.parentLink) = s.parentLink :=
    renameName_back (ne_of_namesOne hnames.parentLink hempty hnew)
  show ({ (renamedSchema s old new).clone with
    fields := ((renamedSchema s old new).fields.map Field.clone).map (renameInField s.key new old)
    primaryKey := (s.primaryKey.map (renameName old new)).map (renameName new old)
    indexes := (renamedSchema s old new).indexes.map fun i =>
      { i with
        fields := i.fields.map (renameName new old)
        includeFields := i.includeFields.map (renameName new old) }
    constraints := (renamedSchema s old new).constraints.map fun c =>
      { c with fields := c.fields.map (renameName new old) }
    ordering := (s.ordering.map (renameInOrdering old new)).map (renameInOrdering new old)
    parentLink := renameName new old (renameName old new s.parentLink) } : Schema) = s.clone
  rw [hfields, hindexes, hconstraints, hordering, hprimary, hparent]
  rfl

lemma renameFieldState_eq_ok_iff {s' : Schema} : renameFieldState s old new = .ok s' ↔
    (old ∈ s.fieldNames ∧ new ∉ s.fieldNames ∧ validIdentifier new = true ∧
      (s.indexes.any fun i => i.condition != "") = false ∧
      (s.constraints.any fun c => c.condition != "" || c.expression != "") = false) ∧
      renamedSchema s old new = s' := by
  have hold : (s.field? old).isNone = false ↔ old ∈ s.fieldNames := by
    rw [← Schema.field?_isSome]
    cases s.field? old <;> simp
  have hnew : (s.field? new).isSome = false ↔ new ∉ s.fieldNames := by
    rw [← Schema.field?_isSome]
    cases s.field? new <;> simp
  simp only [renameFieldState, bind_eq_ok, failIf_eq_ok, Except.ok.injEq, Bool.or_eq_false_iff,
    Bool.not_eq_false', hold, hnew]
  constructor
  · rintro ⟨_, hold, _, ⟨hnew, hvalid⟩, _, hindexes, _, hconstraints, heq⟩
    exact ⟨⟨hold, hnew, hvalid, hindexes, hconstraints⟩, heq⟩
  · rintro ⟨⟨hold, hnew, hvalid, hindexes, hconstraints⟩, heq⟩
    exact ⟨(), hold, (), ⟨hnew, hvalid⟩, (), hindexes, (), hconstraints, heq⟩

/-- **Renaming back succeeds and returns the snapshot of the schema.** -/
theorem renameFieldState_back {renamed : Schema} (hs : s.Valid) (hnames : NamesOnlyFields s)
    (h : renameFieldState s old new = .ok renamed) :
    renameFieldState renamed new old = .ok s.clone := by
  obtain ⟨⟨hold, hnew, hvalid, hindexes, hconstraints⟩, rfl⟩ := renameFieldState_eq_ok_iff.mp h
  have hne : old ≠ new := fun heq => hnew (heq ▸ hold)
  refine renameFieldState_eq_ok_iff.mpr ⟨⟨?_, ?_, ?_, ?_, ?_⟩,
    renamedSchema_back hs hnames hvalid hnew⟩
  · rw [fieldNames_renamedSchema]
    refine mem_map.mpr ⟨old, hold, ?_⟩
    unfold renameName
    rw [if_pos rfl]
  · rw [fieldNames_renamedSchema]
    intro hmem
    obtain ⟨name, -, hname⟩ := mem_map.mp hmem
    unfold renameName at hname
    split_ifs at hname with heq
    · exact hne hname.symm
    · exact heq hname
  · obtain ⟨f, hf, rfl⟩ := Schema.mem_fieldNames.mp hold
    exact (hs.fields f hf).name
  · unfold renamedSchema
    rw [any_map]
    exact hindexes
  · unfold renamedSchema
    rw [any_map]
    exact hconstraints

/-! ## Other models -/

/-- A field of another model follows the rename. -/
def followInField (model old new : String) (f : Field) : Field :=
  { f with relation := f.relation.map (renameRelationFieldReferences model old new) }

lemma followInField_clone (f : Field) :
    (followInField model old new f).clone = followInField model old new f.clone := by
  unfold followInField Field.clone FieldAttrs.clone
  simp only [relation_map_clone]

lemma followInField_back (h : ∀ r, f.relation = some r → r.NamesOnly model names)
    (hnew : new ∉ names) : followInField model new old (followInField model old new f) = f := by
  unfold followInField
  simp only [map_relation_back h hnew]

lemma renameReferences_eq (other : Schema) : renameReferences model old new other =
    { other with fields := other.fields.map fun f => followInField model old new f.clone } := by
  unfold renameReferences Schema.clone
  simp only [List.map_map]
  rfl

/-- The relations of another model are as they were. -/
lemma renameReferences_back {other : Schema}
    (h : ∀ f ∈ other.fields, ∀ r, f.relation = some r → r.NamesOnly model names)
    (hnew : new ∉ names) :
    renameReferences model new old (renameReferences model old new other) = other.clone := by
  rw [renameReferences_eq, renameReferences_eq]
  unfold Schema.clone
  have hfields : (other.fields.map fun f => followInField model old new f.clone).map
      (fun f => followInField model new old f.clone) = other.fields.map Field.clone := by
    rw [List.map_map]
    refine map_congr_left fun f hf => ?_
    rw [Function.comp_apply, followInField_clone, Field.clone_clone]
    refine followInField_back (fun r hr => ?_) hnew
    obtain ⟨r', hr', rfl⟩ := Option.map_eq_some_iff.mp hr
    exact relationNamesOnly_clone (h f hf r' hr')
  rw [hfields]

end Schemas

/-! ## The state -/

section States

variable {state state' : State} {op : Operation} {s : Schema}

/-- A rename of a field of a model in the state: the model is renamed and the others follow. -/
lemma applyOperation_rename_iff (hkind : op.kind = .known .renameField)
    (hs : state.get? op.key = some s) :
    applyOperation state op = .ok state' ↔ ∃ renamed,
      renameFieldState s op.oldName op.name = .ok renamed ∧
        followRename op.key op.oldName op.name (state.set op.key renamed) = state' := by
  have his : op.is .renameField = true := by
    unfold Operation.is
    rw [hkind]
    rfl
  have hmodel : Operation.onModel (state.get? op.key) op =
      (renameFieldState s op.oldName op.name).map some := by
    unfold Operation.onModel
    rw [hkind, hs]
    rfl
  unfold applyOperation
  rw [bind_eq_ok]
  simp only [keyedStep_eq_ok, hmodel, his, if_true, Except.ok.injEq]
  rcases renameFieldState s op.oldName op.name with e | renamed
  · refine iff_of_false ?_ ?_
    · rintro ⟨next, ⟨v, hv, -⟩, -⟩
      cases hv
    · rintro ⟨renamed, hr, -⟩
      cases hr
  · constructor
    · rintro ⟨next, ⟨v, hv, rfl⟩, rfl⟩
      cases hv
      exact ⟨renamed, rfl, rfl⟩
    · rintro ⟨renamed', hr, rfl⟩
      cases hr
      exact ⟨_, ⟨some renamed, rfl, rfl⟩, rfl⟩

lemma get?_rename (key old new : String) (renamed : Schema) (k : String) :
    (followRename key old new (state.set key renamed)).get? k =
      if k = key then some renamed else (state.get? k).map (renameReferences key old new) := by
  rw [get?_followRename, FinMap.get?_set]
  by_cases hk : k = key
  · subst hk
    rw [if_pos rfl, if_pos rfl, Option.map_some, if_pos rfl]
  · rw [if_neg hk, if_neg (Ne.symm hk)]
    simp only [if_neg hk]

end States

/-- **A field rename has an inverse.** For a valid schema whose references name fields that it has,
a rename that succeeds is undone by the rename back, which succeeds and returns the snapshot of the
schema. In a state where the relations of the other models name fields that the model has, the two
operations give back every model. -/
theorem rename_is_invertible :
    (∀ (s renamed : Schema) (old new : String), s.validate = .ok () → NamesOnlyFields s →
      renameFieldState s old new = .ok renamed →
        renameFieldState renamed new old = .ok s.clone) ∧
    (∀ (state state' : State) (there back : Operation) (s : Schema),
      there.kind = .known .renameField → back.kind = .known .renameField →
      back.key = there.key → back.oldName = there.name → back.name = there.oldName →
      state.get? there.key = some s → s.validate = .ok () → NamesOnlyFields s →
      (∀ k other, k ≠ there.key → state.get? k = some other → ∀ f ∈ other.fields, ∀ r,
        f.relation = some r → r.NamesOnly there.key s.fieldNames) →
      applyOperation state there = .ok state' →
        ∃ state'', applyOperation state' back = .ok state'' ∧
          ∀ k, state''.get? k = (state.get? k).map Schema.clone) := by
  refine ⟨fun s renamed old new hs hnames h => ?_, ?_⟩
  · exact renameFieldState_back (s.validate_eq_ok_iff.mp hs) hnames h
  · intro state state' there back s hthere hback hkey hold hname hget hs hnames hothers h
    obtain ⟨renamed, hrenamed, rfl⟩ := (applyOperation_rename_iff hthere hget).mp h
    have hnew : there.name ∉ s.fieldNames := (renameFieldState_eq_ok_iff.mp hrenamed).1.2.1
    have hget' : (followRename there.key there.oldName there.name
        (state.set there.key renamed)).get? back.key = some renamed := by
      rw [get?_rename, if_pos hkey]
    have hrestored : renameFieldState renamed back.oldName back.name = .ok s.clone := by
      rw [hold, hname]
      exact renameFieldState_back (s.validate_eq_ok_iff.mp hs) hnames hrenamed
    refine ⟨_, (applyOperation_rename_iff hback hget').mpr ⟨s.clone, hrestored, rfl⟩, fun k => ?_⟩
    rw [get?_rename, hkey, hold, hname]
    by_cases hk : k = there.key
    · rw [if_pos hk, hk, hget]
      rfl
    · rw [if_neg hk, get?_rename, if_neg hk, Option.map_map]
      rcases hother : state.get? k with _ | other
      · rfl
      · exact congrArg some (renameReferences_back (hothers k other hk hother) hnew)

/-! ## Samples -/

/-- A model with two fields, an index and a signed ordering. -/
def titledItem : Schema :=
  { appLabel := "shop", name := "Item", ordering := ["-title"]
    fields := [{ name := "id", kind := .known .bigAuto, primaryKey := true },
      { name := "title", kind := .known .char, maxLength := 20 }]
    indexes := [{ name := "item_title", fields := ["title"] }] }

/-- A model with a relation to a field of the other one. -/
def orderOf (reference : String) : Schema :=
  { appLabel := "shop", name := "Order"
    fields := [{ name := "id", kind := .known .bigAuto, primaryKey := true },
      { name := "item", kind := .known .foreignKey,
        relation := some { target := "shop.Item", targetFields := .of [reference] } }] }

/-- A state with both models. -/
def shopState (reference : String) : State :=
  FinMap.ofList [("shop.Item", titledItem), ("shop.Order", orderOf reference)]

lemma titledItem_namesOnlyFields : NamesOnlyFields titledItem := by
  have hfield : ∀ f ∈ titledItem.fields, f.uniqueForDate = "" ∧ f.uniqueForMonth = "" ∧
      f.uniqueForYear = "" ∧ f.relation = none := by
    intro f hf
    rcases mem_cons.mp hf with rfl | hf
    · exact ⟨rfl, rfl, rfl, rfl⟩
    · obtain rfl := mem_singleton.mp hf
      exact ⟨rfl, rfl, rfl, rfl⟩
  refine ⟨fun f hf => ?_, by decide, .inl rfl⟩
  obtain ⟨hdate, hmonth, hyear, hrelation⟩ := hfield f hf
  refine ⟨.inl hdate, .inl hmonth, .inl hyear, fun r hr => ?_⟩
  rw [hrelation] at hr
  cases hr

theorem rename_is_invertible_item :
    ∃ state' state'',
      applyOperation (shopState "title") (renameField titledItem "title" "name") = .ok state' ∧
      applyOperation state' (renameField titledItem "name" "title") = .ok state'' ∧
      ∀ k, state''.get? k = ((shopState "title").get? k).map Schema.clone := by
  have hothers : ∀ k other, k ≠ "shop.Item" → (shopState "title").get? k = some other →
      ∀ f ∈ other.fields, ∀ r, f.relation = some r →
        r.NamesOnly "shop.Item" titledItem.fieldNames := by
    intro k other hk hother f hf r hr
    rcases mem_cons.mp (FinMap.mem_of_get?_ofList hother) with heq | hmem
    · exact absurd (congrArg Prod.fst heq) hk
    obtain ⟨-, rfl⟩ := Prod.mk.inj (mem_singleton.mp hmem)
    rcases mem_cons.mp hf with rfl | hf
    · cases hr
    · obtain rfl := mem_singleton.mp hf
      cases hr
      exact ⟨fun _ => by decide, fun _ => by decide⟩
  have hthere : ∃ state', applyOperation (shopState "title")
      (renameField titledItem "title" "name") = .ok state' := ⟨_, rfl⟩
  obtain ⟨state', hstate'⟩ := hthere
  obtain ⟨state'', hback, hall⟩ := rename_is_invertible.2 (shopState "title") state'
    (renameField titledItem "title" "name") (renameField titledItem "name" "title") titledItem
    rfl rfl rfl rfl rfl rfl rfl titledItem_namesOnlyFields hothers hstate'
  exact ⟨state', state'', hstate', hback, hall⟩

/-- The fields that the relations of a model refer to. -/
def references (s : Schema) : List (Option (Slice String)) :=
  s.fields.map fun f => f.relation.map Relation.targetFields

/-- The model with an allocated empty slice in each field. -/
def allocatedItem : Schema :=
  { titledItem with fields := titledItem.fields.map fun f => { f with choices := .of [] } }

/-- Which fields of a model have a nil slice of choices. -/
def nilChoices (s : Schema) : List Bool := s.fields.map fun f => f.choices matches .nil

/-- **A reference to a field that does not exist is taken for the renamed field**, and an allocated
empty slice comes back as nil. -/
theorem dangling_reference_is_captured :
    (titledItem.validate = .ok () ∧ NamesOnlyFields titledItem ∧
      ((shopState "name").get? "shop.Order").map references = some [none, some (.of ["name"])] ∧
      ((applyOperation (shopState "name") (renameField titledItem "title" "name") >>= fun state' =>
        applyOperation state' (renameField titledItem "name" "title")).map fun state'' =>
          (state''.get? "shop.Order").map references) =
        .ok (some [none, some (.of ["title"])])) ∧
      allocatedItem.validate = .ok () ∧ nilChoices allocatedItem = [false, false] ∧
      ((renameFieldState allocatedItem "title" "name" >>= fun renamed =>
        renameFieldState renamed "name" "title").map nilChoices) = .ok [true, true] :=
  ⟨⟨rfl, titledItem_namesOnlyFields, rfl, rfl⟩, rfl, rfl, rfl⟩

end Gogo.Migrations

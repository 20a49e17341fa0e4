import Gogo.Models.Schema
import Gogo.Lib.Run

/-!
# What `Schema.Validate` accepts

`Schema.Validate` walks a schema with accumulators and stops at the first error. What it accepts
does not depend on the order of the walk:

* `Schema.Valid` — the accepted schemas, as a conjunction of order-free conditions.
* `validate_eq_ok_iff` — **`Schema.Validate` accepts exactly the valid schemas.**
* `Schema.valid_clone_iff` — a snapshot is judged like its original.
* `Schema.Valid.of_covers` — a schema whose fields are those of a valid schema in some order,
  with some of its indexes and some of its constraints, is valid. This is what makes the states
  between two valid schemas replayable.
-/

namespace Gogo.Models

open List Gogo.Lib

@[simp] lemma failIf_eq_ok {bad : Bool} {err : Err} {u : Unit} :
    failIf bad err = .ok u ↔ bad = false := by
  cases bad <;> simp [failIf]

/-! ## Fields -/

/-- The names of the fields, in order. -/
def Schema.fieldNames (s : Schema) : List String := s.fields.map fun f => f.name

/-- The columns of the fields, in order. -/
def Schema.columns (s : Schema) : List String := s.fields.map fun f => f.dbColumn

/-- The names of the indexes, in order. -/
def Schema.indexNames (s : Schema) : List String := s.indexes.map fun i => i.name

/-- The names of the constraints, in order. -/
def Schema.constraintNames (s : Schema) : List String := s.constraints.map fun c => c.name

/-- What `Schema.Validate` asks of one field on its own. -/
structure Field.Valid (f : Field) : Prop where
  name : validIdentifier f.name = true
  column : validIdentifier f.dbColumn = true
  options : f.validate = .ok ()

/-- What the checks on a field read, apart from its name. -/
def Field.judged (f : Field) : Kind × Int × Int × Int × Int × Bool × String ×
    Option DeletePolicy × Bool × Bool :=
  (f.kind, f.maxLength, f.minLength, f.maxDigits, f.decimalPlaces, f.defaultFunc.isSome,
    f.defaultID, f.relation.map fun r => r.onDelete, f.null, f.elements.isEmpty)

/-- The name of a field only occurs in the error texts. -/
lemma Field.validate_of_judged_eq {f g : Field} (h : g.judged = f.judged)
    (hf : f.validate = .ok ()) : g.validate = .ok () := by
  simp only [Field.judged, Prod.mk.injEq] at h
  obtain ⟨hkind, hmax, hmin, hdigits, hplaces, hfunc, hid, hrel, hnull, helem⟩ := h
  have hnone : g.relation.isNone = f.relation.isNone := by
    rw [← Option.isNone_map (f := fun r : Relation => r.onDelete), hrel, Option.isNone_map]
  have hany : g.relation.any (fun r => r.onDelete == .setNull) =
      f.relation.any (fun r => r.onDelete == .setNull) := by
    have hmap (o : Option Relation) : o.any (fun r => r.onDelete == .setNull) =
        (o.map fun r => r.onDelete).any (· == .setNull) := by
      cases o <;> rfl
    rw [hmap, hrel, ← hmap]
  simp only [Field.validate, bind_eq_ok, failIf_eq_ok] at hf ⊢
  rw [hkind, hmax, hmin, hdigits, hplaces, hfunc, hid, hnone, hany, hnull, helem]
  exact hf

/-- A round of a loop that refuses the names it has seen. -/
lemma fresh_cons_iff {α : Type} (name : α → String) (a : α) (rest : List α)
    (seen : List String) :
    (name a ∉ seen ∧ (rest.map name).Nodup ∧ ∀ b ∈ rest, name b ∉ name a :: seen) ↔
      ((a :: rest).map name).Nodup ∧ ∀ b ∈ a :: rest, name b ∉ seen := by
  rw [forall_mem_cons]
  simp only [map_cons, nodup_cons, mem_map, not_exists, not_and, mem_cons,
    not_or]
  constructor
  · rintro ⟨ha, hnodup, hrest⟩
    exact ⟨⟨fun b hb => (hrest b hb).1, hnodup⟩, ha, fun b hb => (hrest b hb).2⟩
  · rintro ⟨⟨hne, hnodup⟩, ha, hrest⟩
    exact ⟨ha, hnodup, fun b hb => ⟨hne b hb, hrest b hb⟩⟩

lemma validateFields_eq_ok_iff (fields : List Field) (seen columns : List String)
    (u : Unit) :
    validateFields fields seen columns = .ok u ↔
      (∀ f ∈ fields, f.Valid) ∧
      (fields.map fun f => f.name).Nodup ∧ (∀ f ∈ fields, f.name ∉ seen) ∧
      (fields.map fun f => f.dbColumn).Nodup ∧ (∀ f ∈ fields, f.dbColumn ∉ columns) := by
  induction fields generalizing seen columns with
  | nil => simp [validateFields, pure, Except.pure]
  | cons f rest ih =>
    simp only [validateFields, bind_eq_ok, failIf_eq_ok, ih,
      forall_mem_cons (p := Field.Valid)]
    constructor
    · rintro ⟨_, hhead, _, hf, hrest, hnames, hseen, hcolumns, hcols⟩
      simp only [Bool.or_eq_false_iff, Bool.not_eq_false', contains_eq_mem,
        decide_eq_false_iff_not] at hhead
      obtain ⟨⟨⟨hname, hcolumn⟩, hfresh⟩, hfresh'⟩ := hhead
      obtain ⟨hnames, hseen⟩ := (fresh_cons_iff _ f rest seen).mp ⟨hfresh, hnames, hseen⟩
      obtain ⟨hcolumns, hcols⟩ := (fresh_cons_iff _ f rest columns).mp ⟨hfresh', hcolumns, hcols⟩
      exact ⟨⟨⟨hname, hcolumn, hf⟩, hrest⟩, hnames, hseen, hcolumns, hcols⟩
    · rintro ⟨⟨hf, hrest⟩, hnames, hseen, hcolumns, hcols⟩
      obtain ⟨hfresh, hnames, hseen⟩ := (fresh_cons_iff _ f rest seen).mpr ⟨hnames, hseen⟩
      obtain ⟨hfresh', hcolumns, hcols⟩ :=
        (fresh_cons_iff _ f rest columns).mpr ⟨hcolumns, hcols⟩
      refine ⟨(), ?_, (), hf.options, hrest, hnames, hseen, hcolumns, hcols⟩
      simp [hf.name, hf.column, hfresh, hfresh']

/-! ## Names, indexes and constraints -/

@[simp] lemma validateNames_eq_ok_iff (seen : List String) (err : String → Err)
    (names : List String) (u : Unit) :
    validateNames seen err names = .ok u ↔ ∀ name ∈ names, name ∈ seen := by
  induction names with
  | nil => simp [validateNames, pure, Except.pure]
  | cons name rest ih => simp [validateNames, bind_eq_ok, ih]

/-- What `Schema.Validate` asks of one index on its own. -/
structure Index.Valid (seen : List String) (i : Index) : Prop where
  name : validIdentifier i.name = true
  fields : ∀ name ∈ i.fields ++ i.includeFields, name ∈ seen

lemma validateIndexes_eq_ok_iff (seen : List String) (indexes : List Index)
    (names : List String) (u : Unit) :
    validateIndexes seen indexes names = .ok u ↔
      (∀ i ∈ indexes, i.Valid seen) ∧ (indexes.map fun i => i.name).Nodup ∧
      ∀ i ∈ indexes, i.name ∉ names := by
  induction indexes generalizing names with
  | nil => simp [validateIndexes, pure, Except.pure]
  | cons i rest ih =>
    simp only [validateIndexes, bind_eq_ok, failIf_eq_ok, validateNames_eq_ok_iff, ih,
      forall_mem_cons (p := Index.Valid seen)]
    constructor
    · rintro ⟨_, hhead, _, hfields, hrest, hfresh⟩
      simp only [Bool.or_eq_false_iff, Bool.not_eq_false', contains_eq_mem,
        decide_eq_false_iff_not] at hhead
      exact ⟨⟨⟨hhead.1, hfields⟩, hrest⟩, (fresh_cons_iff _ i rest names).mp ⟨hhead.2, hfresh⟩⟩
    · rintro ⟨⟨hi, hrest⟩, hnew⟩
      obtain ⟨hname, hfresh⟩ := (fresh_cons_iff _ i rest names).mpr hnew
      exact ⟨(), by simp [hi.name, hname], (), hi.fields, hrest, hfresh⟩

/-- What `Schema.Validate` asks of one constraint on its own. -/
structure Constraint.Valid (seen indexNames : List String) (table : String) (c : Constraint) :
    Prop where
  name : validIdentifier c.name = true
  options : c.validate seen indexNames table = .ok ()

lemma validateConstraints_eq_ok_iff (seen indexNames : List String) (table : String)
    (constraints : List Constraint) (names : List String) (u : Unit) :
    validateConstraints seen indexNames table constraints names = .ok u ↔
      (∀ c ∈ constraints, c.Valid seen indexNames table) ∧
      (constraints.map fun c => c.name).Nodup ∧ ∀ c ∈ constraints, c.name ∉ names := by
  induction constraints generalizing names with
  | nil => simp [validateConstraints, pure, Except.pure]
  | cons c rest ih =>
    simp only [validateConstraints, bind_eq_ok, failIf_eq_ok, ih,
      forall_mem_cons (p := Constraint.Valid seen indexNames table)]
    constructor
    · rintro ⟨_, hhead, _, hc, hrest, hfresh⟩
      simp only [Bool.or_eq_false_iff, Bool.not_eq_false', contains_eq_mem,
        decide_eq_false_iff_not] at hhead
      exact ⟨⟨⟨hhead.1, hc⟩, hrest⟩, (fresh_cons_iff _ c rest names).mp ⟨hhead.2, hfresh⟩⟩
    · rintro ⟨⟨hc, hrest⟩, hnew⟩
      obtain ⟨hname, hfresh⟩ := (fresh_cons_iff _ c rest names).mpr hnew
      exact ⟨(), by simp [hc.name, hname], (), hc.options, hrest, hfresh⟩

/-- A constraint stays acceptable when fields are added and indexes dropped. -/
lemma Constraint.validate_mono {c : Constraint} {seen seen' indexNames indexNames' : List String}
    {table : String} (hseen : ∀ name ∈ seen, name ∈ seen')
    (hindex : ∀ name ∈ indexNames', name ∈ indexNames)
    (h : c.validate seen indexNames table = .ok ()) :
    c.validate seen' indexNames' table = .ok () := by
  simp only [Constraint.validate, bind_eq_ok, validateNames_eq_ok_iff, failIf_eq_ok] at h ⊢
  obtain ⟨_, hfields, _, hcond, _, hexpr, hkind⟩ := h
  refine ⟨(), fun name hname => hseen name (hfields name hname), (), hcond, (), hexpr, ?_⟩
  split_ifs at hkind ⊢ with hunique hcheck
  · simp only [bind_eq_ok, failIf_eq_ok, Bool.or_eq_false_iff, contains_eq_mem,
      decide_eq_false_iff_not] at hkind ⊢
    obtain ⟨_, hempty, _, hexp, hname, htable⟩ := hkind
    exact ⟨(), hempty, (), hexp, fun hmem => hname (hindex _ hmem), htable⟩
  · exact hkind

/-! ## Schemas -/

/-- The schemas that `Schema.Validate` accepts. -/
structure Schema.Valid (s : Schema) : Prop where
  appLabel : validIdentifier s.appLabel = true
  name : validIdentifier s.name = true
  dbTable : validIdentifier s.dbTable = true
  fields : ∀ f ∈ s.fields, f.Valid
  nodup_fieldNames : s.fieldNames.Nodup
  nodup_columns : s.columns.Nodup
  pkFields : s.abstract = false → s.pkFields ≠ []
  primaryKey : ∀ key ∈ s.primaryKey, key ∈ s.fieldNames
  indexes : ∀ i ∈ s.indexes, i.Valid s.fieldNames
  nodup_indexNames : s.indexNames.Nodup
  constraints : ∀ c ∈ s.constraints, c.Valid s.fieldNames s.indexNames s.dbTable
  nodup_constraintNames : s.constraintNames.Nodup

/-- **`Schema.Validate` accepts exactly the valid schemas.** -/
theorem Schema.validate_eq_ok_iff (s : Schema) : s.validate = .ok () ↔ s.Valid := by
  simp only [Schema.validate, bind_eq_ok, failIf_eq_ok, validateFields_eq_ok_iff,
    validateNames_eq_ok_iff, validateIndexes_eq_ok_iff, validateConstraints_eq_ok_iff]
  constructor
  · rintro ⟨_, hids, _, ⟨hfields, hnames, -, hcolumns, -⟩, _, hpk, _, hkeys, _,
      ⟨hindexes, hindexNames, -⟩, hconstraints, hconstraintNames, -⟩
    simp only [Bool.or_eq_false_iff, Bool.not_eq_false'] at hids
    refine ⟨hids.1.1, hids.1.2, hids.2, hfields, hnames, hcolumns, ?_, hkeys, hindexes,
      hindexNames, hconstraints, hconstraintNames⟩
    intro habstract hempty
    simp [habstract, hempty] at hpk
  · intro h
    refine ⟨(), by simp [h.appLabel, h.name, h.dbTable], (),
      ⟨h.fields, h.nodup_fieldNames, by simp, h.nodup_columns, by simp⟩, (), ?_, (),
      h.primaryKey, (), ⟨h.indexes, h.nodup_indexNames, by simp⟩, h.constraints,
      h.nodup_constraintNames, by simp⟩
    cases habstract : s.abstract with
    | true => rfl
    | false => simp [h.pkFields habstract]

/-! ## Snapshots -/

@[simp] lemma FieldAttrs.clone_name (f : FieldAttrs) : f.clone.name = f.name := rfl

@[simp] lemma Field.clone_name (f : Field) : f.clone.name = f.name := rfl

@[simp] lemma Field.clone_dbColumn (f : Field) : f.clone.dbColumn = f.dbColumn := rfl

@[simp] lemma Field.judged_clone (f : Field) : f.clone.judged = f.judged := by
  cases h : f.relation <;>
    simp [Field.judged, Field.clone, FieldAttrs.clone, Relation.clone, h]

@[simp] lemma Schema.clone_fieldNames (s : Schema) : s.clone.fieldNames = s.fieldNames := by
  simp [Schema.fieldNames, Schema.clone]

@[simp] lemma Schema.clone_key (s : Schema) : s.clone.key = s.key := rfl

/-- What the checks across fields read of one field. -/
def Field.signature (f : Field) : String × String × Bool := (f.name, f.dbColumn, f.primaryKey)

variable {s : Schema} {name : String}

lemma Schema.mem_fieldNames : name ∈ s.fieldNames ↔ ∃ f ∈ s.fields, f.name = name := by
  simp [Schema.fieldNames]

lemma Schema.field?_isSome : (s.field? name).isSome = true ↔ name ∈ s.fieldNames := by
  simp [Schema.field?, Schema.mem_fieldNames]

lemma Schema.pkFields_ne_nil :
    s.pkFields ≠ [] ↔
      (s.primaryKey ≠ [] ∧ ∃ key ∈ s.primaryKey, key ∈ s.fieldNames) ∨
      (s.primaryKey = [] ∧ ∃ f ∈ s.fields, f.primaryKey = true) := by
  by_cases h : s.primaryKey = []
  · simp [Schema.pkFields, h, filter_eq_nil_iff]
  · have hsome (key : String) : s.field? key ≠ none ↔ key ∈ s.fieldNames := by
      rw [← Schema.field?_isSome, Option.isSome_iff_ne_none]
    rw [Schema.pkFields, if_pos h]
    simp only [ne_eq, filterMap_eq_nil_iff, h, not_false_eq_true, true_and, false_and,
      or_false]
    push Not
    exact exists_congr fun key => and_congr_right fun _ => hsome key

section Covers

variable {s t : Schema}

/-- The two schemas have the same fields, up to order, as far as the checks across fields can
tell. -/
def Schema.SameSignatures (s t : Schema) : Prop :=
  (s.fields.map Field.signature).Perm (t.fields.map Field.signature)

lemma Schema.SameSignatures.fieldNames (h : s.SameSignatures t) :
    s.fieldNames.Perm t.fieldNames := by
  have := h.map Prod.fst
  simpa [Schema.fieldNames, Field.signature, Function.comp_def] using this

lemma Schema.SameSignatures.columns (h : s.SameSignatures t) : s.columns.Perm t.columns := by
  have := h.map fun x => x.2.1
  simpa [Schema.columns, Field.signature, Function.comp_def] using this

lemma Schema.SameSignatures.pkFields_ne_nil (h : s.SameSignatures t)
    (hkey : s.primaryKey = t.primaryKey) (ht : t.pkFields ≠ []) : s.pkFields ≠ [] := by
  rw [Schema.pkFields_ne_nil, hkey]
  rcases Schema.pkFields_ne_nil.mp ht with ⟨hne, key, hmem, hname⟩ | ⟨hnil, f, hf, hpk⟩
  · exact .inl ⟨hne, key, hmem, h.fieldNames.mem_iff.mpr hname⟩
  · refine .inr ⟨hnil, ?_⟩
    have hsig : f.signature ∈ s.fields.map Field.signature :=
      h.mem_iff.mpr (mem_map_of_mem hf)
    obtain ⟨g, hg, heq⟩ := mem_map.mp hsig
    simp only [Field.signature, Prod.mk.injEq] at heq
    exact ⟨g, hg, heq.2.2.trans hpk⟩

/-- **A schema with the fields of a valid one, in any order, and some of its indexes and
constraints is valid.** -/
theorem Schema.Valid.of_covers (ht : t.Valid) (hopts : s.toSchemaOptions = t.toSchemaOptions)
    (hsig : s.SameSignatures t) (hfields : ∀ f ∈ s.fields, f.validate = .ok ())
    (hindexes : ∀ i ∈ s.indexes, i ∈ t.indexes) (hindexNames : s.indexNames.Nodup)
    (hconstraints : ∀ c ∈ s.constraints, c ∈ t.constraints)
    (hconstraintNames : s.constraintNames.Nodup) : s.Valid where
  appLabel := hopts ▸ ht.appLabel
  name := hopts ▸ ht.name
  dbTable := hopts ▸ ht.dbTable
  fields := by
    intro f hf
    have hmem : f.signature ∈ t.fields.map Field.signature :=
      hsig.mem_iff.mp (mem_map_of_mem hf)
    obtain ⟨g, hg, heq⟩ := mem_map.mp hmem
    simp only [Field.signature, Prod.mk.injEq] at heq
    exact ⟨heq.1 ▸ (ht.fields g hg).name, heq.2.1 ▸ (ht.fields g hg).column, hfields f hf⟩
  nodup_fieldNames := hsig.fieldNames.nodup_iff.mpr ht.nodup_fieldNames
  nodup_columns := hsig.columns.nodup_iff.mpr ht.nodup_columns
  pkFields habstract := hsig.pkFields_ne_nil (congrArg SchemaOptions.primaryKey hopts)
    (ht.pkFields ((congrArg SchemaOptions.abstract hopts) ▸ habstract))
  primaryKey := by
    intro key hkey
    rw [congrArg SchemaOptions.primaryKey hopts] at hkey
    exact hsig.fieldNames.mem_iff.mpr (ht.primaryKey key hkey)
  indexes := by
    intro i hi
    obtain ⟨hname, hfields⟩ := ht.indexes i (hindexes i hi)
    exact ⟨hname, fun name hmem => hsig.fieldNames.mem_iff.mpr (hfields name hmem)⟩
  nodup_indexNames := hindexNames
  constraints := by
    intro c hc
    obtain ⟨hname, hoptions⟩ := ht.constraints c (hconstraints c hc)
    refine ⟨hname, ?_⟩
    rw [congrArg SchemaOptions.dbTable hopts]
    refine Constraint.validate_mono (fun name => hsig.fieldNames.mem_iff.mpr) ?_ hoptions
    intro name hmem
    obtain ⟨i, hi, rfl⟩ := mem_map.mp hmem
    exact mem_map_of_mem (hindexes i hi)
  nodup_constraintNames := hconstraintNames

end Covers

@[simp] lemma Field.signature_clone (f : Field) : f.clone.signature = f.signature := rfl

lemma Schema.sameSignatures_clone (s : Schema) : s.clone.SameSignatures s := by
  simp [Schema.SameSignatures, Schema.clone, Function.comp_def]

/-- A snapshot is judged like its original. -/
lemma Schema.valid_clone_iff (s : Schema) : s.clone.Valid ↔ s.Valid := by
  constructor
  · intro h
    refine h.of_covers rfl (s.sameSignatures_clone).symm ?_ (fun i hi => hi) h.nodup_indexNames
      (fun c hc => hc) h.nodup_constraintNames
    intro f hf
    exact Field.validate_of_judged_eq f.judged_clone.symm
      (h.fields _ (mem_map_of_mem hf)).options
  · intro h
    refine h.of_covers rfl s.sameSignatures_clone ?_ (fun i hi => hi) h.nodup_indexNames
      (fun c hc => hc) h.nodup_constraintNames
    intro f hf
    obtain ⟨g, hg, rfl⟩ := mem_map.mp hf
    exact Field.validate_of_judged_eq g.judged_clone (h.fields g hg).options

end Gogo.Models

import Gogo.Migrations.Fields

/-!
# Replaying the difference of one model

`detectModel` emits eight segments: removed indexes, removed constraints, added and altered
fields, removed fields, added indexes, added constraints and the two reorderings.

* `Reached s a` — the schema `s` is the schema `a`, its fields in some order and as replayed.
* `detectModel_spec` — **the eight segments replay from the old schema to the new one.** The
  detector validates the schemas in front of the field changes; the ones behind them are valid
  because they hold the fields of a valid schema with some of its indexes and constraints.
-/

namespace Gogo.Migrations

open List Gogo.Lib Gogo.Models

/-- The schema `a`, its fields in some order and as replayed. -/
structure Reached (s a : Schema) : Prop where
  options : s.toSchemaOptions = a.toSchemaOptions
  indexes : s.indexes = a.indexes
  constraints : s.constraints = a.constraints
  fields : Merged s a

variable {s s' a p : Schema} {key : String} {α : Type} {options : DetectOptions}

lemma Reached.of_clone_eq (h : Reached s a) (heq : s'.clone = s.clone) : Reached s' a := by
  obtain ⟨hopts, -, hindexes, hconstraints⟩ := clone_eq_clone_iff.mp heq
  exact ⟨hopts.trans h.options, hindexes.trans h.indexes, hconstraints.trans h.constraints,
    h.fields.of_clone_eq heq⟩

/-! ## Operations of one model -/

lemma AboutModel.append {ops ops' : List Operation} (h : AboutModel key ops)
    (h' : AboutModel key ops') : AboutModel key (ops ++ ops') := by
  intro op hop
  rcases mem_append.mp hop with hop | hop
  · exact h op hop
  · exact h' op hop

lemma aboutModel_map {l : List α} {f : α → Operation}
    (h : ∀ v, (f v).key = key ∧ (f v).is .renameField = false) : AboutModel key (l.map f) := by
  intro op hop
  obtain ⟨v, -, rfl⟩ := mem_map.mp hop
  exact h v

lemma aboutModel_ite {p : Prop} [Decidable p] {op : Operation}
    (h : op.key = key ∧ op.is .renameField = false) : AboutModel key (if p then [] else [op]) := by
  intro op' hop
  split_ifs at hop
  · simp at hop
  · rw [mem_singleton] at hop
    exact hop ▸ h

/-! ## The removals -/

section Parts

variable {α : Type} [DecidableEq α] {part : Part α}
  {apply : Schema → Operation → Except Err Schema} {remove add : Schema → α → Operation}
  {reorder : Schema → List String → List String → Operation} {before after : Schema}

/-- The removals of a part lead to the descriptors that are kept. -/
lemma run_partRemovals (h : PartOps part apply remove add reorder) {s s' : Schema}
    (hget : part.get s = part.get before) (hnames : ((part.get before).map part.name).Nodup)
    (hrun : run apply s (partChanges part remove add reorder before after).remove = .ok s') :
    Replays s (partChanges part remove add reorder before after).remove s' ∧
      s'.clone =
        (part.set (Named.kept part.name (part.get before) (part.get after)) s).clone := by
  have hkept : (part.get before).filter
      (fun v => v ∉ Named.removed part.name (part.get before) (part.get after)) =
      Named.kept part.name (part.get before) (part.get after) := by
    refine filter_congr fun v hv => ?_
    simp [Named.removed, hv]
  have hnodup : (Named.removed part.name (part.get before) (part.get after)).Nodup :=
    (hnames.of_map part.name).filter _
  have hspec := run_removePart h (by rw [hget]; exact hnames) hnodup
    (fun v hv => hget ▸ mem_of_mem_filter hv) hrun
  rw [hget, hkept] at hspec
  exact hspec

end Parts

/-! ## The whole difference -/

/-- A schema with the fields of `a` as replayed is valid with any of its indexes and
constraints. -/
lemma valid_of_merged (ha : a.Valid) (hopts : s.toSchemaOptions = a.toSchemaOptions)
    (hfields : Merged s a) (hindexes : ∀ i ∈ s.indexes, i ∈ a.indexes)
    (hindexNames : s.indexNames.Nodup) (hconstraints : ∀ c ∈ s.constraints, c ∈ a.constraints)
    (hconstraintNames : s.constraintNames.Nodup) : s.Valid :=
  ha.of_covers hopts (hfields.sameSignatures ha.nodup_fieldNames) hfields.valid hindexes
    hindexNames hconstraints hconstraintNames

lemma Merged.of_fields_eq (h : Merged s a) (heq : s'.fields = s.fields) : Merged s' a := by
  refine ⟨?_, ?_, ?_, ?_⟩
  · rw [Schema.fieldNames, heq]
    exact h.nodup_names
  · rw [heq]
    exact h.origin
  · rw [heq]
    exact h.met
  · rw [heq]
    exact h.valid

/-- What is behind the field changes: additions and reorderings, on a schema that has the new
fields and keeps some of the indexes and constraints. -/
lemma replays_additions (ha : a.Valid) (hindexNames : p.indexNames.Nodup)
    (hconstraintNames : p.constraintNames.Nodup) (hopts : s.toSchemaOptions = a.toSchemaOptions)
    (hfields : Merged s a) (hindexes : s.indexes = Named.kept Index.name p.indexes a.indexes)
    (hconstraints : s.constraints = Named.kept Constraint.name p.constraints a.constraints) :
    Replays s
      ((partChanges indexPart removeIndex addIndex reorderIndexes p a).add ++
        (partChanges constraintPart removeConstraint addConstraint reorderConstraints p a).add ++
        (partChanges indexPart removeIndex addIndex reorderIndexes p a).order ++
        (partChanges constraintPart removeConstraint addConstraint reorderConstraints p a).order)
      { s with indexes := a.indexes, constraints := a.constraints } := by
  set added := Named.added Index.name p.indexes a.indexes with hadded
  set added' := Named.added Constraint.name p.constraints a.constraints with hadded'
  have hperm : (s.indexes ++ added).Perm a.indexes := by
    rw [hindexes]
    exact Named.perm_kept_append_added hindexNames ha.nodup_indexNames
  have hperm' : (s.constraints ++ added').Perm a.constraints := by
    rw [hconstraints]
    exact Named.perm_kept_append_added hconstraintNames ha.nodup_constraintNames
  have hnames : ((s.indexes ++ added).map Index.name).Nodup :=
    (hperm.map Index.name).nodup_iff.mpr ha.nodup_indexNames
  have hnames' : ((s.constraints ++ added').map Constraint.name).Nodup :=
    (hperm'.map Constraint.name).nodup_iff.mpr ha.nodup_constraintNames
  -- every schema on the way has the new fields and some of the indexes and constraints
  have hvalid : ∀ (indexes : List Index) (constraints : List Constraint),
      (∀ i ∈ indexes, i ∈ a.indexes) → (indexes.map Index.name).Nodup →
      (∀ c ∈ constraints, c ∈ a.constraints) → (constraints.map Constraint.name).Nodup →
      ({ s with indexes := indexes, constraints := constraints } : Schema).Valid :=
    fun indexes constraints hi hin hc hcn =>
      valid_of_merged ha hopts (hfields.of_fields_eq rfl) hi hin hc hcn
  have hkeptC : ∀ c ∈ s.constraints, c ∈ a.constraints := fun c hc =>
    hperm'.mem_iff.mp (mem_append_left _ hc)
  have hkeptCN : (s.constraints.map Constraint.name).Nodup := by
    rw [map_append] at hnames'
    exact hnames'.of_append_left
  have h₁ : Replays s (added.map (addIndex a)) { s with indexes := s.indexes ++ added } :=
    run_addPart (b := a) (a := a) indexOps
      (fun indexes hi hin => hvalid indexes s.constraints hi hin hkeptC hkeptCN) hnames
      (fun i hi => hperm.mem_iff.mp hi)
  have h₂ : Replays { s with indexes := s.indexes ++ added } (added'.map (addConstraint a))
      { s with indexes := s.indexes ++ added, constraints := s.constraints ++ added' } :=
    run_addPart (b := a) (a := a) (s := { s with indexes := s.indexes ++ added }) constraintOps
      (fun constraints hc hcn => hvalid (s.indexes ++ added) constraints
        (fun i hi => hperm.mem_iff.mp hi) hnames hc hcn)
      hnames' (fun c hc => hperm'.mem_iff.mp hc)
  have h₃ := run_reorderPart (b := a) (a := a)
    (s := { s with indexes := s.indexes ++ added, constraints := s.constraints ++ added' })
    indexOps
    (hvalid a.indexes (s.constraints ++ added') (fun i hi => hi) ha.nodup_indexNames
      (fun c hc => hperm'.mem_iff.mp hc) hnames')
    hnames hperm
  have h₄ := run_reorderPart (b := a) (a := a)
    (s := { s with indexes := a.indexes, constraints := s.constraints ++ added' })
    constraintOps
    (hvalid a.indexes a.constraints (fun i hi => hi) ha.nodup_indexNames (fun c hc => hc)
      ha.nodup_constraintNames)
    hnames' hperm'
  have hall := ((h₁.trans h₂).trans h₃).trans h₄
  simp only [partChanges, indexPart, constraintPart, ← hadded, ← hadded', ← hindexes,
    ← hconstraints]
  exact hall

lemma clone_of_applyPart {part : Part α} {change : List α → Except Err (List α)}
    (h : applyPart part change s = .ok s') : s'.clone = s' := by
  obtain ⟨values, -, -, rfl⟩ := applyPart_eq_ok.mp h
  rw [part.clone_set, Schema.clone_clone]

lemma clone_of_run {ι : Type} {step : Schema → ι → Except Err Schema}
    (hstep : ∀ s i s', step s i = .ok s' → s'.clone = s') {l : List ι} (hs : s.clone = s)
    (h : run step s l = .ok s') : s'.clone = s' :=
  run_invariant (fun t i t' _ ht => hstep t i t' ht) hs h

/-- The index operations of a difference. -/
abbrev indexChanges (p a : Schema) : Changes :=
  partChanges indexPart removeIndex addIndex reorderIndexes p a

/-- The constraint operations of a difference. -/
abbrev constraintChanges (p a : Schema) : Changes :=
  partChanges constraintPart removeConstraint addConstraint reorderConstraints p a

/-- The parts of a difference: `p₂` is the old schema without the removed indexes and
constraints, `p₃` has the new fields next to the old fields that are still to be removed. -/
structure ModelParts (key : String) (options : DetectOptions) (p a : Schema) where
  /-- The schema in front of the field changes. -/
  p₂ : Schema
  /-- The schema behind the added and altered fields. -/
  p₃ : Schema
  changed : List Operation
  removed : List Operation
  oldFields : FinMap String Field
  options_eq : p.toSchemaOptions = a.toSchemaOptions
  nodup_indexNames : p.indexNames.Nodup
  nodup_constraintNames : p.constraintNames.Nodup
  replays : Replays p ((indexChanges p a).remove ++ (constraintChanges p a).remove) p₂
  clone_p₂ : p₂.clone = ({ p with
    indexes := Named.kept Index.name p.indexes a.indexes
    constraints := Named.kept Constraint.name p.constraints a.constraints } : Schema).clone
  /-- The removals take snapshots and nothing else. -/
  cloned : p.clone = p → p₂.clone = p₂
  detectFields_eq : detectFields key a.fields p₂ (fieldsByName p₂) = .ok (changed, p₃, oldFields)
  detectRemoved_eq :
    detectRemovedFields key options oldFields (sortStrings oldFields.keys) p₃ = .ok removed

/-- All operations of a difference. -/
def ModelParts.ops {key : String} {options : DetectOptions} {p a : Schema}
    (d : ModelParts key options p a) : List Operation :=
  (indexChanges p a).remove ++ (constraintChanges p a).remove ++ d.changed ++ d.removed ++
    ((indexChanges p a).add ++ (constraintChanges p a).add ++ (indexChanges p a).order ++
      (constraintChanges p a).order)

lemma detectModel_parts {ops : List Operation} (h : detectModel key options p a = .ok ops) :
    ∃ d : ModelParts key options p a, d.ops = ops := by
  simp only [detectModel, supportedModelStateChange, detectIndexes, detectConstraints,
    bind_eq_ok, failIf_eq_ok, Except.ok.injEq] at h
  obtain ⟨-, hopts, indexes, ⟨-, hindexNames, -, -, rfl⟩, constraints,
    ⟨-, hconstraintNames, rfl⟩, p₁, hp₁, p₂, hp₂, ⟨changed, p₃, oldFields⟩, hchanged, removed,
    hremoved, rfl⟩ := h
  have hindexNames : p.indexNames.Nodup := by simpa using hindexNames
  have hconstraintNames : p.constraintNames.Nodup := by simpa using hconstraintNames
  obtain ⟨hr₁, hclone₁⟩ := run_partRemovals indexOps rfl hindexNames hp₁
  obtain ⟨hopts₁, hfields₁, hindexes₁, hconstraints₁⟩ := clone_eq_clone_iff.mp hclone₁
  have hget₁ : constraintPart.get p₁ = constraintPart.get p := hconstraints₁
  obtain ⟨hr₂, hclone₂⟩ := run_partRemovals constraintOps hget₁ hconstraintNames hp₂
  obtain ⟨hopts₂, hfields₂, hindexes₂, hconstraints₂⟩ := clone_eq_clone_iff.mp hclone₂
  refine ⟨⟨p₂, p₃, changed, removed, oldFields, by simpa using hopts, hindexNames,
    hconstraintNames, hr₁.trans hr₂, ?_, ?_, hchanged, hremoved⟩, ?_⟩
  · rw [clone_eq_clone_iff]
    exact ⟨hopts₂.trans hopts₁, hfields₂.trans hfields₁, hindexes₂.trans hindexes₁, hconstraints₂⟩
  · intro hp
    exact clone_of_run (fun _ _ _ => clone_of_applyPart)
      (clone_of_run (fun _ _ _ => clone_of_applyPart) hp hp₁) hp₂
  · simp only [ModelParts.ops, append_assoc]

namespace ModelParts

variable {key : String} {options : DetectOptions} {p a : Schema}

/-- The removals in front do not touch the fields, except that they take snapshots. -/
lemma fields_p₂ (d : ModelParts key options p a) :
    d.p₂.fields.map Field.clone = p.fields.map Field.clone :=
  (clone_eq_clone_iff.mp d.clone_p₂).2.1

/-- The field loop starts well. -/
lemma start (d : ModelParts key options p a) (hp : p.fieldNames.Nodup)
    (hvalid : ∀ g ∈ p.fields, g.validate = .ok ()) :
    FieldLoop d.p₂.fields [] d.p₂ (fieldsByName d.p₂) := by
  apply FieldLoop.start
  · have hsame : d.p₂.clone.fieldNames = p.clone.fieldNames := by
      simp only [Schema.fieldNames, Schema.clone, d.fields_p₂]
    rw [Schema.clone_fieldNames, Schema.clone_fieldNames] at hsame
    rw [hsame]
    exact hp
  · intro g hg
    have hmem : g.clone ∈ p.fields.map Field.clone := d.fields_p₂ ▸ mem_map_of_mem hg
    obtain ⟨g', hg', heq⟩ := mem_map.mp hmem
    refine Field.validate_of_judged_eq ?_ (hvalid g' hg')
    rw [← Field.judged_clone g, ← heq, Field.judged_clone]

/-- The field loop goes through its rounds. -/
lemma fieldRun (d : ModelParts key options p a) (hp : p.fieldNames.Nodup)
    (hvalid : ∀ g ∈ p.fields, g.validate = .ok ()) (ha : a.Valid) :
    FieldRun d.p₂.fields [] a.fields d.p₂ (fieldsByName d.p₂) d.changed d.p₃ d.oldFields :=
  fieldRun_of_detectFields (d.start hp hvalid) ha.nodup_fieldNames
    (fun f hf => (ha.fields f hf).options) d.detectFields_eq

end ModelParts

/-- **The operations of one model replay from its old schema to its new one.** -/
theorem detectModel_spec {ops : List Operation} (hp : p.fieldNames.Nodup)
    (hvalid : ∀ g ∈ p.fields, g.validate = .ok ()) (ha : a.Valid)
    (h : detectModel key options p a = .ok ops) :
    AboutModel a.key ops ∧ ∃ q, Reached q a ∧ Replays p ops q := by
  obtain ⟨d, rfl⟩ := detectModel_parts h
  obtain ⟨hopts₂, -, hindexes₂, hconstraints₂⟩ := clone_eq_clone_iff.mp d.clone_p₂
  obtain ⟨hloop, hopts₃, hindexes₃, hconstraints₃, habout₃, hr₃⟩ :=
    (d.fieldRun hp hvalid ha).spec
  rw [nil_append] at hloop
  have hold : ∀ name ∈ sortStrings d.oldFields.keys,
      ∃ o, d.oldFields.get? name = some o ∧ o.name = name := by
    intro name hname
    obtain ⟨o, ho⟩ := d.oldFields.mem_keys.mp (mem_sortStrings.mp hname)
    exact ⟨o, ho, ((hloop.remaining name o).mp ho).2.1⟩
  obtain ⟨habout₄, hr₄⟩ := detectRemovedFields_spec hold d.detectRemoved_eq
  have hmerged := hloop.merged
  have hopts₂' : d.p₂.toSchemaOptions = a.toSchemaOptions := hopts₂.trans d.options_eq
  have hoptsAll : d.p₃.toSchemaOptions = a.toSchemaOptions := hopts₃.trans hopts₂'
  have hr₅ := replays_additions ha d.nodup_indexNames d.nodup_constraintNames
    (s := withoutFields d.p₃ (sortStrings d.oldFields.keys)) hoptsAll hmerged
    (hindexes₃.trans hindexes₂) (hconstraints₃.trans hconstraints₂)
  refine ⟨?_, { withoutFields d.p₃ (sortStrings d.oldFields.keys) with
    indexes := a.indexes, constraints := a.constraints },
    ⟨hoptsAll, rfl, rfl, hmerged.of_fields_eq rfl⟩, ?_⟩
  · have hkey : p.key = a.key := congrArg SchemaOptions.key d.options_eq
    have hkey₂ : d.p₂.key = a.key := congrArg SchemaOptions.key hopts₂'
    have hkey₃ : d.p₃.key = a.key := congrArg SchemaOptions.key hoptsAll
    have hremove : AboutModel a.key (indexChanges p a).remove :=
      aboutModel_map fun v => ⟨hkey, rfl⟩
    have hremove' : AboutModel a.key (constraintChanges p a).remove :=
      aboutModel_map fun v => ⟨hkey, rfl⟩
    have hadd : AboutModel a.key (indexChanges p a).add := aboutModel_map fun v => ⟨rfl, rfl⟩
    have hadd' : AboutModel a.key (constraintChanges p a).add := aboutModel_map fun v => ⟨rfl, rfl⟩
    have horder : AboutModel a.key (indexChanges p a).order := by
      apply aboutModel_ite
      exact ⟨rfl, rfl⟩
    have horder' : AboutModel a.key (constraintChanges p a).order := by
      apply aboutModel_ite
      exact ⟨rfl, rfl⟩
    unfold ModelParts.ops
    exact (((hremove.append hremove').append (hkey₂ ▸ habout₃)).append (hkey₃ ▸ habout₄)).append
      (((hadd.append hadd').append horder).append horder')
  · exact ((d.replays.trans hr₃).trans hr₄).trans hr₅

end Gogo.Migrations

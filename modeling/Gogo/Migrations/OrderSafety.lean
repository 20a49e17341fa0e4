import Gogo.Migrations.Detect

/-!
# What the order of detected operations is safe for

`orderDetectedOperations` seen from the database: which operations a new foreign key needs, which
operations take away what an old foreign key is bound to, and the order that respects both.

* `Introduces`, `Provides` — an operation puts a constrained relation into a table; an operation
  gives the target of a relation its table, its key fields or the uniqueness of its key.
* `Bound`, `Takes`, `RemovesRelation` — a constrained relation of the old models; an operation
  that takes away what it is bound to; an operation that removes the relation itself.
* `SafeOrder` — an order of the detected operations that keeps each model's operations in
  sequence, puts the renames first and respects both kinds of dependency.
* `detect_order_safe` — **what `Detect` returns is the detected operations in a safe order, and it
  fails when a relation that loses its target is retained or no safe order exists.**

Models without storage of their own (unmanaged, proxy, abstract) neither provide nor take away a
table, so nothing waits for them; a deferrable unique constraint cannot back a foreign key.
-/

namespace Gogo.Migrations

open List Gogo.Lib Gogo.Models

/-! ## Dependencies on the target of a relation -/

/-- The operation is about an unconditional, immediate uniqueness over exactly these fields. The
two kinds say whether it is added or removed. -/
def UniqueOver (indexKind constraintKind : KnownOperation) (op : Operation)
    (keys : List String) : Prop :=
  keys ≠ [] ∧
    ((op.is indexKind = true ∧ op.index.unique = true ∧ op.index.condition = "" ∧
        op.index.fields.Perm keys) ∨
      (op.is constraintKind = true ∧ ∃ c, op.constraint = some c ∧
        equalFold c.kind "unique" = true ∧ c.condition = "" ∧ c.deferrable = false ∧
        c.fields.Perm keys))

/-- The operation puts the constrained relation `f` into a table. -/
def Introduces (op : Operation) (f : Field) : Prop :=
  constrainedRelation f = true ∧
    ((op.is .createModel = true ∧ createsModelStorage op.schema = true ∧ f ∈ op.schema.fields) ∨
      (op.is .addField = true ∧ op.field = f))

/-- The operation gives its model the table, a key field or the uniqueness that a relation to
`keys` needs. -/
def Provides (op : Operation) (keys : List String) : Prop :=
  (op.is .createModel = true ∧ createsModelStorage op.schema = true) ∨
    ((op.is .addField = true ∨ op.is .alterField = true) ∧ op.field.name ∈ keys) ∨
    (createsModelStorage op.schema = true ∧ UniqueOver .addIndex .addConstraint op keys)

/-- The operation takes from its model the table, a key field or the uniqueness that a relation
to `keys` is bound to. -/
def Takes (op : Operation) (keys : List String) : Prop :=
  (op.is .deleteModel = true ∧ createsModelStorage op.schema = true) ∨
    (op.is .removeField = true ∧ op.field.name ∈ keys) ∨
    (createsModelStorage op.schema = true ∧ UniqueOver .removeIndex .removeConstraint op keys)

/-- A constrained relation of the old models. Abstract and proxy models have no table for it. -/
def Bound (before : State) (owner : String) (f : Field) (target : String) : Prop :=
  constrainedRelation f = true ∧ (relationOf f).target = target ∧
    ∃ schema, before.get? owner = some schema ∧ schema.abstract = false ∧
      schema.proxy = false ∧ f ∈ schema.fields

/-- The operation removes the relation `f` of `owner` from the database. -/
def RemovesRelation (op : Operation) (owner : String) (f : Field) : Prop :=
  op.key = owner ∧
    ((op.is .deleteModel = true ∧ createsModelStorage op.schema = true) ∨
      (op.is .removeField = true ∧ op.field.name = f.name))

/-- The fields of the target that a relation refers to, in a state. -/
def keysIn (σ : State) (f : Field) : List String :=
  relationKeys ((σ.get? (relationOf f).target).getD {}) f

/-- Some operation takes away what a relation is bound to, and no operation removes the
relation. -/
def Retained (operations : List Operation) (before : State) : Prop :=
  ∃ j < operations.length, ∃ owner f, Bound before owner f (opAt operations j).key ∧
    Takes (opAt operations j) (keysIn before f) ∧
    ∀ i < operations.length, ¬ RemovesRelation (opAt operations i) owner f

/-- An order of the positions that is safe to execute. -/
structure SafeOrder (operations : List Operation) (before after : State) (order : List ℕ) :
    Prop where
  /-- Every operation stands in the order once. -/
  perm : order.Perm (List.range operations.length)
  /-- The operations of one model keep their order. -/
  models : ∀ i j, i < j → j < operations.length →
    (opAt operations i).key = (opAt operations j).key → Before order i j
  /-- The renames come before everything else. -/
  renames : ∀ i j, i < operations.length → j < operations.length →
    (opAt operations i).is .renameField = true → (opAt operations j).is .renameField = false →
      Before order i j
  /-- A new relation comes after what it needs on its target. -/
  introduced : ∀ i j f, i < operations.length → j < operations.length → i ≠ j →
    Introduces (opAt operations j) f → (opAt operations i).key = (relationOf f).target →
      Provides (opAt operations i) (keysIn after f) → Before order i j
  /-- What an old relation is bound to goes after the relation, or with it. -/
  taken : ∀ j owner f, j < operations.length → Bound before owner f (opAt operations j).key →
    Takes (opAt operations j) (keysIn before f) →
      ∃ i < operations.length, RemovesRelation (opAt operations i) owner f ∧
        (i = j ∨ Before order i j)

/-! ## The tests of the source -/

lemma sameKeyFields_iff {a b : List String} : sameKeyFields a b = true ↔ a.Perm b := by
  unfold sameKeyFields
  rw [beq_iff_eq]
  constructor
  · intro h
    exact (perm_sortStrings a).symm.trans (h ▸ perm_sortStrings b)
  · exact sortStrings_eq_of_perm

variable {op : Operation} {keys : List String} {f : Field} {owner : String}

lemma Operation.is_iff {kind : KnownOperation} : op.is kind = true ↔ op.kind = .known kind := by
  unfold Operation.is
  exact beq_iff_eq

/-- `uniqueOperationFields` finds the fields of a uniqueness that is added or removed. -/
lemma uniqueOver_fields {indexKind constraintKind : KnownOperation}
    (hindex : indexKind = .addIndex ∨ indexKind = .removeIndex)
    (hconstraint : constraintKind = .addConstraint ∨ constraintKind = .removeConstraint)
    (h : UniqueOver indexKind constraintKind op keys) :
    (op.kind = .known indexKind ∨ op.kind = .known constraintKind) ∧
      (uniqueOperationFields op).isEmpty = false ∧
      sameKeyFields (uniqueOperationFields op) keys = true := by
  unfold UniqueOver at h
  simp only [Operation.is_iff] at h
  obtain ⟨hne, h⟩ := h
  have hfields : ∀ fields, uniqueOperationFields op = fields → fields.Perm keys →
      (uniqueOperationFields op).isEmpty = false ∧
        sameKeyFields (uniqueOperationFields op) keys = true := by
    rintro fields rfl hperm
    refine ⟨?_, sameKeyFields_iff.mpr hperm⟩
    rw [Bool.eq_false_iff, ne_eq, List.isEmpty_iff]
    exact fun hnil => hne (by simpa [hnil] using hperm.symm)
  rcases h with ⟨hkind, hunique, hcondition, hperm⟩ |
    ⟨hkind, c, hc, hunique, hcondition, hdefer, hperm⟩
  · refine ⟨.inl hkind, hfields op.index.fields ?_ hperm⟩
    rcases hindex with rfl | rfl <;>
      simp [uniqueOperationFields, Operation.is, hkind, hunique, hcondition]
  · refine ⟨.inr hkind, hfields c.fields ?_ hperm⟩
    rcases hconstraint with rfl | rfl <;>
      simp [uniqueOperationFields, Operation.is, hkind, hunique, hcondition, hc, hdefer]

lemma providesKeys_of_provides (h : Provides op keys) : providesKeys keys op = true := by
  unfold Provides at h
  simp only [Operation.is_iff] at h
  unfold providesKeys
  rcases h with ⟨hkind, hstorage⟩ | ⟨hkind, hname⟩ | ⟨hstorage, hunique⟩
  · rw [hkind]
    exact hstorage
  · rcases hkind with hkind | hkind <;> rw [hkind] <;> exact contains_iff_mem.mpr hname
  · obtain ⟨hkind, hnonempty, hsame⟩ := uniqueOver_fields (.inl rfl) (.inl rfl) hunique
    rcases hkind with hkind | hkind <;> rw [hkind] <;> simp [hstorage, hnonempty, hsame]

lemma affects_of_takes (h : Takes op keys) : removes op = true ∧ affects op keys = true := by
  unfold Takes at h
  simp only [Operation.is_iff] at h
  unfold removes affects
  rcases h with ⟨hkind, hstorage⟩ | ⟨hkind, hname⟩ | ⟨hstorage, hunique⟩
  · simp [uniqueOperationFields, Operation.is, hkind, hstorage]
  · simp [uniqueOperationFields, Operation.is, hkind, hname]
  · obtain ⟨hkind, hnonempty, hsame⟩ := uniqueOver_fields (.inr rfl) (.inr rfl) hunique
    rw [hnonempty, hsame]
    rcases hkind with hkind | hkind <;> simp [Operation.is, hkind, hstorage]

lemma mem_addedFields (h : Introduces op f) : f ∈ (addedFields op).filter constrainedRelation := by
  obtain ⟨hconstrained, h⟩ := h
  refine mem_filter.mpr ⟨?_, hconstrained⟩
  unfold addedFields
  rcases h with ⟨hkind, hstorage, hf⟩ | ⟨hkind, rfl⟩
  · rw [if_pos hkind, if_pos hstorage]
    exact hf
  · have hnot : op.is .createModel ≠ true := by
      rw [Operation.is_iff] at hkind
      simp [Operation.is, hkind]
    rw [if_neg hnot, if_pos hkind]
    exact mem_singleton_self _

lemma mem_inbound {before : State} {target : String} (h : Bound before owner f target) :
    (owner, f) ∈ inbound before target := by
  obtain ⟨hconstrained, htarget, schema, hget, habstract, hproxy, hf⟩ := h
  refine mem_flatMap.mpr ⟨owner, mem_sortStrings.mpr (before.mem_keys.mpr ⟨schema, hget⟩), ?_⟩
  simp only [hget, habstract, hproxy]
  refine mem_map.mpr ⟨f, mem_filter.mpr ⟨hf, ?_⟩, rfl⟩
  simp [hconstrained, htarget]

lemma relationRemoval_spec {operations : List Operation} {i : ℕ}
    (h : relationRemoval operations owner f = some i) :
    i < operations.length ∧ RemovesRelation (opAt operations i) owner f := by
  unfold relationRemoval at h
  split at h
  · rename_i removal hremoval
    obtain rfl := Option.some.inj h
    obtain ⟨hlast, hstorage⟩ := Option.filter_eq_some_iff.mp hremoval
    obtain ⟨hlt, htest⟩ := mem_positions.mp (mem_of_getLast? hlast)
    rw [Bool.and_eq_true, beq_iff_eq] at htest
    exact ⟨hlt, htest.1, .inl ⟨htest.2, hstorage⟩⟩
  · obtain ⟨hlt, htest⟩ := mem_positions.mp (mem_of_getLast? h)
    rw [Bool.and_eq_true, Bool.and_eq_true, beq_iff_eq, beq_iff_eq] at htest
    exact ⟨hlt, htest.1.1, .inr ⟨htest.1.2, htest.2⟩⟩

/-! ## Every link is followed -/

section Links

variable {operations : List Operation} {before after : State} {edges : List (ℕ × ℕ)}
  {order : List ℕ}

variable {i j : ℕ} {f : Field}

/-- A link of an operation is respected by every topological order. -/
lemma before_of_link (h : dependencyEdges operations before after = .ok edges)
    (horder : IsTopological operations.length edges order) {links : List (ℕ × ℕ)}
    (hj : j < operations.length) (hlinks : operationLinks operations before after j = .ok links)
    (hmem : (i, j) ∈ links) : i = j ∨ Before order i j := by
  by_cases hij : i = j
  · exact .inl hij
  · refine .inr (horder.forward i j ((mem_dependencyEdges h).mpr ⟨hij, ?_⟩))
    exact .inr (.inr (.inr ⟨links, hj, hlinks, hmem⟩))

/-- When the graph is built, every operation has its links: those of each relation it introduces
and those of each relation it affects. -/
lemma operationLinks_of_edges (h : dependencyEdges operations before after = .ok edges)
    (hj : j < operations.length) :
    ∃ links new old, operationLinks operations before after j = .ok links ∧
      ((addedFields (opAt operations j)).filter constrainedRelation).mapM
        (relationLinks operations after (opAt operations j)) = .ok new ∧
      removalLinks operations before (opAt operations j) = .ok old ∧
      links = (new.flatten ++ old).map fun i => (i, j) := by
  simp only [dependencyEdges, bind_eq_ok, Except.ok.injEq] at h
  obtain ⟨all, hall, -⟩ := h
  obtain ⟨links, -, hlinks⟩ := exists_of_mapM_eq_ok hall (mem_range.mpr hj)
  have hparts := hlinks
  simp only [operationLinks, bind_eq_ok, Except.ok.injEq] at hparts
  obtain ⟨new, hnew, old, hold, heq⟩ := hparts
  exact ⟨links, new, old, hlinks, hnew, hold, heq.symm⟩

lemma relationLinks_eq {found : List ℕ} (h : relationLinks operations after op f = .ok found) :
    found = (modelOps operations (relationOf f).target).filter fun i =>
      providesKeys (keysIn after f) (opAt operations i) := by
  unfold relationLinks at h
  obtain ⟨-, -, h⟩ := bind_eq_ok.mp h
  rcases hget : after.get? (relationOf f).target with _ | schema
  · simp only [hget, bind_eq_ok, Except.ok.injEq] at h
    obtain ⟨-, -, rfl⟩ := h
    unfold keysIn
    rw [hget]
  · simp only [hget, bind_eq_ok, Except.ok.injEq] at h
    obtain ⟨-, -, -, -, rfl⟩ := h
    unfold keysIn
    rw [hget]

section

variable (h : dependencyEdges operations before after = .ok edges)
  (horder : IsTopological operations.length edges order)

include h horder

lemma introduced_before (hi : i < operations.length) (hj : j < operations.length) (hij : i ≠ j)
    (hnew : Introduces (opAt operations j) f)
    (htarget : (opAt operations i).key = (relationOf f).target)
    (hprovides : Provides (opAt operations i) (keysIn after f)) : Before order i j := by
  obtain ⟨links, new, old, hlinks, hmapM, -, rfl⟩ := operationLinks_of_edges h hj
  obtain ⟨found, hfound, hrelation⟩ := exists_of_mapM_eq_ok hmapM (mem_addedFields hnew)
  have hmem : i ∈ found := by
    rw [relationLinks_eq hrelation]
    refine mem_filter.mpr ⟨mem_positions.mpr ⟨hi, by simpa using htarget⟩, ?_⟩
    exact providesKeys_of_provides hprovides
  refine (before_of_link h horder hj hlinks (mem_map.mpr ⟨i, ?_, rfl⟩)).resolve_left hij
  exact mem_append_left _ (mem_flatten.mpr ⟨found, hfound, hmem⟩)

lemma taken_after (hj : j < operations.length)
    (hbound : Bound before owner f (opAt operations j).key)
    (htakes : Takes (opAt operations j) (keysIn before f)) :
    ∃ i < operations.length, RemovesRelation (opAt operations i) owner f ∧
      (i = j ∨ Before order i j) := by
  obtain ⟨links, new, old, hlinks, -, hold, rfl⟩ := operationLinks_of_edges h hj
  obtain ⟨hremoves, haffects⟩ := affects_of_takes htakes
  have hmem : (owner, f) ∈ affectedRelations before (opAt operations j) := by
    unfold affectedRelations
    rw [if_pos hremoves]
    refine mem_filter.mpr ⟨mem_inbound hbound, ?_⟩
    unfold keysIn at haffects
    rw [hbound.2.1] at haffects
    exact haffects
  unfold removalLinks at hold
  obtain ⟨i, hi, hremoval⟩ := exists_of_mapM_eq_ok hold hmem
  rw [orFail_eq_ok] at hremoval
  obtain ⟨hlt, hrelation⟩ := relationRemoval_spec hremoval
  refine ⟨i, hlt, hrelation, before_of_link h horder hj hlinks (mem_map.mpr ⟨i, ?_, rfl⟩)⟩
  exact mem_append_right _ hi

lemma safeOrder_of_isTopological : SafeOrder operations before after order where
  perm := horder.perm
  models _ _ hlt hj hkey := model_before h horder hlt hj hkey
  renames _ _ hi hj hrename hnot := rename_before h horder (mem_positions.mpr ⟨hi, hrename⟩) hj hnot
  introduced _ _ _ hi hj hij hnew htarget hprovides :=
    introduced_before h horder hi hj hij hnew htarget hprovides
  taken _ _ _ hj hbound htakes := taken_after h horder hj hbound htakes

end

/-- A retained relation admits no safe order. -/
lemma SafeOrder.not_retained (h : SafeOrder operations before after order) :
    ¬ Retained operations before := by
  rintro ⟨j, hj, owner, f, hbound, htakes, hnone⟩
  obtain ⟨i, hi, hremoves, -⟩ := h.taken j owner f hj hbound htakes
  exact hnone i hi hremoves

end Links

/-! ## The order that is returned -/

/-- **What `Detect` returns is the detected operations in a safe order.** When a relation that
loses its target is retained, or when no safe order exists, `Detect` fails. -/
theorem detect_order_safe {before after : List Schema} {options : DetectOptions}
    {detected : List Operation} {old : State}
    (h : detectOperations before after options = .ok (detected, old)) :
    (∀ ops, detect before after options = .ok ops →
      ∃ order, SafeOrder detected old (stateOf after) order ∧ ops = order.map (opAt detected)) ∧
    (Retained detected old ∨ ¬ (∃ order, SafeOrder detected old (stateOf after) order) →
      ∃ e, detect before after options = .error e) := by
  have hsafe : ∀ ops, detect before after options = .ok ops →
      ∃ order, SafeOrder detected old (stateOf after) order ∧ ops = order.map (opAt detected) := by
    intro ops hops
    unfold detect at hops
    rw [h] at hops
    obtain ⟨edges, order, hedges, htop, rfl⟩ := topological_of_order hops
    exact ⟨order, safeOrder_of_isTopological hedges htop, rfl⟩
  refine ⟨hsafe, fun hbad => ?_⟩
  rcases hdetect : detect before after options with e | ops
  · exact ⟨e, rfl⟩
  · obtain ⟨order, horder, -⟩ := hsafe ops hdetect
    rcases hbad with hretained | hnone
    · exact absurd hretained horder.not_retained
    · exact absurd ⟨order, horder⟩ hnone

/-- A model with an automatic key. -/
def parentSchema : Schema :=
  { appLabel := "tests", name := "ZParent",
    fields := [{ name := "id", kind := .known .bigAuto, primaryKey := true }] }

/-- A model with a foreign key to it. -/
def childSchema : Schema :=
  { appLabel := "tests", name := "AChild",
    fields := [{ name := "id", kind := .known .bigAuto, primaryKey := true },
      { name := "parent", kind := .known .foreignKey,
        relation := some { target := "tests.ZParent" } }] }

theorem detect_order_safe_new_models :
    ∃ detected old ops order,
      detectOperations [] [childSchema, parentSchema] {} = .ok (detected, old) ∧
        detect [] [childSchema, parentSchema] {} = .ok ops ∧
        SafeOrder detected old (stateOf [childSchema, parentSchema]) order ∧
        ops = order.map (opAt detected) ∧
        ops.map (fun op => op.key) = ["tests.ZParent", "tests.AChild"] := by
  have hrun : (do
      let found ← detectOperations [] [childSchema, parentSchema] {}
      let ops ← detect [] [childSchema, parentSchema] {}
      return (found.1.length, ops.map fun op => op.key) : Except Err (ℕ × List String)) =
        .ok (2, ["tests.ZParent", "tests.AChild"]) := by
    decide +kernel
  obtain ⟨⟨detected, old⟩, hdetected, hrun⟩ := bind_eq_ok.mp hrun
  obtain ⟨ops, hops, hkeys⟩ := bind_eq_ok.mp hrun
  obtain ⟨order, horder, heq⟩ := (detect_order_safe hdetected).1 ops hops
  exact ⟨detected, old, ops, order, hdetected, hops, horder, heq,
    (Prod.mk.injEq _ _ _ _).mp (Except.ok.inj hkeys) |>.2⟩

/-- The table of an unmanaged model is not created, so a foreign key to it does not wait for the
operation that records the model. -/
theorem detect_unmanaged_target_created_last :
    ∃ owner target f,
      detect [] [childSchema, { parentSchema with unmanaged := true }] {} = .ok [owner, target] ∧
        owner.is .createModel = true ∧ createsModelStorage owner.schema = true ∧
        f ∈ owner.schema.fields ∧ constrainedRelation f = true ∧
        target.is .createModel = true ∧ target.key = (relationOf f).target := by
  refine ⟨createModel childSchema, createModel { parentSchema with unmanaged := true },
    { name := "parent", kind := .known .foreignKey, relation := some { target := "tests.ZParent" } },
    rfl, rfl, rfl, ?_, rfl, rfl, rfl⟩
  exact mem_cons_of_mem _ mem_cons_self

end Gogo.Migrations

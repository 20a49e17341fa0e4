import Gogo.Migrations.State
import Gogo.Lib.Topological

/-!
# The order of detected operations

`orderDetectedOperations` of `core/migrations/dependencies.go`. The operations are the vertices
of a dependency graph, by their position in the detected list:

* the operations of one model in sequence (`modelEdges`), the field renames in sequence
  (`renameEdges`) and before everything else (`afterRenameEdges`);
* what a new foreign key needs on its target (`relationLinks`);
* what a removal on a target has to wait for (`removalLinks`).

The source fills maps from keys to positions while it walks the list; here the positions of the
operations that satisfy a test are read off the list (`positions`), and a map that is overwritten
holds the last of them. Edges are kept without loops and repetitions, as `link` does.
-/

namespace Gogo.Migrations

open List Gogo.Lib Gogo.Models

/-! ## Relations and keys -/

/-- Source: `dependencies.go` `constrainedRelation`. -/
def constrainedRelation (f : Field) : Bool :=
  (f.kind == .known .foreignKey || f.kind == .known .oneToOne) &&
    f.relation.any fun r => !r.noConstraint

/-- Source: `dependencies.go` `createsModelStorage`. -/
def createsModelStorage (s : Schema) : Bool := !s.unmanaged && !s.proxy && !s.abstract

/-- The relation of a field that has one. -/
def relationOf (f : Field) : Relation := f.relation.getD {}

/-- Source: `dependencies.go` `relationKeys`. -/
def relationKeys (schema : Schema) (f : Field) : List String :=
  if (relationOf f).targetFields.toList ≠ [] then (relationOf f).targetFields.toList
  else schema.pkFields.map fun key => key.name

/-- Source: `dependencies.go` `sameKeyFields`. -/
def sameKeyFields (a b : List String) : Bool := sortStrings a == sortStrings b

/-- Source: `strings.EqualFold` with an ASCII word that has no `k` and no `s`. -/
def equalFold (value word : String) : Bool :=
  value.toList.map Char.toLower == word.toList.map Char.toLower

/-- Source: `dependencies.go` `uniqueOperationFields`. -/
def uniqueOperationFields (op : Operation) : List String :=
  if op.is .addConstraint || op.is .removeConstraint then
    match op.constraint with
    | some c =>
      if equalFold c.kind "unique" && c.condition == "" && !c.deferrable then c.fields else []
    | none => []
  else if op.is .addIndex || op.is .removeIndex then
    if op.index.unique && op.index.condition == "" then op.index.fields else []
  else []

/-! ## Positions -/

/-- The positions of the operations that satisfy a test, in order. -/
def positions (operations : List Operation) (test : Operation → Bool) : List ℕ :=
  (List.range operations.length).filter fun i => (operations[i]?).any test

/-- The positions of the operations of a model. -/
def modelOps (operations : List Operation) (key : String) : List ℕ :=
  positions operations fun op => op.key == key

/-- The position of the operation that deletes a model. -/
def removedModel (operations : List Operation) (key : String) : Option ℕ :=
  (positions operations fun op => op.key == key && op.is .deleteModel).getLast?

/-- The position of the operation that removes a field. -/
def removedField (operations : List Operation) (key name : String) : Option ℕ :=
  (positions operations fun op =>
    op.key == key && op.is .removeField && op.field.name == name).getLast?

/-- The positions of the field renames. -/
def renames (operations : List Operation) : List ℕ :=
  positions operations fun op => op.is .renameField

def opAt (operations : List Operation) (i : ℕ) : Operation := operations[i]?.getD {}

/-! ## Edges between any operations -/

/-- An edge from the last of `earlier` that is below `i`. -/
def chainEdge (earlier : List ℕ) (i : ℕ) : List (ℕ × ℕ) :=
  ((earlier.filter fun j => j < i).getLast?.map fun j => (j, i)).toList

/-- Every operation comes after the previous operation of its model. -/
def modelEdges (operations : List Operation) : List (ℕ × ℕ) :=
  (List.range operations.length).flatMap fun i =>
    chainEdge (modelOps operations (opAt operations i).key) i

/-- Every rename comes after the previous rename. -/
def renameEdges (operations : List Operation) : List (ℕ × ℕ) :=
  (renames operations).flatMap fun i => chainEdge (renames operations) i

/-- Everything else comes after the last rename. -/
def afterRenameEdges (operations : List Operation) : List (ℕ × ℕ) :=
  match (renames operations).getLast? with
  | some last => (positions operations fun op => !op.is .renameField).map fun i => (last, i)
  | none => []

/-! ## Links of a new relation -/

/-- The fields that an operation adds to a table. -/
def addedFields (op : Operation) : List Field :=
  if op.is .createModel then
    if createsModelStorage op.schema then op.schema.fields else []
  else if op.is .addField then [op.field]
  else []

/-- An operation of the target model that a new relation to `keys` has to wait for. -/
def providesKeys (keys : List String) (other : Operation) : Bool :=
  match other.kind with
  | .known .createModel => createsModelStorage other.schema
  | .known .addField | .known .alterField => keys.contains other.field.name
  | .known .renameField => keys.contains other.name
  | .known .addConstraint | .known .addIndex =>
    createsModelStorage other.schema && !(uniqueOperationFields other).isEmpty &&
      sameKeyFields (uniqueOperationFields other) keys
  | _ => false

/-- The operations that a new relation has to wait for. -/
def relationLinks (operations : List Operation) (after : State) (op : Operation) (f : Field) :
    Except Err (List ℕ) := do
  let target := (relationOf f).target
  failIf (removedModel operations target).isSome
    (.text ("migrations: new foreign key " ++ op.key ++ "." ++ f.name ++
      " refers to removed model " ++ target))
  let keys := relationKeys ((after.get? target).getD {}) f
  match after.get? target with
  | some schema => do
    failIf keys.isEmpty
      (.text ("migrations: new foreign key " ++ op.key ++ "." ++ f.name ++
        " requires target fields on " ++ target))
    validateNames schema.fieldNames
      (fun key => .text ("migrations: new foreign key " ++ op.key ++ "." ++ f.name ++
        " refers to missing field " ++ target ++ "." ++ key)) keys
  | none => .ok ()
  .ok ((modelOps operations target).filter fun i => providesKeys keys (opAt operations i))

/-! ## Links of a removal -/

/-- The constrained relations of `before` to a target, with the model that owns each.
Abstract and proxy models own no constraint. -/
def inbound (before : State) (target : String) : List (String × Field) :=
  (sortStrings before.keys).flatMap fun key =>
    match before.get? key with
    | some schema =>
      if schema.abstract || schema.proxy then []
      else (schema.fields.filter fun f =>
        constrainedRelation f && (relationOf f).target == target).map fun f => (key, f)
    | none => []

/-- The operation takes away something that an inbound relation to `keys` may be bound to. -/
def affects (op : Operation) (keys : List String) : Bool :=
  if !(uniqueOperationFields op).isEmpty then sameKeyFields (uniqueOperationFields op) keys
  else if op.is .removeField then keys.contains op.field.name
  else op.is .deleteModel

/-- The operation is a removal whose inbound relations matter. -/
def removes (op : Operation) : Bool :=
  op.is .removeField ||
    ((op.is .deleteModel || op.is .removeConstraint || op.is .removeIndex) &&
      createsModelStorage op.schema)

/-- The operation that removes an inbound relation. -/
def relationRemoval (operations : List Operation) (model : String) (f : Field) : Option ℕ :=
  match (removedModel operations model).filter fun i =>
      createsModelStorage (opAt operations i).schema with
  | some removal => some removal
  | none => removedField operations model f.name

/-- The inbound relations that an operation affects. -/
def affectedRelations (before : State) (op : Operation) : List (String × Field) :=
  if removes op then
    (inbound before op.key).filter fun reference =>
      affects op (relationKeys ((before.get? op.key).getD {}) reference.2)
  else []

/-- The operations that a removal has to wait for. -/
def removalLinks (operations : List Operation) (before : State) (op : Operation) :
    Except Err (List ℕ) :=
  (affectedRelations before op).mapM fun reference =>
    orFail (relationRemoval operations reference.1 reference.2)
      (.text ("migrations: " ++ reference.1 ++ "." ++ reference.2.name ++
        " retains a foreign-key binding affected by " ++ op.kind.text ++ " on " ++ op.key ++
        "; use explicit staged relation operations"))

/-! ## The order -/

/-- All links into one operation. -/
def operationLinks (operations : List Operation) (before after : State) (i : ℕ) :
    Except Err (List (ℕ × ℕ)) := do
  let op := opAt operations i
  let new ← ((addedFields op).filter constrainedRelation).mapM
    (relationLinks operations after op)
  let old ← removalLinks operations before op
  .ok ((new.flatten ++ old).map fun j => (j, i))

/-- The edges of the dependency graph. -/
def dependencyEdges (operations : List Operation) (before after : State) :
    Except Err (List (ℕ × ℕ)) := do
  let links ← (List.range operations.length).mapM (operationLinks operations before after)
  let edges := modelEdges operations ++ renameEdges operations ++ afterRenameEdges operations ++
    links.flatten
  .ok (edges.filter fun e => e.1 ≠ e.2).dedup

/-- Source: `dependencies.go` `orderDetectedOperations`. -/
def orderDetectedOperations (operations : List Operation) (before after : State) :
    Except Err (List Operation) := do
  let edges ← dependencyEdges operations before after
  let order ← orFail (schedule operations.length edges)
    (.text "migrations: operation dependency cycle requires explicit staged foreign-key migrations")
  .ok (order.map (opAt operations))

/-! ## What the order guarantees -/

@[simp] lemma orFail_eq_ok {α : Type} {value : Option α} {err : Err} {v : α} :
    orFail value err = .ok v ↔ value = some v := by
  cases value <;> simp [orFail]

variable {i j : ℕ} {earlier : List ℕ}

lemma mem_positions {operations : List Operation} {test : Operation → Bool} :
    i ∈ positions operations test ↔
      i < operations.length ∧ test (opAt operations i) = true := by
  simp only [positions, mem_filter, mem_range, opAt]
  refine and_congr_right fun hi => ?_
  simp [getElem?_eq_getElem hi]

lemma mem_chainEdge {k : ℕ} (h : (j, k) ∈ chainEdge earlier i) : k = i ∧ j ∈ earlier ∧ j < i := by
  simp only [chainEdge, Option.mem_toList, Option.map_eq_some_iff, Prod.mk.injEq] at h
  obtain ⟨j', hlast, rfl, rfl⟩ := h
  have hmem := mem_of_getLast? hlast
  simp only [mem_filter, decide_eq_true_eq] at hmem
  exact ⟨rfl, hmem⟩

/-- The chain reaches back from `i` to every earlier position it covers. -/
lemma exists_chainEdge (hsorted : earlier.Pairwise (· < ·)) (hj : j ∈ earlier) (hlt : j < i) :
    ∃ k ∈ earlier, j ≤ k ∧ k < i ∧ (k, i) ∈ chainEdge earlier i := by
  have hmem : j ∈ earlier.filter fun j => j < i := mem_filter.mpr ⟨hj, by simpa using hlt⟩
  cases hlast : (earlier.filter fun j => j < i).getLast? with
  | none =>
    rw [getLast?_eq_none_iff] at hlast
    simp [hlast] at hmem
  | some k =>
    have hk := mem_of_getLast? hlast
    simp only [mem_filter, decide_eq_true_eq] at hk
    refine ⟨k, hk.1, ?_, hk.2, by simp [chainEdge, hlast]⟩
    -- the filtered list is increasing, so its last element bounds every other
    obtain ⟨front, hfront⟩ := getLast?_eq_some_iff.mp hlast
    have hpair := hsorted.filter fun j => decide (j < i)
    rw [hfront] at hmem hpair
    rcases mem_append.mp hmem with hj' | hj'
    · exact le_of_lt ((pairwise_append.mp hpair).2.2 j hj' k (by simp))
    · exact le_of_eq (mem_singleton.mp hj')

lemma pairwise_positions (operations : List Operation) (test : Operation → Bool) :
    (positions operations test).Pairwise (· < ·) :=
  pairwise_lt_range.filter _

/-- A chain of edges orders everything it covers. -/
lemma before_of_chain {order : List ℕ} (hsorted : earlier.Pairwise (· < ·)) (horder : order.Nodup)
    (hedge : ∀ i ∈ earlier, ∀ k, (k, i) ∈ chainEdge earlier i → Before order k i) (hi : i ∈ earlier)
    (hj : j ∈ earlier) (hlt : i < j) : Before order i j := by
  induction j using Nat.strong_induction_on with
  | _ j ih =>
    obtain ⟨k, hk, hik, hkj, hmem⟩ := exists_chainEdge hsorted hi hlt
    have hlast := hedge j hj k hmem
    rcases Nat.lt_or_eq_of_le hik with hik | rfl
    · exact (ih k hkj hk hik).trans horder hlast
    · exact hlast

section Guarantees

variable {operations : List Operation} {before after : State} {edges : List (ℕ × ℕ)}

section

variable (h : dependencyEdges operations before after = .ok edges)

include h

lemma nodup_dependencyEdges : edges.Nodup := by
  simp only [dependencyEdges, bind_eq_ok, Except.ok.injEq] at h
  obtain ⟨links, -, rfl⟩ := h
  exact nodup_dedup _

/-- The edges, by where they come from. -/
lemma mem_dependencyEdges {i j : ℕ} :
    (i, j) ∈ edges ↔ i ≠ j ∧
      ((i, j) ∈ modelEdges operations ∨ (i, j) ∈ renameEdges operations ∨
        (i, j) ∈ afterRenameEdges operations ∨
        ∃ links, j < operations.length ∧
          operationLinks operations before after j = .ok links ∧ (i, j) ∈ links) := by
  simp only [dependencyEdges, bind_eq_ok, Except.ok.injEq] at h
  obtain ⟨links, hlinks, rfl⟩ := h
  have hown : ∀ k l, operationLinks operations before after k = .ok l → (i, j) ∈ l → k = j := by
    intro k l hk hmem
    simp only [operationLinks, bind_eq_ok, Except.ok.injEq] at hk
    obtain ⟨new, -, old, -, rfl⟩ := hk
    obtain ⟨_, -, heq⟩ := mem_map.mp hmem
    exact (Prod.mk.injEq _ _ _ _).mp heq |>.2
  simp only [mem_dedup, mem_filter, mem_append, mem_flatten,
    decide_eq_true_eq]
  rw [and_comm, or_assoc, or_assoc]
  refine and_congr_right fun _ => or_congr_right (or_congr_right (or_congr_right ?_))
  constructor
  · rintro ⟨l, hl, hmem⟩
    obtain ⟨k, hk, hkl⟩ := exists_of_mem_mapM hlinks hl
    obtain rfl := hown k l hkl hmem
    exact ⟨l, mem_range.mp hk, hkl, hmem⟩
  · rintro ⟨l, hj, hl, hmem⟩
    obtain ⟨l', hl', heq⟩ := exists_of_mapM_eq_ok hlinks (mem_range.mpr hj)
    rw [hl, Except.ok.injEq] at heq
    exact ⟨l', hl', heq ▸ hmem⟩

lemma dependencyEdges_lt (i j : ℕ) (hij : (i, j) ∈ edges) : i ≠ j ∧ j < operations.length := by
  obtain ⟨hne, hcases⟩ := (mem_dependencyEdges h).mp hij
  refine ⟨hne, ?_⟩
  rcases hcases with hmem | hmem | hmem | ⟨_, hj, -⟩
  · obtain ⟨k, hk, hchain⟩ := mem_flatMap.mp hmem
    obtain ⟨rfl, -⟩ := mem_chainEdge hchain
    exact mem_range.mp hk
  · obtain ⟨k, hk, hchain⟩ := mem_flatMap.mp hmem
    obtain ⟨rfl, -⟩ := mem_chainEdge hchain
    exact (mem_positions.mp hk).1
  · unfold afterRenameEdges at hmem
    split at hmem
    · obtain ⟨k, hk, heq⟩ := mem_map.mp hmem
      obtain ⟨-, rfl⟩ := (Prod.mk.injEq _ _ _ _).mp heq
      exact (mem_positions.mp hk).1
    · simp at hmem
  · exact hj

end

/-- **An order that is returned is a topological order of the dependency graph.** -/
theorem topological_of_order {result : List Operation}
    (h : orderDetectedOperations operations before after = .ok result) :
    ∃ edges order, dependencyEdges operations before after = .ok edges ∧
      IsTopological operations.length edges order ∧ order.map (opAt operations) = result := by
  simp only [orderDetectedOperations, bind_eq_ok, orFail_eq_ok, Except.ok.injEq] at h
  obtain ⟨edges, hedges, order, hschedule, rfl⟩ := h
  refine ⟨edges, order, hedges, ?_, rfl⟩
  exact schedule_eq_some (nodup_dependencyEdges hedges) (dependencyEdges_lt hedges) hschedule

variable {order : List ℕ}

section

variable (h : dependencyEdges operations before after = .ok edges)
  (horder : IsTopological operations.length edges order)

include h horder

variable {i j : ℕ}

lemma model_before (hlt : i < j) (hj : j < operations.length)
    (hkey : (opAt operations i).key = (opAt operations j).key) : Before order i j := by
  have hnodup : order.Nodup := horder.perm.nodup_iff.mpr nodup_range
  refine before_of_chain (pairwise_positions operations fun op => op.key == (opAt operations j).key)
    hnodup ?_ (mem_positions.mpr ⟨hlt.trans hj, by simpa using hkey⟩)
    (mem_positions.mpr ⟨hj, by simp⟩) hlt
  intro k hk l hchain
  obtain ⟨-, hl, hlk⟩ := mem_chainEdge hchain
  refine horder.forward l k ((mem_dependencyEdges h).mpr ⟨hlk.ne, .inl ?_⟩)
  obtain ⟨hkn, hkkey⟩ := mem_positions.mp hk
  refine mem_flatMap.mpr ⟨k, mem_range.mpr hkn, ?_⟩
  rw [beq_iff_eq] at hkkey
  rw [hkkey]
  exact hchain

lemma rename_before_rename (hlt : i < j) (hi : i ∈ renames operations) (hj : j ∈ renames operations) :
    Before order i j := by
  have hnodup : order.Nodup := horder.perm.nodup_iff.mpr nodup_range
  refine before_of_chain (pairwise_positions operations _) hnodup ?_ hi hj hlt
  intro k hk l hchain
  obtain ⟨-, hl, hlk⟩ := mem_chainEdge hchain
  exact horder.forward l k ((mem_dependencyEdges h).mpr
    ⟨hlk.ne, .inr (.inl (mem_flatMap.mpr ⟨k, hk, hchain⟩))⟩)

lemma rename_before (hi : i ∈ renames operations) (hj : j < operations.length)
    (hnot : (opAt operations j).is .renameField = false) : Before order i j := by
  have hnodup : order.Nodup := horder.perm.nodup_iff.mpr nodup_range
  cases hlast : (renames operations).getLast? with
  | none =>
    rw [getLast?_eq_none_iff] at hlast
    simp [hlast] at hi
  | some last =>
    have hmem : last ∈ renames operations := mem_of_getLast? hlast
    have hne : last ≠ j := by
      rintro rfl
      rw [(mem_positions.mp hmem).2] at hnot
      cases hnot
    have hedge : Before order last j := by
      refine horder.forward last j ((mem_dependencyEdges h).mpr ⟨hne, .inr (.inr (.inl ?_))⟩)
      simp only [afterRenameEdges, hlast]
      exact mem_map.mpr ⟨j, mem_positions.mpr ⟨hj, by simp [hnot]⟩, rfl⟩
    obtain ⟨front, hfront⟩ := getLast?_eq_some_iff.mp hlast
    rcases Nat.lt_trichotomy i last with hlt | rfl | hgt
    · exact (rename_before_rename h horder hlt hi hmem).trans hnodup hedge
    · exact hedge
    · have hpair := pairwise_positions operations fun op => op.is .renameField
      change (renames operations).Pairwise (· < ·) at hpair
      rw [hfront] at hpair hi
      rcases mem_append.mp hi with hi | hi
      · exact absurd ((pairwise_append.mp hpair).2.2 i hi last (by simp)) (by omega)
      · exact absurd (mem_singleton.mp hi) (by omega)

end

lemma map_opAt_range (operations : List Operation) :
    (List.range operations.length).map (opAt operations) = operations := by
  refine ext_getElem (by simp) fun i hi hi' => ?_
  simp [opAt, getElem?_eq_getElem hi']

/-- A selection of operations whose order is kept is the same before and after. -/
lemma filter_result (horder : IsTopological operations.length edges order)
    {test : Operation → Bool}
    (h : ∀ i j, i < j → j < operations.length → test (opAt operations i) = true →
      test (opAt operations j) = true → Before order i j) :
    (order.map (opAt operations)).filter test = operations.filter test := by
  have hfilter := @filter_eq_of_before _ _ horder.perm (fun i => test (opAt operations i)) h
  conv_rhs => rw [← map_opAt_range operations]
  rw [filter_map, filter_map]
  exact congrArg (List.map (opAt operations)) hfilter

variable (h : dependencyEdges operations before after = .ok edges)
  (horder : IsTopological operations.length edges order)

include h horder

/-- **The operations of one model keep their order.** -/
theorem filter_key_result (key : String) :
    (order.map (opAt operations)).filter (fun op => op.key = key) =
      operations.filter fun op => op.key = key := by
  refine filter_result horder fun i j hlt hj hi hj' => model_before h horder hlt hj ?_
  rw [of_decide_eq_true hi, of_decide_eq_true hj']

lemma filter_key_rest (test : Operation → Bool) (key : String) :
    ((order.map (opAt operations)).filter test).filter (fun op => op.key = key) =
      (operations.filter test).filter fun op => op.key = key := by
  rw [filter_comm, filter_key_result h horder key, filter_comm]

/-- **The field renames come first, in their order.** -/
theorem renames_first :
    order.map (opAt operations) = operations.filter (fun op => op.is .renameField) ++
      (order.map (opAt operations)).filter fun op => !op.is .renameField := by
  have hfilter : (order.map (opAt operations)).filter (fun op => op.is .renameField) =
      operations.filter fun op => op.is .renameField :=
    filter_result horder fun i j hlt hj hi hj' => rename_before_rename h horder hlt
      (mem_positions.mpr ⟨hlt.trans hj, hi⟩) (mem_positions.mpr ⟨hj, hj'⟩)
  rw [← hfilter]
  refine eq_filter_append_filter ?_
  rw [pairwise_map, pairwise_iff_forall_sublist]
  intro i j hij hj
  by_contra hi
  have hlt : ∀ x ∈ [i, j], x < operations.length := fun x hx =>
    mem_range.mp (horder.perm.mem_iff.mp (hij.subset hx))
  have hbefore := rename_before h horder (mem_positions.mpr ⟨hlt j (by simp), hj⟩)
    (hlt i (by simp)) (by simpa using hi)
  exact hbefore.asymm (horder.perm.nodup_iff.mpr nodup_range) hij

end Guarantees

end Gogo.Migrations

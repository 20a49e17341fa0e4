import Gogo.Migrations.ModelChanges

/-!
# The autodetector is sound

The operations that `Detect` returns, replayed by `schemaState` on top of the old models, lead to
the new models.

* `SameState` — two states with the same snapshot of every model. The renames keep the replayed
  state and the detector's old state so (`detectRenamesIn_spec`).
* `replay_detect` — **the replay succeeds, and every model ends as the new state has it.** After
  the renames no operation touches another model, so each model replays the operations of its own
  key, and those keep their order when the operations are sorted by their dependencies.
* `reproduces_schemas_iff` — the snapshots at the end are the new schemas exactly when every
  new field is equivalent to its own snapshot: `Clone` turns an allocated empty slice into nil,
  and `fieldEquivalent` tells the two apart.
-/

namespace Gogo.Migrations

open List Gogo.Lib Gogo.Models

/-! ## States up to snapshots -/

/-- The same snapshot of every model. -/
def SameState (σ τ : State) : Prop := ∀ key, SameSnapshot (σ.get? key) (τ.get? key)

/-- Every model stands at its own key, with distinct field names and acceptable fields. -/
def GoodState (σ : State) : Prop :=
  ∀ key s, σ.get? key = some s →
    s.key = key ∧ s.fieldNames.Nodup ∧ ∀ f ∈ s.fields, f.validate = .ok ()

/-! ## Renames -/

lemma judged_renamedRelation (model old new : String) (f : Field) (g : Field)
    (h : g.relation = f.relation.map (renameRelationFieldReferences model old new))
    (hrest : ({ g with relation := f.relation } : Field).judged = f.judged) :
    g.judged = f.judged := by
  rw [← hrest]
  simp only [Field.judged, h, Option.map_map]
  rfl

lemma judged_renameInField (model old new : String) (f : Field) :
    (renameInField model old new f).judged = f.judged :=
  judged_renamedRelation model old new f _ rfl rfl

lemma fieldNames_renamedSchema (s : Schema) (old new : String) :
    (renamedSchema s old new).fieldNames = s.fieldNames.map (renameName old new) := by
  simp [Schema.fieldNames, renamedSchema, Schema.clone, renameInField, Function.comp_def]

variable {new key : String} {s s' a : Schema} {σ old after old' : State} {op : Operation}
  {renames : FinMap String String} {ops : List Operation} {schemas : List Schema}
  {keys : List String} {segments : List (List Operation)} {f : String → Except Err (List Operation)}
  {options : DetectOptions}

lemma nodup_map_renameName {old : String} {l : List String} (hl : l.Nodup) (hnew : new ∉ l) :
    (l.map (renameName old new)).Nodup := by
  refine hl.map_on ?_
  intro a ha b hb heq
  unfold renameName at heq
  split_ifs at heq with h₁ h₂ h₂
  · exact h₁.trans h₂.symm
  · exact absurd (heq ▸ hb) hnew
  · exact absurd (heq ▸ ha) hnew
  · exact heq

lemma renameFieldState_eq_ok {old : String} (h : renameFieldState s old new = .ok s') :
    old ∈ s.fieldNames ∧ new ∉ s.fieldNames ∧ validIdentifier new = true ∧
      renamedSchema s old new = s' := by
  simp only [renameFieldState, bind_eq_ok, failIf_eq_ok, Except.ok.injEq] at h
  obtain ⟨-, hold, -, hnew, -, -, -, -, rfl⟩ := h
  simp only [Bool.or_eq_false_iff, Bool.not_eq_false'] at hnew
  refine ⟨?_, ?_, hnew.2, rfl⟩
  · rw [← Schema.field?_isSome]
    simpa using hold
  · rw [← Schema.field?_isSome, hnew.1]
    simp

lemma goodState_rename {old : String} (h : renameFieldState s old new = .ok s')
    (hnames : s.fieldNames.Nodup) (hvalid : ∀ f ∈ s.fields, f.validate = .ok ()) :
    s'.key = s.key ∧ s'.fieldNames.Nodup ∧ ∀ f ∈ s'.fields, f.validate = .ok () := by
  obtain ⟨-, hnew, -, rfl⟩ := renameFieldState_eq_ok h
  refine ⟨rfl, ?_, ?_⟩
  · rw [fieldNames_renamedSchema]
    exact nodup_map_renameName hnames hnew
  · intro f hf
    simp only [renamedSchema, Schema.clone, List.map_map, mem_map] at hf
    obtain ⟨g, hg, rfl⟩ := hf
    refine Field.validate_of_judged_eq ?_ (hvalid g hg)
    rw [Function.comp_apply, judged_renameInField, Field.judged_clone]

lemma renameReferences_fields (model old new : String) (s : Schema) :
    (renameReferences model old new s).fields = s.fields.map fun f =>
      { f.clone with
        relation := f.clone.relation.map (renameRelationFieldReferences model old new) } := by
  simp [renameReferences, Schema.clone, Function.comp_def]

lemma renameReferences_fieldNames (model old new : String) (s : Schema) :
    (renameReferences model old new s).fieldNames = s.fieldNames := by
  simp [Schema.fieldNames, renameReferences_fields, Function.comp_def]

lemma renameReferences_clone (model old new : String) (s : Schema) :
    renameReferences model old new s.clone = renameReferences model old new s := by
  simp only [renameReferences, Schema.clone_clone]

lemma goodState_references (model old new : String) (hnames : s.fieldNames.Nodup)
    (hvalid : ∀ f ∈ s.fields, f.validate = .ok ()) :
    (renameReferences model old new s).fieldNames.Nodup ∧
      ∀ f ∈ (renameReferences model old new s).fields, f.validate = .ok () := by
  refine ⟨by rw [renameReferences_fieldNames]; exact hnames, ?_⟩
  intro f hf
  rw [renameReferences_fields] at hf
  obtain ⟨g, hg, rfl⟩ := mem_map.mp hf
  refine Field.validate_of_judged_eq ?_ (hvalid g hg)
  rw [← Field.judged_clone g]
  exact judged_renamedRelation model old new g.clone _ rfl rfl

lemma get?_followRename (key old new : String) (σ : State) (k : String) :
    (followRename key old new σ).get? k =
      (σ.get? k).map fun s => if k = key then s else renameReferences key old new s :=
  FinMap.get?_mapValues _ _ _

lemma sameSnapshot_references {a b : Option Schema} (h : SameSnapshot a b)
    (model old new : String) :
    SameSnapshot (a.map (renameReferences model old new))
      (b.map (renameReferences model old new)) := by
  unfold SameSnapshot at *
  cases a <;> cases b <;> simp_all
  rw [← renameReferences_clone, h, renameReferences_clone]

lemma applyOperation_rename (h : op.is .renameField = true) :
    applyOperation σ op = (keyedStep Operation.key Operation.onModel σ op).map
      (followRename op.key op.oldName op.name) := by
  unfold applyOperation
  cases keyedStep Operation.key Operation.onModel σ op with
  | error e => rfl
  | ok next => simp [h, Except.map]

/-- One declared rename keeps the replayed state and the old state the same. -/
lemma detectFieldRename_spec {reference : String} (hsame : SameState σ old) (hgood : GoodState old)
    (h : detectFieldRename after renames old reference = .ok (op, old')) :
    op.is .renameField = true ∧ (∃ σ', applyOperation σ op = .ok σ' ∧ SameState σ' old') ∧
      GoodState old' ∧ ∀ key, (old'.get? key).isSome = (old.get? key).isSome := by
  simp only [detectFieldRename, bind_eq_ok, orFail_eq_ok] at h
  obtain ⟨⟨key, name⟩, -, h⟩ := h
  cases hold : old.get? key with
  | none => simp [hold] at h
  | some schema =>
    cases hnext : after.get? key with
    | none => simp [hold, hnext] at h
    | some next =>
      simp only [hold, hnext, bind_eq_ok, failIf_eq_ok, Except.ok.injEq, Prod.mk.injEq] at h
      obtain ⟨-, -, renamed, hrenamed, rfl, rfl⟩ := h
      set new := (renames.get? reference).getD "" with hnew
      obtain ⟨hkey, hnames, hvalid⟩ := hgood key schema hold
      have hopkey : (renameField schema name new).key = key := hkey
      have hmodel : (renameField schema name new).onModel (old.get? key) =
          .ok (some renamed) := by
        rw [hold]
        show (renameFieldState schema name new).map some = _
        rw [hrenamed]
        rfl
      obtain ⟨b, hb, hbsame⟩ := onModel_related (hsame key).symm hmodel
      refine ⟨rfl, ⟨followRename key name new (σ.put key b), ?_, ?_⟩, ?_, ?_⟩
      · rw [applyOperation_rename rfl, hopkey]
        have hstep : keyedStep Operation.key Operation.onModel σ (renameField schema name new) =
            .ok (σ.put key b) := by
          rw [keyedStep_eq_ok, hopkey]
          exact ⟨b, hb, rfl⟩
        rw [hstep]
        rfl
      · intro k
        rw [get?_followRename, get?_followRename, FinMap.get?_put, FinMap.get?_set]
        by_cases hk : key = k
        · subst hk
          simpa using hbsame.symm
        · simp only [if_neg hk, if_neg (Ne.symm hk)]
          exact sameSnapshot_references (hsame k) key name new
      · intro k s hs
        rw [get?_followRename, FinMap.get?_set] at hs
        by_cases hk : key = k
        · subst hk
          simp only [if_true, Option.map_some, Option.some.injEq] at hs
          subst hs
          obtain ⟨hkey', hrest⟩ := goodState_rename hrenamed hnames hvalid
          exact ⟨hkey'.trans hkey, hrest⟩
        · simp only [if_neg hk, if_neg (Ne.symm hk), Option.map_eq_some_iff] at hs
          obtain ⟨s₀, hs₀, rfl⟩ := hs
          obtain ⟨hkey₀, hnames₀, hvalid₀⟩ := hgood k s₀ hs₀
          exact ⟨hkey₀, goodState_references key name new hnames₀ hvalid₀⟩
      · intro k
        rw [get?_followRename, Option.isSome_map, FinMap.get?_set]
        by_cases hk : key = k
        · subst hk
          simp [hold]
        · rw [if_neg hk]

/-- **The declared renames replay to the detector's old state.** -/
theorem detectRenamesIn_spec {references : List String} (hsame : SameState σ old)
    (hgood : GoodState old) (h : detectRenamesIn after renames references old = .ok (ops, old')) :
    (∀ op ∈ ops, op.is .renameField = true) ∧
      (∃ σ', run applyOperation σ ops = .ok σ' ∧ SameState σ' old') ∧ GoodState old' ∧
      ∀ key, (old'.get? key).isSome = (old.get? key).isSome := by
  induction references generalizing σ old ops with
  | nil =>
    simp only [detectRenamesIn, Except.ok.injEq, Prod.mk.injEq] at h
    obtain ⟨rfl, rfl⟩ := h
    exact ⟨by simp, ⟨σ, rfl, hsame⟩, hgood, fun _ => rfl⟩
  | cons reference rest ih =>
    simp only [detectRenamesIn, bind_eq_ok] at h
    obtain ⟨⟨op, old₁⟩, hop, ⟨ops', old₂⟩, hops, heq⟩ := h
    simp only [Except.ok.injEq, Prod.mk.injEq] at heq
    obtain ⟨rfl, rfl⟩ := heq
    obtain ⟨hrename, ⟨σ₁, hσ₁, hsame₁⟩, hgood₁, hkeys₁⟩ :=
      detectFieldRename_spec hsame hgood hop
    obtain ⟨hrenames, ⟨σ₂, hσ₂, hsame₂⟩, hgood₂, hkeys₂⟩ := ih hsame₁ hgood₁ hops
    refine ⟨?_, ⟨σ₂, run_cons_eq_ok.mpr ⟨σ₁, hσ₁, hσ₂⟩, hsame₂⟩, hgood₂, ?_⟩
    · intro op' hop'
      rcases mem_cons.mp hop' with rfl | hop'
      · exact hrename
      · exact hrenames op' hop'
    · exact fun key => (hkeys₂ key).trans (hkeys₁ key)

/-! ## The old models -/

lemma get?_stateOf (h : (schemas.map fun s => s.key).Nodup) :
    (stateOf schemas).get? key = some s ↔ s ∈ schemas ∧ s.key = key :=
  Named.get?_index h

/-- Creating the old models gives the old state. -/
lemma run_createModels (schemas : List Schema) (σ τ : State) (hsame : SameState σ τ) :
    ∃ σ', run applyOperation σ (schemas.map createModel) = .ok σ' ∧
      SameState σ' ((schemas.map fun s => (s.key, s)).foldl (fun m e => m.set e.1 e.2) τ) := by
  induction schemas generalizing σ τ with
  | nil => exact ⟨σ, rfl, hsame⟩
  | cons s rest ih =>
    have hstep : applyOperation σ (createModel s) = .ok (σ.set s.key s.clone) := by
      show Except.ok (σ.set s.key s.clone.clone) = _
      rw [Schema.clone_clone]
    have hsame' : SameState (σ.set s.key s.clone) (τ.set s.key s) := by
      intro k
      rw [FinMap.get?_set, FinMap.get?_set]
      by_cases hk : s.key = k
      · simp [hk, SameSnapshot]
      · simp only [if_neg hk]
        exact hsame k
    obtain ⟨σ', hσ', hfinal⟩ := ih _ _ hsame'
    exact ⟨σ', run_cons_eq_ok.mpr ⟨_, hstep, hσ'⟩, hfinal⟩

lemma goodState_stateOf (h : (schemas.map fun s => s.key).Nodup) (hvalid : ∀ s ∈ schemas, s.Valid) :
    GoodState (stateOf schemas) := by
  intro key s hs
  obtain ⟨hmem, hkey⟩ := (get?_stateOf h).mp hs
  exact ⟨hkey, (hvalid s hmem).nodup_fieldNames, fun f hf => ((hvalid s hmem).fields f hf).options⟩

/-! ## The operations of one key -/

lemma applyOperation_of_not_rename (h : op.is .renameField = false) :
    applyOperation σ op = keyedStep Operation.key Operation.onModel σ op := by
  unfold applyOperation
  cases keyedStep Operation.key Operation.onModel σ op with
  | error e => rfl
  | ok next => simp [h]

/-- Without renames, a replay is a run over a keyed state. -/
lemma run_applyOperation_eq (h : ∀ op ∈ ops, op.is .renameField = false) :
    run applyOperation σ ops = run (keyedStep Operation.key Operation.onModel) σ ops := by
  induction ops generalizing σ with
  | nil => rfl
  | cons op rest ih =>
    rw [run_cons, run_cons, applyOperation_of_not_rename (h op mem_cons_self)]
    congr 1
    funext σ'
    exact ih fun op' hop' => h op' (mem_cons_of_mem _ hop')

/-- The operations of one key, among the operations of many keys. -/
lemma filter_flatten_mapM (h : keys.mapM f = .ok segments) (hnodup : keys.Nodup)
    (habout : ∀ key ∈ keys, ∀ ops, f key = .ok ops → AboutModel key ops) (key : String) :
    (key ∉ keys ∧ segments.flatten.filter (fun op => op.key = key) = []) ∨
      (key ∈ keys ∧ f key = .ok (segments.flatten.filter fun op => op.key = key)) := by
  rw [mapM_eq_ok_iff] at h
  induction h with
  | nil => simp
  | @cons k seg rest segs hk _ ih =>
    rw [nodup_cons] at hnodup
    have hseg := habout k mem_cons_self seg hk
    have ih := ih hnodup.2 fun k' hk' => habout k' (mem_cons_of_mem _ hk')
    rw [flatten_cons, filter_append]
    by_cases heq : k = key
    · subst heq
      have hself : seg.filter (fun op => op.key = k) = seg :=
        filter_eq_self.mpr fun op hop => by simpa using (hseg op hop).1
      rcases ih with ⟨-, hnil⟩ | ⟨hmem, -⟩
      · exact .inr ⟨mem_cons_self, by rw [hnil, append_nil, hself]; exact hk⟩
      · exact absurd hmem hnodup.1
    · have hnone : seg.filter (fun op => op.key = key) = [] := by
        refine filter_eq_nil_iff.mpr fun op hop => ?_
        rw [(hseg op hop).1]
        simpa using heq
      rw [hnone, nil_append]
      rcases ih with ⟨hnot, hnil⟩ | ⟨hmem, hf⟩
      · exact .inl ⟨by simp [Ne.symm heq, hnot], hnil⟩
      · exact .inr ⟨mem_cons_of_mem _ hmem, hf⟩

/-- No segment of many keys has a rename. -/
lemma not_rename_of_mem_flatten (h : keys.mapM f = .ok segments)
    (habout : ∀ key ∈ keys, ∀ ops, f key = .ok ops → AboutModel key ops) :
    ∀ op ∈ segments.flatten, op.is .renameField = false := by
  intro op hop
  obtain ⟨seg, hseg, hmem⟩ := mem_flatten.mp hop
  obtain ⟨key, hkey, hf⟩ := exists_of_mem_mapM h hseg
  exact (habout key hkey seg hf op hmem).2

/-! ## The models of the new state -/

lemma reached_clone (ha : a.Valid) : Reached a.clone a where
  options := rfl
  indexes := rfl
  constraints := rfl
  fields := by
    refine ⟨?_, ?_, ?_, ?_⟩
    · rw [Schema.clone_fieldNames]
      exact ha.nodup_fieldNames
    · intro g hg
      obtain ⟨f, hf, rfl⟩ := mem_map.mp hg
      exact ⟨f, hf, matches_clone f⟩
    · exact fun f hf => ⟨f.clone, mem_map_of_mem hf, matches_clone f⟩
    · intro g hg
      obtain ⟨f, hf, rfl⟩ := mem_map.mp hg
      exact validate_clone (ha.fields f hf).options

/-- One model of the new state is reached by its own operations. -/
lemma detectModelAt_spec (hgood : GoodState old) (hafter : after.get? key = some a)
    (hkey : a.key = key) (ha : a.Valid) (h : detectModelAt options old after key = .ok ops) :
    AboutModel key ops ∧ ∀ model, SameSnapshot model (old.get? key) →
      ∃ q, runModel model ops = .ok (some q) ∧ Reached q a := by
  simp only [detectModelAt, hafter] at h
  cases hold : old.get? key with
  | none =>
    simp only [hold, Except.ok.injEq] at h
    subst h
    refine ⟨?_, fun model _ => ⟨a.clone.clone, rfl, ?_⟩⟩
    · intro op hop
      rw [mem_singleton] at hop
      subst hop
      exact ⟨hkey, rfl⟩
    · rw [Schema.clone_clone]
      exact reached_clone ha
  | some p =>
    simp only [hold] at h
    obtain ⟨-, hnames, hvalid⟩ := hgood key p hold
    obtain ⟨habout, q, hreached, r, hr, hclone⟩ := detectModel_spec hnames hvalid ha h
    refine ⟨hkey ▸ habout, fun model hmodel => ?_⟩
    obtain ⟨b, hb, hsame⟩ := run_onModel_related hmodel.symm hr
    cases b with
    | none => simp [SameSnapshot] at hsame
    | some r' =>
      have hclone' : r'.clone = q.clone := (sameSnapshot_some.mp hsame).symm.trans hclone
      exact ⟨r', hb, hreached.of_clone_eq hclone'⟩

lemma detectRemovedModel_spec (hgood : GoodState old) (hold : (old.get? key).isSome = true)
    (h : detectRemovedModel options old key = .ok ops) :
    AboutModel key ops ∧ ∀ model, runModel model ops = .ok none := by
  simp only [detectRemovedModel, bind_eq_ok, failIf_eq_ok, Except.ok.injEq] at h
  obtain ⟨-, -, rfl⟩ := h
  obtain ⟨p, hp⟩ := Option.isSome_iff_exists.mp hold
  refine ⟨?_, fun model => rfl⟩
  intro op hop
  rw [mem_singleton] at hop
  subst hop
  rw [hp]
  exact ⟨(hgood key p hp).1, rfl⟩

/-- How a model ends: as the new state has it, its fields as replayed. -/
def EndsAs (new : State) (key : String) (model : Option Schema) : Prop :=
  match new.get? key with
  | some a => ∃ q, model = some q ∧ Reached q a
  | none => model = none

lemma forM_validate_eq_ok {u : Unit} :
    (schemas.forM fun s => s.validate) = .ok u ↔ ∀ s ∈ schemas, s.Valid := by
  rw [forM_eq_ok_iff]
  exact forall₂_congr fun s _ => s.validate_eq_ok_iff

/-- The operations of one key that are not renames. -/
def SegmentOf (options : DetectOptions) (old new : State) (key : String)
    (segment : List Operation) : Prop :=
  match new.get? key with
  | some _ => detectModelAt options old new key = .ok segment
  | none =>
    ((old.get? key).isSome = true ∧ detectRemovedModel options old key = .ok segment) ∨
      (old.get? key = none ∧ segment = [])

section Detect

variable {before after : List Schema} {options : DetectOptions} {ops : List Operation}
  {old : State}

/-- **The detected operations, before they are ordered**: the renames, and for every key the
operations of its model. -/
theorem detectOperations_eq_ok (hb : (before.map fun s => s.key).Nodup)
    (hbefore : ∀ s ∈ before, s.Valid) (ha : (after.map fun s => s.key).Nodup)
    (h : detectOperations before after options = .ok (ops, old)) :
    (∀ a ∈ after, a.Valid) ∧ GoodState old ∧
      detectFieldRenames (stateOf before) (stateOf after) options.renames =
        .ok (ops.filter (fun op => op.is .renameField), old) ∧
      ∀ key, SegmentOf options old (stateOf after) key
        ((ops.filter fun op => !op.is .renameField).filter fun op => op.key = key) := by
  simp only [detectOperations, bind_eq_ok] at h
  obtain ⟨_, hvalidate, ⟨renamed, old'⟩, hrenames, changed, hchanged, removed, hremoved, heq⟩ := h
  simp only [Except.ok.injEq, Prod.mk.injEq] at heq
  obtain ⟨rfl, rfl⟩ := heq
  have hafter := forM_validate_eq_ok.mp hvalidate
  obtain ⟨hrename, -, hgood, -⟩ :=
    detectRenamesIn_spec (fun key => .refl ((stateOf before).get? key))
      (goodState_stateOf hb hbefore) hrenames
  have haboutNew : ∀ key ∈ sortStrings (stateOf after).keys, ∀ ops,
      detectModelAt options old' (stateOf after) key = .ok ops → AboutModel key ops := by
    intro key hkey ops hops
    obtain ⟨a, hget⟩ := (stateOf after).mem_keys.mp (mem_sortStrings.mp hkey)
    obtain ⟨hmem, hakey⟩ := (get?_stateOf ha).mp hget
    exact (detectModelAt_spec hgood hget hakey (hafter a hmem) hops).1
  set gone := old'.keys.filter fun key => ((stateOf after).get? key).isNone with hgone
  have hmemGone : ∀ key, key ∈ sortStrings gone ↔
      (old'.get? key).isSome = true ∧ (stateOf after).get? key = none := by
    intro key
    rw [mem_sortStrings, hgone, mem_filter, old'.mem_keys, Option.isSome_iff_exists,
      Option.isNone_iff_eq_none]
  have haboutOld : ∀ key ∈ sortStrings gone, ∀ ops,
      detectRemovedModel options old' key = .ok ops → AboutModel key ops :=
    fun key hkey ops hops => (detectRemovedModel_spec hgood ((hmemGone key).mp hkey).1 hops).1
  -- the renames are exactly the operations of the first phase
  have hnot : ∀ op ∈ changed.flatten ++ removed.flatten, op.is .renameField = false := by
    intro op hop
    rcases mem_append.mp hop with hop | hop
    · exact not_rename_of_mem_flatten hchanged haboutNew op hop
    · exact not_rename_of_mem_flatten hremoved haboutOld op hop
  have hfirst : (renamed ++ changed.flatten ++ removed.flatten).filter
      (fun op => op.is .renameField) = renamed := by
    rw [append_assoc, filter_append, filter_eq_self.mpr hrename,
      filter_eq_nil_iff.mpr fun op hop => by simp [hnot op hop], append_nil]
  have hrest : (renamed ++ changed.flatten ++ removed.flatten).filter
      (fun op => !op.is .renameField) = changed.flatten ++ removed.flatten := by
    rw [append_assoc, filter_append,
      filter_eq_nil_iff.mpr fun op hop => by simp [hrename op hop], nil_append,
      filter_eq_self.mpr fun op hop => by simp [hnot op hop]]
  refine ⟨hafter, hgood, by rw [hfirst]; exact hrenames, ?_⟩
  intro key
  rw [hrest, filter_append]
  have hnew := filter_flatten_mapM hchanged (nodup_sortStrings.mpr (stateOf after).nodup_keys)
    haboutNew key
  have hold := filter_flatten_mapM hremoved (nodup_sortStrings.mpr (old'.nodup_keys.filter _))
    haboutOld key
  unfold SegmentOf
  rcases hget : (stateOf after).get? key with _ | a
  · rcases hnew with ⟨-, hnil⟩ | ⟨hin, -⟩
    · rw [hnil, nil_append]
      rcases hold with ⟨hnotin, hnil'⟩ | ⟨hin, hops⟩
      · refine .inr ⟨?_, hnil'⟩
        have := mt (hmemGone key).mpr hnotin
        simpa [hget] using this
      · exact .inl ⟨((hmemGone key).mp hin).1, hops⟩
    · obtain ⟨a, hget'⟩ := (stateOf after).mem_keys.mp (mem_sortStrings.mp hin)
      rw [hget] at hget'
      cases hget'
  · rcases hnew with ⟨hnotin, -⟩ | ⟨-, hops⟩
    · exact absurd (mem_sortStrings.mpr ((stateOf after).mem_keys.mpr ⟨a, hget⟩)) hnotin
    · rcases hold with ⟨-, hnil⟩ | ⟨hin, -⟩
      · rw [hnil, append_nil]
        exact hops
      · rw [((hmemGone key).mp hin).2] at hget
        cases hget

/-- The operations of one key lead to the model of the new state. -/
lemma runModel_segment (ha : (after.map fun s => s.key).Nodup) (hafter : ∀ a ∈ after, a.Valid)
    (hgood : GoodState old) {key : String} {segment : List Operation}
    (h : SegmentOf options old (stateOf after) key segment) {model : Option Schema}
    (hmodel : SameSnapshot model (old.get? key)) :
    ∃ model', runModel model segment = .ok model' ∧ EndsAs (stateOf after) key model' := by
  unfold SegmentOf at h
  unfold EndsAs
  rcases hget : (stateOf after).get? key with _ | a
  · rw [hget] at h
    rcases h with ⟨hsome, hops⟩ | ⟨hnone, rfl⟩
    · exact ⟨none, (detectRemovedModel_spec hgood hsome hops).2 model, rfl⟩
    · refine ⟨model, rfl, ?_⟩
      unfold SameSnapshot at hmodel
      simpa [hnone] using hmodel
  · rw [hget] at h
    obtain ⟨hmem, hakey⟩ := (get?_stateOf ha).mp hget
    obtain ⟨q, hq, hreached⟩ :=
      (detectModelAt_spec hgood hget hakey (hafter a hmem) h).2 model hmodel
    exact ⟨some q, hq, q, rfl, hreached⟩

/-- **Replaying what `Detect` returns leads to the new models.** -/
theorem replay_detect (hb : (before.map fun s => s.key).Nodup)
    (hbefore : ∀ s ∈ before, s.Valid) (ha : (after.map fun s => s.key).Nodup)
    (h : detect before after options = .ok ops) :
    (∀ a ∈ after, a.Valid) ∧
      ∃ σ, replay (before.map createModel ++ ops) = .ok σ ∧
        ∀ key, EndsAs (stateOf after) key (σ.get? key) := by
  obtain ⟨detected, old, edges, order, hdetected, hedges, htop, rfl⟩ := topological_of_detect h
  obtain ⟨hafter, hgood, hrenames, hsegments⟩ := detectOperations_eq_ok hb hbefore ha hdetected
  obtain ⟨σ₀, hσ₀, hsame₀⟩ := run_createModels before FinMap.empty FinMap.empty fun _ => rfl
  obtain ⟨-, ⟨σ, hσ, hsame⟩, -⟩ :=
    detectRenamesIn_spec hsame₀ (goodState_stateOf hb hbefore) hrenames
  have hmodels := fun key => runModel_segment ha hafter hgood (hsegments key) (hsame key)
  refine ⟨hafter, ?_⟩
  set result := order.map (opAt detected) with hresult
  have hkey : ∀ key, (result.filter fun op => !op.is .renameField).filter (fun op => op.key = key) =
      (detected.filter fun op => !op.is .renameField).filter fun op => op.key = key :=
    fun key => filter_key_rest hedges htop _ key
  have hnot : ∀ op ∈ result.filter (fun op => !op.is .renameField), op.is .renameField = false := by
    intro op hop
    simpa using (mem_filter.mp hop).2
  obtain ⟨σ', hσ'⟩ : ∃ σ', run (keyedStep Operation.key Operation.onModel) σ
      (result.filter fun op => !op.is .renameField) = .ok σ' := by
    refine run_keyedStep_exists fun key => ?_
    rw [hkey key]
    obtain ⟨model, hmodel, -⟩ := hmodels key
    exact ⟨model, hmodel⟩
  refine ⟨σ', ?_, fun key => ?_⟩
  · have hfirst : result = detected.filter (fun op => op.is .renameField) ++
        result.filter fun op => !op.is .renameField := renames_first hedges htop
    rw [replay, hfirst, ← append_assoc]
    refine run_append_eq_ok.mpr ⟨σ, run_append_eq_ok.mpr ⟨σ₀, hσ₀, hσ⟩, ?_⟩
    rw [run_applyOperation_eq hnot]
    exact hσ'
  · obtain ⟨model, hmodel, hends⟩ := hmodels key
    have hfinal := run_keyedStep_get? hσ' key
    rw [hkey key] at hfinal
    rw [runModel, hfinal, Except.ok.injEq] at hmodel
    exact hmodel ▸ hends

end Detect

/-! ## The snapshots -/

lemma mem_schemas : s ∈ σ.schemas ↔ ∃ key t, σ.get? key = some t ∧ t.clone = s := by
  simp only [State.schemas, mem_filterMap, mem_sortStrings, Option.map_eq_some_iff,
    FinMap.mem_keys]
  constructor
  · rintro ⟨key, -, t, ht, rfl⟩
    exact ⟨key, t, ht, rfl⟩
  · rintro ⟨key, t, ht, rfl⟩
    exact ⟨key, ⟨t, ht⟩, t, ht, rfl⟩

/-- When every model stands at its own key, the snapshots are sorted by key. -/
lemma map_key_schemas (h : ∀ key s, σ.get? key = some s → s.key = key) :
    σ.schemas.map (fun s => s.key) = sortStrings σ.keys := by
  unfold State.schemas
  rw [map_filterMap]
  have hkeys : ∀ key ∈ sortStrings σ.keys,
      ((σ.get? key).map Schema.clone).map (fun s => s.key) = some key := by
    intro key hkey
    obtain ⟨s, hs⟩ := σ.mem_keys.mp (mem_sortStrings.mp hkey)
    simp [hs, h key s hs]
  rw [filterMap_congr hkeys, filterMap_some]

/-- Two schemas that describe the same model: only the order of the fields may differ. -/
structure SameModel (s a : Schema) : Prop where
  options : s.toSchemaOptions = a.toSchemaOptions
  indexes : s.indexes = a.indexes
  constraints : s.constraints = a.constraints
  fieldNames : s.fieldNames.Perm a.fieldNames
  fields : ∀ g ∈ s.fields, ∀ f ∈ a.fields, g.name = f.name → fieldEquivalent g f = true

/-- The two lists have the same model keys and the same model at each. -/
structure Reproduces (schemas after : List Schema) : Prop where
  keys : (schemas.map fun s => s.key).Perm (after.map fun a => a.key)
  models : ∀ s ∈ schemas, ∀ a ∈ after, s.key = a.key → SameModel s a

lemma sameModel_clone_iff {q : Schema} (h : Reached q a) (ha : a.fieldNames.Nodup) :
    SameModel q.clone a ↔ ∀ f ∈ a.fields, fieldEquivalent f.clone f = true := by
  constructor
  · intro hsame f hf
    obtain ⟨g, hg, hm⟩ := h.fields.met f hf
    exact hm.fieldEquivalent_iff.mp
      (hsame.fields g.clone (mem_map_of_mem hg) f hf hm.name)
  · intro hself
    refine ⟨h.options, h.indexes, h.constraints, ?_, ?_⟩
    · rw [Schema.clone_fieldNames]
      exact (h.fields.sameSignatures ha).fieldNames
    · intro g hg f hf hname
      obtain ⟨g₀, hg₀, rfl⟩ := mem_map.mp hg
      obtain ⟨f', hf', hm⟩ := h.fields.origin g₀ hg₀
      have hsame : f' = f := inj_on_of_nodup_map ha hf' hf (hm.name.symm.trans hname)
      subst hsame
      exact hm.fieldEquivalent_iff.mpr (hself f' hf)

/-- A state whose models end as `after` has them reproduces `after` exactly when every field is
equivalent to its own snapshot. -/
lemma reproduces_schemas_iff {after : List Schema} (ha : (after.map fun s => s.key).Nodup)
    (hvalid : ∀ a ∈ after, a.Valid) (hends : ∀ key, EndsAs (stateOf after) key (σ.get? key)) :
    Reproduces σ.schemas after ↔
      ∀ a ∈ after, ∀ f ∈ a.fields, fieldEquivalent f.clone f = true := by
  have hsome : ∀ a ∈ after, ∃ q, σ.get? a.key = some q ∧ Reached q a := by
    intro a hmem
    have := hends a.key
    unfold EndsAs at this
    rw [(get?_stateOf ha).mpr ⟨hmem, rfl⟩] at this
    exact this
  have hback : ∀ key q, σ.get? key = some q → ∃ a ∈ after, a.key = key ∧ Reached q a := by
    intro key q hq
    have := hends key
    unfold EndsAs at this
    cases hget : (stateOf after).get? key with
    | none =>
      rw [hget] at this
      simp only at this
      rw [hq] at this
      cases this
    | some a =>
      obtain ⟨hmem, hkey⟩ := (get?_stateOf ha).mp hget
      rw [hget] at this
      obtain ⟨q', hq', hreached⟩ := this
      rw [hq, Option.some.injEq] at hq'
      exact ⟨a, hmem, hkey, hq' ▸ hreached⟩
  have hkeyOf : ∀ key q, σ.get? key = some q → q.key = key := by
    intro key q hq
    obtain ⟨a, -, hkey, hreached⟩ := hback key q hq
    exact (congrArg SchemaOptions.key hreached.options).trans hkey
  constructor
  · intro hrep a hmem
    obtain ⟨q, hq, hreached⟩ := hsome a hmem
    have hkey : q.clone.key = a.key := congrArg SchemaOptions.key hreached.options
    exact (sameModel_clone_iff hreached (hvalid a hmem).nodup_fieldNames).mp
      (hrep.models q.clone (mem_schemas.mpr ⟨a.key, q, hq, rfl⟩) a hmem hkey)
  · intro hself
    refine ⟨?_, ?_⟩
    · rw [map_key_schemas hkeyOf]
      refine (perm_ext_iff_of_nodup (nodup_sortStrings.mpr σ.nodup_keys) ha).mpr fun key => ?_
      rw [mem_sortStrings, σ.mem_keys, mem_map]
      constructor
      · rintro ⟨q, hq⟩
        obtain ⟨a, hmem, hkey, -⟩ := hback key q hq
        exact ⟨a, hmem, hkey⟩
      · rintro ⟨a, hmem, rfl⟩
        obtain ⟨q, hq, -⟩ := hsome a hmem
        exact ⟨q, hq⟩
    · intro s hs a hmem hkey
      obtain ⟨key, q, hq, rfl⟩ := mem_schemas.mp hs
      obtain ⟨a', hmem', hkey', hreached⟩ := hback key q hq
      have hsame : a' = a := by
        refine inj_on_of_nodup_map ha hmem' hmem ?_
        rw [← hkey, Schema.clone_key, hkeyOf key q hq, hkey']
      subst hsame
      exact (sameModel_clone_iff hreached (hvalid a' hmem).nodup_fieldNames).mpr (hself a' hmem)

/-! ## The state after the detected operations -/

/-- The history that creates the old models and then applies the detected operations. -/
def detectedHistory (before : List Schema) (ops : List Operation) : List Migration :=
  [{ operations := before.map createModel }, { operations := ops }]

section Reproduction

variable {before after : List Schema} {options : DetectOptions} {ops : List Operation}

/-- The history of detected operations always has a state. -/
lemma schemaState_detect (hb : (before.map fun s => s.key).Nodup)
    (hbefore : ∀ s ∈ before, s.validate = .ok ()) (ha : (after.map fun s => s.key).Nodup)
    (h : detect before after options = .ok ops) :
    ∃ schemas, schemaState (detectedHistory before ops) = .ok schemas ∧
      (Reproduces schemas after ↔
        ∀ a ∈ after, ∀ f ∈ a.fields, fieldEquivalent f.clone f = true) := by
  obtain ⟨hvalid, σ, hσ, hends⟩ := replay_detect hb
    (fun s hs => (Schema.validate_eq_ok_iff s).mp (hbefore s hs)) ha h
  refine ⟨σ.schemas, ?_, reproduces_schemas_iff ha hvalid hends⟩
  simp only [schemaState, detectedHistory, flatMap_cons, flatMap_nil, append_nil,
    bind_eq_ok]
  exact ⟨σ, hσ, rfl⟩

/-- **The detected operations reproduce the new models exactly when every new field is equivalent
to its own snapshot.** A field that is not, such as one whose `Choices` are allocated and empty,
comes back from the replay as its snapshot and so differs from what was asked for. -/
theorem detect_reproduces_iff (hb : (before.map fun s => s.key).Nodup)
    (hbefore : ∀ s ∈ before, s.validate = .ok ()) (ha : (after.map fun s => s.key).Nodup)
    (h : detect before after options = .ok ops) :
    (∃ schemas, schemaState (detectedHistory before ops) = .ok schemas ∧
        Reproduces schemas after) ↔
      ∀ a ∈ after, ∀ f ∈ a.fields, fieldEquivalent f.clone f = true := by
  obtain ⟨schemas, hstate, hiff⟩ := schemaState_detect hb hbefore ha h
  constructor
  · rintro ⟨schemas', hstate', hrep⟩
    rw [hstate, Except.ok.injEq] at hstate'
    exact hiff.mp (hstate' ▸ hrep)
  · exact fun hself => ⟨schemas, hstate, hiff.mpr hself⟩

end Reproduction

/-- A model with an automatic key and one text field. -/
def itemSchema (field : Field) : Schema :=
  { appLabel := "shop", name := "Item",
    fields := [{ name := "id", kind := .known .bigAuto, primaryKey := true }, field] }

/-- A text field without choices. -/
def stateField : Field := { name := "state", kind := .known .char, maxLength := 20 }

/-- The same field with room for choices, none of them declared. -/
def emptyChoicesField : Field := { stateField with choices := .of [] }

theorem detect_reproduces_altered_item :
    ∃ ops schemas,
      detect [itemSchema stateField] [itemSchema { stateField with maxLength := 40 }] {} = .ok ops ∧
        schemaState (detectedHistory [itemSchema stateField] ops) = .ok schemas ∧
        Reproduces schemas [itemSchema { stateField with maxLength := 40 }] := by
  have hok : (detect [itemSchema stateField] [itemSchema { stateField with maxLength := 40 }]
      {}).isOk = true := by decide +kernel
  cases hdetect : detect [itemSchema stateField]
      [itemSchema { stateField with maxLength := 40 }] {} with
  | error e =>
    rw [hdetect] at hok
    cases hok
  | ok ops =>
    obtain ⟨schemas, hstate, hrep⟩ := (detect_reproduces_iff (by decide)
      (by intro s hs; rw [mem_singleton] at hs; subst hs; rfl) (by decide) hdetect).mpr
      (by decide)
    exact ⟨ops, schemas, rfl, hstate, hrep⟩

/-- A new model whose field has allocated, empty choices is not reproduced. -/
theorem detect_empty_choices_not_reproduced :
    ∃ ops, detect [] [itemSchema emptyChoicesField] {} = .ok ops ∧
      ¬ ∃ schemas, schemaState (detectedHistory [] ops) = .ok schemas ∧
        Reproduces schemas [itemSchema emptyChoicesField] := by
  have hok : (detect [] [itemSchema emptyChoicesField] {}).isOk = true := by decide +kernel
  cases hdetect : detect [] [itemSchema emptyChoicesField] {} with
  | error e =>
    rw [hdetect] at hok
    cases hok
  | ok ops =>
    refine ⟨ops, rfl, ?_⟩
    rintro ⟨schemas, hstate, hrep⟩
    obtain ⟨schemas', hstate', hiff⟩ := schemaState_detect (by decide) (by simp) (by decide)
      hdetect
    rw [hstate, Except.ok.injEq] at hstate'
    subst hstate'
    exact absurd (hiff.mp hrep) (by decide)

end Gogo.Migrations

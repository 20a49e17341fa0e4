import Gogo.Migrations.Replay

/-!
# Replaying field changes

The field loop of `Detect` and its replay. A field of the new schema is added, altered or left
alone because it is equivalent to the old one; what is left of the old fields is removed.

* `Matches` — what the replayed field of a new field is: its snapshot, or the snapshot of an
  equivalent old field.
* `FieldLoop` — the invariant of the loop over the new fields.
* `FieldRun` — the rounds of that loop (`fieldRun_of_detectFields`).
* `FieldRun.spec`, `detectRemovedFields_spec` — the two loops keep the invariant, and the
  operations they emit replay to the same snapshots.
-/

namespace Gogo.Migrations

open List Gogo.Lib Gogo.Models

/-! ## Equivalent fields -/

lemma isPartialEquiv_fieldEquivalent : IsPartialEquiv fieldEquivalent :=
  Field.isPartialEquiv_deepEqual.comap comparedField

lemma comparedField_clone (f : Field) : comparedField f.clone = (comparedField f).clone := rfl

variable {b g f field : Field} {old : String} {l base : List Field} {previous a s : Schema}
  {oldFields : FinMap String Field}

lemma fieldEquivalent_clone {a : Field} (h : fieldEquivalent a b = true) :
    fieldEquivalent a.clone b.clone = true := by
  unfold fieldEquivalent
  rw [comparedField_clone, comparedField_clone]
  exact Field.deepEqual_clone _ _ h

lemma toFieldOptions_of_fieldEquivalent {a : Field} (h : fieldEquivalent a b = true) :
    a.toFieldOptions = b.toFieldOptions := by
  have hcompared : (comparedField a).toFieldOptions = (comparedField b).toFieldOptions :=
    Field.toFieldOptions_eq_of_deepEqual h
  exact hcompared

/-- The replayed field of a new field, up to `Clone`: the new field, or one equivalent to it. -/
def Matches (g f : Field) : Prop :=
  g.clone = f.clone ∨ fieldEquivalent g.clone f.clone = true

lemma signature_of_toFieldOptions {a : Field} (h : a.toFieldOptions = b.toFieldOptions) :
    a.signature = b.signature := by
  unfold Field.signature FieldOptions.dbColumn
  rw [h]

lemma Matches.signature (h : Matches g f) : g.signature = f.signature := by
  rw [← Field.signature_clone g, ← Field.signature_clone f]
  rcases h with h | h
  · rw [h]
  · exact signature_of_toFieldOptions (toFieldOptions_of_fieldEquivalent h)

lemma Matches.name (h : Matches g f) : g.name = f.name :=
  congrArg Prod.fst h.signature

lemma Matches.of_clone_eq {g' : Field} (heq : g'.clone = g.clone) (h : Matches g f) :
    Matches g' f := by
  unfold Matches at *
  rwa [heq]

lemma matches_clone (f : Field) : Matches f.clone f := .inl f.clone_clone

/-- **A replayed field is equivalent to its new field exactly when the new field is equivalent
to its own snapshot.** -/
theorem Matches.fieldEquivalent_iff (h : Matches g f) :
    fieldEquivalent g.clone f = true ↔ fieldEquivalent f.clone f = true := by
  rcases h with h | h
  · rw [h]
  · exact isPartialEquiv_fieldEquivalent.congr_left h

/-! ## Replacing a field -/

lemma replaceField_of_not_mem (h : old ∉ l.map fun f => f.name) :
    replaceField old field l = l ++ [field] := by
  induction l with
  | nil => rfl
  | cons f rest ih =>
    simp only [map_cons, mem_cons, not_or] at h
    rw [replaceField, if_neg (Ne.symm h.1), ih h.2, cons_append]

lemma replaceField_of_mem (hl : (l.map fun f => f.name).Nodup) (h : old ∈ l.map fun f => f.name) :
    replaceField old field l = l.map fun f => if f.name = old then field else f := by
  induction l with
  | nil => simp at h
  | cons f rest ih =>
    rw [map_cons, nodup_cons] at hl
    rw [replaceField, map_cons]
    by_cases hf : f.name = old
    · have hrest : rest.map (fun f => if f.name = old then field else f) = rest := by
        conv_rhs => rw [← map_id rest]
        refine map_congr_left fun g hg => ?_
        have hne : g.name ≠ old := fun heq =>
          hl.1 (mem_map.mpr ⟨g, hg, heq.trans hf.symm⟩)
        simp [hne]
      rw [if_pos hf, if_pos hf, hrest]
    · rw [if_neg hf, if_neg hf, ih hl.2]
      simpa [Ne.symm hf] using h

/-! ## The loop over the new fields -/

/-- What the loop keeps: `base` are the old fields, `done` the new fields met so far. -/
structure FieldLoop (base done : List Field) (previous : Schema)
    (oldFields : FinMap String Field) : Prop where
  nodup_base : (base.map fun f => f.name).Nodup
  nodup_names : previous.fieldNames.Nodup
  /-- A field of the snapshot belongs to a new field met so far or is an old field not met. -/
  origin : ∀ g ∈ previous.fields, (∃ f ∈ done, Matches g f) ∨
    ∃ o ∈ base, o.name ∉ done.map (fun f => f.name) ∧ g.clone = o.clone
  met : ∀ f ∈ done, ∃ g ∈ previous.fields, Matches g f
  kept : ∀ o ∈ base, o.name ∉ done.map (fun f => f.name) →
    ∃ g ∈ previous.fields, g.clone = o.clone
  remaining : ∀ name o, oldFields.get? name = some o ↔
    o ∈ base ∧ o.name = name ∧ name ∉ done.map fun f => f.name
  valid : ∀ g ∈ previous.fields, g.validate = .ok ()

section Loop

variable {base done : List Field} {previous : Schema} {oldFields : FinMap String Field}

/-- The loop starts with the old fields. -/
lemma FieldLoop.start (hnames : previous.fieldNames.Nodup)
    (hvalid : ∀ g ∈ previous.fields, g.validate = .ok ()) :
    FieldLoop previous.fields [] previous (fieldsByName previous) where
  nodup_base := hnames
  nodup_names := hnames
  origin g hg := .inr ⟨g, hg, by simp, rfl⟩
  met f hf := by simp at hf
  kept o ho _ := ⟨o, ho, rfl⟩
  remaining name o := by
    have hindex : (fieldsByName previous).get? name = some o ↔
        o ∈ previous.fields ∧ o.name = name := Named.get?_index hnames
    simp [hindex]
  valid := hvalid

variable {f o : Field} {old : String}

lemma mem_names_append {name : String} :
    name ∈ (done ++ [f]).map (fun f => f.name) ↔
      name ∈ done.map (fun f => f.name) ∨ name = f.name := by
  simp

/-- The remaining old fields after one more new field. -/
lemma FieldLoop.remaining_erase (h : FieldLoop base done previous oldFields) (f : Field)
    (name : String) (o : Field) :
    (oldFields.erase f.name).get? name = some o ↔
      o ∈ base ∧ o.name = name ∧ name ∉ (done ++ [f]).map fun f => f.name := by
  rw [FinMap.get?_erase, mem_names_append, not_or]
  by_cases hname : f.name = name
  · simp [hname]
  · rw [if_neg hname, h.remaining]
    simp [Ne.symm hname]

/-- A new field that is equivalent to the old field of its name changes nothing. -/
lemma FieldLoop.skip (h : FieldLoop base done previous oldFields)
    (hold : oldFields.get? f.name = some o) (heq : fieldEquivalent o f = true) :
    FieldLoop base (done ++ [f]) previous (oldFields.erase f.name) := by
  obtain ⟨ho, hname, hdone⟩ := (h.remaining f.name o).mp hold
  have hmatch : ∀ g, g.clone = o.clone → Matches g f := fun g hg =>
    .inr (hg ▸ fieldEquivalent_clone heq)
  refine ⟨h.nodup_base, h.nodup_names, ?_, ?_, ?_, h.remaining_erase f, h.valid⟩
  · intro g hg
    rcases h.origin g hg with ⟨f', hf', hm⟩ | ⟨o', ho', hdone', hclone⟩
    · exact .inl ⟨f', mem_append_left _ hf', hm⟩
    · by_cases hsame : o'.name = f.name
      · have : o' = o := inj_on_of_nodup_map h.nodup_base ho' ho (hsame.trans hname.symm)
        exact .inl ⟨f, by simp, hmatch g (this ▸ hclone)⟩
      · exact .inr ⟨o', ho', by rw [mem_names_append]; tauto, hclone⟩
  · intro f' hf'
    rcases mem_append.mp hf' with hf' | hf'
    · exact h.met f' hf'
    · rw [mem_singleton] at hf'
      subst hf'
      obtain ⟨g, hg, hclone⟩ := h.kept o ho (hname ▸ hdone)
      exact ⟨g, hg, hmatch g hclone⟩
  · intro o' ho' hdone'
    rw [mem_names_append, not_or] at hdone'
    exact h.kept o' ho' hdone'.1

/-- The name of a field of the snapshot has been met or is an old name. -/
lemma FieldLoop.name_fresh (h : FieldLoop base done previous oldFields)
    (hold : oldFields.get? f.name = none) (hdone : f.name ∉ done.map fun f => f.name) :
    f.name ∉ previous.fieldNames := by
  intro hmem
  obtain ⟨g, hg, hname⟩ := Schema.mem_fieldNames.mp hmem
  rcases h.origin g hg with ⟨f', hf', hm⟩ | ⟨o, ho, hdone', hclone⟩
  · exact hdone (mem_map.mpr ⟨f', hf', hm.name.symm.trans hname⟩)
  · have honame : o.name = f.name := by
      have := congrArg (fun f : Field => f.name) hclone
      simpa [hname] using this.symm
    have hget := (h.remaining f.name o).mpr ⟨ho, honame, hdone⟩
    rw [hold] at hget
    cases hget

lemma fieldStateAfter_fields_of_not_mem (h : old ∉ previous.fieldNames) :
    (fieldStateAfter previous old f).fields = previous.fields.map Field.clone ++ [f.clone] := by
  refine replaceField_of_not_mem ?_
  rw [← Schema.clone_fieldNames] at h
  exact h

lemma fieldStateAfter_fields_of_mem (hnames : previous.fieldNames.Nodup)
    (h : old ∈ previous.fieldNames) :
    (fieldStateAfter previous old f).fields =
      (previous.fields.map Field.clone).map fun g => if g.name = old then f.clone else g := by
  rw [← Schema.clone_fieldNames] at h hnames
  exact replaceField_of_mem hnames h

lemma validate_clone (h : f.validate = .ok ()) : f.clone.validate = .ok () :=
  Field.validate_of_judged_eq f.judged_clone h

section

variable (h : FieldLoop base done previous oldFields)

include h

/-- A new field takes the place of the old field of its name, or comes as a new one. -/
lemma FieldLoop.put {next : Schema} {oldFields' : FinMap String Field}
    (hdone : f.name ∉ done.map fun f => f.name) (hf : f.validate = .ok ())
    (hnames : next.fieldNames.Nodup)
    (hmem : ∀ g, g ∈ next.fields ↔ (∃ g' ∈ previous.fields, g'.name ≠ f.name ∧ g'.clone = g) ∨ g =
      f.clone)
    (hremaining : ∀ name o, oldFields'.get? name = some o ↔ o ∈ base ∧ o.name = name ∧ name ∉ (done
      ++ [f]).map fun f => f.name) : FieldLoop base (done ++ [f]) next oldFields' := by
  have hclone_name : ∀ {g o : Field}, g.clone = o.clone → g.name = o.name := fun {g o} hclone => by
    simpa using congrArg (fun f : Field => f.name) hclone
  refine ⟨h.nodup_base, hnames, ?_, ?_, ?_, hremaining, ?_⟩
  · intro g hg
    rcases (hmem g).mp hg with ⟨g', hg', hn, rfl⟩ | rfl
    · rcases h.origin g' hg' with ⟨f', hf', hm⟩ | ⟨o, ho, hdone', hclone⟩
      · exact .inl ⟨f', mem_append_left _ hf', hm.of_clone_eq g'.clone_clone⟩
      · refine .inr ⟨o, ho, ?_, by rw [Field.clone_clone, hclone]⟩
        rw [mem_names_append, not_or]
        exact ⟨hdone', fun heq => hn ((hclone_name hclone).trans heq)⟩
    · exact .inl ⟨f, by simp, matches_clone f⟩
  · intro f' hf'
    rcases mem_append.mp hf' with hf' | hf'
    · obtain ⟨g, hg, hm⟩ := h.met f' hf'
      have hn : g.name ≠ f.name := fun heq =>
        hdone (mem_map.mpr ⟨f', hf', hm.name.symm.trans heq⟩)
      exact ⟨g.clone, (hmem _).mpr (.inl ⟨g, hg, hn, rfl⟩), hm.of_clone_eq g.clone_clone⟩
    · rw [mem_singleton] at hf'
      subst hf'
      exact ⟨f'.clone, (hmem _).mpr (.inr rfl), matches_clone f'⟩
  · intro o ho hdone'
    rw [mem_names_append, not_or] at hdone'
    obtain ⟨g, hg, hclone⟩ := h.kept o ho hdone'.1
    have hn : g.name ≠ f.name := fun heq => hdone'.2 ((hclone_name hclone).symm.trans heq)
    exact ⟨g.clone, (hmem _).mpr (.inl ⟨g, hg, hn, rfl⟩), by rw [Field.clone_clone, hclone]⟩
  · intro g hg
    rcases (hmem g).mp hg with ⟨g', hg', -, rfl⟩ | rfl
    · exact validate_clone (h.valid g' hg')
    · exact validate_clone hf

/-- A new field without an old field of its name is appended. -/
lemma FieldLoop.append (hold : oldFields.get? f.name = none)
    (hdone : f.name ∉ done.map fun f => f.name) (hf : f.validate = .ok ()) :
    FieldLoop base (done ++ [f]) (fieldStateAfter previous f.name f) oldFields := by
  have hfresh := h.name_fresh hold hdone
  have hfields := fieldStateAfter_fields_of_not_mem (f := f) hfresh
  refine h.put hdone hf ?_ (fun g => ?_) fun name o => ?_
  · rw [Schema.fieldNames, hfields, map_append, nodup_append]
    refine ⟨?_, by simp, ?_⟩
    · simpa [Schema.fieldNames, Function.comp_def] using h.nodup_names
    · rintro a ha b hb rfl
      have ha' : a ∈ previous.fieldNames := by
        simpa [Schema.fieldNames, Function.comp_def] using ha
      exact hfresh ((by simpa using hb : a = f.name) ▸ ha')
  · have hne : ∀ g' ∈ previous.fields, g'.name ≠ f.name := fun g' hg' heq =>
      hfresh (Schema.mem_fieldNames.mpr ⟨g', hg', heq⟩)
    rw [hfields, mem_append, mem_map, mem_singleton]
    refine or_congr_left (exists_congr fun g' => and_congr_right fun hg' => ?_)
    exact (and_iff_right (hne g' hg')).symm
  · rw [h.remaining, mem_names_append, not_or]
    refine and_congr_right fun ho => and_congr_right fun hname => ?_
    refine ⟨fun hn => ⟨hn, ?_⟩, fun hn => hn.1⟩
    rintro rfl
    have hget := (h.remaining f.name o).mpr ⟨ho, hname, hdone⟩
    rw [hold] at hget
    cases hget

/-- The old field of a name that is still to come is in the snapshot. -/
lemma FieldLoop.name_mem (hold : oldFields.get? f.name = some o) :
    o.name = f.name ∧ o.name ∈ previous.fieldNames := by
  obtain ⟨ho, hname, hdone⟩ := (h.remaining f.name o).mp hold
  obtain ⟨g, hg, hgclone⟩ := h.kept o ho (hname ▸ hdone)
  have hclone := congrArg (fun f : Field => f.name) hgclone
  exact ⟨hname, Schema.mem_fieldNames.mpr ⟨g, hg, by simpa using hclone⟩⟩

/-- A new field that differs from the old field of its name takes its place. -/
lemma FieldLoop.replace (hold : oldFields.get? f.name = some o) (hf : f.validate = .ok ()) :
    FieldLoop base (done ++ [f]) (fieldStateAfter previous o.name f)
      (oldFields.erase f.name) := by
  obtain ⟨hname, hmem⟩ := h.name_mem hold
  obtain ⟨g₀, hg₀, hname₀⟩ := Schema.mem_fieldNames.mp hmem
  have hfields := fieldStateAfter_fields_of_mem (f := f) h.nodup_names hmem
  refine h.put ((h.remaining f.name o).mp hold).2.2 hf ?_ (fun g => ?_) (h.remaining_erase f)
  · have hsame : (fieldStateAfter previous o.name f).fieldNames = previous.fieldNames := by
      rw [Schema.fieldNames, hfields, Schema.fieldNames, List.map_map, List.map_map]
      refine map_congr_left fun g _ => ?_
      by_cases hn : g.name = o.name
      · simp [hn, hname]
      · simp [hn]
    rw [hsame]
    exact h.nodup_names
  · rw [hfields, ← hname]
    simp only [List.map_map, mem_map, Function.comp_apply]
    constructor
    · rintro ⟨g', hg', heq⟩
      by_cases hn : g'.clone.name = o.name
      · rw [if_pos hn] at heq
        exact .inr heq.symm
      · rw [if_neg hn] at heq
        exact .inl ⟨g', hg', hn, heq⟩
    · rintro (⟨g', hg', hn, rfl⟩ | rfl)
      · exact ⟨g', hg', if_neg hn⟩
      · exact ⟨g₀, hg₀, if_pos hname₀⟩

end

/-! ## The operations of the loop -/

/-- Every operation is about one model and none is a rename. -/
def AboutModel (key : String) (ops : List Operation) : Prop :=
  ∀ op ∈ ops, op.key = key ∧ op.is .renameField = false

lemma runModel_addField (h : f.name ∉ previous.fieldNames) :
    ∃ q, (addField previous f).onModel (some previous) = .ok (some q) ∧
      q.clone = (fieldStateAfter previous f.name f).clone := by
  refine ⟨{ previous with fields := previous.fields ++ [f] }, rfl, ?_⟩
  rw [clone_eq_clone_iff]
  refine ⟨rfl, ?_, rfl, rfl⟩
  rw [fieldStateAfter_fields_of_not_mem h]
  simp [Function.comp_def]

lemma runModel_alterField (hnames : previous.fieldNames.Nodup) (h : o.name ∈ previous.fieldNames) :
    ∃ q, (alterField previous o f).onModel (some previous) = .ok (some q) ∧
      q.clone = (fieldStateAfter previous o.name f).clone := by
  refine ⟨{ previous with
    fields := previous.fields.map fun g => if g.name = o.name then f else g }, rfl, ?_⟩
  rw [clone_eq_clone_iff]
  refine ⟨rfl, ?_, rfl, rfl⟩
  rw [fieldStateAfter_fields_of_mem hnames h, map_clone_alter, List.map_map, List.map_map]
  refine map_congr_left fun g _ => ?_
  by_cases hn : g.name = o.name <;> simp [hn]

end Loop

/-- The rounds of the loop over the new fields, each from a state with the invariant. -/
inductive FieldRun (base : List Field) : List Field → List Field → Schema → FinMap String Field →
    List Operation → Schema → FinMap String Field → Prop
  | ends {done previous oldFields} (h : FieldLoop base done previous oldFields) :
      FieldRun base done [] previous oldFields [] previous oldFields
  | adds {done rest previous oldFields ops previous' oldFields'} {f : Field}
      (h : FieldLoop base done previous oldFields) (hdone : f.name ∉ done.map fun f => f.name)
      (hold : oldFields.get? f.name = none)
      (hrest : FieldRun base (done ++ [f]) rest (fieldStateAfter previous f.name f) oldFields ops
        previous' oldFields') :
      FieldRun base done (f :: rest) previous oldFields (addField previous f :: ops) previous'
        oldFields'
  | keeps {done rest previous oldFields ops previous' oldFields'} {f o : Field}
      (h : FieldLoop base done previous oldFields) (hdone : f.name ∉ done.map fun f => f.name)
      (hold : oldFields.get? f.name = some o) (hequiv : fieldEquivalent o f = true)
      (hrest : FieldRun base (done ++ [f]) rest previous (oldFields.erase f.name) ops previous'
        oldFields') :
      FieldRun base done (f :: rest) previous oldFields ops previous' oldFields'
  | alters {done rest previous oldFields ops previous' oldFields'} {f o : Field}
      (h : FieldLoop base done previous oldFields) (hdone : f.name ∉ done.map fun f => f.name)
      (hold : oldFields.get? f.name = some o) (hequiv : ¬ fieldEquivalent o f = true)
      (hrest : FieldRun base (done ++ [f]) rest (fieldStateAfter previous o.name f)
        (oldFields.erase f.name) ops previous' oldFields') :
      FieldRun base done (f :: rest) previous oldFields (alterField previous o f :: ops)
        previous' oldFields'

section Rounds

variable {base done rest : List Field} {previous previous' : Schema}
  {oldFields oldFields' : FinMap String Field} {ops : List Operation}

/-- **The loop over the new fields goes through such rounds.** -/
theorem fieldRun_of_detectFields {key : String} (h : FieldLoop base done previous oldFields)
    (hnodup : ((done ++ rest).map fun f => f.name).Nodup)
    (hvalid : ∀ f ∈ rest, f.validate = .ok ())
    (hrun : detectFields key rest previous oldFields = .ok (ops, previous', oldFields')) :
    FieldRun base done rest previous oldFields ops previous' oldFields' := by
  induction rest generalizing done previous oldFields ops with
  | nil =>
    simp only [detectFields, Except.ok.injEq, Prod.mk.injEq] at hrun
    obtain ⟨rfl, rfl, rfl⟩ := hrun
    exact .ends h
  | cons f rest ih =>
    obtain ⟨hnodup, hdone⟩ := Named.nodup_step hnodup
    have hf := hvalid f mem_cons_self
    have hvalid' : ∀ g ∈ rest, g.validate = .ok () := fun g hg =>
      hvalid g (mem_cons_of_mem _ hg)
    rw [detectFields] at hrun
    rcases hold : oldFields.get? f.name with _ | o
    · simp only [hold, bind_eq_ok, failIf_eq_ok] at hrun
      obtain ⟨-, -, ⟨ops', previous'', oldFields''⟩, hrest, heq⟩ := hrun
      simp only [Except.ok.injEq, Prod.mk.injEq] at heq
      obtain ⟨rfl, rfl, rfl⟩ := heq
      exact .adds h hdone hold (ih (h.append hold hdone hf) hnodup hvalid' hrest)
    · simp only [hold] at hrun
      split_ifs at hrun with hequiv
      · exact .keeps h hdone hold hequiv (ih (h.skip hold hequiv) hnodup hvalid' hrun)
      · simp only [bind_eq_ok] at hrun
        obtain ⟨⟨ops', previous'', oldFields''⟩, hrest, heq⟩ := hrun
        simp only [Except.ok.injEq, Prod.mk.injEq] at heq
        obtain ⟨rfl, rfl, rfl⟩ := heq
        exact .alters h hdone hold hequiv (ih (h.replace hold hf) hnodup hvalid' hrest)

lemma AboutModel.cons {key : String} {op : Operation} (hkey : op.key = key)
    (hrename : op.is .renameField = false) (h : AboutModel key ops) : AboutModel key (op :: ops) :=
  forall_mem_cons.mpr ⟨⟨hkey, hrename⟩, h⟩

/-- **The loop over the new fields keeps its invariant, and its operations replay to the
detector's snapshot.** -/
theorem FieldRun.spec (h : FieldRun base done rest previous oldFields ops previous' oldFields') :
    FieldLoop base (done ++ rest) previous' oldFields' ∧
      previous'.toSchemaOptions = previous.toSchemaOptions ∧
      previous'.indexes = previous.indexes ∧ previous'.constraints = previous.constraints ∧
      AboutModel previous.key ops ∧ Replays previous ops previous' := by
  induction h with
  | ends h => exact ⟨by simpa using h, rfl, rfl, rfl, by simp [AboutModel], .refl _⟩
  | adds h hdone hold _ ih =>
    rw [append_assoc] at ih
    obtain ⟨hloop, hopts, hidx, hcons, habout, hreplays⟩ := ih
    obtain ⟨q, hq, hqclone⟩ := runModel_addField (h.name_fresh hold hdone)
    exact ⟨hloop, hopts, hidx, hcons, habout.cons rfl rfl, hreplays.cons hq hqclone⟩
  | keeps _ _ _ _ _ ih =>
    rw [append_assoc] at ih
    exact ih
  | alters h _ hold _ _ ih =>
    rw [append_assoc] at ih
    obtain ⟨hloop, hopts, hidx, hcons, habout, hreplays⟩ := ih
    obtain ⟨q, hq, hqclone⟩ := runModel_alterField h.nodup_names (h.name_mem hold).2
    exact ⟨hloop, hopts, hidx, hcons, habout.cons rfl rfl, hreplays.cons hq hqclone⟩

end Rounds

/-! ## The loop over the removed fields -/

/-- The schema without some of its fields. -/
def withoutFields (s : Schema) (names : List String) : Schema :=
  { s with fields := s.fields.filter fun f => f.name ∉ names }

/-- **The removals replay to the snapshot without the removed fields.** -/
theorem detectRemovedFields_spec {key : String} {options : DetectOptions} {names : List String}
    {ops : List Operation}
    (hold : ∀ name ∈ names, ∃ o, oldFields.get? name = some o ∧ o.name = name)
    (hrun : detectRemovedFields key options oldFields names previous = .ok ops) :
    AboutModel previous.key ops ∧ Replays previous ops (withoutFields previous names) := by
  induction names generalizing previous ops with
  | nil =>
    simp only [detectRemovedFields, Except.ok.injEq] at hrun
    subst hrun
    have hsame : withoutFields previous [] = previous := by simp [withoutFields]
    rw [hsame]
    exact ⟨by simp [AboutModel], .refl previous⟩
  | cons name rest ih =>
    simp only [detectRemovedFields, bind_eq_ok, failIf_eq_ok, Except.ok.injEq] at hrun
    obtain ⟨-, -, ops', hrest, rfl⟩ := hrun
    obtain ⟨o, ho, hname⟩ := hold name mem_cons_self
    obtain ⟨habout, hreplays⟩ := ih (fun n hn => hold n (mem_cons_of_mem _ hn)) hrest
    have hsame : withoutFields { previous with
        fields := previous.fields.filter fun f => f.name ≠ name } rest =
        withoutFields previous (name :: rest) := by
      simp only [withoutFields, filter_filter]
      congr 1
      refine filter_congr fun f _ => ?_
      simp [Bool.and_comm]
    rw [hsame] at hreplays
    refine ⟨?_, hreplays.cons ?_ rfl⟩
    · intro op hop
      rcases mem_cons.mp hop with rfl | hop
      · exact ⟨rfl, rfl⟩
      · exact habout op hop
    · rw [ho, Option.getD_some]
      show Except.ok (some { previous with
        fields := previous.fields.filter fun f => f.name ≠ o.name }) = _
      rw [hname]

/-! ## The result -/

/-- The fields of `s` are the fields of `a` up to order, each as replayed. -/
structure Merged (s a : Schema) : Prop where
  nodup_names : s.fieldNames.Nodup
  origin : ∀ g ∈ s.fields, ∃ f ∈ a.fields, Matches g f
  met : ∀ f ∈ a.fields, ∃ g ∈ s.fields, Matches g f
  valid : ∀ g ∈ s.fields, g.validate = .ok ()

lemma Merged.sameSignatures (h : Merged s a) (ha : a.fieldNames.Nodup) : s.SameSignatures a := by
  have hnodup (t : Schema) (ht : t.fieldNames.Nodup) : (t.fields.map Field.signature).Nodup := by
    refine Nodup.of_map Prod.fst ?_
    rw [List.map_map]
    exact ht
  refine (perm_ext_iff_of_nodup (hnodup s h.nodup_names) (hnodup a ha)).mpr fun x => ?_
  simp only [mem_map]
  constructor
  · rintro ⟨g, hg, rfl⟩
    obtain ⟨f, hf, hm⟩ := h.origin g hg
    exact ⟨f, hf, hm.signature.symm⟩
  · rintro ⟨f, hf, rfl⟩
    obtain ⟨g, hg, hm⟩ := h.met f hf
    exact ⟨g, hg, hm.signature⟩

lemma Merged.of_clone_eq {s' : Schema} (h : Merged s a) (heq : s'.clone = s.clone) :
    Merged s' a := by
  obtain ⟨-, hfields, -, -⟩ := clone_eq_clone_iff.mp heq
  have hmem : ∀ {t t' : Schema}, t.fields.map Field.clone = t'.fields.map Field.clone →
      ∀ g ∈ t.fields, ∃ g' ∈ t'.fields, g.clone = g'.clone := by
    intro t t' ht g hg
    have : g.clone ∈ t'.fields.map Field.clone := ht ▸ mem_map_of_mem hg
    obtain ⟨g', hg', heq⟩ := mem_map.mp this
    exact ⟨g', hg', heq.symm⟩
  refine ⟨?_, ?_, ?_, ?_⟩
  · rw [← Schema.clone_fieldNames, heq, Schema.clone_fieldNames]
    exact h.nodup_names
  · intro g hg
    obtain ⟨g', hg', hclone⟩ := hmem hfields g hg
    obtain ⟨f, hf, hm⟩ := h.origin g' hg'
    exact ⟨f, hf, hm.of_clone_eq hclone⟩
  · intro f hf
    obtain ⟨g, hg, hm⟩ := h.met f hf
    obtain ⟨g', hg', hclone⟩ := hmem hfields.symm g hg
    exact ⟨g', hg', hm.of_clone_eq hclone.symm⟩
  · intro g hg
    obtain ⟨g', hg', hclone⟩ := hmem hfields g hg
    refine Field.validate_of_judged_eq ?_ (h.valid g' hg')
    rw [← Field.judged_clone g, hclone, Field.judged_clone]

/-- After the removals, only the fields of the new schema are left. -/
lemma FieldLoop.merged (h : FieldLoop base a.fields previous oldFields) :
    Merged (withoutFields previous (sortStrings oldFields.keys)) a := by
  have hmem : ∀ g, g ∈ (withoutFields previous (sortStrings oldFields.keys)).fields ↔
      g ∈ previous.fields ∧ oldFields.get? g.name = none := by
    intro g
    simp [withoutFields, FinMap.not_mem_keys]
  have hgone : ∀ f ∈ a.fields, oldFields.get? f.name = none := by
    intro f hf
    rw [Option.eq_none_iff_forall_not_mem]
    intro o ho
    exact ((h.remaining f.name o).mp ho).2.2 (mem_map_of_mem hf)
  refine ⟨?_, ?_, ?_, ?_⟩
  · exact h.nodup_names.sublist (filter_sublist.map _)
  · intro g hg
    obtain ⟨hg, hnone⟩ := (hmem g).mp hg
    rcases h.origin g hg with hm | ⟨o, ho, hdone, hclone⟩
    · exact hm
    · have hname : o.name = g.name := by
        have := congrArg (fun f : Field => f.name) hclone
        simpa using this.symm
      have := (h.remaining g.name o).mpr ⟨ho, hname, hname ▸ hdone⟩
      rw [hnone] at this
      cases this
  · intro f hf
    obtain ⟨g, hg, hm⟩ := h.met f hf
    exact ⟨g, (hmem g).mpr ⟨hg, hm.name ▸ hgone f hf⟩, hm⟩
  · intro g hg
    exact h.valid g ((hmem g).mp hg).1

end Gogo.Migrations

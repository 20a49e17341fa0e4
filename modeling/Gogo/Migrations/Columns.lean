import Gogo.Migrations.Soundness

/-!
# Columns between two states

Whether every state between the old and the new models could be built: distinct field names and
distinct columns after every prefix of the detected operations.

* `slots` — what matters of a schema here: the name and the explicit column of each field. Every
  operation acts on the slots of its own model alone, renames included (`run_slots`).
* `Distinct` — distinct names and distinct columns.
* `ColumnSafe` — the condition on the input: no field without an explicit column is declared to be
  renamed to the explicit column of another one, and no new field takes the column of an old field
  that is handled after it.
* `detect_prefix_distinct_iff` — **every prefix of the detected operations describes distinct
  names and columns exactly when the input is column-safe.** Fields are added and altered in the
  order of the new schema and removed afterwards, so an added field meets the columns of all old
  fields that are altered later or removed.
-/

namespace Gogo.Migrations

open List Gogo.Lib Gogo.Models

/-! ## Slots -/

/-- The name and the explicit column of a field. -/
abbrev Slot := String × String

def slot (f : Field) : Slot := (f.name, f.column)

/-- The column of a slot: the explicit one, or the name. -/
def slotColumn (x : Slot) : String := if x.2 ≠ "" then x.2 else x.1

/-- The slots of a model; an absent model has none. -/
def slots (model : Option Schema) : List Slot := (model.getD {}).fields.map slot

def slotsAfter (l : List Slot) (op : Operation) : List Slot :=
  match op.kind with
  | .known .createModel => slots (some op.schema)
  | .known .deleteModel => []
  | .known .addField => l ++ [slot op.field]
  | .known .removeField => l.filter fun x => x.1 ≠ op.field.name
  | .known .alterField => l.map fun x => if x.1 = op.oldField.name then slot op.field else x
  | .known .renameField => l.map fun x => (renameName op.oldName op.name x.1, x.2)
  | _ => l

/-- Distinct names and distinct columns. -/
def Distinct (l : List Slot) : Prop := (l.map Prod.fst).Nodup ∧ (l.map slotColumn).Nodup

variable {s previous p a : Schema} {l l' l₀ : List Slot} {op : Operation} {σ σ' : State}
  {ops : List Operation} {name key : String} {done base : List Field} {f : Field}
  {oldFields : FinMap String Field} {options : DetectOptions}

lemma distinct_slots : Distinct (slots (some s)) ↔ s.fieldNames.Nodup ∧ s.columns.Nodup := by
  unfold Distinct slots Schema.fieldNames Schema.columns
  rw [map_map, map_map]
  rfl

lemma Distinct.perm (h : Distinct l) (hperm : l.Perm l') : Distinct l' :=
  ⟨(hperm.map _).nodup_iff.mp h.1, (hperm.map _).nodup_iff.mp h.2⟩

lemma Distinct.sublist (h : Distinct l') (hsub : l.Sublist l') : Distinct l :=
  ⟨h.1.sublist (hsub.map _), h.2.sublist (hsub.map _)⟩

@[simp] lemma slot_clone (f : Field) : slot f.clone = slot f := rfl

@[simp] lemma slots_clone (s : Schema) : slots (some s.clone) = slots (some s) := by
  simp [slots, Schema.clone, Function.comp_def]

lemma slots_of_fields_eq {t : Schema} (h : s.fields.map Field.clone = t.fields.map Field.clone) :
    slots (some s) = slots (some t) := by
  have hs : ∀ r : Schema, slots (some r) = (r.fields.map Field.clone).map slot := by
    intro r
    unfold slots
    rw [map_map]
    rfl
  rw [hs, hs, h]

lemma slots_renamedSchema (s : Schema) (old new : String) :
    slots (some (renamedSchema s old new)) =
      (slots (some s)).map fun x => (renameName old new x.1, x.2) := by
  unfold slots renamedSchema Schema.clone
  simp only [Option.getD_some, map_map]
  rfl

lemma slots_renameReferences (model old new : String) (s : Schema) :
    slots (some (renameReferences model old new s)) = slots (some s) := by
  unfold slots
  rw [Option.getD_some, renameReferences_fields, map_map]
  rfl

lemma slots_applyPart {α : Type} {part : Part α} {change : List α → Except Err (List α)}
    {s' : Schema} (h : applyPart part change s = .ok s') : slots (some s') = slots (some s) := by
  obtain ⟨values, -, -, rfl⟩ := applyPart_eq_ok.mp h
  unfold slots
  rw [Option.getD_some, part.fields_set]
  exact slots_clone s

/-- An operation acts on the slots of its model. -/
lemma slots_onModel {model model' : Option Schema} (h : op.onModel model = .ok model') :
    slots model' = slotsAfter (slots model) op := by
  unfold Operation.onModel at h
  unfold slotsAfter
  split at h <;> rename_i hkind <;> simp only [hkind]
  · cases h
    exact slots_clone _
  · cases h
    rfl
  · cases h
    simp [slots]
  · cases h
    unfold slots
    rw [Option.getD_some, filter_map]
    rfl
  · cases h
    unfold slots
    rw [Option.getD_some, map_map, map_map]
    apply map_congr_left
    intro f _
    by_cases hf : f.name = op.oldField.name <;> simp [slot, hf]
  · obtain ⟨s, hs, rfl⟩ := map_eq_ok.mp h
    obtain ⟨-, -, -, rfl⟩ := renameFieldState_eq_ok hs
    exact slots_renamedSchema _ _ _
  all_goals
    first
    | (obtain ⟨s, hs, rfl⟩ := map_eq_ok.mp h
       exact slots_applyPart hs)
    | (obtain rfl := Except.ok.inj h
       rfl)

/-- One operation on the state, seen from one model. -/
lemma slots_applyOperation (h : applyOperation σ op = .ok σ') (key : String) :
    slots (σ'.get? key) =
      if op.key = key then slotsAfter (slots (σ.get? key)) op else slots (σ.get? key) := by
  unfold applyOperation at h
  obtain ⟨next, hnext, h⟩ := bind_eq_ok.mp h
  obtain ⟨model, hmodel, rfl⟩ := keyedStep_eq_ok.mp hnext
  have hput : slots ((σ.put op.key model).get? key) =
      if op.key = key then slotsAfter (slots (σ.get? key)) op else slots (σ.get? key) := by
    rw [FinMap.get?_put]
    split_ifs with hkey
    · subst hkey
      exact slots_onModel hmodel
    · rfl
  split_ifs at h with hrename
  · cases h
    rw [← hput, get?_followRename]
    rcases (σ.put op.key model).get? key with _ | s
    · rfl
    · rw [Option.map_some]
      split_ifs
      · rfl
      · exact slots_renameReferences _ _ _ s
  · cases h
    exact hput

/-- **The slots of a model after a run depend on the operations of its own key alone.** -/
theorem run_slots (h : run applyOperation σ ops = .ok σ') (key : String) :
    slots (σ'.get? key) =
      (ops.filter fun op => op.key = key).foldl slotsAfter (slots (σ.get? key)) := by
  induction ops generalizing σ with
  | nil =>
    cases h
    rfl
  | cons op rest ih =>
    obtain ⟨σ₁, hσ₁, hrest⟩ := run_cons_eq_ok.mp h
    rw [ih hrest, slots_applyOperation hσ₁ key]
    by_cases hkey : op.key = key
    · rw [if_pos hkey, filter_cons_of_pos (by simpa using hkey), foldl_cons]
    · rw [if_neg hkey, filter_cons_of_neg (by simpa using hkey)]

/-! ## The stages of the field loop -/

/-- The slots after one more new field: in place of the slot of its name, or at the end. -/
def mergeSlot (l : List Slot) (f : Field) : List Slot :=
  if f.name ∈ l.map Prod.fst then l.map fun x => if x.1 = f.name then slot f else x
  else l ++ [slot f]

lemma mem_slots_names : name ∈ (slots (some s)).map Prod.fst ↔ name ∈ s.fieldNames := by
  unfold slots Schema.fieldNames
  rw [map_map]
  rfl

/-- Replacing the slot of a name moves the new slot to the front, up to order. -/
lemma map_replace_perm {m : List Slot} {y : Slot} (hm : (m.map Prod.fst).Nodup)
    (hname : name ∈ m.map Prod.fst) :
    (m.map fun x => if x.1 = name then y else x).Perm (y :: m.filter fun x => x.1 ≠ name) := by
  induction m with
  | nil => simp at hname
  | cons x rest ih =>
    rw [map_cons, nodup_cons] at hm
    by_cases hx : x.1 = name
    · have hne : ∀ z ∈ rest, z.1 ≠ name := by
        intro z hz heq
        apply hm.1
        rw [hx, ← heq]
        exact mem_map_of_mem hz
      have hmap : (rest.map fun z => if z.1 = name then y else z) = rest := by
        conv_rhs => rw [← map_id rest]
        exact map_congr_left fun z hz => by simp [hne z hz]
      have hfilter : (rest.filter fun z => z.1 ≠ name) = rest :=
        filter_eq_self.mpr fun z hz => by simpa using hne z hz
      rw [map_cons, if_pos hx, hmap, filter_cons_of_neg (by simpa using hx), hfilter]
    · have hrest : name ∈ rest.map Prod.fst := by
        rw [map_cons, mem_cons] at hname
        exact hname.resolve_left (Ne.symm hx)
      rw [map_cons, if_neg hx, filter_cons_of_pos (by simpa using hx)]
      exact ((ih hm.2 hrest).cons x).trans (Perm.swap y x _)

/-- **The slots at a stage of the loop**: those of the new fields met so far and those of the old
fields whose names have not been met. -/
lemma foldl_mergeSlot_perm (h₀ : (l₀.map Prod.fst).Nodup)
    (hdone : (done.map fun f => f.name).Nodup) :
    (done.foldl mergeSlot l₀).Perm
      (done.map slot ++ l₀.filter fun x => x.1 ∉ done.map fun f => f.name) := by
  induction done using reverseRecOn with
  | nil => simp
  | append_singleton done f ih =>
    rw [map_append, nodup_append] at hdone
    have hperm := ih hdone.1
    have hf : f.name ∉ done.map fun f => f.name := fun hmem =>
      hdone.2.2 _ hmem f.name (by simp) rfl
    have hnames : ((done.foldl mergeSlot l₀).map Prod.fst).Nodup := by
      rw [(hperm.map Prod.fst).nodup_iff, map_append, map_map]
      apply Nodup.append hdone.1 (h₀.sublist (filter_sublist.map _))
      intro name hname hname'
      obtain ⟨x, hx, rfl⟩ := mem_map.mp hname'
      exact absurd hname (by simpa using (mem_filter.mp hx).2)
    have hfilter : (l₀.filter fun x => x.1 ∉ (done ++ [f]).map fun f => f.name) =
        (l₀.filter fun x => x.1 ∉ done.map fun f => f.name).filter fun x => x.1 ≠ f.name := by
      rw [filter_filter]
      apply filter_congr
      intro x _
      rw [← Bool.decide_and, decide_eq_decide, mem_names_append, not_or, and_comm]
    have hdoneSlots : (done.map slot).filter (fun x => x.1 ≠ f.name) = done.map slot := by
      apply filter_eq_self.mpr
      intro x hx
      obtain ⟨g, hg, rfl⟩ := mem_map.mp hx
      have hne : g.name ≠ f.name := fun heq => hf (heq ▸ mem_map_of_mem hg)
      exact decide_eq_true hne
    rw [foldl_append, foldl_cons, foldl_nil, map_append, map_singleton,
      hfilter]
    unfold mergeSlot
    split_ifs with hmem
    · apply (map_replace_perm hnames hmem).trans
      have hrest := (hperm.filter fun x => x.1 ≠ f.name).cons (slot f)
      rw [filter_append, hdoneSlots, ← cons_append] at hrest
      apply hrest.trans
      exact (perm_append_singleton (slot f) (done.map slot)).symm.append_right _
    · have hold : ((l₀.filter fun x => x.1 ∉ done.map fun f => f.name).filter
          fun x => x.1 ≠ f.name) = l₀.filter fun x => x.1 ∉ done.map fun f => f.name := by
        apply filter_eq_self.mpr
        intro x hx
        have hne : x.1 ≠ f.name := by
          intro heq
          apply hmem
          rw [← heq]
          exact mem_map_of_mem (hperm.mem_iff.mpr (mem_append_right _ hx))
        simpa using hne
      rw [hold]
      apply (hperm.append_right [slot f]).trans
      rw [append_assoc, append_assoc]
      exact perm_append_comm.append_left _

/-- A stage is distinct exactly when no new field met so far has the column of an old field that
has not been met. -/
lemma distinct_stage_iff (h₀ : Distinct l₀) (hnames : (done.map fun f => f.name).Nodup)
    (hcolumns : (done.map fun f => f.dbColumn).Nodup) :
    Distinct (done.foldl mergeSlot l₀) ↔
      ∀ f ∈ done, ∀ x ∈ l₀, x.1 ∉ done.map (fun f => f.name) → slotColumn x ≠ f.dbColumn := by
  have hperm := foldl_mergeSlot_perm h₀.1 hnames
  have hcol : (done.map slot).map slotColumn = done.map fun f => f.dbColumn := by
    rw [map_map]
    rfl
  constructor
  · intro h f hf x hx hname heq
    have hdistinct := (h.perm hperm).2
    rw [map_append, nodup_append, hcol] at hdistinct
    have hmem : x ∈ l₀.filter fun x => x.1 ∉ done.map fun f => f.name :=
      mem_filter.mpr ⟨hx, by simpa using hname⟩
    exact hdistinct.2.2 _ (mem_map_of_mem hf) _ (mem_map_of_mem hmem) heq.symm
  · intro h
    refine Distinct.perm ⟨?_, ?_⟩ hperm.symm
    · rw [map_append, map_map]
      apply Nodup.append hnames (h₀.1.sublist (filter_sublist.map _))
      intro name hname hname'
      obtain ⟨x, hx, rfl⟩ := mem_map.mp hname'
      exact absurd hname (by simpa using (mem_filter.mp hx).2)
    · rw [map_append, hcol]
      apply Nodup.append hcolumns (h₀.2.sublist (filter_sublist.map _))
      intro column hcolumn hcolumn'
      obtain ⟨f, hf, rfl⟩ := mem_map.mp hcolumn
      obtain ⟨x, hx, heq⟩ := mem_map.mp hcolumn'
      obtain ⟨hx, hname⟩ := mem_filter.mp hx
      exact h f hf x hx (by simpa using hname) heq

/-- No new field takes the column of an old field that is handled after it. -/
def NoEarlyReuse (l₀ : List Slot) (fields : List Field) : Prop :=
  ∀ j f, fields[j]? = some f →
    ∀ x ∈ l₀, x.1 ∉ (fields.take (j + 1)).map (fun f => f.name) → slotColumn x ≠ f.dbColumn

/-- **All stages of the loop are distinct exactly when the start is and no column is reused
early.** -/
theorem always_distinct_mergeSlot_iff {fields : List Field} (hl₀ : (l₀.map Prod.fst).Nodup)
    (hnames : (fields.map fun f => f.name).Nodup)
    (hcolumns : (fields.map fun f => f.dbColumn).Nodup) :
    Always Distinct mergeSlot l₀ fields ↔ (l₀.map slotColumn).Nodup ∧ NoEarlyReuse l₀ fields := by
  have hpre : ∀ done, done <+: fields →
      (done.map fun f => f.name).Nodup ∧ (done.map fun f => f.dbColumn).Nodup := fun done hdone =>
    ⟨hnames.sublist (hdone.sublist.map _), hcolumns.sublist (hdone.sublist.map _)⟩
  constructor
  · intro h
    have hstart := h.start
    refine ⟨hstart.2, ?_⟩
    intro j f hf x hx hname
    have htake : fields.take (j + 1) <+: fields := take_prefix _ _
    have hmem : f ∈ fields.take (j + 1) := by
      rw [mem_take_iff_getElem]
      obtain ⟨hj, rfl⟩ := List.getElem?_eq_some_iff.mp hf
      exact ⟨j, by omega, rfl⟩
    have hstage := h _ htake
    rw [distinct_stage_iff hstart (hpre _ htake).1 (hpre _ htake).2] at hstage
    exact hstage f hmem x hx hname
  · rintro ⟨hstart, hreuse⟩ done hdone
    rw [distinct_stage_iff ⟨hl₀, hstart⟩ (hpre _ hdone).1 (hpre _ hdone).2]
    intro f hf x hx hname
    obtain ⟨j, hj, rfl⟩ := mem_iff_getElem.mp hf
    have hget : fields[j]? = some done[j] := by
      rw [prefix_iff_eq_take] at hdone
      have hlt : j < fields.length := by
        rw [hdone, length_take] at hj
        omega
      rw [getElem?_eq_getElem hlt, Option.some.injEq]
      have : done[j]? = (fields.take done.length)[j]? := by rw [← hdone]
      rw [getElem?_eq_getElem hj, getElem?_take_of_lt hj,
        getElem?_eq_getElem hlt, Option.some.injEq] at this
      exact this.symm
    apply hreuse j done[j] hget x hx
    intro hmem
    apply hname
    obtain ⟨g, hg, hgname⟩ := mem_map.mp hmem
    refine mem_map.mpr ⟨g, ?_, hgname⟩
    rw [prefix_iff_eq_take] at hdone
    rw [hdone]
    exact (take_subset_take_left fields (by omega)) hg

/-! ## The operations of one model -/

lemma slots_fieldStateAfter_of_not_mem (h : f.name ∉ previous.fieldNames) :
    slots (some (fieldStateAfter previous f.name f)) = mergeSlot (slots (some previous)) f := by
  unfold mergeSlot
  rw [if_neg (by rw [mem_slots_names]; exact h)]
  unfold slots
  rw [Option.getD_some, Option.getD_some, fieldStateAfter_fields_of_not_mem h, map_append,
    map_map]
  rfl

lemma slots_fieldStateAfter_of_mem (hnames : previous.fieldNames.Nodup)
    (h : f.name ∈ previous.fieldNames) :
    slots (some (fieldStateAfter previous f.name f)) = mergeSlot (slots (some previous)) f := by
  unfold mergeSlot
  rw [if_pos (by rw [mem_slots_names]; exact h)]
  unfold slots
  rw [Option.getD_some, Option.getD_some, fieldStateAfter_fields_of_mem hnames h, map_map,
    map_map, map_map]
  apply map_congr_left
  intro g _
  by_cases hg : g.name = f.name
  · simp [hg, slot]
    rfl
  · simp [hg, slot]
    rfl

/-- A field that is left alone has the slot of its new field already. -/
lemma mergeSlot_eq_self (h : FieldLoop base done previous oldFields) {o : Field}
    (hold : oldFields.get? f.name = some o) (heq : fieldEquivalent o f = true) :
    mergeSlot (slots (some previous)) f = slots (some previous) := by
  obtain ⟨ho, hname, hdone⟩ := (h.remaining f.name o).mp hold
  have hslot : slot o = slot f := by
    have hopts := toFieldOptions_of_fieldEquivalent heq
    unfold slot
    rw [hopts]
  obtain ⟨g, hg, hclone⟩ := h.kept o ho (hname ▸ hdone)
  have hgslot : slot g = slot f := by
    rw [← slot_clone g, hclone, slot_clone, hslot]
  have hmem : f.name ∈ (slots (some previous)).map Prod.fst := by
    rw [mem_slots_names, Schema.mem_fieldNames]
    exact ⟨g, hg, congrArg Prod.fst hgslot⟩
  unfold mergeSlot
  rw [if_pos hmem]
  conv_rhs => rw [← map_id (slots (some previous))]
  apply map_congr_left
  intro x hx
  obtain ⟨g', hg', rfl⟩ := mem_map.mp hx
  by_cases hn : (slot g').1 = f.name
  · have hsame : g' = g :=
      inj_on_of_nodup_map h.nodup_names hg' hg (hn.trans (congrArg Prod.fst hgslot).symm)
    rw [if_pos hn, hsame, hgslot]
    rfl
  · rw [if_neg hn]
    rfl

/-- The operations of the field loop pass through its stages. -/
lemma always_fieldRun_iff {rest : List Field} {previous' : Schema}
    {oldFields' : FinMap String Field}
    (h : FieldRun base done rest previous oldFields ops previous' oldFields') :
    (Always Distinct slotsAfter (slots (some previous)) ops ↔
        Always Distinct mergeSlot (slots (some previous)) rest) ∧
      ops.foldl slotsAfter (slots (some previous)) =
        rest.foldl mergeSlot (slots (some previous)) := by
  induction h with
  | ends _ => exact ⟨by rw [always_nil, always_nil], rfl⟩
  | @adds _ _ previous _ _ _ _ f h hdone hold _ ih =>
    have hfresh := h.name_fresh hold hdone
    have hslot : slotsAfter (slots (some previous)) (addField previous f) =
        mergeSlot (slots (some previous)) f := by
      unfold mergeSlot
      rw [if_neg (by rw [mem_slots_names]; exact hfresh)]
      rfl
    rw [slots_fieldStateAfter_of_not_mem hfresh] at ih
    rw [always_cons, foldl_cons, always_cons, foldl_cons, hslot, ih.1, ih.2]
    exact ⟨Iff.rfl, rfl⟩
  | keeps h _ hold hequiv _ ih =>
    rw [always_cons, foldl_cons, mergeSlot_eq_self h hold hequiv, ih.1, ih.2]
    exact ⟨⟨fun hall => ⟨hall.start, hall⟩, fun hall => hall.2⟩, rfl⟩
  | @alters _ _ previous _ _ _ _ f o h _ hold _ _ ih =>
    obtain ⟨hname, hmem⟩ := h.name_mem hold
    rw [hname] at hmem
    have hslot : slotsAfter (slots (some previous)) (alterField previous o f) =
        mergeSlot (slots (some previous)) f := by
      unfold mergeSlot
      rw [if_pos (by rw [mem_slots_names]; exact hmem), ← hname]
      rfl
    rw [hname, slots_fieldStateAfter_of_mem h.nodup_names hmem] at ih
    rw [always_cons, foldl_cons, always_cons, foldl_cons, hslot, ih.1, ih.2]
    exact ⟨Iff.rfl, rfl⟩

/-- Removing fields keeps what is left distinct. -/
lemma always_detectRemovedFields {names : List String} (hl : Distinct l)
    (hrun : detectRemovedFields key options oldFields names previous = .ok ops) :
    Always Distinct slotsAfter l ops := by
  induction names generalizing previous ops l with
  | nil =>
    cases hrun
    exact always_nil.mpr hl
  | cons name rest ih =>
    simp only [detectRemovedFields, bind_eq_ok, failIf_eq_ok, Except.ok.injEq] at hrun
    obtain ⟨-, -, ops', hrest, rfl⟩ := hrun
    rw [always_cons]
    exact ⟨hl, ih (hl.sublist filter_sublist) hrest⟩

/-- The operations on indexes and constraints do not move slots. -/
lemma slotsAfter_part (l : List Slot) :
    (∀ op ∈ (indexChanges p a).remove ++ (constraintChanges p a).remove, slotsAfter l op = l) ∧
      ∀ op ∈ (indexChanges p a).add ++ (constraintChanges p a).add ++ (indexChanges p a).order ++
        (constraintChanges p a).order, slotsAfter l op = l := by
  have hmap : ∀ {α : Type} (f : α → Operation) (vs : List α),
      (∀ v, slotsAfter l (f v) = l) → ∀ op ∈ vs.map f, slotsAfter l op = l := by
    intro α f vs hf op hop
    obtain ⟨v, -, rfl⟩ := mem_map.mp hop
    exact hf v
  have hite : ∀ (q : Prop) [Decidable q] (op' : Operation), slotsAfter l op' = l →
      ∀ op ∈ (if q then [] else [op']), slotsAfter l op = l := by
    intro q _ op' hop' op hop
    split_ifs at hop
    · simp at hop
    · rw [mem_singleton] at hop
      exact hop ▸ hop'
  constructor
  · intro op hop
    rcases mem_append.mp hop with hop | hop
    · exact hmap _ _ (fun _ => rfl) op hop
    · exact hmap _ _ (fun _ => rfl) op hop
  · intro op hop
    simp only [mem_append] at hop
    rcases hop with ((hop | hop) | hop) | hop
    · exact hmap _ _ (fun _ => rfl) op hop
    · exact hmap _ _ (fun _ => rfl) op hop
    · exact hite _ _ rfl op hop
    · exact hite _ _ rfl op hop

/-- **The operations of one model keep its columns apart exactly when they are so at the start
and no new field reuses a column early.** -/
theorem always_detectModel_iff (hp : p.fieldNames.Nodup)
    (hvalid : ∀ g ∈ p.fields, g.validate = .ok ()) (ha : a.Valid)
    (h : detectModel key options p a = .ok ops) :
    Always Distinct slotsAfter (slots (some p)) ops ↔
      p.columns.Nodup ∧ NoEarlyReuse (slots (some p)) a.fields := by
  obtain ⟨d, rfl⟩ := detectModel_parts h
  have hslots : slots (some d.p₂) = slots (some p) := slots_of_fields_eq d.fields_p₂
  have hfields := always_fieldRun_iff (d.fieldRun hp hvalid ha)
  rw [hslots] at hfields
  have hnames : ((slots (some p)).map Prod.fst).Nodup := by
    unfold slots
    rw [List.map_map]
    exact hp
  have hcolumns : p.columns.Nodup ↔ ((slots (some p)).map slotColumn).Nodup := by
    unfold slots Schema.columns
    rw [List.map_map]
    rfl
  rw [hcolumns, ← always_distinct_mergeSlot_iff hnames ha.nodup_fieldNames ha.nodup_columns,
    ← hfields.1]
  have hfront := always_of_fixed (P := Distinct) (slotsAfter_part (p := p) (a := a)
    (slots (some p))).1
  unfold ModelParts.ops
  rw [always_append, always_append, always_append, hfront.1, hfront.2]
  constructor
  · exact fun hall => hall.1.1.2
  · intro hall
    have hend : Distinct (d.changed.foldl slotsAfter (slots (some p))) := hall _ (prefix_refl _)
    have hremoved := always_detectRemovedFields hend d.detectRemoved_eq
    refine ⟨⟨⟨hall.start, hall⟩, ?_⟩, ?_⟩
    · rw [foldl_append, hfront.2]
      exact hremoved
    · rw [(always_of_fixed (slotsAfter_part _).2).1, foldl_append, foldl_append,
        hfront.2]
      exact hremoved _ (prefix_refl _)

/-! ## The declared renames -/

/-- The rename of a field of `key` that a reference declares. -/
def declaredRename (renames : FinMap String String) (key reference : String) :
    Option (String × String) :=
  match splitReference reference with
  | some (model, old) =>
    if model = key then some (old, (renames.get? reference).getD "") else none
  | none => none

/-- The declared renames of one model, as pairs of the old and the new name, in the order in which
they are applied. -/
def declaredRenames (renames : FinMap String String) (key : String) : List (String × String) :=
  (sortStrings renames.keys).filterMap (declaredRename renames key)

/-- The name that a field has after some renames. -/
def renamedTo (l : List (String × String)) (name : String) : String :=
  l.foldl (fun name r => renameName r.1 r.2 name) name

def renameSlots (l : List Slot) (r : String × String) : List Slot :=
  l.map fun x => (renameName r.1 r.2 x.1, x.2)

/-- The slots after some renames: the names are moved, the explicit columns stay. -/
lemma foldl_renameSlots (renames : List (String × String)) (l : List Slot) :
    renames.foldl renameSlots l = l.map fun x => (renamedTo renames x.1, x.2) := by
  induction renames generalizing l with
  | nil => exact (map_id' l).symm
  | cons r rest ih =>
    rw [foldl_cons, ih, renameSlots, map_map]
    rfl

/-- No rename gives a slot without an explicit column the explicit column of another one. -/
def RenamesApart (l : List Slot) (renames : List (String × String)) : Prop :=
  ∀ done old new, done ++ [(old, new)] <+: renames →
    ∀ x ∈ l, x.2 = "" → renamedTo done x.1 = old → ∀ y ∈ l, y.2 ≠ "" → y.2 ≠ new

/-- **Renames that keep the names distinct keep the columns distinct exactly when no slot without
an explicit column is given the explicit column of another one.** -/
theorem always_renameSlots_iff {renames : List (String × String)} (hl : Distinct l)
    (hnames : Always (fun l => (l.map Prod.fst).Nodup) renameSlots l renames) :
    Always Distinct renameSlots l renames ↔ RenamesApart l renames := by
  have hnodup : l.Nodup := hl.1.of_map _
  have hstep : ∀ done old new name, renamedTo (done ++ [(old, new)]) name =
      renameName old new (renamedTo done name) := by
    intro done old new name
    rw [renamedTo, foldl_append]
    rfl
  constructor
  · intro hall done old new hpre x hx hempty hold y hy hne hcolumn
    have hcolumns := (hall _ hpre).2
    rw [foldl_renameSlots, List.map_map, nodup_map_iff_inj_on hnodup] at hcolumns
    subst hcolumn
    obtain rfl : x = y := by
      refine hcolumns x hx y hy ?_
      simp [slotColumn, hempty, hne, hstep, hold, renameName]
    exact hne hempty
  · intro hapart done hdone
    -- by induction on the renames that are done, the last one first
    induction done using List.reverseRecOn with
    | nil => exact hl
    | append_singleton done r ih =>
      obtain ⟨old, new⟩ := r
      have hbefore := (ih ((prefix_append done _).trans hdone)).2
      have hname := hnames _ hdone
      refine ⟨hname, ?_⟩
      rw [foldl_renameSlots, List.map_map, nodup_map_iff_inj_on hnodup] at hname hbefore ⊢
      have hmixed : ∀ x ∈ l, ∀ y ∈ l, x.2 = "" → y.2 ≠ "" →
          renamedTo (done ++ [(old, new)]) x.1 ≠ y.2 := by
        intro x hx y hy hempty hne heq
        by_cases hold : renamedTo done x.1 = old
        · refine hapart done old new hdone x hx hempty hold y hy hne ?_
          rw [← heq, hstep, hold, renameName, if_pos rfl]
        · obtain rfl : x = y := by
            refine hbefore x hx y hy ?_
            rw [hstep, renameName, if_neg hold] at heq
            simp [slotColumn, hempty, hne, heq]
          exact hne hempty
      intro x hx y hy heq
      by_cases hx' : x.2 = "" <;> by_cases hy' : y.2 = "" <;>
        simp only [Function.comp_apply, slotColumn, hx', hy', ne_eq, not_true_eq_false,
          not_false_eq_true, if_true, if_false] at heq
      · exact hname x hx y hy heq
      · exact absurd heq (hmixed x hx y hy hx' hy')
      · exact absurd heq.symm (hmixed y hy x hx hy' hx')
      · refine inj_on_of_nodup_map hl.2 hx hy ?_
        simp [slotColumn, hy', heq]

lemma slots_of_sameSnapshot {a b : Option Schema} (h : SameSnapshot a b) : slots a = slots b := by
  unfold SameSnapshot at h
  rcases a with _ | s <;> rcases b with _ | t
  · rfl
  · simp at h
  · simp at h
  · exact slots_of_fields_eq (clone_eq_clone_iff.mp (Option.some.inj h)).2.1

/-- The rename that an operation of the first phase stands for. -/
def renamePair (op : Operation) : String × String := (op.oldName, op.name)

lemma slotsAfter_rename (h : op.is .renameField = true) (l : List Slot) :
    slotsAfter l op = renameSlots l (renamePair op) := by
  unfold Operation.is at h
  unfold slotsAfter
  rw [beq_iff_eq.mp h]
  rfl

section Renames

variable {after : State} {renames : FinMap String String} {old old' : State}

lemma detectFieldRename_declared {reference : String} (hgood : GoodState old)
    (h : detectFieldRename after renames old reference = .ok (op, old')) (key : String) :
    declaredRename renames key reference = if op.key = key then some (renamePair op) else none := by
  simp only [detectFieldRename, bind_eq_ok, orFail_eq_ok] at h
  obtain ⟨⟨model, name⟩, hsplit, h⟩ := h
  unfold declaredRename
  rw [hsplit]
  rcases hold : old.get? model with _ | schema
  · simp [hold] at h
  · rcases hnext : after.get? model with _ | next
    · simp [hold, hnext] at h
    · simp only [hold, hnext, bind_eq_ok, failIf_eq_ok, Except.ok.injEq, Prod.mk.injEq] at h
      obtain ⟨-, -, renamed, -, rfl, rfl⟩ := h
      have hkey : (renameField schema name ((renames.get? reference).getD "")).key = model :=
        (hgood model schema hold).1
      rw [hkey]
      rfl

/-- **The slots of a model along the declared renames**: its own renames move them, and the names
stay distinct. -/
lemma detectRenamesIn_slots {references : List String} (hgood : GoodState old)
    (h : detectRenamesIn after renames references old = .ok (ops, old')) (key : String) :
    (ops.filter fun op => op.key = key).map renamePair =
        references.filterMap (declaredRename renames key) ∧
      slots (old'.get? key) =
        (ops.filter fun op => op.key = key).foldl slotsAfter (slots (old.get? key)) ∧
      Always (fun l => (l.map Prod.fst).Nodup) slotsAfter (slots (old.get? key))
        (ops.filter fun op => op.key = key) := by
  have hnodup : ∀ {σ : State}, GoodState σ → ((slots (σ.get? key)).map Prod.fst).Nodup := by
    intro σ hσ
    rcases hs : σ.get? key with _ | s
    · exact nodup_nil
    · unfold slots
      rw [map_map]
      exact (hσ key s hs).2.1
  induction references generalizing old ops with
  | nil =>
    simp only [detectRenamesIn, Except.ok.injEq, Prod.mk.injEq] at h
    obtain ⟨rfl, rfl⟩ := h
    exact ⟨rfl, rfl, always_nil.mpr (hnodup hgood)⟩
  | cons reference rest ih =>
    simp only [detectRenamesIn, bind_eq_ok] at h
    obtain ⟨⟨op, old₁⟩, hop, ⟨ops', old₂⟩, hops, heq⟩ := h
    simp only [Except.ok.injEq, Prod.mk.injEq] at heq
    obtain ⟨rfl, rfl⟩ := heq
    obtain ⟨-, ⟨σ, hσ, hsame⟩, hgood₁, -⟩ :=
      detectFieldRename_spec (fun k => .refl (old.get? k)) hgood hop
    have hslots := slots_applyOperation hσ key
    rw [slots_of_sameSnapshot (hsame key)] at hslots
    have hdeclared := detectFieldRename_declared hgood hop key
    obtain ⟨hpairs, hfinal, halways⟩ := ih hgood₁ hops
    by_cases hkey : op.key = key
    · rw [if_pos hkey] at hslots hdeclared
      rw [filter_cons_of_pos (by simpa using hkey), map_cons,
        filterMap_cons_some hdeclared, foldl_cons, always_cons, ← hslots]
      exact ⟨by rw [hpairs], hfinal, hnodup hgood, halways⟩
    · rw [if_neg hkey] at hslots hdeclared
      rw [filter_cons_of_neg (by simpa using hkey), filterMap_cons_none hdeclared,
        ← hslots]
      exact ⟨hpairs, hfinal, halways⟩

end Renames

/-! ## The condition -/

/-- The input keeps the columns of every model apart: no field without an explicit column is
declared to be renamed to the explicit column of another field, and no new field takes the column
of an old field, under its new name, that is handled after it. -/
structure ColumnSafe (before after : List Schema) (renames : FinMap String String) : Prop where
  renamed : ∀ b ∈ before, ∀ done old new, done ++ [(old, new)] <+: declaredRenames renames b.key →
    ∀ f ∈ b.fields, f.column = "" → renamedTo done f.name = old →
      ∀ g ∈ b.fields, g.column ≠ "" → g.column ≠ new
  changes : ∀ b ∈ before, ∀ a ∈ after, a.key = b.key →
    ∀ j f, a.fields[j]? = some f → ∀ g ∈ b.fields,
      renamedTo (declaredRenames renames b.key) g.name ∉
          (a.fields.take (j + 1)).map (fun f => f.name) →
        slotColumn (renamedTo (declaredRenames renames b.key) g.name, g.column) ≠ f.dbColumn

/-! ## Every state on the way -/

/-- The schemas of a state have distinct names and columns exactly when its slots have. -/
lemma forall_schemas_distinct_iff :
    (∀ s ∈ σ.schemas, s.fieldNames.Nodup ∧ s.columns.Nodup) ↔
      ∀ key, Distinct (slots (σ.get? key)) := by
  constructor
  · intro h key
    rcases hs : σ.get? key with _ | s
    · exact ⟨nodup_nil, nodup_nil⟩
    · rw [← slots_clone]
      exact distinct_slots.mpr (h s.clone (mem_schemas.mpr ⟨key, s, hs, rfl⟩))
  · intro h s hs
    obtain ⟨key, t, ht, rfl⟩ := mem_schemas.mp hs
    apply distinct_slots.mp
    rw [slots_clone, ← ht]
    exact h key

section Prefixes

variable {before after : List Schema} {options : DetectOptions} {ops : List Operation}

/-- Every prefix of a history that replays has a state, and the slots of each model in these
states are those that the operations of its own key lead through. -/
lemma forall_prefix_distinct_iff (h : replay (before.map createModel ++ ops) = .ok σ) :
    (∀ l, l <+: ops → ∃ schemas, schemaState (detectedHistory before l) = .ok schemas ∧
        ∀ s ∈ schemas, s.fieldNames.Nodup ∧ s.columns.Nodup) ↔
      ∀ key, Always Distinct slotsAfter (slots ((stateOf before).get? key))
        (ops.filter fun op => op.key = key) := by
  obtain ⟨σ₀, hσ₀, hsame⟩ := run_createModels before FinMap.empty FinMap.empty fun _ => rfl
  -- the state after a prefix, and its slots
  have hstate : ∀ l, l <+: ops →
      ∃ σ' : State, schemaState (detectedHistory before l) = .ok σ'.schemas ∧
        ∀ key, slots (σ'.get? key) = (l.filter fun op => op.key = key).foldl slotsAfter
          (slots ((stateOf before).get? key)) := by
    rintro l ⟨rest, rfl⟩
    unfold replay at h
    rw [← append_assoc] at h
    obtain ⟨σ', hσ', -⟩ := run_append_eq_ok.mp h
    obtain ⟨σ₁, hσ₁, hl⟩ := run_append_eq_ok.mp hσ'
    rw [hσ₀, Except.ok.injEq] at hσ₁
    subst hσ₁
    refine ⟨σ', ?_, fun key => ?_⟩
    · simp only [schemaState, detectedHistory, flatMap_cons, flatMap_nil,
        append_nil, bind_eq_ok]
      exact ⟨σ', hσ', rfl⟩
    · rw [run_slots hl key, slots_of_sameSnapshot (hsame key)]
      rfl
  constructor
  · intro hall key l' hl'
    obtain ⟨l, hl, rfl⟩ := prefix_filter_iff.mp hl'
    obtain ⟨schemas, hschemas, hdistinct⟩ := hall l hl
    obtain ⟨σ', hσ', hslots⟩ := hstate l hl
    rw [hσ', Except.ok.injEq] at hschemas
    subst hschemas
    rw [← hslots key]
    exact forall_schemas_distinct_iff.mp hdistinct key
  · intro hall l hl
    obtain ⟨σ', hσ', hslots⟩ := hstate l hl
    refine ⟨σ'.schemas, hσ', forall_schemas_distinct_iff.mpr fun key => ?_⟩
    rw [hslots key]
    exact hall key _ (hl.filter _)

variable {old : State} {key : String} {segment : List Operation}

/-- The operations of one key after the renames keep the columns apart exactly when no new field
of the model reuses a column early. -/
lemma always_segment_iff (ha : (after.map fun s => s.key).Nodup) (hafter : ∀ a ∈ after, a.Valid)
    (hgood : GoodState old) (h : SegmentOf options old (stateOf after) key segment)
    (hstart : Distinct (slots (old.get? key))) :
    Always Distinct slotsAfter (slots (old.get? key)) segment ↔
      ∀ p, old.get? key = some p → ∀ a ∈ after, a.key = key →
        NoEarlyReuse (slots (some p)) a.fields := by
  unfold SegmentOf at h
  rcases hget : (stateOf after).get? key with _ | a
  · rw [hget] at h
    have hnone : ∀ a ∈ after, a.key ≠ key := by
      intro a hmem hkey
      rw [(get?_stateOf ha).mpr ⟨hmem, hkey⟩] at hget
      cases hget
    refine iff_of_true ?_ fun p _ a hmem hkey => absurd hkey (hnone a hmem)
    rcases h with ⟨-, hops⟩ | ⟨-, rfl⟩
    · simp only [detectRemovedModel, bind_eq_ok, failIf_eq_ok, Except.ok.injEq] at hops
      obtain ⟨-, -, rfl⟩ := hops
      exact always_cons.mpr ⟨hstart, always_nil.mpr ⟨nodup_nil, nodup_nil⟩⟩
    · exact always_nil.mpr hstart
  · rw [hget] at h
    obtain ⟨hmem, hkey⟩ := (get?_stateOf ha).mp hget
    have hvalid := hafter a hmem
    simp only [detectModelAt, hget] at h
    rcases hold : old.get? key with _ | p
    · simp only [hold, Except.ok.injEq] at h
      subst h
      refine iff_of_true (always_cons.mpr ⟨hold ▸ hstart, always_nil.mpr ?_⟩) (by simp)
      show Distinct (slots (some a.clone))
      rw [slots_clone]
      exact distinct_slots.mpr ⟨hvalid.nodup_fieldNames, hvalid.nodup_columns⟩
    · simp only [hold] at h
      rw [hold] at hstart
      obtain ⟨-, hp, hfields⟩ := hgood key p hold
      rw [always_detectModel_iff hp hfields hvalid h]
      have hcolumns := (distinct_slots.mp hstart).2
      constructor
      · rintro ⟨-, hreuse⟩ p' hp' a' hmem' hkey'
        cases hp'
        obtain rfl := inj_on_of_nodup_map ha hmem hmem' (hkey.trans hkey'.symm)
        exact hreuse
      · exact fun hall => ⟨hcolumns, hall p rfl a hmem hkey⟩

/-- What the renames and the operations of one key need, in terms of the model they start from. -/
lemma always_key_iff (ha : (after.map fun s => s.key).Nodup) (hafter : ∀ a ∈ after, a.Valid)
    {renamed : List Operation} {b : Schema} (hgood : GoodState (stateOf before))
    (hgood' : GoodState old) (hrename : ∀ op ∈ renamed, op.is .renameField = true)
    (hsome : (old.get? key).isSome = ((stateOf before).get? key).isSome)
    (hrenames : detectFieldRenames (stateOf before) (stateOf after) options.renames = .ok (renamed,
      old)) (hsegment : SegmentOf options old (stateOf after) key segment)
    (hget : (stateOf before).get? key = some b) (hcolumns : b.columns.Nodup) :
    Always Distinct slotsAfter (slots (some b)) ((renamed.filter fun op => op.key = key) ++ segment) ↔
      RenamesApart (slots (some b)) (declaredRenames options.renames key) ∧
        ∀ a ∈ after, a.key = key →
          NoEarlyReuse ((slots (some b)).map fun x =>
            (renamedTo (declaredRenames options.renames key) x.1, x.2)) a.fields := by
  obtain ⟨hpairs, hslots, hnames⟩ := detectRenamesIn_slots hgood hrenames key
  rw [hget] at hslots hnames
  -- the renames act on the slots as the declared pairs do
  have hpairsOf : ∀ l, ∀ op ∈ renamed.filter (fun op => op.key = key),
      slotsAfter l op = renameSlots l (renamePair op) :=
    fun l op hop => slotsAfter_rename (hrename op (mem_filter.mp hop).1) l
  have hnamesOf := (always_map hpairsOf (slots (some b))).1.mp hnames
  obtain ⟨hiff, hfold⟩ := always_map (P := Distinct) hpairsOf (slots (some b))
  change _ = declaredRenames options.renames key at hpairs
  rw [hpairs] at hnamesOf hiff hfold
  have hapart := always_renameSlots_iff
    (distinct_slots.mpr ⟨(hgood key b hget).2.1, hcolumns⟩) hnamesOf
  rw [hfold] at hslots
  rw [always_append, hiff, hapart, hfold, ← foldl_renameSlots, ← hslots]
  obtain ⟨p, hp⟩ := Option.isSome_iff_exists.mp (hsome.trans (by rw [hget]; rfl))
  refine and_congr_right fun hall => ?_
  have hstart : Distinct (slots (old.get? key)) := hslots ▸ hapart.mpr hall _ (prefix_refl _)
  rw [always_segment_iff ha hafter hgood' hsegment hstart, hp]
  exact ⟨fun hreuse => hreuse p rfl, fun hreuse p' hp' => Option.some.inj hp' ▸ hreuse⟩

/-- **Every prefix of the detected operations describes models with distinct field names and
distinct columns exactly when the input is column-safe.** -/
theorem detect_prefix_distinct_iff (hb : (before.map fun s => s.key).Nodup)
    (hbefore : ∀ s ∈ before, s.validate = .ok ()) (ha : (after.map fun s => s.key).Nodup)
    (h : detect before after options = .ok ops) :
    (∀ l, l <+: ops → ∃ schemas, schemaState (detectedHistory before l) = .ok schemas ∧
        ∀ s ∈ schemas, s.fieldNames.Nodup ∧ s.columns.Nodup) ↔
      ColumnSafe before after options.renames := by
  have hvalid : ∀ s ∈ before, s.Valid :=
    fun s hs => (Schema.validate_eq_ok_iff s).mp (hbefore s hs)
  obtain ⟨hafter, σ, hσ, -⟩ := replay_detect hb hvalid ha h
  rw [forall_prefix_distinct_iff hσ]
  obtain ⟨detected, old, edges, order, hdetected, hedges, htop, rfl⟩ := topological_of_detect h
  obtain ⟨-, hgood, hrenames, hsegments⟩ := detectOperations_eq_ok hb hvalid ha hdetected
  have hstart := goodState_stateOf hb hvalid
  obtain ⟨hrename, -, -, hsome⟩ :=
    detectRenamesIn_spec (fun key => .refl ((stateOf before).get? key)) hstart hrenames
  -- the operations of one key: its renames, then its own changes
  have hsplit : ∀ key, (order.map (opAt detected)).filter (fun op => op.key = key) =
      ((detected.filter fun op => op.is .renameField).filter fun op => op.key = key) ++
        (detected.filter fun op => !op.is .renameField).filter fun op => op.key = key := by
    intro key
    rw [renames_first hedges htop, filter_append, filter_key_rest hedges htop]
  have hkey : ∀ b ∈ before, _ := fun b hmem => always_key_iff ha hafter hstart hgood hrename
    (hsome b.key) hrenames (hsegments b.key) ((get?_stateOf hb).mpr ⟨hmem, rfl⟩)
    (hvalid b hmem).nodup_columns
  constructor
  · intro hall
    refine ⟨fun b hmem => ?_, fun b hmem a hmem' hsame j f hf g hg => ?_⟩
    · have := hall b.key
      rw [(get?_stateOf hb).mpr ⟨hmem, rfl⟩, hsplit] at this
      intro done old new hpre f hf hempty hold g hg
      exact ((hkey b hmem).mp this).1 done old new hpre (slot f) (mem_map_of_mem hf) hempty hold
        (slot g) (mem_map_of_mem hg)
    · have := hall b.key
      rw [(get?_stateOf hb).mpr ⟨hmem, rfl⟩, hsplit] at this
      exact ((hkey b hmem).mp this).2 a hmem' hsame j f hf _
        (mem_map_of_mem (mem_map_of_mem (f := slot) hg))
  · intro hsafe key
    rw [hsplit]
    rcases hget : (stateOf before).get? key with _ | b
    · -- a new model: no renames, and one operation at most
      have hold : old.get? key = none := by
        have := hsome key
        rw [hget] at this
        exact Option.not_isSome_iff_eq_none.mp (by rw [this]; simp)
      have hfixed := always_of_fixed (P := Distinct) (s := [])
        (l := (detected.filter fun op => op.is .renameField).filter fun op => op.key = key)
        fun op hop => slotsAfter_rename (hrename op (mem_filter.mp hop).1) []
      have hempty : Distinct [] := ⟨nodup_nil, nodup_nil⟩
      have hsegment := always_segment_iff ha hafter hgood (hsegments key)
      rw [hold] at hsegment
      refine always_append.mpr ⟨hfixed.1.mpr hempty, ?_⟩
      show Always Distinct slotsAfter (List.foldl slotsAfter [] _) _
      rw [hfixed.2]
      exact (hsegment hempty).mpr (by simp)
    · obtain ⟨hmem, rfl⟩ := (get?_stateOf hb).mp hget
      refine (hkey b hmem).mpr ⟨?_, fun a hmem' hsame j f hf x hx => ?_⟩
      · intro done old new hpre x hx hempty hold y hy
        obtain ⟨f, hf, rfl⟩ := mem_map.mp hx
        obtain ⟨g, hg, rfl⟩ := mem_map.mp hy
        exact hsafe.renamed b hmem done old new hpre f hf hempty hold g hg
      · obtain ⟨y, hy, rfl⟩ := mem_map.mp hx
        obtain ⟨g, hg, rfl⟩ := mem_map.mp hy
        exact hsafe.changes b hmem a hmem' hsame j f hf g hg

end Prefixes

/-- A model with an automatic key and one optional text field with an explicit column. -/
def columnSchema (name column : String) : Schema :=
  itemSchema { name := name, kind := .known .char, maxLength := 20, null := true, column := column }

theorem detect_prefix_distinct_replaced_item :
    ∃ ops,
      detect [columnSchema "a" "x"] [columnSchema "b" "y"]
          { allowRemoveFields := ["shop.Item.a"] } = .ok ops ∧
        ∀ l, l <+: ops →
          ∃ schemas, schemaState (detectedHistory [columnSchema "a" "x"] l) = .ok schemas ∧
            ∀ s ∈ schemas, s.fieldNames.Nodup ∧ s.columns.Nodup := by
  have hok : (detect [columnSchema "a" "x"] [columnSchema "b" "y"]
      { allowRemoveFields := ["shop.Item.a"] }).isOk = true := by decide +kernel
  rcases hdetect : detect [columnSchema "a" "x"] [columnSchema "b" "y"]
      { allowRemoveFields := ["shop.Item.a"] } with e | ops
  · rw [hdetect] at hok
    cases hok
  · refine ⟨ops, rfl, (detect_prefix_distinct_iff (by decide) ?_ (by decide) hdetect).mpr ?_⟩
    · intro s hs
      rw [mem_singleton] at hs
      subst hs
      rfl
    · have hnone : declaredRenames FinMap.empty (columnSchema "a" "x").key = [] := by decide
      refine ⟨fun b hmem done old new hpre => ?_, fun b hmem a hmem' _ j f hf g hg hname => ?_⟩
      · obtain rfl := mem_singleton.mp hmem
        have hpre : done ++ [(old, new)] <+:
          declaredRenames FinMap.empty (columnSchema "a" "x").key := hpre
        rw [hnone, prefix_nil] at hpre
        simp at hpre
      · obtain rfl := mem_singleton.mp hmem
        obtain rfl := mem_singleton.mp hmem'
        change renamedTo (declaredRenames FinMap.empty (columnSchema "a" "x").key) g.name ∉ _
          at hname
        change slotColumn (renamedTo (declaredRenames FinMap.empty (columnSchema "a" "x").key)
          g.name, g.column) ≠ _
        rw [hnone] at hname ⊢
        have hall : ∀ g ∈ (columnSchema "a" "x").fields, ∀ f ∈ (columnSchema "b" "y").fields,
            g.name ≠ "id" → slotColumn (slot g) ≠ f.dbColumn := by decide
        refine hall g hg f (mem_of_getElem? hf) fun hid => hname ?_
        show g.name ∈ _
        rw [hid]
        exact mem_cons_self

/-- A field that takes over the column of a removed one is added while the column is held. -/
theorem detect_reused_column_not_distinct :
    ∃ ops l schemas,
      detect [columnSchema "a" "x"] [columnSchema "b" "x"]
          { allowRemoveFields := ["shop.Item.a"] } = .ok ops ∧
        l <+: ops ∧ schemaState (detectedHistory [columnSchema "a" "x"] l) = .ok schemas ∧
        ¬ ∀ s ∈ schemas, s.columns.Nodup := by
  have hrun : (do
      let ops ← detect [columnSchema "a" "x"] [columnSchema "b" "x"]
        { allowRemoveFields := ["shop.Item.a"] }
      let schemas ← schemaState (detectedHistory [columnSchema "a" "x"] (ops.take 1))
      return schemas.all fun s => decide s.columns.Nodup : Except Err Bool) = .ok false := by
    decide +kernel
  obtain ⟨ops, hops, hrun⟩ := bind_eq_ok.mp hrun
  obtain ⟨schemas, hschemas, hall⟩ := bind_eq_ok.mp hrun
  refine ⟨ops, ops.take 1, schemas, hops, take_prefix 1 ops, hschemas, fun hnodup => ?_⟩
  have htrue : (schemas.all fun s => decide s.columns.Nodup) = true := by simpa using hnodup
  rw [htrue] at hall
  cases hall

end Gogo.Migrations

import Gogo.Migrations.Detect

/-!
# Replaying operations on one model

`Detect` threads a snapshot of each model through the operations it emits, and `schemaState`
replays the operations on its own state. The two agree up to `Clone`:

* `SameSnapshot` — the same model up to `Clone`; every operation respects it (`onModel_related`),
  so a replay may start from the detector's own schema.
* `run_removePart`, `run_addPart`, `run_reorderPart` — the removals, additions and the reordering
  of indexes or constraints, as segments of a replay.
-/

namespace Gogo.Migrations

open List Gogo.Lib Gogo.Models

/-! ## Snapshots -/

variable {s t : Schema} {α : Type}

lemma clone_eq_clone_iff :
    s.clone = t.clone ↔ s.toSchemaOptions = t.toSchemaOptions ∧
      s.fields.map Field.clone = t.fields.map Field.clone ∧ s.indexes = t.indexes ∧
      s.constraints = t.constraints := by
  simp [Schema.clone]

/-- The same model, or none on both sides, up to `Clone`. -/
def SameSnapshot (a b : Option Schema) : Prop := a.map Schema.clone = b.map Schema.clone

lemma SameSnapshot.refl (a : Option Schema) : SameSnapshot a a := rfl

lemma SameSnapshot.symm {a b : Option Schema} (h : SameSnapshot a b) : SameSnapshot b a :=
  Eq.symm h

lemma SameSnapshot.getD {a b : Option Schema} (h : SameSnapshot a b) :
    (a.getD {}).clone = (b.getD {}).clone := by
  unfold SameSnapshot at h
  cases a <;> cases b <;> simp_all

lemma sameSnapshot_some : SameSnapshot (some s) (some t) ↔ s.clone = t.clone := by
  simp [SameSnapshot]

lemma applyPart_clone (part : Part α) (change : List α → Except Err (List α)) (s : Schema) :
    applyPart part change s.clone = applyPart part change s := by
  simp only [applyPart, part.get_clone, Schema.clone_clone]

lemma Schema.field?_clone (s : Schema) (name : String) :
    s.clone.field? name = (s.field? name).map Field.clone := by
  rw [Schema.field?, Schema.clone, find?_map]
  rfl

lemma renameFieldState_clone (s : Schema) (old new : String) :
    renameFieldState s.clone old new = renameFieldState s old new := by
  have hrenamed : renamedSchema s.clone old new = renamedSchema s old new := by
    simp only [renamedSchema, Schema.clone_clone, Schema.clone_key]
    rfl
  simp only [renameFieldState, Schema.field?_clone, Option.isNone_map, Option.isSome_map, hrenamed]
  rfl

section Related

variable {a b a' : Option Schema} {op : Operation}

/-- Operations that read the schema through `Clone` only. -/
lemma related_of_eq (step : Schema → Except Err Schema) (hclone : ∀ s, step s.clone = step s)
    (hab : SameSnapshot a b) (h : (step (a.getD {})).map some = .ok a') :
    ∃ b', (step (b.getD {})).map some = .ok b' ∧ SameSnapshot a' b' := by
  refine ⟨a', ?_, .refl a'⟩
  rw [← hclone, ← hab.getD, hclone]
  exact h

/-- Operations that replace the fields in a way that commutes with `Clone`. -/
lemma related_of_fields (change : List Field → List Field)
    (hchange : ∀ l l' : List Field, l.map Field.clone = l'.map Field.clone →
      (change l).map Field.clone = (change l').map Field.clone)
    (hab : SameSnapshot a b)
    (h : (.ok (some { a.getD {} with fields := change (a.getD {}).fields }) :
      Except Err (Option Schema)) = .ok a') :
    ∃ b', (.ok (some { b.getD {} with fields := change (b.getD {}).fields }) :
      Except Err (Option Schema)) = .ok b' ∧ SameSnapshot a' b' := by
  rw [Except.ok.injEq] at h
  subst h
  refine ⟨_, rfl, sameSnapshot_some.mpr ?_⟩
  obtain ⟨hopts, hfields, hindexes, hconstraints⟩ := clone_eq_clone_iff.mp hab.getD
  exact clone_eq_clone_iff.mpr ⟨hopts, hchange _ _ hfields, hindexes, hconstraints⟩

lemma map_clone_filter_name (name : String) (l : List Field) :
    (l.filter fun f => f.name ≠ name).map Field.clone =
      (l.map Field.clone).filter fun f => f.name ≠ name := by
  rw [filter_map]
  rfl

lemma map_clone_alter (name : String) (field : Field) (l : List Field) :
    (l.map fun f => if f.name = name then field else f).map Field.clone =
      (l.map Field.clone).map fun f => if f.name = name then field.clone else f := by
  rw [List.map_map, List.map_map]
  refine map_congr_left fun f _ => ?_
  by_cases h : f.name = name <;> simp [h]

/-- **An operation keeps models with the same snapshot so, and fails on both or none.** -/
theorem onModel_related (hab : SameSnapshot a b) (h : op.onModel a = .ok a') :
    ∃ b', op.onModel b = .ok b' ∧ SameSnapshot a' b' := by
  unfold Operation.onModel at h ⊢
  split at h
  · exact ⟨a', h, .refl a'⟩
  · exact ⟨a', h, .refl a'⟩
  · refine related_of_fields (fun l => l ++ [op.field]) ?_ hab h
    intro l l' hl
    simp [hl]
  · refine related_of_fields (fun l => l.filter fun f => f.name ≠ op.field.name) ?_ hab h
    intro l l' hl
    rw [map_clone_filter_name, map_clone_filter_name, hl]
  · refine related_of_fields
      (fun l => l.map fun f => if f.name = op.oldField.name then op.field else f) ?_ hab h
    intro l l' hl
    rw [map_clone_alter, map_clone_alter, hl]
  · exact related_of_eq (fun s => renameFieldState s op.oldName op.name)
      (fun s => renameFieldState_clone s op.oldName op.name) hab h
  · exact related_of_eq (fun s => applyIndexState s op) (fun s => applyPart_clone _ _ s) hab h
  · exact related_of_eq (fun s => applyIndexState s op) (fun s => applyPart_clone _ _ s) hab h
  · exact related_of_eq (fun s => applyIndexState s op) (fun s => applyPart_clone _ _ s) hab h
  · exact related_of_eq (fun s => applyConstraintState s op) (fun s => applyPart_clone _ _ s) hab h
  · exact related_of_eq (fun s => applyConstraintState s op) (fun s => applyPart_clone _ _ s) hab h
  · exact related_of_eq (fun s => applyConstraintState s op) (fun s => applyPart_clone _ _ s) hab h
  all_goals
    rw [Except.ok.injEq] at h
    exact ⟨b, rfl, h ▸ hab⟩

/-- The run of an operation list on one model. -/
abbrev runModel (model : Option Schema) (ops : List Operation) : Except Err (Option Schema) :=
  run Operation.onModel model ops

/-- **A replay only depends on the snapshot it starts from.** -/
theorem run_onModel_related {ops : List Operation} (hab : SameSnapshot a b)
    (h : runModel a ops = .ok a') : ∃ b', runModel b ops = .ok b' ∧ SameSnapshot a' b' :=
  run_related (fun _ _ _ _ => onModel_related) hab h

end Related

/-- The operations replay from the schema `s` to the schema `t`, up to `Clone`. -/
def Replays (s : Schema) (ops : List Operation) (t : Schema) : Prop :=
  ∃ r, runModel (some s) ops = .ok (some r) ∧ r.clone = t.clone

section Replays

variable {s s' t t' : Schema} {ops ops' : List Operation}

lemma Replays.refl (s : Schema) : Replays s [] s := ⟨s, rfl, rfl⟩

lemma Replays.of_clone_eq (hs : s.clone = s'.clone) (h : Replays s' ops t) : Replays s ops t := by
  obtain ⟨r, hr, hclone⟩ := h
  obtain ⟨b, hb, hsame⟩ := run_onModel_related (sameSnapshot_some.mpr hs.symm) hr
  cases b with
  | none => simp [SameSnapshot] at hsame
  | some r' => exact ⟨r', hb, (sameSnapshot_some.mp hsame).symm.trans hclone⟩

lemma Replays.trans (h : Replays s ops s') (h' : Replays s' ops' t) :
    Replays s (ops ++ ops') t := by
  obtain ⟨q, hq, hclone⟩ := h
  obtain ⟨r, hr, hrclone⟩ := h'.of_clone_eq hclone
  exact ⟨r, run_append_eq_ok.mpr ⟨_, hq, hr⟩, hrclone⟩

lemma Replays.cons {op : Operation} {q : Schema} (hop : op.onModel (some s) = .ok (some q))
    (hq : q.clone = s'.clone) (h : Replays s' ops t) : Replays s (op :: ops) t :=
  have hfirst : Replays s [op] s' := ⟨q, run_cons_eq_ok.mpr ⟨_, hop, rfl⟩, hq⟩
  hfirst.trans h

end Replays

/-! ## Indexes and constraints -/

lemma applyPart_eq_ok {part : Part α} {change : List α → Except Err (List α)} {s' : Schema} :
    applyPart part change s = .ok s' ↔
      ∃ values, change (part.get s) = .ok values ∧ (part.set values s).Valid ∧
        part.set values s.clone = s' := by
  have hvalid (values : List α) :
      (part.set values s.clone).validate = .ok () ↔ (part.set values s).Valid := by
    rw [Schema.validate_eq_ok_iff, ← part.clone_set, Schema.valid_clone_iff]
  simp only [applyPart, bind_eq_ok, Except.ok.injEq]
  constructor
  · rintro ⟨values, hchange, _, hok, rfl⟩
    exact ⟨values, hchange, (hvalid values).mp hok, rfl⟩
  · rintro ⟨values, hchange, hok, rfl⟩
    exact ⟨values, hchange, (), (hvalid values).mpr hok, rfl⟩

/-- The three operations on a part, and the transition that replays them. -/
structure PartOps {α : Type} [DecidableEq α] (part : Part α)
    (apply : Schema → Operation → Except Err Schema) (remove add : Schema → α → Operation)
    (reorder : Schema → List String → List String → Operation) : Prop where
  onModel_remove : ∀ b v s, (remove b v).onModel (some s) = (apply s (remove b v)).map some
  onModel_add : ∀ b v s, (add b v).onModel (some s) = (apply s (add b v)).map some
  onModel_reorder : ∀ b old new s,
    (reorder b old new).onModel (some s) = (apply s (reorder b old new)).map some
  apply_remove : ∀ b v s, ∃ e, apply s (remove b v) =
    applyPart part (fun l => orFail (Named.remove? part.name v l) e) s
  apply_add : ∀ b v s, ∃ e, apply s (add b v) =
    applyPart part (fun l => orFail (Named.add? part.name v l) e) s
  apply_reorder : ∀ b old new s, ∃ e e', apply s (reorder b old new) =
    applyPart part (reorderPart part old new e e') s

lemma indexOps : PartOps indexPart applyIndexState removeIndex addIndex reorderIndexes where
  onModel_remove _ _ _ := rfl
  onModel_add _ _ _ := rfl
  onModel_reorder _ _ _ _ := rfl
  apply_remove _ _ _ := ⟨_, rfl⟩
  apply_add _ _ _ := ⟨_, rfl⟩
  apply_reorder _ _ _ _ := ⟨_, _, rfl⟩

lemma constraintOps : PartOps constraintPart applyConstraintState removeConstraint addConstraint
    reorderConstraints where
  onModel_remove _ _ _ := rfl
  onModel_add _ _ _ := rfl
  onModel_reorder _ _ _ _ := rfl
  apply_remove _ _ _ := ⟨_, rfl⟩
  apply_add _ _ _ := ⟨_, rfl⟩
  apply_reorder _ _ _ _ := ⟨_, _, rfl⟩

section PartSegments

variable {α : Type} [DecidableEq α] {part : Part α}
  {apply : Schema → Operation → Except Err Schema} {remove add : Schema → α → Operation}
  {reorder : Schema → List String → List String → Operation}

variable (h : PartOps part apply remove add reorder)

include h

variable {b s a : Schema} {l : List α}

/-- The removals of a part, once the detector has accepted them. -/
lemma run_removePart {s' : Schema} (hnames : ((part.get s).map part.name).Nodup) (hl : l.Nodup)
    (hsub : ∀ v ∈ l, v ∈ part.get s) (hrun : run apply s (l.map (remove b)) = .ok s') :
    Replays s (l.map (remove b)) s' ∧
      s'.clone = (part.set ((part.get s).filter fun v => v ∉ l) s).clone := by
  induction l generalizing s with
  | nil =>
    simp only [map_nil, run_nil, Except.ok.injEq] at hrun
    subst hrun
    have hself : (part.get s).filter (fun v => v ∉ ([] : List α)) = part.get s := by simp
    refine ⟨.refl s, ?_⟩
    rw [hself, part.set_get]
  | cons v rest ih =>
    rw [nodup_cons] at hl
    rw [map_cons, run_cons_eq_ok] at hrun
    obtain ⟨s₁, hs₁, hrest⟩ := hrun
    obtain ⟨e, happly⟩ := h.apply_remove b v s
    have hs₁' := hs₁
    rw [happly, applyPart_eq_ok] at hs₁'
    obtain ⟨values, hvalues, -, rfl⟩ := hs₁'
    rw [orFail_eq_ok, Named.remove?_of_mem hnames (hsub v mem_cons_self),
      Option.some.injEq] at hvalues
    subst hvalues
    have hget : part.get (part.set ((part.get s).filter fun w => w ≠ v) s.clone) =
        (part.get s).filter fun w => w ≠ v := part.get_set _ _
    have ih := ih (by rw [hget]; exact hnames.sublist (filter_sublist.map _)) hl.2
      (fun w hw => by
        rw [hget, mem_filter]
        refine ⟨hsub w (mem_cons_of_mem _ hw), ?_⟩
        have : w ≠ v := fun heq => hl.1 (heq ▸ hw)
        simpa using this) hrest
    refine ⟨?_, ?_⟩
    · rw [map_cons]
      refine ih.1.cons ?_ rfl
      rw [h.onModel_remove, hs₁]
      rfl
    · rw [ih.2, hget, part.set_set, part.clone_set, Schema.clone_clone, filter_filter,
        part.clone_set]
      congr 1
      refine filter_congr fun w _ => ?_
      simp [Bool.and_comm]

/-- The additions of a part; every list between the two has to be valid. -/
lemma run_addPart
    (hvalid : ∀ values, (∀ v ∈ values, v ∈ part.get a) → (values.map part.name).Nodup → (part.set
      values s).Valid) (hnames : ((part.get s ++ l).map part.name).Nodup)
    (hsub : ∀ v ∈ part.get s ++ l, v ∈ part.get a) :
    Replays s (l.map (add b)) (part.set (part.get s ++ l) s) := by
  induction l generalizing s with
  | nil =>
    rw [append_nil, part.set_get]
    exact .refl s
  | cons v rest ih =>
    have hassoc : part.get s ++ v :: rest = (part.get s ++ [v]) ++ rest := by simp
    have hnames' : ((part.get s ++ [v]).map part.name).Nodup := by
      rw [hassoc, map_append] at hnames
      exact hnames.of_append_left
    have hsub' : ∀ w ∈ part.get s ++ [v], w ∈ part.get a := fun w hw =>
      hsub w (hassoc ▸ mem_append_left _ hw)
    have hfresh : part.name v ∉ (part.get s).map part.name := by
      rw [map_append, nodup_append] at hnames'
      exact fun hmem => hnames'.2.2 _ hmem (part.name v) (by simp) rfl
    obtain ⟨e, happly⟩ := h.apply_add b v s
    have hstep : apply s (add b v) = .ok (part.set (part.get s ++ [v]) s.clone) := by
      rw [happly, applyPart_eq_ok]
      exact ⟨_, by rw [orFail_eq_ok, Named.add?_of_not_mem hfresh], hvalid _ hsub' hnames', rfl⟩
    have hget : part.get (part.set (part.get s ++ [v]) s.clone) = part.get s ++ [v] :=
      part.get_set _ _
    have hrest := ih (s := part.set (part.get s ++ [v]) s.clone)
      (fun values hmem hnodup => by
        rw [part.set_set, ← part.clone_set, Schema.valid_clone_iff]
        exact hvalid values hmem hnodup)
      (by rw [hget, ← hassoc]; exact hnames) (by rw [hget, ← hassoc]; exact hsub)
    rw [hget, ← hassoc, part.set_set] at hrest
    obtain ⟨r, hr, hclone⟩ := hrest
    rw [part.clone_set, Schema.clone_clone, ← part.clone_set] at hclone
    rw [map_cons]
    refine Replays.cons ?_ rfl ⟨r, hr, hclone⟩
    rw [h.onModel_add, hstep]
    rfl

/-- The reordering of a part, when its order is not the desired one. -/
lemma run_reorderPart (hvalid : (part.set (part.get a) s).Valid)
    (hnames : ((part.get s).map part.name).Nodup) (hperm : (part.get s).Perm (part.get a)) :
    Replays s (if (part.get s).map part.name = (part.get a).map part.name then []
        else [reorder b ((part.get s).map part.name) ((part.get a).map part.name)])
      (part.set (part.get a) s) := by
  have hpick := Named.pick_index hnames hperm
  split_ifs with heq
  · have hsame : part.get a = part.get s := by
      have hself := Named.pick_index hnames (Perm.refl (part.get s))
      rw [heq, hpick, Option.some.injEq] at hself
      exact hself
    rw [hsame, part.set_get]
    exact .refl s
  · obtain ⟨e, e', happly⟩ := h.apply_reorder b ((part.get s).map part.name)
      ((part.get a).map part.name) s
    have hclone : (part.set (part.get a) s.clone).clone = (part.set (part.get a) s).clone := by
      rw [part.clone_set, part.clone_set, Schema.clone_clone]
    refine Replays.cons ?_ hclone (.refl _)
    have hstep : apply s (reorder b ((part.get s).map part.name) ((part.get a).map part.name)) =
        .ok (part.set (part.get a) s.clone) := by
      rw [happly, applyPart_eq_ok]
      refine ⟨_, ?_, hvalid, rfl⟩
      simp only [reorderPart, bind_eq_ok, failIf_eq_ok, orFail_eq_ok]
      exact ⟨(), by simp [hperm.length_eq], hpick⟩
    rw [h.onModel_reorder, hstep]
    rfl

end PartSegments

end Gogo.Migrations

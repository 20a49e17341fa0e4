import Gogo.Management.MakeMigrations
import Gogo.Migrations.Soundness
import Gogo.Migrations.OrderSafety
import Gogo.Migrations.Executor

/-!
# Generating the first migrations of a project

A project without migrations runs `makemigrations` once for every app, in some order. Each run sees
the migrations that were generated before, decoded from their files.

* `generateAll` — the runs, one after the other.
* `Generated` — what the runs leave: for every app with models one migration without dependencies,
  whose operations create the models of that app.
* `generated_plan_order` — **the migrations are planned in the order of their keys; a model that
  creates storage comes after the storage-creating targets of its constrained relations in its own
  app, and after a target in another app exactly when the key of that app's migration is the
  smaller one.** A model without storage (unmanaged, proxy or abstract) waits for no target.
-/

namespace Gogo.Management

open List Gogo.Lib Gogo.Models Gogo.Migrations

/-! ## The runs -/

/-- One run of the command, with the file it writes read back. -/
def generateStep (registered : List Schema) (all : List Migration) (command : String × String) :
    Except Err (List Migration) := do
  let state ← stateAt all ""
  match ← makemigrations all state registered command.1 command.2 with
  | none => .ok all
  | some m => do
    let file ← generate m
    let decoded ← orFail (mustDecode file) (.text "migrations: invalid generated migration")
    .ok (all ++ [decoded])

/-- The runs for a list of apps and labels. -/
def generateAll (registered : List Schema) (commands : List (String × String)) :
    Except Err (List Migration) :=
  run (generateStep registered) [] commands

/-! ## Operations that create models -/

section Segments

variable {before after : List Schema} {ops : List Operation}

/-- Without options there are no renames: the operations of every key are those of its model. -/
lemma detect_segments (hb : (before.map fun s => s.key).Nodup) (hbefore : ∀ s ∈ before, s.Valid)
    (ha : (after.map fun s => s.key).Nodup) (h : detect before after {} = .ok ops) :
    (∀ a ∈ after, a.Valid) ∧ (∀ op ∈ ops, op.is .renameField = false) ∧
      ∀ key, SegmentOf {} (stateOf before) (stateOf after) key
        (ops.filter fun op => op.key = key) := by
  obtain ⟨detected, old, edges, order, hdetected, hedges, htop, rfl⟩ := topological_of_detect h
  obtain ⟨hafter, -, hrenames, hsegments⟩ := detectOperations_eq_ok hb hbefore ha hdetected
  have hnone : (([], stateOf before) : List Operation × State) =
      (detected.filter (fun op => op.is .renameField), old) := Except.ok.inj hrenames
  obtain ⟨hnil, rfl⟩ := (Prod.mk.injEq _ _ _ _).mp hnone
  have hnot : ∀ op ∈ detected, op.is .renameField = false := by
    intro op hop
    have := filter_eq_nil_iff.mp hnil.symm op hop
    simpa using this
  refine ⟨hafter, ?_, fun key => ?_⟩
  · intro op hop
    obtain ⟨i, hi, rfl⟩ := mem_map.mp hop
    have hlt := mem_range.mp (htop.perm.mem_iff.mp hi)
    refine hnot _ ?_
    unfold opAt
    rw [getElem?_eq_getElem hlt]
    exact getElem_mem hlt
  · have hsegment := hsegments key
    have hall : detected.filter (fun op => !op.is .renameField) = detected :=
      filter_eq_self.mpr fun op hop => by simp [hnot op hop]
    rw [hall] at hsegment
    rw [filter_key_result hedges htop key]
    exact hsegment

end Segments

section Creates

variable {after : List Schema} {ops : List Operation}

/-- From nothing, `Detect` creates every model once. -/
lemma detect_nil_spec (ha : (after.map fun s => s.key).Nodup) (h : detect [] after {} = .ok ops) :
    (∀ op ∈ ops, ∃ a ∈ after, op = createModel a) ∧
      (ops.map Operation.key).Perm (after.map fun s => s.key) := by
  have hstart : (([] : List Schema).map fun s => s.key).Nodup := nodup_nil
  obtain ⟨-, -, hsegments⟩ := detect_segments hstart (fun s hs => by cases hs) ha h
  have hsegment : ∀ key, (ops.filter fun op => op.key = key) =
      (((stateOf after).get? key).map createModel).toList := by
    intro key
    have hkey := hsegments key
    unfold SegmentOf at hkey
    rcases hget : (stateOf after).get? key with _ | a
    · rw [hget] at hkey
      rcases hkey with ⟨hsome, -⟩ | ⟨-, hnil⟩
      · cases hsome
      · exact hnil
    · rw [hget] at hkey
      unfold detectModelAt at hkey
      rw [hget] at hkey
      exact (Except.ok.inj hkey).symm
  have hcreate : ∀ op ∈ ops, ∃ a ∈ after, op = createModel a := by
    intro op hop
    have hmem : op ∈ ops.filter fun op' => op'.key = op.key :=
      mem_filter.mpr ⟨hop, by simp⟩
    rw [hsegment] at hmem
    rcases hget : (stateOf after).get? op.key with _ | a
    · rw [hget] at hmem
      cases hmem
    · rw [hget] at hmem
      exact ⟨a, ((get?_stateOf ha).mp hget).1, mem_singleton.mp hmem⟩
  refine ⟨hcreate, perm_iff_count.mpr fun key => ?_⟩
  have hcount : (ops.map Operation.key).count key = (ops.filter fun op => op.key = key).length := by
    rw [count_eq_countP, countP_map, ← countP_eq_length_filter]
    refine countP_congr fun op _ => ?_
    simp
  rw [hcount, hsegment]
  rcases hget : (stateOf after).get? key with _ | a
  · refine (count_eq_zero.mpr fun hmem => ?_).symm
    obtain ⟨a, ha', hkey⟩ := mem_map.mp hmem
    rw [(get?_stateOf ha).mpr ⟨ha', hkey⟩] at hget
    cases hget
  · obtain ⟨ha', hkey⟩ := (get?_stateOf ha).mp hget
    exact (count_eq_one_of_mem ha (hkey ▸ mem_map_of_mem ha')).symm

lemma constrainedRelation_clone (f : Field) :
    constrainedRelation f.clone = constrainedRelation f := by
  have hrelation : f.clone.relation = f.relation.map Relation.clone := rfl
  have hkind : f.clone.kind = f.kind := rfl
  unfold constrainedRelation
  rw [hrelation, hkind]
  rcases f.relation with _ | r <;> rfl

lemma relationOf_clone_target (f : Field) :
    (relationOf f.clone).target = (relationOf f).target := by
  have hrelation : f.clone.relation = f.relation.map Relation.clone := rfl
  unfold relationOf
  rw [hrelation]
  rcases f.relation with _ | r <;> rfl

lemma before_map {α β : Type} {l : List α} {i j : α} (h : Before l i j) (f : α → β) :
    Before (l.map f) (f i) (f j) :=
  Sublist.map f h

/-- A model is created after the storage-creating targets of its constrained relations. -/
lemma detect_nil_order (ha : (after.map fun s => s.key).Nodup) (h : detect [] after {} = .ok ops)
    {a b : Schema} (hmem : a ∈ after) (hmem' : b ∈ after) (hne : b.key ≠ a.key)
    (hstorage : createsModelStorage a = true) (hstorage' : createsModelStorage b = true)
    {f : Field} (hf : f ∈ a.fields) (hconstrained : constrainedRelation f = true)
    (htarget : (relationOf f).target = b.key) :
    Before (ops.map Operation.key) b.key a.key := by
  have hspec := detect_nil_spec ha h
  obtain ⟨detected, old, edges, order, hdetected, hedges, htop, rfl⟩ := topological_of_detect h
  -- the positions of the two operations among the detected ones
  have hposition : ∀ c ∈ after, ∃ i < detected.length, opAt detected i = createModel c := by
    intro c hc
    have hkey : c.key ∈ (order.map (opAt detected)).map Operation.key :=
      hspec.2.mem_iff.mpr (mem_map_of_mem hc)
    obtain ⟨op, hop, hopkey⟩ := mem_map.mp hkey
    obtain ⟨c', hc', rfl⟩ := hspec.1 op hop
    obtain rfl : c' = c := inj_on_of_nodup_map ha hc' hc hopkey
    obtain ⟨i, hi, heq⟩ := mem_map.mp hop
    exact ⟨i, mem_range.mp (htop.perm.mem_iff.mp hi), heq⟩
  obtain ⟨i, hi, hopi⟩ := hposition b hmem'
  obtain ⟨j, hj, hopj⟩ := hposition a hmem
  have hij : i ≠ j := by
    rintro rfl
    rw [hopi] at hopj
    exact hne (congrArg Operation.key hopj)
  have hbefore : Before order i j := by
    refine introduced_before hedges htop hi hj hij (f := f.clone) ?_ ?_ ?_
    · rw [hopj]
      exact ⟨(constrainedRelation_clone f).trans hconstrained, .inl ⟨rfl, hstorage, mem_map_of_mem hf⟩⟩
    · rw [hopi]
      exact ((relationOf_clone_target f).trans htarget).symm
    · rw [hopi]
      exact .inl ⟨rfl, hstorage'⟩
  have hkeys := before_map (before_map hbefore (opAt detected)) Operation.key
  rw [hopi, hopj] at hkeys
  exact hkeys

end Creates

/-! ## What the runs leave -/

/-- The migrations that the runs for some apps have left. -/
structure Generated (registered : List Schema) (commands : List (String × String))
    (all : List Migration) : Prop where
  origin : ∀ m ∈ all, ∃ command ∈ commands, ∃ ops, m.app = command.1 ∧
    detect [] (ofApp command.1 registered) {} = .ok ops ∧
    m.operations = ops.map Operation.reread
  isolated : ∀ m ∈ all, m.dependencies = []
  valid : ∀ m ∈ all,
    validIdentifier m.app = true ∧ migrationName m.name = true ∧ m.checksumError = none
  nodup : (all.map Migration.app).Nodup
  complete : ∀ command ∈ commands, ofApp command.1 registered ≠ [] → ∃ m ∈ all, m.app = command.1

section Runs

variable {registered : List Schema} {commands : List (String × String)} {all : List Migration}

lemma nodup_ofApp (hkeys : (registered.map fun s => s.key).Nodup) (app : String) :
    ((ofApp app registered).map fun s => s.key).Nodup :=
  hkeys.sublist (Sublist.map _ filter_sublist)

variable {app : String} {m m' : Migration}

lemma appLabel_of_mem_ofApp {s : Schema} (h : s ∈ ofApp app registered) :
    s ∈ registered ∧ s.appLabel = app := by
  obtain ⟨hmem, hlabel⟩ := mem_filter.mp h
  exact ⟨hmem, beq_iff_eq.mp hlabel⟩

/-- The text before the first dot of a key is the app. -/
lemma cutApp_key (h : validIdentifier m.app = true) : cutApp m.key = some m.app := by
  have hdot : ∀ c ∈ m.app.toList, c ≠ '.' := by
    rintro c hc rfl
    unfold validIdentifier at h
    rcases hl : m.app.toList with _ | ⟨c₀, rest⟩
    · rw [hl] at hc
      cases hc
    · rw [hl] at h hc
      simp only [Bool.and_eq_true, all_eq_true] at h
      rcases mem_cons.mp hc with hc | hc
      · rw [← hc] at h
        exact absurd h.1 (by decide)
      · exact absurd (h.2 '.' hc) (by decide)
  have hlist : m.key.toList = m.app.toList ++ '.' :: m.name.toList := by
    unfold Migration.key
    simp
  unfold cutApp
  rw [hlist, if_pos (by simp), takeWhile_append_of_pos (by simpa using hdot)]
  simp

/-- Migrations of different apps have different keys. -/
lemma Generated.nodup_keys (h : Generated registered commands all) :
    (all.map Migration.key).Nodup := by
  refine Nodup.of_map cutApp ?_
  rw [List.map_map]
  have hcut : all.map (cutApp ∘ Migration.key) = (all.map Migration.app).map some := by
    rw [List.map_map]
    exact map_congr_left fun m hm => cutApp_key (h.valid m hm).1
  rw [hcut]
  exact h.nodup.map (Option.some_injective _)

/-- The operations of a generated migration create models of its app. -/
lemma Generated.mem_operations (h : Generated registered commands all)
    (hkeys : (registered.map fun s => s.key).Nodup) (hm : m ∈ all) {op : Operation}
    (hop : op ∈ m.operations) : ∃ a ∈ ofApp m.app registered, op = (createModel a).reread := by
  obtain ⟨command, -, ops, happ, hdetect, hops⟩ := h.origin m hm
  rw [hops] at hop
  obtain ⟨op', hop', rfl⟩ := mem_map.mp hop
  obtain ⟨a, ha, rfl⟩ := (detect_nil_spec (nodup_ofApp hkeys _) hdetect).1 op' hop'
  exact ⟨a, happ ▸ ha, rfl⟩

/-- Operations that create models of other apps leave no model of an app. -/
lemma appLabel_ne_of_run {ops : List Operation} {σ σ' : State}
    (hops : ∀ op ∈ ops, ∃ a : Schema, a.appLabel ≠ app ∧ op = (createModel a).reread)
    (hσ : ∀ key s, σ.get? key = some s → s.appLabel ≠ app) (h : run applyOperation σ ops = .ok σ') :
    ∀ key s, σ'.get? key = some s → s.appLabel ≠ app := by
  induction ops generalizing σ with
  | nil =>
    cases h
    exact hσ
  | cons op rest ih =>
    obtain ⟨a, hlabel, rfl⟩ := hops op mem_cons_self
    obtain ⟨τ, hτ, hrest⟩ := run_cons_eq_ok.mp h
    have hstep : τ = σ.put (createModel a).reread.key (some a.clone.reread.clone) :=
      (Except.ok.inj hτ).symm
    refine ih (fun op hop => hops op (mem_cons_of_mem _ hop)) ?_ hrest
    intro key s hs
    rw [hstep, FinMap.get?_put] at hs
    split_ifs at hs
    · cases hs
      exact hlabel
    · exact hσ key s hs

/-- The state of the migrations of other apps has no model of an app. -/
lemma Generated.ofApp_state (h : Generated registered commands all)
    (hkeys : (registered.map fun s => s.key).Nodup) (happ : app ∉ all.map Migration.app)
    {state : List Schema} (hstate : stateAt all "" = .ok state) : ofApp app state = [] := by
  obtain ⟨order, hplan, hstate⟩ := bind_eq_ok.mp hstate
  obtain ⟨σ, hreplay, hstate⟩ := bind_eq_ok.mp hstate
  cases hstate
  obtain ⟨-, -, hisPlan⟩ := plan_spec hplan
  have hops : ∀ op ∈ order.flatMap fun m => m.operations,
      ∃ a : Schema, a.appLabel ≠ app ∧ op = (createModel a).reread := by
    intro op hop
    obtain ⟨m, hm, hop⟩ := mem_flatMap.mp hop
    obtain ⟨a, ha, rfl⟩ := h.mem_operations hkeys (hisPlan.known m hm) hop
    refine ⟨a, ?_, rfl⟩
    rw [(appLabel_of_mem_ofApp ha).2]
    rintro rfl
    exact happ (mem_map_of_mem (hisPlan.known m hm))
  have hlabels := appLabel_ne_of_run hops (fun _ _ hs => by cases hs) hreplay
  refine filter_eq_nil_iff.mpr fun s hs => ?_
  obtain ⟨key, t, ht, rfl⟩ := mem_schemas.mp hs
  rw [beq_iff_eq]
  exact hlabels key t ht

/-- **One more run keeps what the runs leave.** -/
theorem Generated.step (h : Generated registered commands all)
    (hkeys : (registered.map fun s => s.key).Nodup) {command : String × String}
    (hnew : command.1 ∉ commands.map Prod.fst) {all' : List Migration}
    (hstep : generateStep registered all command = .ok all') :
    Generated registered (commands ++ [command]) all' := by
  have happ : command.1 ∉ all.map Migration.app := by
    intro hmem
    obtain ⟨m, hm, heq⟩ := mem_map.mp hmem
    obtain ⟨command', hcommand', -, heq', -⟩ := h.origin m hm
    exact hnew (mem_map.mpr ⟨command', hcommand', heq'.symm.trans heq⟩)
  obtain ⟨state, hstate, hstep⟩ := bind_eq_ok.mp hstep
  obtain ⟨made, hmade, hstep⟩ := bind_eq_ok.mp hstep
  have hempty := h.ofApp_state hkeys happ hstate
  have horigin : ∀ m ∈ all, ∃ command' ∈ commands ++ [command], ∃ ops, m.app = command'.1 ∧
      detect [] (ofApp command'.1 registered) {} = .ok ops ∧
      m.operations = ops.map Operation.reread := by
    intro m hm
    obtain ⟨command', hcommand', rest⟩ := h.origin m hm
    exact ⟨command', mem_append_left _ hcommand', rest⟩
  rcases made with _ | m
  · cases hstep
    refine ⟨horigin, h.isolated, h.valid, h.nodup, fun command' hcommand' hsome => ?_⟩
    rcases mem_append.mp hcommand' with hcommand' | hcommand'
    · exact h.complete command' hcommand' hsome
    · obtain rfl := mem_singleton.mp hcommand'
      have hdetect := makemigrations_eq_none hmade
      rw [hempty] at hdetect
      have hperm := (detect_nil_spec (nodup_ofApp hkeys _) hdetect).2
      exact absurd (map_eq_nil_iff.mp hperm.symm.eq_nil) hsome
  · obtain ⟨hvalid, ops, hdetect, -, rfl⟩ := makemigrations_eq_some hmade
    obtain ⟨file, hfile, hstep⟩ := bind_eq_ok.mp hstep
    obtain ⟨decoded, hdecoded, hstep⟩ := bind_eq_ok.mp hstep
    cases hstep
    obtain ⟨rfl, -, hchecksum⟩ := mustDecode_generate hfile (orFail_eq_ok.mp hdecoded)
    rw [hempty] at hdetect
    -- the app has no migration yet, so the new one depends on nothing
    have hown : (all.filter fun m => m.app == command.1) = [] := by
      refine filter_eq_nil_iff.mpr fun m hm => ?_
      rw [beq_iff_eq]
      exact fun heq => happ (heq ▸ mem_map_of_mem hm)
    refine ⟨?_, ?_, ?_, ?_, ?_⟩
    · refine forall_mem_append.mpr ⟨horigin, forall_mem_singleton.mpr ?_⟩
      exact ⟨command, by simp, ops, rfl, hdetect, rfl⟩
    · refine forall_mem_append.mpr ⟨h.isolated, forall_mem_singleton.mpr ?_⟩
      show ((all.filter fun m => m.app == command.1).getLast?.map Migration.key).toList = []
      rw [hown]
      rfl
    · refine forall_mem_append.mpr ⟨h.valid, forall_mem_singleton.mpr ?_⟩
      exact ⟨hvalid, (generate_eq_ok hfile).1, hchecksum⟩
    · rw [map_append]
      refine Nodup.append h.nodup (nodup_singleton _) fun app' hmem hmem' => ?_
      have heq : app' = command.1 := mem_singleton.mp hmem'
      exact happ (heq ▸ hmem)
    · intro command' hcommand' hsome
      rcases mem_append.mp hcommand' with hcommand' | hcommand'
      · obtain ⟨m, hm, heq⟩ := h.complete command' hcommand' hsome
        exact ⟨m, mem_append_left _ hm, heq⟩
      · obtain rfl := mem_singleton.mp hcommand'
        exact ⟨_, mem_append_right _ (mem_singleton_self _), rfl⟩

lemma generated_nil : Generated registered [] [] where
  origin := by simp
  isolated := by simp
  valid := by simp
  nodup := nodup_nil
  complete := by simp

/-- The runs for different apps leave generated migrations. -/
lemma generated_of_run {done : List (String × String)} {all' : List Migration}
    (hkeys : (registered.map fun s => s.key).Nodup) (h : Generated registered done all)
    (happs : ((done ++ commands).map Prod.fst).Nodup)
    (hrun : run (generateStep registered) all commands = .ok all') :
    Generated registered (done ++ commands) all' := by
  induction commands generalizing done all with
  | nil =>
    cases hrun
    rwa [append_nil]
  | cons command rest ih =>
    obtain ⟨mid, hmid, hrest⟩ := run_cons_eq_ok.mp hrun
    have hassoc : done ++ command :: rest = (done ++ [command]) ++ rest := by simp
    obtain ⟨happs, hnew⟩ := Named.nodup_step happs
    rw [hassoc]
    exact ih (h.step hkeys hnew hmid) happs hrest

/-! ## The order of the plan -/

/-- The keys of the models that the operations of a plan create, in order. -/
def createdKeys (order : List Migration) : List String :=
  order.flatMap fun m => m.operations.map Operation.key

variable {order : List Migration}

section

variable (h : Generated registered commands all) (hkeys : (registered.map fun s => s.key).Nodup)

include h hkeys

/-- The models that a generated migration creates. -/
lemma Generated.map_key_operations {m : Migration} (hm : m ∈ all) :
    ∃ ops, detect [] (ofApp m.app registered) {} = .ok ops ∧
      m.operations.map Operation.key = ops.map Operation.key ∧
      (m.operations.map Operation.key).Perm ((ofApp m.app registered).map fun s => s.key) := by
  obtain ⟨command, -, ops, happ, hdetect, hops⟩ := h.origin m hm
  rw [← happ] at hdetect
  have hmap : m.operations.map Operation.key = ops.map Operation.key := by
    rw [hops, List.map_map]
    rfl
  exact ⟨ops, hdetect, hmap, hmap ▸ (detect_nil_spec (nodup_ofApp hkeys _) hdetect).2⟩

/-- No model is created twice. -/
lemma Generated.nodup_createdKeys (hperm : order.Perm all) : (createdKeys order).Nodup := by
  have happs : order.Pairwise fun m m' => m.app ≠ m'.app := by
    have := (hperm.map Migration.app).nodup_iff.mpr h.nodup
    exact pairwise_map.mp this
  refine nodup_flatMap.mpr ⟨fun m hm => ?_, ?_⟩
  · obtain ⟨-, -, -, hops⟩ := h.map_key_operations hkeys (hperm.mem_iff.mp hm)
    exact hops.nodup_iff.mpr (nodup_ofApp hkeys _)
  · refine happs.imp_of_mem fun {m m'} hm hm' hne key hkey hkey' => ?_
    obtain ⟨-, -, -, hops⟩ := h.map_key_operations hkeys (hperm.mem_iff.mp hm)
    obtain ⟨-, -, -, hops'⟩ := h.map_key_operations hkeys (hperm.mem_iff.mp hm')
    obtain ⟨a, ha, rfl⟩ := mem_map.mp (hops.mem_iff.mp hkey)
    obtain ⟨a', ha', heq⟩ := mem_map.mp (hops'.mem_iff.mp hkey')
    obtain ⟨hmem, hlabel⟩ := appLabel_of_mem_ofApp ha
    obtain ⟨hmem', hlabel'⟩ := appLabel_of_mem_ofApp ha'
    obtain rfl := inj_on_of_nodup_map hkeys hmem' hmem heq
    exact hne (hlabel.symm.trans hlabel')

/-- A model is created by the migration of its app. -/
lemma Generated.exists_migration {a : Schema} (ha : a ∈ registered)
    (hcover : a.appLabel ∈ commands.map Prod.fst) :
    ∃ m ∈ all, m.app = a.appLabel ∧ a.key ∈ m.operations.map Operation.key := by
  obtain ⟨command, hcommand, heq⟩ := mem_map.mp hcover
  have hmem : a ∈ ofApp command.1 registered :=
    mem_filter.mpr ⟨ha, beq_iff_eq.mpr heq.symm⟩
  obtain ⟨m, hm, happ⟩ := h.complete command hcommand (ne_nil_of_mem hmem)
  obtain ⟨-, -, -, hops⟩ := h.map_key_operations hkeys hm
  refine ⟨m, hm, happ.trans heq, hops.mem_iff.mpr ?_⟩
  rw [happ]
  exact mem_map_of_mem hmem

end

/-- What one migration creates comes before what a later one creates. -/
lemma before_createdKeys (h : Before order m m') {key key' : String}
    (hkey : key ∈ m.operations.map Operation.key) (hkey' : key' ∈ m'.operations.map Operation.key) :
    Before (createdKeys order) key key' := by
  have hpair : ([key] ++ [key']).Sublist (createdKeys [m, m']) := by
    unfold createdKeys
    rw [flatMap_cons, flatMap_singleton]
    exact (singleton_sublist.mpr hkey).append (singleton_sublist.mpr hkey')
  exact hpair.trans (Sublist.flatMap h _)

/-- In the order of the keys, the smaller key comes first. -/
lemma before_of_key_lt (hsorted : (order.map Migration.key).Pairwise (· ≤ ·)) (hm : m ∈ order)
    (hm' : m' ∈ order) (hlt : m.key < m'.key) : Before order m m' := by
  obtain ⟨front, back, rfl⟩ := append_of_mem hm'
  have hfront : m ∈ front := by
    rcases mem_append.mp hm with hm | hm
    · exact hm
    · rw [map_append, map_cons] at hsorted
      have hhead := (pairwise_cons.mp (pairwise_append.mp hsorted).2.1).1
      rcases mem_cons.mp hm with rfl | hm
      · exact absurd hlt (lt_irrefl _)
      · exact absurd (hhead m.key (mem_map_of_mem hm)) (not_le.mpr hlt)
  exact (singleton_sublist.mpr hfront).append
    (singleton_sublist.mpr mem_cons_self)

end Runs

/-- **After one run for every app the plan exists, has the migrations in the order of their keys,
and creates every model once.** A model that creates storage comes after a storage-creating target
of a constrained relation in its own app; after a target in another app it comes exactly when the
key of the other app's migration is the smaller one.
Source: `migrations.go` `makemigrations`, `dependencies.go` `orderDetectedOperations`. -/
theorem generated_plan_order (registered : List Schema) (commands : List (String × String))
    (migrations : List Migration) (hkeys : (registered.map fun s => s.key).Nodup)
    (happs : (commands.map Prod.fst).Nodup)
    (hcover : ∀ s ∈ registered, s.appLabel ∈ commands.map Prod.fst)
    (hrun : generateAll registered commands = .ok migrations) :
    ∃ order, plan migrations "" = .ok order ∧
      order.map Migration.key = sortStrings (migrations.map Migration.key) ∧
      (∀ m ∈ order, ∀ op ∈ m.operations, op.is .createModel = true) ∧
      (createdKeys order).Perm (registered.map fun s => s.key) ∧
      ∀ a ∈ registered, createsModelStorage a = true → ∀ f ∈ a.fields,
        constrainedRelation f = true → ∀ b ∈ registered, b.key = (relationOf f).target →
          (b.appLabel = a.appLabel → b.key ≠ a.key → createsModelStorage b = true →
            Before (createdKeys order) b.key a.key) ∧
          (b.appLabel ≠ a.appLabel → ∀ m ∈ order, ∀ m' ∈ order, m.app = a.appLabel →
            m'.app = b.appLabel → (Before (createdKeys order) b.key a.key ↔ m'.key < m.key)) := by
  have hgen : Generated registered ([] ++ commands) migrations :=
    generated_of_run hkeys generated_nil happs hrun
  rw [nil_append] at hgen
  obtain ⟨order, hplan, hsorted⟩ := plan_of_isolated hgen.nodup_keys hgen.valid hgen.isolated
  obtain ⟨-, -, hisPlan⟩ := plan_spec hplan
  have hperm := hisPlan.perm hgen.nodup_keys
  have hnodup := hgen.nodup_createdKeys hkeys hperm
  have hpairwise : (order.map Migration.key).Pairwise (· ≤ ·) := hsorted ▸ pairwise_sortStrings _
  -- the migration of an app creates the models of that app
  have hcreates : ∀ s ∈ registered, ∀ m ∈ order, m.app = s.appLabel →
      s.key ∈ m.operations.map Operation.key := by
    intro s hs m hm happ
    obtain ⟨m₀, hm₀, happ₀, hkey⟩ := hgen.exists_migration hkeys hs (hcover s hs)
    obtain rfl : m₀ = m := inj_on_of_nodup_map hgen.nodup hm₀ (hperm.mem_iff.mp hm)
      (happ₀.trans happ.symm)
    exact hkey
  refine ⟨order, hplan, hsorted, ?_, ?_, ?_⟩
  · intro m hm op hop
    obtain ⟨a, -, rfl⟩ := hgen.mem_operations hkeys (hperm.mem_iff.mp hm) hop
    rfl
  · refine (perm_ext_iff_of_nodup hnodup hkeys).mpr fun key => ?_
    constructor
    · intro hmem
      obtain ⟨m, hm, hkey⟩ := mem_flatMap.mp hmem
      obtain ⟨-, -, -, hops⟩ := hgen.map_key_operations hkeys (hperm.mem_iff.mp hm)
      obtain ⟨a, ha, rfl⟩ := mem_map.mp (hops.mem_iff.mp hkey)
      exact mem_map_of_mem (appLabel_of_mem_ofApp ha).1
    · intro hmem
      obtain ⟨s, hs, rfl⟩ := mem_map.mp hmem
      obtain ⟨m, hm, -, hkey⟩ := hgen.exists_migration hkeys hs (hcover s hs)
      exact mem_flatMap.mpr ⟨m, hperm.mem_iff.mpr hm, hkey⟩
  · intro a ha hstorage f hf hconstrained b hb htarget
    refine ⟨fun happ hne hstorage' => ?_, fun happ m hm m' hm' hma hmb => ?_⟩
    · obtain ⟨m, hm, hma, -⟩ := hgen.exists_migration hkeys ha (hcover a ha)
      obtain ⟨ops, hdetect, hops, -⟩ := hgen.map_key_operations hkeys hm
      have hmem : ∀ s ∈ registered, s.appLabel = a.appLabel → s ∈ ofApp m.app registered :=
        fun s hs hlabel => mem_filter.mpr ⟨hs, beq_iff_eq.mpr (hlabel.trans hma.symm)⟩
      have hbefore := detect_nil_order (nodup_ofApp hkeys _) hdetect (hmem a ha rfl)
        (hmem b hb happ) hne hstorage hstorage' hf hconstrained htarget.symm
      rw [← hops] at hbefore
      have hsub : [m].flatMap (fun m => m.operations.map Operation.key) =
        m.operations.map Operation.key := flatMap_singleton _ _
      refine Sublist.trans (hsub.symm ▸ hbefore) ?_
      exact Sublist.flatMap (singleton_sublist.mpr (hperm.mem_iff.mpr hm)) _
    · have hkeyA := hcreates a ha m hm hma
      have hkeyB := hcreates b hb m' hm' hmb
      constructor
      · intro hbefore
        by_contra hnot
        rcases lt_or_eq_of_le (not_lt.mp hnot) with hlt | heq
        · exact hbefore.asymm hnodup
            (before_createdKeys (before_of_key_lt hpairwise hm hm' hlt) hkeyA hkeyB)
        · obtain rfl : m = m' := inj_on_of_nodup_map hisPlan.nodup hm hm' heq
          exact happ (hmb.symm.trans hma)
      · intro hlt
        exact before_createdKeys (before_of_key_lt hpairwise hm' hm hlt) hkeyB hkeyA

/-! ## Two apps -/

/-- A model of one app that refers to a model of another. -/
def twoApps (owner target : String) : List Schema :=
  [{ appLabel := owner, name := "Order",
     fields := [{ name := "id", kind := .known .bigAuto, primaryKey := true },
       { name := "customer", kind := .known .foreignKey,
         relation := some { target := target ++ ".Customer" } }] },
    { appLabel := target, name := "Customer",
      fields := [{ name := "id", kind := .known .bigAuto, primaryKey := true }] }]

/-- The migration that creates the models of one app. -/
def initialMigration (app : String) (registered : List Schema) : Migration :=
  nextMigration [] app "initial" ((ofApp app registered).map createModel)

lemma generateStep_eq {registered state : List Schema} {all : List Migration}
    {command : String × String} {m : Migration} (hstate : stateAt all "" = .ok state)
    (hmake : makemigrations all state registered command.1 command.2 = .ok (some m))
    (hok : (generate m).isOk = true) (hdecode : m.reread.checksumError.isSome = false) :
    generateStep registered all command = .ok (all ++ [m.reread]) := by
  obtain ⟨file, hfile, hdecoded⟩ := exists_decoded hok hdecode
  unfold generateStep
  rw [hstate, ok_bind, hmake, ok_bind]
  show (generate m >>= fun file => _) = _
  rw [hfile, ok_bind, hdecoded]
  rfl

lemma generateAll_twoApps (owner target : String)
    (hstate : ∃ state, stateAt [(initialMigration owner (twoApps owner target)).reread] "" =
      .ok state ∧ makemigrations [(initialMigration owner (twoApps owner target)).reread] state
        (twoApps owner target) target "initial" =
          .ok (some (initialMigration target (twoApps owner target))))
    (hmake : makemigrations [] [] (twoApps owner target) owner "initial" =
      .ok (some (initialMigration owner (twoApps owner target))))
    (hok : ∀ app ∈ [owner, target],
      (generate (initialMigration app (twoApps owner target))).isOk = true ∧
        (initialMigration app (twoApps owner target)).reread.checksumError.isSome = false) :
    generateAll (twoApps owner target) [(owner, "initial"), (target, "initial")] =
      .ok [(initialMigration owner (twoApps owner target)).reread,
        (initialMigration target (twoApps owner target)).reread] := by
  obtain ⟨state, hstate, hmake'⟩ := hstate
  have howner := hok owner (by simp)
  have htarget := hok target (by simp)
  have hfirst : generateStep (twoApps owner target) [] (owner, "initial") = _ :=
    generateStep_eq rfl hmake howner.1 howner.2
  have hsecond : generateStep (twoApps owner target) _ (target, "initial") = _ :=
    generateStep_eq hstate hmake' htarget.1 htarget.2
  exact run_cons_eq_ok.mpr ⟨_, hfirst, run_cons_eq_ok.mpr ⟨_, hsecond, rfl⟩⟩

theorem generated_plan_order_auth_shop :
    ∃ order, plan [(initialMigration "shop" (twoApps "shop" "auth")).reread,
        (initialMigration "auth" (twoApps "shop" "auth")).reread] "" = .ok order ∧
      Before (createdKeys order) "auth.Customer" "shop.Order" := by
  have hrun := generateAll_twoApps "shop" "auth" ⟨_, rfl, rfl⟩ rfl (by decide +kernel)
  obtain ⟨order, hplan, -, -, -, horder⟩ := generated_plan_order (twoApps "shop" "auth") _ _
    (by decide) (by decide) (by decide) hrun
  refine ⟨order, hplan, ?_⟩
  have hcomputed : plan [(initialMigration "shop" (twoApps "shop" "auth")).reread,
      (initialMigration "auth" (twoApps "shop" "auth")).reread] "" =
      .ok [(initialMigration "auth" (twoApps "shop" "auth")).reread,
        (initialMigration "shop" (twoApps "shop" "auth")).reread] := rfl
  obtain rfl := Except.ok.inj (hcomputed.symm.trans hplan)
  have hcross := (horder _ mem_cons_self rfl _ (mem_cons_of_mem _ mem_cons_self)
    (by decide) _ (mem_cons_of_mem _ mem_cons_self) rfl).2 (by decide)
  exact (hcross _ (mem_cons_of_mem _ mem_cons_self) _ mem_cons_self rfl rfl).mpr
    (by decide)

/-- A constrained relation to an app that sorts later: the generated migrations declare no
dependency between the apps, and the referring table is created first. -/
theorem generated_owner_created_first :
    (∀ s ∈ twoApps "orders" "users", s.validate = .ok ()) ∧
      (∃ a ∈ twoApps "orders" "users", a.key = "orders.Order" ∧ ∃ f ∈ a.fields,
        constrainedRelation f = true ∧ (relationOf f).target = "users.Customer") ∧
      ∃ migrations order,
        generateAll (twoApps "orders" "users") [("orders", "initial"), ("users", "initial")] =
            .ok migrations ∧
          plan migrations "" = .ok order ∧
          createdKeys order = ["orders.Order", "users.Customer"] := by
  have hrun := generateAll_twoApps "orders" "users" ⟨_, rfl, rfl⟩ rfl (by decide +kernel)
  refine ⟨by decide +kernel, ?_, _, _, hrun, rfl, rfl⟩
  exact ⟨_, mem_cons_self, rfl, _, mem_cons_of_mem _ mem_cons_self, by decide, rfl⟩

end Gogo.Management

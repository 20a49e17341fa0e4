import Gogo.Migrations.Closure
import Gogo.Migrations.History

/-!
# What a reversal undoes

`planning.go`, `Executor.Reverse`, on any history and whatever the backend refuses: which
migrations it undoes, in which order, and what makes it refuse.

* `Keeps`, `Undoes` — the closure of the target, and the migrations of its app outside of it with
  everything that depends on them, said by the declared dependencies alone.
* `mem_removalSet_iff` — the loop of the source finds exactly these.
* `reverseAll_spec` — what the database has lost and what has run, wherever the loop stops.
* `reverse_is_exact` — **a successful reversal undoes the applied ones among these, each before
  anything it needs; a call that meets an applied irreversible one fails and changes nothing.**
  The irreversible operation is looked for in every one of these, applied or not, so the error
  also comes where no applied one has such an operation (`unapplied_drop_refuses`).
-/

namespace Gogo.Migrations

open List Gogo.Lib Gogo.Models Relation

/-! ## The migrations to undo -/

/-- What a reversal keeps: the closure of the target, and nothing for `app.zero`. -/
def Keeps (migrations : List Migration) (target key : String) : Prop :=
  isZero target = false ∧ InClosure migrations target key

/-- What a reversal is to undo: the migrations of the app that it does not keep, and everything
that depends on one of them. -/
def Undoes (migrations : List Migration) (app target : String) (m : Migration) : Prop :=
  m ∈ migrations ∧ ∃ base ∈ migrations, base.app = app ∧ ¬ Keeps migrations target base.key ∧
    ReflTransGen (Declares migrations) m.key base.key

/-- The migrations that a target keeps. Source: `Reverse`, the variable `keep`. -/
def keptPlan (migrations : List Migration) (target : String) : Except Err (List Migration) :=
  if isZero target then .ok [] else plan migrations target

section Selection

variable {migrations all kept : List Migration} {app target key : String} {m : Migration}

lemma keeps_iff (h : keptPlan migrations target = .ok kept) :
    Keeps migrations target key ↔ key ∈ kept.map Migration.key := by
  unfold keptPlan at h
  unfold Keeps
  rcases hzero : isZero target with _ | _
  · rw [hzero] at h
    rw [mem_map_key_plan_iff h]
    exact and_iff_right rfl
  · rw [hzero] at h
    cases h
    simp

/-- **Nothing in the closure of the target is to be undone.** -/
lemma Undoes.not_keeps (h : Undoes migrations app target m) : ¬ Keeps migrations target m.key := by
  obtain ⟨-, base, -, -, hbase, hreach⟩ := h
  rintro ⟨hzero, root, hroot, hkeep⟩
  exact hbase ⟨hzero, root, hroot, hkeep.trans hreach⟩

variable {fuel : ℕ} {remove : List String}

/-- What holds of the first keys and passes from a dependency to its dependents holds of every
key that the loop finds. -/
lemma removalLoop_invariant {P : String → Prop} (hbase : ∀ key ∈ remove, P key)
    (hstep : ∀ m ∈ all, ∀ d ∈ m.dependencies, P d → P m.key) :
    ∀ key ∈ removalLoop all fuel remove, P key := by
  have hpass : ∀ remove, (∀ key ∈ remove, P key) → ∀ key ∈ removalPass all remove, P key := by
    clear hbase
    intro remove hbase
    rw [removalPass_eq]
    induction all generalizing remove with
    | nil => exact hbase
    | cons m rest ih =>
      refine ih (fun m' hm' => hstep m' (mem_cons_of_mem _ hm')) _ fun key hkey => ?_
      unfold removalStep at hkey
      split_ifs at hkey with hmem hany
      · exact hbase key hkey
      · rcases mem_append.mp hkey with hkey | hkey
        · exact hbase key hkey
        · obtain ⟨d, hd, hin⟩ := any_eq_true.mp hany
          rw [mem_singleton.mp hkey]
          exact hstep m mem_cons_self d hd (hbase d (of_decide_eq_true hin))
      · exact hbase key hkey
  induction fuel generalizing remove with
  | zero => exact hbase
  | succ fuel ih =>
    unfold removalLoop
    split_ifs
    · exact hbase
    · exact ih (hpass remove hbase)

/-- The first keys stay. -/
lemma subset_removalLoop : remove ⊆ removalLoop all fuel remove := by
  induction fuel generalizing remove with
  | zero => exact List.Subset.refl _
  | succ fuel ih =>
    unfold removalLoop
    split_ifs
    · exact List.Subset.refl _
    · exact fun key hkey => ih (prefix_removalPass.subset hkey)

/-- **The loop finds exactly the migrations to undo.** -/
theorem mem_removalSet_iff (hall : plan migrations "" = .ok all)
    (hkept : keptPlan migrations target = .ok kept) (hm : m ∈ migrations) :
    m.key ∈ removalSet all app (kept.map Migration.key) ↔ Undoes migrations app target m := by
  obtain ⟨hnodup, -, hplan⟩ := plan_spec hall
  have hmem : ∀ {m'}, m' ∈ all ↔ m' ∈ migrations := (hplan.perm hnodup).mem_iff
  constructor
  · intro hkey
    -- every key that is found leads back to a migration of the app that is not kept
    let Leads (key : String) : Prop := ∃ base ∈ migrations, base.app = app ∧
      ¬ Keeps migrations target base.key ∧ ReflTransGen (Declares migrations) key base.key
    have hleads : Leads m.key := removalLoop_invariant ?_ ?_ _ hkey
    · exact ⟨hm, hleads⟩
    · intro key hkey
      obtain ⟨base, hbase, rfl⟩ := mem_map.mp hkey
      obtain ⟨hbase, htest⟩ := mem_filter.mp hbase
      obtain ⟨happ, hnot⟩ := of_decide_eq_true htest
      exact ⟨base, hmem.mp hbase, happ, fun hkeep => hnot ((keeps_iff hkept).mp hkeep), .refl⟩
    · rintro m' hm' d hd ⟨base, hbase, happ, hnot, hreach⟩
      exact ⟨base, hbase, happ, hnot, .head ⟨m', hmem.mp hm', rfl, hd⟩ hreach⟩
  · rintro ⟨-, base, hbase, happ, hnot, hreach⟩
    have hfirst : base.key ∈ removalSet all app (kept.map Migration.key) := by
      refine subset_removalLoop (mem_map_of_mem (mem_filter.mpr ⟨hmem.mpr hbase, ?_⟩))
      exact decide_eq_true ⟨happ, fun hin => hnot ((keeps_iff hkept).mpr hin)⟩
    have hclosed : ∀ key, ReflTransGen (Declares migrations) key base.key →
        key ∈ removalSet all app (kept.map Migration.key) := by
      intro key hreach
      induction hreach using ReflTransGen.head_induction_on with
      | refl => exact hfirst
      | head hedge _ ih =>
        obtain ⟨m', hm', rfl, hd⟩ := hedge
        exact removalClosed_removalSet app _ m' (hmem.mpr hm') _ hd ih
    exact hclosed m.key hreach

end Selection

/-! ## What the backend reports -/

/-- The errors that a call may get from the backend. -/
inductive Faults.Reports (faults : Faults) : Err → Prop
  | start {e} : faults.start = some e → Reports faults e
  | lock {e} : faults.lock = some e → Reports faults e
  | unlock {e} : faults.unlock = some e → Reports faults e
  | history {e} : faults.history = some e → Reports faults e
  | operation {e} {m : Migration} {i : ℕ} : faults.operation m i = some e → Reports faults e
  | flush {e} {m : Migration} : faults.flush m = some e → Reports faults e
  | record {e} {m : Migration} : faults.record m = some e → Reports faults e
  | commit {e} {m : Migration} : faults.commit m = some e → Reports faults e
  /-- The statement on a history table that is not there. -/
  | noTable : Reports faults (.text "relation gogo_migrations does not exist")

variable {err : Option Err} {e : Err} {db db' : Database}

lemma failWith_eq_error : failWith err = .error e ↔ err = some e := by
  rcases err with _ | err
  · exact iff_of_false (fun h => by cases h) (fun h => by cases h)
  · exact ⟨fun h => congrArg some (Except.error.inj h), fun h => congrArg _ (Option.some.inj h)⟩

lemma fault_eq_ok {u : Unit} : fault err db = (.ok u, db') ↔ err = none ∧ db' = db := by
  unfold fault
  rw [Session.lift_eq_ok, failWith_eq_ok]

lemma fault_eq_error : fault err db = (.error e, db') ↔ err = some e ∧ db' = db := by
  unfold fault
  rw [Session.lift_eq_error, failWith_eq_error]

/-! ## One migration -/

/-- The operations of a migration, undone from the last to the first. -/
def undoEffects (m : Migration) : List Effect :=
  m.operations.reverse.map fun op => ⟨m.key, true, op⟩

section OneMigration

variable {faults : Faults} {m : Migration} {db db' : Database} {u : Unit} {e : Err}

variable {reverse : Bool} {i : ℕ} {ops : List Operation}

lemma runOperations_ok (h : runOperations faults m reverse i ops db = (.ok u, db')) :
    db' = { db with effects := db.effects ++ ops.map fun op => ⟨m.key, reverse, op⟩ } := by
  induction ops generalizing i db with
  | nil =>
    obtain ⟨-, rfl⟩ := Session.pure_eq_ok.mp h
    simp
  | cons op rest ih =>
    obtain ⟨_, mid, hfault, hrest⟩ := Session.bind_eq_ok.mp h
    obtain ⟨_, next, hupdate, hrest⟩ := Session.bind_eq_ok.mp hrest
    obtain ⟨-, rfl⟩ := fault_eq_ok.mp hfault
    obtain rfl := Session.update_eq_ok.mp hupdate
    rw [ih hrest]
    simp

lemma runOperations_error (h : runOperations faults m reverse i ops db = (.error e, db')) :
    faults.Reports e ∧ ∃ ran, ran <+: ops ∧
      db' = { db with effects := db.effects ++ ran.map fun op => ⟨m.key, reverse, op⟩ } := by
  induction ops generalizing i db with
  | nil => cases h
  | cons op rest ih =>
    rcases Session.bind_eq_error.mp h with hfault | ⟨_, mid, hfault, hrest⟩
    · obtain ⟨hreport, rfl⟩ := fault_eq_error.mp hfault
      exact ⟨.operation hreport, [], nil_prefix, by simp⟩
    · rcases Session.bind_eq_error.mp hrest with hupdate | ⟨_, next, hupdate, hrest⟩
      · cases hupdate
      · obtain ⟨-, rfl⟩ := fault_eq_ok.mp hfault
        obtain rfl := Session.update_eq_ok.mp hupdate
        obtain ⟨hreport, ran, hran, rfl⟩ := ih hrest
        refine ⟨hreport, op :: ran, cons_prefix_cons.mpr ⟨rfl, hran⟩, ?_⟩
        simp

lemma onHistory_deleteRow_ok (h : onHistory (deleteRow m) db = (.ok u, db')) :
    db'.rows = db.rows.filter (fun row => !m.isRow row) ∧ db'.effects = db.effects := by
  obtain ⟨_, mid, hread, htable⟩ := Session.bind_eq_ok.mp h
  obtain ⟨rfl, rfl⟩ := Session.read_eq_ok.mp hread
  obtain ⟨rows, _, hrows, hstatement⟩ := Session.bind_eq_ok.mp htable
  obtain ⟨hsome, rfl⟩ := Session.lift_eq_ok.mp hrows
  obtain ⟨rows', _, hdelete, hupdate⟩ := Session.bind_eq_ok.mp hstatement
  obtain ⟨hdeleted, rfl⟩ := Session.lift_eq_ok.mp hdelete
  obtain rfl := Session.update_eq_ok.mp hupdate
  cases hdeleted
  refine ⟨?_, rfl⟩
  unfold Database.rows
  rw [orFail_eq_ok.mp hsome]
  rfl

lemma onHistory_deleteRow_error (faults : Faults)
    (h : onHistory (deleteRow m) db = (.error e, db')) :
    faults.Reports e ∧ db' = db := by
  rcases Session.bind_eq_error.mp h with hread | ⟨_, mid, hread, htable⟩
  · cases hread
  obtain ⟨rfl, rfl⟩ := Session.read_eq_ok.mp hread
  rcases Session.bind_eq_error.mp htable with hrows | ⟨rows, _, hrows, hstatement⟩
  · obtain ⟨hnone, rfl⟩ := Session.lift_eq_error.mp hrows
    rcases hhistory : db'.history with _ | rows
    · rw [hhistory] at hnone
      obtain rfl := Except.error.inj hnone
      exact ⟨.noTable, rfl⟩
    · rw [hhistory] at hnone
      cases hnone
  · rcases Session.bind_eq_error.mp hstatement with hdelete | ⟨_, _, _, hupdate⟩
    · cases (Session.lift_eq_error.mp hdelete).1
    · cases hupdate

lemma migrationBody_ok (h : migrationBody faults m true (deleteRow m) db = (.ok u, db')) :
    db'.rows = db.rows.filter (fun row => !m.isRow row) ∧
      db'.effects = db.effects ++ undoEffects m := by
  obtain ⟨_, mid, hrun, hrest⟩ := Session.bind_eq_ok.mp h
  obtain ⟨_, _, hflush, hrest⟩ := Session.bind_eq_ok.mp hrest
  obtain ⟨_, _, hrecord, hlast⟩ := Session.bind_eq_ok.mp hrest
  obtain rfl := runOperations_ok hrun
  obtain ⟨-, rfl⟩ := fault_eq_ok.mp hflush
  obtain ⟨-, rfl⟩ := fault_eq_ok.mp hrecord
  exact onHistory_deleteRow_ok hlast

lemma migrationBody_error (h : migrationBody faults m true (deleteRow m) db = (.error e, db')) :
    faults.Reports e ∧ ∃ ran, ran <+: undoEffects m ∧
      db' = { db with effects := db.effects ++ ran } := by
  rcases Session.bind_eq_error.mp h with hrun | ⟨_, mid, hrun, hrest⟩
  · obtain ⟨hreport, ran, hran, rfl⟩ := runOperations_error hrun
    exact ⟨hreport, _, hran.map _, rfl⟩
  obtain rfl := runOperations_ok hrun
  have hall : ∀ db'' : Database, db'' = { db with effects := db.effects ++ undoEffects m } →
      ∃ ran, ran <+: undoEffects m ∧ db'' = { db with effects := db.effects ++ ran } :=
    fun db'' heq => ⟨_, prefix_rfl, heq⟩
  rcases Session.bind_eq_error.mp hrest with hflush | ⟨_, _, hflush, hrest⟩
  · obtain ⟨hreport, rfl⟩ := fault_eq_error.mp hflush
    exact ⟨.flush hreport, hall _ rfl⟩
  rcases Session.bind_eq_error.mp hrest with hrecord | ⟨_, _, hrecord, hlast⟩
  · obtain ⟨-, rfl⟩ := fault_eq_ok.mp hflush
    obtain ⟨hreport, rfl⟩ := fault_eq_error.mp hrecord
    exact ⟨.record hreport, hall _ rfl⟩
  obtain ⟨-, rfl⟩ := fault_eq_ok.mp hflush
  obtain ⟨-, rfl⟩ := fault_eq_ok.mp hrecord
  obtain ⟨hreport, rfl⟩ := onHistory_deleteRow_error faults hlast
  exact ⟨hreport, hall _ rfl⟩

/-- A migration is undone as a whole. -/
lemma runMigration_ok (h : runMigration faults m true (deleteRow m) db = (.ok u, db')) :
    db'.rows = db.rows.filter (fun row => !m.isRow row) ∧
      db'.effects = db.effects ++ undoEffects m := by
  unfold runMigration at h
  split_ifs at h
  · exact migrationBody_ok h
  · unfold Session.atomic at h
    rcases hbody : migrationBody faults m true (deleteRow m) db with ⟨e | ⟨⟩, mid⟩
    · rw [hbody] at h
      cases h
    · rw [hbody] at h
      rcases hcommit : failWith (faults.commit m) with e | ⟨⟩
      · rw [hcommit] at h
        cases h
      · rw [hcommit] at h
        cases h
        exact migrationBody_ok hbody

/-- A migration that fails keeps its row; what has run of it stays if it is not atomic. -/
lemma runMigration_error (h : runMigration faults m true (deleteRow m) db = (.error e, db')) :
    faults.Reports e ∧ ∃ ran, ran <+: undoEffects m ∧ (m.nonAtomic = false → ran = []) ∧
      db' = { db with effects := db.effects ++ ran } := by
  unfold runMigration at h
  split_ifs at h with hatomic
  · obtain ⟨hreport, ran, hran, rfl⟩ := migrationBody_error h
    refine ⟨hreport, ran, hran, fun hflag => ?_, rfl⟩
    rw [hatomic] at hflag
    cases hflag
  · have hsame : ∃ ran, ran <+: undoEffects m ∧ (m.nonAtomic = false → ran = []) ∧
        db = { db with effects := db.effects ++ ran } :=
      ⟨[], nil_prefix, fun _ => rfl, by simp⟩
    unfold Session.atomic at h
    rcases hbody : migrationBody faults m true (deleteRow m) db with ⟨e' | ⟨⟩, mid⟩
    · rw [hbody] at h
      cases h
      exact ⟨(migrationBody_error hbody).1, hsame⟩
    · rw [hbody] at h
      rcases hcommit : failWith (faults.commit m) with e' | ⟨⟩
      · rw [hcommit] at h
        cases h
        exact ⟨.commit (failWith_eq_error.mp hcommit), hsame⟩
      · rw [hcommit] at h
        cases h

end OneMigration

/-! ## The loop -/

/-- A database with some migrations undone, and with some operations of one more. -/
structure UndoneTo (db : Database) (done : List Migration) (extra : List Effect)
    (db' : Database) : Prop where
  rows : db'.rows = db.rows.filter fun row => !done.any fun m => m.isRow row
  effects : db'.effects = db.effects ++ done.flatMap undoEffects ++ extra

/-- The migrations that the loop does not skip. -/
def selects (remove : List String) (applied : FinMap String String) (m : Migration) : Bool :=
  m.key ∈ remove ∧ (applied.get? m.key).getD "" ≠ ""

/-- What a list of migrations to undo comes to: a first part of it is undone, all of it on success,
and of the next migration there may be operations left if it is not atomic. -/
structure LoopEnd (faults : Faults) (wanted : List Migration) (db : Database)
    (result : Except Err Unit) (db' : Database) (done : List Migration) (extra : List Effect) :
    Prop where
  undone : UndoneTo db done extra db'
  isPrefix : done <+: wanted
  complete : result = .ok () → done = wanted ∧ extra = []
  left : extra ≠ [] → ∃ m, done ++ [m] <+: wanted ∧ m.nonAtomic = true ∧ extra <+: undoEffects m
  reported : ∀ e, result = .error e → faults.Reports e

section Loop

variable {faults : Faults} {remove : List String} {applied : FinMap String String}
  {m : Migration} {wanted done : List Migration} {extra : List Effect} {db mid db' : Database}
  {result : Except Err Unit}

/-- One migration more, undone before the others. -/
lemma LoopEnd.cons (h : LoopEnd faults wanted mid result db' done extra)
    (hrows : mid.rows = db.rows.filter fun row => !m.isRow row)
    (heffects : mid.effects = db.effects ++ undoEffects m) :
    LoopEnd faults (m :: wanted) db result db' (m :: done) extra := by
  refine ⟨⟨?_, ?_⟩, cons_prefix_cons.mpr ⟨rfl, h.isPrefix⟩, fun hok => ?_, fun hextra => ?_,
    h.reported⟩
  · rw [h.undone.rows, hrows, filter_filter]
    refine filter_congr fun row _ => ?_
    rw [any_cons, Bool.not_or, Bool.and_comm]
  · rw [h.undone.effects, heffects]
    simp
  · obtain ⟨rfl, rfl⟩ := h.complete hok
    exact ⟨rfl, rfl⟩
  · obtain ⟨m', hpre, hnot, hle⟩ := h.left hextra
    exact ⟨m', cons_prefix_cons.mpr ⟨rfl, hpre⟩, hnot, hle⟩

/-- **The loop undoes the selected migrations one after the other, up to where it stops.** -/
theorem reverseAll_spec {l : List Migration}
    (h : reverseAll faults remove applied l db = (result, db')) :
    ∃ done extra,
      LoopEnd faults (l.filter (selects remove applied)) db result db' done extra := by
  induction l generalizing db with
  | nil =>
    cases h
    refine ⟨[], [], ⟨by simp, by simp⟩, nil_prefix, fun _ => ⟨rfl, rfl⟩, ?_, ?_⟩
    · exact fun hne => absurd rfl hne
    · exact fun e he => by cases he
  | cons m rest ih =>
    unfold reverseAll at h
    by_cases hskip : m.key ∉ remove ∨ (applied.get? m.key).getD "" = ""
    · rw [if_pos hskip] at h
      have hnot : selects remove applied m = false := by
        unfold selects
        rw [decide_eq_false_iff_not, not_and_or, not_not]
        exact hskip
      rw [filter_cons_of_neg (by rw [hnot]; exact Bool.false_ne_true)]
      exact ih h
    · rw [if_neg hskip] at h
      have hsel : selects remove applied m = true := by
        unfold selects
        rw [decide_eq_true_iff]
        exact ⟨not_not.mp fun hn => hskip (.inl hn), fun hn => hskip (.inr hn)⟩
      rw [filter_cons_of_pos hsel]
      rcases result with e | ⟨⟩
      · rcases Session.bind_eq_error.mp h with hrun | ⟨_, mid, hrun, hrest⟩
        · -- the migration fails: its row stays, and what ran of it is left over
          obtain ⟨hreport, ran, hran, hatomic, rfl⟩ := runMigration_error hrun
          refine ⟨[], ran, ⟨by simp [Database.rows], by simp⟩, nil_prefix, ?_, ?_, ?_⟩
          · exact fun hok => by cases hok
          · intro hne
            refine ⟨m, cons_prefix_cons.mpr ⟨rfl, nil_prefix⟩, ?_, hran⟩
            rcases hflag : m.nonAtomic with _ | _
            · exact absurd (hatomic hflag) hne
            · rfl
          · rintro e' he'
            obtain rfl := Except.error.inj he'
            exact hreport
        · obtain ⟨hrows, heffects⟩ := runMigration_ok hrun
          obtain ⟨done, extra, hend⟩ := ih hrest
          exact ⟨m :: done, extra, hend.cons hrows heffects⟩
      · obtain ⟨_, mid, hrun, hrest⟩ := Session.bind_eq_ok.mp h
        obtain ⟨hrows, heffects⟩ := runMigration_ok hrun
        obtain ⟨done, extra, hend⟩ := ih hrest
        exact ⟨m :: done, extra, hend.cons hrows heffects⟩

end Loop

/-! ## The call -/

section Call

variable {ε : Type} {api : EditorApi ε} {editor : ε} {checksum : Migration → String}
  {migrations all kept : List Migration} {faults : Faults} {target app : String}
  {db db' : Database} {m : Migration}

/-- The checksums that `Reverse` reads from the history. -/
def readApplied (db : Database) : FinMap String String :=
  FinMap.ofList (db.entries.map fun entry => (entry.key, entry.checksum))

/-- The keys that a reversal removes from a plan. -/
def removed (all kept : List Migration) (app : String) : List String :=
  removalSet all app (kept.map Migration.key)

/-- The part of a call under the lock, once the history is read. -/
def checkAndUndo (api : EditorApi ε) (editor : ε) (checksum : Migration → String)
    (migrations : List Migration) (faults : Faults) (all kept : List Migration) (app : String)
    (db : Database) : Exec Unit :=
  Session.deferred (do
    Session.lift (all.forM
      (checkReverse api editor checksum migrations (removed all kept app) (readApplied db)))
    reverseAll faults (removed all kept app) (readApplied db) all.reverse) (failWith faults.unlock)

/-- The checks of a call. -/
def checkAll (api : EditorApi ε) (editor : ε) (checksum : Migration → String)
    (migrations all kept : List Migration) (app : String) (db : Database) : Except Err Unit :=
  all.forM (checkReverse api editor checksum migrations (removed all kept app) (readApplied db))

/-- A call that is not refused before gets to its checks. -/
lemma reverse_eq_checkAndUndo (hcut : cutApp target = some app) (hstart : faults.start = none)
    (hlock : faults.lock = none) (hhistory : faults.history = none)
    (hall : plan migrations "" = .ok all) (hkept : keptPlan migrations target = .ok kept) :
    reverse api editor checksum migrations faults target db =
      checkAndUndo api editor checksum migrations faults all kept app db db := by
  unfold keptPlan at hkept
  unfold reverse readHistory
  rw [hstart, hcut, hall, hkept, hlock, hhistory]
  rfl

/-- A call that is refused before its checks changes nothing. -/
lemma reverse_refused (api : EditorApi ε) (editor : ε) (checksum : Migration → String)
    (db : Database) (hcut : cutApp target = some app) :
    (∃ e, reverse api editor checksum migrations faults target db = (.error e, db)) ∨
    (faults.start = none ∧ faults.lock = none ∧ faults.history = none) ∧
      ∃ all kept, plan migrations "" = .ok all ∧ keptPlan migrations target = .ok kept := by
  rcases hstart : faults.start with _ | e
  swap
  · refine .inl ⟨e, ?_⟩
    unfold reverse
    rw [hstart]
    rfl
  rcases hall : plan migrations "" with e | all
  · refine .inl ⟨e, ?_⟩
    unfold reverse
    rw [hstart, hcut, hall]
    rfl
  rcases hkept : keptPlan migrations target with e | kept
  · refine .inl ⟨e, ?_⟩
    unfold keptPlan at hkept
    unfold reverse
    rw [hstart, hcut, hall, hkept]
    rfl
  rcases hlock : faults.lock with _ | e
  swap
  · refine .inl ⟨e, ?_⟩
    unfold keptPlan at hkept
    unfold reverse
    rw [hstart, hcut, hall, hkept, hlock]
    rfl
  rcases hhistory : faults.history with _ | e
  swap
  · refine .inl ⟨e, ?_⟩
    unfold keptPlan at hkept
    unfold reverse readHistory
    rw [hstart, hcut, hall, hkept, hlock, hhistory]
    rfl
  exact .inr ⟨⟨rfl, rfl, rfl⟩, all, kept, rfl, rfl⟩

/-- Checks that fail change nothing; otherwise the loop runs and the lock is given back. -/
lemma checkAndUndo_cases (api : EditorApi ε) (editor : ε) (checksum : Migration → String)
    (migrations : List Migration) (faults : Faults) (all kept : List Migration) (app : String)
    (db : Database) :
    (∃ e, checkAll api editor checksum migrations all kept app db = .error e ∧
        checkAndUndo api editor checksum migrations faults all kept app db db = (.error e, db)) ∨
    (checkAll api editor checksum migrations all kept app db = .ok () ∧
      ∃ looped result db', reverseAll faults (removed all kept app) (readApplied db) all.reverse db
          = (looped, db') ∧
        checkAndUndo api editor checksum migrations faults all kept app db db = (result, db') ∧
        (result = .ok () → looped = .ok ()) ∧
        ∀ e, result = .error e → looped = .error e ∨ faults.Reports e) := by
  rcases hchecks : checkAll api editor checksum migrations all kept app db with e | ⟨⟩
  · refine .inl ⟨e, rfl, ?_⟩
    unfold checkAll at hchecks
    unfold checkAndUndo
    rw [hchecks]
    rfl
  · refine .inr ⟨rfl, ?_⟩
    have heq : checkAndUndo api editor checksum migrations faults all kept app db db =
        Session.deferred (reverseAll faults (removed all kept app) (readApplied db) all.reverse)
          (failWith faults.unlock) db := by
      unfold checkAll at hchecks
      unfold checkAndUndo
      rw [hchecks]
      rfl
    rw [heq]
    unfold Session.deferred
    rcases hloop : reverseAll faults (removed all kept app) (readApplied db) all.reverse db with
      ⟨e | ⟨⟩, db'⟩
    · exact ⟨_, _, db', rfl, rfl, fun h => h, fun e' h => .inl h⟩
    · refine ⟨_, _, db', rfl, rfl, fun _ => rfl, fun e h => .inr ?_⟩
      exact .unlock (failWith_eq_error.mp h)

/-! ## The checks -/

lemma map_fst_entries (db : Database) :
    (db.entries.map fun entry => (entry.key, entry.checksum)).map Prod.fst = db.keys := by
  rw [List.map_map]
  exact map_key_entries db

variable {key : String} {remove : List String} {applied : FinMap String String} {e : Err}
  {result : Except Err Unit}

/-- The checksum that is read for a migration belongs to a row of the history. -/
lemma exists_row_of_readApplied {sum : String} (h : (readApplied db).get? key = some sum) :
    ∃ row ∈ db.rows, row.key = key ∧ row.checksum = sum := by
  obtain ⟨entry, hentry, heq⟩ := mem_map.mp (FinMap.mem_of_get?_ofList h)
  obtain ⟨row, hrow, rfl⟩ := mem_map.mp hentry
  obtain ⟨hkey, hsum⟩ := Prod.mk.inj heq
  exact ⟨row, hrow, hkey, hsum⟩

lemma exists_readApplied_iff : (∃ sum, (readApplied db).get? key = some sum) ↔ key ∈ db.keys := by
  unfold readApplied
  rw [FinMap.exists_get?_ofList_iff, map_fst_entries]

lemma checkReverse_eq_ok {u : Unit} :
    checkReverse api editor checksum migrations remove applied m = .ok u ↔
      (∀ sum, applied.get? m.key = some sum → sum = checksum m) ∧
      (m.key ∈ remove → ((applied.get? m.key).getD "" ≠ "" →
          prepare api migrations editor m true = .ok ()) ∧
        m.operations.any irreversible = false) := by
  have hsums : ((applied.get? m.key).any fun sum => sum != checksum m) = false ↔
      ∀ sum, applied.get? m.key = some sum → sum = checksum m := by
    rcases applied.get? m.key with _ | sum
    · exact iff_of_true rfl fun sum h => by cases h
    · simp
  unfold checkReverse
  rw [bind_eq_ok]
  simp only [failIf_eq_ok, exists_and_left, hsums, exists_const]
  refine and_congr_right fun _ => ?_
  by_cases hremove : m.key ∈ remove
  · rw [if_pos hremove]
    by_cases hempty : (applied.get? m.key).getD "" ≠ ""
    · rw [if_pos hempty]
      simp only [bind_eq_ok, failIf_eq_ok]
      refine ⟨?_, fun h => ⟨(), (h hremove).1 hempty, (h hremove).2⟩⟩
      rintro ⟨_, hprepare, hany⟩ _
      exact ⟨fun _ => hprepare, hany⟩
    · rw [if_neg hempty]
      simp only [bind_eq_ok, failIf_eq_ok]
      refine ⟨?_, fun h => ⟨(), trivial, (h hremove).2⟩⟩
      rintro ⟨_, _, hany⟩ _
      exact ⟨fun hne => absurd hne hempty, hany⟩
  · rw [if_neg hremove]
    exact iff_of_true rfl fun h => absurd h hremove

/-- The error for an operation that cannot be undone. -/
def irreversibleError (key : String) : Err :=
  .text ("migrations: irreversible operation in " ++ key)

/-- A check that nothing else refuses is refused for an irreversible operation. -/
lemma checkReverse_error (hsums : ∀ sum, applied.get? m.key = some sum → sum = checksum m)
    (hprepare : m.key ∈ remove → (applied.get? m.key).getD "" ≠ "" → prepare api migrations editor m
      true = .ok ()) (h : checkReverse api editor checksum migrations remove applied m = .error e) :
    e = irreversibleError m.key := by
  have hmatch : ((applied.get? m.key).any fun sum => sum != checksum m) = false := by
    rcases hget : applied.get? m.key with _ | sum
    · rfl
    · rw [Option.any_some, hsums sum hget]
      exact bne_self_eq_false _
  unfold checkReverse at h
  rw [hmatch] at h
  by_cases hremove : m.key ∈ remove
  · have heq : failIf (m.operations.any irreversible) (irreversibleError m.key) = .error e := by
      rw [← h, if_pos hremove]
      by_cases hempty : (applied.get? m.key).getD "" ≠ ""
      · rw [if_pos hempty, hprepare hremove hempty]
        rfl
      · rw [if_neg hempty]
        rfl
    unfold failIf at heq
    split_ifs at heq
    exact (Except.error.inj heq).symm
  · rw [if_neg hremove] at h
    cases h

section

variable (hall : plan migrations "" = .ok all) (hkept : keptPlan migrations target = .ok kept)
  (hchecks : checkAll api editor checksum migrations all kept app db = .ok ())

include hall hchecks

lemma checkReverse_of_checkAll (hm : m ∈ migrations) :
    checkReverse api editor checksum migrations (removed all kept app) (readApplied db) m =
      .ok () := by
  obtain ⟨hnodup, -, hplan⟩ := plan_spec hall
  exact forM_eq_ok_iff.mp hchecks m ((hplan.perm hnodup).mem_iff.mpr hm)

include hkept

/-- After the checks, no migration to undo has an irreversible operation. -/
lemma reversible_of_checkAll (hundo : Undoes migrations app target m) :
    m.operations.any irreversible = false :=
  ((checkReverse_eq_ok.mp (checkReverse_of_checkAll hall hchecks hundo.1)).2
    ((mem_removalSet_iff hall hkept hundo.1).mpr hundo)).2

/-- After the checks, the loop selects the migrations to undo that are applied. -/
lemma selects_iff (hsum : ∀ m ∈ migrations, checksum m ≠ "") (hm : m ∈ migrations) :
    selects (removed all kept app) (readApplied db) m = true ↔
      Undoes migrations app target m ∧ m.key ∈ db.keys := by
  obtain ⟨hagree, -⟩ := checkReverse_eq_ok.mp (checkReverse_of_checkAll hall hchecks hm)
  unfold selects removed
  rw [decide_eq_true_iff, mem_removalSet_iff hall hkept hm, ← exists_readApplied_iff]
  refine and_congr_right fun _ => ?_
  rcases hget : (readApplied db).get? m.key with _ | sum
  · exact iff_of_false (fun h => h rfl) (by rintro ⟨sum, hsome⟩; cases hsome)
  · refine iff_of_true ?_ ⟨sum, rfl⟩
    rw [Option.getD_some, hagree sum hget]
    exact hsum m hm

end

/-- What a call does to the applied migrations, whatever happens in it. -/
structure UndoesInOrder (migrations : List Migration) (app target : String) (db : Database)
    (result : Except Err Unit) (db' : Database) (done : List Migration) (extra : List Effect) :
    Prop where
  undone : UndoneTo db done extra db'
  nodup : (done.map Migration.key).Nodup
  wanted : ∀ m ∈ done, Undoes migrations app target m ∧ m.key ∈ db.keys
  kept : ∀ m ∈ done, ¬ Keeps migrations target m.key
  /-- Nothing that a migration needs is undone before it. -/
  ordered : ∀ before m after, done = before ++ m :: after →
    ∀ d, TransGen (Declares migrations) m.key d → d ∉ before.map Migration.key
  complete : result = .ok () → extra = [] ∧
    ∀ m, m ∈ done ↔ Undoes migrations app target m ∧ m.key ∈ db.keys
  /-- Operations are left over of a migration to undo that is not atomic, and only of one. -/
  left : extra ≠ [] → ∃ m, Undoes migrations app target m ∧ m.key ∈ db.keys ∧ m ∉ done ∧
    m.nonAtomic = true ∧ extra <+: undoEffects m

lemma undoesInOrder_nothing (h : result ≠ .ok ()) :
    UndoesInOrder migrations app target db result db [] [] := by
  refine ⟨⟨by simp, by simp⟩, nodup_nil, fun m hm => ?_, fun m hm => ?_, ?_, ?_, ?_⟩
  · cases hm
  · cases hm
  · intro before m after heq
    simp at heq
  · exact fun hok => absurd hok h
  · exact fun hne => absurd rfl hne

/-- A part of a plan from its end has every migration in front of what it needs. -/
lemma not_mem_before_of_needs (hplan : IsPlan migrations "" all)
    (hnodup : (migrations.map Migration.key).Nodup) {done before after : List Migration}
    (hsub : done.Sublist all.reverse) (heq : done = before ++ m :: after) {d : String}
    (hd : TransGen (Declares migrations) m.key d) : d ∉ before.map Migration.key := by
  have hm : m ∈ all := mem_reverse.mp (hsub.subset (by simp [heq]))
  obtain ⟨front, rest, hsplit⟩ := append_of_mem hm
  have hfront := hplan.needs hnodup hsplit hd
  intro hbefore
  obtain ⟨m₁, hm₁, hkey₁⟩ := mem_map.mp hfront
  obtain ⟨m₂, hm₂, hkey₂⟩ := mem_map.mp hbefore
  have hmem₂ : m₂ ∈ all := mem_reverse.mp (hsub.subset (by simp [heq, hm₂]))
  have hmem₁ : m₁ ∈ all := by simp [hsplit, hm₁]
  obtain rfl : m₁ = m₂ := inj_on_of_nodup_map hplan.nodup hmem₁ hmem₂ (hkey₁.trans hkey₂.symm)
  -- in the reversed part `m₁` stands in front of `m`, in the reversed plan behind it
  have hone : Before all.reverse m₁ m := by
    have hdone : ([m₁] ++ [m]).Sublist done := by
      rw [heq]
      exact (singleton_sublist.mpr hm₂).append (singleton_sublist.mpr mem_cons_self)
    exact hdone.trans hsub
  have htwo : Before all.reverse m m₁ := by
    have hback : ([m] ++ [m₁]).Sublist (rest.reverse ++ [m] ++ front.reverse) :=
      (sublist_append_right rest.reverse [m]).append
        (singleton_sublist.mpr (mem_reverse.mpr hm₁))
    rw [hsplit, reverse_append, reverse_cons]
    exact hback
  have hall : all.reverse.Nodup := nodup_reverse.mpr (Nodup.of_map _ hplan.nodup)
  exact hone.asymm hall htwo

/-- **Whatever happens in a call, it undoes migrations to undo that are applied, in order, and all
of them if it succeeds.** -/
theorem reverse_undoesInOrder (hcut : cutApp target = some app)
    (hsum : ∀ m ∈ migrations, checksum m ≠ "")
    (h : reverse api editor checksum migrations faults target db = (result, db')) :
    ∃ done extra, UndoesInOrder migrations app target db result db' done extra := by
  have hnothing : ∀ e, (result, db') = (.error e, db) →
      ∃ done extra, UndoesInOrder migrations app target db result db' done extra := by
    intro e heq
    obtain ⟨rfl, rfl⟩ := Prod.mk.inj heq
    exact ⟨[], [], undoesInOrder_nothing fun hok => by cases hok⟩
  rcases reverse_refused api editor checksum db hcut with
    ⟨e, hrefused⟩ | ⟨⟨hstart, hlock, hhistory⟩, all, kept, hall, hkept⟩
  · exact hnothing e (h.symm.trans hrefused)
  rw [reverse_eq_checkAndUndo hcut hstart hlock hhistory hall hkept] at h
  rcases checkAndUndo_cases api editor checksum migrations faults all kept app db with
    ⟨e, -, heq⟩ | ⟨hchecks, looped, result', db₁, hloop, heq, hok, -⟩
  · exact hnothing e (h.symm.trans heq)
  obtain ⟨rfl, rfl⟩ := Prod.mk.inj (h.symm.trans heq)
  obtain ⟨done, extra, hend⟩ := reverseAll_spec hloop
  obtain ⟨hnodup, -, hplan⟩ := plan_spec hall
  have hperm := hplan.perm hnodup
  have hselects : ∀ {m}, m ∈ all.reverse.filter (selects (removed all kept app) (readApplied db)) ↔
      Undoes migrations app target m ∧ m.key ∈ db.keys := by
    intro m
    rw [mem_filter, mem_reverse, hperm.mem_iff]
    constructor
    · rintro ⟨hm, hsel⟩
      exact (selects_iff hall hkept hchecks hsum hm).mp hsel
    · intro hundo
      exact ⟨hundo.1.1, (selects_iff hall hkept hchecks hsum hundo.1.1).mpr hundo⟩
  have hsub : done.Sublist all.reverse := hend.isPrefix.sublist.trans filter_sublist
  have hwanted : ∀ m ∈ done, Undoes migrations app target m ∧ m.key ∈ db.keys :=
    fun m hm => hselects.mp (hend.isPrefix.subset hm)
  have hkeys : (all.reverse.map Migration.key).Nodup := by
    rw [map_reverse]
    exact nodup_reverse.mpr hplan.nodup
  refine ⟨done, extra, hend.undone, hkeys.sublist (hsub.map _), hwanted,
    fun m hm => (hwanted m hm).1.not_keeps, ?_, fun hresult => ?_, fun hextra => ?_⟩
  · intro before m after heq d hd
    exact not_mem_before_of_needs hplan hnodup hsub heq hd
  · obtain ⟨rfl, rfl⟩ := hend.complete (hok hresult)
    exact ⟨rfl, fun m => hselects⟩
  · obtain ⟨m, hpre, hflag, hran⟩ := hend.left hextra
    have hnext : m ∈ done ++ [m] := by simp
    obtain ⟨hundo, hkey⟩ := hselects.mp (hpre.subset hnext)
    refine ⟨m, hundo, hkey, fun hm => ?_, hflag, hran⟩
    have hboth : (done ++ [m]).Nodup :=
      (Nodup.of_map _ hkeys).sublist (hpre.sublist.trans filter_sublist)
    exact (nodup_append.mp hboth).2.2 m hm m (mem_singleton_self m) rfl

/-- A call that only an irreversible operation can refuse before it undoes anything: the backend
lets it read the history, there are plans, the checksums of the history are the right ones, the
editor accepts the applied migrations to undo, and the backend's own errors are not the error
for an irreversible operation. -/
structure Unobstructed (api : EditorApi ε) (editor : ε) (checksum : Migration → String)
    (migrations : List Migration) (faults : Faults) (app target : String) (db : Database) :
    Prop where
  start : faults.start = none
  lock : faults.lock = none
  history : faults.history = none
  planned : ∃ all, plan migrations "" = .ok all
  reachable : isZero target = false → ∃ order, plan migrations target = .ok order
  checksums : ∀ m ∈ migrations, ∀ row ∈ db.rows, row.key = m.key → row.checksum = checksum m
  accepted : ∀ m, Undoes migrations app target m → m.key ∈ db.keys →
    prepare api migrations editor m true = .ok ()
  foreign : ∀ key, ¬ faults.Reports (irreversibleError key)

section

variable (h : Unobstructed api editor checksum migrations faults app target db)
  (hall : plan migrations "" = .ok all) (hkept : keptPlan migrations target = .ok kept)

include h hall hkept

/-- What a check looks at before the operations is in order. -/
lemma Unobstructed.passes (hm : m ∈ migrations) :
    (∀ sum, (readApplied db).get? m.key = some sum → sum = checksum m) ∧
      (m.key ∈ removed all kept app → ((readApplied db).get? m.key).getD "" ≠ "" →
        prepare api migrations editor m true = .ok ()) := by
  constructor
  · intro sum hget
    obtain ⟨row, hrow, hkey, rfl⟩ := exists_row_of_readApplied hget
    exact h.checksums m hm row hrow hkey
  · intro hremove hne
    refine h.accepted m ((mem_removalSet_iff hall hkept hm).mp hremove) ?_
    rcases hget : (readApplied db).get? m.key with _ | sum
    · rw [hget] at hne
      exact absurd rfl hne
    · exact exists_readApplied_iff.mp ⟨sum, hget⟩

/-- The checks of a call that nothing else refuses fail exactly when a migration to undo, applied
or not, has an irreversible operation, and with that error. -/
lemma Unobstructed.checks :
    (∃ e, checkAll api editor checksum migrations all kept app db = .error e) ↔
      ∃ m, Undoes migrations app target m ∧ m.operations.any irreversible = true := by
  obtain ⟨hnodup, -, hplan⟩ := plan_spec hall
  constructor
  · rintro ⟨e, he⟩
    by_contra hnone
    have hok : checkAll api editor checksum migrations all kept app db = .ok () := by
      refine forM_eq_ok_iff.mpr fun m hm => checkReverse_eq_ok.mpr ?_
      have hm : m ∈ migrations := (hplan.perm hnodup).mem_iff.mp hm
      obtain ⟨hagree, hprepare⟩ := h.passes hall hkept hm
      refine ⟨hagree, fun hremove => ⟨hprepare hremove, ?_⟩⟩
      rw [← Bool.not_eq_true]
      exact fun hany => hnone ⟨m, (mem_removalSet_iff hall hkept hm).mp hremove, hany⟩
    rw [hok] at he
    cases he
  · rintro ⟨m, hundo, hany⟩
    rcases hchecks : checkAll api editor checksum migrations all kept app db with e | ⟨⟩
    · exact ⟨e, rfl⟩
    · rw [reversible_of_checkAll hall hkept hchecks hundo] at hany
      cases hany

/-- The error of such checks is the one for an irreversible operation. -/
lemma Unobstructed.error (he : checkAll api editor checksum migrations all kept app db = .error e) :
    ∃ key, e = irreversibleError key := by
  obtain ⟨hnodup, -, hplan⟩ := plan_spec hall
  obtain ⟨m, hm, hcheck⟩ := exists_of_forM_eq_error he
  obtain ⟨hagree, hprepare⟩ := h.passes hall hkept ((hplan.perm hnodup).mem_iff.mp hm)
  exact ⟨m.key, checkReverse_error hagree hprepare hcheck⟩

end

/-- A call that nothing else refuses fails with the error for an irreversible operation exactly
when a migration to undo, applied or not, has one. -/
lemma Unobstructed.fails_iff
    (h : Unobstructed api editor checksum migrations faults app target db)
    (hcut : cutApp target = some app) :
    (∃ key db', reverse api editor checksum migrations faults target db =
        (.error (irreversibleError key), db')) ↔
      ∃ m, Undoes migrations app target m ∧ m.operations.any irreversible = true := by
  obtain ⟨all, hall⟩ := h.planned
  obtain ⟨kept, hkept⟩ : ∃ kept, keptPlan migrations target = .ok kept := by
    unfold keptPlan
    rcases hzero : isZero target with _ | _
    · exact h.reachable hzero
    · exact ⟨[], rfl⟩
  rw [← h.checks hall hkept, reverse_eq_checkAndUndo hcut h.start h.lock h.history hall hkept]
  rcases checkAndUndo_cases api editor checksum migrations faults all kept app db with
    ⟨e, he, heq⟩ | ⟨hchecks, looped, result, db₁, hloop, heq, -, hreport⟩
  · obtain ⟨key, rfl⟩ := h.error hall hkept he
    exact iff_of_true ⟨key, db, heq⟩ ⟨_, he⟩
  · refine iff_of_false ?_ ?_
    · rintro ⟨key, db', hfail⟩
      obtain ⟨rfl, rfl⟩ := Prod.mk.inj (heq.symm.trans hfail)
      refine h.foreign key ?_
      rcases hreport _ rfl with rfl | hreport
      · obtain ⟨done, extra, hend⟩ := reverseAll_spec hloop
        exact hend.reported _ rfl
      · exact hreport
    · rintro ⟨e, he⟩
      rw [hchecks] at he
      cases he

/-- **A reversal undoes exactly what it must.** For every set of migrations, target, history and
backend: what a call undoes are applied migrations to undo, none of them in the closure of the
target, each before anything it needs, and all of them if the call succeeds. A call that finds an
irreversible operation in an applied one fails and changes nothing. Where nothing else refuses the
call, the error for an irreversible operation says that an applied one has such an operation,
unless only migrations that are not applied have one. -/
theorem reverse_is_exact {ε : Type} (api : EditorApi ε) (editor : ε)
    (checksum : Migration → String) (migrations : List Migration) (faults : Faults)
    (target app : String) (db : Database) (hcut : cutApp target = some app)
    (hsum : ∀ m ∈ migrations, checksum m ≠ "") :
    (∀ result db', reverse api editor checksum migrations faults target db = (result, db') →
      ∃ done extra, UndoesInOrder migrations app target db result db' done extra) ∧
    ((∃ m, Undoes migrations app target m ∧ m.key ∈ db.keys ∧
        m.operations.any irreversible = true) →
      ∃ e, reverse api editor checksum migrations faults target db = (.error e, db)) ∧
    (Unobstructed api editor checksum migrations faults app target db →
      (∀ key db', reverse api editor checksum migrations faults target db =
        (.error (irreversibleError key), db') → db' = db) ∧
      (((∃ key db', reverse api editor checksum migrations faults target db =
            (.error (irreversibleError key), db')) ↔
          ∃ m, Undoes migrations app target m ∧ m.key ∈ db.keys ∧
            m.operations.any irreversible = true) ↔
        ((∃ m, Undoes migrations app target m ∧ m.key ∉ db.keys ∧
            m.operations.any irreversible = true) →
          ∃ m, Undoes migrations app target m ∧ m.key ∈ db.keys ∧
            m.operations.any irreversible = true))) := by
  have hrefuses : (∃ m, Undoes migrations app target m ∧ m.operations.any irreversible = true) →
      ∃ e, reverse api editor checksum migrations faults target db = (.error e, db) := by
    rintro ⟨m, hundo, hany⟩
    rcases reverse_refused api editor checksum db hcut with
      hrefused | ⟨⟨hstart, hlock, hhistory⟩, all, kept, hall, hkept⟩
    · exact hrefused
    rw [reverse_eq_checkAndUndo hcut hstart hlock hhistory hall hkept]
    rcases checkAndUndo_cases api editor checksum migrations faults all kept app db with
      ⟨e, -, heq⟩ | ⟨hchecks, -⟩
    · exact ⟨e, heq⟩
    · rw [reversible_of_checkAll hall hkept hchecks hundo] at hany
      cases hany
  refine ⟨fun result db' h => reverse_undoesInOrder hcut hsum h, ?_, fun hfree => ⟨?_, ?_⟩⟩
  · rintro ⟨m, hundo, -, hany⟩
    exact hrefuses ⟨m, hundo, hany⟩
  · intro key db' h
    obtain ⟨e, he⟩ := hrefuses ((hfree.fails_iff hcut).mp ⟨key, db', h⟩)
    exact (Prod.mk.inj (h.symm.trans he)).2
  · rw [hfree.fails_iff hcut]
    constructor
    · rintro hiff ⟨m, hundo, -, hany⟩
      exact hiff.mp ⟨m, hundo, hany⟩
    · intro himp
      refine ⟨fun ⟨m, hundo, hany⟩ => ?_, fun ⟨m, hundo, _, hany⟩ => ⟨m, hundo, hany⟩⟩
      by_cases hkey : m.key ∈ db.keys
      · exact ⟨m, hundo, hkey, hany⟩
      · exact himp ⟨m, hundo, hkey, hany⟩

end Call

/-! ## Samples -/

/-- The history of some migrations, with their keys for checksums. -/
def historyOf (migrations : List Migration) : Database :=
  { history := some (migrations.map (rowOf Migration.key)) }

theorem reverse_is_exact_chain :
    (reverse plainEditor () Migration.key chainMigrations {} "shop.0001_initial"
        (historyOf chainMigrations)).2.keys = ["shop.0001_initial", "auth.0001_initial"] ∧
      ∃ done extra, UndoesInOrder chainMigrations "shop" "shop.0001_initial"
        (historyOf chainMigrations) (.ok ())
        (reverse plainEditor () Migration.key chainMigrations {} "shop.0001_initial"
          (historyOf chainMigrations)).2 done extra := by
  refine ⟨rfl, ?_⟩
  exact (reverse_is_exact plainEditor () Migration.key chainMigrations {} "shop.0001_initial"
    "shop" (historyOf chainMigrations) rfl (by decide)).1 _ _ rfl

/-- Two migrations, and a third that drops a field. -/
def droppingMigrations : List Migration :=
  [{ app := "shop", name := "0001_initial" },
    { app := "shop", name := "0002_next", dependencies := ["shop.0001_initial"] },
    { app := "shop", name := "0003_drop", dependencies := ["shop.0002_next"],
      operations := [{ kind := .known .removeField }] }]

/-- **A migration that was never applied keeps the applied ones from being undone.** The first two
are applied, and the second one, which has no operations at all, is to be undone. -/
theorem unapplied_drop_refuses :
    Unobstructed plainEditor () Migration.key droppingMigrations {} "shop" "shop.0001_initial"
        (historyOf (droppingMigrations.take 2)) ∧
      reverse plainEditor () Migration.key droppingMigrations {} "shop.0001_initial"
        (historyOf (droppingMigrations.take 2)) =
          (.error (irreversibleError "shop.0003_drop"), historyOf (droppingMigrations.take 2)) ∧
      ¬ ∃ m, Undoes droppingMigrations "shop" "shop.0001_initial" m ∧
        m.key ∈ (historyOf (droppingMigrations.take 2)).keys ∧
        m.operations.any irreversible = true := by
  have hforeign : ∀ key, ¬ Faults.Reports {} (irreversibleError key) := by
    intro key hreport
    generalize herror : irreversibleError key = e at hreport
    cases hreport with
    | noTable =>
      have htext := congrArg (fun s => s.toList.head?) (Err.text.inj herror)
      rw [String.toList_append] at htext
      cases htext
    | _ h => cases h
  refine ⟨⟨rfl, rfl, rfl, ⟨_, rfl⟩, fun _ => ⟨_, rfl⟩, by decide, ?_, hforeign⟩, rfl, ?_⟩
  · rintro m ⟨hm, -⟩ hkey
    rcases mem_cons.mp hm with rfl | hm
    · rfl
    rcases mem_cons.mp hm with rfl | hm
    · rfl
    obtain rfl := mem_singleton.mp hm
    exact absurd hkey (by decide)
  · rintro ⟨m, ⟨hm, -⟩, hkey, hany⟩
    rcases mem_cons.mp hm with rfl | hm
    · cases hany
    rcases mem_cons.mp hm with rfl | hm
    · cases hany
    obtain rfl := mem_singleton.mp hm
    exact absurd hkey (by decide)

end Gogo.Migrations

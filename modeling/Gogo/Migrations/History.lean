import Gogo.Migrations.Executor

/-!
# The history of applied migrations

What every sequence of calls of the executor keeps, whatever the backend refuses on the way: the
rows of the history belong to known migrations, none of them twice, and with a migration stand all
the migrations it depends on.

* `HistoryOk` — the invariant.
* `triple_applyAll`, `triple_reverseAll` — **it holds after every loop, at whatever migration the
  loop stops.**
* `reached_historyOk` — **it holds in every reachable state, and the history passes the checks that
  `Apply` makes of it.**
-/

namespace Gogo.Migrations

open List Gogo.Lib Gogo.Models

/-! ## Rows -/

/-- The row that is written for a migration. -/
def rowOf (checksum : Migration → String) (m : Migration) : Row := ⟨m.app, m.name, checksum m⟩

/-- What the history looks like in every reachable state. -/
structure HistoryOk (checksum : Migration → String) (migrations : List Migration)
    (db : Database) : Prop where
  known : ∀ row ∈ db.rows, ∃ m ∈ migrations, row = rowOf checksum m
  nodup : db.keys.Nodup
  closed : ∀ m ∈ migrations, m.key ∈ db.keys → ∀ d ∈ m.dependencies, d ∈ db.keys

section Rows

variable {checksum : Migration → String} {migrations : List Migration} {db db' : Database}

lemma historyOk_empty : HistoryOk checksum migrations {} := by
  refine ⟨fun row hrow => ?_, nodup_nil, fun m _ hkey => ?_⟩
  · cases hrow
  · cases hkey

/-- Only the rows matter. -/
lemma HistoryOk.of_rows_eq (h : HistoryOk checksum migrations db) (heq : db'.rows = db.rows) :
    HistoryOk checksum migrations db' := by
  have hkeys : db'.keys = db.keys := congrArg (List.map Row.key) heq
  refine ⟨fun row hrow => h.known row (heq ▸ hrow), hkeys ▸ h.nodup, fun m hm hkey d hd => ?_⟩
  rw [hkeys] at hkey ⊢
  exact h.closed m hm hkey d hd

variable {m : Migration}

variable (h : HistoryOk checksum migrations db)

include h

/-- A row belongs to a migration when the keys agree. -/
lemma HistoryOk.isRow_iff (hnodup : (migrations.map Migration.key).Nodup) (hm : m ∈ migrations)
    {row : Row} (hrow : row ∈ db.rows) : m.isRow row = true ↔ row.key = m.key := by
  obtain ⟨m', hm', rfl⟩ := h.known row hrow
  unfold Migration.isRow
  rw [Bool.and_eq_true, beq_iff_eq, beq_iff_eq]
  constructor
  · rintro ⟨happ, hname⟩
    show m'.app ++ "." ++ m'.name = m.app ++ "." ++ m.name
    have happ : m'.app = m.app := happ
    have hname : m'.name = m.name := hname
    rw [happ, hname]
  · intro hkey
    obtain rfl : m' = m := inj_on_of_nodup_map hnodup hm' hm hkey
    exact ⟨rfl, rfl⟩

/-- A migration is added behind its dependencies. -/
lemma HistoryOk.insert (hnodup : (migrations.map Migration.key).Nodup) (hm : m ∈ migrations)
    (hfresh : m.key ∉ db.keys) (hdeps : ∀ d ∈ m.dependencies, d ∈ db.keys)
    (hrows : db'.rows = db.rows ++ [rowOf checksum m]) : HistoryOk checksum migrations db' := by
  have hkeys : db'.keys = db.keys ++ [m.key] := by
    unfold Database.keys
    rw [hrows, map_append]
    rfl
  refine ⟨?_, ?_, ?_⟩
  · intro row hrow
    rw [hrows] at hrow
    rcases mem_append.mp hrow with hrow | hrow
    · exact h.known row hrow
    · exact ⟨m, hm, mem_singleton.mp hrow⟩
  · rw [hkeys]
    exact Nodup.append h.nodup (nodup_singleton _) (by simpa using hfresh)
  · intro m' hm' hkey d hd
    rw [hkeys] at hkey ⊢
    rcases mem_append.mp hkey with hkey | hkey
    · exact mem_append_left _ (h.closed m' hm' hkey d hd)
    · obtain rfl : m' = m := inj_on_of_nodup_map hnodup hm' hm (mem_singleton.mp hkey)
      exact mem_append_left _ (hdeps d hd)

/-- The keys that are left when the row of a migration is deleted. -/
lemma HistoryOk.mem_keys_delete (hnodup : (migrations.map Migration.key).Nodup)
    (hm : m ∈ migrations) (hrows : db'.rows = db.rows.filter fun row => !m.isRow row)
    {key : String} :
    key ∈ db'.keys ↔ key ∈ db.keys ∧ key ≠ m.key := by
  unfold Database.keys
  rw [hrows, mem_map, mem_map]
  constructor
  · rintro ⟨row, hrow, rfl⟩
    obtain ⟨hrow, hnot⟩ := mem_filter.mp hrow
    refine ⟨⟨row, hrow, rfl⟩, fun hkey => ?_⟩
    rw [(h.isRow_iff hnodup hm hrow).mpr hkey] at hnot
    cases hnot
  · rintro ⟨⟨row, hrow, rfl⟩, hne⟩
    refine ⟨row, mem_filter.mpr ⟨hrow, ?_⟩, rfl⟩
    rw [Bool.not_eq_true', ← Bool.not_eq_true, h.isRow_iff hnodup hm hrow]
    exact hne

/-- A migration is deleted when no applied migration depends on it. -/
lemma HistoryOk.delete (hnodup : (migrations.map Migration.key).Nodup) (hm : m ∈ migrations)
    (hfree : ∀ m' ∈ migrations, m'.key ∈ db.keys → m'.key ≠ m.key → m.key ∉ m'.dependencies)
    (hrows : db'.rows = db.rows.filter fun row => !m.isRow row) :
    HistoryOk checksum migrations db' := by
  refine ⟨?_, ?_, ?_⟩
  · intro row hrow
    rw [hrows] at hrow
    exact h.known row (mem_of_mem_filter hrow)
  · unfold Database.keys
    rw [hrows]
    exact h.nodup.sublist (Sublist.map _ filter_sublist)
  · intro m' hm' hkey d hd
    rw [h.mem_keys_delete hnodup hm hrows] at hkey ⊢
    refine ⟨h.closed m' hm' hkey.1 d hd, ?_⟩
    rintro rfl
    exact hfree m' hm' hkey.1 hkey.2 hd

end Rows

/-! ## One migration -/

section OneMigration

variable {faults : Faults} {m : Migration} {reverse : Bool}

lemma triple_fault {err : Option Err} {P : Database → Prop} :
    Triple P (fault err) (fun _ => P) P :=
  triple_lift (fun _ _ _ h => h) (fun _ h => h)

/-- The operations leave the history alone, wherever they stop. -/
lemma triple_runOperations (h : Option (List Row)) (i : ℕ) (ops : List Operation) :
    Triple (fun db => db.history = h) (runOperations faults m reverse i ops)
      (fun _ db => db.history = h) (fun db => db.history = h) := by
  induction ops generalizing i with
  | nil => exact triple_pure fun _ hdb => hdb
  | cons op rest ih =>
    refine triple_bind triple_fault fun _ => ?_
    exact triple_bind (triple_update fun _ hdb => hdb) fun _ => ih (i + 1)

/-- A statement on the history changes the rows or fails. -/
lemma triple_onHistory (h : Option (List Row)) (statement : List Row → Except Err (List Row)) :
    Triple (fun db => db.history = h) (onHistory statement)
      (fun _ db => ∃ rows rows', h = some rows ∧ statement rows = .ok rows' ∧
        db.history = some rows')
      (fun db => db.history = h) := by
  refine triple_read_bind fun db hdb => ?_
  refine triple_lift_bind (fun rows hrows => ?_) fun db' heq => heq ▸ hdb
  refine triple_lift_bind (fun rows' hrows' => ?_) fun db' heq => heq ▸ hdb
  refine triple_update fun db' _ => ⟨rows, rows', ?_, hrows', rfl⟩
  rw [← hdb]
  exact orFail_eq_ok.mp hrows

/-- **A migration changes the history by its last statement or not at all.** -/
theorem triple_runMigration (h : Option (List Row))
    (statement : List Row → Except Err (List Row)) :
    Triple (fun db => db.history = h) (runMigration faults m reverse statement)
      (fun _ db => ∃ rows rows', h = some rows ∧ statement rows = .ok rows' ∧
        db.history = some rows')
      (fun db => db.history = h) := by
  have hbody : Triple (fun db => db.history = h) (migrationBody faults m reverse statement)
      (fun _ db => ∃ rows rows', h = some rows ∧ statement rows = .ok rows' ∧
        db.history = some rows')
      (fun db => db.history = h) := by
    refine triple_bind (triple_runOperations h 0 _) fun _ => ?_
    refine triple_bind triple_fault fun _ => ?_
    exact triple_bind triple_fault fun _ => triple_onHistory h statement
  unfold runMigration
  split_ifs
  · exact hbody
  · exact triple_atomic hbody

end OneMigration

/-! ## The loop of `Apply` -/

section Loops

variable {checksum : Migration → String} {migrations : List Migration} {faults : Faults}

variable {m : Migration} {target : String} {order done rest all : List Migration}

/-- The rows after a successful insertion. -/
lemma insertRow_eq_ok {sum : String} {rows rows' : List Row} (h : insertRow m sum rows = .ok rows') :
    rows' = rows ++ [⟨m.app, m.name, sum⟩] := by
  unfold insertRow at h
  obtain ⟨-, -, h⟩ := bind_eq_ok.mp h
  exact (Except.ok.inj h).symm

/-- The state of the loop: the invariant, what the loop knows to be applied, and the part of the
plan that is done. -/
structure ApplyLoop (checksum : Migration → String) (migrations done : List Migration)
    (applied : FinMap String String) (db : Database) : Prop where
  ok : HistoryOk checksum migrations db
  applied_iff : ∀ key, (applied.get? key).isSome = true ↔ key ∈ db.keys
  done : ∀ m ∈ done, m.key ∈ db.keys

/-- **The loop over a plan keeps the invariant, at whatever migration it stops.** -/
theorem triple_applyAll (hnodup : (migrations.map Migration.key).Nodup)
    (horder : IsPlan migrations target order) (heq : order = done ++ rest)
    (applied : FinMap String String) :
    Triple (ApplyLoop checksum migrations done applied) (applyAll checksum faults rest applied)
      (fun _ => HistoryOk checksum migrations) (HistoryOk checksum migrations) := by
  induction rest generalizing done applied with
  | nil => exact triple_pure fun _ hdb => hdb.ok
  | cons m rest ih =>
    have heq' : order = (done ++ [m]) ++ rest := by simp [heq]
    have hm : m ∈ migrations := horder.known m (by simp [heq])
    unfold applyAll
    split_ifs with hsome
    · refine (ih heq' applied).mono ?_ (fun _ _ h => h) (fun _ h => h)
      intro db hdb
      refine ⟨hdb.ok, hdb.applied_iff, fun m' hm' => ?_⟩
      rcases mem_append.mp hm' with hm' | hm'
      · exact hdb.done m' hm'
      · exact mem_singleton.mp hm' ▸ (hdb.applied_iff m.key).mp hsome
    · intro db hdb
      have hfresh : m.key ∉ db.keys := fun hmem => hsome ((hdb.applied_iff m.key).mpr hmem)
      have hdeps : ∀ d ∈ m.dependencies, d ∈ db.keys := by
        intro d hd
        obtain ⟨m', hm', rfl⟩ := mem_map.mp (horder.ordered done m rest heq d hd)
        exact hdb.done m' hm'
      have hnext : ∀ db', (∃ rows rows', db.history = some rows ∧
          insertRow m (checksum m) rows = .ok rows' ∧ db'.history = some rows') →
          ApplyLoop checksum migrations (done ++ [m]) (applied.set m.key (checksum m)) db' := by
        rintro db' ⟨rows, rows', hrows, hinsert, hrows'⟩
        have hdb' : db'.rows = db.rows ++ [rowOf checksum m] := by
          unfold Database.rows
          rw [hrows, hrows', insertRow_eq_ok hinsert]
          rfl
        have hkeys : db'.keys = db.keys ++ [m.key] := by
          unfold Database.keys
          rw [hdb', map_append]
          rfl
        refine ⟨hdb.ok.insert hnodup hm hfresh hdeps hdb', fun key => ?_, fun m' hm' => ?_⟩
        · rw [FinMap.get?_set, hkeys, mem_append, mem_singleton, ← hdb.applied_iff]
          split_ifs with hkey
          · exact iff_of_true rfl (.inr hkey.symm)
          · exact ⟨.inl, fun h => h.resolve_right fun heq => hkey heq.symm⟩
        · rw [hkeys]
          rcases mem_append.mp hm' with hm' | hm'
          · exact mem_append_left _ (hdb.done m' hm')
          · exact mem_append_right _ (mem_map_of_mem hm')
      refine triple_bind ((triple_runMigration db.history _).mono (fun _ h => h)
        (fun _ db' h => hnext db' h) ?_) (fun _ => ?_) db rfl
      · intro db' h
        exact hdb.ok.of_rows_eq (congrArg (fun h => Option.getD h []) h)
      · refine triple_bind (triple_fault.mono (fun _ h => h) (fun _ _ h => h)
          (fun _ h => h.ok)) fun _ => ?_
        exact ih heq' _

/-! ## What `Reverse` removes -/

section Removal

variable {all : List Migration} {remove : List String}

/-- The step of a pass. -/
def removalStep (remove : List String) (m : Migration) : List String :=
  if m.key ∈ remove then remove
  else if m.dependencies.any (· ∈ remove) then remove ++ [m.key]
  else remove

lemma removalPass_eq : removalPass all remove = all.foldl removalStep remove := rfl

lemma prefix_removalStep (m : Migration) : remove <+: removalStep remove m := by
  unfold removalStep
  split_ifs
  · exact prefix_rfl
  · exact prefix_append _ _
  · exact prefix_rfl

lemma prefix_removalPass : remove <+: removalPass all remove := by
  rw [removalPass_eq]
  induction all generalizing remove with
  | nil => exact prefix_rfl
  | cons m rest ih => exact (prefix_removalStep m).trans ih

/-- The set is closed: what depends on a removed migration is removed. -/
def RemovalClosed (all : List Migration) (remove : List String) : Prop :=
  ∀ m ∈ all, ∀ d ∈ m.dependencies, d ∈ remove → m.key ∈ remove

/-- A pass that changes nothing has found everything. -/
lemma removalClosed_of_pass_eq (h : removalPass all remove = remove) :
    RemovalClosed all remove := by
  rw [removalPass_eq] at h
  induction all with
  | nil => exact fun m hm => by cases hm
  | cons m rest ih =>
    -- the first step extends the set and the others do so too, so it changes nothing either
    have hstep : removalStep remove m = remove := by
      have hlater : removalStep remove m <+: rest.foldl removalStep (removalStep remove m) := by
        rw [← removalPass_eq]
        exact prefix_removalPass
      rw [foldl_cons] at h
      rw [h] at hlater
      exact hlater.eq_of_length_le (prefix_removalStep m).length_le
    rw [foldl_cons, hstep] at h
    intro m' hm' d hd hmem
    rcases mem_cons.mp hm' with rfl | hm'
    · by_contra hnot
      unfold removalStep at hstep
      have hany : m'.dependencies.any (· ∈ remove) = true :=
        any_eq_true.mpr ⟨d, hd, decide_eq_true hmem⟩
      rw [if_neg hnot, if_pos hany] at hstep
      simp at hstep
    · exact ih h m' hm' d hd hmem

/-- A pass that changes something adds a key of the plan. -/
lemma exists_new_of_pass_ne (h : removalPass all remove ≠ remove) :
    ∃ m ∈ all, m.key ∉ remove ∧ m.key ∈ removalPass all remove := by
  rw [removalPass_eq] at h ⊢
  induction all with
  | nil => exact absurd rfl h
  | cons m rest ih =>
    rw [foldl_cons] at h ⊢
    by_cases hstep : removalStep remove m = remove
    · rw [hstep] at h ⊢
      obtain ⟨m', hm', hnot, hmem⟩ := ih h
      exact ⟨m', mem_cons_of_mem _ hm', hnot, hmem⟩
    · have hlater : removalStep remove m <+: rest.foldl removalStep (removalStep remove m) := by
        rw [← removalPass_eq]
        exact prefix_removalPass
      refine ⟨m, mem_cons_self, ?_, hlater.subset ?_⟩
      · intro hmem
        apply hstep
        unfold removalStep
        rw [if_pos hmem]
      · unfold removalStep at hstep ⊢
        split_ifs at hstep ⊢ with hmem hany
        · exact absurd rfl hstep
        · exact mem_append_right _ (mem_singleton_self _)
        · exact absurd rfl hstep

/-- The migrations of the plan that are not removed so far. -/
def kept (all : List Migration) (remove : List String) : List Migration :=
  all.filter fun m => m.key ∉ remove

/-- A pass that changes something leaves fewer migrations. -/
lemma kept_lt_of_pass_ne (h : removalPass all remove ≠ remove) :
    (kept all (removalPass all remove)).length < (kept all remove).length := by
  obtain ⟨m, hm, hnot, hmem⟩ := exists_new_of_pass_ne h
  have hsub : kept all (removalPass all remove) =
      (kept all remove).filter fun m => m.key ∉ removalPass all remove := by
    unfold kept
    rw [filter_filter]
    refine filter_congr fun m' _ => ?_
    have hpre : m'.key ∈ remove → m'.key ∈ removalPass all remove :=
      fun h => prefix_removalPass.subset h
    by_cases hpass : m'.key ∈ removalPass all remove
    · simp [hpass]
    · have hremove : m'.key ∉ remove := fun h => hpass (hpre h)
      simp [hpass, hremove]
  rw [hsub]
  refine length_filter_lt_length_iff_exists.mpr ⟨m, ?_, by simpa using hmem⟩
  exact mem_filter.mpr ⟨hm, by simpa using hnot⟩

/-- **With one pass more than there are migrations left, the loop ends with a closed set.** -/
theorem removalClosed_removalLoop {fuel : ℕ} (hfuel : (kept all remove).length < fuel) :
    RemovalClosed all (removalLoop all fuel remove) := by
  induction fuel generalizing remove with
  | zero => omega
  | succ fuel ih =>
    unfold removalLoop
    split_ifs with hpass
    · exact removalClosed_of_pass_eq hpass
    · have hlt := kept_lt_of_pass_ne hpass
      exact ih (by omega)

lemma removalClosed_removalSet (app : String) (keep : List String) :
    RemovalClosed all (removalSet all app keep) := by
  apply removalClosed_removalLoop
  have hle : (kept all ((all.filter fun m => m.app = app ∧ m.key ∉ keep).map
      Migration.key)).length ≤ all.length := length_filter_le _ _
  omega

end Removal

/-! ## The loop of `Reverse` -/

/-- The state of the loop: the invariant, the keys of the start, and the removed migrations of the
part of the plan that is done. -/
structure ReverseLoop (checksum : Migration → String) (migrations done : List Migration)
    (remove : List String) (applied : FinMap String String) (db : Database) : Prop where
  ok : HistoryOk checksum migrations db
  applied_of_mem : ∀ key ∈ db.keys, (applied.get? key).getD "" ≠ ""
  done : ∀ m ∈ done, m.key ∈ remove → m.key ∉ db.keys

/-- What depends on a migration stands behind it in a plan. -/
lemma IsPlan.mem_after {before after : List Migration} {m' : Migration}
    (h : IsPlan migrations target order) (heq : order = before ++ m :: after) (hm' : m' ∈ order)
    (hdep : m.key ∈ m'.dependencies) : m' ∈ after := by
  have hfresh : m.key ∉ before.map Migration.key := by
    have hnodup := h.nodup
    rw [heq, map_append, map_cons, nodup_append] at hnodup
    exact fun hin => hnodup.2.2 m.key hin m.key mem_cons_self rfl
  rw [heq] at hm'
  rcases mem_append.mp hm' with hfront | hback
  · obtain ⟨before₁, before₂, rfl⟩ := append_of_mem hfront
    have hmem := h.ordered before₁ m' (before₂ ++ m :: after) (by simp [heq]) m.key hdep
    rw [map_append] at hfresh
    exact absurd (mem_append_left _ hmem) hfresh
  · rcases mem_cons.mp hback with rfl | hback
    · exact absurd (h.ordered before m' after heq m'.key hdep) hfresh
    · exact hback

/-- **The loop over a plan from its end keeps the invariant, at whatever migration it stops.** -/
theorem triple_reverseAll (hnodup : (migrations.map Migration.key).Nodup)
    (hall : IsPlan migrations "" all) {remove : List String} (hclosed : RemovalClosed all remove)
    (heq : all.reverse = done ++ rest) (applied : FinMap String String) :
    Triple (ReverseLoop checksum migrations done remove applied)
      (reverseAll faults remove applied rest)
      (fun _ => HistoryOk checksum migrations) (HistoryOk checksum migrations) := by
  induction rest generalizing done with
  | nil => exact triple_pure fun _ hdb => hdb.ok
  | cons m rest ih =>
    have heq' : all.reverse = (done ++ [m]) ++ rest := by simp [heq]
    have hsplit : all = rest.reverse ++ m :: done.reverse := by
      rw [← reverse_reverse all, heq]
      simp
    have hm : m ∈ migrations := hall.known m (by simp [hsplit])
    unfold reverseAll
    split_ifs with hskip
    · refine (ih heq').mono ?_ (fun _ _ h => h) (fun _ h => h)
      intro db hdb
      refine ⟨hdb.ok, hdb.applied_of_mem, fun m' hm' hremove hmem => ?_⟩
      rcases mem_append.mp hm' with hm' | hm'
      · exact hdb.done m' hm' hremove hmem
      · obtain rfl := mem_singleton.mp hm'
        exact hskip.elim (fun h => h hremove) (hdb.applied_of_mem m'.key hmem)
    · intro db hdb
      -- what depends on the migration is removed too, and stands in the part that is done
      have hfree : ∀ m' ∈ migrations, m'.key ∈ db.keys → m'.key ≠ m.key →
          m.key ∉ m'.dependencies := by
        intro m' hm' hkey _ hdep
        have hmem := hall.complete rfl m' hm'
        have hremove : m.key ∈ remove := by
          by_contra hnot
          exact hskip (.inl hnot)
        refine hdb.done m' ?_ (hclosed m' hmem m.key hdep hremove) hkey
        exact mem_reverse.mp (hall.mem_after hsplit hmem hdep)
      have hnext : ∀ db', (∃ rows rows', db.history = some rows ∧
          deleteRow m rows = .ok rows' ∧ db'.history = some rows') →
          ReverseLoop checksum migrations (done ++ [m]) remove applied db' := by
        rintro db' ⟨rows, rows', hrows, hdelete, hrows'⟩
        obtain rfl := Except.ok.inj hdelete
        have hdb' : db'.rows = db.rows.filter fun row => !m.isRow row := by
          unfold Database.rows
          rw [hrows, hrows']
          rfl
        have hkeys : ∀ {key}, key ∈ db'.keys ↔ key ∈ db.keys ∧ key ≠ m.key :=
          hdb.ok.mem_keys_delete hnodup hm hdb'
        refine ⟨hdb.ok.delete hnodup hm hfree hdb',
          fun key hkey => hdb.applied_of_mem key (hkeys.mp hkey).1, fun m' hm' hremove hmem => ?_⟩
        rcases mem_append.mp hm' with hm' | hm'
        · exact hdb.done m' hm' hremove (hkeys.mp hmem).1
        · exact (hkeys.mp hmem).2 (mem_singleton.mp hm' ▸ rfl)
      refine triple_bind ((triple_runMigration db.history _).mono (fun _ h => h)
        (fun _ db' h => hnext db' h) ?_) (fun _ => ih heq') db rfl
      intro db' h
      exact hdb.ok.of_rows_eq (congrArg (fun h => Option.getD h []) h)

/-! ## The checks of the history -/

/-- The entries that `History` reports. -/
def Database.entries (db : Database) : List Applied :=
  db.rows.map fun row => ⟨row.key, row.checksum⟩

lemma map_key_entries (db : Database) : db.entries.map Applied.key = db.keys := by
  unfold Database.entries Database.keys
  rw [List.map_map]
  rfl

/-- The migrations of a plan by key. -/
lemma get?_known (hnodup : (all.map Migration.key).Nodup) {key : String} :
    (FinMap.ofList (all.map fun m => (m.key, m)) : MigrationIndex).get? key = some m ↔
      m ∈ all ∧ m.key = key :=
  Named.get?_index hnodup

/-- Entries of known migrations with the right checksums are read into the map of applied ones. -/
lemma run_checkEntry (checksum : Migration → String) (known : MigrationIndex) {entries : List Applied}
    (h : ∀ entry ∈ entries, ∃ m, known.get? entry.key = some m ∧ entry.checksum = checksum m)
    (applied : FinMap String String) :
    ∃ applied', run (checkEntry checksum known) applied entries = .ok applied' ∧
      ∀ key, (applied'.get? key).isSome = true ↔
        (applied.get? key).isSome = true ∨ key ∈ entries.map Applied.key := by
  induction entries generalizing applied with
  | nil => exact ⟨applied, rfl, fun key => by simp⟩
  | cons entry rest ih =>
    obtain ⟨m, hm, hsum⟩ := h entry mem_cons_self
    obtain ⟨applied', happlied', hkeys⟩ := ih (fun e he => h e (mem_cons_of_mem _ he))
      (applied.set entry.key (checksum m))
    refine ⟨applied', run_cons_eq_ok.mpr ⟨_, ?_, happlied'⟩, fun key => ?_⟩
    · unfold checkEntry
      rw [hm, hsum]
      simp [orFail, failIf]
    · rw [hkeys, FinMap.get?_set, map_cons, mem_cons]
      split_ifs with hkey
      · exact iff_of_true (.inl rfl) (.inr (.inl hkey.symm))
      · have hne : key ≠ entry.key := fun h => hkey h.symm
        simp [hne]

/-- **A history with the invariant passes the checks of `Apply`.** -/
theorem checkHistory_of_historyOk {db : Database} (hall : IsPlan migrations "" all)
    (h : HistoryOk checksum migrations db) :
    ∃ applied, checkHistory checksum all db.entries = .ok applied ∧
      ∀ key, (applied.get? key).isSome = true ↔ key ∈ db.keys := by
  have hentry : ∀ entry ∈ db.entries, ∃ m ∈ migrations, m ∈ all ∧ m.key = entry.key ∧
      entry.checksum = checksum m := by
    intro entry hentry
    obtain ⟨row, hrow, rfl⟩ := mem_map.mp hentry
    obtain ⟨m, hm, rfl⟩ := h.known row hrow
    exact ⟨m, hm, hall.complete rfl m hm, rfl, rfl⟩
  obtain ⟨applied, happlied, hkeys⟩ := run_checkEntry checksum
    (FinMap.ofList (all.map fun m => (m.key, m)))
    (fun entry he => by
      obtain ⟨m, -, hmem, hkey, hsum⟩ := hentry entry he
      exact ⟨m, (get?_known hall.nodup).mpr ⟨hmem, hkey⟩, hsum⟩) FinMap.empty
  have hkeys' : ∀ key, (applied.get? key).isSome = true ↔ key ∈ db.keys := by
    intro key
    rw [hkeys, map_key_entries]
    simp
  refine ⟨applied, bind_eq_ok.mpr ⟨applied, happlied, bind_eq_ok.mpr ⟨(), ?_, rfl⟩⟩, hkeys'⟩
  refine forM_eq_ok_iff.mpr fun entry he => forM_eq_ok_iff.mpr fun dep hdep => ?_
  obtain ⟨m, hm, hmem, hkey, -⟩ := hentry entry he
  rw [(get?_known hall.nodup).mpr ⟨hmem, hkey⟩] at hdep
  have hkeyMem : m.key ∈ db.keys := by
    rw [hkey, ← map_key_entries]
    exact mem_map_of_mem he
  rw [failIf_eq_ok, Option.isNone_eq_false_iff]
  exact (hkeys' dep).mpr (h.closed m hm hkeyMem dep hdep)

end Loops

/-! ## Calls and runs -/

section Calls

variable {ε : Type} {api : EditorApi ε} {editor : ε} {checksum : Migration → String}
  {migrations : List Migration} {faults : Faults}

/-- Reading the history, with the entries it returns. -/
lemma triple_readHistory :
    Triple (HistoryOk checksum migrations) (readHistory faults)
      (fun history db => HistoryOk checksum migrations db ∧ history = db.entries)
      (HistoryOk checksum migrations) := by
  refine triple_bind triple_fault fun _ => ?_
  refine triple_read_bind fun db hdb => triple_pure ?_
  rintro db' rfl
  exact ⟨hdb, rfl⟩

lemma triple_initializeHistory :
    Triple (HistoryOk checksum migrations) (initializeHistory faults)
      (fun _ => HistoryOk checksum migrations) (HistoryOk checksum migrations) :=
  triple_bind triple_fault fun _ => triple_update fun _ hdb => hdb.of_rows_eq rfl

/-- **A call of `Apply` keeps the invariant.** -/
theorem triple_apply (target : String) :
    Triple (HistoryOk checksum migrations) (apply api editor checksum migrations faults target)
      (fun _ => HistoryOk checksum migrations) (HistoryOk checksum migrations) := by
  refine triple_bind triple_fault fun _ => ?_
  refine triple_lift_bind (fun order horder => ?_) fun _ h => h
  refine triple_lift_bind (fun _ _ => ?_) fun _ h => h
  refine triple_bind triple_fault fun _ => ?_
  apply triple_deferred
  refine triple_bind triple_initializeHistory fun _ => ?_
  refine triple_bind triple_readHistory fun history => ?_
  refine triple_lift_bind (fun all hall => ?_) fun _ h => h.1
  obtain ⟨hnodup, -, hplan⟩ := plan_spec hall
  obtain ⟨-, -, hplan'⟩ := plan_spec horder
  refine triple_lift_bind (fun applied happlied => ?_) fun _ h => h.1
  refine (triple_applyAll hnodup hplan' (nil_append order).symm applied).mono ?_ (fun _ _ h => h) (fun _ h => h)
  rintro db ⟨hok, rfl⟩
  obtain ⟨applied', happlied', hkeys⟩ := checkHistory_of_historyOk hplan hok
  obtain rfl := Except.ok.inj (happlied.symm.trans happlied')
  exact ⟨hok, hkeys, fun m hm => by cases hm⟩

/-- The map of applied checksums that `Reverse` reads has every applied key. -/
lemma applied_ne_empty {db : Database} (h : HistoryOk checksum migrations db)
    (hsum : ∀ m ∈ migrations, checksum m ≠ "") {key : String} (hkey : key ∈ db.keys) :
    ((FinMap.ofList (db.entries.map fun entry => (entry.key, entry.checksum))).get? key).getD ""
      ≠ "" := by
  obtain ⟨row, hrow, rfl⟩ := mem_map.mp hkey
  have hnodup : ((db.entries.map fun entry => (entry.key, entry.checksum)).map Prod.fst).Nodup := by
    rw [List.map_map]
    have : db.entries.map Applied.key = db.keys := map_key_entries db
    exact this ▸ h.nodup
  have hmem : (row.key, row.checksum) ∈
      db.entries.map fun entry => (entry.key, entry.checksum) := by
    refine mem_map.mpr ⟨⟨row.key, row.checksum⟩, ?_, rfl⟩
    exact mem_map_of_mem hrow
  rw [(FinMap.get?_ofList hnodup).mpr hmem]
  obtain ⟨m, hm, rfl⟩ := h.known row hrow
  exact hsum m hm

/-- **A call of `Reverse` keeps the invariant.** -/
theorem triple_reverse (hsum : ∀ m ∈ migrations, checksum m ≠ "") (target : String) :
    Triple (HistoryOk checksum migrations) (reverse api editor checksum migrations faults target)
      (fun _ => HistoryOk checksum migrations) (HistoryOk checksum migrations) := by
  refine triple_bind triple_fault fun _ => ?_
  refine triple_lift_bind (fun app _ => ?_) fun _ h => h
  refine triple_lift_bind (fun all hall => ?_) fun _ h => h
  refine triple_lift_bind (fun keep _ => ?_) fun _ h => h
  obtain ⟨hnodup, -, hplan⟩ := plan_spec hall
  refine triple_bind triple_fault fun _ => ?_
  apply triple_deferred
  refine triple_bind triple_readHistory fun history => ?_
  refine triple_lift_bind (fun _ _ => ?_) fun _ h => h.1
  refine (triple_reverseAll hnodup hplan (removalClosed_removalSet app _)
    (nil_append all.reverse).symm _).mono ?_
    (fun _ _ h => h) (fun _ h => h)
  rintro db ⟨hok, rfl⟩
  exact ⟨hok, fun key hkey => applied_ne_empty hok hsum hkey, fun m hm => by cases hm⟩

end Calls

/-- **After any sequence of calls, each of which may fail at any point, the history has rows of
known migrations with their checksums, none of them twice, with every migration its dependencies,
and it passes the checks that `Apply` makes of it.** -/
theorem reached_historyOk {ε : Type} (api : EditorApi ε) (editor : ε)
    (checksum : Migration → String) (migrations all : List Migration)
    (hsum : ∀ m ∈ migrations, checksum m ≠ "") (hplan : plan migrations "" = .ok all)
    (calls : List Call) :
    HistoryOk checksum migrations (reached api editor checksum migrations calls) ∧
      ∃ applied, checkHistory checksum all
        (reached api editor checksum migrations calls).entries = .ok applied := by
  have hinvariant : ∀ db, HistoryOk checksum migrations db →
      HistoryOk checksum migrations (calls.foldl (step api editor checksum migrations) db) := by
    induction calls with
    | nil => exact fun db hdb => hdb
    | cons call rest ih =>
      intro db hdb
      refine ih _ ?_
      rcases call with ⟨target, faults⟩ | ⟨target, faults⟩
      · exact (triple_apply target).invariant hdb
      · exact (triple_reverse hsum target).invariant hdb
  have hok := hinvariant {} historyOk_empty
  obtain ⟨-, -, hall⟩ := plan_spec hplan
  obtain ⟨applied, happlied, -⟩ := checkHistory_of_historyOk hall hok
  exact ⟨hok, applied, happlied⟩

/-- Two migrations of different apps, the second behind the first. -/
def twoMigrations : List Migration :=
  [{ app := "shop", name := "0001_initial", dependencies := ["auth.0001_initial"] },
    { app := "auth", name := "0001_initial" }]

/-- An editor without any of the optional interfaces. -/
def plainEditor : EditorApi Unit where
  constraintLifecycle _ := false
  indexLifecycle _ := false
  detachTransitionValues _ := .ok ()
  withSchemaTransition _ := none
  withSchemas _ := none

/-- The second migration is refused, then applied, and the first app is reversed. -/
def twoCalls : List Call :=
  let refuse (app : String) (m : Migration) : Option Err :=
    if m.app = app then some (.text "connection lost") else none
  [.apply "" { commit := refuse "shop" }, .apply "" {},
    .reverse "auth.zero" { flush := refuse "auth" }]

theorem reached_historyOk_two_apps :
    (reached plainEditor () Migration.key twoMigrations twoCalls).keys = ["auth.0001_initial"] ∧
      HistoryOk Migration.key twoMigrations
        (reached plainEditor () Migration.key twoMigrations twoCalls) := by
  have hplan : plan twoMigrations "" = .ok twoMigrations.reverse := rfl
  refine ⟨rfl, (reached_historyOk plainEditor () Migration.key twoMigrations _ ?_ hplan
    twoCalls).1⟩
  decide

end Gogo.Migrations

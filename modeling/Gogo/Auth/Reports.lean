import Gogo.Auth.ResetRuns
import Gogo.Auth.Tokens

/-!
# What is told about a change of credentials

`Issue`, `Revoke` and `Confirm` tell whether they have changed anything, going by the error that
their transaction returned. A policy, validator or hook that runs in the transaction may itself
return an error of another transaction, on another alias, with the marks that the operation looks
for. And `Revoke` of a token that is revoked already commits a transaction that has written nothing,
and tells that nothing has changed.

* `Tokens.issue_truthful_iff` — a report is true exactly when no such mark came out of the function
  of the transaction.
* `Tokens.Unmarked`, `PasswordReset.Unmarked` — no reply of a callback or query carries such a mark.
* `truthful_reports` — **then every report is true, of `Revoke` where the token is not revoked yet;
  and a secret is handed out only after a commit.**
* `misleading_reports` — an `Issue` that is rolled back and tells that it has changed something, a
  `Confirm` that is rolled back and tells that it does not know, and a `Revoke` that commits and
  tells that nothing has changed.
-/

namespace Gogo.Auth

open Gogo.Lib

variable {db : Db} {t : Tokens} {fate : Fate} {ctx : Context} {inTransaction : Bool}
  {userID : String} {scopes : List String} {fresh : Except Err Fresh}

lemma truthful_refused {e : Err} :
    Truthful .unchanged (Run.mk (some e) none .rolledBack db).ending ↔
      ∀ e', (Run.mk (some e) none .rolledBack db).inner = some e' → e'.Silent := by
  simp [Truthful, Ending.durable]

/-- The report of `Issue`. -/
lemma Tokens.issue_truthful_iff (h : fate.Honest) :
    Truthful (t.issue fate ctx inTransaction userID scopes fresh db).1.state
        (t.issue fate ctx inTransaction userID scopes fresh db).2.ending ↔
      ∀ e, (t.issue fate ctx inTransaction userID scopes fresh db).2.inner = some e → e.Silent := by
  unfold issue
  split
  · exact truthful_refused
  · split
    · exact truthful_refused
    · split
      · exact truthful_refused
      · exact owned_truthful_iff h _ _

/-- A secret is handed out only after a commit. -/
lemma Tokens.committed_of_secret
    (h : (t.issue fate ctx inTransaction userID scopes fresh db).1.secret.isSome) :
    (t.issue fate ctx inTransaction userID scopes fresh db).2.ending = .committed := by
  unfold issue at h ⊢
  split at h
  · cases h
  · split at h
    · cases h
    · split at h
      · cases h
      · simp only at h ⊢
        split_ifs at h with hnil
        · exact owned_committed (Option.isNone_iff_eq_none.mp hnil)
        · cases h

/-- A `Revoke` that attempts nothing and commits has found the token revoked. -/
lemma Tokens.revoked_of_not_attempted {actor : Principal} {id : String}
    (hattempted : t.attempted fate actor id db = false)
    (hdurable : (owned fate (t.revokeBody actor id) db).ending.durable = true) :
    ∃ r, db.tokens id = some r ∧ r.revokedAt.isSome := by
  have hbody := owned_durable hdurable
  have hstart : fate.start = none := by
    match hstart : fate.start with
    | none => rfl
    | some e => simp [owned, hstart, Ending.durable] at hdurable
  obtain ⟨planned, m, hplan, -⟩ := Session.bind_eq_ok.mp hbody
  cases planned with
  | some record => simp [attempted, hstart, hplan] at hattempted
  | none =>
    simp only [revokePlan, Session.bind_eq_ok, Session.pure_eq_ok, Session.read_eq_ok,
      Session.lift_eq_ok, refuseIf_eq_ok, not_not] at hplan
    obtain ⟨expected, _, hexpected, _, _, -, record, _, -, _, _, ⟨rfl, -⟩, _, _, -, hnone, -⟩ :=
      hplan
    split_ifs at hnone with hrevoked
    exact ⟨record, (getToken_ok hexpected).2, hrevoked⟩

/-! ## Callbacks without marks -/

/-- The errors of the grants say nothing about a commit. -/
def Db.Unmarked (db : Db) : Prop := ∀ id e, db.permissions id = .error e → e.Silent

/-- A session that fails with silent errors only. -/
abbrev Unmarked {α : Type} (x : Session Db Err α) : Prop := x.FailsOnly Db.Unmarked Err.Silent

/-- No reply of the policy, of a hook or of the backend to a query carries the mark of a commit. -/
structure Tokens.Unmarked (t : Tokens) : Prop where
  authorize : ∀ f, t.authorize = some f → ∀ k change, Auth.Unmarked (f k change)
  beforeSave : ∀ k record, Auth.Unmarked (t.beforeSave k record)
  afterSave : ∀ k record, Auth.Unmarked (t.afterSave k record)
  query : ∀ k e, t.query k = some e → e.Silent

/-- The same for the callbacks of a password reset, with the validators and the hasher. -/
structure PasswordReset.Unmarked (p : PasswordReset) : Prop where
  authorize : ∀ f, p.authorize = some f → ∀ id, Auth.Unmarked (f id)
  validate : ∀ password principal, Auth.Unmarked (p.validate password principal)
  hashPassword : ∀ password e, p.hashPassword password = .error e → e.Silent
  beforeUser : ∀ user, Auth.Unmarked (p.beforeUser user)
  afterUser : ∀ user, Auth.Unmarked (p.afterUser user)
  beforeReset : ∀ record, Auth.Unmarked (p.beforeReset record)
  afterReset : ∀ record, Auth.Unmarked (p.afterReset record)
  query : ∀ k e, p.query k = some e → e.Silent

lemma silent_of_refuseIf {bad : Prop} [Decidable bad] {e e' : Err} (h : e.Silent)
    (he : refuseIf bad e = .error e') : e'.Silent := by
  unfold refuseIf at he
  split_ifs at he
  exact Except.error.inj he ▸ h

/-- A refusal with a silent error. -/
lemma unmarked_refuseIf {bad : Prop} [Decidable bad] {e : Err} (h : e.Silent) :
    Unmarked (Session.lift (refuseIf bad e)) :=
  Session.failsOnly_lift fun _ he => silent_of_refuseIf h he

lemma silent_of_present {α : Type} {row : Option α} {name : Named} {e : Err}
    (h : present row name = .error e) : e.Silent := by
  cases row with
  | none => exact Except.error.inj h ▸ silent_named name
  | some _ => cases h

lemma unmarked_present {α : Type} (row : Option α) (name : Named) :
    Unmarked (Session.lift (present row name)) :=
  Session.failsOnly_lift fun _ he => silent_of_present he

lemma silent_of_checkTokenScope {lower : String → String} {p : Principal} {action : String}
    {r : Resource} {e : Err} (h : checkTokenScope lower p action r = some e) : e.Silent := by
  unfold checkTokenScope denyIf at h
  split at h
  · cases h
  · split_ifs at h
    exact Option.some.inj h ▸ silent_named _

/-- What a reading of a principal fails with. -/
lemma silent_of_snapshotFrom {reads : Reads} {find : Db → Option (String × User)}
    (hreads : ∀ n e, reads n = .error e → e.Silent)
    (hdbs : ∀ n db, reads n = .ok db → db.Unmarked) {attempts k : ℕ} {e : Err}
    (h : snapshotFrom reads find attempts k = .error e) : e.Silent := by
  induction attempts generalizing k with
  | zero => exact Except.error.inj h ▸ silent_named _
  | succ attempts ih =>
    rcases bind_eq_error.mp h with he | ⟨db, hdb, h⟩
    · exact hreads _ e he
    rcases bind_eq_error.mp h with he | ⟨⟨id, user⟩, -, h⟩
    · exact silent_of_present he
    rcases bind_eq_error.mp h with he | ⟨_, -, h⟩
    · exact silent_of_refuseIf (silent_named _) he
    rcases bind_eq_error.mp h with he | ⟨db₁, hdb₁, h⟩
    · exact hreads _ e he
    rcases bind_eq_error.mp h with he | ⟨permissions, -, h⟩
    · exact hdbs _ db₁ hdb₁ id e he
    rcases bind_eq_error.mp h with he | ⟨db₂, -, h⟩
    · exact hreads _ e he
    rcases bind_eq_error.mp h with he | ⟨current, -, h⟩
    · exact silent_of_present he
    split_ifs at h
    exact ih h

/-- A reading of a principal inside of a transaction. -/
lemma unmarked_snapshot {query : ℕ → Option Err} (hquery : ∀ k e, query k = some e → e.Silent)
    {k : ℕ} {db : Db} (hdb : db.Unmarked) {id : String} {e : Err}
    (h : snapshot (fun n => match query (k + n) with
      | none => .ok db
      | some e => .error e) (byId id) = .error e) : e.Silent := by
  refine silent_of_snapshotFrom (fun n e' he' => ?_) (fun n db' hdb' => ?_) h
  · split at he'
    · cases he'
    · next hsome => exact Except.error.inj he' ▸ hquery _ _ hsome
  · split at hdb'
    · exact Except.ok.inj hdb' ▸ hdb
    · cases hdb'

/-- A query reaches the backend, or fails with a silent error. -/
lemma unmarked_reach {query : ℕ → Option Err} (hquery : ∀ k e, query k = some e → e.Silent)
    (k : ℕ) : Unmarked (Session.lift (match query k with
      | none => .ok ()
      | some e => .error e)) := by
  refine Session.failsOnly_lift fun e he => ?_
  split at he
  · cases he
  · next hsome => exact Except.error.inj he ▸ hquery _ _ hsome

section Tokens

variable (ht : t.Unmarked)

include ht

lemma Tokens.Unmarked.permit (k : ℕ) (actor : Principal) (change : TokenChange) :
    Auth.Unmarked (t.permit k actor change) := by
  unfold Tokens.permit
  split
  · exact fun _ hdb => ⟨hdb, fun e he => Except.error.inj he ▸ silent_named _⟩
  · next f hf =>
    refine .bind (Session.failsOnly_lift fun e he => ?_) fun _ => ht.authorize f hf k change
    unfold Tokens.actorAllowed at he
    split_ifs at he
    · rcases bind_eq_error.mp he with he | ⟨_, -, he⟩
      · exact silent_of_refuseIf (silent_named _) he
      · split at he
        · cases he
        · next hscope => exact Except.error.inj he ▸ silent_of_checkTokenScope hscope
    · cases he

lemma Tokens.Unmarked.getToken (k : ℕ) (id : String) : Auth.Unmarked (t.getToken k id) :=
  .bind (unmarked_reach ht.query k) fun _ => Session.failsOnly_read_bind fun _ _ =>
    unmarked_present _ _

/-- `save` with a write and a check of the kind. -/
lemma Tokens.Unmarked.save {k : ℕ} {record : TokenRecord}
    {write : TokenRecord → Session Db Err Unit} {check : Bool → Session Db Err Unit}
    (hwrite : ∀ r, Auth.Unmarked (write r)) (hcheck : ∀ after, Auth.Unmarked (check after)) :
    Auth.Unmarked (t.save k record write check) := by
  unfold Tokens.save
  repeat' first
    | with_reducible exact ht.beforeSave _ _
    | with_reducible exact ht.afterSave _ _
    | with_reducible exact hwrite _
    | with_reducible exact hcheck _
    | with_reducible exact ht.getToken _ _
    | with_reducible exact unmarked_refuseIf (silent_named _)
    | exact unmarked_reach ht.query _
    | refine .bind ?_ fun _ => ?_

lemma Tokens.Unmarked.issueBody (actor : Principal) (change : TokenChange) (record : TokenRecord) :
    Auth.Unmarked (t.issueBody actor change record) := by
  have hinsert (r : TokenRecord) : Auth.Unmarked (t.insertToken 50 r) := by
    refine .bind (unmarked_reach ht.query _) fun _ => Session.failsOnly_read_bind fun _ _ => ?_
    refine .bind (unmarked_refuseIf ⟨rfl, rfl⟩) fun _ => Session.failsOnly_update fun _ h => h
  have hcheck (version : ℕ) (after : Bool) :
      Auth.Unmarked (t.issueCheck actor change version after) := by
    refine .bind (ht.permit _ _ _) fun _ => .bind ?_ fun _ => unmarked_refuseIf (silent_named _)
    refine Session.failsOnly_read_bind fun db hdb => Session.failsOnly_lift fun e he => ?_
    rcases bind_eq_error.mp he with he | ⟨_, -, he⟩
    · exact silent_of_refuseIf (silent_named _) he
    · rcases bind_eq_error.mp he with he | ⟨_, -, he⟩
      · exact unmarked_snapshot ht.query hdb he
      · cases he
  unfold Tokens.issueBody
  refine .bind ?_ fun _ => .bind (ht.permit _ _ _) fun _ => .bind ?_ fun _ => ?_
  · exact .bind (unmarked_reach ht.query _) fun _ => Session.failsOnly_read_bind fun _ _ =>
      unmarked_present _ _
  · refine Session.failsOnly_read_bind fun db hdb => .bind ?_ fun _ => Session.failsOnly_pure _
    exact Session.failsOnly_lift fun e he => unmarked_snapshot ht.query hdb he
  · repeat' first
      | with_reducible exact unmarked_refuseIf (silent_named _)
      | with_reducible exact ht.save hinsert (hcheck _)
      | refine .bind ?_ fun _ => ?_

/-- The function of `Revoke`, up to the point where it sets `attempted`, and as a whole. -/
lemma Tokens.Unmarked.revokeBody (actor : Principal) (id : String) :
    Auth.Unmarked (t.revokeBody actor id) := by
  have hupdate (r : TokenRecord) : Auth.Unmarked (t.updateRevoked 6 r) :=
    .bind (ht.getToken _ _) fun _ => Session.failsOnly_update fun _ h => h
  have hcheck (record : TokenRecord) (after : Bool) :
      Auth.Unmarked (t.revokeCheck actor record after) :=
    .bind (ht.permit _ _ _) fun _ => .bind (ht.getToken _ _) fun _ =>
      unmarked_refuseIf (silent_named _)
  refine .bind ?_ fun planned => ?_
  · unfold Tokens.revokePlan
    repeat' first
      | with_reducible exact ht.getToken _ _
      | with_reducible exact ht.permit _ _ _
      | with_reducible exact unmarked_refuseIf (silent_named _)
      | exact Session.failsOnly_pure _
      | refine Session.failsOnly_read_bind fun _ _ => ?_
      | refine .bind ?_ fun _ => ?_
  · split
    · exact Session.failsOnly_pure _
    · exact ht.save hupdate (hcheck _)

end Tokens

section Confirm

variable {p : PasswordReset} (hp : p.Unmarked)

include hp

namespace PasswordReset.Unmarked

lemma getReset (k : ℕ) (id : String) (missing : Named) : Auth.Unmarked (p.getReset k id missing) :=
  .bind (unmarked_reach hp.query k) fun _ => Session.failsOnly_read_bind fun _ _ =>
    unmarked_present _ _

lemma getUser (k : ℕ) (id : String) (missing : Named) : Auth.Unmarked (p.getUser k id missing) :=
  .bind (unmarked_reach hp.query k) fun _ => Session.failsOnly_read_bind fun _ _ =>
    unmarked_present _ _

lemma permit (actor : Principal) (userID : String) : Auth.Unmarked (p.permit actor userID) := by
  unfold PasswordReset.permit
  split
  · exact fun _ hdb => ⟨hdb, fun e he => Except.error.inj he ▸ silent_named _⟩
  · next f hf =>
    refine .bind (unmarked_refuseIf (silent_named _)) fun _ => .bind ?_ fun _ =>
      hp.authorize f hf userID
    refine Session.failsOnly_lift fun e he => ?_
    split at he
    · cases he
    · next hscope => exact Except.error.inj he ▸ silent_of_checkTokenScope hscope

lemma snapshotNow (k : ℕ) (userID : String) : Auth.Unmarked (p.snapshotNow k userID) := by
  refine Session.failsOnly_read_bind fun db hdb => .bind ?_ fun _ => Session.failsOnly_pure _
  exact Session.failsOnly_lift fun e he => unmarked_snapshot hp.query hdb he

lemma hash (password : String) (principal : Principal) :
    Auth.Unmarked (p.hash password principal) := by
  intro db hdb
  obtain ⟨hkept, hfails⟩ := hp.validate password principal db hdb
  unfold PasswordReset.hash
  split
  · next e db' hresult =>
    rw [hresult] at hkept hfails
    have hsilent := hfails e rfl
    refine ⟨hkept, fun e' he' => Except.error.inj he' ▸ ⟨?_, ?_⟩⟩
    · simpa [Err.committed, committedIn] using hsilent.committed
    · simpa [Err.isCode, Err.code, codeIn] using hsilent.code
  · next db' hresult =>
    rw [hresult] at hkept
    exact ⟨hkept, hp.hashPassword password⟩

omit hp in
lemma bumpVersion (user : User) : Auth.Unmarked (Session.lift (PasswordReset.bumpVersion user)) := by
  refine Session.failsOnly_lift fun e he => ?_
  unfold PasswordReset.bumpVersion at he
  split_ifs at he
  exact Except.error.inj he ▸ silent_named _

/-- The function of `Confirm`. -/
lemma confirmBody (actor : Principal) (id digest password : String) :
    Auth.Unmarked (p.confirmBody actor id digest password) := by
  simp only [PasswordReset.confirmBody, PasswordReset.confirmWrite, PasswordReset.saveUser,
    PasswordReset.saveReset, PasswordReset.updateGuard, PasswordReset.writeReset,
    PasswordReset.confirmGuard, PasswordReset.userStands, PasswordReset.resetStillValid,
    PasswordReset.updateUser, PasswordReset.updateUsed, Bool.false_eq_true, if_false]
  repeat' first
    | with_reducible exact hp.getReset _ _ _
    | with_reducible exact hp.getUser _ _ _
    | with_reducible exact hp.permit _ _
    | with_reducible exact hp.snapshotNow _ _
    | with_reducible exact hp.hash _ _
    | with_reducible exact bumpVersion _
    | with_reducible exact hp.beforeUser _
    | with_reducible exact hp.afterUser _
    | with_reducible exact hp.beforeReset _
    | with_reducible exact hp.afterReset _
    | with_reducible exact unmarked_refuseIf (silent_named _)
    | exact Session.failsOnly_update fun _ h => h
    | refine Session.failsOnly_read_bind fun _ _ => ?_
    | refine .bind ?_ fun _ => ?_

end PasswordReset.Unmarked

end Confirm

/-! ## Reports -/

/-- What the function of an owned transaction ends with is silent. -/
lemma Unmarked.inner {body : Session Db Err Unit} (h : Unmarked body) (hdb : db.Unmarked) {e : Err}
    (he : (owned fate body db).inner = some e) : e.Silent := by
  unfold owned at he
  split at he
  · cases he
  · rcases hbody : body db with ⟨e' | ⟨⟩, after⟩
    · rw [hbody] at he
      obtain rfl := Option.some.inj he
      exact (h db hdb).2 e' (by rw [hbody])
    · rw [hbody] at he
      simp only at he
      split_ifs at he
      split at he <;> cases he


/-- **Reports are true when no reply carries the mark of a commit.** With a backend that tells of an
unknown commit exactly when there is one, and with callbacks and queries whose errors say nothing
about a commit: the report of `Issue`, of `Confirm`, and of a `Revoke` of a token that is not
revoked yet is true of its own transaction. A secret is handed out only after a commit, whatever the
callbacks do. Source: `api_tokens.go` `Issue`, `Revoke`; `reset.go` `Confirm`. -/
theorem truthful_reports {fate : Fate} (h : fate.Honest) :
    (∀ (t : Tokens) ctx inTransaction userID scopes fresh db,
      let result := t.issue fate ctx inTransaction userID scopes fresh db
      (t.Unmarked → db.Unmarked → Truthful result.1.state result.2.ending) ∧
        (result.1.secret.isSome → result.2.ending = .committed)) ∧
    (∀ (t : Tokens) ctx inTransaction id db,
      let result := t.revoke fate ctx inTransaction id db
      t.Unmarked → db.Unmarked → (∀ r, db.tokens id = some r → r.revokedAt = none) →
        Truthful result.1 result.2.ending) ∧
    ∀ (p : PasswordReset) ctx inTransaction bearer password db,
      let result := p.confirm fate ctx inTransaction bearer password db
      p.Unmarked → db.Unmarked → Truthful result.1 result.2.ending := by
  refine ⟨?_, ?_, ?_⟩
  · intro t ctx inTransaction userID scopes fresh db
    refine ⟨fun ht hdb => (Tokens.issue_truthful_iff h).mpr fun e he => ?_,
      Tokens.committed_of_secret⟩
    unfold Tokens.issue at he
    split at he
    · cases he
    · split at he
      · cases he
      · next values _ _ after hpermit =>
        -- the transaction starts in the state that the first question to the policy has left
        have hafter := (ht.permit 0 (fromContext ctx) (Tokens.issueChange userID values "" 0) db
          hdb).1
        rw [hpermit] at hafter
        split at he
        · cases he
        · exact (ht.issueBody _ _ _).inner hafter he
  · intro t ctx inTransaction id db result ht hdb hrow
    simp only [result, Tokens.revoke]
    split_ifs with hid hinside hattempted
    · rfl
    · rfl
    · exact (owned_truthful_iff h _ _).mpr fun e he => (ht.revokeBody _ _).inner hdb he
    · by_contra hdurable
      obtain ⟨r, hr, hrevoked⟩ := Tokens.revoked_of_not_attempted
        (by simpa using hattempted) (by simpa [Truthful] using hdurable)
      rw [hrow r hr] at hrevoked
      cases hrevoked
  · intro p ctx inTransaction bearer password db result hp hdb
    simp only [result, PasswordReset.confirm]
    split
    · rfl
    · exact (owned_truthful_iff h _ _).mpr fun e he => (hp.confirmBody _ _ _ _).inner hdb he

/-! ## Samples -/

/-- The backend of the samples tells no lies. -/
lemma honest_sampleFate : sampleFate.Honest where
  start _ h := by cases h
  cleanup _ h := by cases h
  failed _ h := by cases h
  unknown _ _ h := by cases h

/-- The callbacks of the samples do not fail. -/
lemma unmarked_sampleTokens : sampleTokens.Unmarked where
  authorize f hf _ _ := by
    cases hf
    exact Session.failsOnly_pure _
  beforeSave _ _ := Session.failsOnly_pure _
  afterSave _ _ := Session.failsOnly_pure _
  query _ _ he := by cases he

/-- An `Issue` whose policy allows it tells that it has changed something. -/
theorem sample_issue_told :
    (sampleTokens.issue sampleFate ⟨none, none, none⟩ false "reader" ["blog.view_post"]
      (.ok ⟨"token", "bearer", "digest"⟩) sampleDb).1.state = .changed ∧
    Truthful .changed sampleIssue.ending := by
  refine ⟨by decide +kernel, ?_⟩
  exact ((truthful_reports honest_sampleFate).1 sampleTokens ⟨none, none, none⟩ false "reader"
    ["blog.view_post"] (.ok ⟨"token", "bearer", "digest"⟩) sampleDb).1 unmarked_sampleTokens
    (fun _ _ he => by cases he)

/-- A policy that runs a transaction of its own on another alias, whose callback fails after the
commit, and that passes the error on. -/
def committingTokens : Tokens :=
  { sampleTokens with
    authorize := some fun k _ =>
      if k = 1 then .fail (.committedCallback [.named (.other 0)]) else pure () }

/-- A validator whose own transaction on another alias ends without an answer. -/
def doubtingReset : PasswordReset :=
  { Resets.sampleReset with validate := fun _ _ => .fail (.database .unknownCommit []) }

/-- The account with a token that is revoked. -/
def revokedDb : Db :=
  { sampleDb with
    tokens := fun id => if id = "token" then
      some ⟨"token", "reader", "digest", 3, ["blog.view_post"], 1, 11, some 1⟩ else none }

/-- An `Issue` that is rolled back tells of a change, a `Confirm` that is rolled back does not know,
and a `Revoke` that commits tells of no change. -/
theorem misleading_reports :
    let issue := committingTokens.issue sampleFate ⟨none, none, none⟩ false "reader"
      ["blog.view_post"] (.ok ⟨"token", "bearer", "digest"⟩) sampleDb
    let confirm := doubtingReset.confirm sampleFate ⟨none, none, none⟩ false "bearer" "secret"
      Resets.sampleRequest.db
    let revoke := sampleTokens.revoke sampleFate ⟨none, none, none⟩ false "token" revokedDb
    issue.1.state = .changed ∧ issue.2.ending = .rolledBack ∧
      confirm.1 = .unknown ∧ confirm.2.ending = .rolledBack ∧
      revoke.1 = .unchanged ∧ revoke.2.ending = .committed := by
  decide +kernel

end Gogo.Auth

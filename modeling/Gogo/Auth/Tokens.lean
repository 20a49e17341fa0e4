import Gogo.Auth.Accounts

/-!
# API tokens

`Issue` and `Revoke` run in a transaction of their own and ask a policy several times on the way;
the policy and the hooks of the models are callbacks that may read and write like anyone else.
`AuthenticateToken` turns a token into a principal again.

* `Tokens` — the service with its callbacks; a callback is given the number of its call, so that
  no two calls need to answer alike.
* `Tokens.issue`, `Tokens.revoke`, `Tokens.authenticateToken` — as in the source.
* `Tokens.issue_durable` — what a durable `Issue` has left behind.
* `Derived` — one principal comes from another by `ConstrainPrincipal`, through a context, or by a
  token that was issued with it as the actor.
* `narrows_of_derived` — along a chain of these a ceiling only narrows.
* `authority_narrows` — **with it, what the policies allow, and a token that is revoked, expired or
  of a changed account is refused from then on.**
* `counting_policy` — under `ConstrainPolicy` a custom policy can still allow more to a smaller
  ceiling, because it sees the ceiling.
-/

namespace Gogo.Auth

open Gogo.Lib

/-! ## The service -/

/-- The actions of a `TokenChange`. -/
inductive TokenAction
  | issue
  | revoke
  deriving DecidableEq

/-- The action of the permission that a constrained actor needs. -/
def TokenAction.verb : TokenAction → String
  | .issue => "add"
  | .revoke => "delete"

/-- `TokenChange`. -/
structure TokenChange where
  action : TokenAction
  id : String
  userID : String
  scopes : List String
  expiresAt : ℕ

/-- `Tokens` with its accounts, hooks and backend. A cancelled context is an error of the callback
or query at which it is noticed. -/
structure Tokens where
  validID : String → Bool
  validUUID : String → Bool
  lower : String → String
  parseAPIToken : String → Option (String × String)
  ttl : ℕ
  authorize : Option (ℕ → TokenChange → Session Db Err Unit)
  beforeSave : ℕ → TokenRecord → Session Db Err TokenRecord
  afterSave : ℕ → TokenRecord → Session Db Err TokenRecord
  query : ℕ → Option Err

namespace Tokens

variable (t : Tokens)

/-- The part of `permit` that looks at a constrained actor. -/
def actorAllowed (actor : Principal) (action : TokenAction) : Except Err Unit := do
  if actor.tokenScopes.isSome then
    refuseIf (actor.authenticated = false ∨ actor.active = false) (.named .unauthenticated)
    match checkTokenScope t.lower actor action.verb ⟨"gogo_authtokens", "APIToken", 0⟩ with
    | none => .ok ()
    | some e => .error e

/-- `permit`, for the `k`-th time. -/
def permit (k : ℕ) (actor : Principal) (change : TokenChange) : Session Db Err Unit :=
  match t.authorize with
  | none => .fail (.named .permissionDenied)
  | some authorize => do
    Session.lift (t.actorAllowed actor change.action)
    authorize k change

/-- A query reaches the backend. -/
def reach (k : ℕ) : Session Db Err Unit :=
  .lift (match t.query k with
    | none => .ok ()
    | some e => .error e)

/-- The token of an identifier. -/
def getToken (k : ℕ) (id : String) : Session Db Err TokenRecord := do
  t.reach k
  let db ← Session.read
  Session.lift (present (db.tokens id) .notFound)

/-- The account of an identifier. -/
def getUser (k : ℕ) (id : String) : Session Db Err User := do
  t.reach k
  let db ← Session.read
  Session.lift (present (db.users id) .notFound)

/-- The readings of a transaction, which sees its own writes only. -/
def readings (k : ℕ) (db : Db) : Reads := fun n =>
  match t.query (k + n) with
  | none => .ok db
  | some e => .error e

/-- `snapshot` in a transaction. -/
def snapshotNow (k : ℕ) (id : String) : Session Db Err Principal := do
  let db ← Session.read
  let (_, _, principal) ← Session.lift (snapshot (t.readings k db) (byId id))
  return principal

/-- `LoadPrincipal` in a transaction. -/
def loadNow (k : ℕ) (id : String) : Session Db Err Principal := do
  let db ← Session.read
  Session.lift (loadPrincipal t.validID (t.readings k db) id)

/-- `INSERT`. -/
def insertToken (k : ℕ) (record : TokenRecord) : Session Db Err Unit := do
  t.reach k
  let db ← Session.read
  Session.lift (refuseIf (db.tokens record.id).isSome (.database .uniqueViolation []))
  Session.update fun db => { db with tokens := Function.update db.tokens record.id (some record) }

/-- `UPDATE` of the one column `revoked_at`. -/
def updateRevoked (k : ℕ) (record : TokenRecord) : Session Db Err Unit := do
  let row ← t.getToken k record.id
  let written : TokenRecord := { row with revokedAt := record.revokedAt }
  Session.update fun db => { db with tokens := Function.update db.tokens record.id (some written) }

/-- `Tokens.save`: the guard runs after the first hook and before the write. -/
def save (k : ℕ) (record : TokenRecord) (write : TokenRecord → Session Db Err Unit)
    (check : Bool → Session Db Err Unit) : Session Db Err Unit := do
  let hooked ← t.beforeSave k record
  check false
  Session.lift (refuseIf (hooked ≠ record) (.named .accountChanged))
  write hooked
  let hooked ← t.afterSave k hooked
  check true
  Session.lift (refuseIf (hooked ≠ record) (.named .accountChanged))
  let actual ← t.getToken k record.id
  Session.lift (refuseIf (actual ≠ record) (.named .accountChanged))
  t.reach (k + 1)

/-! ## Issue -/

/-- The check around the write of `Issue`. -/
def issueCheck (actor : Principal) (change : TokenChange) (version : ℕ) (after : Bool) :
    Session Db Err Unit := do
  t.permit (if after then 3 else 2) actor change
  let current ← t.loadNow (if after then 30 else 20) change.userID
  Session.lift (refuseIf (current.active = false ∨ current.authVersion ≠ version)
    (.named .accountChanged))

/-- The function of the transaction of `Issue`. -/
def issueBody (actor : Principal) (change : TokenChange) (record : TokenRecord) :
    Session Db Err Unit := do
  let _ ← t.getUser 0 change.userID
  t.permit 1 actor change
  let principal ← t.snapshotNow 10 change.userID
  Session.lift (refuseIf (principal.active = false ∨ principal.authenticated = false)
    (.named .unauthenticated))
  Session.lift (refuseIf (actor.tokenScopes.isSome ∧ actor.authVersion ≠ principal.authVersion)
    (.named .accountChanged))
  Session.lift (refuseIf
    (change.scopes.any fun s => !principal.superuser && !principal.permissions.contains s)
    (.named .permissionDenied))
  t.save 40 { record with authVersion := principal.authVersion } (t.insertToken 50)
    (t.issueCheck actor change principal.authVersion)

/-- What `newAPIToken` returns. -/
structure Fresh where
  id : String
  secret : String
  digest : String

/-- `TokenIssue`. -/
structure Issue where
  state : MutationState
  id : String
  secret : Option String

/-- The checks of `Issue` before anything is asked. -/
def issueScopes (actor : Principal) (inTransaction : Bool) (userID : String)
    (scopes : List String) : Except Err (List String) := do
  refuseIf (inTransaction = true) (.named .ownedCommit)
  refuseIf (t.validID userID = false) (.named .unauthenticated)
  let values ← tokenScopes scopes
  match actor.tokenScopes with
  | none => .ok values
  | some ceiling =>
    refuseIf (actor.id ≠ userID ∨ values.any fun s => !ceiling.contains s)
      (.named .permissionDenied)
    .ok values

/-- A call that ended before its transaction. -/
def refused (e : Err) (db : Db) : Issue × Run Db :=
  (⟨.unchanged, "", none⟩, ⟨some e, none, .rolledBack, db⟩)

/-- The change that `Issue` asks for. -/
def issueChange (userID : String) (values : List String) (id : String) (expiresAt : ℕ) :
    TokenChange := ⟨.issue, id, userID, values, expiresAt⟩

/-- `Issue`, with the transaction it ran. -/
def issue (fate : Fate) (ctx : Context) (inTransaction : Bool) (userID : String)
    (scopes : List String) (fresh : Except Err Fresh) (db : Db) : Issue × Run Db :=
  match t.issueScopes (fromContext ctx) inTransaction userID scopes with
  | .error e => refused e db
  | .ok values =>
    match t.permit 0 (fromContext ctx) (issueChange userID values "" 0) db with
    | (.error e, db) => refused e db
    | (.ok (), db) =>
      match fresh with
      | .error e => refused e db
      | .ok fresh =>
        let record : TokenRecord :=
          ⟨fresh.id, userID, fresh.digest, 0, values, db.now, db.now + t.ttl, none⟩
        let change := issueChange userID values fresh.id record.expiresAt
        let run := owned fate (t.issueBody (fromContext ctx) change record) db
        let state := mutationState run.err
        (⟨state, if state = .unchanged then "" else fresh.id,
          if run.err.isNone then some fresh.secret else none⟩, run)

/-! ## Revoke -/

/-- The function of the transaction of `Revoke` up to the point where it sets `attempted`: the
record with its time of revocation, or nothing when it is revoked already. -/
def revokePlan (actor : Principal) (id : String) : Session Db Err (Option TokenRecord) := do
  let expected ← t.getToken 0 id
  t.permit 0 actor ⟨.revoke, id, expected.userID, expected.scopes, expected.expiresAt⟩
  let record ← t.getToken 1 id
  Session.lift (refuseIf (record ≠ expected) (.named .accountChanged))
  let db ← Session.read
  return if record.revokedAt.isSome then none else some { record with revokedAt := some db.now }

/-- The check around the write of `Revoke`. -/
def revokeCheck (actor : Principal) (record : TokenRecord) (after : Bool) :
    Session Db Err Unit := do
  t.permit (if after then 2 else 1) actor
    ⟨.revoke, record.id, record.userID, record.scopes, record.expiresAt⟩
  let current ← t.getToken (if after then 3 else 2) record.id
  Session.lift (refuseIf
    (current ≠ if after then record else { record with revokedAt := none })
    (.named .accountChanged))

/-- The function of the transaction of `Revoke`. -/
def revokeBody (actor : Principal) (id : String) : Session Db Err Unit := do
  match ← t.revokePlan actor id with
  | none => pure ()
  | some record => t.save 4 record (t.updateRevoked 6) (t.revokeCheck actor record)

/-- `attempted` at the end of `Revoke`. -/
def attempted (fate : Fate) (actor : Principal) (id : String) (db : Db) : Bool :=
  fate.start.isNone &&
    match t.revokePlan actor id db with
    | (.ok (some _), _) => true
    | _ => false

/-- `Revoke`, with the transaction it ran. -/
def revoke (fate : Fate) (ctx : Context) (inTransaction : Bool) (id : String) (db : Db) :
    MutationState × Run Db :=
  if t.validUUID id = false then
    (.unchanged, ⟨some (.named .token), none, .rolledBack, db⟩)
  else if inTransaction then (.unchanged, ⟨some (.named .ownedCommit), none, .rolledBack, db⟩)
  else
    let run := owned fate (t.revokeBody (fromContext ctx) id) db
    (if t.attempted fate (fromContext ctx) id db then mutationState run.err else .unchanged, run)

/-! ## Authentication -/

/-- An account that is gone is an invalid token. -/
def asToken (e : Err) : Err :=
  match e with
  | .named .unauthenticated => .named .token
  | e => e

/-- `AuthenticateToken`; `late` is the error of the context at the end. -/
def authenticateToken (reads : Reads) (late : Option Err) (bearer : String) :
    Except Err Principal := do
  let (id, digest) ← present (t.parseAPIToken bearer) .token
  let first ← reads 0
  let record ← present (first.tokens id) .token
  refuseIf (record.secretDigest ≠ digest ∨ record.revokedAt.isSome ∨
    record.expiresAt ≤ first.now ∨ record.authVersion < 1) (.named .token)
  let scopes ← (tokenScopes record.scopes).mapError fun _ => .named .token
  let principal ←
    (loadPrincipal t.validID (fun n => reads (n + 1)) record.userID).mapError asToken
  refuseIf (principal.authenticated = false ∨ principal.active = false ∨
    principal.authVersion ≠ record.authVersion) (.named .token)
  let last ← reads 10
  let current ← present (last.tokens id) .token
  refuseIf (record ≠ current ∨ current.expiresAt ≤ last.now) (.named .token)
  match late with
  | some e => .error e
  | none => constrainPrincipal principal scopes

/-! ## What a durable call leaves behind -/

variable {t}

variable {k : ℕ} {db db' : Db} {id userID : String} {actor : Principal} {change : TokenChange}
  {record : TokenRecord} {inTransaction : Bool} {scopes : List String}

lemma reach_ok {u : Unit} (h : t.reach k db = (.ok u, db')) : db' = db :=
  (Session.lift_eq_ok.mp h).2

lemma getToken_ok {r : TokenRecord} (h : t.getToken k id db = (.ok r, db')) :
    db' = db ∧ db.tokens id = some r := by
  simp only [getToken, Session.bind_eq_ok, Session.read_eq_ok, Session.lift_eq_ok,
    present_eq_ok] at h
  obtain ⟨_, m, hreach, _, _, ⟨rfl, rfl⟩, hrow, rfl⟩ := h
  obtain rfl := reach_ok hreach
  exact ⟨rfl, hrow⟩

lemma readings_ok {n : ℕ} (h : t.readings k db n = .ok db') : db' = db := by
  unfold readings at h
  split at h
  · exact (Except.ok.inj h).symm
  · cases h

lemma loadNow_ok {principal : Principal} (h : t.loadNow k id db = (.ok principal, db')) :
    db' = db ∧ ∃ user permissions, db.users id = some user ∧
      principal = user.principal id permissions := by
  obtain ⟨a, m, hread, h⟩ := Session.bind_eq_ok.mp h
  obtain ⟨rfl, rfl⟩ := Session.read_eq_ok.mp hread
  obtain ⟨hload, rfl⟩ := Session.lift_eq_ok.mp h
  obtain ⟨n, -, db, user, permissions, hdb, huser, -, hprincipal⟩ := loadPrincipal_ok hload
  obtain rfl := readings_ok hdb
  exact ⟨rfl, user, permissions, huser, hprincipal⟩

/-- The check of `Issue` has seen the account at the version of the token. -/
lemma issueCheck_ok {version : ℕ} {after : Bool}
    (h : t.issueCheck actor change version after db = (.ok (), db')) :
    ∃ user, db'.users change.userID = some user ∧ user.authVersion = version := by
  obtain ⟨-, m, -, h⟩ := Session.bind_eq_ok.mp h
  obtain ⟨current, m', hload, h⟩ := Session.bind_eq_ok.mp h
  obtain ⟨rfl, user, permissions, huser, rfl⟩ := loadNow_ok hload
  obtain ⟨hsame, rfl⟩ := Session.lift_eq_ok.mp h
  rw [refuseIf_eq_ok, not_or, not_not] at hsame
  exact ⟨user, huser, hsame.2⟩

/-- A record that was saved is there as it was given, and the last check has passed on the same
database. -/
lemma save_ok {write : TokenRecord → Session Db Err Unit} {check : Bool → Session Db Err Unit}
    (h : t.save k record write check db = (.ok (), db')) :
    db'.tokens record.id = some record ∧ ∃ m, check true m = (.ok (), db') := by
  simp only [save, Session.bind_eq_ok, Session.lift_eq_ok, refuseIf_eq_ok, not_not] at h
  obtain ⟨_, _, -, _, _, -, _, _, -, _, _, -, _, _, -, _, m, hcheck, _, _, ⟨-, rfl⟩, actual, _,
    hget, _, _, ⟨rfl, rfl⟩, hreach⟩ := h
  obtain ⟨rfl, hactual⟩ := getToken_ok hget
  obtain rfl := reach_ok hreach
  exact ⟨hactual, _, hcheck⟩

lemma issueBody_ok (h : t.issueBody actor change record db = (.ok (), db')) :
    ∃ user, db'.users change.userID = some user ∧
      db'.tokens record.id = some { record with authVersion := user.authVersion } := by
  obtain ⟨-, m₁, -, h⟩ := Session.bind_eq_ok.mp h
  obtain ⟨-, m₂, -, h⟩ := Session.bind_eq_ok.mp h
  obtain ⟨principal, m₃, -, h⟩ := Session.bind_eq_ok.mp h
  obtain ⟨-, m₄, -, h⟩ := Session.bind_eq_ok.mp h
  obtain ⟨-, m₅, -, h⟩ := Session.bind_eq_ok.mp h
  obtain ⟨-, m₆, -, h⟩ := Session.bind_eq_ok.mp h
  obtain ⟨hrow, m, hcheck⟩ := save_ok h
  obtain ⟨user, huser, hversion⟩ := issueCheck_ok hcheck
  exact ⟨user, huser, hversion ▸ hrow⟩

/-- **A durable `Issue` has put a token under the checked scopes at the version of the account.** -/
theorem issue_durable {fate : Fate} {ctx : Context} {fresh : Except Err Fresh}
    (h : (t.issue fate ctx inTransaction userID scopes fresh db).2.ending.durable = true) :
    ∃ f values record user, fresh = .ok f ∧
      t.issueScopes (fromContext ctx) inTransaction userID scopes = .ok values ∧
      (t.issue fate ctx inTransaction userID scopes fresh db).2.db.tokens f.id = some record ∧
      (t.issue fate ctx inTransaction userID scopes fresh db).2.db.users userID = some user ∧
      record.userID = userID ∧ record.scopes = values ∧ record.authVersion = user.authVersion := by
  unfold issue at h ⊢
  split at h
  · cases h
  · rename_i values hvalues
    split at h
    · cases h
    · rename_i db₁ hpermit
      split at h
      · cases h
      · rename_i f
        have hbody := owned_durable h
        obtain ⟨user, huser, hrow⟩ := issueBody_ok hbody
        exact ⟨f, values, _, user, rfl, hvalues, hrow, huser, rfl, rfl, rfl⟩

/-- A constrained actor issues for itself and within its ceiling. -/
lemma issueScopes_ok {values ceiling : List String} (hceiling : actor.tokenScopes = some ceiling)
    (h : t.issueScopes actor inTransaction userID scopes = .ok values) :
    actor.id = userID ∧ values ⊆ ceiling := by
  obtain ⟨_, -, h⟩ := bind_eq_ok.mp h
  obtain ⟨_, -, h⟩ := bind_eq_ok.mp h
  obtain ⟨values', -, h⟩ := bind_eq_ok.mp h
  simp only [hceiling] at h
  obtain ⟨_, hrefuse, h⟩ := bind_eq_ok.mp h
  cases h
  rw [refuseIf_eq_ok, not_or, not_not] at hrefuse
  refine ⟨hrefuse.1, ?_⟩
  intro s hs
  have hnone := hrefuse.2
  simp only [List.any_eq_true, Bool.not_eq_true', not_exists, not_and, Bool.not_eq_false,
    List.contains_iff_mem] at hnone
  exact hnone s hs

lemma revokePlan_revoked (h : t.revokePlan actor id db = (.ok (some record), db')) :
    record.revokedAt.isSome := by
  simp only [revokePlan, Session.bind_eq_ok, Session.pure_eq_ok] at h
  obtain ⟨_, _, -, _, _, -, found, _, -, _, _, -, now, _, -, hplan, -⟩ := h
  split_ifs at hplan
  rw [← Option.some.inj hplan]
  rfl

/-! ## Later databases -/

/-- The callbacks do nothing that other operations do not do either. -/
structure Respectful (t : Tokens) : Prop where
  authorize : ∀ f, t.authorize = some f → ∀ k change, (f k change).Moves Later
  beforeSave : ∀ k record, (t.beforeSave k record).Moves Later
  afterSave : ∀ k record, (t.afterSave k record).Moves Later

lemma later_setToken {db : Db} {id : String} {r : TokenRecord}
    (h : ∀ old, db.tokens id = some old → r.Follows old) :
    Later db { db with tokens := Function.update db.tokens id (some r) } := by
  refine ⟨?_, fun _ u hu => ⟨u, hu, le_rfl⟩, le_rfl⟩
  intro id' old hold
  by_cases heq : id' = id
  · subst heq
    exact ⟨r, by simp, h old hold⟩
  · exact ⟨old, by simpa [heq] using hold, .refl old⟩

section

open Session (moves_lift moves_pure moves_read moves_fail)

variable (ht : t.Respectful)
include ht

lemma moves_permit (k : ℕ) (actor : Principal) (change : TokenChange) :
    (t.permit k actor change).Moves Later := by
  unfold permit
  split
  · exact moves_fail _
  · rename_i f hf
    exact .bind (moves_lift _) fun _ => ht.authorize f hf k change

omit ht in
lemma moves_reach (k : ℕ) : (t.reach k).Moves Later := moves_lift _

omit ht in
lemma moves_getToken (k : ℕ) (id : String) : (t.getToken k id).Moves Later :=
  .bind (moves_reach k) fun _ => .bind moves_read fun _ => moves_lift _

omit ht in
lemma moves_loadNow (k : ℕ) (id : String) : (t.loadNow k id).Moves Later :=
  .bind moves_read fun _ => moves_lift _

omit ht in
lemma moves_insertToken (k : ℕ) (record : TokenRecord) :
    (t.insertToken k record).Moves Later := by
  intro db
  cases hquery : t.query k with
  | some e => simpa [insertToken, reach, hquery, bind, Session.lift] using Later.refl db
  | none =>
    cases hrow : db.tokens record.id with
    | some row =>
      simpa [insertToken, reach, hquery, bind, Session.lift, Session.read, refuseIf, hrow] using
        Later.refl db
    | none =>
      have hset := @later_setToken db record.id record (by simp [hrow])
      simpa [insertToken, reach, hquery, bind, Session.lift, Session.read, refuseIf, hrow,
        Session.update] using hset

omit ht in
lemma moves_updateRevoked (k : ℕ) (record : TokenRecord) (hrevoked : record.revokedAt.isSome) :
    (t.updateRevoked k record).Moves Later := by
  intro db
  unfold updateRevoked
  rcases hget : t.getToken k record.id db with ⟨e | row, m⟩
  · have hmoved := moves_getToken (t := t) k record.id db
    rw [hget] at hmoved
    simpa [bind, hget] using hmoved
  · obtain ⟨rfl, hrow⟩ := getToken_ok hget
    have hset := @later_setToken m record.id { row with revokedAt := record.revokedAt } (by
      intro old hold
      obtain rfl := Option.some.inj (hrow.symm.trans hold)
      exact ⟨rfl, fun _ => hrevoked⟩)
    simpa [bind, hget, Session.update] using hset

lemma moves_save {write : TokenRecord → Session Db Err Unit} {check : Bool → Session Db Err Unit}
    (hwrite : ∀ r, r = record → (write r).Moves Later) (hcheck : ∀ b, (check b).Moves Later) :
    (t.save k record write check).Moves Later := by
  refine .bind (ht.beforeSave k record) fun hooked => ?_
  refine .bind (hcheck false) fun _ => ?_
  -- The guard has compared the record, so the write is that of the record itself.
  by_cases hsame : hooked = record
  · have hpass : (refuseIf (hooked ≠ record) (.named .accountChanged) : Except Err Unit) = .ok () :=
      refuseIf_eq_ok.mpr (not_not.mpr hsame)
    rw [hpass]
    refine .bind (moves_lift _) fun _ => ?_
    refine .bind (hwrite hooked hsame) fun _ => ?_
    refine .bind (ht.afterSave k hooked) fun _ => ?_
    refine .bind (hcheck true) fun _ => ?_
    refine .bind (moves_lift _) fun _ => ?_
    refine .bind (moves_getToken _ _) fun _ => ?_
    exact .bind (moves_lift _) fun _ => moves_reach _
  · have hstop : (refuseIf (hooked ≠ record) (.named .accountChanged) : Except Err Unit) =
        .error (.named .accountChanged) := if_pos hsame
    rw [hstop]
    intro db
    exact Later.refl db

lemma moves_issueBody (actor : Principal) (change : TokenChange) (record : TokenRecord) :
    (t.issueBody actor change record).Moves Later := by
  have huser : (t.getUser 0 change.userID).Moves Later :=
    .bind (moves_reach _) fun _ => .bind moves_read fun _ => moves_lift _
  have hsnapshot : (t.snapshotNow 10 change.userID).Moves Later :=
    .bind moves_read fun _ => .bind (moves_lift _) fun _ => moves_pure _
  have hcheck (version : ℕ) (b : Bool) : (t.issueCheck actor change version b).Moves Later :=
    .bind (moves_permit ht _ _ _) fun _ => .bind (moves_loadNow _ _) fun _ => moves_lift _
  refine .bind huser fun _ => ?_
  refine .bind (moves_permit ht _ _ _) fun _ => ?_
  refine .bind hsnapshot fun _ => ?_
  refine .bind (moves_lift _) fun _ => ?_
  refine .bind (moves_lift _) fun _ => ?_
  refine .bind (moves_lift _) fun _ => ?_
  exact moves_save ht (fun r _ => moves_insertToken 50 r) (hcheck _)

/-- Every `Issue` leads to a later database. -/
lemma later_issue (fate : Fate) (ctx : Context) (inTransaction : Bool) (userID : String)
    (scopes : List String) (fresh : Except Err Fresh) (db : Db) :
    Later db (t.issue fate ctx inTransaction userID scopes fresh db).2.db := by
  unfold issue
  split
  · exact Later.refl db
  · rename_i values hvalues
    have hpermit := moves_permit ht 0 (fromContext ctx) (issueChange userID values "" 0) db
    split
    · rename_i hresult
      rw [hresult] at hpermit
      exact hpermit
    · rename_i db₁ hresult
      rw [hresult] at hpermit
      split
      · exact hpermit
      · exact hpermit.trans (owned_moves (moves_issueBody ht _ _ _) db₁)

lemma moves_revokeBody (actor : Principal) (id : String) :
    (t.revokeBody actor id).Moves Later := by
  have hplan : (t.revokePlan actor id).Moves Later := by
    refine .bind (moves_getToken _ _) fun _ => ?_
    refine .bind (moves_permit ht _ _ _) fun _ => ?_
    refine .bind (moves_getToken _ _) fun _ => ?_
    refine .bind (moves_lift _) fun _ => ?_
    exact .bind moves_read fun _ => moves_pure _
  refine hplan.bind_of ?_
  intro db planned m hplanned
  cases planned with
  | none => exact Later.refl m
  | some record =>
    have hrevoked := revokePlan_revoked hplanned
    refine moves_save ht (fun r hr => moves_updateRevoked 6 r (hr ▸ hrevoked)) (fun b => ?_) m
    refine .bind (moves_permit ht _ _ _) fun _ => ?_
    exact .bind (moves_getToken _ _) fun _ => moves_lift _

/-- Every `Revoke` leads to a later database. -/
lemma later_revoke (fate : Fate) (ctx : Context) (inTransaction : Bool) (id : String) (db : Db) :
    Later db (t.revoke fate ctx inTransaction id db).2.db := by
  unfold revoke
  by_cases hid : t.validUUID id = false
  · rw [if_pos hid]
    exact Later.refl db
  · rw [if_neg hid]
    cases inTransaction
    · exact owned_moves (moves_revokeBody ht _ _) db
    · exact Later.refl db

end

end Tokens

/-! ## Chains of principals -/

/-- One operation of the system: an `Issue` or a `Revoke` of any service, or a change of accounts
and of the clock that leaves the tokens alone. -/
inductive Step : Db → Db → Prop
  | issue {t : Tokens} (ht : t.Respectful) (fate : Fate) (ctx : Context) (inTransaction : Bool)
      (userID : String) (scopes : List String) (fresh : Except Err Tokens.Fresh) (db : Db) :
      Step db (t.issue fate ctx inTransaction userID scopes fresh db).2.db
  | revoke {t : Tokens} (ht : t.Respectful) (fate : Fate) (ctx : Context) (inTransaction : Bool)
      (id : String) (db : Db) : Step db (t.revoke fate ctx inTransaction id db).2.db
  | account {db db' : Db} (htokens : db'.tokens = db.tokens) (h : Later db db') : Step db db'

/-- Any number of operations. -/
abbrev Reaches : Db → Db → Prop := Relation.ReflTransGen Step

variable {db db' : Db} {p q : Principal}

lemma later_of_step (h : Step db db') : Later db db' := by
  cases h with
  | issue ht fate ctx inTransaction userID scopes fresh db =>
    exact Tokens.later_issue ht fate ctx inTransaction userID scopes fresh db
  | revoke ht fate ctx inTransaction id db =>
    exact Tokens.later_revoke ht fate ctx inTransaction id db
  | account _ h => exact h

/-- **What operations make of a database is a later one.** -/
theorem later_of_reaches (h : Reaches db db') : Later db db' := by
  induction h with
  | refl => exact Later.refl db
  | tail _ hstep ih => exact ih.trans (later_of_step hstep)

/-- Every reading sees what operations have made of `db`. -/
def Since (db : Db) (reads : Reads) : Prop := ∀ n db', reads n = .ok db' → Reaches db db'

/-- `q` comes from `p`: by `ConstrainPrincipal`, through a context, or by a token that was issued
with `p` as the actor. -/
inductive Derived : Principal → Principal → Prop
  | constrain {p q : Principal} {scopes : List String} (h : constrainPrincipal p scopes = .ok q) :
      Derived p q
  | context (ctx : Context) (p : Principal) : Derived p (fromContext (withPrincipal ctx p))
  | token {p q : Principal} {t t' : Tokens} {fate : Fate} {ctx : Context} {inTransaction : Bool}
      {userID : String} {scopes : List String} {fresh : Tokens.Fresh} {db : Db} {reads : Reads}
      {late : Option Err} {bearer digest : String} (hactor : fromContext ctx = p)
      (hissued :
        (t.issue fate ctx inTransaction userID scopes (.ok fresh) db).2.ending.durable = true)
      (hsince : Since (t.issue fate ctx inTransaction userID scopes (.ok fresh) db).2.db reads)
      (hbearer : t'.parseAPIToken bearer = some (fresh.id, digest))
      (h : t'.authenticateToken reads late bearer = .ok q) : Derived p q

namespace Tokens

variable {t : Tokens}

/-- What `AuthenticateToken` has checked: the token at its first reading, and the account of the
token at one of the others. -/
structure Accepted (reads : Reads) (id : String) (q : Principal) (first seen : Db)
    (record : TokenRecord) (user : User) : Prop where
  reading : reads 0 = .ok first
  row : first.tokens id = some record
  valid : record.revokedAt = none
  unexpired : first.now < record.expiresAt
  seenReading : ∃ n, reads n = .ok seen
  account : seen.users record.userID = some user
  version : user.authVersion = record.authVersion
  owner : q.id = record.userID
  ceiling : ∃ c, q.tokenScopes = some c ∧ ∀ s ∈ c, s ∈ record.scopes

lemma authenticateToken_ok {reads : Reads} {late : Option Err} {bearer id digest : String}
    (hbearer : t.parseAPIToken bearer = some (id, digest))
    (h : t.authenticateToken reads late bearer = .ok q) :
    ∃ first seen record user, Accepted reads id q first seen record user := by
  simp only [authenticateToken, bind_eq_ok, present_eq_ok, hbearer, refuseIf_eq_ok,
    mapError_eq_ok, not_or, not_le, not_not, Option.some.injEq, Prod.exists] at h
  obtain ⟨id', digest', hparsed, first, hfirst, record, hrow, _, ⟨-, hrevoked, hexpires, -⟩, scopes,
    hscopes, principal, hload, _, ⟨-, -, hversion⟩, last, -, current, -, _, -, h⟩ := h
  obtain ⟨rfl, rfl⟩ := Prod.mk.inj hparsed
  obtain ⟨n, -, seen, user, permissions, hseen, haccount, -, rfl⟩ := loadPrincipal_ok hload
  cases late with
  | some e => cases h
  | none =>
    obtain ⟨c, rfl, hceiling, -⟩ := constrainPrincipal_ok h
    refine ⟨first, seen, record, user, hfirst, hrow, by simpa using hrevoked, hexpires,
      ⟨n + 1, hseen⟩, haccount, hversion, rfl, c, rfl, ?_⟩
    intro s hs
    exact (mem_of_tokenScopes hscopes).mp (hceiling s hs)

end Tokens

/-- **One step of a chain narrows.** -/
theorem narrows_of_derived (h : Derived p q) : Narrows p q := by
  cases h with
  | constrain h => exact narrows_of_constrainPrincipal h
  | context ctx p => exact Narrows.refl p
  | @token _ _ t t' fate ctx inTransaction userID scopes fresh db reads late bearer digest hactor
      hissued hsince hbearer h =>
      obtain ⟨f, values, issued, user, hf, hvalues, hrow, -, howner, hscopes, -⟩ :=
        Tokens.issue_durable hissued
      cases hf
      obtain ⟨first, seen, record, account, accepted⟩ := Tokens.authenticateToken_ok hbearer h
      have hlater := later_of_reaches (hsince 0 first accepted.reading)
      obtain ⟨record', hrow', hfollows⟩ := hlater.tokens _ _ hrow
      obtain rfl := Option.some.inj (accepted.row.symm.trans hrow')
      have hsame : record.userID = userID ∧ record.scopes = values := by
        rw [hfollows.same]
        exact ⟨howner, hscopes⟩
      rw [hactor] at hvalues
      constructor
      · intro hsome
        obtain ⟨ceiling, hceiling⟩ := Option.isSome_iff_exists.mp hsome
        rw [accepted.owner, hsame.1, (Tokens.issueScopes_ok hceiling hvalues).1]
      · intro ceiling hceiling
        obtain ⟨c, hc, hsub⟩ := accepted.ceiling
        refine ⟨c, hc, fun s hs => ?_⟩
        exact (Tokens.issueScopes_ok hceiling hvalues).2 (hsame.2 ▸ hsub s hs)

/-- **Along a chain a ceiling only narrows.** -/
theorem narrows_of_chain (h : Relation.ReflTransGen Derived p q) : Narrows p q := by
  induction h with
  | refl => exact Narrows.refl p
  | tail _ hlast ih => exact ih.trans (narrows_of_derived hlast)

/-! ## The end of a token -/

/-- A token is over: it is revoked or expired, or its account has another version. -/
def Over (db : Db) (id : String) : Prop :=
  ∃ r, db.tokens id = some r ∧ (r.revokedAt.isSome ∨ r.expiresAt ≤ db.now ∨
    ∃ u, db.users r.userID = some u ∧ u.authVersion ≠ r.authVersion)

/-- A token whose account is beyond the version of the token is not accepted any more. -/
lemma not_accepted_of_version_lt {t : Tokens} {reads : Reads} {late : Option Err}
    {bearer id digest : String} {r : TokenRecord} {u : User} (hr : db.tokens id = some r)
    (hu : db.users r.userID = some u) (hlt : r.authVersion < u.authVersion)
    (hsince : Since db reads) (hbearer : t.parseAPIToken bearer = some (id, digest))
    (q : Principal) : t.authenticateToken reads late bearer ≠ .ok q := by
  intro h
  obtain ⟨first, seen, found, account, accepted⟩ := Tokens.authenticateToken_ok hbearer h
  obtain ⟨r', hr', hfollows⟩ :=
    (later_of_reaches (hsince 0 first accepted.reading)).tokens id r hr
  obtain rfl := Option.some.inj (accepted.row.symm.trans hr')
  obtain ⟨n, hn⟩ := accepted.seenReading
  obtain ⟨u', hu', hle⟩ := (later_of_reaches (hsince n seen hn)).users _ _ hu
  have howner : found.userID = r.userID := by rw [hfollows.same]
  have hversion : found.authVersion = r.authVersion := by rw [hfollows.same]
  have haccount := accepted.account
  rw [howner, hu', Option.some.injEq] at haccount
  subst haccount
  have hequal := accepted.version
  omega

/-- A token whose account has gone on is over for good. -/
lemma not_accepted {t : Tokens} {issued : Db} {reads : Reads} {late : Option Err}
    {bearer id digest : String} {record : TokenRecord} {user : User}
    (hrow : issued.tokens id = some record) (huser : issued.users record.userID = some user)
    (hversion : record.authVersion = user.authVersion) (hreaches : Reaches issued db)
    (hover : Over db id) (hsince : Since db reads)
    (hbearer : t.parseAPIToken bearer = some (id, digest)) (q : Principal) :
    t.authenticateToken reads late bearer ≠ .ok q := by
  intro h
  obtain ⟨first, seen, found, account, accepted⟩ := Tokens.authenticateToken_ok hbearer h
  obtain ⟨r, hr, hcause⟩ := hover
  have hlater := later_of_reaches (hsince 0 first accepted.reading)
  obtain ⟨r', hr', hfollows⟩ := hlater.tokens id r hr
  obtain rfl := Option.some.inj (accepted.row.symm.trans hr')
  rcases hcause with hrevoked | hexpired | ⟨u, hu, hchanged⟩
  · have hstill := hfollows.revoked hrevoked
    rw [accepted.valid] at hstill
    cases hstill
  · have hexpires : found.expiresAt = r.expiresAt := by rw [hfollows.same]
    have hnow := hlater.now
    have hunexpired := accepted.unexpired
    omega
  · -- The version was that of the token at issue and can only have grown since.
    have hbefore := later_of_reaches hreaches
    obtain ⟨r₀, hr₀, hfollows₀⟩ := hbefore.tokens id record hrow
    obtain rfl := Option.some.inj (hr.symm.trans hr₀)
    have howner₀ : r.userID = record.userID := by rw [hfollows₀.same]
    have hversion₀ : r.authVersion = record.authVersion := by rw [hfollows₀.same]
    obtain ⟨u', hu', hle⟩ := hbefore.users _ _ huser
    rw [← howner₀, hu, Option.some.injEq] at hu'
    subst hu'
    exact not_accepted_of_version_lt hr hu (by omega) hsince hbearer q h

/-- **Token authority only narrows.** Along every chain of principals a ceiling stays, shrinks and
belongs to one user; for the same state of the account `ModelPolicy`, and `ConstrainPolicy` of a
policy that does not give more to a smaller ceiling, allow a later principal nothing that they
refuse to an earlier constrained one; and a token that is over is refused from then on. -/
theorem authority_narrows :
    (∀ p q, Relation.ReflTransGen Derived p q → Narrows p q ∧
      ∀ ceiling, p.tokenScopes = some ceiling → SameAccount p q → ∀ lower ctx action r,
        (∀ m : ModelPolicy, m.authorize lower ctx q action r = none →
          m.authorize lower ctx p action r = none) ∧
        ∀ policy : Policy, policy.Monotone →
          constrainPolicy lower (some policy) ctx q action r = none →
          constrainPolicy lower (some policy) ctx p action r = none) ∧
    ∀ (t t' : Tokens) fate ctx inTransaction userID scopes (fresh : Tokens.Fresh) db,
      let run := (t.issue fate ctx inTransaction userID scopes (.ok fresh) db).2
      run.ending.durable = true → ∀ db', Reaches run.db db' → Over db' fresh.id →
        ∀ reads, Since db' reads → ∀ late bearer digest,
          t'.parseAPIToken bearer = some (fresh.id, digest) →
          ∀ q, t'.authenticateToken reads late bearer ≠ .ok q := by
  constructor
  · intro p q hchain
    have hnarrows := narrows_of_chain hchain
    refine ⟨hnarrows, ?_⟩
    intro ceiling hceiling hsame lower ctx action r
    constructor
    · intro m hq
      exact m.authorize_of_narrows hnarrows hceiling hsame hq
    · intro policy hpolicy hq
      exact constrainPolicy_of_narrows hpolicy hnarrows hceiling hsame hq
  · intro t t' fate ctx inTransaction userID scopes fresh db run hdurable db' hreaches hover reads
      hsince late bearer digest hbearer q
    obtain ⟨f, values, record, user, hf, -, hrow, huser, howner, -, hversion⟩ :=
      Tokens.issue_durable hdurable
    cases hf
    exact not_accepted hrow (howner ▸ huser) hversion hreaches hover hsince hbearer q

/-! ## Samples -/

/-- A service whose policy allows everything and whose hooks do nothing. -/
def sampleTokens : Tokens where
  validID _ := true
  validUUID _ := true
  lower s := s
  parseAPIToken s := if s = "bearer" then some ("token", "digest") else none
  ttl := 10
  authorize := some fun _ _ => pure ()
  beforeSave _ record := pure record
  afterSave _ record := pure record
  query _ := none

/-- An account under a ceiling of three scopes, with which it may issue tokens. -/
def writer : Principal :=
  ⟨"reader", true, true, false, false, 3, ["blog.view_post"],
    some ["blog.add_post", "blog.view_post", "gogo_authtokens.add_APIToken"]⟩

/-- The same account under a ceiling of one of them. -/
def viewer : Principal := { writer with tokenScopes := some ["blog.view_post"] }

/-- The run of an `Issue` for the account, by an actor if there is one. -/
def issuedBy (actor : Option Principal) : Run Db :=
  (sampleTokens.issue sampleFate ⟨none, none, actor⟩ false "reader" ["blog.view_post"]
    (.ok ⟨"token", "bearer", "digest"⟩) sampleDb).2

/-- The run of an `Issue` without an actor. -/
def sampleIssue : Run Db := issuedBy none

/-- The token authenticates at first and no more once it has expired; and a token that was issued
with a constrained actor stays under the ceiling of that actor. -/
theorem sample_token_expires :
    (sampleTokens.authenticateToken (fun _ => .ok sampleIssue.db) none "bearer").toOption.isSome ∧
      (∀ q, sampleTokens.authenticateToken (fun _ => .ok { sampleIssue.db with now := 20 }) none
        "bearer" ≠ .ok q) ∧
      sampleTokens.authenticateToken (fun _ => .ok (issuedBy (some writer)).db) none "bearer" =
        .ok viewer ∧
      Narrows writer viewer := by
  have hdurable : sampleIssue.ending.durable = true := by decide +kernel
  have hstep : Step sampleIssue.db { sampleIssue.db with now := 20 } :=
    .account rfl ⟨fun _ r h => ⟨r, h, .refl r⟩, fun _ u h => ⟨u, h, le_rfl⟩, by decide +kernel⟩
  have hover : Over { sampleIssue.db with now := 20 } "token" := by
    refine ⟨⟨"token", "reader", "digest", 3, ["blog.view_post"], 1, 11, none⟩, ?_, ?_⟩
    · decide +kernel
    · right
      left
      decide
  have hviewer : sampleTokens.authenticateToken (fun _ => .ok (issuedBy (some writer)).db) none
      "bearer" = .ok viewer := rfl
  have hderived : Derived writer viewer :=
    @Derived.token _ _ sampleTokens sampleTokens sampleFate ⟨none, none, some writer⟩ false "reader"
      ["blog.view_post"] ⟨"token", "bearer", "digest"⟩ sampleDb _ none "bearer" "digest" rfl
      (by decide +kernel) (fun n db' hread => by cases hread; exact .refl) rfl hviewer
  refine ⟨by decide +kernel, ?_, hviewer,
    (authority_narrows.1 writer viewer (.single hderived)).1⟩
  exact authority_narrows.2 sampleTokens sampleTokens sampleFate ⟨none, none, none⟩ false "reader"
    ["blog.view_post"] ⟨"token", "bearer", "digest"⟩ sampleDb hdurable _ (.single hstep) hover _
    (fun n db' hread => by cases hread; exact .refl) none "bearer" "digest" rfl

/-- A policy that allows what it is asked to principals with a single scope. -/
def countingPolicy : Policy := fun _ p _ _ =>
  match p.tokenScopes with
  | some [_] => none
  | _ => some (.named .permissionDenied)

/-- Under `ConstrainPolicy` the narrower principal is allowed what the wider one is refused. -/
theorem counting_policy :
    Derived writer viewer ∧ SameAccount writer viewer ∧
      (constrainPolicy id (some countingPolicy) ⟨none, none, none⟩ viewer "view"
        ⟨"blog", "post", 0⟩).isNone = true ∧
      (constrainPolicy id (some countingPolicy) ⟨none, none, none⟩ writer "view"
        ⟨"blog", "post", 0⟩).isNone = false := by
  have hconstrain : constrainPrincipal writer ["blog.view_post"] = .ok viewer := by
    rfl
  exact ⟨.constrain hconstrain, rfl, by decide +kernel, by decide +kernel⟩

end Gogo.Auth

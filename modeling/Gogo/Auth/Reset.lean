import Gogo.Auth.Accounts

/-!
# Password resets

`Request` writes a reset token for the version that an account has; `Confirm` takes the token and
the account in one transaction, changes the password with the version, and marks the token as used.
Policies, validators and hooks run in between and may change accounts themselves.

* `PasswordReset` — the service with its callbacks.
* `PasswordReset.confirm`, `PasswordReset.prepare`, `PasswordReset.requestBody` — as in the source;
  `Request` reads the account before its transaction.
* `PasswordReset.confirmBody_ok` — what a `Confirm` that comes to its commit has done.
* `PasswordReset.requestBody_ok` — the same for `Request`.
-/

namespace Gogo.Auth

open Gogo.Lib

/-- `PasswordReset` with its accounts, hooks and backend. A cancelled context is an error of the
callback or query at which it is noticed. `lookup` is the filter by normalized identifier. -/
structure PasswordReset where
  lower : String → String
  parseResetToken : String → Option (String × String)
  identifier : String → Except Err String
  lookup : String → Db → Option (String × User)
  usable : String → Bool
  recipient : Principal → Option String
  validRecipient : String → Bool
  authorize : Option (String → Session Db Err Unit)
  validate : String → Principal → Session Db Err Unit
  hashPassword : String → Except Err String
  beforeUser : User → Session Db Err User
  afterUser : User → Session Db Err User
  beforeReset : ResetRecord → Session Db Err ResetRecord
  afterReset : ResetRecord → Session Db Err ResetRecord
  query : ℕ → Option Err

/-- The columns that `saveUser` compares. -/
def User.same (u u' : User) : Bool :=
  u.identifier == u'.identifier && u.sameStanding u'

namespace PasswordReset

variable (p : PasswordReset)

/-- A query reaches the backend. -/
def reach (k : ℕ) : Session Db Err Unit :=
  .lift (match p.query k with
    | none => .ok ()
    | some e => .error e)

/-- The reset token of an identifier; `missing` is the error when there is none. -/
def getReset (k : ℕ) (id : String) (missing : Named) : Session Db Err ResetRecord := do
  p.reach k
  let db ← Session.read
  Session.lift (present (db.resets id) missing)

/-- The account of an identifier. -/
def getUser (k : ℕ) (id : String) (missing : Named) : Session Db Err User := do
  p.reach k
  let db ← Session.read
  Session.lift (present (db.users id) missing)

/-- `snapshot` in a transaction. -/
def snapshotNow (k : ℕ) (id : String) : Session Db Err Principal := do
  let db ← Session.read
  let (_, _, principal) ← Session.lift (snapshot (fun n =>
    match p.query (k + n) with
    | none => .ok db
    | some e => .error e) (byId id))
  return principal

/-- `Accounts.permit` for `reset_password`. -/
def permit (actor : Principal) (userID : String) : Session Db Err Unit :=
  match p.authorize with
  | none => .fail (.named .permissionDenied)
  | some authorize => do
    Session.lift (refuseIf (actor.tokenScopes.isSome ∧
      (actor.authenticated = false ∨ actor.active = false)) (.named .unauthenticated))
    Session.lift (match checkTokenScope p.lower actor "change" ⟨"gogo_auth", "User", 0⟩ with
      | none => .ok ()
      | some e => .error e)
    authorize userID

/-- `Accounts.hash`. -/
def hash (password : String) (principal : Principal) : Session Db Err String := fun db =>
  match p.validate password principal db with
  | (.error e, db) => (.error (.wrapped [e]), db)
  | (.ok (), db) => (p.hashPassword password, db)

/-- `bumpVersion`. -/
def bumpVersion (user : User) : Except Err User :=
  if user.authVersion < 1 ∨ user.authVersion = 2 ^ 63 - 1 then .error (.named (.other 0))
  else .ok { user with authVersion := user.authVersion + 1 }

/-- `resetStillValid`. -/
def resetStillValid (k : ℕ) (want : ResetRecord) : Session Db Err Unit := do
  let current ← p.getReset k want.id .notFound
  let db ← Session.read
  Session.lift (refuseIf (current.userID ≠ want.userID ∨ current.authVersion ≠ want.authVersion ∨
    current.secretDigest ≠ want.secretDigest ∨ current.usedAt.isSome ∨
    current.expiresAt ≠ want.expiresAt ∨ current.expiresAt ≤ db.now) (.named .resetToken))

/-- The account is active at a version and with a hash. -/
def userStands (k : ℕ) (id : String) (version : ℕ) (hash : String) : Session Db Err Unit := do
  let user ← p.getUser k id .notFound
  Session.lift (refuseIf (user.active = false ∨ user.authVersion ≠ version ∨
    user.storedHash ≠ hash) (.named .resetToken))

/-- `UPDATE` of the password and the version of an account. -/
def updateUser (k : ℕ) (id : String) (user : User) : Session Db Err Unit := do
  let row ← p.getUser k id .notFound
  let written : User :=
    { row with passwordHash := user.passwordHash, authVersion := user.authVersion }
  Session.update fun db => { db with users := Function.update db.users id (some written) }

/-- `saveUser` for a change of the version: `guard` is the guard of the caller. -/
def saveUser (id : String) (user : User) (guard : Session Db Err Unit) : Session Db Err Unit := do
  let previous ← p.getUser 20 id .accountChanged
  Session.lift (refuseIf (previous.authVersion + 1 ≠ user.authVersion) (.named .accountChanged))
  let hooked ← p.beforeUser user
  guard
  Session.lift (refuseIf (user.same hooked = false) (.named .permissionDenied))
  let current ← p.getUser 21 id .accountChanged
  Session.lift (refuseIf (current.same previous = false) (.named .accountChanged))
  p.updateUser 22 id hooked
  let hooked ← p.afterUser hooked
  Session.lift (refuseIf (user.same hooked = false) (.named .permissionDenied))
  let persisted ← p.getUser 23 id .permissionDenied
  Session.lift (refuseIf (persisted.same user = false) (.named .permissionDenied))

/-- `INSERT` of a reset token. -/
def insertReset (k : ℕ) (record : ResetRecord) : Session Db Err Unit := do
  p.reach k
  let db ← Session.read
  Session.lift (refuseIf (db.resets record.id).isSome (.database .uniqueViolation []))
  Session.update fun db => { db with resets := Function.update db.resets record.id (some record) }

/-- `UPDATE` of the one column `used_at`. -/
def updateUsed (k : ℕ) (record : ResetRecord) : Session Db Err Unit := do
  let row ← p.getReset k record.id .notFound
  let written : ResetRecord := { row with usedAt := record.usedAt }
  Session.update fun db => { db with resets := Function.update db.resets record.id (some written) }

/-- The part of the guard of `saveReset` that only an update has. -/
def updateGuard (insert : Bool) (k : ℕ) (record : ResetRecord) : Session Db Err Unit :=
  if insert then pure () else p.resetStillValid k record

/-- The write of `saveReset`. -/
def writeReset (insert : Bool) (k : ℕ) (record : ResetRecord) : Session Db Err Unit :=
  if insert then p.insertReset k record else p.updateUsed k record

/-- `saveReset`. -/
def saveReset (record : ResetRecord) (insert : Bool) (userVersion : ℕ) (userHash : String) :
    Session Db Err Unit := do
  let hooked ← p.beforeReset record
  Session.lift (refuseIf (hooked ≠ record) (.named .resetToken))
  p.userStands 30 record.userID userVersion userHash
  p.updateGuard insert 31 record
  p.writeReset insert 32 hooked
  let _ ← p.afterReset hooked
  let stored ← p.getReset 33 record.id .notFound
  Session.lift (refuseIf (stored ≠ record) (.named .resetToken))
  p.userStands 34 record.userID userVersion userHash

/-! ## Confirm -/

/-- The guard that `Confirm` gives to `saveUser`. -/
def confirmGuard (token : ResetRecord) (previous : String) : Session Db Err Unit := do
  p.userStands 40 token.userID token.authVersion previous
  p.resetStillValid 41 token

/-- The function of the transaction of `Confirm` once it holds both rows: policy, validators, and
the two writes. -/
def confirmWrite (actor : Principal) (password : String) (token : ResetRecord) (user : User) :
    Session Db Err Unit := do
  p.permit actor token.userID
  let principal ← p.snapshotNow 2 token.userID
  Session.lift (refuseIf (principal.active = false ∨ principal.authVersion ≠ token.authVersion)
    (.named .resetToken))
  let hash ← p.hash password principal
  let bumped ← Session.lift (bumpVersion user)
  p.saveUser token.userID { bumped with passwordHash := some hash }
    (p.confirmGuard token user.storedHash)
  let db ← Session.read
  p.saveReset { token with usedAt := some db.now } false bumped.authVersion hash

/-- The function of the transaction of `Confirm`: it locks the token, then the account. -/
def confirmBody (actor : Principal) (id digest password : String) : Session Db Err Unit := do
  let token ← p.getReset 0 id .resetToken
  let db ← Session.read
  Session.lift (refuseIf (token.secretDigest ≠ digest ∨ token.usedAt.isSome ∨
    token.expiresAt ≤ db.now) (.named .resetToken))
  let user ← p.getUser 1 token.userID .resetToken
  Session.lift (refuseIf (user.active = false ∨ user.authVersion ≠ token.authVersion ∨
    p.usable user.storedHash = false) (.named .resetToken))
  p.confirmWrite actor password token user

/-- The checks of `Confirm` before its transaction. -/
def confirmToken (inTransaction : Bool) (bearer password : String) :
    Except Err (String × String) := do
  let token ← present (p.parseResetToken bearer) .resetToken
  refuseIf (password = "" ∨ 4096 < password.utf8ByteSize) (.named .passwordValidation)
  refuseIf (inTransaction = true) (.named .ownedCommit)
  return token

/-- `Confirm`, with the transaction it ran. -/
def confirm (fate : Fate) (ctx : Context) (inTransaction : Bool) (bearer password : String)
    (db : Db) : MutationState × Run Db :=
  match p.confirmToken inTransaction bearer password with
  | .error e => (.unchanged, ⟨some e, none, .rolledBack, db⟩)
  | .ok (id, digest) =>
    let run := owned fate (p.confirmBody (fromContext ctx) id digest password) db
    (mutationState run.err, run)

/-! ## Request -/

/-- What `request` reports before its transaction. -/
inductive Acknowledgement
  | acknowledged
  | lookupUnavailable
  | recipientUnavailable
  | storageUnavailable
  deriving DecidableEq

/-- What `request` knows when it begins its transaction: the token to be written, and the version
and the hash that the account had. -/
structure Prepared where
  record : ResetRecord
  hash : String

/-- `request` up to its transaction; `fresh` is what `newResetToken` returns. -/
def prepare (inTransaction : Bool) (identifier : String) (reads : Reads)
    (fresh : Except Err (String × String)) (now : ℕ) : Except Acknowledgement Prepared := do
  refuseIf (inTransaction = true) .storageUnavailable
  refuseIf (512 < identifier.utf8ByteSize) .acknowledged
  let normalized ← (p.identifier identifier).mapError fun _ => .acknowledged
  let (userID, user, principal) ← (snapshot reads (p.lookup normalized)).mapError fun e =>
    match e with
    | .named .unauthenticated => .acknowledged
    | _ => .lookupUnavailable
  refuseIf (user.active = false ∨ p.usable user.storedHash = false) .acknowledged
  match p.recipient principal with
  | none => .error .acknowledged
  | some recipient => do
    refuseIf (recipient = "") .acknowledged
    refuseIf (p.validRecipient recipient = false) .recipientUnavailable
    let (id, digest) ← fresh.mapError fun _ => .storageUnavailable
    return ⟨⟨id, userID, digest, user.authVersion, now, now + 3600000000, none⟩, user.storedHash⟩

/-- The function of the transaction of `request`: it locks the account. -/
def requestBody (prepared : Prepared) : Session Db Err Unit := do
  let current ← p.getUser 0 prepared.record.userID .notFound
  Session.lift (refuseIf (current.active = false ∨
    current.authVersion ≠ prepared.record.authVersion ∨ current.storedHash ≠ prepared.hash)
    (.named .accountChanged))
  p.saveReset prepared.record true prepared.record.authVersion prepared.hash

/-! ## What is left behind -/

variable {p}

variable {k version : ℕ} {db db' : Db} {u : Unit} {id hash : String} {missing : Named}
  {prepared : Prepared}

lemma reach_ok (h : p.reach k db = (.ok u, db')) : db' = db :=
  (Session.lift_eq_ok.mp h).2

lemma getReset_ok {r : ResetRecord} (h : p.getReset k id missing db = (.ok r, db')) :
    db' = db ∧ db.resets id = some r := by
  simp only [getReset, Session.bind_eq_ok, Session.read_eq_ok, Session.lift_eq_ok,
    present_eq_ok] at h
  obtain ⟨_, m, hreach, _, _, ⟨rfl, rfl⟩, hrow, rfl⟩ := h
  obtain rfl := reach_ok hreach
  exact ⟨rfl, hrow⟩

lemma getUser_ok {u : User} (h : p.getUser k id missing db = (.ok u, db')) :
    db' = db ∧ db.users id = some u := by
  simp only [getUser, Session.bind_eq_ok, Session.read_eq_ok, Session.lift_eq_ok,
    present_eq_ok] at h
  obtain ⟨_, m, hreach, _, _, ⟨rfl, rfl⟩, hrow, rfl⟩ := h
  obtain rfl := reach_ok hreach
  exact ⟨rfl, hrow⟩

lemma userStands_ok (h : p.userStands k id version hash db = (.ok u, db')) :
    db' = db ∧ ∃ user, db.users id = some user ∧ user.authVersion = version := by
  simp only [userStands, Session.bind_eq_ok, Session.lift_eq_ok, refuseIf_eq_ok, not_or,
    not_not] at h
  obtain ⟨user, m, hget, ⟨-, hversion, -⟩, rfl⟩ := h
  obtain ⟨rfl, huser⟩ := getUser_ok hget
  exact ⟨rfl, user, huser, hversion⟩

/-- A reset token that was saved is there as it was given, and the account stands. -/
lemma saveReset_ok {record : ResetRecord} {insert : Bool}
    (h : p.saveReset record insert version hash db = (.ok u, db')) :
    db'.resets record.id = some record ∧
      ∃ user, db'.users record.userID = some user ∧ user.authVersion = version := by
  simp only [saveReset, Session.bind_eq_ok, Session.lift_eq_ok, refuseIf_eq_ok, not_not] at h
  obtain ⟨_, _, -, _, _, -, _, _, -, _, _, -, _, _, -, _, _, -, stored, _, hget, _, _, ⟨rfl, rfl⟩,
    hstands⟩ := h
  obtain ⟨rfl, hstored⟩ := getReset_ok hget
  obtain ⟨rfl, huser⟩ := userStands_ok hstands
  exact ⟨hstored, huser⟩

/-- **A `Confirm` that comes to its commit found the token unused and of the version of the account;
it leaves the token used and the account one version on.** -/
theorem confirmBody_ok {actor : Principal} {digest password : String}
    (h : p.confirmBody actor id digest password db = (.ok u, db')) :
    ∃ token user user', db.resets id = some token ∧ token.usedAt = none ∧
      db.users token.userID = some user ∧ user.authVersion = token.authVersion ∧
      (∃ used, db'.resets token.id = some { token with usedAt := some used }) ∧
      db'.users token.userID = some user' ∧ user'.authVersion = token.authVersion + 1 := by
  simp only [confirmBody, confirmWrite, Session.bind_eq_ok, Session.read_eq_ok, Session.lift_eq_ok,
    refuseIf_eq_ok, not_or, not_not, bumpVersion] at h
  obtain ⟨token, m, htoken, _, _, ⟨rfl, rfl⟩, _, _, ⟨⟨-, hunused, -⟩, rfl⟩, user, _, huser, _, _,
    ⟨⟨-, hversion, -⟩, rfl⟩, _, _, -, _, _, -, _, _, -, _, _, -, bumped, _, ⟨hbump, rfl⟩, _, _, -,
    now, _, ⟨rfl, rfl⟩, hsave⟩ := h
  obtain ⟨rfl, hrow⟩ := getReset_ok htoken
  obtain ⟨rfl, haccount⟩ := getUser_ok huser
  obtain ⟨hstored, user', huser', hversion'⟩ := saveReset_ok hsave
  have hbumped : bumped.authVersion = user.authVersion + 1 := by
    split_ifs at hbump
    rw [← Except.ok.inj hbump]
  refine ⟨token, user, user', hrow, by simpa using hunused, haccount, hversion, ⟨_, hstored⟩,
    huser', ?_⟩
  rw [hversion', hbumped, hversion]

/-- **A `Request` that comes to its commit leaves its token, at the version of the account.** -/
theorem requestBody_ok (h : p.requestBody prepared db = (.ok u, db')) :
    db'.resets prepared.record.id = some prepared.record ∧
      ∃ user, db'.users prepared.record.userID = some user ∧
        user.authVersion = prepared.record.authVersion := by
  simp only [requestBody, Session.bind_eq_ok] at h
  obtain ⟨_, _, -, _, _, -, hsave⟩ := h
  exact saveReset_ok hsave

lemma prepare_ok {inTransaction : Bool} {identifier : String} {reads : Reads}
    {fresh : Except Err (String × String)} {now : ℕ}
    (h : p.prepare inTransaction identifier reads fresh now = .ok prepared) :
    prepared.record.usedAt = none := by
  simp only [prepare, bind_eq_ok] at h
  obtain ⟨_, -, _, -, _, -, ⟨userID, user, principal⟩, -, _, -, h⟩ := h
  split at h
  · cases h
  · simp only [bind_eq_ok] at h
    obtain ⟨_, -, _, -, ⟨id, digest⟩, -, h⟩ := h
    rw [← Except.ok.inj h]

/-! ## What is left alone -/

/-- Accounts only go on, and reset tokens stay as they are. -/
structure UsersOnly (db db' : Db) : Prop where
  resets : db'.resets = db.resets
  users : ∀ id u, db.users id = some u →
    ∃ u', db'.users id = some u' ∧ u.authVersion ≤ u'.authVersion
  now : db.now ≤ db'.now

/-- Accounts only go on, and all reset tokens but one stay as they are. -/
structure OneReset (id : String) (db db' : Db) : Prop where
  resets : ∀ id', id' ≠ id → db'.resets id' = db.resets id'
  users : ∀ id u, db.users id = some u →
    ∃ u', db'.users id = some u' ∧ u.authVersion ≤ u'.authVersion
  now : db.now ≤ db'.now

lemma UsersOnly.oneReset (h : UsersOnly db db') (id : String) : OneReset id db db' :=
  ⟨fun id' _ => congrFun h.resets id', h.users, h.now⟩

lemma OneReset.refl {id : String} (db : Db) : OneReset id db db :=
  ⟨fun _ _ => rfl, fun _ u h => ⟨u, h, le_rfl⟩, le_rfl⟩

lemma OneReset.trans {a b c : Db} (h : OneReset id a b) (h' : OneReset id b c) :
    OneReset id a c := by
  refine ⟨fun id' hne => (h'.resets id' hne).trans (h.resets id' hne), ?_, h.now.trans h'.now⟩
  intro uid u hu
  obtain ⟨u', hu', hle⟩ := h.users uid u hu
  obtain ⟨u'', hu'', hle'⟩ := h'.users uid u' hu'
  exact ⟨u'', hu'', hle.trans hle'⟩

instance : IsPreorder Db (OneReset id) where
  refl := .refl
  trans _ _ _ := .trans

/-- The callbacks only work on accounts, as operations that advance their versions do. -/
structure Respectful (p : PasswordReset) : Prop where
  authorize : ∀ f, p.authorize = some f → ∀ id, (f id).Moves UsersOnly
  validate : ∀ password principal, (p.validate password principal).Moves UsersOnly
  beforeUser : ∀ user, (p.beforeUser user).Moves UsersOnly
  afterUser : ∀ user, (p.afterUser user).Moves UsersOnly
  beforeReset : ∀ record, (p.beforeReset record).Moves UsersOnly
  afterReset : ∀ record, (p.afterReset record).Moves UsersOnly

section

open Session (moves_lift moves_pure moves_read moves_fail move_bind)

variable {rid : String}

variable {α : Type} {id : String} {user : User} {db db' : Db} {u : Unit} {prepared : Prepared}

lemma moves_getReset (k : ℕ) (id : String) (missing : Named) :
    (p.getReset k id missing).Moves (OneReset rid) :=
  .bind (moves_lift _) fun _ => .bind moves_read fun _ => moves_lift _

lemma moves_getUser (k : ℕ) (id : String) (missing : Named) :
    (p.getUser k id missing).Moves (OneReset rid) :=
  .bind (moves_lift _) fun _ => .bind moves_read fun _ => moves_lift _

lemma moves_userStands (k : ℕ) (id : String) (version : ℕ) (hash : String) :
    (p.userStands k id version hash).Moves (OneReset rid) :=
  .bind (moves_getUser _ _ _) fun _ => moves_lift _

lemma moves_resetStillValid (k : ℕ) (want : ResetRecord) :
    (p.resetStillValid k want).Moves (OneReset rid) :=
  .bind (moves_getReset _ _ _) fun _ =>
    .bind moves_read fun _ => moves_lift _

lemma moves_of_usersOnly {x : Session Db Err α} (h : x.Moves UsersOnly) :
    x.Moves (OneReset rid) := fun db => (h db).oneReset rid

/-- Writing an account at no lower version. -/
lemma oneReset_updateUser {k : ℕ} {row : User} (hrow : db.users id = some row)
    (hle : row.authVersion ≤ user.authVersion) : OneReset rid db (p.updateUser k id user db).2 := by
  refine move_bind (moves_getUser _ _ _ db) ?_
  intro found m hfound
  obtain ⟨rfl, hfound⟩ := getUser_ok hfound
  obtain rfl := Option.some.inj (hrow.symm.trans hfound)
  refine ⟨fun _ _ => rfl, ?_, le_rfl⟩
  intro uid u hu
  by_cases heq : uid = id
  · subst heq
    obtain rfl := Option.some.inj (hrow.symm.trans hu)
    exact ⟨_, Function.update_self .., hle⟩
  · exact ⟨u, (Function.update_of_ne heq ..).trans hu, le_rfl⟩

lemma moves_writeReset (insert : Bool) (k : ℕ) (record : ResetRecord) :
    (p.writeReset insert k record).Moves (OneReset record.id) := by
  have hset (r : ResetRecord) : (Session.update fun db =>
      { db with resets := Function.update db.resets record.id (some r) } :
      Session Db Err Unit).Moves (OneReset record.id) := by
    intro db
    exact ⟨fun id' hne => Function.update_of_ne hne .., fun _ u h => ⟨u, h, le_rfl⟩, le_rfl⟩
  cases insert with
  | true =>
    refine .bind (moves_lift _) fun _ => ?_
    refine .bind moves_read fun _ => ?_
    exact .bind (moves_lift _) fun _ => hset record
  | false => exact .bind (moves_getReset _ _ _) fun _ => hset _

variable (hp : p.Respectful)
include hp

lemma moves_saveUser {guard : Session Db Err Unit} (hguard : guard.Moves (OneReset rid)) :
    (p.saveUser id user guard).Moves (OneReset rid) := by
  refine .bind (moves_getUser _ _ _) fun previous => ?_
  refine .bind_of (moves_lift _) fun _ _ m hnext => ?_
  have hnext := refuseIf_eq_ok.mp (Session.lift_eq_ok.mp hnext).1
  refine move_bind (moves_of_usersOnly (hp.beforeUser user) m) ?_
  intro hooked m₁ _
  refine move_bind (hguard m₁) ?_
  intro _ m₂ _
  refine move_bind (moves_lift _ m₂) ?_
  intro _ m₃ hpassed
  have hsame := refuseIf_eq_ok.mp (Session.lift_eq_ok.mp hpassed).1
  refine move_bind (moves_getUser _ _ _ m₃) ?_
  intro current m₄ hcurrent
  obtain ⟨rfl, hrow⟩ := getUser_ok hcurrent
  refine move_bind (moves_lift _ m₄) ?_
  intro _ m₅ hpassed'
  have hstill := refuseIf_eq_ok.mp (Session.lift_eq_ok.mp hpassed').1
  obtain rfl := (Session.lift_eq_ok.mp hpassed').2
  -- The row is still the one before, so the write takes it one version on.
  have hle : current.authVersion ≤ hooked.authVersion := by
    simp only [User.same, User.sameStanding, Bool.not_eq_false, Bool.and_eq_true,
      beq_iff_eq] at hsame hstill
    omega
  refine move_bind (oneReset_updateUser hrow hle) ?_
  intro _ m₆ _
  refine move_bind (moves_of_usersOnly (hp.afterUser hooked) m₆) ?_
  intro _ m₇ _
  refine move_bind (moves_lift _ m₇) ?_
  intro _ m₈ _
  refine move_bind (moves_getUser _ _ _ m₈) ?_
  intro _ m₉ _
  exact moves_lift _ m₉

lemma moves_saveReset (record : ResetRecord) (insert : Bool) (version : ℕ) (hash : String) :
    (p.saveReset record insert version hash).Moves (OneReset record.id) := by
  refine .bind (moves_of_usersOnly (hp.beforeReset record)) fun hooked => ?_
  refine .bind_of (moves_lift _) fun _ _ m hsame => ?_
  have hsame := refuseIf_eq_ok.mp (Session.lift_eq_ok.mp hsame).1
  rw [not_not] at hsame
  subst hsame
  have hguard : (p.updateGuard insert 31 hooked).Moves (OneReset hooked.id) := by
    cases insert with
    | true => exact moves_pure _
    | false => exact moves_resetStillValid _ _
  suffices hrest : Session.Moves (OneReset hooked.id) (do
      p.userStands 30 hooked.userID version hash
      p.updateGuard insert 31 hooked
      p.writeReset insert 32 hooked
      let _ ← p.afterReset hooked
      let stored ← p.getReset 33 hooked.id .notFound
      Session.lift (refuseIf (stored ≠ hooked) (.named .resetToken))
      p.userStands 34 hooked.userID version hash) from hrest m
  refine .bind (moves_userStands _ _ _ _) fun _ => ?_
  refine .bind hguard fun _ => ?_
  refine .bind (moves_writeReset _ _ _) fun _ => ?_
  refine .bind (moves_of_usersOnly (hp.afterReset hooked)) fun _ => ?_
  refine .bind (moves_getReset _ _ _) fun _ => ?_
  exact .bind (moves_lift _) fun _ => moves_userStands _ _ _ _

lemma moves_confirmWrite (actor : Principal) (password : String) (token : ResetRecord)
    (user : User) : (p.confirmWrite actor password token user).Moves (OneReset token.id) := by
  have hpermit : (p.permit actor token.userID).Moves (OneReset token.id) := by
    unfold permit
    split
    · exact moves_fail _
    · rename_i f hf
      refine .bind (moves_lift _) fun _ => ?_
      refine .bind (moves_lift _) fun _ => ?_
      exact moves_of_usersOnly (hp.authorize f hf _)
  have hsnapshot : (p.snapshotNow 2 token.userID).Moves (OneReset token.id) :=
    .bind moves_read fun _ =>
      .bind (moves_lift _) fun _ => moves_pure _
  have hhash (principal : Principal) : (p.hash password principal).Moves (OneReset token.id) := by
    intro db
    have hvalidate := (hp.validate password principal db).oneReset token.id
    unfold hash
    split
    · rename_i hresult
      rw [hresult] at hvalidate
      exact hvalidate
    · rename_i hresult
      rw [hresult] at hvalidate
      exact hvalidate
  have hguard (previous : String) :
      (p.confirmGuard token previous).Moves (OneReset token.id) :=
    .bind (moves_userStands _ _ _ _) fun _ => moves_resetStillValid _ _
  refine .bind hpermit fun _ => ?_
  refine .bind hsnapshot fun _ => ?_
  refine .bind (moves_lift _) fun _ => ?_
  refine .bind (hhash _) fun _ => ?_
  refine .bind (moves_lift _) fun _ => ?_
  refine .bind (moves_saveUser hp (hguard _)) fun _ => ?_
  refine .bind moves_read fun now => ?_
  exact moves_saveReset hp { token with usedAt := some now.now } _ _ _

/-- **A `Confirm` that comes to its commit leaves all other reset tokens alone.** -/
theorem oneReset_confirmBody {actor : Principal} {digest password : String}
    (hkey : ∀ token, db.resets id = some token → token.id = id)
    (h : p.confirmBody actor id digest password db = (.ok u, db')) : OneReset id db db' := by
  simp only [confirmBody, Session.bind_eq_ok, Session.read_eq_ok, Session.lift_eq_ok] at h
  obtain ⟨token, m, htoken, _, _, ⟨rfl, rfl⟩, _, _, ⟨-, rfl⟩, user, _, huser, _, _, ⟨-, rfl⟩,
    hwrite⟩ := h
  obtain ⟨rfl, hrow⟩ := getReset_ok htoken
  obtain ⟨rfl, -⟩ := getUser_ok huser
  rw [← hkey token hrow]
  exact (moves_confirmWrite hp actor password token user).of_eq hwrite

/-- **A `Request` leaves all other reset tokens alone.** -/
theorem oneReset_requestBody (h : p.requestBody prepared db = (.ok u, db')) :
    OneReset prepared.record.id db db' := by
  have hmoves : (p.requestBody prepared).Moves (OneReset prepared.record.id) :=
    .bind (moves_getUser _ _ _) fun _ => .bind (moves_lift _)
      fun _ => moves_saveReset hp _ _ _ _
  exact hmoves.of_eq h

/-- **The token of a `Request` that comes to its commit was not there before.** -/
theorem requestBody_free (h : p.requestBody prepared db = (.ok u, db')) :
    db.resets prepared.record.id = none := by
  simp only [requestBody, saveReset, writeReset, updateGuard, insertReset, if_true,
    Session.bind_eq_ok, Session.pure_eq_ok, Session.read_eq_ok, Session.lift_eq_ok, refuseIf_eq_ok,
    not_not] at h
  obtain ⟨_, _, huser, _, _, ⟨-, rfl⟩, hooked, _, hbefore, _, _, ⟨rfl, rfl⟩, _, _, hstands, _, _,
    ⟨-, rfl⟩, _, _, ⟨_, _, hreach, _, _, ⟨rfl, rfl⟩, _, _, ⟨hfree, rfl⟩, -⟩, -⟩ := h
  obtain ⟨rfl, -⟩ := getUser_ok huser
  obtain ⟨rfl, -⟩ := userStands_ok hstands
  obtain rfl := reach_ok hreach
  rw [((hp.beforeReset _).of_eq hbefore).resets] at hfree
  simpa using hfree

end

end PasswordReset

end Gogo.Auth

import Gogo.Auth.Principals

/-!
# Accounts, tokens and what they may become

The rows that the operations on credentials work on, how a principal is read from an account, and
what may happen to the rows while no operation looks.

* `Db` — accounts with their grants, API tokens, reset tokens, and the clock.
* `snapshot`, `loadPrincipal` — as in the source; each reading may see another database.
* `Later` — what any number of operations may do to a database: tokens are only revoked, the
  version of an account never goes back, and time passes.
-/

namespace Gogo.Auth

open Gogo.Lib

/-- `User`; its identifier is the key of the table. -/
structure User where
  identifier : String
  passwordHash : Option String
  active : Bool
  staff : Bool
  superuser : Bool
  authVersion : ℕ
  deriving DecidableEq

/-- `storedHash`. -/
def User.storedHash (u : User) : String := u.passwordHash.getD ""

/-- `APITokenRecord`. -/
structure TokenRecord where
  id : String
  userID : String
  secretDigest : String
  authVersion : ℕ
  scopes : List String
  createdAt : ℕ
  expiresAt : ℕ
  revokedAt : Option ℕ
  deriving DecidableEq

/-- `PasswordResetRecord`. -/
structure ResetRecord where
  id : String
  userID : String
  secretDigest : String
  authVersion : ℕ
  createdAt : ℕ
  expiresAt : ℕ
  usedAt : Option ℕ
  deriving DecidableEq

/-- The tables, and the clock. The grants of an account are those that `permissions` collects, or
the error it stops with. -/
structure Db where
  users : String → Option User
  permissions : String → Except Err (List String)
  tokens : String → Option TokenRecord
  resets : String → Option ResetRecord
  now : ℕ

/-- One account with one grant. -/
def sampleDb : Db where
  users id := if id = "reader" then some ⟨"r", some "hash", true, false, false, 3⟩ else none
  permissions _ := .ok ["blog.view_post"]
  tokens _ := none
  resets _ := none
  now := 1

/-- Successive readings: each may fail, and each may see another database. -/
abbrev Reads := ℕ → Except Err Db

def User.principal (u : User) (id : String) (permissions : List String) : Principal where
  id := id
  authenticated := u.active
  active := u.active
  staff := u.staff
  superuser := u.superuser
  authVersion := u.authVersion
  permissions := permissions
  tokenScopes := none

/-- What must not change while a principal is read. -/
def User.sameStanding (u u' : User) : Bool :=
  u.authVersion == u'.authVersion && u.storedHash == u'.storedHash && u.active == u'.active &&
    u.staff == u'.staff && u.superuser == u'.superuser

/-- A row that has to be there. -/
def present {α : Type} (row : Option α) (name : Named) : Except Err α :=
  match row with
  | none => .error (.named name)
  | some row => .ok row

/-- The attempts of `snapshot`; `find` is its filter, and attempt number `k` begins with reading
`k`. -/
def snapshotFrom (reads : Reads) (find : Db → Option (String × User)) :
    ℕ → ℕ → Except Err (String × User × Principal)
  | 0, _ => .error (.named .contention)
  | attempts + 1, k => do
    let (id, user) ← present (find (← reads k)) .unauthenticated
    refuseIf (user.authVersion < 1) (.named .unauthenticated)
    let permissions ← (← reads (k + 1)).permissions id
    let current ← present ((← reads (k + 2)).users id) .unauthenticated
    if current.sameStanding user then .ok (id, user, user.principal id permissions)
    else snapshotFrom reads find attempts (k + 3)

/-- `snapshot`. -/
def snapshot (reads : Reads) (find : Db → Option (String × User)) :
    Except Err (String × User × Principal) := snapshotFrom reads find 3 0

/-- The filter by identifier of an account. -/
def byId (id : String) (db : Db) : Option (String × User) := (db.users id).map fun u => (id, u)

/-- `LoadPrincipal`. -/
def loadPrincipal (validID : String → Bool) (reads : Reads) (id : String) :
    Except Err Principal := do
  refuseIf (validID id = false) (.named .unauthenticated)
  let (_, _, principal) ← snapshot reads (byId id)
  return principal

/-! ## Reading a principal -/

lemma present_eq_ok {α : Type} {row : Option α} {name : Named} {a : α} :
    present row name = .ok a ↔ row = some a := by
  cases row <;> simp [present]

lemma snapshotFrom_ok {reads : Reads} {find : Db → Option (String × User)} {attempts k : ℕ}
    {id : String} {user : User} {principal : Principal}
    (h : snapshotFrom reads find attempts k = .ok (id, user, principal)) :
    ∃ n < k + 3 * attempts, ∃ db, reads n = .ok db ∧ find db = some (id, user) ∧
      1 ≤ user.authVersion ∧ ∃ permissions, principal = user.principal id permissions := by
  induction attempts generalizing k with
  | zero => cases h
  | succ attempts ih =>
    obtain ⟨db, hdb, h⟩ := bind_eq_ok.mp h
    obtain ⟨⟨id', user'⟩, hfind, h⟩ := bind_eq_ok.mp h
    obtain ⟨_, hversion, h⟩ := bind_eq_ok.mp h
    obtain ⟨db₁, -, h⟩ := bind_eq_ok.mp h
    obtain ⟨permissions, -, h⟩ := bind_eq_ok.mp h
    obtain ⟨db₂, -, h⟩ := bind_eq_ok.mp h
    obtain ⟨current, -, h⟩ := bind_eq_ok.mp h
    split_ifs at h with hsame
    · simp only [Except.ok.injEq, Prod.mk.injEq] at h
      obtain ⟨rfl, rfl, rfl⟩ := h
      refine ⟨k, by omega, db, hdb, present_eq_ok.mp hfind, ?_, permissions, rfl⟩
      simp only [refuseIf_eq_ok] at hversion
      omega
    · obtain ⟨n, hn, rest⟩ := ih h
      exact ⟨n, by omega, rest⟩

/-- A principal is that of an account as one of the readings saw it. -/
lemma loadPrincipal_ok {validID : String → Bool} {reads : Reads} {id : String}
    {principal : Principal} (h : loadPrincipal validID reads id = .ok principal) :
    ∃ n < 9, ∃ db user permissions, reads n = .ok db ∧ db.users id = some user ∧
      1 ≤ user.authVersion ∧ principal = user.principal id permissions := by
  obtain ⟨-, -, h⟩ := bind_eq_ok.mp h
  obtain ⟨⟨id', user, principal'⟩, hsnapshot, h⟩ := bind_eq_ok.mp h
  obtain rfl := Except.ok.inj h
  obtain ⟨n, hn, db, hdb, hfind, hversion, permissions, rfl⟩ := snapshotFrom_ok hsnapshot
  simp only [byId, Option.map_eq_some_iff, Prod.mk.injEq] at hfind
  obtain ⟨user', huser, rfl, rfl⟩ := hfind
  exact ⟨n, by omega, db, user', permissions, hdb, huser, hversion, rfl⟩

/-! ## Later databases -/

/-- A token after some time: the same one, and still revoked if it was. -/
structure TokenRecord.Follows (r' r : TokenRecord) : Prop where
  same : r' = { r with revokedAt := r'.revokedAt }
  revoked : r.revokedAt.isSome → r'.revokedAt.isSome

lemma TokenRecord.Follows.refl (r : TokenRecord) : r.Follows r :=
  ⟨rfl, fun h => h⟩

lemma TokenRecord.Follows.trans {r r' r'' : TokenRecord} (h : r'.Follows r) (h' : r''.Follows r') :
    r''.Follows r := by
  refine ⟨?_, fun hr => h'.revoked (h.revoked hr)⟩
  rw [h'.same, h.same]

/-- What operations make of a database: no token is gone or changed but by revoking it, the version
of an account never goes back, and neither does the clock. -/
structure Later (db db' : Db) : Prop where
  tokens : ∀ id r, db.tokens id = some r → ∃ r', db'.tokens id = some r' ∧ r'.Follows r
  users : ∀ id u, db.users id = some u →
    ∃ u', db'.users id = some u' ∧ u.authVersion ≤ u'.authVersion
  now : db.now ≤ db'.now

lemma Later.refl (db : Db) : Later db db :=
  ⟨fun _ r h => ⟨r, h, .refl r⟩, fun _ u h => ⟨u, h, le_rfl⟩, le_rfl⟩

lemma Later.trans {a b c : Db} (h : Later a b) (h' : Later b c) : Later a c := by
  refine ⟨?_, ?_, h.now.trans h'.now⟩
  · intro id r hr
    obtain ⟨r', hr', hfollows⟩ := h.tokens id r hr
    obtain ⟨r'', hr'', hfollows'⟩ := h'.tokens id r' hr'
    exact ⟨r'', hr'', hfollows.trans hfollows'⟩
  · intro id u hu
    obtain ⟨u', hu', hle⟩ := h.users id u hu
    obtain ⟨u'', hu'', hle'⟩ := h'.users id u' hu'
    exact ⟨u'', hu'', hle.trans hle'⟩

instance : IsPreorder Db Later where
  refl := .refl
  trans _ _ _ := .trans

end Gogo.Auth

import Gogo.Auth.Reset

/-!
# Interleaved password resets

Any number of `Request` and `Confirm` calls run at the same time, next to operations that advance
the versions of accounts. A call holds the rows it has locked until its transaction ends: `Confirm`
first the token and then the account, `Request` the account that it has read before. A transaction
writes a row only while no other call holds it.

* `Call`, `System`, `Step` — the calls under way and what may happen next.
* `Inv.held` — **a row that a call holds is the row that it has read**, so that the function of its
  transaction can be taken to run at its end.
* `Effect`, `Step.effect` — what a step may do to the database.
* `reset_tokens_single_use` — **a token changes at most one password, only at the version of the
  account that it was issued for, so that no token outlives a change; and a rejected `Confirm`
  changes nothing.**
-/

namespace Gogo.Auth.Resets

open Gogo.Lib PasswordReset

/-! ## Calls and their locks -/

/-- A row that can be locked. -/
inductive Row
  | reset (id : String)
  | user (id : String)
  deriving DecidableEq

/-- A call under way, with the rows it has read under a lock. -/
inductive Call
  /-- `Confirm` before its first lock. -/
  | confirming (id : String)
  /-- `Confirm` with the token. -/
  | tokenHeld (id : String) (token : ResetRecord)
  /-- `Confirm` with the token and the account. -/
  | bothHeld (id : String) (token : ResetRecord) (user : User)
  /-- `Request` after it has read the account without a lock. -/
  | requesting (prepared : Prepared)
  /-- `Request` with the account. -/
  | requestHeld (prepared : Prepared) (user : User)

/-- The token that a `Confirm` is about. -/
def Call.confirms : Call → Option String
  | .confirming id => some id
  | .tokenHeld id _ => some id
  | .bothHeld id _ _ => some id
  | _ => none

/-- The rows that a call holds. -/
def Call.Holds : Call → Row → Prop
  | .tokenHeld id _, row => row = .reset id
  | .bothHeld id token _, row => row = .reset id ∨ row = .user token.userID
  | .requestHeld prepared _, row => row = .user prepared.record.userID
  | _, _ => False

/-- The rows that a call has read are those of the database. -/
def Call.Reflects (db : Db) : Call → Prop
  | .confirming _ => True
  | .tokenHeld id token => db.resets id = some token
  | .bothHeld id token user => db.resets id = some token ∧ db.users token.userID = some user
  | .requesting prepared => prepared.record.usedAt = none
  | .requestHeld prepared user =>
    prepared.record.usedAt = none ∧ db.users prepared.record.userID = some user

/-- A row differs between two databases. -/
def Touches (db db' : Db) : Row → Prop
  | .reset id => db'.resets id ≠ db.resets id
  | .user id => db'.users id ≠ db.users id

/-- The database with the calls under way. -/
structure System where
  db : Db
  calls : ℕ → Option Call

/-- No other call holds a row. -/
def System.Free (s : System) (c : ℕ) (row : Row) : Prop :=
  ∀ c' call, c' ≠ c → s.calls c' = some call → ¬ call.Holds row

/-- A call goes on. -/
def System.set (s : System) (c : ℕ) (call : Option Call) : System :=
  { s with calls := Function.update s.calls c call }

/-! ## Steps -/

/-- What can be seen of a step: a token was issued for an account at a version, a token has changed
the password of an account, or a `Confirm` has ended without a commit. -/
inductive Event
  | issued (id userID : String) (version : ℕ)
  | changed (id userID : String)
  | rejected (id : String)
  | other
  deriving DecidableEq

/-- The event of a `Confirm` that ran its transaction. -/
def confirmEvent (id userID : String) (ending : Ending) : Event :=
  if ending.durable then .changed id userID else .rejected id

/-- The event of a `Request` that ran its transaction. -/
def requestEvent (record : ResetRecord) (ending : Ending) : Event :=
  if ending.durable then .issued record.id record.userID record.authVersion else .other

/-- One step of the system. -/
inductive Step : System → Event → System → Prop
  | confirmBegin {s : System} {c : ℕ} (id : String) (hnew : s.calls c = none) :
      Step s .other (s.set c (some (.confirming id)))
  | lockToken {s : System} {c : ℕ} {id : String} {token : ResetRecord}
      (hcall : s.calls c = some (.confirming id)) (hfree : s.Free c (.reset id))
      (hrow : s.db.resets id = some token) : Step s .other (s.set c (some (.tokenHeld id token)))
  | lockUser {s : System} {c : ℕ} {id : String} {token : ResetRecord} {user : User}
      (hcall : s.calls c = some (.tokenHeld id token)) (hfree : s.Free c (.user token.userID))
      (hrow : s.db.users token.userID = some user) :
      Step s .other (s.set c (some (.bothHeld id token user)))
  /-- The function of the transaction runs, and the transaction ends. -/
  | confirmDone {s : System} {c : ℕ} {id digest : String} {token : ResetRecord} {user : User}
      {p : PasswordReset} {fate : Fate} {ctx : Context} {inTransaction : Bool}
      {bearer password : String} {run : Run Db} (hp : p.Respectful)
      (hcall : s.calls c = some (.bothHeld id token user))
      (htoken : p.confirmToken inTransaction bearer password = .ok (id, digest))
      (hrun : (p.confirm fate ctx inTransaction bearer password s.db).2 = run)
      (hlocks : ∀ row, Touches s.db run.db row → s.Free c row) :
      Step s (confirmEvent id token.userID run.ending)
        { db := run.db, calls := Function.update s.calls c none }
  /-- A `Confirm` ends before it holds both rows or without an answer of the backend. -/
  | confirmAbandoned {s : System} {c : ℕ} {id : String} {call : Call}
      (hcall : s.calls c = some call) (hid : call.confirms = some id) :
      Step s (.rejected id) (s.set c none)
  | requestBegin {s : System} {c : ℕ} {p : PasswordReset} {inTransaction : Bool}
      {identifier : String} {reads : Reads} {fresh : Except Err (String × String)} {now : ℕ}
      {prepared : Prepared} (hnew : s.calls c = none)
      (hprepared : p.prepare inTransaction identifier reads fresh now = .ok prepared) :
      Step s .other (s.set c (some (.requesting prepared)))
  | requestLock {s : System} {c : ℕ} {prepared : Prepared} {user : User}
      (hcall : s.calls c = some (.requesting prepared))
      (hfree : s.Free c (.user prepared.record.userID))
      (hrow : s.db.users prepared.record.userID = some user) :
      Step s .other (s.set c (some (.requestHeld prepared user)))
  | requestDone {s : System} {c : ℕ} {prepared : Prepared} {user : User} {p : PasswordReset}
      {fate : Fate} {run : Run Db} (hp : p.Respectful)
      (hcall : s.calls c = some (.requestHeld prepared user))
      (hrun : owned fate (p.requestBody prepared) s.db = run)
      (hlocks : ∀ row, Touches s.db run.db row → s.Free c row) :
      Step s (requestEvent prepared.record run.ending)
        { db := run.db, calls := Function.update s.calls c none }
  | requestAbandoned {s : System} {c : ℕ} {call : Call} (hcall : s.calls c = some call)
      (hrequest : call.confirms = none) : Step s .other (s.set c none)
  /-- Other operations on accounts, and time. -/
  | account {s : System} {db' : Db} (h : UsersOnly s.db db')
      (hlocks : ∀ row, Touches s.db db' row → ∀ c call, s.calls c = some call → ¬ call.Holds row) :
      Step s .other { s with db := db' }

/-! ## What holds at every moment -/

/-- The invariant: rows are kept under their identifiers, no token is ahead of its account, what a
call has read under a lock is what is there, and no two calls hold one row. -/
structure Inv (s : System) : Prop where
  keyed : ∀ id r, s.db.resets id = some r → r.id = id
  aged : ∀ id r, s.db.resets id = some r →
    ∃ u, s.db.users r.userID = some u ∧ r.authVersion ≤ u.authVersion
  held : ∀ c call, s.calls c = some call → call.Reflects s.db
  exclusive : ∀ c c' call call' row, s.calls c = some call → s.calls c' = some call' →
    call.Holds row → call'.Holds row → c = c'

/-- What a step may do to the database, by its event. -/
inductive Effect (db : Db) : Event → Db → Prop
  | quiet {db' : Db} (h : UsersOnly db db') : Effect db .other db'
  | rejected (id : String) : Effect db (.rejected id) db
  | changed {db' : Db} {id : String} {token : ResetRecord} {user user' : User} {used : ℕ}
      (hrow : db.resets id = some token) (hunused : token.usedAt = none)
      (huser : db.users token.userID = some user) (hversion : user.authVersion = token.authVersion)
      (hrow' : db'.resets id = some { token with usedAt := some used })
      (huser' : db'.users token.userID = some user')
      (hversion' : user'.authVersion = token.authVersion + 1) (hrest : OneReset id db db') :
      Effect db (.changed id token.userID) db'
  | issued {db' : Db} {record : ResetRecord} {user : User} (hfree : db.resets record.id = none)
      (hrow : db'.resets record.id = some record)
      (huser : db'.users record.userID = some user)
      (hversion : user.authVersion = record.authVersion) (hrest : OneReset record.id db db') :
      Effect db (.issued record.id record.userID record.authVersion) db'

lemma UsersOnly.refl (db : Db) : UsersOnly db db :=
  ⟨rfl, fun _ u h => ⟨u, h, le_rfl⟩, le_rfl⟩

variable {s s' : System} {e : Event} {db db' : Db} {call : Call} {c : ℕ} {id userID : String}

/-- **What a step does to the database.** -/
theorem Step.effect (hinv : Inv s) (h : Step s e s') : Effect s.db e s'.db := by
  cases h with
  | confirmBegin id hnew => exact .quiet (UsersOnly.refl _)
  | lockToken hcall hfree hrow => exact .quiet (UsersOnly.refl _)
  | lockUser hcall hfree hrow => exact .quiet (UsersOnly.refl _)
  | @confirmDone c id digest token user p fate ctx inTransaction bearer password run hp hcall htoken
      hrun hlocks =>
      obtain ⟨htokenRow, huserRow⟩ := hinv.held c _ hcall
      simp only [PasswordReset.confirm, htoken] at hrun
      subst hrun
      unfold confirmEvent
      split_ifs with hdurable
      · have hbody := owned_durable hdurable
        have hrest := oneReset_confirmBody hp (hinv.keyed id) hbody
        obtain ⟨token', user', user'', hrow, hunused, huser, hversion, ⟨used, hused⟩, huser',
          hnext⟩ := confirmBody_ok hbody
        obtain rfl := Option.some.inj (htokenRow.symm.trans hrow)
        have hkey := congrArg
          (owned fate (p.confirmBody (fromContext ctx) id digest password) s.db).db.resets
          (hinv.keyed id token hrow)
        exact .changed hrow hunused huser hversion (hkey.symm.trans hused) huser' hnext hrest
      · show Effect s.db _ (owned fate _ s.db).db
        rw [owned_not_durable (by simpa using hdurable)]
        exact .rejected id
  | @confirmAbandoned c id call hcall hid => exact .rejected id
  | requestBegin hnew hprepared => exact .quiet (UsersOnly.refl _)
  | requestLock hcall hfree hrow => exact .quiet (UsersOnly.refl _)
  | @requestDone c prepared user p fate run hp hcall hrun hlocks =>
    subst hrun
    unfold requestEvent
    split_ifs with hdurable
    · have hbody := owned_durable hdurable
      obtain ⟨hrow, user', huser', hversion⟩ := requestBody_ok hbody
      exact .issued (requestBody_free hp hbody) hrow huser' hversion
        (oneReset_requestBody hp hbody)
    · show Effect s.db _ (owned fate _ s.db).db
      rw [owned_not_durable (by simpa using hdurable)]
      exact .quiet (UsersOnly.refl _)
  | requestAbandoned hcall hrequest => exact .quiet (UsersOnly.refl _)
  | account h hlocks => exact .quiet h

/-! ## The invariant is kept -/

lemma Call.Reflects.of_untouched (h : ∀ row, call.Holds row → ¬ Touches db db' row)
    (hcall : call.Reflects db) : call.Reflects db' := by
  cases call with
  | confirming id => trivial
  | tokenHeld id token =>
    have hsame := not_not.mp (h (.reset id) rfl)
    exact hsame.trans hcall
  | bothHeld id token user =>
    have hreset := not_not.mp (h (.reset id) (.inl rfl))
    have huser := not_not.mp (h (.user token.userID) (.inr rfl))
    exact ⟨hreset.trans hcall.1, huser.trans hcall.2⟩
  | requesting prepared => exact hcall
  | requestHeld prepared user =>
    have huser := not_not.mp (h (.user prepared.record.userID) rfl)
    exact ⟨hcall.1, huser.trans hcall.2⟩

/-- Rows are kept under their identifiers and are not ahead of their accounts. -/
def RowsOk (db : Db) : Prop :=
  ∀ id r, db.resets id = some r →
    r.id = id ∧ ∃ u, db.users r.userID = some u ∧ r.authVersion ≤ u.authVersion

lemma Inv.rowsOk (h : Inv s) : RowsOk s.db := fun id r hr => ⟨h.keyed id r hr, h.aged id r hr⟩

/-- One row is new or changed, and the accounts only go on. -/
lemma rowsOk_of_oneReset (hrest : OneReset id db db') {r : ResetRecord} {user : User}
    (hrow : db'.resets id = some r) (hid : r.id = id) (huser : db'.users r.userID = some user)
    (hversion : r.authVersion ≤ user.authVersion) (h : RowsOk db) : RowsOk db' := by
  intro id' r' hr'
  by_cases heq : id' = id
  · subst heq
    obtain rfl := Option.some.inj (hrow.symm.trans hr')
    exact ⟨hid, user, huser, hversion⟩
  · obtain ⟨hid', u, hu, hle⟩ := h id' r' ((hrest.resets id' heq).symm.trans hr')
    obtain ⟨u', hu', hle'⟩ := hrest.users _ u hu
    exact ⟨hid', u', hu', hle.trans hle'⟩

lemma Effect.rowsOk (h : Effect db e db') (hrows : RowsOk db) : RowsOk db' := by
  cases h with
  | quiet h =>
    intro id r hr
    rw [h.resets] at hr
    obtain ⟨hid, u, hu, hle⟩ := hrows id r hr
    obtain ⟨u', hu', hle'⟩ := h.users _ u hu
    exact ⟨hid, u', hu', hle.trans hle'⟩
  | rejected id => exact hrows
  | changed hrow hunused huser hversion hrow' huser' hversion' hrest =>
    exact rowsOk_of_oneReset hrest hrow' (hrows _ _ hrow).1 huser' (by simp [hversion']) hrows
  | issued hfree hrow huser hversion hrest =>
    exact rowsOk_of_oneReset hrest hrow rfl huser hversion.ge hrows

/-- A call that goes on holds what it held, or one row more that was free. -/
lemma Inv.set (hinv : Inv s) {next : Option Call}
    (hreflects : ∀ call, next = some call → call.Reflects s.db)
    (hholds : ∀ call, next = some call → ∀ row, call.Holds row → s.Free c row) :
    Inv (s.set c next) := by
  refine ⟨hinv.keyed, hinv.aged, ?_, ?_⟩
  · intro c' call hcall
    simp only [System.set] at hcall
    by_cases heq : c' = c
    · subst heq
      rw [Function.update_self] at hcall
      exact hreflects call hcall
    · rw [Function.update_of_ne heq] at hcall
      exact hinv.held c' call hcall
  · intro c₁ c₂ call₁ call₂ row h₁ h₂ hrow₁ hrow₂
    simp only [System.set] at h₁ h₂
    by_cases heq₁ : c₁ = c <;> by_cases heq₂ : c₂ = c
    · exact heq₁.trans heq₂.symm
    · rw [heq₁, Function.update_self] at h₁
      rw [Function.update_of_ne heq₂] at h₂
      exact absurd hrow₂ (hholds call₁ h₁ row hrow₁ c₂ call₂ heq₂ h₂)
    · rw [heq₂, Function.update_self] at h₂
      rw [Function.update_of_ne heq₁] at h₁
      exact absurd hrow₁ (hholds call₂ h₂ row hrow₂ c₁ call₁ heq₁ h₁)
    · rw [Function.update_of_ne heq₁] at h₁
      rw [Function.update_of_ne heq₂] at h₂
      exact hinv.exclusive c₁ c₂ call₁ call₂ row h₁ h₂ hrow₁ hrow₂

/-- What a call holds is free for it. -/
lemma Inv.free (hinv : Inv s) (hcall : s.calls c = some call) {row : Row} (hrow : call.Holds row) :
    s.Free c row := by
  intro c' call' hne hcall' hrow'
  exact hne (hinv.exclusive c' c call' call row hcall' hcall hrow' hrow)

/-- The calls stay, and what they hold is left alone. -/
lemma Inv.write (hinv : Inv s) (heffect : Effect s.db e db')
    (hlocks : ∀ row, Touches s.db db' row → ∀ c call, s.calls c = some call → ¬ call.Holds row) :
    Inv { s with db := db' } := by
  have hrows := heffect.rowsOk hinv.rowsOk
  refine ⟨fun id r hr => (hrows id r hr).1, fun id r hr => (hrows id r hr).2, ?_, hinv.exclusive⟩
  intro c call hcall
  refine Call.Reflects.of_untouched ?_ (hinv.held c call hcall)
  intro row hrow htouches
  exact hlocks row htouches c call hcall hrow

/-- A call ends with a write to rows that no other call holds. -/
lemma Inv.done (hinv : Inv s) (heffect : Effect s.db e db')
    (hlocks : ∀ row, Touches s.db db' row → s.Free c row) :
    Inv { db := db', calls := Function.update s.calls c none } := by
  have hended : Inv (s.set c none) := hinv.set (by simp) (by simp)
  refine hended.write heffect ?_
  intro row htouches c' call hcall
  simp only [System.set] at hcall
  by_cases heq : c' = c
  · rw [heq, Function.update_self] at hcall
    cases hcall
  · rw [Function.update_of_ne heq] at hcall
    exact hlocks row htouches c' call heq hcall

/-- **A step keeps the invariant.** -/
theorem Step.inv (hinv : Inv s) (h : Step s e s') : Inv s' := by
  have heffect := h.effect hinv
  cases h with
  | @confirmBegin c id hnew =>
    refine hinv.set ?_ ?_
    · rintro call ⟨⟩
      trivial
    · rintro call ⟨⟩ row ⟨⟩
  | @lockToken c id token hcall hfree hrow =>
    refine hinv.set ?_ ?_
    · rintro call ⟨⟩
      exact hrow
    · rintro call ⟨⟩ row rfl
      exact hfree
  | @lockUser c id token user hcall hfree hrow =>
    refine hinv.set ?_ ?_
    · rintro call ⟨⟩
      exact ⟨hinv.held c _ hcall, hrow⟩
    · rintro call ⟨⟩ row (rfl | rfl)
      · exact hinv.free hcall rfl
      · exact hfree
  | confirmDone hp hcall htoken hrun hlocks => exact hinv.done heffect hlocks
  | confirmAbandoned hcall hid => exact hinv.set (by simp) (by simp)
  | @requestBegin c p inTransaction identifier reads fresh now prepared hnew hprepared =>
    refine hinv.set ?_ ?_
    · rintro call ⟨⟩
      exact prepare_ok hprepared
    · rintro call ⟨⟩ row ⟨⟩
  | @requestLock c prepared user hcall hfree hrow =>
    refine hinv.set ?_ ?_
    · rintro call ⟨⟩
      exact ⟨hinv.held c _ hcall, hrow⟩
    · rintro call ⟨⟩ row rfl
      exact hfree
  | requestDone hp hcall hrun hlocks => exact hinv.done heffect hlocks
  | requestAbandoned hcall hrequest => exact hinv.set (by simp) (by simp)
  | account h hlocks => exact hinv.write heffect hlocks

/-! ## Runs -/

/-- A run with its events. -/
inductive Trace : System → List Event → System → Prop
  | nil (s : System) : Trace s [] s
  | cons {s m s' : System} {e : Event} {es : List Event} (h : Step s e m) (hrest : Trace m es s') :
      Trace s (e :: es) s'

/-- Tokens stay what they are, and used ones stay used; accounts only go on. -/
structure Onward (db db' : Db) : Prop where
  resets : ∀ id r, db.resets id = some r → ∃ r', db'.resets id = some r' ∧
    r' = { r with usedAt := r'.usedAt } ∧ (r.usedAt.isSome → r'.usedAt.isSome)
  users : ∀ id u, db.users id = some u →
    ∃ u', db'.users id = some u' ∧ u.authVersion ≤ u'.authVersion

lemma Onward.refl (db : Db) : Onward db db :=
  ⟨fun _ r h => ⟨r, h, rfl, fun h => h⟩, fun _ u h => ⟨u, h, le_rfl⟩⟩

lemma Onward.trans {a b c : Db} (h : Onward a b) (h' : Onward b c) : Onward a c := by
  constructor
  · intro id r hr
    obtain ⟨r', hr', hsame, hused⟩ := h.resets id r hr
    obtain ⟨r'', hr'', hsame', hused'⟩ := h'.resets id r' hr'
    refine ⟨r'', hr'', ?_, fun hu => hused' (hused hu)⟩
    rw [hsame', hsame]
  · intro id u hu
    obtain ⟨u', hu', hle⟩ := h.users id u hu
    obtain ⟨u'', hu'', hle'⟩ := h'.users id u' hu'
    exact ⟨u'', hu'', hle.trans hle'⟩

lemma Effect.onward (h : Effect db e db') : Onward db db' := by
  cases h with
  | quiet h => exact ⟨fun id r hr => ⟨r, by rwa [h.resets], rfl, fun h => h⟩, h.users⟩
  | rejected id => exact Onward.refl db
  | @changed _ id token user user' used hrow hunused huser hversion hrow' huser' hversion' hrest =>
    refine ⟨?_, hrest.users⟩
    intro id' r hr
    by_cases heq : id' = id
    · subst heq
      obtain rfl := Option.some.inj (hrow.symm.trans hr)
      exact ⟨_, hrow', rfl, fun _ => rfl⟩
    · exact ⟨r, (hrest.resets id' heq).trans hr, rfl, fun h => h⟩
  | @issued _ record user hfree hrow huser hversion hrest =>
    refine ⟨?_, hrest.users⟩
    intro id' r hr
    by_cases heq : id' = record.id
    · rw [heq, hfree] at hr
      cases hr
    · exact ⟨r, (hrest.resets id' heq).trans hr, rfl, fun h => h⟩

/-- A token that a step has brought was issued by it. -/
lemma Effect.issued_of_new (h : Effect db e db') {r : ResetRecord} (hold : db.resets id = none)
    (hnew : db'.resets id = some r) : e = .issued id r.userID r.authVersion := by
  cases h with
  | quiet h =>
    rw [h.resets, hold] at hnew
    cases hnew
  | rejected id =>
    rw [hold] at hnew
    cases hnew
  | @changed _ id' token user user' used hrow hunused huser hversion hrow' huser' hversion' hrest =>
    by_cases heq : id = id'
    · rw [← heq, hold] at hrow
      cases hrow
    · rw [hrest.resets id heq, hold] at hnew
      cases hnew
  | @issued _ record user hfree hrow huser hversion hrest =>
    by_cases heq : id = record.id
    · subst heq
      obtain rfl := Option.some.inj (hrow.symm.trans hnew)
      rfl
    · rw [hrest.resets id heq, hold] at hnew
      cases hnew

lemma Effect.row_of_issued {version : ℕ} (h : Effect db (.issued id userID version) db') :
    ∃ r, db'.resets id = some r ∧ r.userID = userID ∧ r.authVersion = version := by
  cases h with
  | @issued _ record user hfree hrow huser hversion hrest => exact ⟨record, hrow, rfl, rfl⟩

/-- Before a change of password: the token is unused, for the account and of its version. -/
structure Redeemable (db : Db) (id userID : String) (token : ResetRecord) (user : User) :
    Prop where
  row : db.resets id = some token
  unused : token.usedAt = none
  owner : token.userID = userID
  account : db.users userID = some user
  version : user.authVersion = token.authVersion

/-- A change of password was of a redeemable token; it leaves the token used and the account one
version on, and brings no token. -/
lemma Effect.of_changed (h : Effect db (.changed id userID) db') :
    ∃ token user, Redeemable db id userID token user ∧
      (∃ r, db'.resets id = some r ∧ r.usedAt.isSome) ∧
      (∃ u, db'.users userID = some u ∧ u.authVersion = user.authVersion + 1) ∧
      ∀ id' r, db'.resets id' = some r →
        ∃ r₀, db.resets id' = some r₀ ∧ r = { r₀ with usedAt := r.usedAt } := by
  cases h with
  | @changed _ _ token user user' used hrow hunused huser hversion hrow' huser' hversion' hrest =>
    refine ⟨token, user, ⟨hrow, hunused, rfl, huser, hversion⟩, ⟨_, hrow', rfl⟩,
      ⟨user', huser', by rw [hversion', hversion]⟩, ?_⟩
    intro id' r hr
    by_cases heq : id' = id
    · subst heq
      obtain rfl := Option.some.inj (hrow'.symm.trans hr)
      exact ⟨token, hrow, rfl⟩
    · exact ⟨r, (hrest.resets id' heq).symm.trans hr, rfl⟩

section
variable {s s' : System} {es : List Event}

lemma Trace.inv (hinv : Inv s) (h : Trace s es s') : Inv s' := by
  induction h with
  | nil s => exact hinv
  | cons hstep _ ih => exact ih (hstep.inv hinv)

lemma Trace.onward (hinv : Inv s) (h : Trace s es s') : Onward s.db s'.db := by
  induction h with
  | nil s => exact Onward.refl s.db
  | cons hstep _ ih => exact (hstep.effect hinv).onward.trans (ih (hstep.inv hinv))

variable {id userID : String} {r : ResetRecord}

section

variable (hinv : Inv s) (h : Trace s es s')

include hinv h

/-- A token that a run has brought was issued in it. -/
lemma Trace.issued_of_new (hold : s.db.resets id = none) (hnew : s'.db.resets id = some r) :
    .issued id r.userID r.authVersion ∈ es := by
  induction h with
  | nil s =>
    rw [hold] at hnew
    cases hnew
  | @cons s m s' e es hstep hrest ih =>
    match hm : m.db.resets id with
    | none => exact List.mem_cons_of_mem _ (ih (hstep.inv hinv) hm hnew)
    | some r' =>
      obtain ⟨r'', hr'', hsame, -⟩ := (hrest.onward (hstep.inv hinv)).resets id r' hm
      obtain rfl := Option.some.inj (hnew.symm.trans hr'')
      have hevent := (hstep.effect hinv).issued_of_new hold hm
      rw [hsame, hevent]
      exact List.mem_cons_self

/-- What was issued is there, for the same account at the same version. -/
lemma Trace.row_of_issued {version : ℕ} (hissued : .issued id userID version ∈ es) :
    ∃ r, s'.db.resets id = some r ∧ r.userID = userID ∧ r.authVersion = version := by
  induction h with
  | nil s => cases hissued
  | @cons s m s' e es hstep hrest ih =>
    rcases List.mem_cons.mp hissued with rfl | hlater
    · obtain ⟨r, hr, howner, hversion⟩ := (hstep.effect hinv).row_of_issued
      obtain ⟨r', hr', hsame, -⟩ := (hrest.onward (hstep.inv hinv)).resets id r hr
      rw [hsame] at hr'
      exact ⟨_, hr', howner, hversion⟩
    · exact ih (hstep.inv hinv) hlater

/-! ## Tokens are used once -/

/-- An event changes a password by a token. -/
def Event.changes (id : String) : Event → Bool
  | .changed id' _ => id' == id
  | _ => false

/-- A used token changes nothing more. -/
lemma Trace.no_change_of_used (hr : s.db.resets id = some r) (hused : r.usedAt.isSome) :
    es.filter (·.changes id) = [] := by
  induction h generalizing r with
  | nil s => rfl
  | @cons s m s' e es hstep hrest ih =>
    have heffect := hstep.effect hinv
    obtain ⟨r', hr', -, hused'⟩ := heffect.onward.resets id r hr
    have htail := ih (hstep.inv hinv) hr' (hused' hused)
    have hhead : e.changes id = false := by
      by_contra hchanges
      match e with
      | .changed id' userID =>
        simp only [Event.changes, beq_iff_eq, Bool.not_eq_false] at hchanges
        subst hchanges
        obtain ⟨token, user, hredeemable, -⟩ := heffect.of_changed
        obtain rfl := Option.some.inj (hr.symm.trans hredeemable.row)
        rw [hredeemable.unused] at hused
        cases hused
      | .issued .. => simp [Event.changes] at hchanges
      | .rejected _ => simp [Event.changes] at hchanges
      | .other => simp [Event.changes] at hchanges
    rw [List.filter_cons_of_neg (by simp [hhead]), htail]

/-- **A token changes at most one password.** -/
theorem Trace.changes_le_one (id : String) : (es.filter (·.changes id)).length ≤ 1 := by
  induction h with
  | nil s => simp
  | @cons s m s' e es hstep hrest ih =>
    match hchanges : e.changes id with
    | false =>
      rw [List.filter_cons_of_neg (by simp [hchanges])]
      exact ih (hstep.inv hinv)
    | true =>
      -- The token is used from here on.
      have hused : ∃ r, m.db.resets id = some r ∧ r.usedAt.isSome := by
        match e, hstep.effect hinv with
        | .changed id' userID, heffect =>
          simp only [Event.changes, beq_iff_eq] at hchanges
          subst hchanges
          obtain ⟨token, user, -, hused, -⟩ := heffect.of_changed
          exact hused
      obtain ⟨r, hr, hused⟩ := hused
      rw [List.filter_cons_of_pos hchanges,
        hrest.no_change_of_used (hstep.inv hinv) hr hused]
      rfl

end

/-- **After a change of password, another one of the same account is by a token that was issued
since.** -/
theorem Trace.issued_since {m t t' : System} {id' : String} (hinv : Inv s)
    (hfirst : Step s (.changed id userID) m) (h : Trace m es t)
    (hsecond : Step t (.changed id' userID) t') : ∃ version, .issued id' userID version ∈ es := by
  have hinvm := hfirst.inv hinv
  obtain ⟨token, user, hredeemable, -, ⟨u, hu, hnext⟩, hrows⟩ := (hfirst.effect hinv).of_changed
  obtain ⟨token', user', hredeemable', -⟩ := (hsecond.effect (h.inv hinvm)).of_changed
  match hrow : m.db.resets id' with
  | none =>
    have hissued := h.issued_of_new hinvm hrow hredeemable'.row
    rw [hredeemable'.owner] at hissued
    exact ⟨_, hissued⟩
  | some r =>
    -- The token was there before the change, when it was not ahead of the account.
    exfalso
    obtain ⟨r₀, hr₀, hsame₀⟩ := hrows id' r hrow
    obtain ⟨r', hr', hsame, -⟩ := (h.onward hinvm).resets id' r hrow
    obtain rfl := Option.some.inj (hredeemable'.row.symm.trans hr')
    have howner : r₀.userID = userID := by
      rw [← hredeemable'.owner, hsame, hsame₀]
    have hversion : token'.authVersion = r₀.authVersion := by
      rw [hsame, hsame₀]
    obtain ⟨u₀, hu₀, hle₀⟩ := hinv.aged id' r₀ hr₀
    rw [howner, hredeemable.account, Option.some.injEq] at hu₀
    subst hu₀
    obtain ⟨u', hu', hle⟩ := (h.onward hinvm).users userID u hu
    obtain rfl := Option.some.inj (hredeemable'.account.symm.trans hu')
    have hequal := hredeemable'.version
    omega

end

/-- At the start no call is under way, every token is kept under its identifier, and none is ahead
of its account. -/
structure Begins (s : System) : Prop where
  idle : ∀ c, s.calls c = none
  keyed : ∀ id r, s.db.resets id = some r → r.id = id
  aged : ∀ id r, s.db.resets id = some r →
    ∃ u, s.db.users r.userID = some u ∧ r.authVersion ≤ u.authVersion

lemma Begins.inv (h : Begins s) : Inv s := by
  refine ⟨h.keyed, h.aged, ?_, ?_⟩
  · intro c call hcall
    rw [h.idle c] at hcall
    cases hcall
  · intro c c' call call' row hcall
    rw [h.idle c] at hcall
    cases hcall

/-- **Password reset tokens are single-use and die with the credential.** In every run a token
changes at most one password. Wherever a password is changed, the account has the version that the
token was issued for, and every later change of the account is by a token that was issued after
this one. A `Confirm` that is rejected leaves the database as it is. -/
theorem reset_tokens_single_use {s₀ s : System} {es : List Event} (hbegins : Begins s₀)
    (h : Trace s₀ es s) :
    (∀ id, (es.filter (·.changes id)).length ≤ 1) ∧
    (∀ id userID s', Step s (.changed id userID) s' →
      (∃ token user, Redeemable s.db id userID token user ∧
        ∀ userID' version, .issued id userID' version ∈ es →
          userID' = userID ∧ version = user.authVersion) ∧
      ∀ es' t t' id', Trace s' es' t → Step t (.changed id' userID) t' →
        ∃ version, .issued id' userID version ∈ es') ∧
    ∀ id s', Step s (.rejected id) s' → s'.db = s.db := by
  have hinv := hbegins.inv
  have hinvs := h.inv hinv
  refine ⟨h.changes_le_one hinv, ?_, ?_⟩
  · intro id userID s' hstep
    obtain ⟨token, user, hredeemable, -⟩ := (hstep.effect hinvs).of_changed
    refine ⟨⟨token, user, hredeemable, ?_⟩, ?_⟩
    · intro userID' version hissued
      obtain ⟨r, hr, howner, hversion⟩ := h.row_of_issued hinv hissued
      obtain rfl := Option.some.inj (hr.symm.trans hredeemable.row)
      exact ⟨howner.symm.trans hredeemable.owner, hversion.symm.trans hredeemable.version.symm⟩
    · intro es' t t' id' hrest hsecond
      exact hrest.issued_since hinvs hstep hsecond
  · intro id s' hstep
    have heffect := hstep.effect hinvs
    generalize s'.db = after at heffect
    cases heffect
    rfl

/-! ## A sample -/

/-- A service whose callbacks allow everything and do nothing. -/
def sampleReset : PasswordReset where
  lower s := s
  parseResetToken s := if s = "bearer" then some ("reset", "digest") else none
  identifier s := .ok s
  lookup name db := (byId "reader" db).filter fun (_, u) => u.identifier == name
  usable hash := hash != ""
  recipient _ := some "r@example.com"
  validRecipient _ := true
  authorize := some fun _ => pure ()
  validate _ _ := pure ()
  hashPassword s := .ok s
  beforeUser u := pure u
  afterUser u := pure u
  beforeReset r := pure r
  afterReset r := pure r
  query _ := none

lemma respectful_sampleReset : sampleReset.Respectful where
  authorize f hf _ := by
    obtain rfl := Option.some.inj hf
    exact UsersOnly.refl
  validate _ _ := UsersOnly.refl
  beforeUser _ := UsersOnly.refl
  afterUser _ := UsersOnly.refl
  beforeReset _ := UsersOnly.refl
  afterReset _ := UsersOnly.refl

/-- What a `Request` for the account prepares. -/
def samplePrepared : Prepared := ⟨⟨"reset", "reader", "digest", 3, 1, 3600000001, none⟩, "hash"⟩

/-- The transaction of the `Request`. -/
def sampleRequest : Run Db := owned sampleFate (sampleReset.requestBody samplePrepared) sampleDb

/-- The `Confirm` after it. -/
def sampleConfirm : Run Db :=
  (sampleReset.confirm sampleFate ⟨none, none, none⟩ false "bearer" "secret" sampleRequest.db).2

/-- When only one call is under way, every row is free for it. -/
lemma free_of_alone (h : ∀ c, c ≠ 0 → s.calls c = none) (row : Row) : s.Free 0 row := by
  intro c' call' hne hcall
  rw [h c' hne] at hcall
  cases hcall

lemma begins_sampleDb : Begins ⟨sampleDb, fun _ => none⟩ where
  idle _ := rfl
  keyed _ _ h := by cases h
  aged _ _ h := by cases h

/-- A `Request` and a `Confirm` one after the other: the password is changed, and then no more by a
token that was not issued since. -/
theorem sample_reset_run :
    ∃ s s', Trace ⟨sampleDb, fun _ => none⟩
        [.other, .other, .issued "reset" "reader" 3, .other, .other, .other] s ∧
      Step s (.changed "reset" "reader") s' ∧
      ∀ es t t' id, Trace s' es t → Step t (.changed id "reader") t' →
        ∃ version, .issued id "reader" version ∈ es := by
  let s₀ : System := ⟨sampleDb, fun _ => none⟩
  let s₁ := s₀.set 0 (some (.requesting samplePrepared))
  let s₂ := s₁.set 0 (some (.requestHeld samplePrepared ⟨"r", some "hash", true, false, false, 3⟩))
  let s₃ : System := ⟨sampleRequest.db, Function.update s₂.calls 0 none⟩
  let s₄ := s₃.set 0 (some (.confirming "reset"))
  let s₅ := s₄.set 0 (some (.tokenHeld "reset" samplePrepared.record))
  let s₆ := s₅.set 0
    (some (.bothHeld "reset" samplePrepared.record ⟨"r", some "hash", true, false, false, 3⟩))
  let s₇ : System := ⟨sampleConfirm.db, Function.update s₆.calls 0 none⟩
  have h₁ : Step s₀ .other s₁ := @Step.requestBegin s₀ 0 sampleReset false "r"
    (fun _ => .ok sampleDb) (.ok ("reset", "digest")) 1 samplePrepared rfl rfl
  have h₂ : Step s₁ .other s₂ :=
    .requestLock rfl (free_of_alone (fun c hc => by simp [s₁, s₀, System.set, hc]) _) rfl
  have h₃ : Step s₂ (.issued "reset" "reader" 3) s₃ :=
    @Step.requestDone s₂ 0 samplePrepared _ sampleReset sampleFate sampleRequest
      respectful_sampleReset rfl rfl
      fun row _ => free_of_alone (fun c hc => by simp [s₂, s₁, s₀, System.set, hc]) row
  have h₄ : Step s₃ .other s₄ := .confirmBegin "reset" rfl
  have h₅ : Step s₄ .other s₅ :=
    .lockToken rfl
      (free_of_alone (fun c hc => by simp [s₄, s₃, s₂, s₁, s₀, System.set, hc]) _) rfl
  have h₆ : Step s₅ .other s₆ :=
    .lockUser rfl
      (free_of_alone (fun c hc => by simp [s₅, s₄, s₃, s₂, s₁, s₀, System.set, hc]) _) rfl
  have h₇ : Step s₆ (.changed "reset" "reader") s₇ :=
    @Step.confirmDone s₆ 0 "reset" "digest" samplePrepared.record _ sampleReset sampleFate
      ⟨none, none, none⟩ false "bearer" "secret" sampleConfirm respectful_sampleReset rfl rfl rfl
      fun row _ =>
        free_of_alone (fun c hc => by simp [s₆, s₅, s₄, s₃, s₂, s₁, s₀, System.set, hc]) row
  have htrace : Trace s₀ [.other, .other, .issued "reset" "reader" 3, .other, .other, .other] s₆ :=
    .cons h₁ (.cons h₂ (.cons h₃ (.cons h₄ (.cons h₅ (.cons h₆ (.nil s₆))))))
  have hresult := reset_tokens_single_use begins_sampleDb htrace
  exact ⟨s₆, s₇, htrace, h₇, (hresult.2.1 "reset" "reader" s₇ h₇).2⟩

end Gogo.Auth.Resets

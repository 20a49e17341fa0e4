import Gogo.Auth.ResetRuns
import Gogo.Auth.Tokens

/-!
# A password reset ends the API tokens of its account

`PasswordReset.Confirm` knows nothing of API tokens. It takes the account one version on, and
`AuthenticateToken` compares the version that a token was issued at.

* `sameTokens_confirmBody` — a `Confirm` leaves the API tokens alone if its callbacks do.
* `reset_ends_tokens` — **no token that was issued before it is accepted after it.** Of the
  callbacks nothing else is assumed: what they do to the account, `Confirm` notices itself.
-/

namespace Gogo.Auth

open Gogo.Lib Session

/-- The callbacks of the service take the database along a relation. -/
structure PasswordReset.CallbacksMove (p : PasswordReset) (R : Db → Db → Prop) : Prop where
  authorize : ∀ f, p.authorize = some f → ∀ id, (f id).Moves R
  validate : ∀ password principal, (p.validate password principal).Moves R
  beforeUser : ∀ user, (p.beforeUser user).Moves R
  afterUser : ∀ user, (p.afterUser user).Moves R
  beforeReset : ∀ record, (p.beforeReset record).Moves R
  afterReset : ∀ record, (p.afterReset record).Moves R

/-- The API tokens are left alone. -/
def SameTokens (db db' : Db) : Prop := db'.tokens = db.tokens

instance : IsPreorder Db SameTokens where
  refl _ := rfl
  trans _ _ _ h h' := h'.trans h

variable {p : PasswordReset} {db db' : Db}

/-- A `Confirm` writes accounts and reset tokens only. -/
lemma sameTokens_confirmBody (hp : p.CallbacksMove SameTokens) (actor : Principal)
    (id digest password : String) :
    (p.confirmBody actor id digest password).Moves SameTokens := by
  have hpermit (userID : String) : (p.permit actor userID).Moves SameTokens := by
    unfold PasswordReset.permit
    split
    · exact moves_fail _
    · rename_i f hf
      refine .bind (moves_lift _) fun _ => ?_
      exact .bind (moves_lift _) fun _ => hp.authorize f hf userID
  have hhash (principal : Principal) : (p.hash password principal).Moves SameTokens := by
    intro db
    have hvalidate := hp.validate password principal db
    unfold PasswordReset.hash
    split <;> rename_i hresult <;> rw [hresult] at hvalidate <;> exact hvalidate
  simp only [PasswordReset.confirmBody, PasswordReset.confirmWrite, PasswordReset.saveUser,
    PasswordReset.saveReset, PasswordReset.updateGuard, PasswordReset.writeReset,
    Bool.false_eq_true, if_false]
  repeat' first
    | exact hpermit _
    | exact hhash _
    | exact hp.beforeUser _
    | exact hp.afterUser _
    | exact hp.beforeReset _
    | exact hp.afterReset _
    | exact fun _ => rfl
    | refine .bind ?_ fun _ => ?_

/-- **A password reset ends the API tokens of its account.** Once a `Confirm` with a reset token of
the account is durable, no API token that was issued before is accepted, whatever operations came
between and come later, and whichever states the readings of `AuthenticateToken` see.
Source: `reset.go` `PasswordReset.Confirm`, `api_tokens.go` `AuthenticateToken`. -/
theorem reset_ends_tokens (t t' : Tokens) (fate fate' : Fate) (ctx ctx' : Context)
    (inTransaction inTransaction' : Bool) (userID bearer password id digest : String)
    (scopes : List String) (fresh : Tokens.Fresh) (start db : Db) (p : PasswordReset)
    (reset : ResetRecord) (htokens : p.CallbacksMove SameTokens)
    (hparse : p.confirmToken inTransaction' bearer password = .ok (id, digest))
    (hreset : db.resets id = some reset) (howner : reset.userID = userID) :
    let issued := (t.issue fate ctx inTransaction userID scopes (.ok fresh) start).2
    let changed := (p.confirm fate' ctx' inTransaction' bearer password db).2
    issued.ending.durable = true → Reaches issued.db db → changed.ending.durable = true →
      ∀ reads, Since changed.db reads → ∀ late bearer' digest',
        t'.parseAPIToken bearer' = some (fresh.id, digest') →
        ∀ q, t'.authenticateToken reads late bearer' ≠ .ok q := by
  intro issued changed hissued hreaches hchanged reads hsince late bearer' digest' hbearer q
  have hrun : changed = owned fate' (p.confirmBody (fromContext ctx') id digest password) db := by
    simp only [changed, PasswordReset.confirm, hparse]
  rw [hrun] at hchanged hsince
  have hbody := owned_durable hchanged
  have hsame : SameTokens db _ := (sameTokens_confirmBody htokens _ _ _ _).of_eq hbody
  obtain ⟨token, user, user', htoken, -, huser, hversion, -, huser', hnext⟩ :=
    PasswordReset.confirmBody_ok hbody
  obtain rfl := Option.some.inj (hreset.symm.trans htoken)
  -- the token as it was issued, at the version that the account had then
  obtain ⟨f, values, record, user₀, hf, -, hrow, huser₀, rfl, -, hissue⟩ :=
    Tokens.issue_durable hissued
  obtain rfl := Except.ok.inj hf
  obtain ⟨r, hr, hfollows⟩ := (later_of_reaches hreaches).tokens _ _ hrow
  obtain ⟨u, hu, hle⟩ := (later_of_reaches hreaches).users _ _ huser₀
  obtain rfl := Option.some.inj (huser.symm.trans (howner ▸ hu))
  have hfound : r.userID = reset.userID ∧ r.authVersion = record.authVersion := by
    rw [hfollows.same, howner]
    exact ⟨rfl, rfl⟩
  refine not_accepted_of_version_lt (hsame ▸ hr) (hfound.1 ▸ huser') ?_ hsince hbearer q
  omega

/-- The sample token is accepted at first, and no more once the password is reset. -/
theorem sample_reset_ends_token :
    let db := { sampleIssue.db with
      resets := fun id => if id = "reset" then some Resets.samplePrepared.record else none }
    let run := (Resets.sampleReset.confirm sampleFate ⟨none, none, none⟩ false "bearer" "secret" db).2
    (sampleTokens.authenticateToken (fun _ => .ok db) none "bearer").toOption.isSome ∧
      ∀ q, sampleTokens.authenticateToken (fun _ => .ok run.db) none "bearer" ≠ .ok q := by
  intro db run
  have hstep : Step sampleIssue.db db :=
    .account rfl ⟨fun _ r h => ⟨r, h, .refl r⟩, fun _ u h => ⟨u, h, le_rfl⟩, le_rfl⟩
  have hcallbacks : Resets.sampleReset.CallbacksMove SameTokens :=
    ⟨fun _ hf _ _ => Option.some.inj hf ▸ rfl, fun _ _ _ => rfl, fun _ _ => rfl, fun _ _ => rfl,
      fun _ _ => rfl, fun _ _ => rfl⟩
  exact ⟨by decide +kernel, reset_ends_tokens sampleTokens sampleTokens sampleFate sampleFate
    ⟨none, none, none⟩ ⟨none, none, none⟩ false false "reader" "bearer" "secret" "reset" "digest"
    ["blog.view_post"] ⟨"token", "bearer", "digest"⟩ sampleDb db Resets.sampleReset
    Resets.samplePrepared.record hcallbacks rfl rfl rfl (by decide +kernel)
    (.single hstep) (by decide +kernel) _
    (fun n db' hread => by cases hread; exact .refl) none "bearer" "digest" rfl⟩

end Gogo.Auth

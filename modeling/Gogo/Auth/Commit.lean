import Gogo.Lib.Session

/-!
# Owned transactions and what their errors tell

An operation on credentials runs in a transaction of its own and tells afterwards whether it has
changed anything. All it has to go by is the error that `Atomic` returned: it looks through it for
the mark of a commit whose callbacks failed and for the code of a commit of unknown outcome.

* `Err` — error values with what they wrap; `Err.committed`, `Err.isCode` — as in the source.
* `owned` — `Atomic` for an outermost block, with everything the backend may do in `Fate`.
* `mutationState` — what is told, and `Truthful` — when it is true.
* `owned_truthful_iff` — **what is told is true exactly when the function of the transaction did
  not end with an error that carries such a mark itself.**
-/

namespace Gogo.Auth

open Gogo.Lib

/-! ## Errors -/

/-- `ErrorCode`. -/
inductive Code
  | uniqueViolation | foreignKeyViolation | checkViolation | notNullViolation
  | serializationFailure | deadlock | unavailable | canceled | unsupportedFeature | unknownCommit
  deriving DecidableEq

/-- The error values of the package and of those below it; the others are numbered. -/
inductive Named
  | unauthenticated | permissionDenied | accountChanged | token | resetToken | passwordValidation
  | tokenScopes | ownedCommit | notFound | contention | marked
  | other (n : ℕ)
  deriving DecidableEq

/-- An error: a plain one, a `db.Error` with its cause, a `CommittedCallbackError`, or one that
wraps others, as `errors.Join` and `fmt.Errorf` make them. -/
inductive Err
  | named (name : Named)
  | database (code : Code) (cause : List Err)
  | committedCallback (errors : List Err)
  | wrapped (errors : List Err)

mutual

/-- `errors.As` for a `CommittedCallbackError`. -/
def Err.committed : Err → Bool
  | .named _ => false
  | .database _ cause => committedIn cause
  | .committedCallback _ => true
  | .wrapped errors => committedIn errors

/-- One of the errors holds a `CommittedCallbackError`. -/
def committedIn : List Err → Bool
  | [] => false
  | e :: rest => e.committed || committedIn rest

end

mutual

/-- The code of the first `db.Error`, an error before what it wraps. -/
def Err.code : Err → Option Code
  | .named _ => none
  | .database code _ => some code
  | .committedCallback errors => codeIn errors
  | .wrapped errors => codeIn errors

/-- The code of the first `db.Error` in a list. -/
def codeIn : List Err → Option Code
  | [] => none
  | e :: rest => e.code.or (codeIn rest)

end

/-- `IsCode`. -/
def Err.isCode (e : Err) (code : Code) : Bool := e.code == some code

/-- An error says nothing about a commit. -/
structure Err.Silent (e : Err) : Prop where
  committed : e.committed = false
  code : e.isCode .unknownCommit = false

/-! ## Transactions -/

/-- How the commit of a transaction ends: with the errors of its callbacks, with a failure, or
without an answer, durable or not. -/
inductive Commit
  | committed (callbackErrors : List Err)
  | failed (err : Err)
  | unknown (err : Err) (durable : Bool)

/-- What the backend and the context do to a transaction: whether it starts, whether a callback
marks it for rollback, how it commits, and whether the rollback fails. -/
structure Fate where
  start : Option Err
  marked : Bool
  commit : Commit
  cleanup : Option Err

/-- What became of a transaction. -/
inductive Ending
  | rolledBack
  | committed
  | unknown (durable : Bool)
  deriving DecidableEq

/-- The transaction was committed. -/
def Ending.durable : Ending → Bool
  | .rolledBack => false
  | .committed => true
  | .unknown durable => durable

/-- The error of a transaction that was not committed, with that of the cleanup. -/
def Fate.joined (fate : Fate) (e : Err) : Err :=
  match fate.cleanup with
  | none => e
  | some cleanup => .wrapped [e, cleanup]

/-- A run of `Atomic`: what it returned, the error of its function, what became of the transaction,
and the state of the database. -/
structure Run (σ : Type) where
  err : Option Err
  inner : Option Err
  ending : Ending
  db : σ

/-- `Atomic` outside of any transaction on its alias. -/
def owned {σ : Type} (fate : Fate) (body : Session σ Err Unit) (db : σ) : Run σ :=
  match fate.start with
  | some e => ⟨some e, none, .rolledBack, db⟩
  | none =>
    match body db with
    | (.error e, _) => ⟨some (fate.joined e), some e, .rolledBack, db⟩
    | (.ok (), after) =>
      if fate.marked then ⟨some (fate.joined (.named .marked)), none, .rolledBack, db⟩
      else
        match fate.commit with
        | .committed [] => ⟨none, none, .committed, after⟩
        | .committed (e :: rest) =>
          ⟨some (.committedCallback (e :: rest)), none, .committed, after⟩
        | .failed e => ⟨some (fate.joined e), none, .rolledBack, db⟩
        | .unknown e durable =>
          ⟨some (fate.joined e), none, .unknown durable, if durable then after else db⟩

/-- The backend tells of an unknown outcome exactly when there is one. -/
structure Fate.Honest (fate : Fate) : Prop where
  start : ∀ e, fate.start = some e → e.Silent
  cleanup : ∀ e, fate.cleanup = some e → e.Silent
  failed : ∀ e, fate.commit = .failed e → e.Silent
  unknown : ∀ e durable, fate.commit = .unknown e durable →
    e.committed = false ∧ e.isCode .unknownCommit = true

/-- A backend that answers every call. -/
def sampleFate : Fate := ⟨none, false, .committed [], none⟩

/-! ## Reports -/

/-- `TokenMutationState` and `PasswordChangeState`. -/
inductive MutationState
  | unchanged
  | changed
  | unknown
  deriving DecidableEq

/-- `tokenState`, and the end of `Confirm`. -/
def mutationState : Option Err → MutationState
  | none => .changed
  | some e =>
    if e.committed then .changed else if e.isCode .unknownCommit then .unknown else .unchanged

/-- A report is true of what became of the transaction. -/
def Truthful : MutationState → Ending → Prop
  | .changed, ending => ending.durable = true
  | .unchanged, ending => ending.durable = false
  | .unknown, ending => ∃ durable, ending = .unknown durable

instance (state : MutationState) (ending : Ending) : Decidable (Truthful state ending) :=
  match state, ending with
  | .changed, ending => inferInstanceAs (Decidable (ending.durable = true))
  | .unchanged, ending => inferInstanceAs (Decidable (ending.durable = false))
  | .unknown, .rolledBack => isFalse fun ⟨_, h⟩ => by cases h
  | .unknown, .committed => isFalse fun ⟨_, h⟩ => by cases h
  | .unknown, .unknown durable => isTrue ⟨durable, rfl⟩

/-! ## What is told -/

lemma silent_named (name : Named) : (Err.named name).Silent := ⟨by simp [Err.committed], rfl⟩

variable {e : Err} {fate : Fate} {σ : Type}

lemma mutationState_of_silent (h : e.Silent) : mutationState (some e) = .unchanged := by
  simp [mutationState, h.committed, h.code]

lemma mutationState_of_not_silent (h : ¬ e.Silent) : mutationState (some e) ≠ .unchanged := by
  intro hstate
  simp only [mutationState] at hstate
  split_ifs at hstate with hcommitted hcode
  exact h ⟨by simpa using hcommitted, by simpa using hcode⟩

/-- The cleanup adds nothing to what an error says about a commit. -/
lemma Fate.Honest.joined (h : fate.Honest) (e : Err) :
    mutationState (some (fate.joined e)) = mutationState (some e) := by
  unfold Fate.joined
  match hcleanup : fate.cleanup with
  | none => rfl
  | some cleanup =>
    have hsilent := h.cleanup cleanup hcleanup
    have hcommitted : (Err.wrapped [e, cleanup]).committed = e.committed := by
      simp [Err.committed, committedIn, hsilent.committed]
    have hcode : (Err.wrapped [e, cleanup]).isCode .unknownCommit = e.isCode .unknownCommit := by
      have hnot := hsilent.code
      simp only [Err.isCode, Err.code, codeIn] at hnot ⊢
      cases e.code with
      | some code => rfl
      | none => simpa using hnot
    simp only [mutationState, hcommitted, hcode]

/-- **The report on an owned transaction is true exactly when its function did not end with an
error that carries the mark of a commit.** -/
theorem owned_truthful_iff (h : fate.Honest) (body : Session σ Err Unit) (db : σ) :
    Truthful (mutationState (owned fate body db).err) (owned fate body db).ending ↔
      ∀ e, (owned fate body db).inner = some e → e.Silent := by
  unfold owned
  match hstart : fate.start with
  | some e => simp [mutationState_of_silent (h.start e hstart), Truthful, Ending.durable]
  | none =>
    rcases body db with ⟨e | ⟨⟩, after⟩
    · -- The function failed: the transaction is gone, so only `Unchanged` is true.
      simp only [h.joined, Option.some.injEq, forall_eq']
      constructor
      · intro htrue
        by_contra hsilent
        have hnot := mutationState_of_not_silent hsilent
        match hstate : mutationState (some e) with
        | .unchanged => exact hnot hstate
        | .changed => simp [hstate, Truthful, Ending.durable] at htrue
        | .unknown => simp [hstate, Truthful] at htrue
      · intro hsilent
        simp [mutationState_of_silent hsilent, Truthful, Ending.durable]
    · by_cases hmarked : fate.marked = true
      · simp [hmarked, h.joined, mutationState_of_silent (silent_named _), Truthful,
          Ending.durable]
      · simp only [if_neg hmarked]
        match hcommit : fate.commit with
        | .committed [] => simp [mutationState, Truthful, Ending.durable]
        | .committed (e :: rest) =>
          simp [mutationState, Err.committed, Truthful, Ending.durable]
        | .failed e =>
          simp [h.joined, mutationState_of_silent (h.failed e hcommit), Truthful,
            Ending.durable]
        | .unknown e durable =>
          obtain ⟨hcommitted, hcode⟩ := h.unknown e durable hcommit
          have hstate : mutationState (some e) = .unknown := by
            simp [mutationState, hcommitted, hcode]
          simp [h.joined, hstate, Truthful]

variable {body : Session σ Err Unit} {db : σ}

/-- `Atomic` returns nil only after a commit. -/
lemma owned_committed (h : (owned fate body db).err = none) :
    (owned fate body db).ending = .committed := by
  unfold owned at h ⊢
  split at h
  · cases h
  · split at h
    · cases h
    · split_ifs at h ⊢
      split at h
      · rfl
      · cases h
      · cases h
      · cases h

/-- A durable transaction has the effect of its function. -/
lemma owned_durable (h : (owned fate body db).ending.durable = true) :
    body db = (.ok (), (owned fate body db).db) := by
  unfold owned at h ⊢
  split at h
  · cases h
  · rcases hbody : body db with ⟨e | ⟨⟩, after⟩
    · rw [hbody] at h
      cases h
    · simp only [hbody] at h ⊢
      split_ifs at h ⊢ with hmarked
      · cases h
      · split at h
        · rfl
        · rfl
        · cases h
        · have hdurable := h
          simp only [Ending.durable] at hdurable
          simp [hdurable]

/-- A transaction that is not durable has no effect. -/
lemma owned_not_durable (h : (owned fate body db).ending.durable = false) :
    (owned fate body db).db = db := by
  unfold owned at h ⊢
  split at h
  · rfl
  · rcases hbody : body db with ⟨e | ⟨⟩, after⟩
    · rfl
    · simp only [hbody] at h ⊢
      split_ifs at h ⊢ with hmarked
      · rfl
      · split at h
        · cases h
        · cases h
        · rfl
        · have hdurable := h
          simp only [Ending.durable] at hdurable
          simp [hdurable]

/-- A transaction takes the database along a relation if its function does. -/
lemma owned_moves {R : σ → σ → Prop} [Std.Refl R] (h : body.Moves R) (db : σ) :
    R db (owned fate body db).db := by
  match hdurable : (owned fate body db).ending.durable with
  | true =>
    have hbody := h db
    rw [owned_durable hdurable] at hbody
    exact hbody
  | false =>
    rw [owned_not_durable hdurable]
    exact refl_of R db

end Gogo.Auth

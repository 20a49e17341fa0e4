import Gogo.Api.Receipts

/-!
# Idempotent execution

`Idempotency.Execute` runs a mutation in a transaction of its own, together with a receipt that is
unique for the actor, the scope, the action and the key of the operation. A later call with the
same identity finds the receipt: before its expiry the stored response is replayed, afterwards the
mutation runs again.

* `isRedaction` — what a redaction callback may return.
* `Call` — one call with all that the application, the store and the clock do during it.
* `transact` — the function that runs inside the transaction; `execute` — the whole call, on the
  receipt that earlier calls of the same identity have left; `runCalls` — any number of calls, in
  the order in which their transactions hold the row lock.
-/

namespace Gogo.Api

open Gogo.Lib

/-! ## Redaction -/

/-- Two scalars with the same JSON text. -/
def sameScalar : Document → Document → Bool
  | .null, .null => true
  | .bool a, .bool b => a == b
  | .num n, .num m => n.text == m.text
  | .str s, .str t => s == t
  | _, _ => false

mutual

/-- `isRedaction`. -/
def isRedaction : Document → Document → Bool
  | .obj before, .obj after => redactsMembers before after
  | .arr before, .arr after => before.length == after.length && redactsItems before after
  | before, .null => sameScalar before .null
  | before, .bool b => sameScalar before (.bool b)
  | before, .num n => sameScalar before (.num n)
  | before, .str s => sameScalar before (.str s)
  | _, .obj _ => false
  | _, .arr _ => false

/-- The loop over an array. -/
def redactsItems : List Document → List Document → Bool
  | old :: before, value :: after => isRedaction old value && redactsItems before after
  | _, _ => true

/-- The loop over an object. -/
def redactsMembers (before : List (String × Document)) : List (String × Document) → Bool
  | [] => true
  | (name, value) :: after =>
    (match before.lookup name with
      | none => false
      | some old => isRedaction old value) && redactsMembers before after

end

/-! ## Calls -/

inductive Failure
  /-- `auth.ErrUnauthenticated`. -/
  | unauthenticated
  /-- `auth.ErrPermissionDenied`. -/
  | permissionDenied
  /-- `mediaError(status, code, message)`. -/
  | media (status : ℕ) (code message : String)
  /-- `errors.New(text)`. -/
  | message (text : String)
  /-- The context is over. -/
  | context
  /-- A `db.Error`, of this or another database. -/
  | database (unknownCommit : Bool)
  /-- Any other error of the application or of the store. -/
  | other (code : ℕ)
  /-- `errors.Join`. -/
  | join (first second : Failure)
  /-- `CommittedCallbackError`. -/
  | committedCallback (first : Failure)
deriving DecidableEq

/-- The first `db.Error` in an error, by whether its code is `UnknownCommit`. -/
def Failure.databaseError : Failure → Option Bool
  | .database unknownCommit => some unknownCommit
  | .join first second => first.databaseError.orElse fun _ => second.databaseError
  | .committedCallback first => first.databaseError
  | _ => none

/-- `db.IsCode(err, db.UnknownCommit)`. -/
def Failure.isUnknownCommit (e : Failure) : Bool := e.databaseError == some true

/-- What a callback does. -/
inductive Reply (α : Type)
  | value (a : α)
  | failure (e : Failure)
  | panic

/-- `rollbackMutationPanic`: a panic inside the transaction becomes an error. -/
def panicFailure : Failure := .media 503 "MUTATION_CALLBACK_FAILED" "Mutation callback failed"

/-- How `Commit` ends: confirmed, refused, or without a confirmation; in the latter cases the
transaction may have been applied or not. -/
inductive Commit
  | confirmed
  /-- An error that is not an `UnknownCommit`: the transaction is rolled back. -/
  | refused (e : Failure) (known : e.isUnknownCommit = false)
  | unknown (applied : Bool)
  | panic (applied : Bool)

/-- The places where the context is looked at. -/
inductive Checkpoint
  | entry
  | permit (withKey : Bool)
  | redact
  | mutate
  | save
deriving DecidableEq

/-- The steps of the store, and of the random source, that may fail. -/
inductive StoreStep
  | begin
  | operationID
  | getOrCreate
  | lock
  | save
deriving DecidableEq

/-- Source: `auth.Principal`. -/
structure Principal where
  authenticated : Bool
  active : Bool
  id : String

/-- One call of `Execute` with all that happens around it. -/
structure Call where
  principal : Principal
  scope : String
  action : String
  key : String
  input : Option (List (String × GoValue))
  /-- The context holds a transaction on the backend. -/
  inTransaction : Bool
  /-- `config.Authorize`, by the object identity it is given. -/
  authorize : Option (List (String × Document)) → Reply Unit
  /-- `config.Redact`, by object identity and body. -/
  redact : List (String × Document) → List (String × Document) →
    Reply (Option (List (String × GoValue)))
  /-- The mutation. -/
  mutate : Reply MutationResponse
  contextOver : Checkpoint → Bool
  fails : StoreStep → Option Failure
  /-- The readings of the clock: at the start of the transaction, after the row is locked, and
  when the receipt is written. -/
  openedAt : ℤ
  lockedAt : ℤ
  sealedAt : ℤ
  /-- How the database spells the numbers of a stored response. -/
  stored : Sealed → Sealed
  stored_respells : ∀ s, (stored s).Respells s
  /-- The transaction is marked for rollback when the function returns. -/
  rollbackOnly : Bool
  commit : Commit
  /-- `Rollback`. -/
  rollback : Reply Unit
  /-- The commit callbacks after the first. -/
  callbacks : Reply Unit

/-- The configuration, and the digest of a canonical document. -/
structure Config where
  lib : Library
  retention : ℤ
  digest : List (String × Document) → String

/-- Source: `IdempotencyRecord`, the row of one identity. -/
structure Receipt where
  requestDigest : String
  response : Sealed
  expiresAt : ℤ

/-! ## Inside the transaction -/

section Execute

variable (config : Config) (call : Call)

/-- A reply inside the transaction, with a check of the context after it. -/
def settle {α : Type} (checkpoint : Checkpoint) : Reply α → Except Failure α
  | .panic => .error panicFailure
  | .value a => if call.contextOver checkpoint then .error .context else .ok a
  | .failure e => .error (if call.contextOver checkpoint then .context else e)

/-- A step of the store. -/
def perform (step : StoreStep) : Except Failure Unit :=
  match call.fails step with
  | none => .ok ()
  | some e => .error e

/-- `permit`. -/
def permit (key : Option (List (String × Document))) : Except Failure Unit := do
  let snapshot ← match key with
    | none => pure none
    | some members =>
      (receiptObject config.lib (some (ofMembers members))).mapError Failure.message |>.map some
  settle call (.permit key.isSome) (call.authorize snapshot)

/-- `redact`. -/
def redact (response : Sealed) : Except Failure Sealed := do
  let key ← (receiptObject config.lib (some (ofMembers response.objectKey))).mapError
    Failure.message
  let body ← (receiptObject config.lib (some (ofMembers response.body))).mapError Failure.message
  let filtered ← settle call .redact (call.redact key body)
  let invalid := Failure.message "api: redaction must only remove response fields"
  let filtered ← (receiptObject config.lib filtered).mapError fun _ => invalid
  refuseIf (redactsMembers response.body filtered = false) invalid
  pure { response with body := filtered }

/-- The row that `GetOrCreate` inserts. -/
def placeholder (requestDigest : String) : Receipt where
  requestDigest := requestDigest
  response := ⟨0, FinMap.empty, [], []⟩
  expiresAt := call.openedAt + config.retention

/-- What the function in the transaction returns without an error: the response, whether it is a
replay, and the row as it is then. -/
structure Prepared where
  response : Sealed
  replayed : Bool
  row : Receipt

/-- The branch for a receipt that has not expired. -/
def replay (requestDigest : String) (receipt : Receipt) : Except Failure Prepared := do
  let record := call.stored receipt.response
  permit config call (some record.objectKey)
  refuseIf (receipt.requestDigest ≠ requestDigest)
    (.media 409 "IDEMPOTENCY_CONFLICT" "Operation key was used with different input")
  let response ← (sealMutationResponse config.lib record.reopen).mapError Failure.message
  let response ← redact config call response
  pure ⟨response, true, receipt⟩

/-- The mutation and the check of the context after it. -/
def runMutation : Except Failure MutationResponse :=
  match call.mutate with
  | .value response => if call.contextOver .mutate then .error .context else .ok response
  | .failure e => .error e
  | .panic => .error panicFailure

/-- The branch that runs the mutation. -/
def mutateAndSeal (requestDigest : String) : Except Failure Prepared := do
  let response ← runMutation call
  let response ← (sealMutationResponse config.lib response).mapError Failure.message
  permit config call (some response.objectKey)
  let response ← redact config call response
  perform call .save
  refuseIf (call.contextOver .save = true) .context
  pure ⟨response, false, ⟨requestDigest, response, call.sealedAt + config.retention⟩⟩

/-- The beginning of the function: the row of the identity and whether this call inserted it. -/
def lockReceipt (requestDigest : String) (row : Option Receipt) :
    Except Failure (Receipt × Bool) := do
  permit config call none
  perform call .operationID
  perform call .getOrCreate
  perform call .lock
  pure (match row with
    | some receipt => (receipt, false)
    | none => (placeholder config call requestDigest, true))

/-- The function in the transaction: whether the mutation was called, and the result. -/
def transact (requestDigest : String) (row : Option Receipt) : Bool × Except Failure Prepared :=
  match lockReceipt config call requestDigest row with
  | .error e => (false, .error e)
  | .ok (receipt, created) =>
    if created = false ∧ call.lockedAt < receipt.expiresAt then
      (false, replay config call requestDigest receipt)
    else (true, mutateAndSeal config call requestDigest)

/-! ## The call -/

/-- `validOperationPart`. -/
def validOperationPart (value : String) (maximum : ℕ) : Bool :=
  value ≠ "" && value.utf8ByteSize ≤ maximum &&
    value.toList.all fun c => !(c.toNat < 32 || c.toNat == 127)

/-- `MutationOutcome`. -/
inductive MutationOutcome
  | unchanged
  | committed
  | unknown
deriving DecidableEq

/-- What a call returns, and what it did: whether the mutation was called and whether the
transaction was applied. -/
structure Execution where
  outcome : MutationOutcome
  response : Option Sealed
  replayed : Bool
  failure : Option Failure
  ran : Bool
  applied : Bool

/-- A call that ends before or without its transaction being applied. -/
def unchanged (ran : Bool) (e : Failure) : Execution :=
  ⟨.unchanged, none, false, some e, ran, false⟩

/-- The recovery of a panic without a confirmed commit. -/
def uncertain (ran applied : Bool) : Execution :=
  ⟨.unknown, none, false, some (.media 503 "MUTATION_UNKNOWN"
    "Mutation outcome is unknown; retry the same operation key"), ran, applied⟩

/-- The end of `Execute` after `Atomic` returned an error without a commit: `prepared` is set when
the function had returned without an error. -/
def withoutCommit (ran applied prepared : Bool) (e : Failure) : Execution :=
  match call.rollback with
  | .panic => uncertain ran applied
  | .value _ => finish e
  | .failure cleanup => finish (.join e cleanup)
where
  finish (e : Failure) : Execution :=
    if prepared && e.isUnknownCommit then ⟨.unknown, none, false, some e, ran, applied⟩
    else ⟨.unchanged, none, false, some e, ran, applied⟩

/-- The end of `Execute` after a confirmed commit. -/
def afterCommit (ran : Bool) (prepared : Prepared) : Execution :=
  match call.callbacks with
  | .value _ => ⟨.committed, some prepared.response, prepared.replayed, none, ran, true⟩
  | .failure e =>
    ⟨.committed, some prepared.response, prepared.replayed, some (.committedCallback e), ran,
      true⟩
  | .panic => ⟨.committed, some prepared.response, prepared.replayed,
      some (.media 503 "COMMITTED_CALLBACK_FAILED"
        "Mutation committed but an after-commit callback failed"), ran, true⟩

/-- The transaction of a call, with the row that it leaves. -/
def atomic (requestDigest : String) (row : Option Receipt) : Execution × Option Receipt :=
  match call.fails .begin with
  | some e => (unchanged false e, row)
  | none =>
    match transact config call requestDigest row with
    | (ran, .error e) => (withoutCommit call ran false false e, row)
    | (ran, .ok prepared) =>
      let written (applied : Bool) := if applied then some prepared.row else row
      if call.rollbackOnly then
        (withoutCommit call ran false true (.message "db: transaction marked for rollback"),
          row)
      else
        match call.commit with
        | .confirmed => (afterCommit call ran prepared, written true)
        | .refused e _ => (withoutCommit call ran false true e, row)
        | .unknown applied =>
          (withoutCommit call ran applied true (.database true), written applied)
        | .panic applied => (uncertain ran applied, written applied)

/-- The checks of `Execute` before the transaction, with the digest of the input. -/
def precheck : Except Failure String := do
  refuseIf (call.contextOver .entry = true) .context
  refuseIf (call.principal.authenticated = false) .unauthenticated
  refuseIf (call.principal.active = false) .permissionDenied
  refuseIf (¬ (validOperationPart call.principal.id 1024 ∧ validOperationPart call.scope 1024 ∧
      validOperationPart call.action 128 ∧ 1 ≤ call.key.utf8ByteSize ∧ call.key.utf8ByteSize ≤ 255))
    (.media 400 "INVALID_OPERATION" "Invalid operation identity")
  refuseIf (call.key.toList.any (fun c => c.toNat < 33 || c.toNat > 126) = true)
    (.media 400 "INVALID_OPERATION" "Invalid operation key")
  refuseIf (call.inTransaction = true)
    (.message "api: idempotent operation must own its transaction")
  let invalid := Failure.media 400 "INVALID_OPERATION" "Invalid operation input"
  let input ← (receiptObject config.lib call.input).mapError fun _ => invalid
  let canonical ← (canonicalOperation input).mapError fun _ => invalid
  pure (config.digest canonical)

/-- `Execute`, on the row that is there. -/
def execute (row : Option Receipt) : Execution × Option Receipt :=
  match precheck config call with
  | .error e => (unchanged false e, row)
  | .ok requestDigest => atomic config call requestDigest row

end Execute

def rowAfter (config : Config) (row : Option Receipt) : List Call → Option Receipt
  | [] => row
  | call :: calls => rowAfter config (execute config call row).2 calls

end Gogo.Api

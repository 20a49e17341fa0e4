import Gogo.Lib.FinMap
import Gogo.Lib.Json
import Gogo.Lib.Run

/-!
# Tasks, envelopes and workflow graphs on the wire

`async/protocol.go`, `task.go` and `ports.go`: the values that clients, workers, relays and stores
exchange. A raw JSON message is kept as the value it holds, and is absent when it has no bytes.
Instants count nanoseconds from the zero time.

* `State`, `Failure`, `Signature`, `Envelope` — a task as it is declared and as it is dispatched.
* `Codec` — what the code takes from hashing and from the length of an encoding.
* `Envelope.validate`, `Envelope.digest` — the checks of the wire format and the identity of a task.
* `Record`, `Transition`, `Intent`, `Completion`, `Graph`, `CanvasNode` — what the stores keep.
-/

namespace Gogo.Async

open Gogo.Lib

/-! ## Errors, states and times -/

/-- Source: `protocol.go`, the errors of the package; `workflowSize` is `canvas_limits.go`
`errWorkflowSize`, and `other` is an error of application code or of a connection. -/
inductive Err
  | invalid
  | unknownTask
  | notFound
  | busy
  | leaseLost
  | conflict
  | pinned
  | denied
  | unavailable
  | canceled
  | workflowSize
  | other (message : String)
deriving DecidableEq

/-- Source: `protocol.go` `State`; `unset` is the empty string. -/
inductive State
  | unset
  | unknown
  | scheduled
  | queued
  | running
  | retryWait
  | succeeded
  | failed
  | revoked
  | expired
deriving DecidableEq

/-- Source: `protocol.go` `State.Terminal`. -/
def State.terminal (s : State) : Bool :=
  s == .succeeded || s == .failed || s == .revoked || s == .expired

/-- An instant, in nanoseconds from the zero time. -/
abbrev Time := ℕ

/-- A duration, in nanoseconds. -/
abbrev Duration := ℤ

/-- Source: `time.Time.Add`. -/
def Time.add (t : Time) (d : Duration) : Time := ((t : ℤ) + d).toNat

/-- Source: `state.go` `later`. -/
def later (a b : Time) : Time := if b < a then a else b

/-- Source: `math.MaxUint64`. -/
def maxUint64 : ℕ := 2 ^ 64 - 1

/-- Increment of a `uint64`. -/
def increment (n : ℕ) : ℕ := (n + 1) % 2 ^ 64

/-- Source: `json.RawMessage`; `none` has no bytes. -/
abbrev RawMessage := Option Json

/-- Source: `protocol.go` `Failure`. -/
structure Failure where
  code : String
  message : String
deriving DecidableEq

/-! ## Tasks -/

/-- Source: `task.go` `DispatchOptions`. -/
structure DispatchOptions where
  id : String := ""
  queue : String := ""
  priority : ℤ := 0
  eta : Time := 0
  countdown : Duration := 0
  expiresAt : Time := 0
  scope : String := ""
  principal : String := ""
  idempotencyKey : String := ""
  correlationId : String := ""
  headers : FinMap String String := .empty
  stamps : FinMap String String := .empty

/-- Source: `task.go` `Signature`. -/
structure Signature where
  task : String
  version : ℤ
  args : RawMessage
  options : DispatchOptions := {}
  immutable : Bool := false
  parentField : String := ""
  callbacks : List Signature := []
  errbacks : List Signature := []

mutual

/-- Source: `task.go` `Signature.Clone`: absent arguments come back as the value `null`. -/
def Signature.clone : Signature → Signature
  | ⟨task, version, args, options, immutable, parentField, callbacks, errbacks⟩ =>
    ⟨task, version, some (args.getD .null), options, immutable, parentField,
      Signature.cloneAll callbacks, Signature.cloneAll errbacks⟩

/-- `cloneJSON` of a list of signatures. -/
def Signature.cloneAll : List Signature → List Signature
  | [] => []
  | s :: rest => s.clone :: Signature.cloneAll rest

end

/-- Source: `task.go` `Signature.Set` with `WithID`. -/
def Signature.withId (s : Signature) (id : String) : Signature :=
  { s.clone with options := { s.options with id := id } }

/-- Source: `protocol.go` `Envelope`. -/
structure Envelope where
  protocolVersion : ℤ
  id : String
  task : String
  version : ℤ
  args : RawMessage
  createdAt : Time
  queue : String
  retries : ℤ := 0
  maxRetries : Option ℤ := none
  eta : Time := 0
  expiresAt : Time := 0
  priority : ℤ := 0
  workflowId : String := ""
  parentId : String := ""
  rootId : String := ""
  scope : String := ""
  principal : String := ""
  idempotencyKey : String := ""
  correlationId : String := ""
  headers : FinMap String String := .empty
  traceContext : FinMap String String := .empty
  stamps : FinMap String String := .empty
  callbacks : List Signature := []
  errbacks : List Signature := []
  replacementDepth : ℤ := 0

/-- `cloneJSON` of an envelope. -/
def Envelope.clone (e : Envelope) : Envelope :=
  { e with
    args := some (e.args.getD .null)
    callbacks := Signature.cloneAll e.callbacks
    errbacks := Signature.cloneAll e.errbacks }

/-! ## What the stores keep -/

/-- Source: `ports.go` `Record`. -/
structure Record where
  envelope : Envelope
  digest : String
  state : State
  fence : ℕ := 0
  owner : String := ""
  leaseUntil : Time := 0
  revision : ℕ
  deliveryCount : ℤ := 0
  output : RawMessage := none
  failure : Option Failure := none
  progress : RawMessage := none
  cancelRequested : Bool := false
  finishedAt : Time := 0
  payloadExpiresAt : Time := 0
  tombstoneUntil : Time := 0
  replayUntil : Time := 0
  pinned : Bool := false
  replacementId : String := ""

/-- `cloneJSON` of a record. -/
def Record.clone (r : Record) : Record := { r with envelope := r.envelope.clone }

/-- Source: `ports.go` `Completion`. -/
structure Completion where
  id : String
  state : State
  output : RawMessage := none
  failure : Option Failure := none

/-- The two kinds of node that `canvasCompiler` emits. -/
inductive NodeKind
  | task
  | collect
deriving DecidableEq

/-- Source: `ports.go` `CanvasNode`. -/
structure CanvasNode where
  id : String
  kind : NodeKind
  dependencies : List String := []
  waitFor : List String := []
  signature : Option Signature := none
  dispatched : Bool := false

/-- The kinds of graph that `ApplyCanvas` and `canvasCompiler` create. -/
inductive GraphKind
  | chain
  | group
  | chord
  | dag
deriving DecidableEq

/-- Source: `ports.go` `Graph`, without `PayloadForgotten`, which only the retention port sets. -/
structure Graph where
  id : String
  kind : GraphKind
  scope : String := ""
  children : List Envelope := []
  signatures : List Signature := []
  callback : Option Signature := none
  callbackId : String := ""
  members : FinMap String Completion := .empty
  state : State := .running
  output : RawMessage := none
  failure : Option Failure := none
  next : ℕ := 0
  revision : ℕ := 1
  callbackClaimed : Bool := false
  callbackEnvelope : Option Envelope := none
  cancelRequested : Bool := false
  plan : List CanvasNode := []
  rootNode : String := ""
  originTaskId : String := ""
  originDigest : String := ""
  abortFailure : Option Failure := none

/-- The kinds of intent that the relay knows. -/
inductive IntentKind
  | publish
  | fail
  | cancel
  | unpin
  | completion
  | replace
  | replacementComplete
  | cancelWorkflow
deriving DecidableEq

/-- Source: `ports.go` `Intent`; its delivery lease is kept by the store. -/
structure Intent where
  id : String
  sourceId : String
  kind : IntentKind
  envelope : Option Envelope := none
  workflowId : String := ""
  targetId : String := ""
  completion : Option Completion := none
  failure : Option Failure := none
  state : State := .unset
  graph : Option Graph := none

/-- Source: `ports.go` `Claim`. -/
structure Claim where
  record : Record
  acquired : Bool := false
  duplicate : Bool := false

/-- Source: `ports.go` `Transition`. -/
structure Transition where
  id : String
  fence : ℕ := 0
  owner : String := ""
  state : State
  output : RawMessage := none
  failure : Option Failure := none
  next : Option Envelope := none
  intents : List Intent := []
  replacementId : String := ""

/-! ## Hashes and lengths -/

/-- What the code takes from SHA-256 and from the length of a JSON encoding. A length is absent
where the encoder fails. -/
structure Codec where
  /-- Source: `protocol.go` `StableID`. -/
  stableId : String → String → String
  stableId_ne : ∀ source label, stableId source label ≠ ""
  /-- The hexadecimal hash of the encoding of an envelope. -/
  hash : Envelope → String
  /-- The length of a JSON text. -/
  jsonLength : Json → ℕ
  /-- The length of the encoding of an envelope. -/
  envelopeLength : Envelope → Option ℕ
  /-- The length of the encoding of a graph. -/
  graphLength : Graph → Option ℕ
  /-- The length of the encoding of a list of intents. -/
  intentsLength : List Intent → Option ℕ

/-- Source: `protocol.go` `MaxPayloadBytes`. -/
def maxPayloadBytes : ℕ := 256 * 1024

/-- `len` of a raw message. -/
def Codec.length (codec : Codec) : RawMessage → ℕ
  | none => 0
  | some j => codec.jsonLength j

/-- An encoding that exists and has at most `limit` bytes. -/
def withinLength (limit : ℕ) : Option ℕ → Bool
  | none => false
  | some n => n ≤ limit

/-! ## Checks of the wire format -/

/-- Source: `protocol.go` `namePattern`. -/
def namePattern (s : String) : Bool :=
  match s.toList with
  | [] => false
  | c :: rest =>
    c.isAlpha && rest.length ≤ 191 &&
      rest.all fun d => d.isAlphanum || d == '_' || d == '.' || d == '-'

/-- A lower-case hexadecimal digit. -/
def isHexDigit (c : Char) : Bool := c.isDigit || ('a' ≤ c && c ≤ 'f')

/-- The places of the digits and of the dashes of an identifier. -/
def idTemplate : List Char := "00000000-0000-0000-0000-000000000000".toList

/-- Source: `protocol.go` `idPattern`. -/
def idPattern (s : String) : Bool :=
  s.toList.length == idTemplate.length &&
    (s.toList.zip idTemplate).all fun p => if p.2 == '-' then p.1 == '-' else isHexDigit p.1

/-- Source: `replacement.go` `MaxReplacementDepth`. -/
def maxReplacementDepth : ℤ := 16

/-- Source: `protocol.go` `ProtocolVersion`. -/
def protocolVersion : ℤ := 1

/-- The checks that `Envelope.Validate` makes of one of its three string maps. -/
def validHeaders (headers : FinMap String String) : Bool :=
  headers.entries.length ≤ 32 &&
    headers.entries.all fun e => namePattern e.1 && e.2.utf8ByteSize ≤ 1024

/-- The retry bound of an envelope, where it has one. -/
def validRetries (e : Envelope) : Bool :=
  match e.maxRetries with
  | none => true
  | some m => 0 ≤ m && e.retries ≤ m

/-- Every check of `Envelope.Validate` but the one of its length. -/
def Envelope.wellFormed (e : Envelope) : Bool :=
  (0 ≤ e.replacementDepth && e.replacementDepth ≤ maxReplacementDepth) &&
  (e.protocolVersion == Async.protocolVersion && idPattern e.id && namePattern e.task &&
    1 ≤ e.version && namePattern e.queue && e.createdAt != 0 && 0 ≤ e.retries &&
    0 ≤ e.priority && e.priority ≤ 9 && e.args.isSome) &&
  validRetries e &&
  ([e.workflowId, e.parentId, e.rootId].all fun id => id == "" || idPattern id) &&
  (e.scope.utf8ByteSize ≤ 256 && e.principal.utf8ByteSize ≤ 256 &&
    e.idempotencyKey.utf8ByteSize ≤ 256 && e.correlationId.utf8ByteSize ≤ 256) &&
  [e.headers, e.traceContext, e.stamps].all validHeaders

section Codec

variable (codec : Codec)

/-- Source: `protocol.go` `Envelope.Validate`. -/
def Envelope.validate (e : Envelope) : Except Err Unit :=
  if e.wellFormed && withinLength maxPayloadBytes (codec.envelopeLength e) then .ok ()
  else .error .invalid

/-- Source: `protocol.go` `Envelope.Digest`. -/
def Envelope.digest (e : Envelope) : String := codec.hash { e with eta := 0, retries := 0 }

lemma Envelope.validate_eq_ok {e : Envelope} :
    e.validate codec = .ok () ↔
      e.wellFormed = true ∧ withinLength maxPayloadBytes (codec.envelopeLength e) = true := by
  unfold Envelope.validate
  split_ifs with h
  · simpa using h
  · simpa using h

end Codec

example : idPattern "00000000-0000-4000-8000-00000000abcd" = true := by decide

end Gogo.Async

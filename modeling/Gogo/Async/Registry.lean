import Gogo.Async.Protocol

/-!
# Registered tasks and the envelopes made of them

`async/task.go`, `canvas.go` `inputBindingType`, `links.go` `validateLinks` and `client.go`: what a
client knows of the registered tasks, how a result is bound into the arguments of a signature, and
how a signature becomes an envelope.

* `GoType`, `Definition`, `Registry` — the declared types of a task and the checks of its payload.
* `Signature.bind` — the arguments of a task that follows another one.
* `Client.prepare` — the envelope of a signature, with its linked callbacks normalised.
-/

namespace Gogo.Async

open Gogo.Lib

/-! ## Types and definitions -/

/-- A Go type as `reflect` sees it. A struct is known by its name. -/
inductive GoType
  | plain (name : String)
  | struct (name : String)
  | pointer (elem : GoType)
  | slice (name : String) (elem : GoType)
deriving DecidableEq

/-- A field of a struct; `tag` is the value of its tag `json`. -/
structure StructField where
  name : String
  tag : String := ""
  exported : Bool := true
  type : GoType

/-- What the workflow code reads of `task.go` `definition`. -/
structure Definition where
  input : GoType
  output : GoType
  /-- The payload check, application code included. -/
  validate : RawMessage → Except Err Unit
  validateOutput : RawMessage → Except Err Unit
  /-- Source: `TaskOptions.Queue`. -/
  queue : String
  /-- Source: `RetryPolicy.MaxRetries`. -/
  maxRetries : Option ℤ

/-- Source: `task.go` `Registry`, with the fields of the struct types that occur in it. -/
structure Registry where
  definitions : FinMap String Definition
  fields : String → List StructField

/-- Source: `task.go` `definitionKey`. -/
def definitionKey (name : String) (version : ℤ) : String := name ++ "@" ++ toString version

/-- Source: `task.go` `Registry.lookup`. -/
def Registry.lookup (reg : Registry) (name : String) (version : ℤ) : Except Err Definition :=
  match reg.definitions.get? (definitionKey name version) with
  | some d => .ok d
  | none => .error .unknownTask

/-- A type without its pointers. -/
def GoType.deref : GoType → GoType
  | .pointer elem => elem.deref
  | t => t

/-- The element type of a slice. -/
def GoType.elem? : GoType → Option GoType
  | .slice _ elem => some elem
  | _ => none

/-- The name of a field in JSON: the part of the tag before the first comma, or the field's own. -/
def StructField.jsonName (f : StructField) : String :=
  let name := String.ofList (f.tag.toList.takeWhile (· != ','))
  if name = "" then f.name else name

/-- Source: `canvas.go` `inputBindingType`. -/
def inputBindingType (reg : Registry) (d : Definition) (s : Signature) : Except Err GoType :=
  if s.parentField = "" then .ok d.input
  else
    match d.input.deref with
    | .struct name =>
      match (reg.fields name).find? fun f => f.exported && f.jsonName == s.parentField with
      | some f => .ok f.type
      | none => .error .invalid
    | _ => .error .invalid

/-! ## Binding -/

/-- The encoding of a string map, with its keys in order. -/
def encodeFields (m : FinMap String Json) : Json :=
  .obj ((sortStrings m.keys).filterMap fun k => (m.get? k).map fun v => (k, v))

/-- Source: `task.go` `Signature.bind`. -/
def Signature.bind (s : Signature) (result : RawMessage) : Except Err Signature :=
  if s.immutable then .ok s.clone
  else if s.parentField = "" then .ok { s.clone with args := result }
  else
    match s.args with
    | some (.obj entries) =>
      let fields := (FinMap.ofList entries).set s.parentField (result.getD .null)
      .ok { s.clone with args := some (encodeFields fields) }
    | _ => .error .invalid

/-! ## Clients -/

/-- Source: `client.go` `Route`. -/
structure Route where
  pattern : String
  queue : String

/-- What the workflow code reads of `client.go` `Client`. -/
structure Client where
  registry : Registry
  queues : List String
  routes : List Route
  /-- The allowed headers. -/
  headers : List String
  /-- Source: `path.Match`. -/
  pathMatch : String → String → Bool
  /-- The configured hook `Authorize`. -/
  authorizer : Option (String → String → String → Except Err Unit)

/-- What a call takes from its surroundings: the clock and the next random identifier. -/
structure Env where
  now : Time
  newId : Except Err String

/-- Source: `client.go` `Client.authorize`. -/
def Client.authorize (c : Client) (operation scope id : String) : Except Err Unit :=
  match c.authorizer with
  | some f =>
    match f operation scope id with
    | .ok () => .ok ()
    | .error _ => .error .denied
  | none => if scope ≠ "" then .error .denied else .ok ()

/-- The queue of the first route that passes a test. -/
def routedQueue (routes : List Route) (test : Route → Bool) : String :=
  match routes.find? test with
  | some route => route.queue
  | none => ""

/-- The queue of a task: the one it names, else that of a route for it, else its own. -/
def Client.queueOf (c : Client) (queue task : String) (own : String) : String :=
  let exact := routedQueue c.routes fun route => route.pattern == task
  let matching := routedQueue c.routes fun route => c.pathMatch route.pattern task
  if queue ≠ "" then queue
  else if exact ≠ "" then exact
  else if matching ≠ "" then matching
  else own

/-- What `normalizeLinkOptions` makes of the options of one link. -/
def Client.normalizeLink (c : Client) (scope : String) (link : Signature) :
    Except Err Signature := do
  refuseIf (link.options.scope ≠ "" ∧ link.options.scope ≠ scope) .denied
  let d ← c.registry.lookup link.task link.version
  let queue := c.queueOf link.options.queue link.task d.queue
  refuseIf (queue ∉ c.queues ∨ link.options.priority < 0 ∨ 9 < link.options.priority ∨
    link.options.countdown < 0) .invalid
  refuseIf (¬ ∀ key ∈ link.options.headers.keys, key ∈ c.headers) .invalid
  .ok { link with options := { link.options with scope := scope, queue := queue } }

/-- Source: `client.go` `Client.normalizeLinkOptions`, with `fuel` for the depths that are left. -/
def Client.normalizeLinkOptions (c : Client) (scope : String) :
    ℕ → Signature → Except Err Signature
  | 0, _ => .error .invalid
  | fuel + 1, s => do
    let callbacks ← s.clone.callbacks.mapM fun link => do
      let link ← c.normalizeLink scope link
      c.normalizeLinkOptions scope fuel link
    let errbacks ← s.clone.errbacks.mapM fun link => do
      let link ← c.normalizeLink scope link
      c.normalizeLinkOptions scope fuel link
    .ok { s.clone with callbacks := callbacks, errbacks := errbacks }

/-- The type of the value that an errback receives. -/
def failureType : GoType := .struct "async.Failure"

/-- The check that `validateLinks` makes of one link, given the type of the value it receives. -/
def Registry.validateLink (reg : Registry) (source : GoType) (link : Signature) :
    Except Err Unit := do
  let d ← reg.lookup link.task link.version
  if link.immutable then .ok ()
  else do
    let target ← inputBindingType reg d link
    refuseIf (target ≠ source) .invalid

/-- Source: `links.go` `Registry.validateLinks`, with `fuel` for the depths that are left. -/
def Registry.validateLinks (reg : Registry) : ℕ → Signature → Except Err Unit
  | 0, _ => .error .invalid
  | fuel + 1, s =>
    if 32 < s.callbacks.length + s.errbacks.length then .error .invalid
    else do
      let parent ← reg.lookup s.task s.version
      s.callbacks.forM fun link => do
        reg.validateLink parent.output link
        reg.validateLinks fuel link
      s.errbacks.forM fun link => do
        reg.validateLink failureType link
        reg.validateLinks fuel link

/-- The check that `prepare` makes of one direct link. -/
def Registry.validateDirectLink (reg : Registry) (scope : String) (link : Signature) :
    Except Err Unit := do
  let d ← reg.lookup link.task link.version
  d.validate link.args
  refuseIf (link.options.scope ≠ "" ∧ link.options.scope ≠ scope) .denied

section Prepare

variable (codec : Codec) (c : Client) (env : Env)

/-- The identifier of a new envelope. -/
def Env.idOr (id : String) : Except Err String := if id = "" then env.newId else .ok id

/-- The instant before which an envelope is not delivered. -/
def etaOf (o : DispatchOptions) : Time :=
  if 0 < o.countdown then Time.add env.now o.countdown else o.eta

/-- The checks that `prepare` makes of a queue and of the options of a signature. -/
def Client.checkOptions (o : DispatchOptions) (queue : String) : Except Err Unit := do
  refuseIf (queue ∉ c.queues) .invalid
  refuseIf (¬ ∀ key ∈ o.headers.keys, key ∈ c.headers) .invalid
  refuseIf (o.expiresAt ≠ 0 ∧
    (o.expiresAt ≤ env.now ∨ (etaOf env o ≠ 0 ∧ o.expiresAt ≤ etaOf env o))) .invalid

/-- The envelope that `prepare` builds of a normalised signature. -/
def buildEnvelope (s : Signature) (d : Definition) (id queue : String) : Envelope :=
  { protocolVersion := protocolVersion
    id := id
    task := s.task
    version := s.version
    args := s.args
    createdAt := env.now
    queue := queue
    maxRetries := d.maxRetries
    eta := etaOf env s.options
    expiresAt := s.options.expiresAt
    priority := s.options.priority
    rootId := id
    scope := s.options.scope
    principal := s.options.principal
    idempotencyKey := s.options.idempotencyKey
    correlationId := s.options.correlationId
    headers := s.options.headers
    stamps := s.options.stamps
    callbacks := Signature.cloneAll s.callbacks
    errbacks := Signature.cloneAll s.errbacks }

/-- Source: `client.go` `Client.prepare`. -/
def Client.prepare (s : Signature) : Except Err Envelope := do
  let s ← c.normalizeLinkOptions s.options.scope 17 s
  let d ← c.registry.lookup s.task s.version
  c.registry.validateLinks 17 s
  d.validate s.args
  refuseIf (32 < s.callbacks.length ∨ 32 < s.errbacks.length) .invalid
  (s.callbacks ++ s.errbacks).forM (c.registry.validateDirectLink s.options.scope)
  refuseIf (s.options.countdown < 0 ∨ (s.options.eta ≠ 0 ∧ s.options.countdown ≠ 0)) .invalid
  let id ← env.idOr s.options.id
  let queue := c.queueOf s.options.queue s.task d.queue
  c.checkOptions env s.options queue
  (buildEnvelope env s d id queue).validate codec
  .ok (buildEnvelope env s d id queue)

end Prepare

end Gogo.Async

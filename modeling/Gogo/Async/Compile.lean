import Gogo.Async.Advance

/-!
# From a canvas to a graph

`async/nested.go` `canvasCompiler`, `canvas.go` `ApplyCanvas` and `replacement.go`: the three ways in
which a workflow graph comes into being.

* `Canvas` — a composition of signatures.
* `compile` — the plan of a nested canvas: a task node for every signature, a collect node for every
  group, in the order in which they are met.
* `applyCanvas` — a flat canvas becomes a chain, group or chord; a nested one a compiled graph.
* `prepareReplacement`, `startReplacement` — the compiled graph that a task yields to.
-/

namespace Gogo.Async

open Gogo.Lib

/-! ## Canvases -/

/-- Source: `canvas.go` `Canvas.Kind`; any other text is `unknown`. -/
inductive CanvasKind
  | task
  | chain
  | group
  | chord
  | sequence
  | parallel
  | unknown
deriving DecidableEq

/-- Source: `canvas.go` `Canvas`. -/
structure Canvas where
  kind : CanvasKind
  signatures : List Signature := []
  callback : Option Signature := none
  steps : List Canvas := []

/-! ## The compiler -/

/-- Source: `nested.go` `valueReference`. -/
structure ValueReference where
  id : String
  type : GoType
  empty : Bool := false

/-- Source: `nested.go` `canvasCompiler`. -/
structure Compiler where
  graph : Graph
  hasScope : Bool := false

/-- The type `[]json.RawMessage`. -/
def rawMessages : GoType := .slice "" (.slice "json.RawMessage" (.plain "uint8"))

/-- The type of the list of some values. -/
def collectType (values : List ValueReference) : GoType :=
  match values with
  | [] => rawMessages
  | v :: rest => if rest.all fun w => w.type == v.type then .slice "" v.type else rawMessages

section Compile

variable (codec : Codec) (c : Client) (env : ℕ → Env)

/-- Source: `nested.go` `canvasCompiler.collect`. -/
def Compiler.collect (b : Compiler) (values : List ValueReference) (input : Option ValueReference) :
    Compiler × ValueReference :=
  let id := codec.stableId b.graph.id ("collect-" ++ toString b.graph.plan.length)
  let node : CanvasNode :=
    { id := id
      kind := .collect
      dependencies := values.map ValueReference.id
      waitFor := if values.isEmpty then (input.map ValueReference.id).toList else [] }
  ({ b with graph := { b.graph with plan := b.graph.plan ++ [node] } },
    { id := id, type := collectType values, empty := values.isEmpty })

/-- The check that a task can take the value it is given. -/
def checkInput (d : Definition) (s : Signature) (input : Option ValueReference) :
    Except Err Unit :=
  match input with
  | none => .ok ()
  | some v =>
    if s.immutable then .ok ()
    else
      match inputBindingType c.registry d s with
      | .error _ => .error .invalid
      | .ok target =>
        refuseIf (v.type ≠ target ∧ ¬ (v.empty ∧ target.elem?.isSome)) .invalid

/-- The envelope of a task of the plan. -/
def placeEnvelope (graphId : String) (input : Option ValueReference) (e : Envelope) : Envelope :=
  { e with
    workflowId := graphId
    rootId := graphId
    parentId := (input.map ValueReference.id).getD graphId }

/-- Source: `nested.go` `canvasCompiler.task`. -/
def Compiler.task (b : Compiler) (s : Signature) (input : Option ValueReference) :
    Except Err (Compiler × ValueReference) := do
  refuseIf (1000 ≤ b.graph.children.length ∨ 2000 ≤ b.graph.plan.length) .invalid
  let d ← c.registry.lookup s.task s.version
  checkInput c d s input
  let id := codec.stableId b.graph.id ("task-" ++ toString b.graph.children.length)
  let e ← c.prepare codec (env b.graph.children.length) (s.withId id)
  refuseIf (b.hasScope ∧ e.scope ≠ b.graph.scope) .denied
  let node : CanvasNode :=
    { id := id
      kind := .task
      dependencies := (input.map ValueReference.id).toList
      signature := some (s.withId id).clone }
  .ok
    ({ hasScope := true
       graph :=
        { b.graph with
          scope := e.scope
          children := b.graph.children ++ [placeEnvelope b.graph.id input e]
          plan := b.graph.plan ++ [node] } },
      { id := id, type := d.output })

/-- One part of a sequence: it takes the value of the part before it. -/
def thenStep {α : Type}
    (part : Compiler → α → Option ValueReference → Except Err (Compiler × ValueReference))
    (st : Compiler × Option ValueReference) (a : α) :
    Except Err (Compiler × Option ValueReference) := do
  let (b, v) ← part st.1 a st.2
  .ok (b, some v)

/-- One part of a group: every part takes the value that came before the group. -/
def besideStep {α : Type}
    (part : Compiler → α → Option ValueReference → Except Err (Compiler × ValueReference))
    (input : Option ValueReference) (st : Compiler × List ValueReference) (a : α) :
    Except Err (Compiler × List ValueReference) := do
  let (b, v) ← part st.1 a input
  .ok (b, st.2 ++ [v])

/-- The parts of a chain or of a sequence; without any, the value that came before it. -/
def Compiler.inSequence {α : Type}
    (part : Compiler → α → Option ValueReference → Except Err (Compiler × ValueReference))
    (b : Compiler) (parts : List α) (input : Option ValueReference) :
    Except Err (Compiler × ValueReference) := do
  let (b, previous) ← run (thenStep part) (b, input) parts
  match previous with
  | none => .ok (b.collect codec [] none)
  | some v => .ok (b, v)

/-- The parts of a group, collected. -/
def Compiler.inParallel {α : Type}
    (part : Compiler → α → Option ValueReference → Except Err (Compiler × ValueReference))
    (b : Compiler) (parts : List α) (input : Option ValueReference) :
    Except Err (Compiler × ValueReference) := do
  let (b, values) ← run (besideStep part input) (b, []) parts
  .ok (b.collect codec values input)

/-- Source: `nested.go` `canvasCompiler.compile`, with `fuel` for the depths that are left. -/
def Compiler.compile : ℕ → Compiler → Canvas → Option ValueReference →
    Except Err (Compiler × ValueReference)
  | 0, _, _, _ => .error .invalid
  | fuel + 1, b, canvas, input => do
    refuseIf (2000 < b.graph.plan.length ∨ 1000 < b.graph.children.length) .invalid
    match canvas.kind with
    | .task =>
      match canvas.signatures with
      | [s] => do
        refuseIf (canvas.steps ≠ [] ∨ canvas.callback.isSome) .invalid
        b.task codec c env s input
      | _ => .error .invalid
    | .chain => do
      refuseIf (canvas.steps ≠ [] ∨ canvas.callback.isSome ∨
        1000 < canvas.signatures.length) .invalid
      b.inSequence codec (fun b s input => b.task codec c env s input) canvas.signatures input
    | .group => do
      refuseIf (canvas.steps ≠ [] ∨ 1000 < canvas.signatures.length) .invalid
      let r ← b.inParallel codec (fun b s input => b.task codec c env s input)
        canvas.signatures input
      refuseIf canvas.callback.isSome .invalid
      .ok r
    | .chord => do
      refuseIf (canvas.steps ≠ [] ∨ 1000 < canvas.signatures.length) .invalid
      let (b, group) ← b.inParallel codec (fun b s input => b.task codec c env s input)
        canvas.signatures input
      match canvas.callback with
      | none => .error .invalid
      | some callback => b.task codec c env callback (some group)
    | .sequence => do
      refuseIf (canvas.signatures ≠ [] ∨ canvas.callback.isSome ∨
        1000 < canvas.steps.length) .invalid
      b.inSequence codec (fun b step input => Compiler.compile fuel b step input)
        canvas.steps input
    | .parallel => do
      refuseIf (canvas.signatures ≠ [] ∨ canvas.callback.isSome ∨
        1000 < canvas.steps.length) .invalid
      b.inParallel codec (fun b step input => Compiler.compile fuel b step input)
        canvas.steps input
    | .unknown => .error .invalid

/-- The depths that `compile` allows. -/
def compileDepth : ℕ := 33

/-! ## Nested canvases -/

/-- The graph that a canvas is compiled into. -/
def compileCanvas (start : Compiler) (canvas : Canvas) : Except Err (Graph × ValueReference) := do
  let (b, root) ← start.compile codec c env compileDepth canvas none
  .ok ({ b.graph with rootNode := root.id }, root)

/-- Source: `canvas_limits.go` `validateGraphAcceptance`. -/
def validateGraphAcceptance (g : Graph) (intents : List Intent) : Except Err Unit :=
  refuseIf (¬ withinGraphBudget codec g intents maxWorkflowInitialBytes) .invalid

/-- Source: `nested.go` `Client.applyNested`, up to `CreateGraph`. -/
def applyNested (now : Env) (id : String) (canvas : Canvas) : Advanced := do
  let (g, _) ← compileCanvas codec c env { graph := { id := id, kind := .dag } } canvas
  c.authorize "enqueue" g.scope id
  let (g, intents) ← advance codec c now g
  validateGraphAcceptance codec g intents
  .ok (g, intents)

/-! ## Flat canvases -/

/-- The check that a chain successor can take the output of its predecessor. -/
def checkChainInput (prior s : Signature) (d : Definition) : Except Err Unit :=
  if s.immutable then .ok ()
  else
    match inputBindingType c.registry d s, c.registry.lookup prior.task prior.version with
    | .ok target, .ok p => refuseIf (target ≠ p.output) .invalid
    | _, _ => .error .invalid

/-- The checks of one signature of a flat canvas, given the one before it. -/
def checkSignature (kind : CanvasKind) (prior : Option Signature) (s : Signature) :
    Except Err (Option Signature) := do
  let d ← c.registry.lookup s.task s.version
  d.validate s.args
  match kind, prior with
  | .chain, some p => checkChainInput c p s d
  | _, _ => .ok ()
  .ok (some s)

/-- The check that a chord callback can take the outputs of the members. -/
def checkCallback (signatures : List Signature) (callback : Signature) : Except Err Unit := do
  let d ← c.registry.lookup callback.task callback.version
  if callback.immutable then .ok ()
  else
    match inputBindingType c.registry d callback with
    | .error _ => .error .invalid
    | .ok target =>
      match target.elem? with
      | none => .error .invalid
      | some elem =>
        signatures.forM fun s => do
          let source ← c.registry.lookup s.task s.version
          refuseIf (source.output ≠ elem) .invalid

/-- Source: `canvas.go` `Client.validateCanvas`. -/
def validateCanvas (canvas : Canvas) : Except Err Unit := do
  refuseIf (1000 < canvas.signatures.length) .invalid
  refuseIf (canvas.kind ≠ .chain ∧ canvas.kind ≠ .group ∧ canvas.kind ≠ .chord) .invalid
  let _ ← run (checkSignature c canvas.kind) none canvas.signatures
  if canvas.kind = .chord then
    match canvas.callback with
    | none => .error .invalid
    | some callback => checkCallback c canvas.signatures callback
  else .ok ()

/-- The kind of graph that a flat canvas becomes. -/
def CanvasKind.graphKind : CanvasKind → GraphKind
  | .chain => .chain
  | .chord => .chord
  | _ => .group

/-- The parent of the next child of a flat graph. -/
def flatParent (g : Graph) : String :=
  match g.kind, g.children.getLast? with
  | .chain, some previous => previous.id
  | _, _ => g.id

/-- The next child of a flat graph. -/
def flatChild (g : Graph) (s : Signature) : Except Err Graph := do
  let i := g.children.length
  let e ← c.prepare codec (env i) (s.withId (codec.stableId g.id ("child-" ++ toString i)))
  refuseIf (g.children ≠ [] ∧ g.scope ≠ e.scope) .denied
  .ok
    { g with
      scope := e.scope
      children := g.children ++
        [{ e with workflowId := g.id, rootId := g.id, parentId := flatParent g }] }

/-- The callback of a flat graph. -/
def flatCallback (g : Graph) (callback : Signature) : Except Err Graph := do
  let scope := if g.children = [] then callback.options.scope else g.scope
  refuseIf (callback.options.scope ≠ scope) .denied
  .ok { g with callbackId := codec.stableId g.id "body", scope := scope }

/-- The intents with which a flat graph starts. -/
def flatIntents (g : Graph) : List Intent :=
  match g.kind with
  | .chain => (g.children.take 1).map (dispatchIntent codec g.id)
  | _ => g.children.map (dispatchIntent codec g.id)

/-- The flat graph of a canvas. -/
def flatGraph (id : String) (canvas : Canvas) : Except Err Graph := do
  let start : Graph :=
    { id := id
      kind := canvas.kind.graphKind
      signatures := Signature.cloneAll canvas.signatures
      callback := canvas.callback }
  let g ← run (flatChild codec c env) start canvas.signatures
  match canvas.callback with
  | none => .ok g
  | some callback => flatCallback codec g callback

/-- The beginning of a flat graph; one without members ends or goes on at once. -/
def flatBegin (now : Env) (g : Graph) : Advanced :=
  if g.children = [] then advance codec c now g else .ok (g, flatIntents codec g)

/-- The part of `ApplyCanvas` for flat canvases, up to `CreateGraph`. -/
def applyFlat (now : Env) (id : String) (canvas : Canvas) : Advanced := do
  validateCanvas c canvas
  let g ← flatGraph codec c env id canvas
  c.authorize "enqueue" g.scope id
  let (g, intents) ← flatBegin codec c now g
  validateGraphAcceptance codec g intents
  .ok (g, intents)

/-- Source: `canvas.go` `Client.ApplyCanvas`, up to `CreateGraph`, with the identifier that `NewID`
returned. -/
def applyCanvas (now : Env) (id : String) (canvas : Canvas) : Advanced :=
  match canvas.kind with
  | .sequence | .parallel | .task => applyNested codec c env now id canvas
  | _ => applyFlat codec c env now id canvas

/-! ## Replacements -/

/-- What a signature of a replacement inherits from the task that yields to it. -/
def inheritSignature (original : Envelope) (s : Signature) : Except Err Signature := do
  refuseIf ((s.options.scope ≠ "" ∧ s.options.scope ≠ original.scope) ∨
    (s.options.principal ≠ "" ∧ s.options.principal ≠ original.principal)) .denied
  let expiresAt :=
    if original.expiresAt ≠ 0 ∧
        (s.options.expiresAt = 0 ∨ original.expiresAt < s.options.expiresAt) then original.expiresAt
    else s.options.expiresAt
  .ok
    { s with
      options :=
        { s.options with
          scope := original.scope, principal := original.principal, expiresAt := expiresAt } }

/-- The closure `inherit` of `prepareReplacement`, with `fuel` for the depths that are left. -/
def inherit (original : Envelope) : ℕ → Canvas → Except Err Canvas
  | 0, _ => .error .invalid
  | fuel + 1, canvas => do
    refuseIf (1000 < canvas.signatures.length ∨ 1000 < canvas.steps.length) .invalid
    let signatures ← canvas.signatures.mapM (inheritSignature original)
    let callback ← match canvas.callback with
      | none => Except.ok none
      | some s => (inheritSignature original s).map some
    let steps ← canvas.steps.mapM (inherit original fuel)
    .ok { canvas with signatures := signatures, callback := callback, steps := steps }

/-- The child of a replacement, placed below the task that yields to it. -/
def placeReplacement (original : Envelope) (graphId : String) (child : Envelope) : Envelope :=
  { child with
    replacementDepth := original.replacementDepth + 1
    rootId := if original.rootId = "" then original.id else original.rootId
    parentId := if child.parentId = graphId then original.id else child.parentId }

/-- Source: `replacement.go` `Worker.prepareReplacement`. -/
def prepareReplacement (original : Envelope) (d : Definition) (canvas : Canvas) :
    Except Err Graph := do
  refuseIf (maxReplacementDepth ≤ original.replacementDepth) .invalid
  let canvas ← inherit original compileDepth canvas
  let id := codec.stableId original.id "replacement"
  let start : Graph :=
    { id := id
      kind := .dag
      scope := original.scope
      originTaskId := original.id
      originDigest := original.digest codec }
  let (g, root) ← compileCanvas codec c env { graph := start, hasScope := true } canvas
  refuseIf (root.type ≠ d.output ∧ ¬ (root.empty ∧ d.output.elem?.isSome)) .invalid
  let g := { g with children := g.children.map (placeReplacement original id) }
  g.children.forM (Envelope.validate codec)
  c.authorize "enqueue" original.scope id
  refuseIf (¬ withinLength maxWorkflowInitialBytes (codec.graphLength g)) .invalid
  .ok g

/-- The graph that `createReplacement` stores, given whether the original task is canceled. -/
def startReplacement (now : Env) (g : Graph) (cancelRequested : Bool) : Advanced :=
  advance codec c now { g.clone with cancelRequested := cancelRequested }

end Compile

end Gogo.Async

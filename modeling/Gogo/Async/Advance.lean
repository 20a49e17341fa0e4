import Gogo.Async.Registry

/-!
# The workflow coordinator

`async/canvas.go` `advance` and `advanceGraph`, `nested.go` `advanceNested`, `canvas_cancel.go` and
`canvas_limits.go`: the pure transition that every recorded completion and every cancellation runs.
It returns the next graph and the intents that the store keeps with it.

* `advanceFlat` — chains, groups and chords, with their barrier and their callback.
* `advanceNested` — compiled canvases: passes over the plan until nothing is ready.
* `advanceCanceled`, `advanceAbortedGraph` — the two ways to wind a graph down.
* `advance` — the whole transition, with its budget test.
-/

namespace Gogo.Async

open Gogo.Lib

/-! ## Pieces -/

/-- Source: `canvas_limits.go` `MaxWorkflowInitialBytes`. -/
def maxWorkflowInitialBytes : ℕ := 2 * 2 ^ 20

/-- Source: `canvas_limits.go` `MaxWorkflowWorkingBytes`. -/
def maxWorkflowWorkingBytes : ℕ := 4 * 2 ^ 20

/-- Source: `canvas_limits.go` `MaxWorkflowDurableBytes`. -/
def maxWorkflowDurableBytes : ℕ := 8 * 2 ^ 20

/-- The failures that the coordinator records. -/
def chainFailed : Failure := ⟨"CHAIN_FAILED", "A chain task did not succeed"⟩

@[inherit_doc chainFailed] def chainInput : Failure :=
  ⟨"CHAIN_INPUT", "A chain successor could not accept the previous result"⟩

@[inherit_doc chainFailed] def groupFailed : Failure :=
  ⟨"GROUP_FAILED", "One or more workflow members did not succeed"⟩

@[inherit_doc chainFailed] def chordInput : Failure :=
  ⟨"CHORD_INPUT", "The chord callback could not accept member results"⟩

@[inherit_doc chainFailed] def parentFailed : Failure :=
  ⟨"PARENT_FAILED", "A required upstream task did not succeed"⟩

@[inherit_doc chainFailed] def workflowInput : Failure :=
  ⟨"WORKFLOW_INPUT", "A workflow task could not accept the upstream result"⟩

@[inherit_doc chainFailed] def workflowSize : Failure :=
  ⟨"WORKFLOW_SIZE", "Workflow coordination exceeded its bounded payload budget"⟩

@[inherit_doc chainFailed] def workflowRevoked : Failure :=
  ⟨"REVOKED", "Workflow cancellation was recorded"⟩

@[inherit_doc chainFailed] def taskRevoked : Failure :=
  ⟨"REVOKED", "Workflow task was canceled before dispatch"⟩

/-- `cloneJSON` of a plan node. -/
def CanvasNode.clone (n : CanvasNode) : CanvasNode :=
  { n with signature := n.signature.map Signature.clone }

/-- `cloneJSON` of a graph. -/
def Graph.clone (g : Graph) : Graph :=
  { g with
    children := g.children.map Envelope.clone
    signatures := Signature.cloneAll g.signatures
    callback := g.callback.map Signature.clone
    callbackEnvelope := g.callbackEnvelope.map Envelope.clone
    plan := g.plan.map CanvasNode.clone }

/-- The completion of `id` is recorded. -/
def Graph.done (g : Graph) (id : String) : Bool := (g.members.get? id).isSome

/-- The encoding of a list of raw messages. -/
def encodeOutputs (outputs : List RawMessage) : Json := .arr (outputs.map (·.getD .null))

variable (codec : Codec)

/-- Source: `canvas.go` `dispatchIntent`. -/
def dispatchIntent (source : String) (e : Envelope) : Intent :=
  { id := codec.stableId source ("dispatch-" ++ e.id)
    sourceId := source
    kind := .publish
    envelope := some e }

/-- An intent that releases the pin of a task. -/
def unpinIntent (source id : String) : Intent :=
  { id := codec.stableId source ("unpin-" ++ id)
    sourceId := source
    kind := .unpin
    targetId := id }

/-- Source: `canvas_cancel.go` `graphUnpins`. -/
def graphUnpins (g : Graph) : List Intent :=
  ((g.children.filter fun child => g.done child.id).map fun child => unpinIntent codec g.id child.id)
    ++ if g.callbackId ≠ "" ∧ g.done g.callbackId then [unpinIntent codec g.id g.callbackId] else []

/-- Source: `canvas_cancel.go` `cancellationIntent`. -/
def cancellationIntent (source : String) (e : Envelope) (dispatched : Bool) : Intent :=
  let intent : Intent :=
    { id := codec.stableId source ("cancel-" ++ e.id)
      sourceId := source
      kind := .cancel
      envelope := some e }
  if dispatched then intent
  else { intent with kind := .fail, state := .revoked, failure := some taskRevoked }

/-- Source: `replacement.go` `replacementCompletionIntents`. -/
def replacementCompletionIntents (g : Graph) : List Intent :=
  if g.originTaskId = "" ∨ !g.state.terminal then []
  else
    [{ id := codec.stableId g.id "replacement-completion"
       sourceId := g.id
       kind := .replacementComplete
       workflowId := g.id
       targetId := g.originTaskId
       completion := some
        { id := g.originTaskId, state := g.state, output := g.output, failure := g.failure } }]

/-- What a transition of a graph returns. -/
abbrev Advanced := Except Err (Graph × List Intent)

/-! ## Flat graphs -/

/-- The closure `finish` of `advanceGraph`. -/
def finish (g : Graph) (state : State) (output : RawMessage) : Graph × List Intent :=
  ({ g with state := state, output := output },
    g.members.keys.map fun id => unpinIntent codec g.id id)

/-- A dispatch intent that fails its task instead. -/
def failIntent (source : String) (e : Envelope) : Intent :=
  { dispatchIntent codec source e with kind := .fail }

section Client

variable (c : Client) (env : Env)

/-- The chain successor at `next`, which receives the result of its predecessor. There is a
signature for every child; an index that is out of range stops the program. -/
def dispatchSuccessor (g : Graph) (output : RawMessage) : Advanced :=
  match g.children[g.next]?, g.signatures[g.next]? with
  | some child, some signature =>
    match signature.bind output with
    | .error _ => .ok (finish codec { g with failure := some chainInput } .failed none)
    | .ok s => do
      let d ← c.registry.lookup s.task s.version
      match d.validate s.args with
      | .error _ => .ok (g, [failIntent codec g.id child])
      | .ok () =>
        let next := { child with args := s.args }
        match next.validate codec with
        | .error _ => .ok (g, [failIntent codec g.id child])
        | .ok () =>
          .ok ({ g with children := g.children.set g.next next },
            [dispatchIntent codec g.id next])
  | _, _ => .error .invalid

/-- The body of the chain loop of `advanceGraph`, every path of which returns. -/
def advanceChain (g : Graph) (current : Envelope) : Advanced :=
  match g.members.get? current.id with
  | none => .ok (g, [])
  | some completed =>
    if completed.state ≠ .succeeded then
      .ok (finish codec { g with failure := some chainFailed } .failed none)
    else
      let g := { g with next := g.next + 1 }
      if g.next = g.children.length then .ok (finish codec g .succeeded completed.output)
      else dispatchSuccessor codec c g completed.output

/-- The completion of a chord whose callback has been dispatched. -/
def advanceCallback (g : Graph) : Advanced :=
  match g.members.get? g.callbackId with
  | none => .ok (g, [])
  | some body =>
    let failure := if body.state ≠ .succeeded then body.failure else g.failure
    .ok (finish codec { g with failure := failure } body.state body.output)

/-- The envelope of a chord callback that receives the results of the members. -/
def prepareCallback (g : Graph) (callback : Signature) (combined : Json) : Except Err Envelope := do
  let s ← callback.bind (some combined)
  let e ← c.prepare codec env (s.withId g.callbackId)
  .ok { e with workflowId := g.id, rootId := g.id, parentId := g.id }

/-- The members have all succeeded: a group ends, a chord dispatches its callback. -/
def completeBarrier (g : Graph) (outputs : List RawMessage) : Advanced :=
  match g.kind with
  | .group => .ok (finish codec g .succeeded (some (encodeOutputs outputs)))
  | .chord =>
    match g.callback with
    | none => .error .invalid
    | some callback =>
      match prepareCallback codec c env g callback (encodeOutputs outputs) with
      | .error _ => .ok (finish codec { g with failure := some chordInput } .failed none)
      | .ok e =>
        .ok ({ g with callbackClaimed := true, callbackEnvelope := some e },
          [dispatchIntent codec g.id e])
  | _ => .error .invalid

/-- The barrier of a group or chord. -/
def advanceBarrier (g : Graph) : Advanced :=
  if g.callbackClaimed then advanceCallback codec g
  else
    match g.children.mapM fun child => g.members.get? child.id with
    | none => .ok (g, [])
    | some members =>
      if members.any fun m => m.state != .succeeded then
        .ok (finish codec { g with failure := some groupFailed } .failed none)
      else completeBarrier codec c env g (members.map Completion.output)

/-- Source: `canvas_cancel.go` `Client.advanceCanceled`. -/
def advanceCanceled (g : Graph) : Advanced :=
  let waiting := g.children.zipIdx.filter fun p => !g.done p.1.id
  let intents := waiting.map fun p =>
    cancellationIntent codec g.id p.1 (g.kind != .chain || p.2 ≤ g.next)
  let callbackWaiting := g.callbackClaimed && !g.done g.callbackId
  match callbackWaiting, g.callbackEnvelope with
  | true, none => .error .unavailable
  | true, some e => .ok (g, intents ++ [cancellationIntent codec g.id e true])
  | false, _ =>
    if waiting.isEmpty then
      let g := { g with state := .revoked, output := none, failure := some workflowRevoked }
      .ok (g, intents ++ graphUnpins codec g)
    else .ok (g, intents)

/-- The part of `advanceGraph` for graphs without a plan that are not canceled. -/
def advanceFlat (g : Graph) : Advanced :=
  match g.kind with
  | .chain =>
    if g.children.isEmpty then .ok (finish codec g .succeeded (some (.arr [])))
    else
      match g.children[g.next]? with
      | some current => advanceChain codec c g current
      | none => advanceBarrier codec c env g
  | _ => advanceBarrier codec c env g

/-! ## Compiled graphs -/

/-- The last position of an envelope with this identifier. -/
def childIndex (id : String) : List Envelope → Option ℕ
  | [] => none
  | child :: rest =>
    match childIndex id rest with
    | some i => some (i + 1)
    | none => if child.id = id then some 0 else none

/-- The envelope of a task of the plan, with its position. -/
def Graph.child? (g : Graph) (id : String) : Option (ℕ × Envelope) := do
  let i ← childIndex id g.children
  let child ← g.children[i]?
  some (i, child)

/-- What a pass over the plan works on. -/
structure DagState where
  graph : Graph
  argumentBytes : ℤ
  intents : List Intent
  progress : Bool := false

/-- The outcome of the dependencies of a node, when all of them are recorded: whether one of them
did not succeed, and the outputs of those whose value it takes. -/
def gather (members : FinMap String Completion) (node : CanvasNode) :
    Option (Bool × List RawMessage) := do
  let values ← node.dependencies.mapM members.get?
  let waits ← node.waitFor.mapM members.get?
  some ((values ++ waits).any fun m => m.state != .succeeded, values.map Completion.output)

/-- The completion of a collect node. -/
def collectCompletion (id : String) (failed : Bool) (outputs : List RawMessage) : Completion :=
  if failed then { id := id, state := .failed, failure := some groupFailed }
  else { id := id, state := .succeeded, output := some (encodeOutputs outputs) }

/-- The arguments of a task that takes the output of another one. -/
def boundArgs (signature : Signature) (output : RawMessage) : Except Err RawMessage := do
  let bound ← signature.bind output
  let d ← c.registry.lookup bound.task bound.version
  d.validate bound.args
  .ok bound.args

/-- What becomes of a task whose dependencies are recorded: its envelope, the failure it is given
instead of a run, and the size of all arguments. -/
def settleTask (signature : Signature) (e : Envelope) (bytes : ℤ) (failed : Bool)
    (outputs : List RawMessage) : Except Err (Envelope × Option Failure × ℤ) :=
  if failed then .ok (e, some parentFailed, bytes)
  else
    match outputs, signature.immutable with
    | [output], false =>
      match boundArgs c signature output with
      | .error _ => .ok (e, some workflowInput, bytes)
      | .ok args =>
        let candidate := { e with args := args }
        let bytes' := bytes - codec.length e.args + codec.length args
        if (maxWorkflowWorkingBytes : ℤ) < bytes' then .error .workflowSize
        else
          match candidate.validate codec with
          | .error _ => .ok (e, some workflowInput, bytes)
          | .ok () => .ok (candidate, none, bytes')
    | _, _ => .ok (e, none, bytes)

/-- The intent that dispatches a task or fails it. -/
def settleIntent (source : String) (e : Envelope) (failure : Option Failure) : Intent :=
  match failure with
  | none => dispatchIntent codec source e
  | some f => { failIntent codec source e with failure := some f }

/-- The body of the inner loop of `advanceNested`. -/
def dagNode (st : DagState) (i : ℕ) : Except Err DagState :=
  match st.graph.plan[i]? with
  | none => .ok st
  | some node =>
    if st.graph.done node.id ∨ node.dispatched then .ok st
    else
      match gather st.graph.members node with
      | none => .ok st
      | some (failed, outputs) =>
        match node.kind with
        | .collect =>
          let member := collectCompletion node.id failed outputs
          .ok { st with
            graph := { st.graph with members := st.graph.members.set node.id member }
            progress := true }
        | .task =>
          match node.signature, st.graph.child? node.id with
          | some signature, some (index, child) =>
            if 1 < outputs.length then .error .invalid
            else do
              let (e, failure, bytes) ←
                settleTask codec c signature child st.argumentBytes failed outputs
              .ok
                { graph :=
                    { st.graph with
                      children := st.graph.children.set index e
                      plan := st.graph.plan.set i { node with dispatched := true } }
                  argumentBytes := bytes
                  intents := st.intents ++ [settleIntent codec st.graph.id e failure]
                  progress := true }
          | _, _ => .error .invalid

/-- One turn of the outer loop of `advanceNested`. -/
def dagPass (st : DagState) : Except Err DagState :=
  run (dagNode codec c) { st with progress := false } (List.range st.graph.plan.length)

/-- The outer loop of `advanceNested`. -/
def dagTurns : ℕ → DagState → Except Err DagState
  | 0, st => .ok st
  | turns + 1, st => do
    let st' ← dagPass codec c st
    if st'.progress then dagTurns turns st' else .ok st'

/-- What the cancellation of a compiled graph does to a node. -/
def cancelNode (g : Graph) (node : CanvasNode) : Except Err (CanvasNode × List Intent) :=
  if node.kind = .task ∧ !g.done node.id then
    match g.child? node.id with
    | some (_, child) =>
      .ok ({ node with dispatched := true },
        [cancellationIntent codec g.id child node.dispatched])
    | none => .error .invalid
  else .ok (node, [])

/-- The graph that `advanceNested` starts its passes from, and the intents of its cancellation. -/
def cancelPlan (g : Graph) : Advanced :=
  if g.cancelRequested then do
    let nodes ← g.plan.mapM (cancelNode codec g)
    .ok ({ g with plan := nodes.map Prod.fst }, nodes.flatMap Prod.snd)
  else .ok (g, [])

/-- The end of `advanceNested`: a graph whose root is recorded has ended. -/
def concludeNested (g : Graph) : Graph × List Intent :=
  match g.members.get? g.rootNode with
  | none => (g, [])
  | some root =>
    let g' :=
      if g.cancelRequested then
        { g with state := .revoked, output := none, failure := some workflowRevoked }
      else { g with state := root.state, output := root.output, failure := root.failure }
    (g', (g.children.filter fun child => g.done child.id).map fun child =>
      unpinIntent codec g.id child.id)

/-- The size of the arguments of all children. -/
def argumentBytes (g : Graph) : ℤ := (g.children.map fun child => (codec.length child.args : ℤ)).sum

/-- Source: `nested.go` `Client.advanceNested`. -/
def advanceNested (g : Graph) : Advanced :=
  if g.state.terminal then .ok (g, graphUnpins codec g)
  else if 2000 < g.plan.length ∨ 1000 < g.children.length ∨ g.rootNode = "" then .error .invalid
  else do
    let (start, canceled) ← cancelPlan codec g
    let st ← dagTurns codec c (start.plan.length + 1)
      { graph := start, argumentBytes := argumentBytes codec g, intents := canceled }
    let (g', unpins) := concludeNested codec st.graph
    .ok (g', st.intents ++ unpins)

/-! ## The transition -/

/-- Source: `canvas.go` `Client.advanceGraph`. -/
def advanceGraph (g : Graph) : Advanced :=
  if g.state.terminal then .ok (g, graphUnpins codec g)
  else if g.kind = .dag then advanceNested codec c g
  else if g.cancelRequested then advanceCanceled codec g
  else advanceFlat codec c env g

/-- Source: `canvas_limits.go` `withinGraphBudget`. -/
def withinGraphBudget (g : Graph) (intents : List Intent) (limit : ℕ) : Bool :=
  withinLength limit (codec.graphLength g) && withinLength limit (codec.intentsLength intents)

/-- The intent that an aborted graph gives a task it has not dispatched. -/
def abortIntent (source : String) (failure : Failure) (e : Envelope) : Intent :=
  { failIntent codec source e with failure := some failure, state := .failed }

/-- What an abort does to a node of the plan. -/
def abortNode (g : Graph) (failure : Failure) (node : CanvasNode) :
    Except Err (CanvasNode × List Intent) :=
  if node.kind = .task ∧ !g.done node.id ∧ !node.dispatched then
    match g.child? node.id with
    | some (_, child) =>
      .ok ({ node with dispatched := true }, [abortIntent codec g.id failure child])
    | none => .error .invalid
  else .ok (node, [])

/-- Every task that an aborted graph waits for has ended. -/
def abortFinished (g : Graph) : Bool :=
  match g.kind with
  | .dag => g.plan.all fun node => node.kind != .task || g.done node.id
  | _ =>
    (g.children.all fun child => g.done child.id) &&
      (!g.callbackClaimed || g.done g.callbackId)

/-- The tasks that an abort fails, and the plan in which they count as dispatched. -/
def abortPlan (g : Graph) (failure : Failure) : Advanced :=
  match g.kind with
  | .dag => do
    let nodes ← g.plan.mapM (abortNode codec g failure)
    .ok ({ g with plan := nodes.map Prod.fst }, nodes.flatMap Prod.snd)
  | .chain =>
    let undispatched := g.children.zipIdx.filter fun p => !g.done p.1.id && g.next < p.2
    .ok (g, undispatched.map fun p => abortIntent codec g.id failure p.1)
  | _ => .ok (g, [])

/-- Source: `canvas_limits.go` `advanceAbortedGraph`. -/
def advanceAbortedGraph (g : Graph) : Advanced :=
  match g.abortFailure with
  | none => .error .invalid
  | some failure => do
    let cleared :=
      { g with
        members := g.members.mapValues fun _ m => { m with output := none }
        output := none }
    let (g', intents) ← abortPlan codec cleared failure
    if abortFinished cleared then
      let g'' := { g' with state := .failed, failure := some failure }
      .ok (g'', intents ++ graphUnpins codec g'')
    else .ok (g', intents)

/-- The graph that gives up for its size. -/
def abort (g : Graph) : Advanced :=
  advanceAbortedGraph codec { g with abortFailure := some workflowSize }

/-- The budget of a transition. -/
def budgetOf (g : Graph) : ℕ :=
  if g.cancelRequested then maxWorkflowDurableBytes else maxWorkflowWorkingBytes

/-- `advance` without the intents of a finished replacement. -/
def advanceWithin (g : Graph) : Advanced :=
  if g.abortFailure.isSome ∧ !g.cancelRequested then advanceAbortedGraph codec g
  else
    match advanceGraph codec c env g.clone with
    | .error .workflowSize => abort codec g
    | .error e => .error e
    | .ok (next, intents) =>
      if withinGraphBudget codec next intents (budgetOf g) then .ok (next, intents)
      else abort codec g

/-- Source: `canvas.go` `Client.advance`. -/
def advance (g : Graph) : Advanced := do
  let (next, intents) ← advanceWithin codec c env g
  .ok (next, intents ++ replacementCompletionIntents codec next)

end Client

end Gogo.Async

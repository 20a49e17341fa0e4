import Gogo.Async.Advance

/-!
# What one transition does

The transition of a graph, taken apart once. Later modules reason about its cases and never unfold
it again.

* `Graph.frame` — the part of a graph that no transition touches.
* `Waits`, `Ends`, `FlatTurn` — the cases of a flat graph; `flatTurn_of_advanceFlat`.
* `canceled_of_advanceCanceled`, `aborted_of_advanceAbortedGraph` — the two ways to wind a graph
  down.
* `advanceWithin_cases` — a transition aborts, or it is one of the coordinator within its budget.
-/

namespace Gogo.Async

open List Gogo.Lib

/-! ## Clones -/

mutual

theorem Signature.clone_clone : (s : Signature) → s.clone.clone = s.clone
  | ⟨task, version, args, options, immutable, parentField, callbacks, errbacks⟩ => by
    simp only [Signature.clone, Option.getD_some, Signature.cloneAll_cloneAll callbacks,
      Signature.cloneAll_cloneAll errbacks]

theorem Signature.cloneAll_cloneAll :
    (l : List Signature) → Signature.cloneAll (Signature.cloneAll l) = Signature.cloneAll l
  | [] => rfl
  | s :: rest => by
    simp only [Signature.cloneAll, Signature.clone_clone s, Signature.cloneAll_cloneAll rest]

end

attribute [simp] Signature.clone_clone Signature.cloneAll_cloneAll

/-- A list of signatures is copied one by one. -/
lemma Signature.cloneAll_eq_map (l : List Signature) :
    Signature.cloneAll l = l.map Signature.clone := by
  induction l with
  | nil => rfl
  | cons s rest ih => simp only [Signature.cloneAll, map_cons, ih]

@[simp] lemma Envelope.clone_clone (e : Envelope) : e.clone.clone = e.clone := by
  simp [Envelope.clone]

@[simp] lemma Envelope.clone_id (e : Envelope) : e.clone.id = e.id := rfl

@[simp] lemma CanvasNode.clone_clone (n : CanvasNode) : n.clone.clone = n.clone := by
  simp [CanvasNode.clone, Function.comp_def]

@[simp] lemma Graph.clone_clone (g : Graph) : g.clone.clone = g.clone := by
  simp [Graph.clone, Function.comp_def]

section CloneFields

variable (g : Graph)

@[simp] lemma Graph.clone_kind : g.clone.kind = g.kind := rfl
@[simp] lemma Graph.clone_cancelRequested : g.clone.cancelRequested = g.cancelRequested := rfl
@[simp] lemma Graph.clone_abortFailure : g.clone.abortFailure = g.abortFailure := rfl

end CloneFields

/-! ## The frame -/

/-- An envelope without its arguments. -/
def Envelope.skeleton (e : Envelope) : Envelope := { e.clone with args := none }

/-- A node of the plan, whether or not it is dispatched. -/
def CanvasNode.skeleton (n : CanvasNode) : CanvasNode := { n.clone with dispatched := false }

/-- What no transition and no call changes of a graph. -/
def Graph.frame (g : Graph) : Graph :=
  { id := g.id
    kind := g.kind
    scope := g.scope
    children := g.children.map Envelope.skeleton
    signatures := Signature.cloneAll g.signatures
    callback := g.callback.map Signature.clone
    callbackId := g.callbackId
    plan := g.plan.map CanvasNode.skeleton
    rootNode := g.rootNode
    originTaskId := g.originTaskId
    originDigest := g.originDigest }

@[simp] lemma Envelope.skeleton_id (e : Envelope) : e.skeleton.id = e.id := rfl

@[simp] lemma Envelope.skeleton_clone (e : Envelope) : e.clone.skeleton = e.skeleton := by
  simp [Envelope.skeleton]

@[simp] lemma Envelope.skeleton_args (e : Envelope) (args : RawMessage) :
    ({ e with args := args } : Envelope).skeleton = e.skeleton := rfl

@[simp] lemma CanvasNode.skeleton_clone (n : CanvasNode) : n.clone.skeleton = n.skeleton := by
  simp [CanvasNode.skeleton]

@[simp] lemma CanvasNode.skeleton_dispatched (n : CanvasNode) (b : Bool) :
    ({ n with dispatched := b } : CanvasNode).skeleton = n.skeleton := rfl

@[simp] lemma Graph.frame_clone (g : Graph) : g.clone.frame = g.frame := by
  simp [Graph.frame, Graph.clone, Function.comp_def]

def Graph.childIds (g : Graph) : List String := g.children.map Envelope.id

section Frame

variable {g g' : Graph} (h : g'.frame = g.frame)

include h

lemma Graph.id_of_frame : g'.id = g.id :=
  show g'.frame.id = g.frame.id by rw [h]

lemma Graph.kind_of_frame : g'.kind = g.kind :=
  show g'.frame.kind = g.frame.kind by rw [h]

lemma Graph.callbackId_of_frame : g'.callbackId = g.callbackId :=
  show g'.frame.callbackId = g.frame.callbackId by rw [h]

/-- The frame determines the identifiers of the children. -/
lemma Graph.childIds_of_frame : g'.childIds = g.childIds := by
  have := congrArg (fun f : Graph => f.children.map Envelope.id) h
  simpa [Graph.frame, Graph.childIds, Function.comp_def] using this

lemma Graph.plan_of_frame : g'.plan.map CanvasNode.skeleton = g.plan.map CanvasNode.skeleton :=
  congrArg Graph.plan h

end Frame

@[simp] lemma Graph.childIds_clone (g : Graph) : g.clone.childIds = g.childIds :=
  Graph.childIds_of_frame g.frame_clone

/-- Replacing an element of a list by one with the same image does not change the image. -/
lemma map_set_of_eq {α β : Type} {f : α → β} {l : List α} {i : ℕ} {a b : α}
    (hget : l[i]? = some a) (h : f b = f a) : (l.set i b).map f = l.map f := by
  rw [map_set, h]
  apply ext_getElem?
  intro j
  rw [getElem?_set, getElem?_map, length_map]
  split_ifs with hij hlen
  · subst hij
    rw [hget]
    rfl
  · subst hij
    rw [getElem?_eq_none (by omega)]
    rfl
  · rfl

/-! ## Flat graphs -/

section Flat

variable (codec : Codec) (c : Client) (env : Env)

/-- The test that sends a flat graph to its barrier. A chain gets there only beyond its end. -/
def AtBarrier (g : Graph) : Prop :=
  g.kind = .chain → g.children ≠ [] ∧ g.children.length ≤ g.next

/-- The completions of the children, in order. -/
def Recorded (g : Graph) (members : List Completion) : Prop :=
  List.Forall₂ (fun child m => g.members.get? child.id = some m) g.children members

/-- Why a flat graph stays as it is. -/
inductive Waits (g : Graph) : Prop
  | chain {current : Envelope} (hkind : g.kind = .chain)
      (hcurrent : g.children[g.next]? = some current)
      (hundone : g.members.get? current.id = none)
  | barrier {child : Envelope} (hat : AtBarrier g) (hclaimed : g.callbackClaimed = false)
      (hchild : child ∈ g.children) (hundone : g.members.get? child.id = none)
  | callback (hat : AtBarrier g) (hclaimed : g.callbackClaimed = true)
      (hundone : g.members.get? g.callbackId = none)

/-- The task at `next` of a chain has succeeded with the completion `m`, and another one follows. -/
structure Follows (g : Graph) (m : Completion) (child : Envelope) (signature : Signature) :
    Prop where
  kind : g.kind = .chain
  current : ∃ current, g.children[g.next]? = some current ∧ g.members.get? current.id = some m
  succeeded : m.state = .succeeded
  child : g.children[g.next + 1]? = some child
  signature : g.signatures[g.next + 1]? = some signature

/-- Why a flat graph ends: the position, state, output and failure it ends with. -/
inductive Ends (g : Graph) : ℕ → State → RawMessage → Option Failure → Prop
  | emptyChain (hkind : g.kind = .chain) (hempty : g.children = []) :
      Ends g g.next .succeeded (some (.arr [])) g.failure
  | chainFailed {current : Envelope} {m : Completion} (hkind : g.kind = .chain)
      (hcurrent : g.children[g.next]? = some current)
      (hdone : g.members.get? current.id = some m) (hstate : m.state ≠ .succeeded) :
      Ends g g.next .failed none (some chainFailed)
  | chainSucceeded {current : Envelope} {m : Completion} (hkind : g.kind = .chain)
      (hcurrent : g.children[g.next]? = some current)
      (hdone : g.members.get? current.id = some m) (hstate : m.state = .succeeded)
      (hlast : g.next + 1 = g.children.length) :
      Ends g (g.next + 1) .succeeded m.output g.failure
  | chainUnbound {m : Completion} {child : Envelope} {signature : Signature} {e : Err}
      (hfollows : Follows g m child signature) (hbind : signature.bind m.output = .error e) :
      Ends g (g.next + 1) .failed none (some chainInput)
  | barrierFailed {members : List Completion} {m : Completion} (hat : AtBarrier g)
      (hclaimed : g.callbackClaimed = false) (hrecorded : Recorded g members)
      (hm : m ∈ members) (hstate : m.state ≠ .succeeded) :
      Ends g g.next .failed none (some groupFailed)
  | groupSucceeded {members : List Completion} (hkind : g.kind = .group)
      (hclaimed : g.callbackClaimed = false) (hrecorded : Recorded g members)
      (hstate : ∀ m ∈ members, m.state = .succeeded) :
      Ends g g.next .succeeded (some (encodeOutputs (members.map Completion.output))) g.failure
  | callbackUnbound {members : List Completion} {callback : Signature} {e : Err}
      (hkind : g.kind = .chord) (hclaimed : g.callbackClaimed = false)
      (hrecorded : Recorded g members) (hstate : ∀ m ∈ members, m.state = .succeeded)
      (hcallback : g.callback = some callback)
      (hprepare : prepareCallback codec c env g callback
        (encodeOutputs (members.map Completion.output)) = .error e) :
      Ends g g.next .failed none (some chordInput)
  | callbackEnded {body : Completion} (hat : AtBarrier g) (hclaimed : g.callbackClaimed = true)
      (hdone : g.members.get? g.callbackId = some body) :
      Ends g g.next body.state body.output
        (if body.state ≠ .succeeded then body.failure else g.failure)

/-- What a flat graph that has not ended and is not canceled does. -/
inductive FlatTurn (g : Graph) : Graph → List Intent → Prop
  | waits (h : Waits g) : FlatTurn g g []
  | ends {next : ℕ} {state : State} {output : RawMessage} {failure : Option Failure}
      (h : Ends codec c env g next state output failure) :
      FlatTurn g { g with next := next, state := state, output := output, failure := failure }
        (g.members.keys.map (unpinIntent codec g.id))
  | refuses {m : Completion} {child : Envelope} {signature s : Signature} {d : Definition}
      (hfollows : Follows g m child signature) (hbind : signature.bind m.output = .ok s)
      (hlookup : c.registry.lookup s.task s.version = .ok d)
      (hrefused : d.validate s.args ≠ .ok () ∨
        ({ child with args := s.args } : Envelope).validate codec ≠ .ok ()) :
      FlatTurn g { g with next := g.next + 1 } [failIntent codec g.id child]
  | publishes {m : Completion} {child : Envelope} {signature s : Signature} {d : Definition}
      (hfollows : Follows g m child signature) (hbind : signature.bind m.output = .ok s)
      (hlookup : c.registry.lookup s.task s.version = .ok d)
      (hvalidate : d.validate s.args = .ok ())
      (hvalid : ({ child with args := s.args } : Envelope).validate codec = .ok ()) :
      FlatTurn g
        { g with
          next := g.next + 1
          children := g.children.set (g.next + 1) { child with args := s.args } }
        [dispatchIntent codec g.id { child with args := s.args }]
  | claims {members : List Completion} {callback : Signature} {e : Envelope}
      (hkind : g.kind = .chord) (hclaimed : g.callbackClaimed = false)
      (hrecorded : Recorded g members) (hstate : ∀ m ∈ members, m.state = .succeeded)
      (hcallback : g.callback = some callback)
      (hprepare : prepareCallback codec c env g callback
        (encodeOutputs (members.map Completion.output)) = .ok e) :
      FlatTurn g { g with callbackClaimed := true, callbackEnvelope := some e }
        [dispatchIntent codec g.id e]

variable {codec c env}

variable {g : Graph} {current : Envelope} {r : Graph × List Intent}

/-- The next task of a chain cannot be bound, is refused, or is published.
Source: `canvas.go` `advanceGraph`. -/
lemma flatTurn_of_dispatchSuccessor {m : Completion} (hkind : g.kind = .chain)
    (hcurrent : g.children[g.next]? = some current) (hdone : g.members.get? current.id = some m)
    (hstate : m.state = .succeeded)
    (h : dispatchSuccessor codec c { g with next := g.next + 1 } m.output = .ok r) :
    FlatTurn codec c env g r.1 r.2 := by
  unfold dispatchSuccessor at h
  simp only at h
  rcases hchild : g.children[g.next + 1]? with _ | child <;>
    rcases hsignature : g.signatures[g.next + 1]? with _ | signature <;>
    simp only [hchild, hsignature] at h
  · cases h
  · cases h
  · cases h
  have hfollows : Follows g m child signature :=
    ⟨hkind, ⟨current, hcurrent, hdone⟩, hstate, hchild, hsignature⟩
  rcases hbind : signature.bind m.output with e | s <;> simp only [hbind] at h
  · cases h
    exact .ends (.chainUnbound hfollows hbind)
  obtain ⟨d, hlookup, h⟩ := bind_eq_ok.mp h
  rcases hvalidate : d.validate s.args with e | _ <;> simp only [hvalidate] at h
  · cases h
    exact .refuses hfollows hbind hlookup (.inl (by rw [hvalidate]; exact nofun))
  rcases hvalid : ({ child with args := s.args } : Envelope).validate codec with e | _ <;>
    simp only [hvalid] at h
  · cases h
    exact .refuses hfollows hbind hlookup (.inr (by rw [hvalid]; exact nofun))
  · cases h
    exact .publishes hfollows hbind hlookup hvalidate hvalid

/-- A chain waits for its task, fails with it, ends after it, or goes on to the next one.
Source: `canvas.go` `advanceGraph`. -/
lemma flatTurn_of_advanceChain (hkind : g.kind = .chain)
    (hcurrent : g.children[g.next]? = some current) (h : advanceChain codec c g current = .ok r) :
    FlatTurn codec c env g r.1 r.2 := by
  unfold advanceChain at h
  rcases hdone : g.members.get? current.id with _ | m <;> simp only [hdone] at h
  · cases h
    exact .waits (.chain hkind hcurrent hdone)
  by_cases hstate : m.state = .succeeded
  · rw [if_neg (not_not.mpr hstate)] at h
    split_ifs at h with hlast
    · cases h
      exact .ends (.chainSucceeded hkind hcurrent hdone hstate hlast)
    · exact flatTurn_of_dispatchSuccessor hkind hcurrent hdone hstate h
  · rw [if_pos hstate] at h
    cases h
    exact .ends (.chainFailed hkind hcurrent hdone hstate)

/-- A barrier at which every child has succeeded: a group ends, a chord claims its callback. -/
lemma flatTurn_of_completeBarrier {members : List Completion} (hclaimed : g.callbackClaimed = false)
    (hrecorded : Recorded g members) (hstate : ∀ m ∈ members, m.state = .succeeded)
    (h : completeBarrier codec c env g (members.map Completion.output) = .ok r) :
    FlatTurn codec c env g r.1 r.2 := by
  unfold completeBarrier at h
  split at h
  · next hkind =>
    cases h
    exact .ends (.groupSucceeded hkind hclaimed hrecorded hstate)
  · next hkind =>
    split at h
    · cases h
    · next callback hcallback =>
      split at h
      · next hprepare =>
        cases h
        exact .ends (.callbackUnbound hkind hclaimed hrecorded hstate hcallback hprepare)
      · next hprepare =>
        cases h
        exact .claims hkind hclaimed hrecorded hstate hcallback hprepare
  · cases h

/-- A barrier waits for its children or its callback, fails, or is completed.
Source: `canvas.go` `advanceGraph`. -/
lemma flatTurn_of_advanceBarrier (hat : AtBarrier g) (h : advanceBarrier codec c env g = .ok r) :
    FlatTurn codec c env g r.1 r.2 := by
  unfold advanceBarrier at h
  split_ifs at h with hclaimed
  · unfold advanceCallback at h
    rcases hdone : g.members.get? g.callbackId with _ | body <;> simp only [hdone] at h
    · cases h
      exact .waits (.callback hat hclaimed hdone)
    · cases h
      exact .ends (.callbackEnded hat hclaimed hdone)
  · have hunclaimed : g.callbackClaimed = false := by simpa using hclaimed
    rcases hmembers : g.children.mapM fun child => g.members.get? child.id with _ | members <;>
      simp only [hmembers] at h
    · obtain ⟨child, hchild, hundone⟩ := mapM_eq_none_iff.mp hmembers
      cases h
      exact .waits (.barrier hat hunclaimed hchild hundone)
    have hrecorded : Recorded g members := mapM_eq_some_iff.mp hmembers
    split_ifs at h with hany
    · obtain ⟨m, hm, hstate⟩ := any_eq_true.mp hany
      cases h
      exact .ends (.barrierFailed hat hunclaimed hrecorded hm (by simpa using hstate))
    · have hall : ∀ m ∈ members, m.state = .succeeded := by simpa using hany
      exact flatTurn_of_completeBarrier hunclaimed hrecorded hall h

/-- **A flat graph waits, ends, or dispatches one task.** -/
theorem flatTurn_of_advanceFlat (h : advanceFlat codec c env g = .ok r) :
    FlatTurn codec c env g r.1 r.2 := by
  unfold advanceFlat at h
  split at h
  · next hkind =>
    split_ifs at h with hempty
    · cases h
      exact .ends (.emptyChain hkind (List.isEmpty_iff.mp hempty))
    · rcases hcurrent : g.children[g.next]? with _ | current <;> simp only [hcurrent] at h
      · refine flatTurn_of_advanceBarrier (fun _ => ⟨?_, ?_⟩) h
        · simpa using hempty
        · simpa using hcurrent
      · exact flatTurn_of_advanceChain hkind hcurrent h
  · next hkind => exact flatTurn_of_advanceBarrier (fun h => absurd h hkind) h

end Flat

/-! ## Cancellation and abort -/

section Winding

variable (codec : Codec)

/-- The children that a canceled flat graph waits for, and whether they are dispatched. -/
def waitingChildren (g : Graph) : List (Envelope × Bool) :=
  (g.children.zipIdx.filter fun p => !g.done p.1.id).map fun p =>
    (p.1, g.kind != .chain || p.2 ≤ g.next)

/-- The intents that cancel some tasks. -/
def cancellations (source : String) (tasks : List (Envelope × Bool)) : List Intent :=
  tasks.map fun p => cancellationIntent codec source p.1 p.2

/-- What a canceled flat graph that has not ended does. -/
inductive CanceledTurn (g : Graph) : Graph → List Intent → Prop
  | callback {e : Envelope} (hclaimed : g.callbackClaimed = true)
      (hundone : g.done g.callbackId = false) (he : g.callbackEnvelope = some e) :
      CanceledTurn g g (cancellations codec g.id (waitingChildren g ++ [(e, true)]))
  | members (hcallback : g.callbackClaimed = true → g.done g.callbackId = true)
      (hwaiting : waitingChildren g ≠ []) :
      CanceledTurn g g (cancellations codec g.id (waitingChildren g))
  | ends (hcallback : g.callbackClaimed = true → g.done g.callbackId = true)
      (hwaiting : waitingChildren g = []) :
      CanceledTurn g { g with state := .revoked, output := none, failure := some workflowRevoked }
        (graphUnpins codec g)

/-- The children that an aborted chain has not dispatched. -/
def undispatchedChildren (g : Graph) : List Envelope :=
  (g.children.zipIdx.filter fun p => !g.done p.1.id && g.next < p.2).map Prod.fst

/-- What an abort with the failure `f` does: the graph keeps no outputs, fails the tasks that it has
not dispatched, and ends when no task is left. -/
structure AbortTurn (g : Graph) (f : Failure) (next : Graph) (settled : List Intent) : Prop where
  graph : next =
    { g with
      members := g.members.mapValues fun _ m => { m with output := none }
      output := none
      plan := next.plan
      state := if abortFinished g then .failed else g.state
      failure := if abortFinished g then some f else g.failure }
  flat : g.kind ≠ .dag → next.plan = g.plan
  chain : g.kind = .chain → settled = (undispatchedChildren g).map (abortIntent codec g.id f)
  other : g.kind ≠ .chain → g.kind ≠ .dag → settled = []
  dag : g.kind = .dag → ∃ nodes, g.plan.mapM (abortNode codec g f) = .ok nodes ∧
    next.plan = nodes.map Prod.fst ∧ settled = nodes.flatMap Prod.snd

variable {codec}

variable {g : Graph} {r : Graph × List Intent}

lemma waiting_isEmpty :
    (g.children.zipIdx.filter fun p => !g.done p.1.id).isEmpty = true ↔ waitingChildren g = [] := by
  simp [waitingChildren]

/-- What a canceled flat graph does. -/
theorem canceled_of_advanceCanceled (h : advanceCanceled codec g = .ok r) :
    CanceledTurn codec g r.1 r.2 := by
  have hintents : ((g.children.zipIdx.filter fun p => !g.done p.1.id).map fun p =>
      cancellationIntent codec g.id p.1 (g.kind != .chain || p.2 ≤ g.next)) =
      cancellations codec g.id (waitingChildren g) := by
    simp only [cancellations, waitingChildren, List.map_map, Function.comp_def]
  unfold advanceCanceled at h
  simp only [hintents, waiting_isEmpty] at h
  split at h
  · cases h
  · next e hcallback he =>
    obtain ⟨hclaimed, hundone⟩ : g.callbackClaimed = true ∧ g.done g.callbackId = false := by
      simpa using hcallback
    cases h
    have hturn : CanceledTurn codec g g _ := .callback hclaimed hundone he
    simpa [cancellations] using hturn
  · next hcallback =>
    have hcallback : g.callbackClaimed = true → g.done g.callbackId = true := by
      simpa using hcallback
    split_ifs at h with hwaiting
    · cases h
      rw [hwaiting]
      exact .ends hcallback hwaiting
    · cases h
      exact .members hcallback hwaiting

/-- Outputs do not matter to the end of an abort. -/
@[simp] lemma abortFinished_clear (g : Graph) (f : String → Completion → Completion)
    (output : RawMessage) :
    abortFinished { g with members := g.members.mapValues f, output := output } =
      abortFinished g := by
  simp [abortFinished, Graph.done]

/-- What an abort does. -/
theorem aborted_of_advanceAbortedGraph {f : Failure} (hf : g.abortFailure = some f)
    (h : advanceAbortedGraph codec g = .ok r) :
    ∃ settled, AbortTurn codec g f r.1 settled ∧
      r.2 = settled ++ if abortFinished g then graphUnpins codec r.1 else [] := by
  unfold advanceAbortedGraph at h
  split at h
  · next hnone => rw [hf] at hnone; cases hnone
  next f' hf' =>
  obtain rfl : f' = f := Option.some.inj (hf'.symm.trans hf)
  obtain ⟨⟨g', settled⟩, hplan, h⟩ := bind_eq_ok.mp h
  have hcases : g' = { g with
        members := g.members.mapValues fun _ m => { m with output := none }
        output := none
        plan := g'.plan } ∧ (g.kind ≠ .dag → g'.plan = g.plan) ∧
      (g.kind = .chain → settled = (undispatchedChildren g).map (abortIntent codec g.id f')) ∧
      (g.kind ≠ .chain → g.kind ≠ .dag → settled = []) ∧
      (g.kind = .dag → ∃ nodes, g.plan.mapM (abortNode codec g f') = .ok nodes ∧
        g'.plan = nodes.map Prod.fst ∧ settled = nodes.flatMap Prod.snd) := by
    unfold abortPlan at hplan
    split at hplan
    · next hkind =>
      obtain ⟨nodes, hnodes, hplan⟩ := bind_eq_ok.mp hplan
      cases hplan
      have hkind : g.kind = .dag := hkind
      refine ⟨rfl, fun h => absurd hkind h, by simp [hkind], fun _ h => absurd hkind h, fun _ => ?_⟩
      refine ⟨nodes, ?_, rfl, rfl⟩
      rw [← hnodes]
      congr 1
      funext node
      simp [abortNode, Graph.done, Graph.child?]
    · next hkind =>
      cases hplan
      have hkind : g.kind = .chain := hkind
      refine ⟨rfl, fun _ => rfl, fun _ => ?_, fun h => absurd hkind h, by simp [hkind]⟩
      simp [undispatchedChildren, Graph.done, Function.comp_def]
    · next hdag hchain =>
      cases hplan
      exact ⟨rfl, fun _ => rfl, fun h => absurd h hchain, fun _ _ => rfl, fun h => absurd h hdag⟩
  obtain ⟨hgraph, hflat, hchain, hother, hdag⟩ := hcases
  simp only [abortFinished_clear] at h
  split_ifs at h with hfinished
  · cases h
    refine ⟨settled, ⟨?_, hflat, hchain, hother, hdag⟩, by simp [hfinished]⟩
    simp only [hfinished, if_true]
    rw [hgraph]
  · cases h
    refine ⟨settled, ⟨?_, hflat, hchain, hother, hdag⟩, by simp [hfinished]⟩
    simp only [hfinished]
    exact hgraph

end Winding

/-! ## The whole transition -/

section Whole

variable {codec : Codec} {c : Client} {env : Env}

variable (codec) in
/-- An abort with the failure `f` that returns `r`. -/
def Aborts (g : Graph) (f : Failure) (r : Graph × List Intent) : Prop :=
  ∃ settled, AbortTurn codec { g with abortFailure := some f } f r.1 settled ∧
    r.2 = settled ++ if abortFinished g then graphUnpins codec r.1 else []

variable {g : Graph} {r : Graph × List Intent}

/-- **A transition aborts a graph that was aborted before, aborts one that is over its budget, or is
one of the coordinator.** -/
theorem advanceWithin_cases (h : advanceWithin codec c env g = .ok r) :
    (∃ f, g.abortFailure = some f ∧ g.cancelRequested = false ∧ Aborts codec g f r) ∨
    ((g.abortFailure.isSome → g.cancelRequested = true) ∧
      (∀ next intents, advanceGraph codec c env g.clone = .ok (next, intents) →
        withinGraphBudget codec next intents (budgetOf g) = false) ∧
      Aborts codec g workflowSize r) ∨
    ((g.abortFailure.isSome → g.cancelRequested = true) ∧
      advanceGraph codec c env g.clone = .ok r ∧
      withinGraphBudget codec r.1 r.2 (budgetOf g) = true) := by
  unfold advanceWithin at h
  split_ifs at h with habort
  · left
    obtain ⟨f, hf⟩ := Option.isSome_iff_exists.mp habort.1
    refine ⟨f, hf, by simpa using habort.2, ?_⟩
    have hself : { g with abortFailure := some f } = g := by rw [← hf]
    obtain ⟨settled, hturn, hr⟩ := aborted_of_advanceAbortedGraph hf h
    exact ⟨settled, by rw [hself]; exact hturn, hr⟩
  · have hnot : g.abortFailure.isSome → g.cancelRequested = true := by
      intro hsome
      by_contra hcancel
      exact habort ⟨hsome, by simpa using hcancel⟩
    split at h
    · next herror =>
      obtain ⟨settled, hturn, hr⟩ := aborted_of_advanceAbortedGraph rfl h
      exact .inr (.inl ⟨hnot, by simp [herror], settled, hturn, hr⟩)
    · cases h
    · next next intents hok =>
      split_ifs at h with hbudget
      · cases h
        exact .inr (.inr ⟨hnot, hok, hbudget⟩)
      · obtain ⟨settled, hturn, hr⟩ := aborted_of_advanceAbortedGraph rfl h
        refine .inr (.inl ⟨hnot, ?_, settled, hturn, hr⟩)
        intro next' intents' hok'
        obtain ⟨rfl, rfl⟩ := Prod.mk.inj (Except.ok.inj (hok'.symm.trans hok))
        simpa using hbudget

/-- What a transition adds to the intents of the coordinator: the completion of a replacement. -/
lemma advance_eq_ok {next : Graph} {intents : List Intent}
    (h : advance codec c env g = .ok (next, intents)) :
    ∃ within, advanceWithin codec c env g = .ok (next, within) ∧
      intents = within ++ replacementCompletionIntents codec next := by
  obtain ⟨⟨next', within⟩, hwithin, h⟩ := bind_eq_ok.mp h
  cases h
  exact ⟨within, hwithin, rfl⟩

/-- What the coordinator does with a graph. -/
theorem advanceGraph_cases (h : advanceGraph codec c env g = .ok r) :
    (g.state.terminal = true ∧ r = (g, graphUnpins codec g)) ∨
    (g.state.terminal = false ∧ g.kind = .dag ∧ advanceNested codec c g = .ok r) ∨
    (g.state.terminal = false ∧ g.kind ≠ .dag ∧ g.cancelRequested = true ∧
      CanceledTurn codec g r.1 r.2) ∨
    (g.state.terminal = false ∧ g.kind ≠ .dag ∧ g.cancelRequested = false ∧
      FlatTurn codec c env g r.1 r.2) := by
  unfold advanceGraph at h
  split_ifs at h with hterminal hkind hcancel
  · exact .inl ⟨hterminal, (Except.ok.inj h).symm⟩
  · exact .inr (.inl ⟨by simpa using hterminal, hkind, h⟩)
  · exact .inr (.inr (.inl ⟨by simpa using hterminal, hkind, hcancel,
      canceled_of_advanceCanceled h⟩))
  · exact .inr (.inr (.inr ⟨by simpa using hterminal, hkind, by simpa using hcancel,
      flatTurn_of_advanceFlat h⟩))

end Whole

end Gogo.Async

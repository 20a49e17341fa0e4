import Gogo.Async.Compile
import Gogo.Async.Results

/-!
# The workflow stores

`async/testing/memory.go` and `async/redis/workflows.go`: `CreateGraph`, `RecordMember` and
`CancelGraph` on one graph. Every write keeps the next graph together with its batch of intents;
an intent whose identifier is already there is not written again.

* `Workflow` — a stored graph with the batches that were written with it.
* `recordMember`, `cancelGraph` — the two calls that run the transition.
* `Started` — the workflows that a client or a relay creates.
* `flowStep`, `Reaches` — what calls in any order and number lead to.
* `workflows` — the Redis store with its interleaved reads and writes; `interleaved_reaches`: it
  leads nowhere else.
-/

namespace Gogo.Async

open Gogo.Lib Gogo.Lib.Optimistic

/-- A stored graph, and the batches of intents that were written with it, the first one first. -/
structure Workflow where
  graph : Graph
  batches : List (List Intent)

/-- Every intent that was handed to the store. -/
def Workflow.emitted (w : Workflow) : List Intent := w.batches.flatten

/-- An intent goes into the outbox unless its identifier is there. -/
def stage (outbox : List Intent) (i : Intent) : List Intent :=
  if i.id ∈ outbox.map Intent.id then outbox else outbox ++ [i]

/-- The intents that the store keeps. -/
def Workflow.outbox (w : Workflow) : List Intent := w.emitted.foldl stage []

inductive FlowStore
  | memory
  | redis
deriving DecidableEq

/-- The calls on a stored graph. -/
inductive FlowOp
  | recordMember (completion : Completion)
  | cancelGraph (scope : String)

/-! ## The calls -/

section Calls

variable (codec : Codec) (c : Client)

/-- Whether a store takes the completion of this task. -/
def expectsMember (store : FlowStore) (g : Graph) (id : String) : Bool :=
  (match store with
    | .memory => id == g.callbackId
    | .redis => id == g.callbackId && g.callbackClaimed) ||
  g.children.any fun child => child.id == id

/-- A graph with one more completion. -/
def Graph.record (g : Graph) (m : Completion) : Graph := { g with members := g.members.set m.id m }

/-- The checks of `workflows.go` `Workflows.write` before the script runs. -/
def writeCheck (expected : ℕ) (g : Graph) (intents : List Intent) : Except Err Unit := do
  refuseIf (maxUint64 ≤ expected ∨ g.revision = 0 ∨ !idPattern g.id) .invalid
  refuseIf ((intents.any fun i => i.sourceId != g.id || !idPattern i.id) ∨
    ¬ (intents.map Intent.id).Nodup) .invalid
  refuseIf (!withinGraphBudget codec g intents maxWorkflowDurableBytes) .invalid

/-- What a store writes of the result of a transition. -/
def finalizeWrite (store : FlowStore) (revision : ℕ) (next : Graph) (intents : List Intent) :
    Advanced :=
  match store with
  | .memory => .ok ({ next with revision := increment next.revision }, intents)
  | .redis => do
    let g := { next with revision := revision + 1 }
    writeCheck codec revision g intents
    .ok (g, intents)

/-- Source: `Memory.RecordMember`, `Workflows.RecordMember`; `none` when there is nothing to do. -/
def recordMember (store : FlowStore) (env : Env) (g : Graph) (m : Completion) :
    Except Err (Option (Graph × List Intent)) := do
  refuseIf (store = .redis ∧ !m.state.terminal) .invalid
  if g.done m.id then .ok none
  else do
    refuseIf (!expectsMember store g m.id ∨ !m.state.terminal) .invalid
    let (next, intents) ← advance codec c env (g.record m)
    let r ← finalizeWrite codec store g.revision next intents
    .ok (some r)

/-- Source: `Memory.CancelGraph`, `Workflows.CancelGraph`; `none` when there is nothing to do. -/
def cancelGraph (store : FlowStore) (env : Env) (g : Graph) (scope : String) :
    Except Err (Option (Graph × List Intent)) := do
  refuseIf (g.scope ≠ scope) .denied
  if g.state.terminal then .ok none
  else do
    let (next, intents) ← advance codec c env { g with cancelRequested := true }
    let r ← finalizeWrite codec store g.revision next intents
    .ok (some r)

/-- A call on a stored graph. -/
def flowCall (store : FlowStore) (env : Env) (g : Graph) :
    FlowOp → Except Err (Option (Graph × List Intent))
  | .recordMember m => recordMember codec c store env g m
  | .cancelGraph scope => cancelGraph codec c store env g scope

def Workflow.write (w : Workflow) (r : Graph × List Intent) : Workflow :=
  { graph := r.1.clone, batches := w.batches ++ [r.2] }

/-- A call on a workflow; one that fails or finds nothing to do leaves it as it is. -/
def flowStep (store : FlowStore) (w : Workflow) (call : FlowOp × Env) : Workflow :=
  match flowCall codec c store call.2 w.graph call.1 with
  | .ok (some r) => w.write r
  | _ => w

/-- What calls of any kind, in any order and number, lead to. -/
def Reaches (store : FlowStore) (w w' : Workflow) : Prop :=
  ∃ calls : List (FlowOp × Env), w' = calls.foldl (flowStep codec c store) w

/-- The workflow that `CreateGraph` stores. -/
def createGraph (r : Graph × List Intent) : Workflow := Workflow.write ⟨r.1, []⟩ r

/-- The workflows that come into being by `ApplyCanvas` or by the relay of a replacement. -/
inductive Started : Workflow → Prop
  | applied {env : ℕ → Env} {now : Env} {id : String} {canvas : Canvas} {r : Graph × List Intent}
      (h : applyCanvas codec c env now id canvas = .ok r) : Started (createGraph r)
  | replaced {env : ℕ → Env} {now : Env} {original : Envelope} {d : Definition} {canvas : Canvas}
      {g : Graph} {cancelRequested : Bool} {r : Graph × List Intent}
      (hprepare : prepareReplacement codec c env original d canvas = .ok g)
      (h : startReplacement codec c now g cancelRequested = .ok r) : Started (createGraph r)

end Calls

variable {codec : Codec} {c : Client}

lemma Reaches.refl (store : FlowStore) (w : Workflow) : Reaches codec c store w w := ⟨[], rfl⟩

variable {store : FlowStore}

lemma Reaches.trans {w w' w'' : Workflow} (h : Reaches codec c store w w')
    (h' : Reaches codec c store w' w'') : Reaches codec c store w w'' := by
  obtain ⟨calls, rfl⟩ := h
  obtain ⟨calls', rfl⟩ := h'
  exact ⟨calls ++ calls', by rw [List.foldl_append]⟩

/-- A call changes nothing, or it writes what a transition returned. -/
lemma flowStep_cases (store : FlowStore) (w : Workflow) (call : FlowOp × Env) :
    flowStep codec c store w call = w ∨
      ∃ r, flowCall codec c store call.2 w.graph call.1 = .ok (some r) ∧
        flowStep codec c store w call = w.write r := by
  unfold flowStep
  rcases flowCall codec c store call.2 w.graph call.1 with e | (_ | r)
  · exact .inl rfl
  · exact .inl rfl
  · exact .inr ⟨r, rfl, rfl⟩

/-- A write is the transition of a graph with one more completion, or of a graph whose cancellation
is requested. -/
lemma flowCall_eq_some {env : Env} {g : Graph} {op : FlowOp} {r : Graph × List Intent}
    (h : flowCall codec c store env g op = .ok (some r)) :
    ∃ g' next, advance codec c env g' = .ok (next, r.2) ∧
      (r.1 = { next with revision := r.1.revision }) ∧
      ((∃ m, op = .recordMember m ∧ g' = g.record m ∧ g.done m.id = false ∧
          m.state.terminal = true ∧ expectsMember store g m.id = true) ∨
        (∃ scope, op = .cancelGraph scope ∧ g' = { g with cancelRequested := true } ∧
          g.state.terminal = false)) := by
  have hfinal : ∀ {revision next intents r}, finalizeWrite codec store revision next intents =
      .ok r → r.2 = intents ∧ r.1 = { next with revision := r.1.revision } := by
    intro revision next intents r hr
    unfold finalizeWrite at hr
    rcases store with _ | _
    · cases hr
      exact ⟨rfl, rfl⟩
    · obtain ⟨_, _, hr⟩ := bind_eq_ok.mp hr
      cases hr
      exact ⟨rfl, rfl⟩
  rcases op with m | scope
  · simp only [flowCall, recordMember] at h
    obtain ⟨_, _, h⟩ := bind_eq_ok.mp h
    split_ifs at h with hdone
    · cases h
    · obtain ⟨_, hcheck, h⟩ := bind_eq_ok.mp h
      obtain ⟨⟨next, intents⟩, hadvance, h⟩ := bind_eq_ok.mp h
      obtain ⟨r', hr', h⟩ := bind_eq_ok.mp h
      obtain rfl := Option.some.inj (Except.ok.inj h)
      obtain ⟨rfl, hgraph⟩ := hfinal hr'
      have hok := refuseIf_eq_ok.mp hcheck
      push Not at hok
      refine ⟨_, next, hadvance, hgraph, .inl ⟨m, rfl, rfl, by simpa using hdone, ?_, ?_⟩⟩
      · simpa using hok.2
      · simpa using hok.1
  · simp only [flowCall, cancelGraph] at h
    obtain ⟨_, _, h⟩ := bind_eq_ok.mp h
    split_ifs at h with hterminal
    · cases h
    · obtain ⟨⟨next, intents⟩, hadvance, h⟩ := bind_eq_ok.mp h
      obtain ⟨r', hr', h⟩ := bind_eq_ok.mp h
      obtain rfl := Option.some.inj (Except.ok.inj h)
      obtain ⟨rfl, hgraph⟩ := hfinal hr'
      exact ⟨_, next, hadvance, hgraph, .inr ⟨scope, rfl, rfl, by simpa using hterminal⟩⟩

/-! ## Interleaved calls -/

section Interleaved

variable (codec c)

/-- Source: `workflows.go` `Workflows`, on one graph that exists: 64 attempts, each of which reads
the graph and hands the next one to `graphCAS`. -/
def workflows : Protocol Workflow (Graph × List Intent) FlowOp Env (Except Err Unit) where
  revision w := w.graph.revision
  attempts := 64
  exhausted := .error .busy
  lost := .error (.other "lost")
  reads _ _ := true
  plan op _ env w :=
    match w with
    | none => .answer (.error .notFound)
    | some w =>
      match flowCall codec c .redis env w.graph op with
      | .error e => .answer (.error e)
      | .ok none => .answer (.ok ())
      | .ok (some r) => .write r (.ok ())
  verdict _ _ w r :=
    match w with
    | none => .again
    | some w => .stored (w.write r)

variable {codec c}

variable {env : Env} {op : FlowOp} {r : Graph × List Intent}

/-- What the Redis store writes has the next revision. -/
lemma revision_of_flowCall {g : Graph} (h : flowCall codec c .redis env g op = .ok (some r)) :
    r.1.revision = g.revision + 1 := by
  have hfinal : ∀ {next intents r}, finalizeWrite codec .redis g.revision next intents = .ok r →
      r.1.revision = g.revision + 1 := by
    intro next intents r hr
    obtain ⟨_, _, hr⟩ := bind_eq_ok.mp hr
    cases hr
    rfl
  rcases op with m | scope
  · simp only [flowCall, recordMember] at h
    obtain ⟨_, _, h⟩ := bind_eq_ok.mp h
    split_ifs at h
    · cases h
    · obtain ⟨_, _, h⟩ := bind_eq_ok.mp h
      obtain ⟨_, _, h⟩ := bind_eq_ok.mp h
      obtain ⟨r', hr', h⟩ := bind_eq_ok.mp h
      obtain rfl := Option.some.inj (Except.ok.inj h)
      exact hfinal hr'
  · simp only [flowCall, cancelGraph] at h
    obtain ⟨_, _, h⟩ := bind_eq_ok.mp h
    split_ifs at h
    · cases h
    · obtain ⟨_, _, h⟩ := bind_eq_ok.mp h
      obtain ⟨r', hr', h⟩ := bind_eq_ok.mp h
      obtain rfl := Option.some.inj (Except.ok.inj h)
      exact hfinal hr'

lemma workflows_plan_write {n : ℕ} {w : Option Workflow} {x : Except Err Unit}
    (h : (workflows codec c).plan op n env w = .write r x) :
    ∃ w', w = some w' ∧ flowCall codec c .redis env w'.graph op = .ok (some r) := by
  rcases w with _ | w
  · cases h
  · refine ⟨w, rfl, ?_⟩
    simp only [workflows] at h
    split at h
    · cases h
    · cases h
    · next r' hr =>
      obtain ⟨rfl, _⟩ := Plan.write.inj h
      exact hr

lemma workflows_raises : (workflows codec c).Raises := by
  intro op n env env' w r x v hplan hverdict
  obtain ⟨w, rfl, hcall⟩ := workflows_plan_write hplan
  obtain rfl := Verdict.stored.inj hverdict
  show w.graph.revision < r.1.revision
  rw [revision_of_flowCall hcall]
  omega

variable (codec c) in
/-- The workflow stays there and changes by calls alone. -/
def LeadsTo (v v' : Option Workflow) : Prop :=
  ∀ w, v = some w → ∃ w', v' = some w' ∧ Reaches codec c .redis w w'

lemma LeadsTo.refl (v : Option Workflow) : LeadsTo codec c v v := fun w hw => ⟨w, hw, .refl _ _⟩

lemma LeadsTo.trans {v v' v'' : Option Workflow} (h : LeadsTo codec c v v')
    (h' : LeadsTo codec c v' v'') : LeadsTo codec c v v'' := by
  intro w hw
  obtain ⟨w', hw', hreach⟩ := h w hw
  obtain ⟨w'', hw'', hreach'⟩ := h' w' hw'
  exact ⟨w'', hw'', hreach.trans hreach'⟩

lemma leadsTo_of_atomic {o : Observation Workflow FlowOp (Except Err Unit)}
    (h : Atomic (workflows codec c) o) : LeadsTo codec c o.before o.after := by
  cases h with
  | silent => exact .refl _
  | exhausted => exact .refl _
  | answered _ _ => exact .refl _
  | refused _ => exact .refl _
  | @written _ op _ env _ _ _ _ _ hplan hverdict _ =>
    obtain ⟨w', rfl, hcall⟩ := workflows_plan_write hplan
    obtain rfl := Verdict.stored.inj hverdict
    intro w hw
    cases hw
    refine ⟨_, rfl, [(op, env)], ?_⟩
    simp only [List.foldl_cons, List.foldl_nil, flowStep, hcall]

/-- **The interleaved store leads where calls one after the other lead**: from a workflow that is
there, any run of reads and writes passes through reachable workflows only, each of them reached from
every earlier one. -/
theorem interleaved_reaches {w : Workflow} (hpos : 0 < w.graph.revision)
    (events : List (Event FlowOp Env)) :
    (∀ o ∈ history (workflows codec c) { value := some w } events,
      LeadsTo codec c (some w) o.before ∧ LeadsTo codec c o.before o.after) ∧
    (history (workflows codec c) { value := some w } events).Pairwise fun o o' =>
      LeadsTo codec c o.after o'.before := by
  have hcoherent : Coherent (workflows codec c) { value := some w } :=
    { positive := fun v hv => by
        cases hv
        exact hpos
      older := fun _ _ _ _ hi => by cases hi
      planned := fun _ _ _ _ hi => by cases hi }
  have hatomic := history_atomic workflows_raises hcoherent events
  have hlinked := history_linked (P := workflows codec c) { value := some w } events
  obtain ⟨hpair, hstart⟩ := hlinked.pairwise LeadsTo.refl (fun _ _ _ => LeadsTo.trans)
    fun o ho => leadsTo_of_atomic (hatomic o ho)
  exact ⟨fun o ho => ⟨hstart o ho, leadsTo_of_atomic (hatomic o ho)⟩, hpair⟩

end Interleaved

end Gogo.Async

import Gogo.Async.Fencing
import Gogo.Async.Finality

/-!
# Cancellation across a yield

A task that yields to a replacement is spread over two stores: its record, and the graph of the
replacement, which a relay creates later from an intent. `replacement.go`, `links.go` and the relay of
`canvas.go` connect them by intents that are delivered at least once.

* `terminalIntents`, `yieldReplacement`, `createReplacement`, `finalizeReplacement` — what a worker
  and the relay hand to the stores.
* `ResultStore` — a store of task records; `memoryStore`, `redisStore`.
* `Site`, `SiteEvent`, `siteStep` — the record of a task with its outbox, the graphs, and what relays
  have begun: graphs that are not created yet and deliveries that are not acknowledged yet. An
  interleaved history of the store is a sequence of calls on it (`exists_calls_of_history`).
* `cancellation_survives_yield` — a cancellation of a task that has yielded is never lost.
-/

namespace Gogo.Async

open List Gogo.Lib Gogo.Lib.Optimistic

/-! ## What workers and relays hand to the stores -/

section Source

variable (codec : Codec) (c : Client)

/-- Source: `state.go` `CompletionIntents`. -/
def completionIntents (e : Envelope) (state : State) (output : RawMessage)
    (failure : Option Failure) : List Intent :=
  if e.workflowId = "" ∨ !state.terminal then []
  else
    [{ id := codec.stableId e.id "completion"
       sourceId := e.id
       kind := .completion
       workflowId := e.workflowId
       completion := some { id := e.id, state := state, output := output, failure := failure } }]

def encodeFailure : Option Failure → Json
  | none => .null
  | some f => .obj [("code", .str f.code), ("message", .str f.message)]

/-- The envelope of a linked task. -/
def linkedEnvelope (now : Time) (parent : Envelope) (bound : Signature) (d : Definition)
    (id : String) : Envelope :=
  let eta := if 0 < bound.options.countdown then Time.add now bound.options.countdown
    else bound.options.eta
  { protocolVersion := protocolVersion
    id := id
    task := bound.task
    version := bound.version
    args := bound.args
    createdAt := now
    queue := if bound.options.queue = "" then d.queue else bound.options.queue
    maxRetries := d.maxRetries
    eta := if eta < now then 0 else eta
    expiresAt := bound.options.expiresAt
    priority := bound.options.priority
    scope := parent.scope
    principal := parent.principal
    parentId := parent.id
    rootId := if parent.rootId = "" then parent.id else parent.rootId
    headers := bound.options.headers
    stamps := bound.options.stamps
    callbacks := bound.callbacks
    errbacks := bound.errbacks
    replacementDepth := parent.replacementDepth }

/-- The intent of one linked task; a task that does not accept its input fails on its own. -/
def linkedIntent (now : Time) (parent : Envelope) (kind : String) (value : RawMessage)
    (link : Signature) (index : ℕ) : Except Err Intent := do
  let bound ← link.bind value
  let d ← c.registry.lookup link.task link.version
  let e := linkedEnvelope now parent bound d
    (codec.stableId parent.id (kind ++ "-" ++ toString index))
  e.validate codec
  match d.validate e.args with
  | .error _ => .ok (failIntent codec parent.id e)
  | .ok () => .ok (dispatchIntent codec parent.id e)

/-- Source: `links.go` `Worker.linkedIntents`. -/
def linkedIntents (now : Time) (parent : Envelope) (t : Transition) : Except Err (List Intent) :=
  if t.state = .succeeded then
    parent.callbacks.zipIdx.mapM fun p => linkedIntent codec c now parent "callback" t.output p.1 p.2
  else
    parent.errbacks.zipIdx.mapM fun p =>
      linkedIntent codec c now parent "errback" (some (encodeFailure t.failure)) p.1 p.2

/-- Source: `links.go` `Worker.terminalIntents`. -/
def terminalIntents (now : Time) (parent : Envelope) (t : Transition) :
    Except Err (List Intent) := do
  let linked ← linkedIntents codec c now parent t
  .ok (completionIntents codec parent t.state t.output t.failure ++ linked)

/-- Source: `replacement.go` `Worker.yieldReplacement`. -/
def yieldReplacement (worker : String) (original : Envelope) (claim : Record) (g : Graph) :
    Transition :=
  { id := original.id
    fence := claim.fence
    owner := worker
    state := .running
    replacementId := g.id
    intents :=
      [{ id := codec.stableId original.id "replacement-dispatch"
         sourceId := original.id
         kind := .replace
         workflowId := g.id
         graph := some g }] }

/-- Source: `replacement.go` `IntentRelay.createReplacement`, up to `CreateGraph`: the graph that the
relay makes of the record it has looked up. -/
def createReplacement (now : Env) (intent : Intent) (original : Record) : Advanced :=
  match intent.graph with
  | none => .error .invalid
  | some g => do
    refuseIf (intent.sourceId ≠ g.originTaskId ∨ intent.workflowId ≠ g.id) .invalid
    refuseIf (original.envelope.id ≠ g.originTaskId) .notFound
    refuseIf (original.replacementId ≠ g.id ∨ original.digest ≠ g.originDigest) .conflict
    startReplacement codec c now g original.cancelRequested

/-- The failure of a task whose replacement was canceled. -/
def replacementRevoked : Failure := ⟨"REVOKED", "Replacement cancellation was recorded"⟩

/-- The failure of a task whose replacement ended with another output than the task declares. -/
def replacementOutput : Failure :=
  ⟨"REPLACEMENT_OUTPUT", "Replacement output did not satisfy the original task result schema"⟩

/-- The outcome that `completeReplacement` takes from a completion and the record it resolves. -/
def replacementOutcome (d : Definition) (m : Completion) (r : Record) : Completion :=
  let m :=
    if r.cancelRequested then
      { m with state := .revoked, output := none, failure := some replacementRevoked }
    else m
  if m.state = .succeeded ∧ d.validateOutput m.output ≠ .ok () then
    { m with state := .failed, output := none, failure := some replacementOutput }
  else m

/-- The closure that `completeReplacement` hands to `ResolveReplacement`. -/
def finalizeReplacement (now : Time) (m : Completion) (r : Record) : Except Err Transition := do
  let d ← c.registry.lookup r.envelope.task r.envelope.version
  let m := replacementOutcome d m r
  let t : Transition :=
    { id := r.envelope.id, state := m.state, output := m.output, failure := m.failure }
  let intents ← terminalIntents codec c now r.envelope t
  .ok { t with intents := intents }

/-- The checks of `CreateGraph`. -/
def createCheck (store : FlowStore) (r : Graph × List Intent) : Except Err Unit :=
  match store with
  | .memory => .ok ()
  | .redis => do
    refuseIf (r.1.id = "" ∨ r.1.revision ≠ 1 ∨ 1000 < r.1.children.length) .invalid
    writeCheck codec 0 r.1 r.2

end Source

/-! ## Two stores and their relays -/

/-- A store of task records: the calls it takes, how a stored value is read as a record, and what
holds of its writes. -/
structure ResultStore (codec : Codec) where
  Value : Type
  protocol : Protocol Value Write Op Reading (Except Err Reply)
  view : Value → Record
  backend : Backend
  /-- What is written was proposed for the record that is there. -/
  proposed : ∀ {op n t s w x}, protocol.plan op n t s = .write w x →
    ∃ r, propose codec backend op n t (s.map view) = .ok (.write w r)
  /-- What is stored is what was proposed, but for the lease. -/
  stored : ∀ {op t s w v}, protocol.verdict op t s w = .stored v →
    ∃ lease, view v = { w.record with leaseUntil := lease }
  /-- A task that has yielded holds no lease. -/
  unleased : ∀ {op n t t' s w x v}, protocol.plan op n t s = .write w x →
    protocol.verdict op t' s w = .stored v → Unleased (s.map view) → Unleased (some (view v))

def memoryStore (codec : Codec) : ResultStore codec where
  Value := Record
  protocol := memory codec
  view := id
  backend := .memory
  proposed h := by
    obtain ⟨r, hr, -⟩ := toPlan_eq_write h
    rw [Option.map_id]
    exact ⟨r, unlessFault_eq_ok hr⟩
  stored h := by
    obtain rfl := Verdict.stored.inj h
    exact ⟨_, rfl⟩
  unleased hplan hverdict hs := by
    rw [Option.map_id] at hs
    exact (memory_sound (.written hplan hverdict (.inl rfl)) hs).unleased

/-- The store in Redis. -/
def redisStore (codec : Codec) (resultTTL tombstoneTTL : Duration) : ResultStore codec where
  Value := Row
  protocol := redis codec resultTTL tombstoneTTL
  view := Row.view
  backend := .redis resultTTL tombstoneTTL
  proposed h := by
    obtain ⟨r, -, hr, -⟩ := redis_plan_write h
    exact ⟨r, hr⟩
  stored {_ _ _ _ v} h := by
    have hrecord := (recordCAS_stored h).1
    exact ⟨v.view.leaseUntil, by rw [← hrecord]; rfl⟩
  unleased hplan hverdict hs := (redis_sound (.written hplan hverdict (.inl rfl)) hs).unleased

section Site

variable {codec : Codec} (c : Client) (S : ResultStore codec) (store : FlowStore)

/-- The record of a task with the intents that were written with it and whether they are delivered,
the graphs, and what relays have begun. -/
structure Site where
  value : S.Value
  outbox : List (Intent × Bool) := []
  graphs : String → Option Workflow := fun _ => none
  /-- Graphs that relays have made of a record and not created yet, with the intents they deliver. -/
  prepared : List (Intent × Graph × List Intent) := []
  /-- Intents that their targets have accepted and that are not acknowledged yet. -/
  accepted : List Intent := []

/-- What happens next; intents and graphs are named by their positions. -/
inductive SiteEvent
  /-- A call on the record of the task. -/
  | call (op : Op) (attempt : ℕ) (t t' : Reading)
  /-- A relay looks the task up for an intent that starts the replacement. -/
  | lookUp (k : ℕ) (now : Env)
  /-- A relay creates a graph that it has made. -/
  | create (k : ℕ)
  /-- A relay delivers an intent that cancels the replacement. -/
  | deliver (k : ℕ) (now : Env)
  /-- A relay delivers an intent of a graph that completes the replacement. -/
  | complete (graph : String) (k : ℕ) (now : Time) (attempt : ℕ) (t t' : Reading)
  /-- A call on a graph. -/
  | flow (graph : String) (op : FlowOp) (now : Env)
  /-- A relay acknowledges an intent that was accepted. -/
  | acknowledge (k : ℕ)

variable {S}

/-- The record of the task. -/
def Site.record (s : Site S) : Record := S.view s.value

/-- An intent goes into the outbox unless its identifier is there. -/
def stageIntent (outbox : List (Intent × Bool)) (i : Intent) : List (Intent × Bool) :=
  if i.id ∈ outbox.map fun p => p.1.id then outbox else outbox ++ [(i, false)]

/-- An intent that is not delivered. -/
def Site.pending (s : Site S) (k : ℕ) : Option Intent :=
  match s.outbox[k]? with
  | some (i, false) => some i
  | _ => none

/-- A call on the record: what it proposes is stored, with its intents. -/
def Site.call (s : Site S) (op : Op) (attempt : ℕ) (t t' : Reading) : Site S :=
  match S.protocol.plan op attempt t (some s.value) with
  | .answer _ => s
  | .write w _ =>
    match S.protocol.verdict op t' (some s.value) w with
    | .stored v => { s with value := v, outbox := w.intents.foldl stageIntent s.outbox }
    | _ => s

/-- The first half of the delivery of an intent that starts the replacement. -/
def Site.lookUp (s : Site S) (now : Env) (i : Intent) : Site S :=
  match createReplacement codec c now i s.record with
  | .ok r => { s with prepared := s.prepared ++ [(i, r)] }
  | .error _ => s

/-- The second half: the graph is created, or it is there and is one of the same task. -/
def Site.create (s : Site S) (i : Intent) (r : Graph × List Intent) : Site S :=
  match s.graphs r.1.id with
  | none =>
    match createCheck codec store r with
    | .ok () =>
      { s with
        graphs := Function.update s.graphs r.1.id (some (createGraph r))
        accepted := s.accepted ++ [i] }
    | .error _ => s
  | some w =>
    if w.graph.originTaskId = r.1.originTaskId ∧ w.graph.originDigest = r.1.originDigest ∧
        w.graph.scope = r.1.scope then { s with accepted := s.accepted ++ [i] }
    else s

/-- The delivery of an intent that cancels the replacement. Without a graph it stays pending. -/
def Site.deliver (s : Site S) (now : Env) (i : Intent) : Site S :=
  match i.envelope, s.graphs i.workflowId with
  | some e, some w =>
    match cancelGraph codec c store now w.graph e.scope with
    | .error _ => s
    | .ok none => { s with accepted := s.accepted ++ [i] }
    | .ok (some r) =>
      { s with
        graphs := Function.update s.graphs i.workflowId (some (w.write r))
        accepted := s.accepted ++ [i] }
  | _, _ => s

/-- The delivery of an intent that completes the replacement. -/
def Site.complete (s : Site S) (now : Time) (attempt : ℕ) (t t' : Reading) (i : Intent) : Site S :=
  match i.completion with
  | some m =>
    if i.targetId = m.id ∧ i.targetId = s.record.envelope.id then
      s.call (.resolveReplacement i.workflowId (finalizeReplacement codec c now m)) attempt t t'
    else s
  | none => s

/-- Source: `MarkIntentDelivered`. -/
def Site.acknowledge (s : Site S) (i : Intent) : Site S :=
  { s with outbox := s.outbox.map fun p => if p.1.id = i.id then (p.1, true) else p }

/-- One step; an event that names nothing changes nothing. -/
def siteStep (s : Site S) : SiteEvent → Site S
  | .call op attempt t t' => s.call op attempt t t'
  | .lookUp k now =>
    match s.pending k with
    | some i => if i.kind = .replace then s.lookUp c now i else s
    | none => s
  | .create k =>
    match s.prepared[k]? with
    | some (i, r) => s.create store i r
    | none => s
  | .deliver k now =>
    match s.pending k with
    | some i => if i.kind = .cancelWorkflow then s.deliver c store now i else s
    | none => s
  | .complete graph k now attempt t t' =>
    match (s.graphs graph).bind fun w => w.emitted[k]? with
    | some i => if i.kind = .replacementComplete then s.complete c now attempt t t' i else s
    | none => s
  | .flow graph op now =>
    match s.graphs graph with
    | some w =>
      { s with
        graphs := Function.update s.graphs graph
          (some (flowStep codec c store w (op, now))) }
    | none => s
  | .acknowledge k =>
    match s.accepted[k]? with
    | some i => s.acknowledge i
    | none => s

omit c store

/-- Calls on the record one after the other, each with its attempt and the readings of its halves. -/
def Site.calls (s : Site S) (l : List (Op × ℕ × Reading × Reading)) : Site S :=
  l.foldl (fun s call => s.call call.1 call.2.1 call.2.2.1 call.2.2.2) s

/-- What one step of the store does to the value, at most one call on the site does. -/
lemma exists_calls_of_atomic {s : Site S} {before after : Option S.Value}
    {reply : Option (Op × Except Err Reply)} (h : Atomic S.protocol ⟨before, after, reply⟩)
    (hbefore : before = some s.value) : ∃ l, after = some (s.calls l).value := by
  cases h with
  | silent => exact ⟨[], hbefore⟩
  | exhausted => exact ⟨[], hbefore⟩
  | answered => exact ⟨[], hbefore⟩
  | refused => exact ⟨[], hbefore⟩
  | @written _ op n t t' w _ _ v hplan hverdict _ =>
    subst hbefore
    refine ⟨[(op, n, t, t')], ?_⟩
    simp only [Site.calls, Site.call, hplan, hverdict, foldl_cons, foldl_nil]

/-- **What an interleaved history of the store makes of the value, calls on the site make of it.** -/
theorem exists_calls_of_history (hraise : S.protocol.Raises) {system : System S.Value Op Reading}
    (hsystem : Coherent S.protocol system) {s : Site S} (hvalue : system.value = some s.value)
    (events : List (Event Op Reading)) :
    ∀ o ∈ history S.protocol system events, ∃ l, o.after = some (s.calls l).value := by
  induction events generalizing system s with
  | nil =>
    intro o ho
    cases ho
  | cons e rest ih =>
    obtain ⟨hcoherent, hatomic⟩ := step_spec hraise hsystem e
    obtain ⟨l, hl⟩ := exists_calls_of_atomic hatomic hvalue
    intro o ho
    rcases mem_cons.mp ho with rfl | ho
    · exact ⟨l, hl⟩
    · obtain ⟨l', hl'⟩ := ih hcoherent hl o ho
      exact ⟨l ++ l', by rw [hl', Site.calls, Site.calls, Site.calls, foldl_append]⟩

/-- So it is with the reads and compare-and-set writes of the store in Redis. -/
lemma exists_calls_of_redis {resultTTL tombstoneTTL : Duration}
    {s : Site (redisStore codec resultTTL tombstoneTTL)} {system : System Row Op Reading}
    (hsystem : Coherent (redis codec resultTTL tombstoneTTL) system)
    (hvalue : system.value = some s.value) (events : List (Event Op Reading)) :
    ∀ o ∈ history (redis codec resultTTL tombstoneTTL) system events,
      ∃ l, o.after = some (s.calls l).value :=
  @exists_calls_of_history codec (redisStore codec resultTTL tombstoneTTL) redis_raises system
    hsystem s hvalue events

end Site

/-! ## What a call writes -/

section Calls

variable {codec : Codec}

variable {r r' w : Record} {t : Transition} {now : Time} {a b : Duration} {op : Op} {reply : Reply}

/-- A task that goes on keeps its identifier. -/
lemma id_of_applyOutcome (h : applyOutcome codec r t now a b = .ok r')
    (hopen : r'.state.terminal = false) : r'.envelope.id = r.envelope.id := by
  unfold applyOutcome at h
  split_ifs at h with _ hstate _ _ hretry
  · obtain ⟨_, hvalid, h⟩ := bind_eq_ok.mp h
    cases h
    unfold validRetry at hvalid
    rcases hnext : t.next with _ | next <;> simp only [hnext] at hvalid
    · cases hvalid
    · split_ifs at hvalid with hcheck
      push Not at hcheck
      simp only [Record.finish, hnext]
      exact hcheck.1
  · cases h
    have hopen : t.state.terminal = false := hopen
    refine absurd ?_ hstate
    exact .inr ⟨by simpa using hopen, hretry⟩

lemma id_of_applyTransition (h : applyTransition codec r t now a b = .ok r')
    (hopen : r'.state.terminal = false) : r'.envelope.id = r.envelope.id := by
  unfold applyTransition at h
  obtain ⟨_, -, h⟩ := bind_eq_ok.mp h
  split_ifs at h
  · obtain ⟨_, _, -, -, -, -, rfl⟩ := applyYield_eq_ok h
    rfl
  · exact id_of_applyOutcome h hopen

@[inherit_doc id_of_applyOutcome]
lemma id_of_propose {b : Backend} {n : ℕ} {t : Reading} {w : Write}
    (h : propose codec b op n t (some r) = .ok (.write w reply))
    (hopen : w.record.state.terminal = false) : w.record.envelope.id = r.envelope.id := by
  have htransition : ∀ tr, op = .transition tr → w.record.envelope.id = r.envelope.id := by
    rintro tr rfl
    obtain ⟨r', hr', h⟩ := present_bind_eq_ok.mp h
    cases hr'
    obtain ⟨next, hnext, h⟩ := bind_eq_ok.mp h
    obtain ⟨rfl, -⟩ := Plan.write.inj (Except.ok.inj h)
    exact id_of_applyTransition hnext hopen
  have hevolves := evolves_of_propose h
  generalize w.record = w' at hevolves hopen htransition ⊢
  cases hevolves with
  | acquired hbase hacquires =>
    obtain rfl | ⟨hnone, -⟩ := hbase.imp_left Option.some.inj
    · rw [hacquires.record]
      rfl
    · cases hnone
  | renewed _ hnext => rw [hnext]
  | yielded _ _ _ => exact htransition _ rfl
  | finished _ _ => exact htransition _ rfl
  | resolved _ hresolves =>
    rw [hresolves.state, hresolves.terminal] at hopen
    cases hopen
  | _ => rfl

/-- What a call does to a task that has yielded or yields. -/
structure Rewrites (op : Op) (r w : Record) : Prop where
  replacementId : r.replacementId ≠ "" → w.replacementId = r.replacementId
  ended : r.state.terminal = true → w.state = r.state ∧ w.cancelRequested = r.cancelRequested ∧
    w.replacementId = r.replacementId
  canceled : w.state.terminal = false → w.replacementId ≠ "" → w.cancelRequested = true →
    (r.replacementId ≠ "" ∧ r.cancelRequested = true) ∨ ∃ scope, op = .requestCancel scope
  revoked : r.state.terminal = false → w.state.terminal = true → w.replacementId ≠ "" →
    w.cancelRequested = true → w.state = .revoked

/-- A task that works under a lease has not yielded, and neither has it after that. -/
lemma rewrites_of_leased {fence : ℕ} {owner : String} (hleased : Leased r fence owner now)
    (hs : Unleased (some r))
    (hw : w.replacementId = r.replacementId ∨ (w.cancelRequested = false ∧ w.state.terminal =
      false)) : Rewrites op r w := by
  have hunyielded := hleased.unyielded hs
  have hopen := hleased.open'
  rcases hw with hw | ⟨hcancel, hopen'⟩
  · rw [hunyielded] at hw
    exact
      { replacementId := fun h => absurd hunyielded h
        ended := fun h => by rw [hopen] at h; cases h
        canceled := fun _ h => absurd hw h
        revoked := fun _ _ h => absurd hw h }
  · exact
      { replacementId := fun h => absurd hunyielded h
        ended := fun h => by rw [hopen] at h; cases h
        canceled := fun _ _ h => by rw [hcancel] at h; cases h
        revoked := fun _ h => by rw [hopen'] at h; cases h }

/-- A note on a record that leaves its state and its replacement alone. -/
lemma rewrites_of_note (hterminal : r.state.terminal = true) (hstate : w.state = r.state)
    (hcancel : w.cancelRequested = r.cancelRequested) (hrepl : w.replacementId = r.replacementId) :
    Rewrites op r w where
  replacementId _ := hrepl
  ended _ := ⟨hstate, hcancel, hrepl⟩
  canceled h := by
    rw [hstate, hterminal] at h
    cases h
  revoked h := by
    rw [hterminal] at h
    cases h

/-- **What any call does to a task that has yielded or yields.** -/
theorem Evolves.rewrites (h : Evolves codec op (some r) w reply) (hs : Unleased (some r)) :
    Rewrites op r w := by
  cases h with
  | acquired hbase h =>
    obtain rfl | ⟨hnone, -⟩ := hbase.imp_left Option.some.inj
    · rw [h.record]
      exact
        { replacementId := fun hne => absurd h.unyielded hne
          ended := fun hterminal => by rw [h.open'] at hterminal; cases hterminal
          canceled := fun _ hne => absurd h.unyielded hne
          revoked := fun _ _ hne => absurd h.unyielded hne }
    · cases hnone
  | renewed hleased hnext => exact rewrites_of_leased hleased hs (.inl (by rw [hnext]))
  | yielded hleased _ hyield =>
    obtain ⟨_, _, -, -, -, hcancel, rfl⟩ := applyYield_eq_ok hyield
    exact rewrites_of_leased hleased hs (.inr ⟨hcancel, hleased.open'⟩)
  | finished hleased hfinish => exact rewrites_of_leased hleased hs (.inl hfinish.replacementId)
  | progressed hleased => exact rewrites_of_leased hleased hs (.inl rfl)
  | canceled hopen =>
    exact
      { replacementId := fun _ => rfl
        ended := fun hterminal => by rw [hopen] at hterminal; cases hterminal
        canceled := fun _ _ _ => .inr ⟨_, rfl⟩
        revoked := fun _ hterminal => by
          have hterminal : r.state.terminal = true := hterminal
          rw [hopen] at hterminal
          cases hterminal }
  | resolved hopen h =>
    exact
      { replacementId := fun _ => h.replacementId
        ended := fun hterminal => by rw [hopen] at hterminal; cases hterminal
        canceled := fun hterminal => by
          rw [h.state, h.terminal] at hterminal
          cases hterminal
        revoked := fun _ _ _ hcancel => by
          rw [h.cancelRequested] at hcancel
          rw [h.state, h.revoked hcancel] }
  | forgotten hterminal => exact rewrites_of_note hterminal rfl rfl rfl
  | released hterminal => exact rewrites_of_note hterminal rfl rfl rfl

end Calls

/-! ## The outbox -/

section Outbox

variable {outbox : List (Intent × Bool)} {intents : List Intent}

variable {i : Intent} {p : Intent × Bool}

lemma mem_stageIntent (h : p ∈ stageIntent outbox i) : p ∈ outbox ∨ p = (i, false) := by
  unfold stageIntent at h
  split_ifs at h
  · exact .inl h
  · exact (mem_append.mp h).imp_right mem_singleton.mp

lemma subset_stageIntent (i : Intent) : outbox ⊆ stageIntent outbox i := by
  unfold stageIntent
  split_ifs
  · exact List.Subset.refl _
  · exact subset_append_left _ _

lemma subset_foldl_stageIntent : outbox ⊆ intents.foldl stageIntent outbox := by
  induction intents generalizing outbox with
  | nil => exact List.Subset.refl _
  | cons i rest ih => exact fun _ hp => ih (subset_stageIntent i hp)

lemma mem_foldl_stageIntent (h : p ∈ intents.foldl stageIntent outbox) :
    p ∈ outbox ∨ (p.1 ∈ intents ∧ p.2 = false) := by
  induction intents generalizing outbox with
  | nil => exact .inl h
  | cons i rest ih =>
    rcases ih h with h | ⟨hmem, hflag⟩
    · rcases mem_stageIntent h with h | rfl
      · exact .inl h
      · exact .inr ⟨mem_cons_self, rfl⟩
    · exact .inr ⟨mem_cons_of_mem _ hmem, hflag⟩

/-- The identifier of every staged intent is in the outbox. -/
lemma exists_foldl_stageIntent (h : i ∈ intents) :
    ∃ p ∈ intents.foldl stageIntent outbox, p.1.id = i.id := by
  induction intents generalizing outbox with
  | nil => cases h
  | cons j rest ih =>
    rcases mem_cons.mp h with rfl | h
    · have hstaged : ∃ p ∈ stageIntent outbox i, p.1.id = i.id := by
        unfold stageIntent
        split_ifs with hmem
        · obtain ⟨p, hp, hid⟩ := mem_map.mp hmem
          exact ⟨p, hp, hid⟩
        · exact ⟨(i, false), mem_append_right _ (mem_singleton.mpr rfl), rfl⟩
      obtain ⟨p, hp, hid⟩ := hstaged
      exact ⟨p, @subset_foldl_stageIntent _ rest _ hp, hid⟩
    · exact ih h

lemma nodup_foldl_stageIntent (h : (outbox.map fun p => p.1.id).Nodup) :
    ((intents.foldl stageIntent outbox).map fun p => p.1.id).Nodup := by
  induction intents generalizing outbox with
  | nil => exact h
  | cons i rest ih =>
    refine ih ?_
    unfold stageIntent
    split_ifs with hmem
    · exact h
    · rw [map_append, nodup_append]
      refine ⟨h, nodup_singleton _, ?_⟩
      rintro a ha b hb rfl
      obtain rfl : a = i.id := mem_singleton.mp hb
      exact hmem ha

end Outbox

/-! ## Graphs that are canceled or have ended -/

section Halted

variable {codec : Codec} {c : Client} {env : Env}

/-- The graph is canceled or has ended. -/
def Graph.Halted (g : Graph) : Prop := g.cancelRequested = true ∨ g.state.terminal = true

/-- A transition does not take a cancellation back, nor an end. -/
lemma Graph.Halted.advance {g next : Graph} {intents : List Intent} (h : g.Halted)
    (hadvance : Async.advance codec c env g = .ok (next, intents)) : next.Halted := by
  have honward : ∀ {g next : Graph}, Onward g next → g.Halted → next.Halted := fun honward h =>
    h.imp (fun h => honward.cancelRequested.trans h) honward.terminal
  obtain ⟨within, hturn, -⟩ := turn_of_advance hadvance
  cases hturn with
  | aborts _ hturn => exact honward hturn.onward h
  | stays _ _ _ => exact h
  | nested _ hopen _ hnested =>
    obtain ⟨st, intents', hgrown, -, hr⟩ := advanceNested_cases hnested hopen
    obtain ⟨rfl, rfl⟩ := Prod.mk.inj hr
    have hcancel : g.cancelRequested = true := h.resolve_right (by rw [hopen]; decide)
    left
    rw [concludeNested_graph, hgrown.graph]
    exact hcancel
  | canceled hopen _ _ hturn => exact honward (hturn.onward hopen) h
  | flat hopen _ _ _ hturn => exact honward (hturn.onward hopen) h

variable {store : FlowStore} {w : Workflow}

/-- A graph that is called keeps what was requested. -/
lemma Graph.Halted.write {op : FlowOp} {r : Graph × List Intent}
    (hop : w.graph.Halted ∨ ∃ scope, op = .cancelGraph scope)
    (h : flowCall codec c store env w.graph op = .ok (some r)) : (w.write r).graph.Halted := by
  obtain ⟨g', next, hprepared, hadvance, hr⟩ := prepared_of_flowCall h
  have hhalted : g'.Halted := by
    cases hprepared with
    | record _ _ _ =>
      rcases hop with hop | ⟨scope, hop⟩
      · exact hop
      · cases hop
    | cancel _ => exact .inl rfl
  have hnext := hhalted.advance hadvance
  show r.1.clone.Halted
  rw [hr]
  exact hnext

lemma Graph.Halted.flowStep (h : w.graph.Halted) (call : FlowOp × Env) :
    (Async.flowStep codec c store w call).graph.Halted := by
  rcases flowStep_cases store w call with heq | ⟨r, hr, heq⟩
  · rw [heq]
    exact h
  · rw [heq]
    exact Graph.Halted.write (.inl h) hr

end Halted

/-! ## The invariant -/

section Tracks

variable {codec : Codec} {c : Client} {S : ResultStore codec} {store : FlowStore}

variable (codec) in
/-- The identifier of the intent that cancels the replacement of a task. -/
def cancelId (id : String) : String := codec.stableId id "replacement-cancel"

variable (codec) in
/-- The intents that a call hands in do not take the identifier of the cancellation. -/
def Op.Spares (id : String) : Op → Prop
  | .transition t => ∀ i ∈ t.intents, i.id ≠ cancelId codec id
  | .resolveReplacement _ finalize =>
    ∀ r t, finalize r = .ok t → ∀ i ∈ t.intents, i.id ≠ cancelId codec id
  | _ => True

variable (codec) in
@[inherit_doc Op.Spares]
def SiteEvent.Spares (id : String) : SiteEvent → Prop
  | .call op _ _ _ => op.Spares codec id
  | _ => True

/-- The graph exists, and it is canceled or has ended. -/
def Site.Reached (s : Site S) (graph : String) : Prop :=
  ∃ w, s.graphs graph = some w ∧ w.graph.Halted

/-- An intent that cancels the graph is not delivered yet. -/
def Site.Underway (s : Site S) (graph : String) : Prop :=
  ∃ i, (i, false) ∈ s.outbox ∧ i.kind = .cancelWorkflow ∧ i.workflowId = graph

/-- What holds between the two stores. -/
structure Tracks (task : String) (s : Site S) : Prop where
  unleased : Unleased (some s.record)
  named : s.record.state.terminal = false → s.record.envelope.id = task
  nodup : (s.outbox.map fun p => p.1.id).Nodup
  cancels : ∀ p ∈ s.outbox, p.1.id = cancelId codec task →
    p.1.kind = .cancelWorkflow ∧ p.1.workflowId = s.record.replacementId ∧
      s.record.replacementId ≠ ""
  noted : s.record.state.terminal = false → s.record.replacementId ≠ "" →
    s.record.cancelRequested = true → ∃ p ∈ s.outbox, p.1.id = cancelId codec task
  revoked : s.record.replacementId ≠ "" → s.record.cancelRequested = true →
    s.record.state.terminal = true → s.record.state = .revoked
  delivered : ∀ p ∈ s.outbox, p.2 = true → p.1.kind = .cancelWorkflow → s.Reached p.1.workflowId
  prepared : ∀ p ∈ s.prepared, p.1.kind = .replace ∧ ∃ b, (p.1, b) ∈ s.outbox
  accepted : ∀ i ∈ s.accepted, (∃ b, (i, b) ∈ s.outbox) ∧
    (i.kind = .cancelWorkflow → s.Reached i.workflowId)

variable {task graph : String} {s s' : Site S} {b : Backend} {op : Op} {n : ℕ} {r : Record}
  {reply : Reply} {i : Intent} {now : Time} {parent : Envelope} {t : Transition} {w : Workflow}

/-- A cancellation is on its way or has arrived. -/
lemma Tracks.underway_or_reached (h : Tracks task s) (hopen : s.record.state.terminal = false)
    (hyielded : s.record.replacementId ≠ "") (hcancel : s.record.cancelRequested = true) :
    s.Underway s.record.replacementId ∨ s.Reached s.record.replacementId := by
  obtain ⟨⟨i, b⟩, hp, hid⟩ := h.noted hopen hyielded hcancel
  obtain ⟨hkind, hgraph, -⟩ := h.cancels _ hp hid
  rcases b with _ | _
  · exact .inl ⟨i, hp, hkind, hgraph⟩
  · right
    rw [← hgraph]
    exact h.delivered _ hp rfl hkind

/-! ### Calls on the record -/

/-- The intents that a call writes: a cancellation for a task that has yielded, or such that spare its
identifier. -/
lemma cancels_of_propose {t : Reading} {w : Write} (hop : op.Spares codec task)
    (h : propose codec b op n t (some r) = .ok (.write w reply)) (hi : i ∈ w.intents)
    (hid : i.id = cancelId codec task) : i.kind = .cancelWorkflow ∧
      i.workflowId = w.record.replacementId ∧ w.record.replacementId ≠ "" := by
  rcases (says_of_propose h).2.2 with ⟨tr, rfl, heq⟩ | ⟨scope, rfl, heq⟩ |
    ⟨id, finalize, r', tr, rfl, hfinal, heq⟩ | ⟨-, heq⟩ <;> rw [heq] at hi
  · exact absurd hid (hop i hi)
  · unfold replacementCancellationIntents at hi
    split_ifs at hi with hskip
    · cases hi
    · obtain rfl := mem_singleton.mp hi
      push Not at hskip
      exact ⟨rfl, rfl, hskip.2.1⟩
  · exact absurd hid (hop r' tr hfinal i hi)
  · cases hi

/-- A request to cancel a task that has yielded writes the intent. -/
lemma exists_cancel_of_propose {scope : String} {t : Reading} {w : Write}
    (h : propose codec b (.requestCancel scope) n t (some r) = .ok (.write w reply))
    (hname : w.record.envelope.id = task) (hopen : w.record.state.terminal = false)
    (hyielded : w.record.replacementId ≠ "") (hcancel : w.record.cancelRequested = true) :
    ∃ i ∈ w.intents, i.id = cancelId codec task := by
  have hintents : w.intents = replacementCancellationIntents codec w.record := by
    rcases (says_of_propose h).2.2 with ⟨tr, heq, -⟩ | ⟨-, -, heq⟩ | ⟨_, _, _, _, heq, -⟩ | ⟨hno, -⟩
    · cases heq
    · exact heq
    · cases heq
    · exact absurd rfl (hno scope)
  rw [hintents, replacementCancellationIntents, if_neg (by simp [hcancel, hyielded, hopen])]
  exact ⟨_, mem_singleton.mpr rfl, by rw [← hname]; rfl⟩

lemma Tracks.call (h : Tracks task s) (hop : op.Spares codec task) (n : ℕ) (t t' : Reading) :
    Tracks task (s.call op n t t') := by
  unfold Site.call
  split
  · exact h
  next w x hplan =>
  split
  · next v hverdict =>
    obtain ⟨reply, hpropose⟩ := S.proposed hplan
    have hpropose : propose codec S.backend op n t (some s.record) = .ok (.write w reply) := hpropose
    obtain ⟨lease, hview⟩ := S.stored hverdict
    have hrewrites := (evolves_of_propose hpropose).rewrites h.unleased
    have hopen : w.record.state.terminal = false → s.record.state.terminal = false := by
      intro hopen
      by_contra hended
      rw [(hrewrites.ended (by simpa using hended)).1] at hopen
      exact hended hopen
    have hname : w.record.state.terminal = false → w.record.envelope.id = task := fun hw =>
      (id_of_propose hpropose hw).trans (h.named (hopen hw))
    -- The record that is stored agrees with the proposed one on all that the invariant reads.
    have hstate : (S.view v).state = w.record.state := by rw [hview]
    have hcancelled : (S.view v).cancelRequested = w.record.cancelRequested := by rw [hview]
    have hyield : (S.view v).replacementId = w.record.replacementId := by rw [hview]
    have henvelope : (S.view v).envelope = w.record.envelope := by rw [hview]
    refine
      { unleased := S.unleased hplan hverdict h.unleased
        named := ?_
        nodup := nodup_foldl_stageIntent h.nodup
        cancels := fun p hp hid => ?_
        noted := ?_
        revoked := ?_
        delivered := fun p hp hflag hkind => ?_
        prepared := fun p hp => ?_
        accepted := fun i hi => ?_ }
    · rw [Site.record, hstate, henvelope]
      exact hname
    · rw [Site.record, hyield]
      rcases mem_foldl_stageIntent hp with hp | ⟨hp, -⟩
      · obtain ⟨hkind, hgraph, hyielded⟩ := h.cancels p hp hid
        have hsame := hrewrites.replacementId hyielded
        rw [hsame]
        exact ⟨hkind, hgraph, hyielded⟩
      · exact cancels_of_propose hop hpropose hp hid
    · rw [Site.record, hstate, hyield, hcancelled]
      intro hopen' hyielded hcancel
      rcases hrewrites.canceled hopen' hyielded hcancel with ⟨hyielded', hcancel'⟩ | ⟨scope, rfl⟩
      · obtain ⟨p, hp, hid⟩ := h.noted (hopen hopen') hyielded' hcancel'
        exact ⟨p, subset_foldl_stageIntent hp, hid⟩
      · obtain ⟨i, hi, hid⟩ :=
          exists_cancel_of_propose hpropose (hname hopen') hopen' hyielded hcancel
        obtain ⟨p, hp, hpid⟩ := exists_foldl_stageIntent hi
        exact ⟨p, hp, hpid.trans hid⟩
    · rw [Site.record, hstate, hyield, hcancelled]
      intro hyielded hcancel hterminal
      rcases hbefore : s.record.state.terminal with _ | _
      · exact hrewrites.revoked hbefore hterminal hyielded hcancel
      · obtain ⟨hs, hc, hr⟩ := hrewrites.ended hbefore
        rw [hs]
        exact h.revoked (hr ▸ hyielded) (hc ▸ hcancel) hbefore
    · rcases mem_foldl_stageIntent hp with hp | ⟨-, hfalse⟩
      · exact h.delivered p hp hflag hkind
      · rw [hfalse] at hflag
        cases hflag
    · obtain ⟨hkind, b, hb⟩ := h.prepared p hp
      exact ⟨hkind, b, subset_foldl_stageIntent hb⟩
    · obtain ⟨⟨b, hb⟩, hreached⟩ := h.accepted i hi
      exact ⟨⟨b, subset_foldl_stageIntent hb⟩, hreached⟩
  · exact h

/-! ### What workers and relays hand in -/

section

variable (hids : StableIds codec)

include hids

/-- Identifiers with another label are not that of a cancellation. -/
lemma stableId_ne_cancelId {source label : String} (h : label ≠ "replacement-cancel") :
    codec.stableId source label ≠ cancelId codec task :=
  fun heq => h (hids _ _ _ _ heq).2

lemma dispatchIntent_spares (source task : String) (e : Envelope) :
    (dispatchIntent codec source e).id ≠ cancelId codec task := by
  refine stableId_ne_cancelId hids ?_
  exact label_ne (a := "dispatch-") (b := "replacement-cancel") e.id "" (by decide) (by decide)
    (by decide)

/-- A worker that yields. -/
lemma yieldReplacement_spares (task worker : String) (e : Envelope) (claim : Record) (g : Graph) :
    (Op.transition (yieldReplacement codec worker e claim g)).Spares codec task := by
  intro i hi
  obtain rfl := mem_singleton.mp hi
  exact stableId_ne_cancelId hids (by decide)

lemma linkedIntent_spares {kind : String} {value : RawMessage} {link : Signature} {index : ℕ}
    (task : String) (h : linkedIntent codec c now parent kind value link index = .ok i) :
    i.id ≠ cancelId codec task := by
  unfold linkedIntent at h
  obtain ⟨bound, -, h⟩ := bind_eq_ok.mp h
  obtain ⟨d, -, h⟩ := bind_eq_ok.mp h
  obtain ⟨_, -, h⟩ := bind_eq_ok.mp h
  split at h <;> obtain rfl := Except.ok.inj h
  · exact dispatchIntent_spares hids _ _ _
  · exact dispatchIntent_spares hids _ _ _

/-- A worker that ends a task, and a relay that resolves one. -/
lemma terminalIntents_spares {intents : List Intent} (task : String)
    (h : terminalIntents codec c now parent t = .ok intents) :
    ∀ i ∈ intents, i.id ≠ cancelId codec task := by
  unfold terminalIntents at h
  obtain ⟨linked, hlinked, h⟩ := bind_eq_ok.mp h
  cases h
  intro i hi
  rcases mem_append.mp hi with hi | hi
  · unfold completionIntents at hi
    split_ifs at hi
    · cases hi
    · obtain rfl := mem_singleton.mp hi
      exact stableId_ne_cancelId hids (by decide)
  · unfold linkedIntents at hlinked
    split_ifs at hlinked <;> obtain ⟨p, -, hp⟩ := exists_of_mem_mapM hlinked hi <;>
      exact linkedIntent_spares hids task hp

lemma finalizeReplacement_spares (now : Time) (m : Completion) (graph task : String) :
    (Op.resolveReplacement graph (finalizeReplacement codec c now m)).Spares codec task := by
  intro r t h
  unfold finalizeReplacement at h
  obtain ⟨d, -, h⟩ := bind_eq_ok.mp h
  obtain ⟨intents, hintents, h⟩ := bind_eq_ok.mp h
  cases h
  exact terminalIntents_spares hids task hintents

end

/-- The outcome that a relay asks for when the task is canceled. -/
lemma finalizeReplacement_revoked {m : Completion} (hcancel : r.cancelRequested = true)
    (h : finalizeReplacement codec c now m r = .ok t) : t.state = .revoked := by
  unfold finalizeReplacement at h
  obtain ⟨d, -, h⟩ := bind_eq_ok.mp h
  obtain ⟨intents, -, h⟩ := bind_eq_ok.mp h
  cases h
  show (replacementOutcome d m r).state = .revoked
  unfold replacementOutcome
  rw [if_pos hcancel, if_neg (by simp)]

/-! ### Steps of the relays -/

/-- A step that leaves the record and its outbox alone. -/
lemma Tracks.of_relay (h : Tracks task s) (hvalue : s'.value = s.value)
    (houtbox : s'.outbox = s.outbox) (hreached : ∀ graph, s.Reached graph → s'.Reached graph)
    (hprepared : ∀ p ∈ s'.prepared, p ∈ s.prepared ∨ p.1.kind = .replace ∧ ∃ b, (p.1, b) ∈ s.outbox)
    (haccepted : ∀ i ∈ s'.accepted, i ∈ s.accepted ∨ (∃ b, (i, b) ∈ s.outbox) ∧ (i.kind =
      .cancelWorkflow → s'.Reached i.workflowId)) : Tracks task s' := by
  have hrecord : s'.record = s.record := congrArg S.view hvalue
  refine
    { unleased := hrecord ▸ h.unleased
      named := hrecord ▸ h.named
      nodup := houtbox ▸ h.nodup
      cancels := fun p hp => by
        rw [hrecord]
        exact h.cancels p (houtbox ▸ hp)
      noted := by
        rw [hrecord, houtbox]
        exact h.noted
      revoked := hrecord ▸ h.revoked
      delivered := fun p hp hflag hkind =>
        hreached _ (h.delivered p (houtbox ▸ hp) hflag hkind)
      prepared := fun p hp => ?_
      accepted := fun i hi => ?_ } <;> rw [houtbox]
  · exact (hprepared p hp).elim (h.prepared p) id
  · rcases haccepted i hi with hi | hi
    · exact ⟨(h.accepted i hi).1, fun hkind => hreached _ ((h.accepted i hi).2 hkind)⟩
    · exact hi

/-- A graph that is written stays reached. -/
lemma Site.Reached.update {name : String} (h : s.Reached graph)
    (hgraphs : s'.graphs = Function.update s.graphs name (some w))
    (hw : ∀ w', s.graphs name = some w' → w'.graph.Halted → w.graph.Halted) : s'.Reached graph := by
  obtain ⟨w', hw', hhalted⟩ := h
  by_cases heq : graph = name
  · subst heq
    exact ⟨w, by rw [hgraphs, Function.update_self], hw w' hw' hhalted⟩
  · exact ⟨w', by rw [hgraphs, Function.update_of_ne heq, hw'], hhalted⟩

lemma mem_of_pending {k : ℕ} (h : s.pending k = some i) : (i, false) ∈ s.outbox := by
  unfold Site.pending at h
  split at h
  · next hk =>
    cases h
    exact mem_of_getElem? hk
  · cases h

lemma Tracks.lookUp (h : Tracks task s) (now : Env) (hi : (i, false) ∈ s.outbox)
    (hkind : i.kind = .replace) : Tracks task (s.lookUp c now i) := by
  unfold Site.lookUp
  split
  · refine h.of_relay rfl rfl (fun _ h => h) (fun p hp => ?_) (fun _ hi => .inl hi)
    rcases mem_append.mp hp with hp | hp
    · exact .inl hp
    · obtain rfl := mem_singleton.mp hp
      exact .inr ⟨hkind, false, hi⟩
  · exact h

lemma Tracks.create (h : Tracks task s) {p : Intent × Graph × List Intent} (hp : p ∈ s.prepared) :
    Tracks task (s.create store p.1 p.2) := by
  obtain ⟨hkind, hmem⟩ := h.prepared p hp
  have haccepted : ∀ {s' : Site S}, ∀ i ∈ s.accepted ++ [p.1],
      i ∈ s.accepted ∨ (∃ b, (i, b) ∈ s.outbox) ∧
        (i.kind = .cancelWorkflow → s'.Reached i.workflowId) := by
    intro s' i hi
    rcases mem_append.mp hi with hi | hi
    · exact .inl hi
    · obtain rfl := mem_singleton.mp hi
      refine .inr ⟨hmem, fun hcancel => ?_⟩
      rw [hkind] at hcancel
      cases hcancel
  unfold Site.create
  split
  · next hnone =>
    split
    · refine h.of_relay rfl rfl (fun graph hreached => ?_) (fun _ hp => .inl hp) haccepted
      refine hreached.update rfl fun w' hw' => ?_
      rw [hnone] at hw'
      cases hw'
    · exact h
  · split_ifs
    · exact h.of_relay rfl rfl (fun _ h => h) (fun _ hp => .inl hp) haccepted
    · exact h

lemma Tracks.deliver (h : Tracks task s) (now : Env) (hi : (i, false) ∈ s.outbox) :
    Tracks task (s.deliver c store now i) := by
  have haccepted : ∀ {s' : Site S}, s'.Reached i.workflowId → ∀ j ∈ s.accepted ++ [i],
      j ∈ s.accepted ∨ (∃ b, (j, b) ∈ s.outbox) ∧
        (j.kind = .cancelWorkflow → s'.Reached j.workflowId) := by
    intro s' hreached j hj
    rcases mem_append.mp hj with hj | hj
    · exact .inl hj
    · obtain rfl := mem_singleton.mp hj
      exact .inr ⟨⟨false, hi⟩, fun _ => hreached⟩
  unfold Site.deliver
  split
  · next e w _ hw =>
    split
    · exact h
    · next hcancel =>
      -- There was nothing to do: the graph has ended.
      have hended : w.graph.state.terminal = true := by
        unfold cancelGraph at hcancel
        obtain ⟨_, -, hcancel⟩ := bind_eq_ok.mp hcancel
        split_ifs at hcancel with hended
        · exact hended
        · obtain ⟨_, -, hcancel⟩ := bind_eq_ok.mp hcancel
          obtain ⟨_, -, hcancel⟩ := bind_eq_ok.mp hcancel
          cases hcancel
      exact h.of_relay rfl rfl (fun _ h => h) (fun _ hp => .inl hp)
        (haccepted ⟨w, hw, .inr hended⟩)
    · next r hcancel =>
      have hcall : flowCall codec c store now w.graph (.cancelGraph e.scope) = .ok (some r) := hcancel
      have hhalted : (w.write r).graph.Halted := Graph.Halted.write (.inr ⟨_, rfl⟩) hcall
      refine h.of_relay rfl rfl (fun graph hreached => ?_) (fun _ hp => .inl hp)
        (haccepted ⟨w.write r, Function.update_self _ _ _, hhalted⟩)
      exact hreached.update rfl fun _ _ _ => hhalted
  · exact h

lemma Tracks.flow (h : Tracks task s) (hw : s.graphs graph = some w) (call : FlowOp × Env) :
    Tracks task { s with
      graphs := Function.update s.graphs graph (some (flowStep codec c store w call)) } := by
  refine h.of_relay rfl rfl (fun graph hreached => ?_) (fun _ hp => .inl hp) (fun _ hi => .inl hi)
  refine hreached.update rfl fun w' hw' hhalted => ?_
  obtain rfl := Option.some.inj (hw.symm.trans hw')
  exact hhalted.flowStep call

/-- An acknowledgement marks the intent that was accepted and no other. -/
lemma Tracks.acknowledge (h : Tracks task s) (hi : i ∈ s.accepted) :
    Tracks task (s.acknowledge i) := by
  obtain ⟨⟨b, hb⟩, hreached⟩ := h.accepted i hi
  have hids : (s.acknowledge i).outbox.map (fun p => p.1.id) = s.outbox.map fun p => p.1.id := by
    simp only [Site.acknowledge, List.map_map]
    refine map_congr_left fun p _ => ?_
    simp only [Function.comp]
    split_ifs <;> rfl
  have hold : ∀ p ∈ (s.acknowledge i).outbox, ∃ b, (p.1, b) ∈ s.outbox ∧ (p.2 = b ∨ p.1 = i) := by
    intro p hp
    obtain ⟨q, hq, rfl⟩ := mem_map.mp hp
    split_ifs with hid
    · have hsame : q = (i, b) := inj_on_of_nodup_map h.nodup hq hb hid
      exact ⟨q.2, hq, .inr (by rw [hsame])⟩
    · exact ⟨q.2, hq, .inl rfl⟩
  have hnew : ∀ {j : Intent}, (∃ b, (j, b) ∈ s.outbox) → ∃ b, (j, b) ∈ (s.acknowledge i).outbox := by
    rintro j ⟨b, hb⟩
    have hmap := mem_map_of_mem (f := fun p : Intent × Bool =>
      if p.1.id = i.id then (p.1, true) else p) hb
    simp only at hmap
    split_ifs at hmap
    · exact ⟨true, hmap⟩
    · exact ⟨b, hmap⟩
  exact
    { unleased := h.unleased
      named := h.named
      nodup := hids ▸ h.nodup
      cancels := fun p hp hid => by
        obtain ⟨b, hb, -⟩ := hold p hp
        exact h.cancels (p.1, b) hb hid
      noted := fun hopen hyielded hcancel => by
        obtain ⟨p, hp, hid⟩ := h.noted hopen hyielded hcancel
        obtain ⟨b, hb⟩ := hnew ⟨p.2, hp⟩
        exact ⟨_, hb, hid⟩
      revoked := h.revoked
      delivered := fun p hp hflag hkind => by
        obtain ⟨b, hb, heq | heq⟩ := hold p hp
        · exact h.delivered (p.1, b) hb (heq ▸ hflag) hkind
        · rw [heq] at hkind ⊢
          exact hreached hkind
      prepared := fun p hp => ⟨(h.prepared p hp).1, hnew (h.prepared p hp).2⟩
      accepted := fun j hj => ⟨hnew (h.accepted j hj).1, (h.accepted j hj).2⟩ }

/-- **Every step keeps what holds between the stores.** -/
theorem Tracks.step (hids : StableIds codec) {task : String} {s : Site S} (h : Tracks task s)
    {event : SiteEvent} (hevent : event.Spares codec task) :
    Tracks task (siteStep c store s event) := by
  cases event with
  | call op n t t' => exact h.call hevent n t t'
  | lookUp k now =>
    simp only [siteStep]
    split
    · next i hi =>
      split_ifs with hkind
      · exact h.lookUp now (mem_of_pending hi) hkind
      · exact h
    · exact h
  | create k =>
    simp only [siteStep]
    split
    · next hk => exact h.create (mem_of_getElem? hk)
    · exact h
  | deliver k now =>
    simp only [siteStep]
    split
    · next i hi =>
      split_ifs
      · exact h.deliver now (mem_of_pending hi)
      · exact h
    · exact h
  | complete graph k now n t t' =>
    simp only [siteStep]
    split
    · split_ifs
      · unfold Site.complete
        split
        · split_ifs
          · exact h.call (finalizeReplacement_spares hids _ _ _ _) n t t'
          · exact h
        · exact h
      · exact h
    · exact h
  | flow graph op now =>
    simp only [siteStep]
    split
    · next w hw => exact h.flow hw (op, now)
    · exact h
  | acknowledge k =>
    simp only [siteStep]
    split
    · next i hi => exact h.acknowledge (mem_of_getElem? hi)
    · exact h

/-- A task that has not yielded, with nothing under way. -/
structure Site.Fresh (task : String) (s : Site S) : Prop where
  named : s.record.envelope.id = task
  unyielded : s.record.replacementId = ""
  outbox : s.outbox = []
  prepared : s.prepared = []
  accepted : s.accepted = []

lemma Site.Fresh.tracks (h : s.Fresh task) : Tracks task s where
  unleased r hr hyielded := by
    cases hr
    exact absurd h.unyielded hyielded
  named _ := h.named
  nodup := by simp [h.outbox]
  cancels p hp := by simp [h.outbox] at hp
  noted _ hyielded := absurd h.unyielded hyielded
  revoked hyielded := absurd h.unyielded hyielded
  delivered p hp := by simp [h.outbox] at hp
  prepared p hp := by simp [h.prepared] at hp
  accepted i hi := by simp [h.accepted] at hi

/-- **A cancellation is never lost across a yield.** Over either store of records, from a task that
has not yielded, after any steps of workers, callers and relays: while the task is yielded and
canceled, an intent that cancels its replacement is not delivered yet, or the replacement exists and
is canceled or has ended; a relay that resolves it asks for `REVOKED`; and once it is resolved, it is
`REVOKED`. -/
theorem cancellation_survives_yield (hids : StableIds codec) {task : String} {s : Site S}
    (hfresh : s.Fresh task) {events : List SiteEvent}
    (hevents : ∀ event ∈ events, event.Spares codec task) :
    let s' := events.foldl (siteStep c store) s
    (s'.record.state.terminal = false → s'.record.replacementId ≠ "" →
      s'.record.cancelRequested = true →
      (s'.Underway s'.record.replacementId ∨ s'.Reached s'.record.replacementId) ∧
        ∀ now m t, finalizeReplacement codec c now m s'.record = .ok t → t.state = .revoked) ∧
    (s'.record.replacementId ≠ "" → s'.record.cancelRequested = true →
      s'.record.state.terminal = true → s'.record.state = .revoked) := by
  have htracks : Tracks task (events.foldl (siteStep c store) s) := by
    have hstart := hfresh.tracks
    clear hfresh
    induction events generalizing s with
    | nil => exact hstart
    | cons event rest ih =>
      exact ih (fun e he => hevents e (mem_cons_of_mem _ he))
        (hstart.step hids (hevents event mem_cons_self))
  refine ⟨fun hopen hyielded hcancel => ⟨?_, ?_⟩, htracks.revoked⟩
  · exact htracks.underway_or_reached hopen hyielded hcancel
  · intro now m t h
    exact finalizeReplacement_revoked hcancel h

end Tracks

/-! ## A cancellation between the look-up and the creation -/

/-- A task that a worker has claimed. -/
def sampleOriginal : Record where
  envelope :=
    { protocolVersion := protocolVersion
      id := "f0000000-0000-4000-8000-000000000009"
      task := "job"
      version := 1
      args := some .null
      createdAt := 1
      queue := "default" }
  digest := "digest"
  state := .running
  fence := 1
  owner := "worker"
  leaseUntil := 10
  revision := 2

/-- The graph that the worker yields to. -/
def sampleReplacement : Graph :=
  { (sampleStart (fun _ => some 4) { kind := .task, signatures := [sampleJob] }).graph with
    originTaskId := sampleOriginal.envelope.id
    originDigest := "digest" }

/-- The relay looks the task up before it is canceled and creates the graph afterwards. -/
def sampleEvents : List SiteEvent :=
  [.call (.transition (yieldReplacement (sampleCodec fun _ => some 4) "worker"
      sampleOriginal.envelope sampleOriginal sampleReplacement)) 0 ⟨1, 1, none⟩ ⟨1, 1, none⟩,
    .lookUp 0 sampleEnv,
    .call (.requestCancel "") 0 ⟨2, 2, none⟩ ⟨2, 2, none⟩,
    .create 0,
    .deliver 1 sampleEnv,
    .acknowledge 1]

/-- The graph is created without the cancellation, which the intent delivers to it. -/
theorem late_creation_is_canceled :
    let s := sampleEvents.foldl (siteStep sampleClient .memory)
      (⟨sampleOriginal, [], fun _ => none, [], []⟩ : Site (memoryStore (sampleCodec fun _ => some 4)))
    s.record.state.terminal = false ∧ s.record.replacementId = sampleRoot ∧
      s.record.cancelRequested = true ∧ s.outbox.map Prod.snd = [false, true] ∧
      s.prepared.map (fun p => p.2.1.cancelRequested) = [false] ∧
      (s.Underway sampleRoot ∨ s.Reached sampleRoot) := by
  have hevents : ∀ event ∈ sampleEvents,
      event.Spares (sampleCodec fun _ => some 4) sampleOriginal.envelope.id := by
    have hids := sampleCodec_stableIds fun _ => some 4
    simp only [sampleEvents, forall_mem_cons]
    exact ⟨yieldReplacement_spares hids _ _ _ _ _, trivial, trivial, trivial, trivial, trivial,
      by simp⟩
  have h := (@cancellation_survives_yield _ sampleClient _ .memory
    (sampleCodec_stableIds fun _ => some 4) sampleOriginal.envelope.id
    (⟨sampleOriginal, [], fun _ => none, [], []⟩ : Site (memoryStore (sampleCodec fun _ => some 4)))
    ⟨rfl, rfl, rfl, rfl, rfl⟩ sampleEvents hevents).1
  intro s
  have hopen : s.record.state.terminal = false := by decide +kernel
  have hyielded : s.record.replacementId = sampleRoot := by decide +kernel
  have hcancel : s.record.cancelRequested = true := by decide +kernel
  have hroot : s.record.replacementId ≠ "" := by
    rw [hyielded]
    decide
  refine ⟨hopen, hyielded, hcancel, by decide +kernel, by decide +kernel, ?_⟩
  rw [← hyielded]
  exact (h hopen hroot hcancel).1

end Gogo.Async

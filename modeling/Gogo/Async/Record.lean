import Gogo.Async.Protocol

/-!
# The state machine of a task record

`async/state.go`: what a store writes when a task is registered, claimed, finished, retried or
handed to a replacement workflow. The functions are pure; a store applies them to the record it
holds and keeps the result atomically.

* `initialRecord`, `claimRecord`, `validateLease` — registration and leases.
* `applyTransition`, `applyOutcome`, `applyReplacementOutcome` — the end of an attempt.
* For each of them, one lemma that says what its success implies about the record before it and
  which fields it changes.
-/

namespace Gogo.Async

open Gogo.Lib

variable (codec : Codec)

/-! ## The functions of the source -/

/-- Source: `state.go` `InitialRecord`. -/
def initialRecord (e : Envelope) (state : State) : Except Err Record := do
  e.validate codec
  if state ≠ .queued ∧ state ≠ .scheduled then .error .invalid
  else
    .ok
      { envelope := e.clone
        digest := e.digest codec
        state := state
        revision := 1
        pinned := e.workflowId ≠ ""
        replayUntil := later e.eta e.expiresAt }

/-- The record of an acquired claim. -/
def Record.acquire (r : Record) (owner : String) (leaseUntil : Time) : Record :=
  { r.clone with
    state := .running
    owner := owner
    fence := r.fence + 1
    revision := r.revision + 1
    deliveryCount := r.deliveryCount + 1
    leaseUntil := leaseUntil }

/-- Source: `state.go` `ClaimRecord`. -/
def claimRecord (r : Record) (e : Envelope) (owner : String) (now : Time) (lease : Duration) :
    Except Err Claim :=
  if owner = "" ∨ lease ≤ 0 then .error .invalid
  else if r.digest ≠ e.digest codec then .error .conflict
  else if r.state.terminal ∨ r.replacementId ≠ "" ∨ e.retries < r.envelope.retries then
    .ok { record := r, duplicate := true }
  else if r.envelope.retries < e.retries then .error .conflict
  else if r.state = .running ∧ now < r.leaseUntil then .ok { record := r }
  else if now < r.envelope.eta ∧ !r.cancelRequested then .ok { record := r }
  else if r.fence = maxUint64 ∨ r.revision = maxUint64 then .error .unavailable
  else .ok { record := r.acquire owner (Time.add now lease), acquired := true }

/-- Source: `state.go` `ValidateLease`. -/
def validateLease (r : Record) (fence : ℕ) (owner : String) (now : Time) : Except Err Unit :=
  if r.state ≠ .running ∨ r.fence ≠ fence ∨ r.owner ≠ owner ∨ ¬ now < r.leaseUntil then
    .error .leaseLost
  else .ok ()

/-- The checks that `ApplyTransition` makes of the intent that starts a replacement. -/
def validYield (r : Record) (t : Transition) (intent : Intent) (graph : Graph) : Bool :=
  t.id == r.envelope.id && t.state == .running && intent.kind == .replace &&
    graph.id == t.replacementId && graph.originTaskId == t.id &&
    graph.originDigest == r.digest && t.output.isNone && t.next.isNone && t.failure.isNone &&
  (idPattern t.replacementId && graph.scope == r.envelope.scope && graph.state == .running &&
    graph.revision == 1 && graph.kind == .dag && graph.rootNode != "" &&
    graph.members.entries.isEmpty && intent.sourceId == t.id &&
    intent.workflowId == t.replacementId)

/-- The record of a task that has yielded to a replacement. -/
def Record.yield (r : Record) (t : Transition) (graph : Graph) : Record :=
  { r.clone with
    replacementId := t.replacementId
    replayUntil :=
      graph.children.foldl (fun until' child => later until' (later child.eta child.expiresAt))
        r.replayUntil
    revision := r.revision + 1
    owner := ""
    leaseUntil := 0 }

/-- The branch of `ApplyTransition` that yields to a replacement. -/
def applyYield (r : Record) (t : Transition) : Except Err Record :=
  match t.intents with
  | [intent] =>
    match intent.graph with
    | some graph =>
      if !validYield r t intent graph then .error .invalid
      else if r.cancelRequested then .error .canceled
      else .ok (r.yield t graph)
    | none => .error .invalid
  | _ => .error .invalid

/-- The checks that `applyOutcome` makes of the envelope of a retry. -/
def validRetry (r : Record) (t : Transition) : Except Err Unit :=
  match t.next with
  | none => .error .invalid
  | some next =>
    if next.id ≠ r.envelope.id ∨ next.retries ≠ r.envelope.retries + 1 ∨
        next.digest codec ≠ r.digest ∨ t.intents = [] then .error .invalid
    else next.validate codec

/-- The record after an attempt has ended. -/
def Record.finish (r : Record) (t : Transition) (now : Time) (resultTTL tombstoneTTL : Duration) :
    Record :=
  let envelope := match t.next with
    | some next => next.clone
    | none => r.envelope.clone
  let replayUntil := match t.next with
    | some next => later r.replayUntil (later next.eta next.expiresAt)
    | none => r.replayUntil
  { r with
    envelope := envelope
    state := t.state
    revision := r.revision + 1
    output := t.output
    failure := t.failure
    owner := ""
    leaseUntil := 0
    replayUntil := replayUntil
    finishedAt := if t.state.terminal then now else r.finishedAt
    payloadExpiresAt := if t.state.terminal then Time.add now resultTTL else r.payloadExpiresAt
    tombstoneUntil :=
      if t.state.terminal then Time.add (later now replayUntil) tombstoneTTL
      else r.tombstoneUntil }

/-- Source: `state.go` `applyOutcome`. -/
def applyOutcome (r : Record) (t : Transition) (now : Time) (resultTTL tombstoneTTL : Duration) :
    Except Err Record :=
  if r.revision = maxUint64 then .error .unavailable
  else if t.id ≠ r.envelope.id ∨ (!t.state.terminal ∧ t.state ≠ .retryWait) then .error .invalid
  else if maxPayloadBytes < codec.length t.output then .error .invalid
  else if t.state = .succeeded ∧ t.output.isNone then .error .invalid
  else do
    if t.state = .retryWait then validRetry codec r t
    .ok (r.finish t now resultTTL tombstoneTTL)

/-- Source: `state.go` `ApplyTransition`. -/
def applyTransition (r : Record) (t : Transition) (now : Time)
    (resultTTL tombstoneTTL : Duration) : Except Err Record := do
  validateLease r t.fence t.owner now
  if r.revision = maxUint64 then .error .unavailable
  else if t.replacementId ≠ "" then applyYield r t
  else applyOutcome codec r t now resultTTL tombstoneTTL

/-- Source: `state.go` `ApplyReplacementOutcome`. -/
def applyReplacementOutcome (r : Record) (workflowId : String) (t : Transition) (now : Time)
    (resultTTL tombstoneTTL : Duration) : Except Err Record :=
  if r.replacementId = "" ∨ r.replacementId ≠ workflowId ∨ r.state ≠ .running ∨ r.owner ≠ "" ∨
      r.leaseUntil ≠ 0 then .error .conflict
  else if !t.state.terminal ∨ t.next.isSome ∨ t.replacementId ≠ "" ∨
      (r.cancelRequested ∧ t.state ≠ .revoked) then .error .invalid
  else applyOutcome codec r t now resultTTL tombstoneTTL

/-- Source: `replacement.go` `ReplacementCancellationIntents`. -/
def replacementCancellationIntents (r : Record) : List Intent :=
  if !r.cancelRequested ∨ r.replacementId = "" ∨ r.state.terminal then []
  else
    [{ id := codec.stableId r.envelope.id "replacement-cancel"
       sourceId := r.envelope.id
       kind := .cancelWorkflow
       workflowId := r.replacementId
       envelope := some r.envelope }]

/-! ## What a success implies -/

variable {codec}

variable {e : Envelope} {r r' : Record} {owner : String} {now : Time} {t : Transition}
  {resultTTL tombstoneTTL : Duration}

/-- A registered record has no owner and no fence yet. -/
lemma initialRecord_eq_ok {state : State} (h : initialRecord codec e state = .ok r) :
    (r.state = .queued ∨ r.state = .scheduled) ∧ r.fence = 0 ∧ r.revision = 1 ∧
      r.replacementId = "" := by
  unfold initialRecord at h
  obtain ⟨_, _, h⟩ := bind_eq_ok.mp h
  split_ifs at h with hstate
  cases h
  refine ⟨?_, rfl, rfl, rfl⟩
  by_cases hq : state = .queued
  · exact .inl hq
  · exact .inr (by_contra fun hs => hstate ⟨hq, hs⟩)

/-- What an acquired claim says of the record it was made on. -/
structure Acquires (r : Record) (owner : String) (lease : Duration) (now : Time) (c : Claim) :
    Prop where
  record : c.record = r.acquire owner (Time.add now lease)
  open' : r.state.terminal = false
  unyielded : r.replacementId = ""
  fence : r.fence ≠ maxUint64
  revision : r.revision ≠ maxUint64

lemma acquires_of_claimRecord {lease : Duration} {c : Claim}
    (h : claimRecord codec r e owner now lease = .ok c) (hacq : c.acquired = true) :
    Acquires r owner lease now c := by
  unfold claimRecord at h
  split_ifs at h with _ _ hdup _ _ _ hmax
  · cases h
    cases hacq
  · cases h
    cases hacq
  · cases h
    cases hacq
  · cases h
    push Not at hdup hmax
    exact ⟨rfl, by simpa using hdup.1, hdup.2.1, hmax.1, hmax.2⟩

/-- A lease that an operation may act under. -/
structure Leased (r : Record) (fence : ℕ) (owner : String) (now : Time) : Prop where
  running : r.state = .running
  fence : r.fence = fence
  owner : r.owner = owner
  live : now < r.leaseUntil

lemma validateLease_eq_ok {fence : ℕ} {u : Unit} :
    validateLease r fence owner now = .ok u ↔ Leased r fence owner now := by
  unfold validateLease
  split_ifs with h
  · refine iff_of_false (fun h' => by cases h') fun hl => ?_
    rcases h with h | h | h | h
    · exact h hl.running
    · exact h hl.fence
    · exact h hl.owner
    · exact h hl.live
  · push Not at h
    exact iff_of_true rfl ⟨h.1, h.2.1, h.2.2.1, h.2.2.2⟩

/-- What the end of an attempt says of the record before it. -/
structure Finishes (r : Record) (t : Transition) (r' : Record) : Prop where
  revision : r.revision ≠ maxUint64
  outcome : t.state.terminal = true ∨ t.state = .retryWait
  state : r'.state = t.state
  failure : r'.failure = t.failure
  fence : r'.fence = r.fence
  owner : r'.owner = ""
  leaseUntil : r'.leaseUntil = 0
  next : r'.revision = r.revision + 1
  replacementId : r'.replacementId = r.replacementId
  cancelRequested : r'.cancelRequested = r.cancelRequested

lemma finishes_of_applyOutcome (h : applyOutcome codec r t now resultTTL tombstoneTTL = .ok r') :
    Finishes r t r' := by
  unfold applyOutcome at h
  split_ifs at h with hrev hstate _ _ hretry
  · obtain ⟨_, _, h⟩ := bind_eq_ok.mp h
    cases h
    exact ⟨hrev, .inr hretry, rfl, rfl, rfl, rfl, rfl, rfl, rfl, rfl⟩
  · cases h
    refine ⟨hrev, ?_, rfl, rfl, rfl, rfl, rfl, rfl, rfl, rfl⟩
    by_contra hout
    push Not at hout
    exact hstate (.inr ⟨by simpa using hout.1, hout.2⟩)

/-- A task yields with the one intent that starts its replacement. -/
lemma applyYield_eq_ok (h : applyYield r t = .ok r') :
    ∃ intent graph, t.intents = [intent] ∧ intent.graph = some graph ∧
      validYield r t intent graph = true ∧ r.cancelRequested = false ∧ r' = r.yield t graph := by
  unfold applyYield at h
  split at h
  · next intent hintents =>
    split at h
    · next graph hgraph =>
      split_ifs at h with hvalid hcancel
      refine ⟨intent, graph, hintents, hgraph, by simpa using hvalid, by simpa using hcancel, ?_⟩
      exact (Except.ok.inj h).symm
    · cases h
  · cases h

/-- A transition is made under a live lease; it yields to a replacement or ends the attempt. -/
lemma applyTransition_eq_ok (h : applyTransition codec r t now resultTTL tombstoneTTL = .ok r') :
    Leased r t.fence t.owner now ∧
      ((t.replacementId ≠ "" ∧ r.revision ≠ maxUint64 ∧ applyYield r t = .ok r') ∨
        (t.replacementId = "" ∧ Finishes r t r')) := by
  unfold applyTransition at h
  obtain ⟨_, hlease, h⟩ := bind_eq_ok.mp h
  refine ⟨validateLease_eq_ok.mp hlease, ?_⟩
  split_ifs at h with hrev hrepl
  · exact .inl ⟨hrepl, hrev, h⟩
  · exact .inr ⟨by simpa using hrepl, finishes_of_applyOutcome h⟩

/-- What the outcome of a replacement says of the record before it. -/
structure Resolves (r : Record) (workflowId : String) (t : Transition) (r' : Record) :
    Prop extends Finishes r t r' where
  yielded : r.replacementId = workflowId
  named : r.replacementId ≠ ""
  running : r.state = .running
  terminal : t.state.terminal = true
  revoked : r.cancelRequested = true → t.state = .revoked

lemma resolves_of_applyReplacementOutcome {workflowId : String}
    (h : applyReplacementOutcome codec r workflowId t now resultTTL tombstoneTTL = .ok r') :
    Resolves r workflowId t r' := by
  unfold applyReplacementOutcome at h
  split_ifs at h with hrecord htransition
  push Not at hrecord htransition
  obtain ⟨hnamed, hyielded, hrunning, _, _⟩ := hrecord
  obtain ⟨hterminal, _, _, hrevoked⟩ := htransition
  exact
    { finishes_of_applyOutcome h with
      yielded := hyielded
      named := hnamed
      running := hrunning
      terminal := by simpa using hterminal
      revoked := hrevoked }

end Gogo.Async

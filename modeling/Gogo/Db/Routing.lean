import Gogo.Lib.FinMap
import Gogo.Lib.Run

/-!
# Database routing

A router chooses a primary or a replica for each operation. Within a request it remembers which
primaries were written to and which family serves which model; routed transactions leave a
witness in the context that every later use is checked against.

* `Topology`, `newRouter` — the registered databases: a replica names a primary.
* `Ctx`, `State` — contexts as they are passed around, and what the router keeps.
* `ambient`, `operation`, `choose` — the checks at each use and at `Resolve`.
* `step` — one call, of any of the entry points, in any order. The rules decide what they
  like: their choice is part of the event, other calls may happen while they run, and a
  refusal of theirs is a resolution that is not completed.
-/

namespace Gogo.Db.Routing

open Gogo.Lib

/-! ## Databases -/

/-- Source: `routerSource`; its backend is known by its name. -/
structure Source where
  name : String
  primary : String
deriving DecidableEq

/-- A source is a primary or a replica. -/
def Source.IsPrimary (s : Source) : Prop := s.name = s.primary

instance (s : Source) : Decidable s.IsPrimary := inferInstanceAs (Decidable (_ = _))

/-- Source: `RoutedDatabase`, with the name its backend has. -/
structure RoutedDatabase where
  name : String
  primary : String
  backend : String

/-- Source: `RouterConfig`; the rules are counted only. -/
structure RouterConfig where
  databases : List RoutedDatabase
  defaultName : String
  enableReplicas : Bool
  rules : ℕ

/-- Source: the source of a declaration; without a primary it is one. -/
def RoutedDatabase.source (d : RoutedDatabase) : Source :=
  ⟨d.name, if d.primary = "" then d.name else d.primary⟩

/-- Source: `routerState`, with what `NewRouter` has checked. -/
structure Topology where
  sources : String → Option Source
  defaultName : String
  replicas : Bool
  /-- A source is registered under its name. -/
  named : ∀ name s, sources name = some s → s.name = name
  /-- A source names a registered primary. -/
  rooted : ∀ name s, sources name = some s →
    ∃ p, sources s.primary = some p ∧ p.IsPrimary

/-- The names that are looked at: `routingName` and `routingModel`. -/
structure Names where
  name : String → Bool
  model : String → Bool

/-- The source registered under a name. -/
def RouterConfig.find (config : RouterConfig) (name : String) : Option Source :=
  (config.databases.find? fun d => d.name = name).map RoutedDatabase.source

/-- A name is that of a registered primary. -/
def RouterConfig.HasPrimary (config : RouterConfig) (name : String) : Prop :=
  ∃ p ∈ config.find name, p.IsPrimary

/-- Source: the checks of `NewRouter`. -/
def RouterConfig.Accepted (names : Names) (config : RouterConfig) : Prop :=
  1 ≤ config.databases.length ∧ config.databases.length ≤ 64 ∧ config.rules ≤ 16 ∧
  names.name config.defaultName = true ∧ (config.databases.map RoutedDatabase.name).Nodup ∧
  (∀ d ∈ config.databases, names.name d.name = true ∧ names.name d.source.primary = true ∧
    config.HasPrimary d.source.primary ∧ d.backend = d.name) ∧
  config.HasPrimary config.defaultName

instance (config : RouterConfig) (name : String) : Decidable (config.HasPrimary name) := by
  unfold RouterConfig.HasPrimary
  infer_instance

instance (names : Names) (config : RouterConfig) : Decidable (config.Accepted names) := by
  unfold RouterConfig.Accepted
  infer_instance

lemma RouterConfig.find_name {config : RouterConfig} {name : String} {s : Source}
    (h : config.find name = some s) : s.name = name ∧
      ∃ d ∈ config.databases, s = d.source := by
  obtain ⟨d, hd, rfl⟩ := Option.map_eq_some_iff.mp h
  refine ⟨?_, d, List.mem_of_find?_eq_some hd, rfl⟩
  have hname : d.name = name := by simpa using List.find?_some hd
  exact hname

/-- Source: `NewRouter`. -/
def newRouter (names : Names) (config : RouterConfig) : Option Topology :=
  if h : config.Accepted names then
    some {
      sources := config.find
      defaultName := config.defaultName
      replicas := config.enableReplicas
      named := fun _ _ hfind => (RouterConfig.find_name hfind).1
      rooted := by
        intro name s hfind
        obtain ⟨-, d, hd, rfl⟩ := RouterConfig.find_name hfind
        obtain ⟨-, -, -, -, -, hall, -⟩ := h
        obtain ⟨p, hp, hprimary⟩ := (hall d hd).2.2.1
        exact ⟨p, hp, hprimary⟩ }
  else none

/-! ## Contexts and state -/

/-- Source: `RouteOperation`. -/
inductive Operation
  | read
  | write
  | transaction
deriving DecidableEq

/-- Source: `RouteRequest`. -/
structure Request where
  model : String
  name : String
  operation : Operation
  primaryRequired : Bool

/-- Source: `transactionContext`, by its identity, its alias and its transaction. -/
structure TxFrame where
  id : ℕ
  name : String
  tx : ℕ
deriving DecidableEq

/-- Source: `routingTransactionWitness`: its identity, whether it is of this router, the source
and the transaction it was issued for. -/
structure Witness where
  id : ℕ
  own : Bool
  source : Source
  transaction : ℕ
deriving DecidableEq

/-- What the router sees of a context: the consistency of this router and the chains of
transactions and witnesses, innermost first. -/
structure Ctx where
  consistency : Option ℕ
  transactions : List TxFrame
  witnesses : List Witness
deriving DecidableEq

/-- Source: `routingConsistency`. -/
structure Pins where
  families : FinMap String String
  dirty : List String

/-- Source: `routeBackend`: what a resolution has selected. -/
structure Binding where
  source : Source
  request : Request
  consistency : Option ℕ

/-- Where a statement runs. -/
inductive Executor
  | backend (name : String)
  | transaction (tx : ℕ)
deriving DecidableEq

/-- An admitted use of a binding: its context, source and model, whether it counts as a write,
and where its statement runs, if it has one. -/
structure Admission where
  ctx : Ctx
  source : Source
  model : String
  write : Bool
  executor : Option Executor

/-- What happened: an admission, or the end of the block of a witness. -/
inductive Entry
  | admitted (a : Admission)
  | ended (witness : ℕ)

/-- The state of a router and of the contexts around. A resolution that was begun waits with its
context until it is admitted. -/
structure State where
  pins : List Pins
  contexts : List Ctx
  resolving : List (Binding × Ctx)
  bindings : List Binding
  ended : List ℕ
  next : ℕ
  log : List Entry

/-- Source: the reasons of `routingFailure`. -/
inductive Reason
  | request
  | selection
  | replicaDisabled
  | primaryRequired
  | primaryTransactionRequired
  | transactionMismatch
  | unmanagedTransaction
  | expiredTransaction
  | contextChanged
  | modelFamilyChanged
  | modelLimit
  | writeBindingRequired
  | transactionConfiguration
deriving DecidableEq

/-! ## Checks -/

/-- Source: the loop of `ambient` over the two chains. -/
def witnessed (ended : List ℕ) (first : Witness) : List TxFrame → List Witness → Except Reason Unit
  | [], [] => .ok ()
  | [], _ :: _ => .error .expiredTransaction
  | _ :: _, [] => .error .unmanagedTransaction
  | t :: ts, w :: ws =>
    if w.id ∈ ended ∨ w.own = false ∨ w.transaction ≠ t.id ∨ t.name ≠ w.source.name ∨
      first.source ≠ w.source then .error .unmanagedTransaction
    else witnessed ended first ts ws

/-- Source: `ambient`. -/
def ambient (ended : List ℕ) (ctx : Ctx) : Except Reason (Option Witness) :=
  match ctx.witnesses, ctx.transactions with
  | [], [] => .ok none
  | [], _ :: _ => .error .unmanagedTransaction
  | w :: ws, ts => do
    witnessed ended w ts (w :: ws)
    pure (some w)

/-- Source: the pin of a model to a family in `operation`. -/
def Pins.family (pins : Pins) (source : Source) (model : String) :
    Except Reason (FinMap String String) :=
  if model = "" then .ok pins.families
  else
    match pins.families.get? model with
    | some primary =>
      if primary ≠ source.primary then .error .modelFamilyChanged else .ok pins.families
    | none =>
      if 1024 ≤ pins.families.keys.length then .error .modelLimit
      else .ok (pins.families.set model source.primary)

/-- Source: the end of `operation`, under the lock. -/
def Pins.admitRequest (pins : Pins) (source : Source) (model : String) (write : Bool) :
    Except Reason Pins := do
  refuseIf (¬ source.IsPrimary ∧ source.primary ∈ pins.dirty) .primaryRequired
  let families ← pins.family source model
  pure ⟨families, if write then source.primary :: pins.dirty else pins.dirty⟩

/-- Source: `operation`: the pins afterwards and the witness of the context. -/
def operation (s : State) (b : Binding) (ctx : Ctx) (write : Bool) :
    Except Reason (List Pins × Option Witness) := do
  refuseIf (ctx.consistency ≠ b.consistency) .contextChanged
  let witness ← ambient s.ended ctx
  refuseIf (∃ w ∈ witness, w.source ≠ b.source) .transactionMismatch
  refuseIf (write = true ∧ ¬ b.source.IsPrimary) .primaryRequired
  match b.consistency with
  | none => pure (s.pins, witness)
  | some c =>
    match s.pins[c]? with
    | none => .error .contextChanged
    | some pins => do
      let pins ← pins.admitRequest b.source b.request.model write
      pure (s.pins.set c pins, witness)

/-- The primary was written to in a consistency context. -/
def State.isDirty (s : State) (consistency : Option ℕ) (primary : String) : Bool :=
  match consistency.bind fun c => s.pins[c]? with
  | none => false
  | some pins => primary ∈ pins.dirty

/-- Source: the choice between a replica and its primary in `Resolve`. -/
def Topology.redirect (t : Topology) (source : Source) (required explicit : Bool) :
    Except Reason Source :=
  if source.IsPrimary then .ok source
  else if t.replicas = false then .error .replicaDisabled
  else if required then
    if explicit then .error .primaryRequired
    else
      match t.sources source.primary with
      | none => .error .selection
      | some primary => .ok primary
  else .ok source

/-- Source: `Resolve` up to the rules' `Allow`: `selected` is what the rules select. -/
def choose (names : Names) (t : Topology) (s : State) (ctx : Ctx) (request : Request)
    (selected : String) : Except Reason Binding := do
  refuseIf ((request.operation ≠ .transaction ∧ names.model request.model = false) ∨
    (request.operation = .transaction ∧ request.model ≠ "") ∨
    (request.name ≠ "" ∧ names.name request.name = false)) .request
  let witness ← ambient s.ended ctx
  let name := if request.name ≠ "" then request.name
    else match witness with
      | some w => w.source.name
      | none => if selected ≠ "" then selected else t.defaultName
  refuseIf (names.name name = false) .selection
  match t.sources name with
  | none => .error .selection
  | some source => do
    let required := request.primaryRequired || request.operation ≠ .read ||
      ctx.consistency.isNone || witness.isSome || s.isDirty ctx.consistency source.primary
    let source ← t.redirect source required (request.name ≠ "")
    refuseIf (∃ w ∈ witness, w.source ≠ source) .transactionMismatch
    pure ⟨source, { request with primaryRequired := required }, ctx.consistency⟩

/-! ## Calls -/

/-- A call: `WithConsistency`, the two halves of `Resolve` with what the rules select, the uses of
a binding, the opening and the end of a routed block, and a block of plain `Atomic` or of another
router around later calls. Bindings and resolutions are known by their number. -/
inductive Event
  | withConsistency (ctx : Ctx)
  | choose (ctx : Ctx) (request : Request) (selected : String)
  | admitResolution (resolution : ℕ)
  | bind (resolution : ℕ)
  | query (binding : ℕ) (ctx : Ctx)
  | exec (binding : ℕ) (ctx : Ctx)
  | beforeWrite (binding : ℕ) (ctx : Ctx)
  | atomic (binding : ℕ) (ctx : Ctx) (opened : Bool)
  | finish (witness : ℕ)
  | foreign (ctx : Ctx) (name : String) (tx : ℕ) (witness : Option Source)

/-- The executor of an admitted statement: the transaction of the witness, or the backend. -/
def executorOf (b : Binding) (ctx : Ctx) (witness : Option Witness) : Executor :=
  match witness, ctx.transactions with
  | some _, t :: _ => .transaction t.tx
  | _, _ => .backend b.source.name

/-- One use of a binding, recorded when it is admitted. -/
def State.use (s : State) (b : Binding) (ctx : Ctx) (write statement : Bool) :
    Except Reason State := do
  let (pins, witness) ← operation s b ctx write
  let executor := if statement then some (executorOf b ctx witness) else none
  pure { s with
    pins := pins
    log := s.log ++ [.admitted ⟨ctx, b.source, b.request.model, write, executor⟩] }

/-- The context within a new routed block: the transaction of the block above on the same alias,
or a new one. -/
def Ctx.within (ctx : Ctx) (b : Binding) (id : ℕ) : Ctx where
  consistency := ctx.consistency
  transactions :=
    ⟨id, b.source.name, ((ctx.transactions.find? fun t => t.name = b.source.name).map
      TxFrame.tx).getD id⟩ :: ctx.transactions
  witnesses := ⟨id, true, b.source, id⟩ :: ctx.witnesses

/-- Source: `RouteBinding.Atomic`, up to the call of its function. -/
def State.atomic (s : State) (b : Binding) (ctx : Ctx) (opened : Bool) : Except Reason State := do
  refuseIf (b.request.operation = .read) .transactionConfiguration
  refuseIf (¬ b.source.IsPrimary) .primaryTransactionRequired
  let s ← s.use b ctx true false
  pure (if opened then { s with
    contexts := ctx.within b s.next :: s.contexts
    next := s.next + 1 } else s)

/-- The state after a call that may be refused. -/
def State.after (s : State) : Except Reason State → State
  | .ok s' => s'
  | .error _ => s

/-- A call with a binding and a context that exist. -/
def State.call (s : State) (binding : ℕ) (ctx : Ctx)
    (f : Binding → Except Reason State) : State :=
  match s.bindings[binding]? with
  | none => s
  | some b => if ctx ∈ s.contexts then s.after (f b) else s

/-- One call. -/
def step (names : Names) (t : Topology) (s : State) : Event → State
  | .withConsistency ctx =>
    if ctx ∈ s.contexts then { s with
      pins := s.pins ++ [⟨.empty, []⟩]
      contexts := { ctx with consistency := some s.pins.length } :: s.contexts } else s
  | .choose ctx request selected =>
    if ctx ∈ s.contexts then
      match choose names t s ctx request selected with
      | .ok b => { s with resolving := s.resolving ++ [(b, ctx)] }
      | .error _ => s
    else s
  | .admitResolution resolution =>
    match s.resolving[resolution]? with
    | none => s
    | some (b, ctx) => s.after (s.use b ctx false false)
  | .bind resolution =>
    match s.resolving[resolution]? with
    | none => s
    | some (b, ctx) => s.after do
        let s ← s.use b ctx false false
        pure { s with bindings := s.bindings ++ [b] }
  | .query binding ctx =>
    s.call binding ctx fun b => s.use b ctx (b.request.operation = .write) true
  | .exec binding ctx =>
    s.call binding ctx fun b => do
      refuseIf (b.request.operation ≠ .write) .writeBindingRequired
      s.use b ctx true true
  | .beforeWrite binding ctx =>
    s.call binding ctx fun b => do
      refuseIf (b.request.operation ≠ .write) .writeBindingRequired
      s.use b ctx true false
  | .atomic binding ctx opened => s.call binding ctx fun b => s.atomic b ctx opened
  | .finish witness => { s with
      ended := witness :: s.ended
      log := s.log ++ [.ended witness] }
  | .foreign ctx name tx witness =>
    if ctx ∈ s.contexts then { s with
      contexts := ⟨ctx.consistency, ⟨s.next, name, tx⟩ :: ctx.transactions,
        (witness.map fun source => (⟨s.next, false, source, s.next⟩ : Witness)).toList ++
          ctx.witnesses⟩ :: s.contexts
      next := s.next + 1 } else s

/-- Nothing was called: there is a context without consistency and transaction. -/
def start : State := ⟨[], [⟨none, [], []⟩], [], [], [], 0, []⟩

/-- The state after a sequence of calls. -/
def runCalls (names : Names) (t : Topology) (calls : List Event) : State :=
  calls.foldl (step names t) start

end Gogo.Db.Routing

import Gogo.Async.Dispatch
import Gogo.Async.Runs

/-!
# Ended workflows and their pins

A canceled workflow can end while tasks of it are still running. Their completions are recorded later
and run the transition again, on a graph that has ended, with the same budget test and the same abort
as before the end.

* `LateFits` — the condition under which a late completion leaves the outcome alone;
  `outcome_of_late`: it is exact.
* `end_is_final` — in runs whose late completions meet it, an end is final.
* `LateUnpins`, `pins_are_given_up` — the same for the pins that a workflow gives up: never before its
  end, and all of them once it has ended.

No result of this module needs a condition on identifiers.
-/

namespace Gogo.Async

open List Gogo.Lib

variable {codec : Codec} {c : Client} {env : Env}

/-! ## The passes, whatever the identifiers are -/

/-- What the passes over a plan keep of a graph. -/
structure Grown (g g' : Graph) : Prop where
  graph : g' = { g with members := g'.members, children := g'.children, plan := g'.plan }
  childIds : g'.childIds = g.childIds
  states : ∀ t s, g.stateOf t = some s → g'.stateOf t = some s
  collected : ∀ t s, g'.stateOf t = some s → g.stateOf t = some s ∨ s.terminal = true

lemma Grown.refl (g : Graph) : Grown g g := ⟨rfl, rfl, fun _ _ h => h, fun _ _ h => .inl h⟩

variable {g g' next : Graph} {r : Graph × List Intent} {store : FlowStore} {op : FlowOp}
  {f : Failure} {settled intents : List Intent} {t : String} {w w' : Workflow}
  {ok : Workflow → FlowOp → Prop} {m : Completion} {batches : List (List Intent)}

lemma Grown.trans {g'' : Graph} (h : Grown g g') (h' : Grown g' g'') : Grown g g'' where
  graph := by rw [h'.graph, h.graph]
  childIds := h'.childIds.trans h.childIds
  states t s hs := h'.states t s (h.states t s hs)
  collected t s hs := by
    rcases h'.collected t s hs with hs | hs
    · exact h.collected t s hs
    · exact .inr hs

lemma grown_of_nodeTurn {st st' : DagState} {i : ℕ} (h : NodeTurn codec c st i st') :
    Grown st.graph st'.graph := by
  cases h with
  | skips _ => exact .refl _
  | @collects node failed outputs hready hkind =>
    refine ⟨rfl, rfl, fun t s hs => ?_, fun t s hs => ?_⟩
    · simp only [Graph.stateOf, FinMap.get?_set]
      split_ifs with heq
      · have hundone := hready.undone
        rw [Graph.done_eq_false, heq, hs] at hundone
        cases hundone
      · exact hs
    · simp only [Graph.stateOf, FinMap.get?_set] at hs
      split_ifs at hs with heq
      · right
        obtain rfl : (collectCompletion node.id failed outputs).state = s := Option.some.inj hs
        unfold collectCompletion
        split_ifs <;> rfl
      · exact .inl hs
  | @settles node failed outputs signature index child e failure bytes hready hkind hsignature
      hchild hsettle =>
      refine ⟨rfl, ?_, fun _ _ hs => hs, fun _ _ hs => .inl hs⟩
      obtain ⟨he, -⟩ := settleTask_spec hsettle
      exact map_set_of_eq (child?_eq_some.mp hchild).2 (by rw [he])

lemma settleIntent_kind (source : String) (e : Envelope) (failure : Option Failure) :
    (settleIntent codec source e failure).kind ≠ .unpin := by
  rcases failure with _ | f <;> nofun

lemma cancellationIntent_not_unpin (source : String) (e : Envelope) (b : Bool) :
    (cancellationIntent codec source e b).kind ≠ .unpin := by
  cases b <;> nofun

/-- The transition of a compiled graph that has not ended. -/
lemma advanceNested_cases (h : advanceNested codec c g = .ok r) (hopen : g.state.terminal = false) :
    ∃ st intents, Grown g st ∧ (∀ i ∈ intents, i.kind ≠ .unpin) ∧
      r = ((concludeNested codec st).1, intents ++ (concludeNested codec st).2) := by
  unfold advanceNested at h
  rw [if_neg (by simp [hopen])] at h
  split_ifs at h
  obtain ⟨⟨start, canceled⟩, hcancel, h⟩ := bind_eq_ok.mp h
  obtain ⟨st, hturns, h⟩ := bind_eq_ok.mp h
  obtain rfl := Except.ok.inj h
  have hstart : Grown g start ∧ ∀ i ∈ canceled, i.kind ≠ .unpin := by
    rcases cancelPlan_spec hcancel with ⟨-, rfl, rfl⟩ | ⟨-, rfl, rfl⟩
    · exact ⟨.refl _, by simp⟩
    · refine ⟨⟨rfl, rfl, fun _ _ h => h, fun _ _ h => .inl h⟩, fun i hi => ?_⟩
      obtain ⟨p, -, rfl⟩ := mem_map.mp hi
      exact cancellationIntent_not_unpin _ _ _
  obtain ⟨hgrown, hkinds⟩ := dagTurns_invariant
    (P := fun st : DagState => Grown g st.graph ∧ ∀ i ∈ st.intents, i.kind ≠ .unpin)
    (fun st i st' hst hturn => by
      refine ⟨hst.1.trans (grown_of_nodeTurn hturn), ?_⟩
      cases hturn with
      | skips _ => exact hst.2
      | collects _ _ => exact hst.2
      | settles _ _ _ _ _ =>
        intro j hj
        rcases mem_append.mp hj with hj | hj
        · exact hst.2 j hj
        · obtain rfl := mem_singleton.mp hj
          exact settleIntent_kind _ _ _)
    (fun _ hst => hst) hstart hturns
  exact ⟨st.graph, st.intents, hgrown, hkinds, rfl⟩

/-! ## What lasts -/

/-- What every transition keeps, whatever the identifiers are. -/
structure Lasting (g : Graph) : Prop where
  aborted : ∀ f, g.abortFailure = some f → f = workflowSize
  members : ∀ t s, g.stateOf t = some s → s.terminal = true
  claimed : g.callbackClaimed = true → g.kind ≠ .dag ∧ g.callbackId ≠ ""
  callback_ne : g.callback.isSome → g.callbackId ≠ ""

lemma Graph.Untouched.lasting (h : g.Untouched) : Lasting g where
  aborted f hf := by
    rw [h.abortFailure] at hf
    cases hf
  members t s hs := by
    rw [Graph.stateOf, h.members] at hs
    cases hs
  claimed hclaimed := by
    rw [h.callbackClaimed] at hclaimed
    cases hclaimed
  callback_ne := h.callback_ne

lemma Lasting.clone (h : Lasting g) : Lasting g.clone where
  aborted := h.aborted
  members := h.members
  claimed := h.claimed
  callback_ne hsome := h.callback_ne (by
    have hsome : (g.callback.map Signature.clone).isSome := hsome
    rwa [Option.isSome_map] at hsome)

lemma Lasting.record {g : Graph} (h : Lasting g) {m : Completion} (hm : m.state.terminal = true) :
    Lasting (g.record m) where
  aborted := h.aborted
  members t s hs := by
    simp only [Graph.stateOf, Graph.record, FinMap.get?_set] at hs
    split_ifs at hs
    · obtain rfl : m.state = s := Option.some.inj hs
      exact hm
    · exact h.members t s hs
  claimed := h.claimed
  callback_ne := h.callback_ne

lemma Lasting.prepared (h : Lasting g) (hprepared : Prepared store g op g') : Lasting g' := by
  cases hprepared with
  | record _ hterminal _ => exact h.record hterminal
  | cancel _ => exact ⟨h.aborted, h.members, h.claimed, h.callback_ne⟩

lemma Lasting.abort (h : Lasting g) (hf : f = workflowSize)
    (hturn : AbortTurn codec { g with abortFailure := some f } f next settled) : Lasting next := by
  have hstates : ∀ t, next.stateOf t = g.stateOf t := by
    intro t
    rw [hturn.graph]
    simp only [Graph.stateOf, FinMap.get?_mapValues, Option.map_map]
    rfl
  have hgraph := hturn.graph
  refine ⟨fun f' hf' => ?_, fun t s hs => h.members t s (hstates t ▸ hs), ?_, ?_⟩
  · rw [hgraph] at hf'
    exact (Option.some.inj hf').symm.trans hf
  · rw [hgraph]
    exact h.claimed
  · rw [hgraph]
    exact h.callback_ne

/-- Why an abort happens decides its failure. -/
lemma Lasting.abort_failure (h : Lasting g) (hcause : AbortCause codec c env g f) :
    f = workflowSize := by
  rcases hcause with ⟨hf, -⟩ | ⟨rfl, -⟩
  · exact h.aborted f hf
  · rfl

lemma Grown.lasting (h : Grown g g') (hg : Lasting g) : Lasting g' := by
  have hgraph := h.graph
  refine ⟨?_, fun t s hs => ?_, ?_, ?_⟩
  · rw [hgraph]
    exact hg.aborted
  · rcases h.collected t s hs with hs | hs
    · exact hg.members t s hs
    · exact hs
  · rw [hgraph]
    exact hg.claimed
  · rw [hgraph]
    exact hg.callback_ne

/-- **Every transition keeps what lasts.** -/
theorem Lasting.advance (h : Lasting g)
    (hadvance : Async.advance codec c env g = .ok (next, intents)) : Lasting next := by
  obtain ⟨within, hturn, -⟩ := turn_of_advance hadvance
  cases hturn with
  | aborts hcause hturn => exact h.abort (h.abort_failure hcause) hturn
  | stays _ _ _ => exact h.clone
  | nested _ hopen _ hnested =>
    obtain ⟨st, intents', hgrown, -, hr⟩ := advanceNested_cases hnested hopen
    obtain ⟨rfl, rfl⟩ := Prod.mk.inj hr
    have hst := hgrown.lasting h.clone
    rw [concludeNested_graph]
    exact ⟨hst.aborted, hst.members, hst.claimed, hst.callback_ne⟩
  | canceled _ _ _ hturn =>
    have hclone := h.clone
    cases hturn <;> exact ⟨hclone.aborted, hclone.members, hclone.claimed, hclone.callback_ne⟩
  | flat _ hkind _ _ hturn =>
    have hclone := h.clone
    cases hturn with
    | claims _ _ _ _ hcallback _ =>
      refine ⟨hclone.aborted, hclone.members, fun _ => ⟨hkind, ?_⟩, hclone.callback_ne⟩
      exact hclone.callback_ne (by rw [hcallback]; rfl)
    | _ => exact ⟨hclone.aborted, hclone.members, hclone.claimed, hclone.callback_ne⟩

/-- A transition keeps the states of the recorded completions. -/
lemma stateOf_advance (hadvance : Async.advance codec c env g = .ok (next, intents)) {s : State}
    (hs : g.stateOf t = some s) : next.stateOf t = some s := by
  obtain ⟨within, hturn, -⟩ := turn_of_advance hadvance
  cases hturn with
  | aborts _ hturn => exact hturn.onward.states t s hs
  | stays _ _ _ => exact hs
  | nested _ hopen _ hnested =>
    obtain ⟨st, intents', hgrown, -, hr⟩ := advanceNested_cases hnested hopen
    obtain ⟨rfl, rfl⟩ := Prod.mk.inj hr
    rw [concludeNested_graph]
    exact hgrown.states t s hs
  | canceled hopen _ _ hturn => exact (hturn.onward hopen).states t s hs
  | flat hopen _ _ _ hturn => exact (hturn.onward hopen).states t s hs

lemma Origin.lasting (h : Origin codec c w) : Lasting w.graph := by
  cases h with
  | advanced huntouched hadvance => exact (huntouched.lasting.advance hadvance).clone
  | dispatched huntouched => exact huntouched.lasting.clone

lemma ReachesWhile.lasting (horigin : Origin codec c w)
    (hreach : ReachesWhile codec c store ok w w') : Lasting w'.graph := by
  refine hreach.invariant (P := fun g _ => Lasting g) horigin.clone_eq horigin.lasting ?_ ?_ ?_
  · intro g batches op env g' next intents _ _ hlasting _ hprepared hadvance
    exact (hlasting.prepared hprepared).advance hadvance
  · intro g batches n h
    exact ⟨h.aborted, h.members, h.claimed, h.callback_ne⟩
  · intro g batches h
    exact h.clone

/-! ## An end is final -/

/-- What a workflow ended with. -/
def Graph.outcome (g : Graph) : State × RawMessage × Option Failure := (g.state, g.output, g.failure)

/-- An ended graph rests: no abort of it goes on, and it fits the budget of its transition. -/
def Rests (codec : Codec) (g : Graph) : Prop :=
  (g.abortFailure.isSome → g.cancelRequested = true) ∧
    withinGraphBudget codec g.clone (graphUnpins codec g.clone) (budgetOf g) = true

/-- A late completion leaves the outcome alone: the graph still rests with it; or the graph keeps no
output, and tasks are still running or it had failed for its size anyway. -/
def LateFits (codec : Codec) (g : Graph) (m : Completion) : Prop :=
  Rests codec (g.record m) ∨
    (g.output = none ∧
      (abortFinished (g.record m) = true → g.state = .failed ∧ g.failure = some workflowSize))

lemma AbortTurn.outcome_eq (h : AbortTurn codec { g with abortFailure := some f } f next settled) :
    next.outcome =
      if abortFinished g then (.failed, none, some f) else (g.state, none, g.failure) := by
  rw [h.graph]
  show (if abortFinished g then State.failed else g.state, none,
    if abortFinished g then some f else g.failure) = _
  split_ifs <;> rfl

lemma AbortCause.not_rests (hcause : AbortCause codec c env g f)
    (hterminal : g.state.terminal = true) : ¬ Rests codec g := by
  rintro ⟨hcoordinated, hfits⟩
  rcases hcause with ⟨hf, hcancel⟩ | ⟨-, hover⟩
  · rw [hcoordinated (by rw [hf]; rfl)] at hcancel
    cases hcancel
  · have hgraph : advanceGraph codec c env g.clone = .ok (g.clone, graphUnpins codec g.clone) := by
      unfold advanceGraph
      exact if_pos hterminal
    rw [hover.exceeds _ _ hgraph] at hfits
    cases hfits

/-- **The condition on a late completion is exact.** -/
theorem outcome_of_late (hlasting : Lasting g) (hterminal : g.state.terminal = true)
    (h : advance codec c env (g.record m) = .ok (next, intents)) :
    next.outcome = g.outcome ↔ LateFits codec g m := by
  -- What an abort leaves is the outcome exactly when the second part of the condition holds.
  have habort : next.outcome = (if abortFinished (g.record m) then (.failed, none, some workflowSize)
        else (g.state, none, g.failure)) →
      (next.outcome = g.outcome ↔ g.output = none ∧ (abortFinished (g.record m) = true →
        g.state = .failed ∧ g.failure = some workflowSize)) := by
    intro hnext
    rw [hnext, Graph.outcome]
    split_ifs with hfinished
    · simp only [Prod.mk.injEq, hfinished, true_implies]
      constructor
      · rintro ⟨hstate, houtput, hfailure⟩
        exact ⟨houtput.symm, hstate.symm, hfailure.symm⟩
      · rintro ⟨houtput, hstate, hfailure⟩
        exact ⟨hstate.symm, houtput.symm, hfailure.symm⟩
    · simp only [Prod.mk.injEq, hfinished, true_and, and_true]
      constructor
      · intro houtput
        exact ⟨houtput.symm, nofun⟩
      · rintro ⟨houtput, -⟩
        exact houtput.symm
  obtain ⟨within, hturn, -⟩ := turn_of_advance h
  have hrefuse : ∀ {P : Prop}, (g.record m).state.terminal = false → P := fun hopen => by
    have hopen : g.state.terminal = false := hopen
    rw [hterminal] at hopen
    cases hopen
  cases hturn with
  | @aborts f _ settled hcause hturn =>
    obtain rfl : f = workflowSize := by
      rcases hcause with ⟨hf, -⟩ | ⟨rfl, -⟩
      · exact hlasting.aborted f hf
      · rfl
    rw [habort hturn.outcome_eq]
    refine ⟨.inr, ?_⟩
    rintro (hrests | hrest)
    · exact absurd hrests (hcause.not_rests hterminal)
    · exact hrest
  | stays hcoordinated _ hfits => exact ⟨fun _ => .inl ⟨hcoordinated, hfits⟩, fun _ => rfl⟩
  | nested _ hopen _ _ => exact hrefuse hopen
  | canceled hopen _ _ _ => exact hrefuse hopen
  | flat hopen _ _ _ _ => exact hrefuse hopen

/-- The completions that calls record after the end meet a condition. -/
def LateCalls (P : Graph → Completion → Prop) (w : Workflow) (op : FlowOp) : Prop :=
  w.graph.state.terminal = true → ∀ m, op = .recordMember m → w.graph.done m.id = false → P w.graph m

lemma LateCalls.of_open {P : Graph → Completion → Prop} (hopen : w.graph.state.terminal = false) :
    LateCalls P w op := by
  intro hterminal
  rw [hopen] at hterminal
  cases hterminal

lemma outcome_of_flowCall (hlasting : Lasting g) (hterminal : g.state.terminal = true)
    (h : flowCall codec c store env g op = .ok (some r)) :
    ∃ m, op = .recordMember m ∧ g.done m.id = false ∧
      (r.1.outcome = g.outcome ↔ LateFits codec g m) := by
  obtain ⟨g', next, hprepared, hadvance, hr⟩ := prepared_of_flowCall h
  cases hprepared with
  | @record m hundone hm _ =>
    refine ⟨m, rfl, hundone, ?_⟩
    have houtcome : r.1.outcome = next.outcome := by
      rw [hr]
      rfl
    rw [houtcome]
    exact outcome_of_late hlasting hterminal hadvance
  | cancel hopen =>
    rw [hterminal] at hopen
    cases hopen

/-- **An end is final where late completions fit.** From every workflow that a client or a relay
creates, in every run whose late completions meet the condition, a workflow that has ended keeps its
state, output and failure; and on every workflow that has ended, a completion that is written keeps
them exactly when it meets the condition. -/
theorem end_is_final {w₀ : Workflow} (hstart : Started codec c w₀) (store : FlowStore) :
    (∀ w w', ReachesWhile codec c store (LateCalls (LateFits codec)) w₀ w →
      w.graph.state.terminal = true → ReachesWhile codec c store (LateCalls (LateFits codec)) w w' →
      w'.graph.outcome = w.graph.outcome) ∧
    (∀ w, Reaches codec c store w₀ w → w.graph.state.terminal = true →
      ∀ op env r, flowCall codec c store env w.graph op = .ok (some r) →
        ∃ m, op = .recordMember m ∧ (r.1.outcome = w.graph.outcome ↔ LateFits codec w.graph m)) := by
  have horigin := hstart.origin
  constructor
  · intro w w' hreach hterminal hreach'
    have hlasting : Lasting w.graph := hreach.lasting horigin
    suffices w'.graph.outcome = w.graph.outcome ∧ Lasting w'.graph from this.1
    induction hreach' with
    | refl => exact ⟨rfl, hlasting⟩
    | @step w' op env _ hop ih =>
      obtain ⟨houtcome, hlasting'⟩ := ih
      have hterminal' : w'.graph.state.terminal = true := by
        rw [show w'.graph.state = w.graph.state from congrArg Prod.fst houtcome]
        exact hterminal
      rcases @flowStep_cases codec c store w' (op, env) with heq | ⟨r, hr, heq⟩
      · rw [heq]
        exact ⟨houtcome, hlasting'⟩
      · obtain ⟨m, rfl, hundone, hiff⟩ := outcome_of_flowCall hlasting' hterminal' hr
        obtain ⟨g', next, hprepared, hadvance, hnext⟩ := prepared_of_flowCall hr
        have hnext' : Lasting r.1 := by
          have h := (hlasting'.prepared hprepared).advance hadvance
          rw [hnext]
          exact ⟨h.aborted, h.members, h.claimed, h.callback_ne⟩
        rw [heq]
        refine ⟨?_, hnext'.clone⟩
        show r.1.outcome = w.graph.outcome
        rw [hiff.mpr (hop hterminal' m rfl hundone), houtcome]
  · intro w hreach hterminal op env r hr
    obtain ⟨m, hop, -, hiff⟩ :=
      outcome_of_flowCall (hreach.reachesWhile.lasting horigin) hterminal hr
    exact ⟨m, hop, hiff⟩

/-- Graphs that keep an output are longer than any budget. -/
def heavyOutputs (g : Graph) : Option ℕ :=
  if g.members.entries.any fun e => e.2.output.isSome then some (9 * 2 ^ 20) else some 4

/-- A sequence of two tasks that is canceled ends as revoked when its last task is. The first task is
still running then; it succeeds with a large output, and the workflow becomes a failed one. -/
theorem revoked_workflow_fails_later :
    let ops : List FlowOp := [.cancelGraph "", .recordMember (sampleCompletion "task-1" .revoked none)]
    let canvas : Canvas :=
      { kind := .sequence
        steps := [{ kind := .task, signatures := [sampleJob] },
          { kind := .task, signatures := [sampleJob] }] }
    let late := sampleCompletion "task-0" .succeeded (some (.str "large"))
    (sampleApply heavyOutputs canvas).isOk = true ∧
      (sampleRun heavyOutputs canvas ops).graph.state = .revoked ∧
      (sampleRun heavyOutputs canvas (ops ++ [.recordMember late])).graph.state = .failed := by
  decide +kernel

/-- The same workflow within its budget stays revoked. -/
theorem revoked_workflow_stays :
    let ops : List FlowOp := [.cancelGraph "", .recordMember (sampleCompletion "task-1" .revoked none)]
    let canvas : Canvas :=
      { kind := .sequence
        steps := [{ kind := .task, signatures := [sampleJob] },
          { kind := .task, signatures := [sampleJob] }] }
    let late := sampleCompletion "task-0" .succeeded (some (.str "large"))
    let w := sampleRun (fun _ => some 4) canvas ops
    w.graph.state = .revoked ∧
      (sampleRun (fun _ => some 4) canvas (ops ++ [.recordMember late])).graph.outcome =
        w.graph.outcome := by
  intro ops canvas late w
  have hrevoked : w.graph.state = .revoked := by decide +kernel
  have hstart := @sampleStart_started (fun _ => some 4) canvas (by decide +kernel)
  have hcanceled : ReachesWhile (sampleCodec fun _ => some 4) sampleClient .memory
      (LateCalls (LateFits (sampleCodec fun _ => some 4))) (sampleStart (fun _ => some 4) canvas)
      (sampleRun (fun _ => some 4) canvas [.cancelGraph ""]) :=
    @ReachesWhile.sampleStep _ canvas _ _ [] _ .refl (by intro _ m hm; cases hm)
  have hended : ReachesWhile (sampleCodec fun _ => some 4) sampleClient .memory
      (LateCalls (LateFits (sampleCodec fun _ => some 4))) (sampleStart (fun _ => some 4) canvas) w :=
    hcanceled.sampleStep (.of_open (by decide +kernel))
  refine ⟨hrevoked, (end_is_final hstart .memory).1 _ _ hended (by decide +kernel) ?_⟩
  refine .sampleStep .refl ?_
  rintro - m hm -
  obtain rfl : late = m := FlowOp.recordMember.inj hm
  exact .inl ⟨by decide +kernel, by decide +kernel⟩

/-! ## Pins -/

/-- Some intents give up the pin of a task. -/
def Unpins (intents : List Intent) (t : String) : Prop :=
  ∃ i ∈ intents, i.kind = .unpin ∧ i.targetId = t

instance (intents : List Intent) (t : String) : Decidable (Unpins intents t) :=
  inferInstanceAs (Decidable (∃ i ∈ intents, _))

/-- The tasks that hold a pin for a graph: its children, and its callback once it is claimed. -/
def Graph.Pinned (g : Graph) (t : String) : Prop :=
  t ∈ g.childIds ∨ (t = g.callbackId ∧ g.callbackClaimed = true)

/-- An ended graph is left as it is, or no task of it is running: then its transition gives up pins. -/
def LateUnpins (codec : Codec) (g : Graph) (m : Completion) : Prop :=
  Rests codec (g.record m) ∨ abortFinished (g.record m) = true

lemma unpins_append {more : List Intent} :
    Unpins (intents ++ more) t ↔ Unpins intents t ∨ Unpins more t := by
  simp only [Unpins, mem_append, or_and_right, exists_or]

lemma not_unpins (h : ∀ i ∈ intents, i.kind ≠ .unpin) (t : String) : ¬ Unpins intents t := by
  rintro ⟨i, hi, hkind, -⟩
  exact h i hi hkind

lemma unpins_map {source : String} {ids : List String} :
    Unpins (ids.map (unpinIntent codec source)) t ↔ t ∈ ids := by
  constructor
  · rintro ⟨i, hi, -, rfl⟩
    obtain ⟨t, ht, rfl⟩ := mem_map.mp hi
    exact ht
  · intro ht
    exact ⟨_, mem_map_of_mem ht, rfl, rfl⟩

lemma unpins_graphUnpins : Unpins (graphUnpins codec g) t ↔ t ∈ pins g := by
  rw [graphUnpins_eq, unpins_map]

lemma Lasting.mem_pins (h : Lasting g) (hpinned : g.Pinned t) (hdone : g.done t = true) :
    t ∈ pins g := by
  rw [Async.mem_pins]
  refine ⟨?_, hdone⟩
  rcases hpinned with hmem | ⟨rfl, hclaimed⟩
  · exact .inl hmem
  · exact .inr ⟨rfl, (h.claimed hclaimed).2⟩

lemma done_of_mem_pins (h : t ∈ pins g) : g.done t = true :=
  (mem_pins.mp h).2

lemma replacementCompletionIntents_kind (g : Graph) :
    ∀ i ∈ replacementCompletionIntents codec g, i.kind ≠ .unpin := by
  intro i hi
  unfold replacementCompletionIntents at hi
  split_ifs at hi
  · cases hi
  · obtain rfl := mem_singleton.mp hi
    nofun

lemma AbortTurn.settled_kind (h : AbortTurn codec g f next settled) :
    ∀ i ∈ settled, i.kind ≠ .unpin := by
  intro i hi
  by_cases hchain : g.kind = .chain
  · rw [h.chain hchain] at hi
    obtain ⟨e, -, rfl⟩ := mem_map.mp hi
    nofun
  · by_cases hdag : g.kind = .dag
    · rw [(h.dag_spec hdag).2] at hi
      obtain ⟨p, -, rfl⟩ := mem_map.mp hi
      nofun
    · rw [h.other hchain hdag] at hi
      cases hi

lemma cancellations_kind (source : String) (tasks : List (Envelope × Bool)) :
    ∀ i ∈ cancellations codec source tasks, i.kind ≠ .unpin := by
  intro i hi
  obtain ⟨p, -, rfl⟩ := mem_map.mp hi
  exact cancellationIntent_not_unpin _ _ _

variable (codec) in
/-- What a transition gives up: pins of recorded tasks, at the end of the graph, and then all. -/
structure GivesUp (g next : Graph) (intents : List Intent) : Prop where
  late : ∀ t, Unpins intents t → next.state.terminal = true ∧ next.done t = true
  all : next.state.terminal = true →
    (g.state.terminal = true → Rests codec g ∨ abortFinished g = true) →
    ∀ t, next.Pinned t → next.done t = true → Unpins intents t

/-- A transition that gives up no pin does not end the graph. -/
lemma GivesUp.nothing (hkinds : ∀ i ∈ intents, i.kind ≠ .unpin)
    (hopen : next.state.terminal = false) : GivesUp codec g next intents where
  late t h := absurd h (not_unpins hkinds t)
  all hterminal := by
    rw [hopen] at hterminal
    cases hterminal

lemma AbortTurn.givesUp (hg : Lasting g) (hcause : AbortCause codec c env g f)
    (h : AbortTurn codec { g with abortFailure := some f } f next settled) :
    GivesUp codec g next (settled ++ if abortFinished g then graphUnpins codec next else []) := by
  have hnext := hg.abort (hg.abort_failure hcause) h
  have hstate : next.state = if abortFinished g then .failed else g.state := by
    rw [h.graph]
    rfl
  split_ifs at hstate ⊢ with hfinished
  · refine ⟨fun t ht => ?_, fun _ _ t hpinned hdone => ?_⟩
    · rcases unpins_append.mp ht with ht | ht
      · exact absurd ht (not_unpins h.settled_kind t)
      · exact ⟨by rw [hstate]; rfl, done_of_mem_pins (unpins_graphUnpins.mp ht)⟩
    · exact unpins_append.mpr (.inr (unpins_graphUnpins.mpr (hnext.mem_pins hpinned hdone)))
  · rw [append_nil]
    refine ⟨fun t ht => absurd ht (not_unpins h.settled_kind t), fun hterminal hlate => ?_⟩
    rw [hstate] at hterminal
    rcases hlate hterminal with hrests | h
    · exact absurd hrests (hcause.not_rests hterminal)
    · exact absurd h hfinished

lemma givesUp_of_advanceNested (hg : Lasting g) (hopen : g.state.terminal = false)
    (hkind : g.kind = .dag) (h : advanceNested codec c g = .ok (next, intents)) :
    GivesUp codec g next intents := by
  obtain ⟨st, settled, hgrown, hkinds, hr⟩ := advanceNested_cases h hopen
  obtain ⟨rfl, rfl⟩ := Prod.mk.inj hr
  have hst := hgrown.lasting hg
  rcases hroot : st.members.get? st.rootNode with _ | root
  · have hconclude : concludeNested codec st = (st, []) := by
      unfold concludeNested
      rw [hroot]
    rw [hconclude, append_nil]
    refine .nothing hkinds ?_
    rw [hgrown.graph]
    exact hopen
  · have hends : root.state.terminal = true :=
      hst.members st.rootNode root.state (by rw [Graph.stateOf, hroot]; rfl)
    have hunpins : (concludeNested codec st).2 =
        (st.childIds.filter st.done).map (unpinIntent codec st.id) := by
      unfold concludeNested
      rw [hroot, Graph.childIds, filter_map, List.map_map]
      rfl
    have hstate : (concludeNested codec st).1.state.terminal = true := by
      unfold concludeNested
      rw [hroot]
      simp only
      split_ifs
      · rfl
      · exact hends
    have hgraph := @concludeNested_graph codec st
    have hdone : ∀ t, (concludeNested codec st).1.done t = st.done t := by
      intro t
      rw [hgraph]
      rfl
    refine ⟨fun t ht => ⟨hstate, ?_⟩, fun _ _ t hpinned ht => ?_⟩
    · rcases unpins_append.mp ht with ht | ht
      · exact absurd ht (not_unpins hkinds t)
      · rw [hunpins, unpins_map] at ht
        rw [hdone]
        exact (mem_filter.mp ht).2
    · refine unpins_append.mpr (.inr ?_)
      rw [hunpins, unpins_map, mem_filter, ← hdone]
      refine ⟨?_, ht⟩
      rw [hgraph] at hpinned
      -- The callback of a compiled graph is never claimed.
      rcases hpinned with hmem | ⟨-, hclaimed⟩
      · exact hmem
      · refine absurd ?_ (hst.claimed hclaimed).1
        rw [hgrown.graph]
        exact hkind

lemma CanceledTurn.givesUp (hg : Lasting g) (hopen : g.state.terminal = false)
    (h : CanceledTurn codec g next intents) : GivesUp codec g next intents := by
  cases h with
  | callback _ _ _ => exact .nothing (cancellations_kind _ _) hopen
  | members _ _ => exact .nothing (cancellations_kind _ _) hopen
  | ends _ _ =>
    refine ⟨fun t ht => ⟨rfl, done_of_mem_pins (unpins_graphUnpins.mp ht)⟩,
      fun _ _ t hpinned hdone => unpins_graphUnpins.mpr (hg.mem_pins hpinned hdone)⟩

lemma Ends.terminal {next : ℕ} {state : State} {output : RawMessage} {failure : Option Failure}
    (hg : Lasting g) (h : Ends codec c env g next state output failure) : state.terminal = true := by
  cases h with
  | @callbackEnded body _ _ hdone =>
    exact hg.members g.callbackId body.state (by rw [Graph.stateOf, hdone]; rfl)
  | _ => rfl

lemma FlatTurn.givesUp (hg : Lasting g) (hopen : g.state.terminal = false)
    (h : FlatTurn codec c env g next intents) : GivesUp codec g next intents := by
  cases h with
  | waits _ => exact .nothing (by simp) hopen
  | ends h =>
    refine ⟨fun t ht => ⟨h.terminal hg, ?_⟩, fun _ _ t _ hdone => ?_⟩
    · rw [unpins_map, FinMap.mem_keys] at ht
      exact Option.isSome_iff_exists.mpr ht
    · rw [unpins_map, FinMap.mem_keys]
      exact Option.isSome_iff_exists.mp hdone
  | refuses _ _ _ _ => exact .nothing (by simp [failIntent]) hopen
  | publishes _ _ _ _ _ => exact .nothing (by simp [dispatchIntent]) hopen
  | claims _ _ _ _ _ _ => exact .nothing (by simp [dispatchIntent]) hopen

/-- **What a transition gives up.** -/
theorem Lasting.givesUp (h : Lasting g)
    (hadvance : Async.advance codec c env g = .ok (next, intents)) :
    GivesUp codec g next intents := by
  obtain ⟨within, hturn, rfl⟩ := turn_of_advance hadvance
  suffices GivesUp codec g next within from
    ⟨fun t ht => this.late t ((unpins_append.mp ht).resolve_right
        (not_unpins (replacementCompletionIntents_kind _) t)),
      fun hterminal hlate t hpinned hdone =>
        unpins_append.mpr (.inl (this.all hterminal hlate t hpinned hdone))⟩
  have hno : ∀ {P : Prop}, g.state.terminal = false → g.state.terminal = true → P := by
    intro P hopen hterminal
    rw [hopen] at hterminal
    cases hterminal
  cases hturn with
  | aborts hcause hturn => exact hturn.givesUp h hcause
  | stays _ hterminal _ =>
    exact ⟨fun t ht => ⟨hterminal, done_of_mem_pins (unpins_graphUnpins.mp ht)⟩,
      fun _ _ t hpinned hdone => unpins_graphUnpins.mpr (h.clone.mem_pins hpinned hdone)⟩
  | nested _ hopen hkind hnested =>
    have hgives := givesUp_of_advanceNested h.clone hopen hkind hnested
    exact ⟨hgives.late, fun hterminal _ => hgives.all hterminal (hno hopen)⟩
  | canceled hopen _ _ hturn =>
    have hgives := hturn.givesUp h.clone hopen
    exact ⟨hgives.late, fun hterminal _ => hgives.all hterminal (hno hopen)⟩
  | flat hopen _ _ _ hturn =>
    have hgives := hturn.givesUp h.clone hopen
    exact ⟨hgives.late, fun hterminal _ => hgives.all hterminal (hno hopen)⟩

/-- On a graph that has ended, a transition that meets the condition on late completions gives up
every pin, and one that does not gives up none. -/
lemma unpins_of_late (hlasting : Lasting (g.record m)) (hterminal : g.state.terminal = true)
    (h : advance codec c env (g.record m) = .ok (next, intents)) (hpinned : g.Pinned m.id) :
    Unpins intents m.id ↔ LateUnpins codec g m := by
  have hgives := hlasting.givesUp h
  have hrecorded : (g.record m).done m.id = true := by
    simp [Graph.done, Graph.record]
  obtain ⟨within, hturn, rfl⟩ := turn_of_advance h
  have hrefuse : ∀ {P : Prop}, (g.record m).state.terminal = false → P := fun hopen => by
    have hopen : g.state.terminal = false := hopen
    rw [hterminal] at hopen
    cases hopen
  cases hturn with
  | @aborts f _ settled hcause hturn =>
    have hgraph := hturn.graph
    constructor
    · intro hunpins
      right
      by_contra hfinished
      rw [if_neg hfinished, append_nil] at hunpins
      exact (unpins_append.mp hunpins).elim (not_unpins hturn.settled_kind _)
        (not_unpins (replacementCompletionIntents_kind _) _)
    · intro hlate
      have hdone : next.done m.id = true := by
        obtain ⟨s, hs⟩ := Graph.done_iff.mp hrecorded
        exact Graph.done_iff.mpr ⟨s, hturn.onward.states _ _ hs⟩
      refine hgives.all (hturn.onward.terminal hterminal) (fun _ => hlate) _ ?_ hdone
      rw [hgraph]
      exact hpinned
  | stays hcoordinated _ hfits =>
    refine ⟨fun _ => .inl ⟨hcoordinated, hfits⟩, fun hlate => ?_⟩
    refine hgives.all hterminal (fun _ => hlate) _ ?_ hrecorded
    rcases hpinned with hmem | hcallback
    · exact .inl (by rw [Graph.childIds_clone]; exact hmem)
    · exact .inr hcallback
  | nested _ hopen _ _ => exact hrefuse hopen
  | canceled hopen _ _ _ => exact hrefuse hopen
  | flat hopen _ _ _ _ => exact hrefuse hopen

lemma done_of_prepared (h : Prepared store g op g') (hdone : g.done t = true) :
    g'.done t = true := by
  cases h with
  | @record m _ _ _ =>
    simp only [Graph.done, Graph.record, FinMap.get?_set]
    split_ifs
    · rfl
    · exact hdone
  | cancel _ => exact hdone

lemma not_unpins_flatIntents (g : Graph) (t : String) : ¬ Unpins (flatIntents codec g) t := by
  refine not_unpins (fun i hi => ?_) t
  unfold flatIntents at hi
  split at hi <;>
  · obtain ⟨e, -, rfl⟩ := mem_map.mp hi
    nofun

/-- The pins that were given up are those of recorded tasks. -/
def Accounted (g : Graph) (batches : List (List Intent)) : Prop :=
  ∀ t, Unpins batches.flatten t → g.done t = true

lemma Accounted.advance (h : Accounted g batches) (hlasting : Lasting g)
    (hprepared : Prepared store g op g')
    (hadvance : Async.advance codec c env g' = .ok (next, intents)) :
    Accounted next (batches ++ [intents]) := by
  intro t ht
  rw [flatten_concat] at ht
  rcases unpins_append.mp ht with ht | ht
  · obtain ⟨s, hs⟩ := Graph.done_iff.mp (done_of_prepared hprepared (h t ht))
    exact Graph.done_iff.mpr ⟨s, stateOf_advance hadvance hs⟩
  · exact (((hlasting.prepared hprepared).givesUp hadvance).late t ht).2

lemma createGraph_emitted (r : Graph × List Intent) : (createGraph r).emitted = r.2 := by
  simp [createGraph, Workflow.write, Workflow.emitted]

lemma Workflow.emitted_write (w : Workflow) (r : Graph × List Intent) :
    (w.write r).emitted = w.emitted ++ r.2 := by
  simp [Workflow.write, Workflow.emitted]

lemma Origin.accounted (h : Origin codec c w) : Accounted w.graph w.batches := by
  intro t ht
  cases h with
  | advanced huntouched hadvance =>
    rw [← Workflow.emitted, createGraph_emitted] at ht
    exact ((huntouched.lasting.givesUp hadvance).late t ht).2
  | dispatched huntouched =>
    rw [← Workflow.emitted, createGraph_emitted] at ht
    exact absurd ht (not_unpins_flatIntents _ t)

lemma ReachesWhile.accounted (horigin : Origin codec c w)
    (hreach : ReachesWhile codec c store ok w w') : Accounted w'.graph w'.batches := by
  refine hreach.invariant horigin.clone_eq horigin.accounted ?_ ?_ ?_
  · intro g batches op env g' next intents hreach _ haccounted _ hprepared hadvance
    exact haccounted.advance (hreach.lasting horigin) hprepared hadvance
  · intro g batches n haccounted
    exact haccounted
  · intro g batches haccounted
    exact haccounted

/-- An ended workflow has given up the pins of all its recorded tasks. -/
def Unpinned (g : Graph) (batches : List (List Intent)) : Prop :=
  g.state.terminal = true → ∀ t, g.Pinned t → g.done t = true → Unpins batches.flatten t

lemma Unpinned.clone (h : Unpinned g batches) : Unpinned g.clone batches := by
  intro hterminal t hpinned hdone
  refine h hterminal t ?_ hdone
  unfold Graph.Pinned at hpinned ⊢
  rwa [Graph.childIds_clone] at hpinned

lemma Unpinned.advance (hlasting : Lasting g) (hop : LateCalls (LateUnpins codec) ⟨g, batches⟩ op)
    (hprepared : Prepared store g op g')
    (hadvance : Async.advance codec c env g' = .ok (next, intents)) :
    Unpinned next (batches ++ [intents]) := by
  intro hterminal t hpinned hdone
  rw [flatten_concat]
  refine unpins_append.mpr (.inr ?_)
  refine ((hlasting.prepared hprepared).givesUp hadvance).all hterminal ?_ t hpinned hdone
  intro hended
  cases hprepared with
  | @record m hundone _ _ => exact hop hended m rfl hundone
  | cancel hopen =>
    have hended : g.state.terminal = true := hended
    rw [hopen] at hended
    cases hended

lemma Origin.unpinned (h : Origin codec c w) : Unpinned w.graph w.batches := by
  cases h with
  | @advanced g env r huntouched hadvance =>
    refine Unpinned.clone (g := r.1) fun hterminal t hpinned hdone => ?_
    rw [← Workflow.emitted, createGraph_emitted]
    refine (huntouched.lasting.givesUp hadvance).all hterminal (fun hended => ?_) t hpinned hdone
    rw [huntouched.state] at hended
    cases hended
  | @dispatched g huntouched =>
    intro hterminal
    have hterminal : g.state.terminal = true := hterminal
    rw [huntouched.state] at hterminal
    cases hterminal

lemma ReachesWhile.unpinned (horigin : Origin codec c w)
    (hreach : ReachesWhile codec c store (LateCalls (LateUnpins codec)) w w') :
    Unpinned w'.graph w'.batches := by
  refine hreach.invariant horigin.clone_eq horigin.unpinned ?_ ?_ ?_
  · intro g batches op env g' next intents hreach _ _ hop hprepared hadvance
    exact .advance (hreach.lasting horigin) hop hprepared hadvance
  · intro g batches n hunpinned
    exact hunpinned
  · intro g batches hunpinned
    exact hunpinned.clone

/-- **Pins are given up at the end, and all of them where late completions allow it.** A workflow that
a client or a relay creates gives up no pin with its creation or with a write unless it has ended
then. In every run whose late completions meet the condition, an ended workflow has given up the pin
of every child and claimed callback that is recorded. For a task that completes after the end the
condition is exact. -/
theorem pins_are_given_up {w₀ : Workflow} (hstart : Started codec c w₀) (store : FlowStore) :
    ((∃ t, Unpins w₀.emitted t) → w₀.graph.state.terminal = true) ∧
    (∀ w, Reaches codec c store w₀ w → ∀ op env r,
      flowCall codec c store env w.graph op = .ok (some r) →
      (∃ t, Unpins r.2 t) → r.1.state.terminal = true) ∧
    (∀ w, ReachesWhile codec c store (LateCalls (LateUnpins codec)) w₀ w → w.graph.state.terminal = true →
      ∀ t, w.graph.Pinned t → w.graph.done t = true → Unpins w.emitted t) ∧
    (∀ w, Reaches codec c store w₀ w → w.graph.state.terminal = true → ∀ m env r,
      flowCall codec c store env w.graph (.recordMember m) = .ok (some r) → w.graph.Pinned m.id →
      (Unpins (w.write r).emitted m.id ↔ LateUnpins codec w.graph m)) := by
  have horigin := hstart.origin
  refine ⟨?_, ?_, fun w hreach => hreach.unpinned horigin, ?_⟩
  · rintro ⟨t, ht⟩
    cases horigin with
    | advanced huntouched hadvance =>
      rw [createGraph_emitted] at ht
      exact ((huntouched.lasting.givesUp hadvance).late t ht).1
    | dispatched huntouched =>
      rw [createGraph_emitted] at ht
      exact absurd ht (not_unpins_flatIntents _ t)
  · rintro w hreach op env r hr ⟨t, ht⟩
    have hlasting := hreach.reachesWhile.lasting horigin
    obtain ⟨g', next, hprepared, hadvance, hnext⟩ := prepared_of_flowCall hr
    rw [hnext]
    exact (((hlasting.prepared hprepared).givesUp hadvance).late t ht).1
  · intro w hreach hterminal m env r hr hpinned
    have hlasting := hreach.reachesWhile.lasting horigin
    obtain ⟨g', next, hprepared, hadvance, -⟩ := prepared_of_flowCall hr
    cases hprepared with
    | record hundone hm _ =>
      rw [← unpins_of_late (hlasting.record hm) hterminal hadvance hpinned,
        Workflow.emitted_write, unpins_append]
      refine or_iff_right fun hbefore => ?_
      rw [hreach.reachesWhile.accounted horigin _ hbefore] at hundone
      cases hundone

/-- A sequence of three tasks is canceled and ends with its last task. The first task succeeds with a
large output while the second one is still running: its pin is not given up. -/
theorem late_task_keeps_pin :
    let canvas : Canvas :=
      { kind := .sequence
        steps := [{ kind := .task, signatures := [sampleJob] },
          { kind := .task, signatures := [sampleJob] }, { kind := .task, signatures := [sampleJob] }] }
    let late := sampleCompletion "task-0" .succeeded (some (.str "large"))
    let w := sampleRun heavyOutputs canvas
      [.cancelGraph "", .recordMember (sampleCompletion "task-2" .revoked none), .recordMember late]
    (sampleApply heavyOutputs canvas).isOk = true ∧ w.graph.state.terminal = true ∧
      late.id ∈ w.graph.childIds ∧ w.graph.done late.id = true ∧ ¬ Unpins w.emitted late.id := by
  decide +kernel

/-- A group of two tasks that both succeed gives up their pins when it ends. -/
theorem group_gives_up_pins :
    let canvas : Canvas := { kind := .group, signatures := [sampleJob, sampleJob] }
    let ops : List FlowOp :=
      [.recordMember (sampleCompletion "child-1" .succeeded (some (.str "two"))),
        .recordMember (sampleCompletion "child-0" .succeeded (some (.str "one")))]
    let w := sampleRun (fun _ => some 4) canvas ops
    w.graph.state.terminal = true ∧ w.graph.childIds.all w.graph.done = true ∧
      ∀ t ∈ w.graph.childIds, Unpins w.emitted t := by
  intro canvas ops w
  have hstart := @sampleStart_started (fun _ => some 4) canvas (by decide +kernel)
  have hone : ReachesWhile (sampleCodec fun _ => some 4) sampleClient .memory
      (LateCalls (LateUnpins (sampleCodec fun _ => some 4))) (sampleStart (fun _ => some 4) canvas)
      (sampleRun (fun _ => some 4) canvas (ops.take 1)) :=
    @ReachesWhile.sampleStep _ canvas _ _ [] _ .refl (.of_open (by decide +kernel))
  have hended : ReachesWhile (sampleCodec fun _ => some 4) sampleClient .memory
      (LateCalls (LateUnpins (sampleCodec fun _ => some 4))) (sampleStart (fun _ => some 4) canvas) w :=
    hone.sampleStep (.of_open (by decide +kernel))
  have hdone : w.graph.childIds.all w.graph.done = true := by decide +kernel
  have hterminal : w.graph.state.terminal = true := by decide +kernel
  refine ⟨hterminal, hdone, fun t ht => ?_⟩
  exact (pins_are_given_up hstart .memory).2.2.1 w hended hterminal t (.inl ht)
    (all_eq_true.mp hdone t ht)

end Gogo.Async

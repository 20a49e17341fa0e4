import Gogo.Async.Passes

/-!
# What every transition keeps

The cases of `Client.advance` for graphs of any kind, and what all of them have in common.

* `Turn` — a graph aborts, stays as it ended, or makes a step of its kind; `turn_of_advance`.
* `Onward` — the frame stays, recorded completions keep their states, an end stays an end;
  `Turn.onward`.
-/

namespace Gogo.Async

open Gogo.Lib

/-! ## The cases -/

section Turn

variable (codec : Codec) (c : Client) (env : Env)

/-- The transition of the coordinator does not fit the budget of the graph. -/
structure OverBudget (g : Graph) : Prop where
  coordinated : g.abortFailure.isSome → g.cancelRequested = true
  exceeds : ∀ next intents, advanceGraph codec c env g.clone = .ok (next, intents) →
    withinGraphBudget codec next intents (budgetOf g) = false

/-- Why a graph aborts with a failure. -/
def AbortCause (g : Graph) (f : Failure) : Prop :=
  (g.abortFailure = some f ∧ g.cancelRequested = false) ∨
    (f = workflowSize ∧ OverBudget codec c env g)

/-- What a transition does, but for the completion of a replacement. -/
inductive Turn (g : Graph) : Graph → List Intent → Prop
  | aborts {f : Failure} {next : Graph} {settled : List Intent}
      (hcause : AbortCause codec c env g f)
      (h : AbortTurn codec { g with abortFailure := some f } f next settled) :
      Turn g next (settled ++ if abortFinished g then graphUnpins codec next else [])
  | stays (hcoordinated : g.abortFailure.isSome → g.cancelRequested = true)
      (hterminal : g.state.terminal = true)
      (hfits : withinGraphBudget codec g.clone (graphUnpins codec g.clone) (budgetOf g) = true) :
      Turn g g.clone (graphUnpins codec g.clone)
  | nested {next : Graph} {intents : List Intent}
      (hcoordinated : g.abortFailure.isSome → g.cancelRequested = true)
      (hopen : g.state.terminal = false) (hkind : g.kind = .dag)
      (h : advanceNested codec c g.clone = .ok (next, intents)) : Turn g next intents
  | canceled {next : Graph} {intents : List Intent} (hopen : g.state.terminal = false)
      (hkind : g.kind ≠ .dag) (hcancel : g.cancelRequested = true)
      (h : CanceledTurn codec g.clone next intents) : Turn g next intents
  | flat {next : Graph} {intents : List Intent} (hopen : g.state.terminal = false)
      (hkind : g.kind ≠ .dag) (hcancel : g.cancelRequested = false)
      (habort : g.abortFailure = none)
      (h : FlatTurn codec c env g.clone next intents) : Turn g next intents

variable {codec c env}

variable {g : Graph}

lemma Graph.WellFormed.clone (hg : g.WellFormed) : g.clone.WellFormed :=
  hg.of_frame g.frame_clone

/-- **The cases of a transition.** -/
theorem turn_of_advance {next : Graph} {intents : List Intent}
    (h : advance codec c env g = .ok (next, intents)) :
    ∃ within, Turn codec c env g next within ∧
      intents = within ++ replacementCompletionIntents codec next := by
  obtain ⟨within, hwithin, hintents⟩ := advance_eq_ok h
  refine ⟨within, ?_, hintents⟩
  rcases advanceWithin_cases hwithin with
    ⟨f, hf, hcancel, settled, hturn, hr⟩ | ⟨hnot, hexceeds, settled, hturn, hr⟩ |
    ⟨hnot, hgraph, hfits⟩
  · have hr : within = settled ++ if abortFinished g then graphUnpins codec next else [] := hr
    rw [hr]
    exact .aborts (.inl ⟨hf, hcancel⟩) hturn
  · have hr : within = settled ++ if abortFinished g then graphUnpins codec next else [] := hr
    rw [hr]
    exact .aborts (.inr ⟨rfl, hnot, hexceeds⟩) hturn
  · rcases advanceGraph_cases hgraph with ⟨hterminal, hr⟩ | ⟨hopen, hkind, hnested⟩ |
      ⟨hopen, hkind, hcancel, hturn⟩ | ⟨hopen, hkind, hcancel, hturn⟩
    · obtain ⟨rfl, rfl⟩ := Prod.mk.inj hr
      exact .stays hnot hterminal hfits
    · exact .nested hnot hopen hkind hnested
    · exact .canceled hopen hkind hcancel hturn
    · refine .flat hopen hkind hcancel ?_ hturn
      rcases habort : g.abortFailure with _ | f
      · rfl
      · have := hnot (by rw [habort]; rfl)
        rw [Graph.clone_cancelRequested, this] at hcancel
        cases hcancel

end Turn

/-! ## What stays -/

/-- The state of a recorded completion. -/
def Graph.stateOf (g : Graph) (t : String) : Option State := (g.members.get? t).map Completion.state

variable {g : Graph} {t : String}

lemma Graph.done_iff : g.done t = true ↔ ∃ s, g.stateOf t = some s := by
  unfold Graph.done Graph.stateOf
  rcases g.members.get? t with _ | m <;> simp

lemma Graph.done_eq_false : g.done t = false ↔ g.stateOf t = none := by
  unfold Graph.done Graph.stateOf
  rcases g.members.get? t with _ | m <;> simp

/-- What holds between a graph and the one that a transition makes of it. -/
structure Onward (g next : Graph) : Prop where
  frame : next.frame = g.frame
  cancelRequested : next.cancelRequested = g.cancelRequested
  states : ∀ t s, g.stateOf t = some s → next.stateOf t = some s
  collected : ∀ t s, next.stateOf t = some s → g.stateOf t = some s ∨
    ∃ node ∈ g.plan, node.id = t ∧ node.kind = .collect ∧ s.terminal = true
  terminal : g.state.terminal = true → next.state.terminal = true
  revision : next.revision = g.revision

section Onward

variable {codec : Codec} {c : Client} {env : Env}

lemma Onward.clone (g : Graph) : Onward g g.clone where
  frame := g.frame_clone
  cancelRequested := rfl
  states _ _ h := h
  collected _ _ h := .inl h
  terminal h := h
  revision := rfl

variable {g g' next : Graph} {settled intents : List Intent}

lemma Onward.trans {g'' : Graph} (h : Onward g g') (h' : Onward g' g'') : Onward g g'' where
  frame := h'.frame.trans h.frame
  cancelRequested := h'.cancelRequested.trans h.cancelRequested
  states t s hs := h'.states t s (h.states t s hs)
  collected t s hs := by
    rcases h'.collected t s hs with hs | ⟨node, hnode, hid, hkind, hstate⟩
    · exact h.collected t s hs
    · have hplan := Graph.plan_of_frame h.frame
      have hmem : node.skeleton ∈ g.plan.map CanvasNode.skeleton := by
        rw [← hplan]
        exact List.mem_map_of_mem hnode
      obtain ⟨node', hnode', heq⟩ := List.mem_map.mp hmem
      refine .inr ⟨node', hnode', ?_, ?_, hstate⟩
      · rw [← hid, ← CanvasNode.skeleton_id node', heq, CanvasNode.skeleton_id]
      · rw [← hkind, ← CanvasNode.skeleton_kind node', heq, CanvasNode.skeleton_kind]
  terminal hs := h'.terminal (h.terminal hs)
  revision := h'.revision.trans h.revision

lemma AbortTurn.onward {f : Failure} (h : AbortTurn codec g f next settled) : Onward g next := by
  have hframe : next.plan.map CanvasNode.skeleton = g.plan.map CanvasNode.skeleton := by
    by_cases hkind : g.kind = .dag
    · rw [(h.dag_spec hkind).1]
      exact congrArg Graph.plan (frame_dispatchTasks g _)
    · rw [h.flat hkind]
  have hstate : ∀ t, next.stateOf t = g.stateOf t := by
    intro t
    rw [h.graph]
    simp only [Graph.stateOf, FinMap.get?_mapValues, Option.map_map]
    rfl
  refine ⟨?_, ?_, ?_, ?_, ?_, ?_⟩
  · have hgraph := h.graph
    rw [Graph.frame, hframe]
    rw [hgraph]
    rfl
  · rw [h.graph]
  · intro t s hs
    rw [hstate, hs]
  · intro t s hs
    rw [hstate] at hs
    exact .inl hs
  · intro hterminal
    rw [h.graph]
    show (if abortFinished g then State.failed else g.state).terminal = true
    split_ifs
    · rfl
    · exact hterminal
  · rw [h.graph]

lemma Since.onward {ps : List ℕ} (h : Since codec c g g' ps settled) : Onward g g' where
  frame := h.frame
  cancelRequested := by rw [h.graph]
  states t s hs := by
    obtain ⟨m, hm, rfl⟩ := Option.map_eq_some_iff.mp hs
    rw [Graph.stateOf, h.kept t m hm]
    rfl
  collected t s hs := by
    obtain ⟨m, hm, rfl⟩ := Option.map_eq_some_iff.mp hs
    rcases h.collected t m hm with hm | ⟨node, hnode, hid, hkind, failed, outputs, -, rfl⟩
    · exact .inl (by rw [Graph.stateOf, hm]; rfl)
    · refine .inr ⟨node, hnode, hid, hkind, ?_⟩
      unfold collectCompletion
      split_ifs <;> rfl
  terminal hs := by rw [h.graph]; exact hs
  revision := by rw [h.graph]

lemma onward_dispatchTasks (g : Graph) (test : CanvasNode → Bool) :
    Onward g { g with plan := dispatchTasks g test } where
  frame := frame_dispatchTasks g test
  cancelRequested := rfl
  states _ _ h := h
  collected _ _ h := .inl h
  terminal h := h
  revision := rfl

lemma onward_cancelPlan {start : Graph} {canceled : List Intent}
    (h : cancelPlan codec g = .ok (start, canceled)) : Onward g start := by
  rcases cancelPlan_spec h with ⟨-, rfl, -⟩ | ⟨-, rfl, -⟩
  · exact ⟨rfl, rfl, fun _ _ h => h, fun _ _ h => .inl h, id, rfl⟩
  · exact onward_dispatchTasks g _

/-- The end of a compiled graph changes its state, output and failure only. -/
lemma concludeNested_graph (g : Graph) :
    (concludeNested codec g).1 = { g with
      state := (concludeNested codec g).1.state
      output := (concludeNested codec g).1.output
      failure := (concludeNested codec g).1.failure } := by
  unfold concludeNested
  split
  · rfl
  · split_ifs <;> rfl

lemma NestedTurn.onward (h : NestedTurn codec c g next intents) (hopen : g.state.terminal = false) :
    Onward g next := by
  obtain ⟨start, canceled, st, ps, settled, hcancel, hsince, -, rfl, -⟩ := h
  have hway := (onward_cancelPlan hcancel).trans hsince.onward
  rw [concludeNested_graph]
  exact ⟨hway.frame, hway.cancelRequested, hway.states, hway.collected,
    fun h => absurd h (by rw [hopen]; decide), hway.revision⟩

lemma CanceledTurn.onward (h : CanceledTurn codec g next intents)
    (hopen : g.state.terminal = false) :
    Onward g next := by
  have hno : ∀ {s : State}, g.state.terminal = true → s.terminal = true := by
    intro s h
    rw [hopen] at h
    cases h
  cases h <;> exact ⟨rfl, rfl, fun _ _ h => h, fun _ _ h => .inl h, hno, rfl⟩

lemma FlatTurn.onward (h : FlatTurn codec c env g next intents) (hopen : g.state.terminal = false) :
    Onward g next := by
  have hno : ∀ {s : State}, g.state.terminal = true → s.terminal = true := by
    intro s h
    rw [hopen] at h
    cases h
  cases h with
  | publishes hfollows _ _ _ _ =>
    refine ⟨?_, rfl, fun _ _ h => h, fun _ _ h => .inl h, hno, rfl⟩
    simp only [Graph.frame]
    rw [map_set_of_eq hfollows.child (Envelope.skeleton_args _ _)]
  | _ => exact ⟨rfl, rfl, fun _ _ h => h, fun _ _ h => .inl h, hno, rfl⟩

/-- **What every transition keeps.** -/
theorem Turn.onward (hg : g.WellFormed) (h : Turn codec c env g next intents) : Onward g next := by
  cases h with
  | aborts _ h => exact ⟨h.onward.frame, h.onward.cancelRequested, h.onward.states,
      h.onward.collected, h.onward.terminal, h.onward.revision⟩
  | stays _ _ _ => exact .clone g
  | nested _ hopen _ h =>
    exact (Onward.clone g).trans ((nestedTurn_of_advanceNested hg.clone hopen h).onward hopen)
  | canceled hopen _ _ h => exact (Onward.clone g).trans (h.onward hopen)
  | flat hopen _ _ _ h => exact (Onward.clone g).trans (h.onward hopen)

end Onward

end Gogo.Async

import Gogo.Async.Ledger

/-!
# What a workflow keeps

In either store, and with the reads and writes of the Redis store interleaved, no call takes back
what an earlier one has written.

* `Extends` — one workflow is a later state of another; `extends_of_flowStep`, for one call.
* `nothing_is_lost` — **every later state extends every earlier one.**
-/

namespace Gogo.Async

open List Gogo.Lib

variable {codec : Codec} {c : Client} {store : FlowStore} {w w' : Workflow}

/-- `w'` is `w` some calls later: the same workflow, with at least its records and its intents. -/
structure Extends (w w' : Workflow) : Prop where
  frame : w'.graph.frame = w.graph.frame
  states : ∀ t s, w.graph.stateOf t = some s → w'.graph.stateOf t = some s
  canceled : w.graph.cancelRequested = true → w'.graph.cancelRequested = true
  ended : w.graph.state.terminal = true → w'.graph.state.terminal = true
  batches : w.batches <+: w'.batches

lemma Extends.refl (w : Workflow) : Extends w w :=
  ⟨rfl, fun _ _ h => h, id, id, prefix_rfl⟩

lemma Extends.trans {w'' : Workflow} (h : Extends w w') (h' : Extends w' w'') : Extends w w'' where
  frame := h'.frame.trans h.frame
  states t s hs := h'.states t s (h.states t s hs)
  canceled hw := h'.canceled (h.canceled hw)
  ended hw := h'.ended (h.ended hw)
  batches := h.batches.trans h'.batches

lemma extends_of_flowStep (hwf : w.graph.WellFormed) (op : FlowOp) (env : Env) :
    Extends w (flowStep codec c store w (op, env)) := by
  rcases flowStep_cases store w (op, env) with heq | ⟨r, hr, heq⟩
  · rw [heq]
    exact .refl w
  obtain ⟨g', next, hprepared, hadvance, hnext⟩ := prepared_of_flowCall hr
  obtain ⟨within, hturn, -⟩ := turn_of_advance hadvance
  have honward := hturn.onward (hwf.of_frame (by cases hprepared <;> rfl))
  have hwrite : w.write r =
      ⟨Graph.clone { next with revision := r.1.revision }, w.batches ++ [r.2]⟩ := by
    rw [← hnext]
    rfl
  rw [heq, hwrite]
  cases hprepared with
  | record hundone _ _ =>
    refine ⟨(Graph.frame_clone _).trans honward.frame, fun t s hs => ?_, fun hcancel => ?_,
      honward.terminal, prefix_append _ _⟩
    · exact honward.states t s (stateOf_record hundone hs)
    · exact honward.cancelRequested.trans hcancel
  | cancel _ =>
    exact ⟨(Graph.frame_clone _).trans honward.frame, honward.states,
      fun _ => honward.cancelRequested, honward.terminal, prefix_append _ _⟩

lemma extends_of_reaches (hwf : w.graph.WellFormed) (h : Reaches codec c store w w') :
    Extends w w' := by
  obtain ⟨calls, rfl⟩ := h
  induction calls generalizing w with
  | nil => exact .refl w
  | cons call rest ih =>
    have hstep : Extends w (flowStep codec c store w call) := extends_of_flowStep hwf call.1 call.2
    exact hstep.trans (ih (hwf.of_frame hstep.frame))

/-- **Nothing that was written of a workflow is lost.** From every workflow that a client or a relay
creates, in either store, and with the reads and writes of the Redis store interleaved: every later
state has the tasks, the recorded states, the cancellation, the end and the intents of every earlier
one. -/
theorem nothing_is_lost (hids : StableIds codec) {w₀ : Workflow} (hstart : Started codec c w₀) :
    (∀ store w w', Reaches codec c store w₀ w → Reaches codec c store w w' → Extends w w') ∧
    (∀ events, (Optimistic.history (workflows codec c) { value := some w₀ } events).Pairwise
      fun o o' => ∀ w w', o.after = some w → o'.before = some w' → Extends w w') := by
  have hbegins := hstart.begins hids
  have hwf : ∀ {store w}, Reaches codec c store w₀ w → w.graph.WellFormed := fun hreach =>
    (hreach.reachesWhile.books hids hbegins).1.wellFormed
  refine ⟨fun store w w' hreach hreach' => extends_of_reaches (hwf hreach) hreach', ?_⟩
  intro events
  obtain ⟨hall, hpair⟩ := interleaved_reaches hbegins.revision_pos events
  refine hpair.imp_of_mem ?_
  intro o o' ho _ hlead w w' hw hw'
  obtain ⟨v, hv, hreach⟩ := ((hall o ho).1.trans (hall o ho).2) w₀ rfl
  obtain rfl := Option.some.inj (hw.symm.trans hv)
  obtain ⟨v', hv', hreach'⟩ := hlead w hw
  obtain rfl := Option.some.inj (hw'.symm.trans hv')
  exact extends_of_reaches (hwf hreach) hreach'

/-- A group of two tasks: what the first one has left is there when the group is canceled. -/
theorem canceled_group_extends :
    let run := sampleRun (fun _ => some 4) { kind := .group, signatures := [sampleJob, sampleJob] }
    let ops : List FlowOp := [.recordMember (sampleCompletion "child-0" .succeeded none)]
    Extends (run ops) (run (ops ++ [.cancelGraph ""])) ∧
      (run ops).graph.members.keys.length = 1 ∧
      (run (ops ++ [.cancelGraph ""])).graph.cancelRequested = true := by
  intro run ops
  have hstart := @sampleStart_started (fun _ => some 4)
    { kind := .group, signatures := [sampleJob, sampleJob] } (by decide +kernel)
  refine ⟨?_, by decide +kernel, by decide +kernel⟩
  exact (nothing_is_lost (sampleCodec_stableIds _) hstart).1 .memory _ _ (sampleRun_reaches ops)
    ⟨[(.cancelGraph "", sampleEnv)], rfl⟩

end Gogo.Async

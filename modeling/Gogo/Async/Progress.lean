import Gogo.Async.Finality
import Gogo.Async.Ledger

/-!
# Workflows wait for tasks

A workflow that has not ended waits for a task that was handed out and is not recorded: it never waits
for nothing. A chain hands out its tasks one after the other, and the callback of a chord comes last;
completions of tasks that were not handed out yet break this, so runs record those in turn only.

* `Outstanding` — a task that was handed out and is not recorded.
* `Afoot` — what holds between a graph that has not ended and the intents that were emitted for it;
  `Afoot.turn`: a transition keeps it and leaves a task outstanding, or the graph ends.
* `waits_for_a_task` — the result.
-/

namespace Gogo.Async

open List Gogo.Lib

variable {codec : Codec} {c : Client} {env : Env}

/-! ## Tasks that are handed out -/

/-- An intent that publishes, fails or cancels a task. -/
def Intent.handsOut (i : Intent) (t : String) : Prop :=
  (i.kind = .publish ∨ i.kind = .fail ∨ i.kind = .cancel) ∧ i.envelope.map Envelope.id = some t

/-- Some intents publish, fail or cancel a task. -/
def HandedOut (intents : List Intent) (t : String) : Prop := ∃ i ∈ intents, i.handsOut t

/-- The tasks of a graph: its children and its callback. -/
def Graph.taskIds (g : Graph) : List String :=
  g.childIds ++ if g.callbackId = "" then [] else [g.callbackId]

/-- A task of the graph was handed out and is not recorded. -/
def Outstanding (g : Graph) (intents : List Intent) : Prop :=
  ∃ t ∈ g.taskIds, g.done t = false ∧ HandedOut intents t

instance (i : Intent) (t : String) : Decidable (i.handsOut t) :=
  inferInstanceAs (Decidable (_ ∧ _))

instance (intents : List Intent) (t : String) : Decidable (HandedOut intents t) :=
  inferInstanceAs (Decidable (∃ i ∈ intents, _))

instance (g : Graph) (intents : List Intent) : Decidable (Outstanding g intents) :=
  inferInstanceAs (Decidable (∃ t ∈ g.taskIds, _))

variable {intents emitted : List Intent} {t source : String} {e : Envelope} {g next : Graph}
  {node : CanvasNode} {batches : List (List Intent)}

lemma handedOut_append {more : List Intent} :
    HandedOut (intents ++ more) t ↔ HandedOut intents t ∨ HandedOut more t := by
  simp only [HandedOut, mem_append, or_and_right, exists_or]

lemma Dispatches.handsOut {i : Intent} (h : Dispatches codec source e i) : i.handsOut e.id := by
  refine ⟨?_, by rw [h.envelope]; rfl⟩
  rcases h.kind with hkind | hkind
  · exact .inl hkind
  · exact .inr (.inl hkind)

lemma cancellationIntent_handsOut (source : String) (e : Envelope) (b : Bool) :
    (cancellationIntent codec source e b).handsOut e.id := by
  cases b
  · exact ⟨.inr (.inl rfl), rfl⟩
  · exact ⟨.inr (.inr rfl), rfl⟩

lemma handedOut_cancellations {tasks : List (Envelope × Bool)} {b : Bool} (h : (e, b) ∈ tasks) :
    HandedOut (cancellations codec source tasks) e.id :=
  ⟨_, mem_map_of_mem h, cancellationIntent_handsOut source e b⟩

/-! ## Plans -/

lemma childIndex_isSome {id : String} {l : List Envelope} (h : id ∈ l.map Envelope.id) :
    (childIndex id l).isSome := by
  induction l with
  | nil => cases h
  | cons child rest ih =>
    unfold childIndex
    rcases hrest : childIndex id rest with _ | i
    · rcases mem_cons.mp h with rfl | h
      · simp
      · rw [hrest] at ih
        cases ih h
    · rfl

lemma exists_child? (h : t ∈ g.childIds) : ∃ i child, g.child? t = some (i, child) := by
  obtain ⟨i, hi⟩ := Option.isSome_iff_exists.mp (childIndex_isSome h)
  obtain ⟨child, hchild, -⟩ := childIndex_eq_some hi
  exact ⟨i, child, child?_eq_some.mpr ⟨hi, hchild⟩⟩

lemma Graph.WellFormed.task_mem (hg : g.WellFormed) (hkind : g.kind = .dag) (hnode : node ∈ g.plan)
    (htask : node.kind = .task) : node.id ∈ g.childIds := by
  rw [← hg.tasks hkind]
  exact mem_map_of_mem (mem_filter.mpr ⟨hnode, by simp [htask]⟩)

lemma exists_selectTasks (hg : g.WellFormed) (hkind : g.kind = .dag) {test : CanvasNode → Bool}
    (hnode : node ∈ g.plan) (htask : node.kind = .task) (htest : test node = true) :
    ∃ p ∈ selectTasks g test, p.1.id = node.id := by
  obtain ⟨i, child, hchild⟩ := exists_child? (hg.task_mem hkind hnode htask)
  refine ⟨(child, node), mem_filterMap.mpr ⟨node, mem_filter.mpr ⟨hnode, htest⟩, ?_⟩,
    id_of_child? hchild⟩
  rw [hchild]
  rfl

/-- **A graph whose passes have nothing to do and whose root is not recorded waits for a task**: a
node that is neither recorded nor dispatched waits for one that stands before it. -/
theorem AtRest.awaits (hg : g.WellFormed) (hkind : g.kind = .dag) (hrest : AtRest g)
    (hroot : g.done g.rootNode = false) :
    ∃ node ∈ g.plan, g.done node.id = false ∧ node.dispatched = true := by
  have hbelow : ∀ i : ℕ, ∀ node, g.plan[i]? = some node → g.done node.id = false →
      ∃ node ∈ g.plan, g.done node.id = false ∧ node.dispatched = true := by
    intro i
    induction i using Nat.strong_induction_on with
    | _ i ih =>
      intro node hnode hundone
      rcases hrest node (mem_of_getElem? hnode) with hdone | hdispatched | hwaits
      · rw [hundone] at hdone
        cases hdone
      · exact ⟨node, mem_of_getElem? hnode, hundone, hdispatched⟩
      · obtain ⟨d, hd, hnone⟩ := gather_eq_none.mp hwaits
        obtain ⟨node', hnode', rfl⟩ := mem_map.mp (hg.ordered i node hnode d hd)
        obtain ⟨j, hj⟩ := mem_iff_getElem?.mp hnode'
        rw [getElem?_take] at hj
        split_ifs at hj with hlt
        exact ih j hlt node' hj (by rw [Graph.done, hnone]; rfl)
  obtain ⟨node, hnode, hid⟩ := mem_map.mp (hg.root hkind)
  obtain ⟨i, hi⟩ := mem_iff_getElem?.mp hnode
  exact hbelow i node hi (by rw [hid]; exact hroot)

/-! ## The invariant -/

/-- What holds between a graph that has not ended and the intents that were emitted for it. -/
structure Afoot (g : Graph) (emitted : List Intent) : Prop where
  released : ∀ t, Released g t → HandedOut emitted t
  inTurn : g.cancelRequested = false → g.abortFailure = none →
    ∀ t, HandedOut emitted t → Released g t
  chain : g.kind = .chain → ∀ t, g.done t = true → HandedOut emitted t
  chord : g.kind = .chord → g.done g.callbackId = true → HandedOut emitted g.callbackId
  dispatched : ∀ node ∈ g.plan, node.dispatched = true → node.kind = .task
  claimed : g.callbackClaimed = true → g.kind = .chord

/-- A task whose dispatch identifier is used up is a task of the graph. -/
lemma Afoot.task_of_released (h : Afoot g emitted) (hg : g.WellFormed) (hlasting : Lasting g)
    (ht : Released g t) : t ∈ g.taskIds := by
  unfold Graph.taskIds
  rcases hkind : g.kind with _ | _ | _ | _
  · rw [released_chain hkind] at ht
    obtain ⟨k, hk, -⟩ := ht
    exact mem_append_left _ (mem_of_getElem? hk)
  · rw [released_barrier (by rw [hkind]; decide) (by rw [hkind]; decide)] at ht
    rcases ht with ht | ⟨-, hclaimed⟩
    · exact mem_append_left _ ht
    · have := h.claimed hclaimed
      rw [hkind] at this
      cases this
  · rw [released_barrier (by rw [hkind]; decide) (by rw [hkind]; decide)] at ht
    rcases ht with ht | ⟨rfl, hclaimed⟩
    · exact mem_append_left _ ht
    · rw [if_neg (hlasting.claimed hclaimed).2]
      exact mem_append_right _ (mem_singleton.mpr rfl)
  · rw [released_dag hkind] at ht
    obtain ⟨node, hnode, rfl, htask, -⟩ := ht
    exact mem_append_left _ (hg.task_mem hkind hnode htask)

lemma done_of_onward (h : Onward g next) (hdone : g.done t = true) : next.done t = true := by
  obtain ⟨s, hs⟩ := Graph.done_iff.mp hdone
  exact Graph.done_iff.mpr ⟨s, h.states t s hs⟩

/-- Flat graphs record what calls record, nothing else. -/
lemma done_of_flat (hg : g.WellFormed) (hkind : g.kind ≠ .dag) (h : Onward g next) (t : String) :
    next.done t = g.done t := by
  rcases hdone : g.done t with _ | _
  · by_contra hne
    obtain ⟨s, hs⟩ := Graph.done_iff.mp (by simpa using hne)
    rcases h.collected t s hs with hs | ⟨node, hnode, -⟩
    · rw [Graph.done_iff.mpr ⟨s, hs⟩] at hdone
      cases hdone
    · rw [hg.flat_plan hkind] at hnode
      cases hnode
  · exact done_of_onward h hdone

/-- What a transition hands out without a cancellation is released then. -/
lemma Batch.released {dispatched : List Intent} {canceled : List (Envelope × Bool)}
    {unpinned : List String} (h : Batch codec g next intents canceled dispatched unpinned)
    (hcancel : g.cancelRequested = false) (ht : HandedOut intents t) : Released next t := by
  obtain ⟨i, hi, hkind, henvelope⟩ := ht
  have hnone : canceled = [] := by
    by_contra hne
    rw [h.cancels hne] at hcancel
    cases hcancel
  rw [h.eq, hnone] at hi
  rcases mem_append.mp hi with hi | hi
  · obtain ⟨e, he, hreleased, -⟩ := h.deals.each i hi
    rw [he.envelope] at henvelope
    obtain rfl : e.id = t := Option.some.inj henvelope
    exact hreleased
  · obtain ⟨u, -, rfl⟩ := mem_map.mp hi
    cases henvelope

/-! ## Transitions -/

/-- What a transition shows of a graph that has not ended with it. -/
structure Proceeds (next : Graph) (emitted intents : List Intent) : Prop where
  released : ∀ t, Released next t → HandedOut (emitted ++ intents) t
  dispatched : ∀ node ∈ next.plan, node.dispatched = true → node.kind = .task
  claimed : next.callbackClaimed = true → next.kind = .chord
  awaits : ∃ t ∈ next.taskIds, next.done t = false ∧ HandedOut (emitted ++ intents) t

section Turn

variable {g next : Graph} {emitted intents : List Intent}

variable {t : String} {node : CanvasNode} {f : Failure}

lemma Afoot.before (h : Afoot g emitted) (ht : Released g t) : HandedOut (emitted ++ intents) t :=
  handedOut_append.mpr (.inl (h.released t ht))

lemma Graph.taskIds_of_frame (h : next.frame = g.frame) : next.taskIds = g.taskIds := by
  unfold Graph.taskIds
  rw [Graph.childIds_of_frame h, Graph.callbackId_of_frame h]

lemma Graph.child_mem_taskIds (h : t ∈ g.childIds) : t ∈ g.taskIds :=
  mem_append_left _ h

/-- The tasks that a plan dispatches on top of those it had dispatched. -/
lemma released_dispatchTasks (hkind : g.kind = .dag) {test : CanvasNode → Bool}
    (htest : ∀ node, test node = true → node.kind = .task) (hnode : node ∈ dispatchTasks g test)
    (hdispatched : node.dispatched = true)
    (hplan : ∀ node ∈ g.plan, node.dispatched = true → node.kind = .task) :
    node.kind = .task ∧ (Released g node.id ∨
      ∃ n ∈ g.plan, n.id = node.id ∧ n.kind = .task ∧ test n = true) := by
  obtain ⟨n, hn, heq⟩ := mem_map.mp hnode
  split_ifs at heq with hselected
  · subst heq
    exact ⟨htest n hselected, .inr ⟨n, hn, rfl, htest n hselected, hselected⟩⟩
  · subst heq
    have htask := hplan n hn hdispatched
    exact ⟨htask, .inl ((released_dag hkind).mpr ⟨n, hn, rfl, htask, hdispatched⟩)⟩

lemma waitingTask_kind (h : waitingTask g node = true) : node.kind = .task := by
  simp only [waitingTask, Bool.and_eq_true, beq_iff_eq] at h
  exact h.1

lemma undispatchedTask_kind (h : undispatchedTask g node = true) : node.kind = .task := by
  simp only [undispatchedTask, Bool.and_eq_true] at h
  exact waitingTask_kind h.1

lemma AbortTurn.done_eq (h : AbortTurn codec { g with abortFailure := some f } f next intents)
    (t : String) : next.done t = g.done t := by
  rw [h.graph]
  simp [Graph.done]

section

variable (hafoot : Afoot g emitted) (hfinished : abortFinished g = false)
  (h : AbortTurn codec { g with abortFailure := some f } f next intents)
include hafoot hfinished h

lemma AbortTurn.proceeds_dag (hg : g.WellFormed) (hkind : g.kind = .dag) :
    Proceeds next emitted intents := by
  have hkind' : next.kind = .dag := by rw [h.graph]; exact hkind
  have hplan : next.plan = dispatchTasks g (undispatchedTask g) := (h.dag_spec hkind).1
  have hintents : intents = (selectTasks g (undispatchedTask g)).map fun p =>
      abortIntent codec g.id f p.1 := (h.dag_spec hkind).2
  have hhanded : ∀ n ∈ g.plan, n.kind = .task → undispatchedTask g n = true →
      HandedOut (emitted ++ intents) n.id := by
    intro n hn htask htest
    obtain ⟨p, hp, hid⟩ := exists_selectTasks hg hkind hn htask htest
    refine handedOut_append.mpr (.inr ⟨abortIntent codec g.id f p.1, ?_, ?_⟩)
    · rw [hintents]
      exact mem_map_of_mem hp
    · rw [← hid]
      exact (abortIntent_dispatches _ _ _).handsOut
  have hnode : ∀ node ∈ next.plan, node.dispatched = true →
      node.kind = .task ∧ HandedOut (emitted ++ intents) node.id := by
    intro node hnode hdispatched
    rw [hplan] at hnode
    obtain ⟨htask, hreleased | ⟨n, hn, hid, hkind, htest⟩⟩ := released_dispatchTasks hkind
      (fun _ => undispatchedTask_kind) hnode hdispatched hafoot.dispatched
    · exact ⟨htask, hafoot.before hreleased⟩
    · exact ⟨htask, hid ▸ hhanded n hn hkind htest⟩
  refine ⟨?_, fun node hn hd => (hnode node hn hd).1, ?_, ?_⟩
  · intro t ht
    rw [released_dag hkind'] at ht
    obtain ⟨node, hn, rfl, -, hdispatched⟩ := ht
    exact (hnode node hn hdispatched).2
  · rw [h.graph]
    exact hafoot.claimed
  · simp only [abortFinished, hkind, all_eq_false] at hfinished
    obtain ⟨node, hn, hwaits⟩ := hfinished
    obtain ⟨htask, hundone⟩ : node.kind = .task ∧ g.done node.id = false := by simpa using hwaits
    refine ⟨node.id, ?_, by rw [h.done_eq, hundone], ?_⟩
    · rw [Graph.taskIds_of_frame h.onward.frame]
      exact Graph.child_mem_taskIds (g := g) (hg.task_mem hkind hn htask)
    · rcases hdispatched : node.dispatched with _ | _
      · exact hhanded node hn htask (by simp [undispatchedTask, waitingTask, *])
      · exact hafoot.before ((released_dag hkind).mpr ⟨node, hn, rfl, htask, hdispatched⟩)

lemma AbortTurn.proceeds_chain (hkind : g.kind = .chain) : Proceeds next emitted intents := by
  have hkind' : next.kind = .chain := by rw [h.graph]; exact hkind
  have hchildren : next.childIds = g.childIds := by rw [h.graph]; rfl
  have hintents : intents = (undispatchedChildren g).map (abortIntent codec g.id f) := h.chain hkind
  have hhanded : ∀ t ∈ g.childIds, HandedOut (emitted ++ intents) t := by
    intro t ht
    obtain ⟨k, hk⟩ := mem_iff_getElem?.mp ht
    rcases hundone : g.done t with _ | _
    · rcases Nat.lt_or_ge g.next k with hlt | hle
      · obtain ⟨e, he, rfl⟩ := Option.map_eq_some_iff.mp
          (by rwa [Graph.childIds, getElem?_map] at hk)
        refine handedOut_append.mpr (.inr ⟨abortIntent codec g.id f e, ?_,
          (abortIntent_dispatches _ _ _).handsOut⟩)
        rw [hintents]
        refine mem_map_of_mem (mem_map.mpr ⟨(e, k), mem_filter.mpr ⟨?_, ?_⟩, rfl⟩)
        · exact mem_zipIdx_iff_getElem?.mpr he
        · simp [hundone, hlt]
      · exact hafoot.before ((released_chain hkind).mpr ⟨k, hk, .inl hle⟩)
    · exact handedOut_append.mpr (.inl (hafoot.chain hkind t hundone))
  refine ⟨?_, ?_, ?_, ?_⟩
  · intro t ht
    rw [released_chain hkind', hchildren] at ht
    obtain ⟨k, hk, -⟩ := ht
    exact hhanded t (mem_of_getElem? hk)
  · have hdag : g.kind ≠ .dag := by rw [hkind]; decide
    rw [h.flat hdag]
    exact hafoot.dispatched
  · rw [h.graph]
    exact hafoot.claimed
  · have hwaits : ∃ child ∈ g.children, g.done child.id = false := by
      have hclaimed : g.callbackClaimed = false := by
        by_contra hne
        have := hafoot.claimed (by simpa using hne)
        rw [hkind] at this
        cases this
      simpa [abortFinished, hkind, hclaimed] using hfinished
    obtain ⟨child, hchild, hundone⟩ := hwaits
    have hmem : child.id ∈ g.childIds := mem_map_of_mem hchild
    refine ⟨child.id, ?_, by rw [h.done_eq, hundone], hhanded _ hmem⟩
    rw [Graph.taskIds_of_frame h.onward.frame]
    exact Graph.child_mem_taskIds (g := g) hmem

lemma AbortTurn.proceeds_barrier (hg : g.WellFormed) (hlasting : Lasting g)
    (hchain : g.kind ≠ .chain) (hdag : g.kind ≠ .dag) : Proceeds next emitted intents := by
  have hreleased : ∀ t, Released next t ↔ Released g t := by
    intro t
    rw [h.graph, released_barrier hchain hdag]
    exact released_barrier (by exact hchain) (by exact hdag)
  refine ⟨fun t ht => hafoot.before ((hreleased t).mp ht), ?_, ?_, ?_⟩
  · rw [h.flat hdag]
    exact hafoot.dispatched
  · rw [h.graph]
    exact hafoot.claimed
  · have hwaits : ∃ t, Released g t ∧ g.done t = false := by
      have hopen : (∃ child ∈ g.children, g.done child.id = false) ∨
          (g.callbackClaimed = true ∧ g.done g.callbackId = false) := by
        have hflat : abortFinished g = ((g.children.all fun child => g.done child.id) &&
            (!g.callbackClaimed || g.done g.callbackId)) := by
          unfold abortFinished
          split
          · next hkind => exact absurd hkind hdag
          · rfl
        rw [hflat, Bool.and_eq_false_iff] at hfinished
        simpa using hfinished
      simp only [released_barrier hchain hdag]
      rcases hopen with ⟨child, hchild, hundone⟩ | ⟨hclaimed, hundone⟩
      · exact ⟨child.id, .inl (mem_map_of_mem hchild), hundone⟩
      · exact ⟨g.callbackId, .inr ⟨rfl, hclaimed⟩, hundone⟩
    obtain ⟨t, ht, hundone⟩ := hwaits
    refine ⟨t, ?_, by rw [h.done_eq, hundone], hafoot.before ht⟩
    rw [Graph.taskIds_of_frame h.onward.frame]
    exact hafoot.task_of_released hg hlasting ht

/-- An aborted graph that has not ended waits for a task. -/
lemma AbortTurn.proceeds (hg : g.WellFormed) (hlasting : Lasting g) :
    Proceeds next emitted intents := by
  by_cases hchain : g.kind = .chain
  · exact h.proceeds_chain hafoot hfinished hchain
  · by_cases hdag : g.kind = .dag
    · exact h.proceeds_dag hafoot hfinished hg hdag
    · exact h.proceeds_barrier hafoot hfinished hg hlasting hchain hdag

end

/-- A compiled graph that has not ended waits for a task. -/
lemma NestedTurn.proceeds (hg : g.WellFormed) (hlasting : Lasting next) (hafoot : Afoot g emitted)
    (hkind : g.kind = .dag) (hopen : next.state.terminal = false)
    (h : NestedTurn codec c g next intents) : Proceeds next emitted intents := by
  obtain ⟨start, canceled, st, ps, settled, hcancel, hsince, hrest, rfl, rfl⟩ := h
  have hframe := (onward_cancelPlan hcancel).frame
  have hid : start.id = g.id := Graph.id_of_frame hframe
  have hkind₁ : start.kind = .dag := (Graph.kind_of_frame hframe).trans hkind
  have hkind₂ : st.kind = .dag := (Graph.kind_of_frame hsince.frame).trans hkind₁
  have hwf : st.WellFormed := hg.of_frame (hsince.frame.trans hframe)
  have hgraph := @concludeNested_graph codec st
  have hkind₃ : (concludeNested codec st).1.kind = .dag := by
    rw [hgraph]
    exact hkind₂
  -- The tasks that are dispatched before the passes: those that were, and those that are canceled.
  have hstart : ∀ node ∈ start.plan, node.dispatched = true →
      node.kind = .task ∧ (Released g node.id ∨ HandedOut canceled node.id) := by
    rcases cancelPlan_spec hcancel with ⟨-, rfl, -⟩ | ⟨-, rfl, rfl⟩
    · intro node hnode hdispatched
      have htask := hafoot.dispatched node hnode hdispatched
      exact ⟨htask, .inl ((released_dag hkind).mpr ⟨node, hnode, rfl, htask, hdispatched⟩)⟩
    · intro node hnode hdispatched
      obtain ⟨htask, hreleased | ⟨n, hn, hid, hnkind, htest⟩⟩ := released_dispatchTasks hkind
        (fun _ => waitingTask_kind) hnode hdispatched hafoot.dispatched
      · exact ⟨htask, .inl hreleased⟩
      · obtain ⟨p, hp, hpid⟩ := exists_selectTasks hg hkind hn hnkind htest
        refine ⟨htask, .inr ⟨_, mem_map_of_mem hp, ?_⟩⟩
        rw [← hid, ← hpid]
        exact cancellationIntent_handsOut _ _ _
  have hplan : ∀ node ∈ st.plan, node.dispatched = true → node.kind = .task ∧
      HandedOut (emitted ++ (canceled ++ settled ++ (concludeNested codec st).2)) node.id := by
    intro node hnode hdispatched
    obtain ⟨i, hi⟩ := mem_iff_getElem?.mp hnode
    rw [hsince.plan i] at hi
    obtain ⟨n, hn, rfl⟩ := Option.map_eq_some_iff.mp hi
    split_ifs at hdispatched ⊢ with hmem
    · obtain ⟨intent, hintent, hsettles⟩ := exists_of_forall₂_left hsince.settles hmem
      obtain ⟨n', e, hs⟩ := hsettles.task
      obtain rfl := Option.some.inj (hs.at_position.symm.trans hn)
      refine ⟨hs.task, handedOut_append.mpr (.inr (handedOut_append.mpr (.inl
        (handedOut_append.mpr (.inr ⟨intent, hintent, ?_⟩)))))⟩
      show intent.handsOut n'.id
      rw [← hs.id]
      exact hs.dispatches.handsOut
    · obtain ⟨htask, hreleased | hcanceled⟩ := hstart n (mem_of_getElem? hn) hdispatched
      · exact ⟨htask, hafoot.before hreleased⟩
      · exact ⟨htask, handedOut_append.mpr (.inr (handedOut_append.mpr (.inl
          (handedOut_append.mpr (.inl hcanceled)))))⟩
  refine ⟨?_, ?_, ?_, ?_⟩
  · intro t ht
    rw [released_dag hkind₃, concludeNested_plan] at ht
    obtain ⟨node, hnode, rfl, -, hdispatched⟩ := ht
    exact (hplan node hnode hdispatched).2
  · rw [concludeNested_plan]
    exact fun node hnode hdispatched => (hplan node hnode hdispatched).1
  · intro hclaimed
    exact absurd hkind₃ (hlasting.claimed hclaimed).1
  · have hdone : ∀ t, (concludeNested codec st).1.done t = st.done t := by
      intro t
      rw [hgraph]
      rfl
    have hroot : st.done st.rootNode = false := by
      rcases hroot : st.members.get? st.rootNode with _ | root
      · rw [Graph.done, hroot]
        rfl
      · -- A recorded root ends the graph.
        exfalso
        have hends : root.state.terminal = true := by
          refine hlasting.members st.rootNode root.state ?_
          rw [concludeNested_stateOf, Graph.stateOf, hroot]
          rfl
        unfold concludeNested at hopen
        rw [hroot] at hopen
        simp only at hopen
        split_ifs at hopen
        · cases hopen
        · rw [hends] at hopen
          cases hopen
    obtain ⟨node, hnode, hundone, hdispatched⟩ := hrest.awaits hwf hkind₂ hroot
    obtain ⟨htask, hhanded⟩ := hplan node hnode hdispatched
    refine ⟨node.id, ?_, by rw [hdone, hundone], hhanded⟩
    rw [hgraph]
    exact Graph.child_mem_taskIds (g := st) (hwf.task_mem hkind₂ hnode htask)

/-- A canceled flat graph that has not ended waits for a task that it cancels. -/
lemma CanceledTurn.proceeds (hmatches : g.CallbackMatches) (hlasting : Lasting g)
    (hafoot : Afoot g emitted) (hopen : next.state.terminal = false)
    (h : CanceledTurn codec g next intents) : Proceeds next emitted intents := by
  cases h with
  | @callback e hclaimed hundone he =>
    refine ⟨fun t ht => hafoot.before ht, hafoot.dispatched, hafoot.claimed, g.callbackId, ?_,
      hundone, handedOut_append.mpr (.inr ?_)⟩
    · unfold Graph.taskIds
      rw [if_neg (hlasting.claimed hclaimed).2]
      exact mem_append_right _ (mem_singleton.mpr rfl)
    · rw [← (hmatches e he).1]
      exact handedOut_cancellations (mem_append_right _ (mem_singleton.mpr rfl))
  | members _ hwaiting =>
    obtain ⟨⟨e, b⟩, hmem⟩ := exists_mem_of_ne_nil _ hwaiting
    have hundone : e.id ∈ g.childIds.filter fun t => !g.done t := by
      rw [← waitingChildren_ids]
      exact mem_map_of_mem hmem
    obtain ⟨hchild, hundone⟩ := mem_filter.mp hundone
    exact ⟨fun t ht => hafoot.before ht, hafoot.dispatched, hafoot.claimed, e.id,
      Graph.child_mem_taskIds hchild, by simpa using hundone,
      handedOut_append.mpr (.inr (handedOut_cancellations hmem))⟩
  | ends _ _ => cases hopen

/-- A chain that moves to its next task waits for that one. -/
lemma Follows.proceeds {m : Completion} {child e : Envelope} {signature : Signature} {i : Intent}
    (hg : g.WellFormed) (hafoot : Afoot g emitted) (habort : g.abortFailure = none)
    (hcancel : g.cancelRequested = false) (hfollows : Follows g m child signature)
    (hframe : next.frame = g.frame) (hplan : next.plan = g.plan)
    (hclaimed : next.callbackClaimed = g.callbackClaimed) (hnext : next.next = g.next + 1)
    (hmembers : next.members = g.members) (hnone : next.abortFailure = none)
    (hi : Dispatches codec g.id e i) (he : e.id = child.id) : Proceeds next emitted [i] := by
  have hchild : g.childIds[g.next + 1]? = some e.id := by
    rw [he]
    exact Graph.childIds_getElem? hfollows.child
  have hkind : next.kind = .chain := (Graph.kind_of_frame hframe).trans hfollows.kind
  have hhanded : HandedOut (emitted ++ [i]) e.id :=
    handedOut_append.mpr (.inr ⟨i, mem_singleton.mpr rfl, hi.handsOut⟩)
  refine ⟨?_, by rw [hplan]; exact hafoot.dispatched, ?_, e.id, ?_, ?_, hhanded⟩
  · intro t ht
    rw [released_chain hkind, Graph.childIds_of_frame hframe, hnext, hnone] at ht
    obtain ⟨k, hk, hle | hsome⟩ := ht
    · rcases Nat.lt_or_ge g.next k with hlt | hle'
      · obtain rfl : k = g.next + 1 := by omega
        obtain rfl := Option.some.inj (hk.symm.trans hchild)
        exact hhanded
      · exact hafoot.before ((released_chain hfollows.kind).mpr ⟨k, hk, .inl hle'⟩)
    · cases hsome
  · rw [hclaimed, Graph.kind_of_frame hframe]
    exact hafoot.claimed
  · rw [Graph.taskIds_of_frame hframe]
    exact Graph.child_mem_taskIds (mem_of_getElem? hchild)
  · -- A recorded successor was handed out, but it is not its turn before this transition.
    have hsame : next.done e.id = g.done e.id := by rw [Graph.done, hmembers, Graph.done]
    rw [hsame]
    by_contra hdone
    have hdone : g.done e.id = true := by simpa using hdone
    exact not_released_successor hg hfollows.kind habort hchild (Nat.lt_succ_self _)
      (hafoot.inTurn hcancel habort _ (hafoot.chain hfollows.kind _ hdone))

lemma Waits.proceeds (hg : g.WellFormed) (hlasting : Lasting g) (hafoot : Afoot g emitted)
    (hdag : g.kind ≠ .dag) (h : Waits g) : Proceeds g emitted [] := by
  have hwaits : ∃ t, Released g t ∧ g.done t = false := by
    cases h with
    | @chain current hkind hcurrent hundone =>
      refine ⟨current.id, (released_chain hkind).mpr ⟨g.next, Graph.childIds_getElem? hcurrent,
        .inl le_rfl⟩, by rw [Graph.done, hundone]; rfl⟩
    | @barrier child hat hclaimed hchild hundone =>
      refine ⟨child.id, ?_, by rw [Graph.done, hundone]; rfl⟩
      by_cases hkind : g.kind = .chain
      · obtain ⟨k, hk⟩ := mem_iff_getElem?.mp hchild
        obtain ⟨hlt, -⟩ := List.getElem?_eq_some_iff.mp hk
        have := (hat hkind).2
        exact (released_chain hkind).mpr ⟨k, Graph.childIds_getElem? hk, .inl (by omega)⟩
      · exact (released_barrier hkind hdag).mpr (.inl (mem_map_of_mem hchild))
    | callback hat hclaimed hundone =>
      have hkind := hafoot.claimed hclaimed
      refine ⟨g.callbackId, ?_, by rw [Graph.done, hundone]; rfl⟩
      exact (released_barrier (by rw [hkind]; decide) hdag).mpr (.inr ⟨rfl, hclaimed⟩)
  obtain ⟨t, ht, hundone⟩ := hwaits
  exact ⟨fun t ht => hafoot.before ht, hafoot.dispatched, hafoot.claimed, t,
    hafoot.task_of_released hg hlasting ht, hundone, hafoot.before ht⟩

/-- A flat graph that has not ended waits for a task. -/
lemma FlatTurn.proceeds (hg : g.WellFormed) (hlasting : Lasting g) (hafoot : Afoot g emitted)
    (hdag : g.kind ≠ .dag) (habort : g.abortFailure = none) (hcancel : g.cancelRequested = false)
    (hopen : next.state.terminal = false) (h : FlatTurn codec c env g next intents) :
    Proceeds next emitted intents := by
  cases h with
  | waits h => exact h.proceeds hg hlasting hafoot hdag
  | ends h =>
    have := h.terminal hlasting
    rw [show _ = false from hopen] at this
    cases this
  | refuses hfollows _ _ _ =>
    exact hfollows.proceeds hg hafoot habort hcancel rfl rfl rfl rfl rfl habort
      (failIntent_dispatches _ _) rfl
  | publishes hfollows _ _ _ _ =>
    refine hfollows.proceeds hg hafoot habort hcancel ?_ rfl rfl rfl rfl habort
      (dispatchIntent_dispatches _ _) rfl
    simp only [Graph.frame]
    rw [map_set_of_eq hfollows.child (Envelope.skeleton_args _ _)]
  | @claims members callback e hkind hclaimed hrecorded hstate hcallback hprepare =>
    have hsome : g.callback.isSome := by rw [hcallback]; rfl
    have hne := hg.callback_ne hsome
    have he := prepareCallback_id hprepare hne
    have hchain : g.kind ≠ .chain := by rw [hkind]; decide
    have hhanded : HandedOut (emitted ++ [dispatchIntent codec g.id e]) g.callbackId := by
      refine handedOut_append.mpr (.inr ⟨_, mem_singleton.mpr rfl, ?_⟩)
      rw [← he]
      exact (dispatchIntent_dispatches _ _).handsOut
    refine ⟨?_, hafoot.dispatched, fun _ => hkind, g.callbackId, ?_, ?_, hhanded⟩
    · intro t ht
      rcases (released_barrier (by exact hchain) (by exact hdag)).mp ht with ht | ⟨rfl, -⟩
      · exact hafoot.before ((released_barrier hchain hdag).mpr (.inl ht))
      · exact hhanded
    · show g.callbackId ∈ g.taskIds
      unfold Graph.taskIds
      rw [if_neg hne]
      exact mem_append_right _ (mem_singleton.mpr rfl)
    · -- A recorded callback was handed out, but it is not its turn before this transition.
      show g.done g.callbackId = false
      by_contra hdone
      have hdone : g.done g.callbackId = true := by simpa using hdone
      have hreleased := hafoot.inTurn hcancel habort _ (hafoot.chord hkind hdone)
      rw [released_barrier hchain hdag] at hreleased
      rcases hreleased with hmem | ⟨-, hclaimed'⟩
      · exact hg.callback_not_mem hsome hmem
      · rw [hclaimed] at hclaimed'
        cases hclaimed'

lemma Afoot.clone (h : Afoot g emitted) : Afoot g.clone emitted where
  released t ht := h.released t (released_clone.mp ht)
  inTurn hcancel habort t ht := released_clone.mpr (h.inTurn hcancel habort t ht)
  chain := h.chain
  chord := h.chord
  dispatched := by
    intro node hnode hdispatched
    obtain ⟨n, hn, rfl⟩ := mem_map.mp hnode
    exact h.dispatched n hn hdispatched
  claimed := h.claimed

/-- **A transition of a graph that has not ended ends it, or leaves a task outstanding.** -/
theorem Afoot.turn (hids : StableIds codec) (hledger : Ledger codec g emitted)
    (hlasting : Lasting g) (hlasting' : Lasting next) (hafoot : Afoot g emitted)
    (hopen : g.state.terminal = false) (hturn : Turn codec c env g next intents)
    (hnext : next.state.terminal = false) :
    Afoot next (emitted ++ intents) ∧ Outstanding next (emitted ++ intents) := by
  have hg := hledger.wellFormed
  have hproceeds : Proceeds next emitted intents := by
    cases hturn with
    | @aborts f next settled hcause h =>
      have hstate : next.state = if abortFinished g then .failed else g.state := by
        rw [h.graph]
        rfl
      rcases hfinished : abortFinished g with _ | _
      · rw [if_neg (by simp), append_nil]
        exact h.proceeds hafoot hfinished hg hlasting
      · rw [hstate, if_pos hfinished] at hnext
        cases hnext
    | stays _ hterminal _ =>
      rw [hopen] at hterminal
      cases hterminal
    | nested _ hopen hkind h =>
      exact (nestedTurn_of_advanceNested hg.clone hopen h).proceeds hg.clone hlasting' hafoot.clone
        hkind hnext
    | canceled _ _ _ h =>
      exact h.proceeds hledger.clone.callbackMatches hlasting.clone hafoot.clone hnext
    | flat _ hdag hcancel habort h =>
      exact h.proceeds hg.clone hlasting.clone hafoot.clone hdag habort hcancel hnext
  obtain ⟨canceled, dispatched, unpinned, hbatch⟩ :=
    hturn.batch hids hg hledger.callbackMatches hledger.aborted
  have honward := hturn.onward hg
  have hkind : next.kind = g.kind := Graph.kind_of_frame honward.frame
  refine ⟨⟨hproceeds.released, ?_, ?_, ?_, hproceeds.dispatched, hproceeds.claimed⟩,
    hproceeds.awaits⟩
  · intro hcancel habort t ht
    have hcancel : g.cancelRequested = false := honward.cancelRequested ▸ hcancel
    rcases handedOut_append.mp ht with ht | ht
    · refine hbatch.deals.kept t (hafoot.inTurn hcancel ?_ t ht)
      rcases hturn.abortFailure hg with heq | heq
      · rw [← heq, habort]
      · rw [heq] at habort
        cases habort
    · exact hbatch.released hcancel ht
  · intro hchain t hdone
    rw [hkind] at hchain
    rw [done_of_flat hg (by rw [hchain]; decide) honward] at hdone
    exact handedOut_append.mpr (.inl (hafoot.chain hchain t hdone))
  · intro hchord hdone
    rw [hkind] at hchord
    rw [done_of_flat hg (by rw [hchord]; decide) honward,
      Graph.callbackId_of_frame honward.frame] at hdone
    rw [Graph.callbackId_of_frame honward.frame]
    exact handedOut_append.mpr (.inl (hafoot.chord hchord hdone))

end Turn

/-! ## Runs -/

/-- The completions that calls record come in turn: a task of a chain and the callback of a chord were
handed out before. -/
def InTurn (w : Workflow) (op : FlowOp) : Prop :=
  ∀ m, op = .recordMember m →
    (w.graph.kind = .chain ∨ (w.graph.kind = .chord ∧ m.id = w.graph.callbackId)) →
    HandedOut w.emitted m.id

lemma done_record_of_ne {m : Completion} (h : t ≠ m.id) : (g.record m).done t = g.done t := by
  unfold Graph.done Graph.record
  rw [FinMap.get?_set_of_ne _ (Ne.symm h)]

lemma Afoot.prepared {store : FlowStore} {g' : Graph} {op : FlowOp} (h : Afoot g batches.flatten)
    (hop : InTurn ⟨g, batches⟩ op) (hprepared : Prepared store g op g') :
    Afoot g' batches.flatten := by
  cases hprepared with
  | @record m hundone _ _ =>
    refine ⟨h.released, h.inTurn, fun hchain t hdone => ?_, fun hchord hdone => ?_, h.dispatched,
      h.claimed⟩
    · by_cases heq : t = m.id
      · subst heq
        exact hop m rfl (.inl hchain)
      · refine h.chain hchain t ?_
        rwa [done_record_of_ne heq] at hdone
    · by_cases heq : g.callbackId = m.id
      · show HandedOut _ g.callbackId
        rw [heq]
        exact hop m rfl (.inr ⟨hchord, heq.symm⟩)
      · refine h.chord hchord ?_
        rw [← done_record_of_ne heq]
        exact hdone
  | cancel _ => exact ⟨h.released, nofun, h.chain, h.chord, h.dispatched, h.claimed⟩

/-- Nothing is released in a graph to which nothing has happened, but the tasks that a flat graph
starts with. -/
lemma afoot_of_fresh {g : Graph} {emitted : List Intent} (hfresh : g.Fresh)
    (hreleased : ∀ t, Released g t ↔ HandedOut emitted t) : Afoot g emitted where
  released t ht := (hreleased t).mp ht
  inTurn _ _ t ht := (hreleased t).mpr ht
  chain _ t hdone := by
    rw [Graph.done, hfresh.members] at hdone
    cases hdone
  chord _ hdone := by
    rw [Graph.done, hfresh.members] at hdone
    cases hdone
  dispatched node hnode hdispatched := by
    rw [hfresh.dispatched node hnode] at hdispatched
    cases hdispatched
  claimed hclaimed := by
    rw [hfresh.callbackClaimed] at hclaimed
    cases hclaimed

lemma not_released_of_fresh (hfresh : g.Fresh) (hempty : g.kind = .dag ∨ g.children = [])
    (t : String) : ¬ Released g t := by
  rcases hempty with hkind | hempty
  · rw [released_dag hkind]
    rintro ⟨node, hnode, -, -, hdispatched⟩
    rw [hfresh.dispatched node hnode] at hdispatched
    cases hdispatched
  · have hids : g.childIds = [] := by rw [Graph.childIds, hempty]; rfl
    unfold Released
    split
    · simp [hids]
    · rintro ⟨node, hnode, -, -, hdispatched⟩
      rw [hfresh.dispatched node hnode] at hdispatched
      cases hdispatched
    · simp [hids, hfresh.callbackClaimed]

lemma handedOut_flatIntents (hfresh : g.Fresh) (hdag : g.kind ≠ .dag) (t : String) :
    Released g t ↔ HandedOut (flatIntents codec g) t := by
  constructor
  · intro ht
    unfold flatIntents
    by_cases hchain : g.kind = .chain
    · rw [released_chain hchain, hfresh.next, hfresh.abortFailure] at ht
      obtain ⟨k, hk, hle | hsome⟩ := ht
      · obtain rfl : k = 0 := by omega
        obtain ⟨e, he, rfl⟩ := Option.map_eq_some_iff.mp
          (by rwa [Graph.childIds, getElem?_map] at hk)
        rcases hchildren : g.children with _ | ⟨child, rest⟩
        · rw [hchildren] at he
          cases he
        · rw [hchildren] at he
          obtain rfl : child = e := Option.some.inj he
          rw [hchain]
          exact ⟨_, mem_singleton.mpr rfl, (dispatchIntent_dispatches _ _).handsOut⟩
      · cases hsome
    · rw [released_barrier hchain hdag, hfresh.callbackClaimed] at ht
      obtain ⟨e, he, rfl⟩ := mem_map.mp (ht.resolve_right (by simp))
      split
      · next hkind => exact absurd hkind hchain
      · exact ⟨_, mem_map_of_mem he, (dispatchIntent_dispatches _ _).handsOut⟩
  · rintro ⟨i, hi, -, henvelope⟩
    obtain ⟨k, e, hk, rfl, hfirst⟩ := mem_flatIntents hi
    obtain rfl : e.id = t := Option.some.inj henvelope
    have hpos := Graph.childIds_getElem? hk
    by_cases hchain : g.kind = .chain
    · exact (released_chain hchain).mpr ⟨k, hpos, .inl (by rw [hfirst hchain]; omega)⟩
    · exact (released_barrier hchain hdag).mpr (.inl (mem_of_getElem? hpos))

/-- What holds of every workflow that has not ended. -/
def Going (g : Graph) (batches : List (List Intent)) : Prop :=
  g.state.terminal = false → Afoot g batches.flatten ∧ Outstanding g batches.flatten

lemma Outstanding.clone (h : Outstanding g emitted) : Outstanding g.clone emitted := by
  unfold Outstanding at h ⊢
  rwa [Graph.taskIds_of_frame g.frame_clone]

lemma Going.clone (h : Going g batches) :
    Going g.clone batches := fun hopen => ⟨(h hopen).1.clone, (h hopen).2.clone⟩

lemma Begins.going (hids : StableIds codec) {w : Workflow} (h : Begins codec c w) :
    Going w.graph w.batches := by
  cases h with
  | @advanced g env b r hwf hfresh hempty hadvance =>
    refine Going.clone (g := r.1) fun hnext => ?_
    obtain ⟨within, hturn, heq⟩ := turn_of_advance hadvance
    have hlasting : Lasting { g with cancelRequested := b } :=
      Graph.Untouched.lasting ⟨hfresh.members, hfresh.state, hfresh.callbackClaimed,
        hfresh.abortFailure, hwf.callback_ne⟩
    have hafoot : Afoot { g with cancelRequested := b } [] := by
      have hfresh' := @afoot_of_fresh g [] hfresh fun t =>
        iff_of_false (not_released_of_fresh hfresh hempty t) (by simp [HandedOut])
      exact ⟨hfresh'.released, fun _ habort => hfresh'.inTurn hfresh.cancelRequested habort,
        hfresh'.chain, hfresh'.chord, hfresh'.dispatched, hfresh'.claimed⟩
    have hopen : g.state.terminal = false := by rw [hfresh.state]; rfl
    have hnone : replacementCompletionIntents codec r.1 = [] := by
      unfold replacementCompletionIntents
      rw [if_pos (.inr (by rw [hnext]; rfl))]
    have hstep := hafoot.turn hids (ledger_of_fresh hwf hfresh b) hlasting
      (hlasting.advance hadvance) hopen hturn hnext
    rw [hnone, append_nil] at heq
    rw [← Workflow.emitted, createGraph_emitted, heq]
    exact hstep
  | @dispatched g hwf hfresh hkind hchildren =>
    refine Going.clone (g := g) fun _ => ?_
    rw [← Workflow.emitted, createGraph_emitted]
    have hafoot : Afoot g (flatIntents codec g) :=
      afoot_of_fresh hfresh (handedOut_flatIntents hfresh hkind)
    refine ⟨hafoot, ?_⟩
    obtain ⟨child, hchild⟩ := exists_mem_of_ne_nil _ hchildren
    rcases hlist : g.children with _ | ⟨first, rest⟩
    · exact absurd hlist hchildren
    · have hfirst : g.childIds[0]? = some first.id := by
        rw [Graph.childIds, hlist]
        rfl
      have hreleased : Released g first.id := by
        by_cases hchain : g.kind = .chain
        · exact (released_chain hchain).mpr ⟨0, hfirst, .inl (Nat.zero_le _)⟩
        · exact (released_barrier hchain hkind).mpr (.inl (mem_of_getElem? hfirst))
      exact ⟨first.id, Graph.child_mem_taskIds (mem_of_getElem? hfirst),
        by rw [Graph.done, hfresh.members]; rfl, hafoot.released _ hreleased⟩

/-- **Workflows wait for tasks.** From every workflow that a client or a relay creates, in every run
that records completions in turn, a workflow that has not ended has a task that was published, failed
or canceled and is not recorded. -/
theorem waits_for_a_task (hids : StableIds codec) {w₀ : Workflow} (hstart : Started codec c w₀)
    (store : FlowStore) {w : Workflow} (hreach : ReachesWhile codec c store InTurn w₀ w)
    (hopen : w.graph.state.terminal = false) : Outstanding w.graph w.emitted := by
  have hbegins := hstart.begins hids
  have hgoing : Going w.graph w.batches := by
    refine hreach.invariant hbegins.clone_eq (hbegins.going hids) ?_ ?_ ?_
    · intro g batches op env g' next intents hreach _ hgoing hop hprepared hadvance hnext
      have hledger := (hreach.books hids hbegins).1.prepared hprepared
      have hlasting := (hreach.lasting hstart.origin).prepared hprepared
      obtain ⟨within, hturn, hintents⟩ := turn_of_advance hadvance
      have hopen : g'.state.terminal = false := by
        by_contra hended
        have := (hturn.onward hledger.wellFormed).terminal (by simpa using hended)
        rw [hnext] at this
        cases this
      have hbefore : g.state.terminal = false := by
        cases hprepared <;> exact hopen
      have hnone : replacementCompletionIntents codec next = [] := by
        unfold replacementCompletionIntents
        rw [if_pos (.inr (by rw [hnext]; rfl))]
      rw [hnone, append_nil] at hintents
      rw [flatten_concat, hintents]
      exact ((hgoing hbefore).1.prepared hop hprepared).turn hids hledger hlasting
        (hlasting.advance hadvance) hopen hturn hnext
    · intro g batches n hgoing hopen
      obtain ⟨hafoot, houtstanding⟩ := hgoing hopen
      refine ⟨⟨fun t ht => hafoot.released t ?_, fun hcancel habort t ht => ?_, hafoot.chain,
        hafoot.chord, hafoot.dispatched, hafoot.claimed⟩, houtstanding⟩
      · exact ht
      · exact hafoot.inTurn hcancel habort t ht
    · intro g batches hgoing
      exact hgoing.clone
  exact (hgoing hopen).2

/-- A chain of two tasks whose second task is recorded first: when the first one succeeds, everything
is recorded, the chain has not ended and nothing is left to wait for. -/
theorem chain_out_of_turn_stalls :
    let canvas : Canvas := { kind := .chain, signatures := [sampleJob, sampleJob] }
    let w := sampleRun (fun _ => some 4) canvas
      [.recordMember (sampleCompletion "child-1" .succeeded (some (.str "two"))),
        .recordMember (sampleCompletion "child-0" .succeeded (some (.str "one")))]
    (sampleApply (fun _ => some 4) canvas).isOk = true ∧ w.graph.state = .running ∧
      ¬ Outstanding w.graph w.emitted ∧ ∀ t ∈ w.graph.taskIds, w.graph.done t = true := by
  decide +kernel

/-- A chain of two tasks whose first one has succeeded waits for the second one. -/
theorem chain_waits_for_second :
    let canvas : Canvas := { kind := .chain, signatures := [sampleJob, sampleJob] }
    let w := sampleRun (fun _ => some 4) canvas
      [.recordMember (sampleCompletion "child-0" .succeeded (some (.str "one")))]
    w.graph.state.terminal = false ∧ Outstanding w.graph w.emitted := by
  intro canvas w
  have hopen : w.graph.state.terminal = false := by decide +kernel
  have hstart := @sampleStart_started (fun _ => some 4) canvas (by decide +kernel)
  have hreach : ReachesWhile (sampleCodec fun _ => some 4) sampleClient .memory InTurn
      (sampleStart (fun _ => some 4) canvas) w := by
    refine @ReachesWhile.sampleStep _ canvas _ _ [] _ .refl fun m hm _ => ?_
    obtain rfl := FlowOp.recordMember.inj hm
    decide +kernel
  exact ⟨hopen, waits_for_a_task (sampleCodec_stableIds _) hstart .memory hreach hopen⟩

end Gogo.Async

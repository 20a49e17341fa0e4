import Gogo.Async.Transition

/-!
# Tasks and the intents that a transition gives them

A task has one dispatch identifier. A transition uses it to publish the task or to fail it, and the
graph keeps track of the identifiers that are used up.

* `Released` — the identifier of a task is used up; `Graph.dependsOn` — what a task waits for.
* `Deals` — every dispatch of a transition is for a task whose identifier was free, or repeats what
  an aborted chain said before; what is published has had its dependencies succeed.
* `Batch`, `Turn.batch` — the intents of a transition: cancellations, dispatches, unpins, each with
  an identifier of its own.
-/

namespace Gogo.Async

open List Gogo.Lib

/-! ## Tasks that are dealt with -/

/-- The dispatch identifier of a task is used up: it was dispatched, or failed instead. -/
def Released (g : Graph) (t : String) : Prop :=
  match g.kind with
  | .chain => ∃ k, g.childIds[k]? = some t ∧ (k ≤ g.next ∨ g.abortFailure.isSome)
  | .dag => ∃ node ∈ g.plan, node.id = t ∧ node.kind = .task ∧ node.dispatched = true
  | _ => t ∈ g.childIds ∨ (t = g.callbackId ∧ g.callbackClaimed = true)

/-- The tasks that a task waits for: the one before it in a chain, all members for the callback of a
chord, and what its node names in a compiled graph. -/
def Graph.dependsOn (g : Graph) (t : String) : List String :=
  match g.kind with
  | .chain => ((g.childIds.zip g.childIds.tail).filter fun p => p.2 == t).map Prod.fst
  | .chord => if t = g.callbackId then g.childIds else []
  | .dag => (g.plan.filter fun node => node.id == t).flatMap fun node =>
    node.dependencies ++ node.waitFor
  | .group => []

section Released

variable {g : Graph} {t : String}

/-- A chain has released its tasks up to `next`, and all of them once it is aborted. -/
lemma released_chain (hkind : g.kind = .chain) :
    Released g t ↔ ∃ k, g.childIds[k]? = some t ∧ (k ≤ g.next ∨ g.abortFailure.isSome) := by
  simp only [Released, hkind]

/-- A compiled graph has released the tasks whose nodes are dispatched. -/
lemma released_dag (hkind : g.kind = .dag) :
    Released g t ↔ ∃ node ∈ g.plan, node.id = t ∧ node.kind = .task ∧ node.dispatched = true := by
  simp only [Released, hkind]

/-- A group or chord has released its children, and the callback once it is claimed. -/
lemma released_barrier (hchain : g.kind ≠ .chain) (hdag : g.kind ≠ .dag) :
    Released g t ↔ t ∈ g.childIds ∨ (t = g.callbackId ∧ g.callbackClaimed = true) := by
  rcases hkind : g.kind with _ | _ | _ | _
  · exact absurd hkind hchain
  · simp only [Released, hkind]
  · simp only [Released, hkind]
  · exact absurd hkind hdag

@[simp] lemma released_clone : Released g.clone t ↔ Released g t := by
  rcases hkind : g.kind with _ | _ | _ | _ <;>
    simp [Released, hkind, Graph.clone, Graph.childIds, Function.comp_def, CanvasNode.clone]

@[simp] lemma Graph.dependsOn_clone : g.clone.dependsOn t = g.dependsOn t := by
  rcases hkind : g.kind with _ | _ | _ | _ <;>
    simp [Graph.dependsOn, hkind, Graph.clone, Graph.childIds, Function.comp_def, CanvasNode.clone,
      filter_map, flatMap_map]

end Released

section Deals

variable (codec : Codec)

/-- The identifier under which a task is dispatched. -/
def dispatchId (source t : String) : String := codec.stableId source ("dispatch-" ++ t)

/-- An intent that dispatches a task or fails it instead. -/
structure Dispatches (source : String) (e : Envelope) (i : Intent) : Prop where
  id : i.id = dispatchId codec source e.id
  source : i.sourceId = source
  envelope : i.envelope = some e
  kind : i.kind = .publish ∨ i.kind = .fail

/-- An aborted chain repeats the failure of a task that it has not dispatched. -/
def AbortedAgain (g : Graph) (e : Envelope) (i : Intent) : Prop :=
  g.kind = .chain ∧ g.abortFailure.isSome ∧
    ∃ k, g.children[k]? = some e ∧ g.next < k ∧ i = abortIntent codec g.id workflowSize e

/-- What a transition does with the dispatch identifiers of its tasks. -/
structure Deals (g next : Graph) (dispatched : List Intent) : Prop where
  each : ∀ i ∈ dispatched, ∃ e, Dispatches codec g.id e i ∧ Released next e.id ∧
    (¬ Released g e.id ∨ AbortedAgain codec g e i)
  published : ∀ i ∈ dispatched, i.kind = .publish → ∀ e, i.envelope = some e →
    ¬ Released g e.id ∧ ∀ d ∈ g.dependsOn e.id, next.stateOf d = some .succeeded
  nodup : (dispatched.map Intent.id).Nodup
  kept : ∀ t, Released g t → Released next t

variable {codec} {c : Client} {env : Env}

/-- A dispatch intent publishes its task. -/
lemma dispatchIntent_dispatches (source : String) (e : Envelope) :
    Dispatches codec source e (dispatchIntent codec source e) := ⟨rfl, rfl, rfl, .inl rfl⟩

/-- It may fail the task instead. -/
lemma failIntent_dispatches (source : String) (e : Envelope) :
    Dispatches codec source e (failIntent codec source e) := ⟨rfl, rfl, rfl, .inr rfl⟩

lemma abortIntent_dispatches (source : String) (f : Failure) (e : Envelope) :
    Dispatches codec source e (abortIntent codec source f e) := ⟨rfl, rfl, rfl, .inr rfl⟩

/-- A node that is settled is published, or failed with a reason. -/
lemma settleIntent_dispatches (source : String) (e : Envelope) (failure : Option Failure) :
    Dispatches codec source e (settleIntent codec source e failure) := by
  rcases failure with _ | f
  · exact dispatchIntent_dispatches source e
  · exact ⟨rfl, rfl, rfl, .inr rfl⟩

variable {g next g' : Graph} {t : String} {k i : ℕ} {child e : Envelope} {intents : List Intent}
  {node : CanvasNode}

/-- A transition that deals out nothing keeps what is released. -/
lemma Deals.nil (h : ∀ t, Released g t → Released next t) : Deals codec g next [] :=
  ⟨by simp, by simp, nodup_nil, h⟩

/-- What deals with a copy deals with the graph, unless it aborts the graph again. -/
lemma Deals.of_clone {dispatched : List Intent} (h : Deals codec g.clone next dispatched)
    (hfresh : ∀ e i, ¬ AbortedAgain codec g.clone e i) : Deals codec g next dispatched where
  each i hi := by
    obtain ⟨e, he, hnext, hbefore | hagain⟩ := h.each i hi
    · exact ⟨e, he, hnext, .inl fun hr => hbefore (released_clone.mpr hr)⟩
    · exact absurd hagain (hfresh e i)
  published i hi hkind e he := by
    obtain ⟨hbefore, hdeps⟩ := h.published i hi hkind e he
    exact ⟨fun hr => hbefore (released_clone.mpr hr), fun d hd =>
      hdeps d (by rwa [Graph.dependsOn_clone])⟩
  nodup := h.nodup
  kept t ht := h.kept t (released_clone.mpr ht)

/-- The identifier of a dispatch determines the task. -/
lemma dispatchId_inj (hids : StableIds codec) {source t' : String}
    (h : dispatchId codec source t = dispatchId codec source t') : t = t' :=
  (String.append_right_inj _).mp (hids _ _ _ _ h).2

/-! ### Flat graphs -/

/-- No two children have the same identifier. -/
lemma Graph.WellFormed.childIds_inj (hg : g.WellFormed) {l : ℕ} (hk : g.childIds[k]? = some t)
    (hl : g.childIds[l]? = some t) : k = l := by
  obtain ⟨hlt, -⟩ := List.getElem?_eq_some_iff.mp hk
  exact (getElem?_inj hlt hg.nodup_children).mp (hk.trans hl.symm)

lemma Graph.childIds_getElem? (h : g.children[k]? = some child) :
    g.childIds[k]? = some child.id := by
  rw [Graph.childIds, getElem?_map, h]
  rfl

/-- A chain never goes back. -/
lemma Ends.next_le {next : ℕ} {state : State} {output : RawMessage} {failure : Option Failure}
    (h : Ends codec c env g next state output failure) : g.next ≤ next := by
  cases h <;> omega

/-- The predecessor of a chain task is the one that stands before it. -/
lemma Graph.WellFormed.dependsOn_chain (hg : g.WellFormed) (hkind : g.kind = .chain) {d : String}
    (hk : g.childIds[k + 1]? = some t) (hd : d ∈ g.dependsOn t) : g.childIds[k]? = some d := by
  simp only [Graph.dependsOn, hkind, mem_map, mem_filter, beq_iff_eq] at hd
  obtain ⟨⟨a, b⟩, ⟨hmem, rfl⟩, rfl⟩ := hd
  obtain ⟨j, hj⟩ := mem_iff_getElem?.mp hmem
  rw [getElem?_zip_eq_some] at hj
  obtain ⟨ha, hb⟩ := hj
  rw [getElem?_tail] at hb
  obtain rfl : j = k := by
    have := hg.childIds_inj hk hb
    omega
  exact ha

/-- The tasks of a chain behind `next` are not released. -/
lemma not_released_successor (hg : g.WellFormed) (hkind : g.kind = .chain)
    (habort : g.abortFailure = none) (hk : g.childIds[k]? = some t) (hlt : g.next < k) :
    ¬ Released g t := by
  rw [released_chain hkind]
  rintro ⟨l, hl, hle | hsome⟩
  · have := hg.childIds_inj hk hl
    omega
  · rw [habort] at hsome
    cases hsome

/-- A flat graph that moves on keeps what is used up. -/
lemma Released.of_frame (h : Released g t) (hframe : next.frame = g.frame) (hdag : g.kind ≠ .dag)
    (hnext : g.next ≤ next.next) (habort : g.abortFailure.isSome → next.abortFailure.isSome)
    (hclaimed : g.callbackClaimed = true → next.callbackClaimed = true) : Released next t := by
  have hkind := Graph.kind_of_frame hframe
  by_cases hchain : g.kind = .chain
  · rw [released_chain hchain] at h
    rw [released_chain (hkind.trans hchain), Graph.childIds_of_frame hframe]
    obtain ⟨k, hk, hused⟩ := h
    exact ⟨k, hk, hused.imp (·.trans hnext) habort⟩
  · rw [released_barrier hchain hdag] at h
    rw [released_barrier (hkind ▸ hchain) (hkind ▸ hdag), Graph.childIds_of_frame hframe,
      Graph.callbackId_of_frame hframe]
    exact h.imp_right (And.imp_right hclaimed)

/-- One task whose dependencies succeeded. -/
lemma Deals.single {i : Intent} (hi : Dispatches codec g.id e i) (hnext : Released next e.id)
    (hfresh : ¬ Released g e.id)
    (hdeps : ∀ d ∈ g.dependsOn e.id, next.stateOf d = some .succeeded)
    (hkept : ∀ t, Released g t → Released next t) : Deals codec g next [i] := by
  refine ⟨?_, ?_, nodup_singleton _, hkept⟩
  · rintro j hj
    obtain rfl := mem_singleton.mp hj
    exact ⟨e, hi, hnext, .inl hfresh⟩
  · rintro j hj - e' he'
    obtain rfl := mem_singleton.mp hj
    obtain rfl := Option.some.inj (hi.envelope.symm.trans he')
    exact ⟨hfresh, hdeps⟩

/-- A chain moves to its next task. -/
lemma deals_successor {m : Completion} {signature : Signature} {i : Intent}
    {children : List Envelope} (hg : g.WellFormed) (habort : g.abortFailure = none)
    (hfollows : Follows g m child signature)
    (hframe : { g with next := g.next + 1, children := children }.frame = g.frame)
    (hi : Dispatches codec g.id e i) (he : e.id = child.id) :
    Deals codec g { g with next := g.next + 1, children := children } [i] := by
  have hchild : g.childIds[g.next + 1]? = some e.id := by
    rw [he]
    exact Graph.childIds_getElem? hfollows.child
  refine .single hi ?_ ?_ (fun d hd => ?_) fun t ht => ?_
  · rw [released_chain (by exact hfollows.kind), Graph.childIds_of_frame hframe]
    exact ⟨g.next + 1, hchild, .inl le_rfl⟩
  · exact not_released_successor hg hfollows.kind habort hchild (Nat.lt_succ_self _)
  · obtain ⟨current, hcurrent, hdone⟩ := hfollows.current
    have hd := hg.dependsOn_chain hfollows.kind hchild hd
    rw [Graph.childIds_getElem? hcurrent] at hd
    cases hd
    rw [Graph.stateOf, hdone, Option.map_some, hfollows.succeeded]
  · exact ht.of_frame hframe (by simp [hfollows.kind]) (Nat.le_succ _) id id

/-- The callback is prepared under its reserved identifier. -/
lemma prepareCallback_id {callback : Signature} {combined : Json}
    (h : prepareCallback codec c env g callback combined = .ok e) (hid : g.callbackId ≠ "") :
    e.id = g.callbackId := by
  unfold prepareCallback at h
  obtain ⟨s, -, h⟩ := bind_eq_ok.mp h
  obtain ⟨e', he', h⟩ := bind_eq_ok.mp h
  cases h
  have hprepared : e'.id = g.callbackId := prepare_id he' hid
  exact hprepared

/-- A flat graph deals out at most one task, or ends and gives up its pins. -/
lemma FlatTurn.deals (hg : g.WellFormed) (hdag : g.kind ≠ .dag) (habort : g.abortFailure = none)
    (h : FlatTurn codec c env g next intents) :
    ∃ (dispatched : List Intent) (unpinned : List String), Deals codec g next dispatched ∧
      unpinned.Nodup ∧ intents = dispatched ++ unpinned.map (unpinIntent codec g.id) := by
  cases h with
  | waits _ => exact ⟨[], [], .nil fun _ h => h, nodup_nil, rfl⟩
  | @ends next state output failure h =>
    refine ⟨[], g.members.keys, .nil fun t ht => ?_, g.members.nodup_keys, rfl⟩
    exact ht.of_frame rfl hdag h.next_le id id
  | @refuses m child signature s d hfollows _ _ _ =>
    refine ⟨[failIntent codec g.id child], [], ?_, nodup_nil, rfl⟩
    exact deals_successor hg habort hfollows rfl (failIntent_dispatches _ _) rfl
  | @publishes m child signature s d hfollows _ _ _ _ =>
    refine ⟨[dispatchIntent codec g.id { child with args := s.args }], [], ?_, nodup_nil, rfl⟩
    refine deals_successor hg habort hfollows ?_ (dispatchIntent_dispatches _ _) rfl
    simp only [Graph.frame]
    rw [map_set_of_eq hfollows.child (Envelope.skeleton_args _ _)]
  | @claims members callback e hkind hclaimed hrecorded hstate hcallback hprepare =>
    have hsome : g.callback.isSome := by rw [hcallback]; rfl
    have he := prepareCallback_id hprepare (hg.callback_ne hsome)
    have hchain : g.kind ≠ .chain := by simp [hkind]
    refine ⟨[dispatchIntent codec g.id e], [], ?_, nodup_nil, rfl⟩
    refine .single (dispatchIntent_dispatches _ _) ?_ ?_ (fun d hd => ?_) fun t ht => ?_
    · exact (released_barrier (by exact hchain) (by exact hdag)).mpr (.inr ⟨he, rfl⟩)
    · rw [released_barrier hchain hdag, he]
      rintro (hmem | ⟨-, hclaimed'⟩)
      · exact hg.callback_not_mem hsome hmem
      · rw [hclaimed] at hclaimed'
        cases hclaimed'
    · simp only [Graph.dependsOn, hkind, he, if_true, Graph.childIds] at hd
      obtain ⟨child, hchild, rfl⟩ := mem_map.mp hd
      obtain ⟨m, hm, hget⟩ := exists_of_forall₂_left hrecorded hchild
      rw [Graph.stateOf, hget, Option.map_some, hstate m hm]
    · exact ht.of_frame rfl hdag le_rfl id fun _ => rfl

/-! ### Compiled graphs -/

/-- The plan of `g'` is that of `g`, up to tasks that are dispatched since. -/
def PlanGrows (g g' : Graph) : Prop :=
  List.Forall₂ (fun n n' => n' = n ∨ n' = { n with dispatched := true }) g.plan g'.plan

/-- A node is as it was, or dispatched now. -/
lemma PlanGrows.of_getElem? (h : PlanGrows g g') {n' : CanvasNode} (hn' : g'.plan[i]? = some n') :
    ∃ n, g.plan[i]? = some n ∧ (n' = n ∨ n' = { n with dispatched := true }) := by
  have h := forall₂_iff_get.mp h
  obtain ⟨hi, rfl⟩ := List.getElem?_eq_some_iff.mp hn'
  have hi' : i < g.plan.length := h.1 ▸ hi
  exact ⟨g.plan[i], getElem?_eq_getElem hi', h.2 i hi' hi⟩

/-- What is released stays released. -/
lemma PlanGrows.released (h : PlanGrows g g') (hkind : g.kind = .dag) (hkind' : g'.kind = .dag)
    (ht : Released g t) : Released g' t := by
  rw [released_dag hkind] at ht
  rw [released_dag hkind']
  obtain ⟨n, hn, hid, htask, hdispatched⟩ := ht
  obtain ⟨n', hn', rfl | rfl⟩ := exists_of_forall₂_left h hn
  · exact ⟨_, hn', hid, htask, hdispatched⟩
  · exact ⟨_, hn', hid, htask, rfl⟩

/-- Marking tasks as dispatched only adds to them. -/
lemma planGrows_dispatchTasks (g : Graph) (test : CanvasNode → Bool) :
    PlanGrows g { g with plan := dispatchTasks g test } := by
  unfold PlanGrows dispatchTasks
  rw [forall₂_map_right_iff, forall₂_same]
  intro n _
  split_ifs
  · exact .inr rfl
  · exact .inl rfl

/-- A cancellation only adds to the dispatched tasks. -/
lemma planGrows_cancelPlan {start : Graph} {canceled : List Intent}
    (h : cancelPlan codec g = .ok (start, canceled)) : PlanGrows g start := by
  rcases cancelPlan_spec h with ⟨-, rfl, -⟩ | ⟨-, rfl, -⟩
  · exact forall₂_same.mpr fun _ _ => .inl rfl
  · exact planGrows_dispatchTasks g _

/-- Passes over the plan only add to the dispatched tasks. -/
lemma Since.planGrows {ps : List ℕ} {settled : List Intent} (h : Since codec c g g' ps settled) :
    PlanGrows g g' := by
  have hlength : g.plan.length = g'.plan.length := by
    have := congrArg List.length (Graph.plan_of_frame h.frame)
    simpa using this.symm
  refine forall₂_iff_get.mpr ⟨hlength, fun i hi hi' => ?_⟩
  have hplan := h.plan i
  rw [getElem?_eq_getElem hi, getElem?_eq_getElem hi', Option.map_some,
    Option.some.injEq] at hplan
  simp only [get_eq_getElem, hplan]
  split_ifs
  · exact .inr rfl
  · exact .inl rfl

/-- A node that is not dispatched has not used its identifier. -/
lemma not_released_of_node (hg : g.WellFormed) (hkind : g.kind = .dag)
    (hnode : g.plan[i]? = some node) (hundispatched : node.dispatched = false) :
    ¬ Released g node.id := by
  rw [released_dag hkind]
  rintro ⟨n, hn, hid, -, hdispatched⟩
  obtain rfl := inj_on_of_nodup_map hg.nodup_plan hn (mem_of_getElem? hnode) hid
  rw [hundispatched] at hdispatched
  cases hdispatched

/-- What a task of a compiled graph waits for is what its node names. -/
lemma Graph.WellFormed.dependsOn_dag (hg : g.WellFormed) (hkind : g.kind = .dag)
    (hnode : g.plan[i]? = some node) {d : String} (hd : d ∈ g.dependsOn node.id) :
    d ∈ node.dependencies ++ node.waitFor := by
  simp only [Graph.dependsOn, hkind] at hd
  obtain ⟨n, hn, hmem⟩ := mem_flatMap.mp hd
  obtain ⟨hn, hid⟩ := mem_filter.mp hn
  obtain rfl := inj_on_of_nodup_map hg.nodup_plan hn (mem_of_getElem? hnode) (by simpa using hid)
  exact hmem

/-- What one visit that settled a task says about it. -/
structure SettledTask (codec : Codec) (g g' : Graph) (i : ℕ) (node : CanvasNode) (e : Envelope)
    (intent : Intent) : Prop where
  at_position : g.plan[i]? = some node
  undispatched : node.dispatched = false
  task : node.kind = .task
  id : e.id = node.id
  dispatches : Dispatches codec g.id e intent
  succeeded : intent.kind = .publish →
    ∀ d ∈ node.dependencies ++ node.waitFor, g'.stateOf d = some .succeeded

/-- A position that is settled is a task that was not dispatched before. -/
lemma Settles.task {intent : Intent} (h : Settles codec c g g' i intent) :
    ∃ node e, SettledTask codec g g' i node e intent := by
  obtain ⟨node, signature, index, child, failed, outputs, bytes, e, failure, bytes', hnode, hkind,
    hdispatched, hundone, hsignature, hchild₁, hgather, hsettle, hchild₂, rfl⟩ := h
  refine ⟨node, e, hnode, hdispatched, hkind, id_of_child? hchild₂, settleIntent_dispatches _ _ _,
    fun hpublish d hd => ?_⟩
  have hfailed : failed = false := by
    by_contra hne
    have := (settleTask_spec hsettle).2 (by simpa using hne)
    rw [this] at hpublish
    cases hpublish
  rw [hfailed] at hgather
  obtain ⟨m, hm, hstate⟩ := succeeded_of_gather hgather d hd
  rw [Graph.stateOf, hm, Option.map_some, hstate]

/-- The end of a nested graph leaves its plan as it is. -/
lemma concludeNested_plan (g : Graph) : (concludeNested codec g).1.plan = g.plan := by
  rw [concludeNested_graph]

/-- The end of a nested graph leaves the states of its tasks as they are. -/
lemma concludeNested_stateOf (g : Graph) (t : String) :
    (concludeNested codec g).1.stateOf t = g.stateOf t := by
  rw [concludeNested_graph]
  rfl

/-- A nested graph cancels first, deals out what its passes have settled, and concludes. -/
lemma NestedTurn.deals (hids : StableIds codec) (hg : g.WellFormed) (hkind : g.kind = .dag)
    (h : NestedTurn codec c g next intents) :
    ∃ start canceled dispatched unpins, cancelPlan codec g = .ok (start, canceled) ∧
      Deals codec g next dispatched ∧ intents = canceled ++ dispatched ++ unpins ∧
      ∃ st, Onward start st ∧ next = (concludeNested codec st).1 ∧
        unpins = (concludeNested codec st).2 := by
  obtain ⟨start, canceled, st, ps, settled, hcancel, hsince, -, rfl, rfl⟩ := h
  refine ⟨start, canceled, settled, _, hcancel, ?_, rfl, st, hsince.onward, rfl, rfl⟩
  have hstart := planGrows_cancelPlan hcancel
  have hgrows := hsince.planGrows
  have hframe := (onward_cancelPlan hcancel).frame
  have hwf : start.WellFormed := hg.of_frame hframe
  have hid : start.id = g.id := Graph.id_of_frame hframe
  have hkind₁ : start.kind = .dag := (Graph.kind_of_frame hframe).trans hkind
  have hkind₂ : st.kind = .dag := (Graph.kind_of_frame hsince.frame).trans hkind₁
  have hkind₃ : (concludeNested codec st).1.kind = .dag := by
    rw [concludeNested_graph]
    exact hkind₂
  -- The node of a settled task, in the graph before the cancellation.
  have hbefore : ∀ {i : ℕ} {node : CanvasNode}, start.plan[i]? = some node → node.dispatched = false →
      g.plan[i]? = some node := by
    intro i node hnode hundispatched
    obtain ⟨n, hn, rfl | rfl⟩ := hstart.of_getElem? hnode
    · exact hn
    · cases hundispatched
  have htask : ∀ i ∈ settled, ∃ p ∈ ps, ∃ node e, SettledTask codec start st p node e i := by
    intro i hi
    obtain ⟨p, hp, hs⟩ := exists_of_forall₂_right hsince.settles hi
    exact ⟨p, hp, hs.task⟩
  refine ⟨?_, ?_, ?_, ?_⟩
  · intro i hi
    obtain ⟨p, hp, node, e, hs⟩ := htask i hi
    refine ⟨e, by rw [← hid]; exact hs.dispatches, ?_, .inl ?_⟩
    · rw [released_dag hkind₃, concludeNested_plan, hs.id]
      refine ⟨{ node with dispatched := true }, mem_of_getElem? (i := p) ?_, rfl, hs.task,
        rfl⟩
      rw [hsince.plan p, hs.at_position, Option.map_some, if_pos hp]
    · rw [hs.id]
      exact not_released_of_node hg hkind (hbefore hs.at_position hs.undispatched) hs.undispatched
  · intro i hi hpublish e he
    obtain ⟨p, hp, node, e', hs⟩ := htask i hi
    obtain rfl := Option.some.inj (he.symm.trans hs.dispatches.envelope)
    have hnode := hbefore hs.at_position hs.undispatched
    refine ⟨?_, fun d hd => ?_⟩
    · rw [hs.id]
      exact not_released_of_node hg hkind hnode hs.undispatched
    · rw [hs.id] at hd
      rw [concludeNested_stateOf]
      exact hs.succeeded hpublish d (hg.dependsOn_dag hkind hnode hd)
  · refine nodup_map_of_forall₂ hsince.settles hsince.nodup ?_
    intro p i p' i' hs hs' heq
    obtain ⟨node, e, hs⟩ := hs.task
    obtain ⟨node', e', hs'⟩ := hs'.task
    rw [hs.dispatches.id, hs'.dispatches.id] at heq
    have hid := dispatchId_inj hids heq
    rw [hs.id, hs'.id] at hid
    exact hwf.plan_inj hs.at_position hs'.at_position hid
  · intro t ht
    have hst := hgrows.released hkind₁ hkind₂ (hstart.released hkind hkind₁ ht)
    rw [released_dag hkind₂] at hst
    rw [released_dag hkind₃, concludeNested_plan]
    exact hst

/-! ### Aborts -/

/-- The selected tasks are children with nodes that pass the test. -/
lemma mem_selectTasks {test : CanvasNode → Bool} (h : (e, node) ∈ selectTasks g test) :
    (∃ i : ℕ, g.plan[i]? = some node) ∧ test node = true ∧ e.id = node.id ∧ e ∈ g.children := by
  obtain ⟨n, hn, heq⟩ := mem_filterMap.mp h
  obtain ⟨⟨index, child⟩, hchild, heq⟩ := Option.map_eq_some_iff.mp heq
  obtain ⟨rfl, rfl⟩ := Prod.mk.inj heq
  obtain ⟨hmem, htest⟩ := mem_filter.mp hn
  exact ⟨mem_iff_getElem?.mp hmem, htest, id_of_child? hchild, mem_of_child? hchild⟩

/-- Different selected tasks have different identifiers. -/
lemma nodup_selectTasks (hg : g.WellFormed) (test : CanvasNode → Bool) :
    ((selectTasks g test).map fun p => p.1.id).Nodup := by
  have hids : ((selectTasks g test).map fun p => p.1.id) =
      ((g.plan.filter test).map CanvasNode.id).filterMap fun t =>
        (g.child? t).map fun p => p.2.id := by
    rw [selectTasks, map_filterMap, filterMap_map]
    simp only [Option.map_map, Function.comp_def]
  rw [hids]
  refine Nodup.filterMap ?_ (hg.nodup_plan.sublist (filter_sublist.map _))
  intro t t' id ht ht'
  obtain ⟨p, hp, rfl⟩ := Option.map_eq_some_iff.mp ht
  obtain ⟨p', hp', hid⟩ := Option.map_eq_some_iff.mp ht'
  rw [← id_of_child? hp, ← id_of_child? hp', hid]

/-- An abort fails no task of a chain twice. -/
lemma nodup_undispatchedChildren (hg : g.WellFormed) :
    ((undispatchedChildren g).map Envelope.id).Nodup := by
  have hsub : (undispatchedChildren g).Sublist g.children := by
    have := (filter_sublist (p := fun p : Envelope × ℕ =>
      !g.done p.1.id && decide (g.next < p.2)) (l := g.children.zipIdx)).map Prod.fst
    rwa [zipIdx_map_fst] at this
  exact hg.nodup_children.sublist (hsub.map _)

/-- It fails the tasks behind `next` that are not done. -/
lemma mem_undispatchedChildren (h : e ∈ undispatchedChildren g) :
    ∃ k, g.children[k]? = some e ∧ g.next < k ∧ g.done e.id = false := by
  obtain ⟨⟨e', k⟩, hmem, rfl⟩ := mem_map.mp h
  obtain ⟨hmem, htest⟩ := mem_filter.mp hmem
  have hget := mem_zipIdx_iff_getElem?.mp hmem
  simp only [Bool.and_eq_true, Bool.not_eq_true', decide_eq_true_eq] at htest
  exact ⟨k, hget, htest.2, htest.1⟩

section AbortTurn

variable {g next : Graph} {f : Failure} {settled : List Intent}

/-- An abort of a flat graph takes nothing back. -/
lemma AbortTurn.released (h : AbortTurn codec { g with abortFailure := some f } f next settled)
    (hdag : g.kind ≠ .dag) (ht : Released g t) : Released next t :=
  ht.of_frame h.onward.frame hdag (by rw [h.graph]) (fun _ => by rw [h.graph]; rfl)
    (by rw [h.graph]; exact id)

/-- An aborted chain fails what it has not dispatched, every time it is aborted. -/
lemma AbortTurn.deals_chain (hids : StableIds codec) (hg : g.WellFormed) (hkind : g.kind = .chain)
    (hf : g.abortFailure.isSome → f = workflowSize)
    (h : AbortTurn codec { g with abortFailure := some f } f next settled) :
    Deals codec g next settled := by
  have hkind' : next.kind = .chain := by rw [h.graph]; exact hkind
  have hchildren : next.childIds = g.childIds := by rw [h.graph]; rfl
  have habort : next.abortFailure = some f := by rw [h.graph]
  have hsettled : settled = (undispatchedChildren g).map (abortIntent codec g.id f) :=
    h.chain hkind
  have htask : ∀ i ∈ settled, ∃ (e : Envelope) (k : ℕ), g.children[k]? = some e ∧ g.next < k ∧
      i = abortIntent codec g.id f e := by
    intro i hi
    rw [hsettled] at hi
    obtain ⟨e, he, rfl⟩ := mem_map.mp hi
    obtain ⟨k, hk, hlt, -⟩ := mem_undispatchedChildren he
    exact ⟨e, k, hk, hlt, rfl⟩
  refine ⟨?_, ?_, ?_, ?_⟩
  · intro i hi
    obtain ⟨e, k, hk, hlt, rfl⟩ := htask i hi
    have hid := Graph.childIds_getElem? hk
    refine ⟨e, abortIntent_dispatches _ _ _, ?_, ?_⟩
    · rw [released_chain hkind', hchildren, habort]
      exact ⟨k, hid, .inr rfl⟩
    · rcases hbefore : g.abortFailure with _ | f'
      · exact .inl (not_released_successor hg hkind hbefore hid hlt)
      · obtain rfl := hf (by rw [hbefore]; rfl)
        exact .inr ⟨hkind, by rw [hbefore]; rfl, k, hk, hlt, rfl⟩
  · intro i hi hpublish
    obtain ⟨e, k, hk, hlt, rfl⟩ := htask i hi
    cases hpublish
  · rw [hsettled, List.map_map]
    have hnodup := (nodup_undispatchedChildren hg).map (f := dispatchId codec g.id)
      fun _ _ heq => dispatchId_inj hids heq
    rwa [List.map_map] at hnodup
  · exact fun t ht => h.released (by rw [hkind]; nofun) ht

/-- An aborted group or chord fails no task. -/
lemma AbortTurn.deals_barrier (hchain : g.kind ≠ .chain) (hdag : g.kind ≠ .dag)
    (h : AbortTurn codec { g with abortFailure := some f } f next settled) :
    Deals codec g next settled := by
  rw [h.other hchain hdag]
  exact .nil fun t ht => h.released hdag ht

/-- An aborted plan fails the tasks that are not dispatched. -/
lemma AbortTurn.deals_dag (hids : StableIds codec) (hg : g.WellFormed) (hkind : g.kind = .dag)
    (h : AbortTurn codec { g with abortFailure := some f } f next settled) :
    Deals codec g next settled := by
  have hkind' : next.kind = .dag := by rw [h.graph]; exact hkind
  have hplan : next.plan = dispatchTasks g (undispatchedTask g) := (h.dag_spec hkind).1
  have hsettled : settled = (selectTasks g (undispatchedTask g)).map fun p =>
      abortIntent codec g.id f p.1 := (h.dag_spec hkind).2
  have htask : ∀ i ∈ settled, ∃ (e : Envelope) (node : CanvasNode) (k : ℕ),
      g.plan[k]? = some node ∧ undispatchedTask g node = true ∧ e.id = node.id ∧
      i = abortIntent codec g.id f e := by
    intro i hi
    rw [hsettled] at hi
    obtain ⟨⟨e, node⟩, hmem, rfl⟩ := mem_map.mp hi
    obtain ⟨⟨k, hk⟩, htest, hid, -⟩ := mem_selectTasks hmem
    exact ⟨e, node, k, hk, htest, hid, rfl⟩
  refine ⟨?_, ?_, ?_, ?_⟩
  · intro i hi
    obtain ⟨e, node, k, hk, htest, hid, rfl⟩ := htask i hi
    have hshape := htest
    simp only [undispatchedTask, waitingTask, Bool.and_eq_true, beq_iff_eq, Bool.not_eq_true']
      at hshape
    refine ⟨e, abortIntent_dispatches _ _ _, ?_, .inl ?_⟩
    · rw [released_dag hkind', hplan, hid]
      refine ⟨{ node with dispatched := true }, ?_, rfl, hshape.1.1, rfl⟩
      exact mem_map.mpr ⟨node, mem_of_getElem? hk, by rw [if_pos htest]⟩
    · rw [hid]
      exact not_released_of_node hg hkind hk hshape.2
  · intro i hi hpublish
    obtain ⟨e, node, k, -, -, -, rfl⟩ := htask i hi
    cases hpublish
  · rw [hsettled, List.map_map]
    have hnodup := (nodup_selectTasks hg (undispatchedTask g)).map (f := dispatchId codec g.id)
      fun _ _ heq => dispatchId_inj hids heq
    rw [List.map_map] at hnodup
    exact hnodup
  · intro t ht
    have hgrows := planGrows_dispatchTasks g (undispatchedTask g)
    refine PlanGrows.released ?_ hkind hkind' ht
    unfold PlanGrows at hgrows ⊢
    rw [hplan]
    exact hgrows

/-- **An abort deals with its tasks as every transition does.** -/
lemma AbortTurn.deals (hids : StableIds codec) (hg : g.WellFormed)
    (hf : g.abortFailure.isSome → f = workflowSize)
    (h : AbortTurn codec { g with abortFailure := some f } f next settled) :
    Deals codec g next settled := by
  by_cases hchain : g.kind = .chain
  · exact h.deals_chain hids hg hchain hf
  · by_cases hdag : g.kind = .dag
    · exact h.deals_dag hids hg hdag
    · exact h.deals_barrier hchain hdag

end AbortTurn

end Deals

/-! ## The intents of a transition -/

section Batch

variable (codec : Codec)

/-- The tasks whose pins an ended graph gives up. -/
def pins (g : Graph) : List String :=
  g.childIds.filter g.done ++ if g.callbackId ≠ "" ∧ g.done g.callbackId then [g.callbackId] else []

/-- The callback that was claimed is the one of the graph. -/
def Graph.CallbackMatches (g : Graph) : Prop :=
  ∀ e, g.callbackEnvelope = some e → e.id = g.callbackId ∧ g.callback.isSome

variable {g next : Graph} {intents : List Intent}

/-- The envelope of the callback survives a copy. -/
lemma Graph.CallbackMatches.clone (h : g.CallbackMatches) : g.clone.CallbackMatches := by
  intro e he
  obtain ⟨e', he', rfl⟩ := Option.map_eq_some_iff.mp he
  obtain ⟨hid, hsome⟩ := h e' he'
  refine ⟨hid, ?_⟩
  show (g.callback.map Signature.clone).isSome
  rwa [Option.isSome_map]

/-- The intents of a transition: tasks that are canceled, tasks that are dispatched, and pins that
are given up. -/
structure Batch (g next : Graph) (intents : List Intent) (canceled : List (Envelope × Bool))
    (dispatched : List Intent) (unpinned : List String) : Prop where
  eq : intents = cancellations codec g.id canceled ++ dispatched ++
    unpinned.map (unpinIntent codec g.id)
  nodup_canceled : (canceled.map fun p => p.1.id).Nodup
  cancels : canceled ≠ [] → g.cancelRequested = true
  deals : Deals codec g next dispatched
  nodup_unpinned : unpinned.Nodup

variable {codec} {c : Client} {env : Env}

/-- The pins that a graph gives up, one intent for each. -/
lemma graphUnpins_eq (g : Graph) :
    graphUnpins codec g = (pins g).map (unpinIntent codec g.id) := by
  unfold graphUnpins pins Graph.childIds
  rw [map_append, filter_map, List.map_map]
  congr 1
  split_ifs <;> rfl

/-- No pin is given up twice. -/
lemma nodup_pins (hg : g.WellFormed) : (pins g).Nodup := by
  unfold pins
  have hchildren := hg.nodup_children.filter g.done
  split_ifs with hcallback
  · rw [nodup_append]
    refine ⟨hchildren, nodup_singleton _, ?_⟩
    rintro a ha b hb rfl
    obtain rfl := mem_singleton.mp hb
    have hsome : g.callback.isSome := by
      by_contra hnone
      exact hcallback.1 (hg.callbackId_eq (by simpa using hnone))
    exact hg.callback_not_mem hsome (mem_of_mem_filter ha)
  · rwa [append_nil]

/-- The pins of an ended graph are those of the tasks that are done. -/
lemma mem_pins {t : String} :
    t ∈ pins g ↔ (t ∈ g.childIds ∨ (t = g.callbackId ∧ t ≠ "")) ∧ g.done t = true := by
  unfold pins
  rw [mem_append, mem_filter]
  constructor
  · rintro (⟨hmem, hdone⟩ | hmem)
    · exact ⟨.inl hmem, hdone⟩
    · split_ifs at hmem with hcallback
      · obtain rfl := mem_singleton.mp hmem
        exact ⟨.inr ⟨rfl, hcallback.1⟩, hcallback.2⟩
      · cases hmem
  · rintro ⟨hmem | ⟨rfl, hne⟩, hdone⟩
    · exact .inl ⟨hmem, hdone⟩
    · right
      rw [if_pos ⟨hne, hdone⟩]
      exact mem_singleton.mpr rfl

/-- A canceled graph waits for the children that are not done. -/
lemma waitingChildren_ids (g : Graph) :
    (waitingChildren g).map (fun p => p.1.id) = g.childIds.filter fun t => !g.done t := by
  have hids : ∀ l : List (Envelope × ℕ), (l.filter fun p => !g.done p.1.id).map (fun p => p.1.id) =
      (l.map fun p => p.1.id).filter fun t => !g.done t := by
    intro l
    rw [filter_map]
    rfl
  unfold waitingChildren Graph.childIds
  rw [List.map_map, Function.comp_def, hids]
  congr 1
  rw [show (fun p : Envelope × ℕ => p.1.id) = Envelope.id ∘ Prod.fst from rfl, ← List.map_map,
    zipIdx_map_fst]

/-- A canceled flat graph cancels what it waits for, or ends. -/
lemma CanceledTurn.batch (hg : g.WellFormed) (hmatches : g.CallbackMatches)
    (hcancel : g.cancelRequested = true) (hdag : g.kind ≠ .dag)
    (h : CanceledTurn codec g next intents) :
    ∃ canceled unpinned, Batch codec g next intents canceled [] unpinned := by
  have hwaiting : ((waitingChildren g).map fun p => p.1.id).Nodup := by
    rw [waitingChildren_ids]
    exact hg.nodup_children.filter _
  cases h with
  | @callback e hclaimed hundone he =>
    obtain ⟨hid, hsome⟩ := hmatches e he
    refine ⟨waitingChildren g ++ [(e, true)], [], by simp, ?_, fun _ => hcancel,
      .nil fun _ h => h, nodup_nil⟩
    rw [map_append, nodup_append]
    refine ⟨hwaiting, nodup_singleton _, ?_⟩
    rintro a ha b hb rfl
    obtain rfl := mem_singleton.mp hb
    rw [waitingChildren_ids] at ha
    have hmem : e.id ∈ g.childIds := mem_of_mem_filter ha
    rw [hid] at hmem
    exact hg.callback_not_mem hsome hmem
  | members _ _ =>
    exact ⟨waitingChildren g, [], by simp, hwaiting, fun _ => hcancel, .nil fun _ h => h,
      nodup_nil⟩
  | ends _ _ =>
    refine ⟨[], pins g, ?_, nodup_nil, by simp, .nil fun t ht => ?_, nodup_pins hg⟩
    · rw [graphUnpins_eq]
      rfl
    · exact ht.of_frame rfl hdag le_rfl id id

/-- The pins that a compiled graph gives up when it ends. -/
lemma concludeNested_unpins (g : Graph) :
    ∃ unpinned : List String, (concludeNested codec g).2 = unpinned.map (unpinIntent codec g.id) ∧
      unpinned.Sublist g.childIds := by
  unfold concludeNested
  split
  · exact ⟨[], rfl, nil_sublist _⟩
  · refine ⟨g.childIds.filter g.done, ?_, filter_sublist⟩
    rw [Graph.childIds, filter_map, List.map_map]
    rfl

/-- The intents of a nested graph, in three parts. -/
lemma NestedTurn.batch (hids : StableIds codec) (hg : g.WellFormed) (hkind : g.kind = .dag)
    (h : NestedTurn codec c g next intents) :
    ∃ canceled dispatched unpinned, Batch codec g next intents canceled dispatched unpinned := by
  obtain ⟨start, canceled, dispatched, unpins, hcancel, hdeals, rfl, st, hst, rfl, rfl⟩ :=
    h.deals hids hg hkind
  have hway := (onward_cancelPlan hcancel).trans hst
  have hwf := hg.of_frame hway.frame
  obtain ⟨unpinned, hunpinned, hsub⟩ := @concludeNested_unpins codec st
  rw [hunpinned, Graph.id_of_frame hway.frame]
  have hnodup := hwf.nodup_children.sublist hsub
  rcases cancelPlan_spec hcancel with ⟨-, -, rfl⟩ | ⟨hrequested, -, rfl⟩
  · exact ⟨[], dispatched, unpinned, rfl, nodup_nil, by simp, hdeals, hnodup⟩
  · refine ⟨(selectTasks g (waitingTask g)).map fun p => (p.1, p.2.dispatched), dispatched, unpinned,
      ?_, ?_, fun _ => hrequested, hdeals, hnodup⟩
    · simp only [cancellations, List.map_map, Function.comp_def]
    · rw [List.map_map]
      exact nodup_selectTasks hg _

/-- **The intents of a transition.** -/
theorem Turn.batch (hids : StableIds codec) (hg : g.WellFormed) (hmatches : g.CallbackMatches)
    (haborted : ∀ f, g.abortFailure = some f → f = workflowSize)
    (h : Turn codec c env g next intents) :
    ∃ canceled dispatched unpinned, Batch codec g next intents canceled dispatched unpinned := by
  have hagain : g.abortFailure = none → ∀ e i, ¬ AbortedAgain codec g.clone e i := by
    rintro hnone e i ⟨-, hsome, -⟩
    rw [Graph.clone_abortFailure, hnone] at hsome
    cases hsome
  cases h with
  | @aborts f next settled hcause h =>
    have hframe : next.frame = g.frame := h.onward.frame
    have hf : g.abortFailure.isSome → f = workflowSize := by
      intro hsome
      rcases hcause with ⟨hf, -⟩ | ⟨rfl, -⟩
      · exact haborted f hf
      · rfl
    refine ⟨[], settled, if abortFinished g then pins next else [], ?_, nodup_nil, by simp,
      h.deals hids hg hf, ?_⟩
    · rw [graphUnpins_eq, Graph.id_of_frame hframe]
      split_ifs <;> simp [cancellations]
    · split_ifs
      · exact nodup_pins (hg.of_frame hframe)
      · exact nodup_nil
  | stays _ _ _ =>
    refine ⟨[], [], pins g.clone, ?_, nodup_nil, by simp, .nil fun t ht => ?_,
      nodup_pins hg.clone⟩
    · rw [graphUnpins_eq]
      rfl
    · exact released_clone.mpr ht
  | nested hcoordinated hopen hkind h =>
    obtain ⟨canceled, dispatched, unpinned, hbatch⟩ :=
      (nestedTurn_of_advanceNested hg.clone hopen h).batch hids hg.clone hkind
    refine ⟨canceled, dispatched, unpinned, hbatch.eq, hbatch.nodup_canceled, hbatch.cancels,
      hbatch.deals.of_clone ?_, hbatch.nodup_unpinned⟩
    rintro e i ⟨hchain, -⟩
    rw [Graph.clone_kind, hkind] at hchain
    cases hchain
  | canceled hopen hkind hcancel h =>
    obtain ⟨canceled, unpinned, hbatch⟩ := h.batch hg.clone hmatches.clone hcancel hkind
    exact ⟨canceled, [], unpinned, hbatch.eq, hbatch.nodup_canceled, hbatch.cancels,
      .nil fun t ht => hbatch.deals.kept t (released_clone.mpr ht), hbatch.nodup_unpinned⟩
  | flat hopen hkind hcancel habort h =>
    obtain ⟨dispatched, unpinned, hdeals, hnodup, heq⟩ := h.deals hg.clone hkind habort
    exact ⟨[], dispatched, unpinned, heq, nodup_nil, by simp, hdeals.of_clone (hagain habort),
      hnodup⟩

end Batch

end Gogo.Async

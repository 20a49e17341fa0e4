import Mathlib
import Gogo.Async.Compile
import Gogo.Async.Turn

/-!
# The shape of a workflow graph

What the graphs of `ApplyCanvas` and of replacements have in common, whatever the canvas: every task
has an identifier of its own, and the plan of a compiled graph names only nodes that stand before.

* `StableIds` — no two identifiers derived by `StableID` coincide.
* `Graph.WellFormed` — the shape; it only depends on the frame, so every transition keeps it.
* `Fresh` — nothing has happened to a graph.
* `CompilerRule` — what holds of tasks, collect nodes and their combinations holds of what the
  compiler makes of a canvas; `Canvas.planSize` counts the nodes.
* `compile_sound`, `flatGraph_sound` — what the compiler and the flat case create is well formed and
  fresh.
-/

namespace Gogo.Async

open List Gogo.Lib

/-! ## Identifiers -/

/-- Different sources or labels give different identifiers. -/
def StableIds (codec : Codec) : Prop :=
  ∀ source label source' label',
    codec.stableId source label = codec.stableId source' label' → source = source' ∧ label = label'

/-- Labels with different first letters differ. -/
lemma label_ne {a b : String} (x y : String) (ha : a ≠ "") (hb : b ≠ "")
    (h : a.toList.head? ≠ b.toList.head?) : a ++ x ≠ b ++ y := by
  intro heq
  apply h
  have hlist := congrArg (fun s : String => s.toList.head?) heq
  simp only [String.toList_append] at hlist
  rwa [head?_append_of_ne_nil _ (by simpa using ha),
    head?_append_of_ne_nil _ (by simpa using hb)] at hlist

/-- The identifier of the task at a position of a compiled graph. -/
def taskId (codec : Codec) (source : String) (k : ℕ) : String :=
  codec.stableId source ("task-" ++ toString k)

/-- The identifier of the collect node at a position of the plan. -/
def collectId (codec : Codec) (source : String) (k : ℕ) : String :=
  codec.stableId source ("collect-" ++ toString k)

/-- The identifier of the child at a position of a flat graph. -/
def childId (codec : Codec) (source : String) (k : ℕ) : String :=
  codec.stableId source ("child-" ++ toString k)

section StableIds

variable {codec : Codec} (hids : StableIds codec)

include hids

variable {source : String} {k l : ℕ}

lemma taskId_inj (h : taskId codec source k = taskId codec source l) : k = l :=
  Nat.repr_inj.mp ((String.append_right_inj _).mp (hids _ _ _ _ h).2)

lemma collectId_inj (h : collectId codec source k = collectId codec source l) : k = l :=
  Nat.repr_inj.mp ((String.append_right_inj _).mp (hids _ _ _ _ h).2)

lemma childId_inj (h : childId codec source k = childId codec source l) : k = l :=
  Nat.repr_inj.mp ((String.append_right_inj _).mp (hids _ _ _ _ h).2)

lemma taskId_ne_collectId : taskId codec source k ≠ collectId codec source l := fun h =>
  label_ne _ _ (by decide) (by decide) (by decide) (hids _ _ _ _ h).2

lemma childId_ne_body : childId codec source k ≠ codec.stableId source "body" := fun h =>
  label_ne (b := "body") _ "" (by decide) (by decide) (by decide) (hids _ _ _ _ h).2

end StableIds

/-! ## Well-formed graphs -/

/-- Every node of the plan names nodes that stand before it. -/
def Ordered (plan : List CanvasNode) : Prop :=
  ∀ i node, plan[i]? = some node →
    ∀ d ∈ node.dependencies ++ node.waitFor, d ∈ (plan.take i).map CanvasNode.id

/-- The shape of a workflow graph. -/
@[mk_iff]
structure Graph.WellFormed (g : Graph) : Prop where
  nodup_children : g.childIds.Nodup
  child_ne : "" ∉ g.childIds
  callback_ne : g.callback.isSome → g.callbackId ≠ ""
  callback_not_mem : g.callback.isSome → g.callbackId ∉ g.childIds
  callbackId_eq : g.callback = none → g.callbackId = ""
  flat_plan : g.kind ≠ .dag → g.plan = []
  dag_callback : g.kind = .dag → g.callback = none
  tasks : g.kind = .dag →
    (g.plan.filter fun node => node.kind == .task).map CanvasNode.id = g.childIds
  nodup_plan : (g.plan.map CanvasNode.id).Nodup
  task_shape : ∀ node ∈ g.plan, node.kind = .task →
    node.signature.isSome ∧ node.dependencies.length ≤ 1 ∧ node.waitFor = []
  ordered : Ordered g.plan
  root : g.kind = .dag → g.rootNode ∈ g.plan.map CanvasNode.id

/-- Nothing has happened to a graph yet. -/
structure Graph.Fresh (g : Graph) : Prop where
  members : g.members = .empty
  state : g.state = .running
  output : g.output = none
  failure : g.failure = none
  next : g.next = 0
  callbackClaimed : g.callbackClaimed = false
  callbackEnvelope : g.callbackEnvelope = none
  cancelRequested : g.cancelRequested = false
  abortFailure : g.abortFailure = none
  revision : 0 < g.revision
  dispatched : ∀ node ∈ g.plan, node.dispatched = false

@[simp] lemma CanvasNode.skeleton_id (n : CanvasNode) : n.skeleton.id = n.id := rfl
@[simp] lemma CanvasNode.skeleton_kind (n : CanvasNode) : n.skeleton.kind = n.kind := rfl
@[simp] lemma CanvasNode.skeleton_dependencies (n : CanvasNode) :
    n.skeleton.dependencies = n.dependencies := rfl
@[simp] lemma CanvasNode.skeleton_waitFor (n : CanvasNode) : n.skeleton.waitFor = n.waitFor := rfl
@[simp] lemma CanvasNode.skeleton_signature (n : CanvasNode) :
    n.skeleton.signature = n.signature.map Signature.clone := rfl

lemma ordered_skeleton {plan : List CanvasNode} :
    Ordered (plan.map CanvasNode.skeleton) ↔ Ordered plan := by
  unfold Ordered
  simp [getElem?_map, ← map_take, Function.comp_def]

variable {g : Graph}

/-- The shape of a graph is that of its frame. -/
lemma Graph.wellFormed_frame : g.frame.WellFormed ↔ g.WellFormed := by
  have hchildren : g.frame.childIds = g.childIds := by
    simp [Graph.frame, Graph.childIds, Function.comp_def]
  have htasks : (g.frame.plan.filter fun node => node.kind == .task).map CanvasNode.id =
      (g.plan.filter fun node => node.kind == .task).map CanvasNode.id := by
    simp [Graph.frame, filter_map, Function.comp_def]
  have hordered : Ordered g.frame.plan ↔ Ordered g.plan := ordered_skeleton
  rw [Graph.wellFormed_iff, Graph.wellFormed_iff, hchildren, htasks, hordered]
  simp [Graph.frame, Function.comp_def]

lemma Graph.WellFormed.of_frame {g' : Graph} (h : g'.frame = g.frame) (hg : g.WellFormed) :
    g'.WellFormed := by
  rw [← Graph.wellFormed_frame, h, Graph.wellFormed_frame]
  exact hg

lemma Graph.Fresh.clone (h : g.Fresh) : g.clone.Fresh where
  members := h.members
  state := h.state
  output := h.output
  failure := h.failure
  next := h.next
  callbackClaimed := h.callbackClaimed
  callbackEnvelope := by
    show g.callbackEnvelope.map Envelope.clone = none
    rw [h.callbackEnvelope]
    rfl
  cancelRequested := h.cancelRequested
  abortFailure := h.abortFailure
  revision := h.revision
  dispatched := by
    intro node hnode
    obtain ⟨n, hn, rfl⟩ := mem_map.mp hnode
    exact h.dispatched n hn

/-- The shape of a graph sees its children by their identifiers. -/
lemma Graph.WellFormed.with_children (hg : g.WellFormed) {children : List Envelope}
    (h : children.map Envelope.id = g.childIds) :
    ({ g with children := children } : Graph).WellFormed := by
  have hids : ({ g with children := children } : Graph).childIds = g.childIds := h
  exact
    { nodup_children := hids ▸ hg.nodup_children
      child_ne := hids ▸ hg.child_ne
      callback_ne := hg.callback_ne
      callback_not_mem := hids ▸ hg.callback_not_mem
      callbackId_eq := hg.callbackId_eq
      flat_plan := hg.flat_plan
      dag_callback := hg.dag_callback
      tasks := hids ▸ hg.tasks
      nodup_plan := hg.nodup_plan
      task_shape := hg.task_shape
      ordered := hg.ordered
      root := hg.root }

/-! ## The size of a plan -/

/-- The nodes of parts that follow one another; a sequence without any value is collected. -/
def inSequenceSize {α : Type} (size : Bool → α → ℕ) : Bool → List α → ℕ
  | given, [] => if given then 0 else 1
  | given, a :: rest => size given a + inSequenceSize size true rest

mutual

/-- The nodes that the plan of a canvas has, given whether a value comes before it. -/
def Canvas.planSize (given : Bool) : Canvas → ℕ
  | ⟨kind, signatures, _, steps⟩ =>
    match kind with
    | .task => 1
    | .chain => inSequenceSize (fun _ _ => 1) given signatures
    | .group => signatures.length + 1
    | .chord => signatures.length + 2
    | .sequence => Canvas.sequenceSize given steps
    | .parallel => Canvas.parallelSize given steps + 1
    | .unknown => 0

@[inherit_doc Canvas.planSize]
def Canvas.sequenceSize (given : Bool) : List Canvas → ℕ
  | [] => if given then 0 else 1
  | step :: rest => step.planSize given + Canvas.sequenceSize true rest

@[inherit_doc Canvas.planSize]
def Canvas.parallelSize (given : Bool) : List Canvas → ℕ
  | [] => 0
  | step :: rest => step.planSize given + Canvas.parallelSize given rest

end

lemma Canvas.sequenceSize_eq (given : Bool) (steps : List Canvas) :
    Canvas.sequenceSize given steps = inSequenceSize Canvas.planSize given steps := by
  induction steps generalizing given with
  | nil => rfl
  | cons step rest ih => rw [Canvas.sequenceSize, inSequenceSize, ih]

lemma Canvas.parallelSize_eq (given : Bool) (steps : List Canvas) :
    Canvas.parallelSize given steps = (steps.map (Canvas.planSize given)).sum := by
  induction steps with
  | nil => rfl
  | cons step rest ih => rw [Canvas.parallelSize, ih, map_cons, sum_cons]

/-! ## A rule for the compiler -/

section Rule

variable {codec : Codec} {c : Client} {env : ℕ → Env}
  {Q : ℕ → Compiler → Option ValueReference → Compiler → ValueReference → Prop}
  {G : ℕ → Compiler → Option ValueReference → Compiler → List ValueReference → Prop}

variable (codec c env Q G) in
/-- What the compiler is made of: `Q n b input b' v` is about a part that takes `input`, adds `n`
nodes and provides `v`, and `G` about the parts of a group so far. -/
structure CompilerRule : Prop where
  task : ∀ {b s input b' v}, b.task codec c env s input = .ok (b', v) → Q 1 b input b' v
  same : ∀ {b v}, Q 0 b (some v) b v
  empty : ∀ {b}, Q 1 b none (b.collect codec [] none).1 (b.collect codec [] none).2
  after : ∀ {n m b input b₁ v₁ b₂ v₂}, Q n b input b₁ v₁ → Q m b₁ (some v₁) b₂ v₂ →
    Q (n + m) b input b₂ v₂
  group : ∀ {b input}, G 0 b input b []
  beside : ∀ {n m b input b₁ values b₂ v}, G n b input b₁ values → Q m b₁ input b₂ v →
    G (n + m) b input b₂ (values ++ [v])
  collect : ∀ {n b input b₁ values}, G n b input b₁ values →
    Q (n + 1) b input (b₁.collect codec values input).1 (b₁.collect codec values input).2

namespace CompilerRule

variable (hrule : CompilerRule codec c env Q G)

include hrule

section Parts

variable {α : Type} {size : Bool → α → ℕ}
  {part : Compiler → α → Option ValueReference → Except Err (Compiler × ValueReference)}
  (hpart : ∀ {b a input b' v}, part b a input = .ok (b', v) → Q (size input.isSome a) b input b' v)
  {b b' : Compiler} {parts : List α} {input : Option ValueReference} {v : ValueReference}

include hpart

lemma inSequence (h : b.inSequence codec part parts input = .ok (b', v)) :
    Q (inSequenceSize size input.isSome parts) b input b' v := by
  obtain ⟨⟨b₁, previous⟩, hrun, hend⟩ := bind_eq_ok.mp h
  clear h
  induction parts generalizing b input with
  | nil =>
    obtain ⟨rfl, rfl⟩ := Prod.mk.inj (Except.ok.inj hrun)
    rcases input with _ | u
    · obtain ⟨rfl, rfl⟩ := Prod.mk.inj (Except.ok.inj hend)
      exact hrule.empty
    · obtain ⟨rfl, rfl⟩ := Prod.mk.inj (Except.ok.inj hend)
      exact hrule.same
  | cons a rest ih =>
    obtain ⟨⟨b₂, w⟩, hstep, hrest⟩ := run_cons_eq_ok.mp hrun
    obtain ⟨⟨b₃, u⟩, hthis, hstep⟩ := bind_eq_ok.mp hstep
    obtain ⟨rfl, rfl⟩ := Prod.mk.inj (Except.ok.inj hstep)
    exact hrule.after (hpart hthis) (ih hrest)

lemma inParallel (h : b.inParallel codec part parts input = .ok (b', v)) :
    Q ((parts.map (size input.isSome)).sum + 1) b input b' v := by
  obtain ⟨⟨b₁, values⟩, hrun, hend⟩ := bind_eq_ok.mp h
  cases hend
  have hparts : ∀ (parts : List α) (n : ℕ) (b₂ : Compiler) (before : List ValueReference),
      G n b input b₂ before → run (besideStep part input) (b₂, before) parts = .ok (b₁, values) →
        G (n + (parts.map (size input.isSome)).sum) b input b₁ values := by
    intro parts
    induction parts with
    | nil =>
      intro n b₂ before hbefore hrun
      cases hrun
      exact hbefore
    | cons a rest ih =>
      intro n b₂ before hbefore hrun
      obtain ⟨⟨b₃, w⟩, hstep, hrest⟩ := run_cons_eq_ok.mp hrun
      obtain ⟨⟨b₄, u⟩, hthis, hstep⟩ := bind_eq_ok.mp hstep
      cases hstep
      rw [map_cons, sum_cons, ← Nat.add_assoc]
      exact ih _ _ _ (hrule.beside hbefore (hpart hthis)) hrest
  have hall := hparts parts 0 b [] hrule.group hrun
  rw [Nat.zero_add] at hall
  exact hrule.collect hall

end Parts

/-- **What the rule says of tasks and collect nodes it says of every canvas.** -/
theorem compile {fuel : ℕ} {b b' : Compiler} {canvas : Canvas} {input : Option ValueReference}
    {v : ValueReference} (h : Compiler.compile codec c env fuel b canvas input = .ok (b', v)) :
    Q (canvas.planSize input.isSome) b input b' v := by
  induction fuel generalizing b canvas input b' v with
  | zero => cases h
  | succ fuel ih =>
    obtain ⟨kind, signatures, callback, steps⟩ := canvas
    have htask : ∀ {b : Compiler} {s : Signature} {input : Option ValueReference} {b' v},
        b.task codec c env s input = .ok (b', v) →
          Q ((fun _ _ => 1 : Bool → Signature → ℕ) input.isSome s) b input b' v :=
      fun h => hrule.task h
    have hgroup : ∀ {b'' : Compiler} {v}, b.inParallel codec
        (fun b s input => b.task codec c env s input) signatures input = .ok (b'', v) →
          Q (signatures.length + 1) b input b'' v := by
      intro b'' v h
      have hsum := @inParallel _ _ _ _ _ hrule _ (fun _ _ => 1) _ htask _ _ _ _ _ h
      rwa [map_const', sum_replicate, smul_eq_mul, mul_one] at hsum
    simp only [Compiler.compile] at h
    obtain ⟨_, _, h⟩ := bind_eq_ok.mp h
    rcases kind with _ | _ | _ | _ | _ | _ | _ <;> simp only at h <;> simp only [Canvas.planSize]
    · split at h
      · obtain ⟨_, _, h⟩ := bind_eq_ok.mp h
        exact hrule.task h
      · cases h
    · obtain ⟨_, _, h⟩ := bind_eq_ok.mp h
      exact @inSequence _ _ _ _ _ hrule _ (fun _ _ => 1) _ htask _ _ _ _ _ h
    · obtain ⟨_, _, h⟩ := bind_eq_ok.mp h
      obtain ⟨r, hr, h⟩ := bind_eq_ok.mp h
      obtain ⟨_, _, h⟩ := bind_eq_ok.mp h
      cases h
      exact hgroup hr
    · obtain ⟨_, _, h⟩ := bind_eq_ok.mp h
      obtain ⟨⟨b₁, group⟩, hr, h⟩ := bind_eq_ok.mp h
      split at h
      · cases h
      · exact hrule.after (n := signatures.length + 1) (hgroup hr) (hrule.task h)
    · obtain ⟨_, _, h⟩ := bind_eq_ok.mp h
      rw [Canvas.sequenceSize_eq]
      exact hrule.inSequence ih h
    · obtain ⟨_, _, h⟩ := bind_eq_ok.mp h
      rw [Canvas.parallelSize_eq]
      exact hrule.inParallel ih h
    · cases h

end CompilerRule

end Rule

/-! ## What the compiler creates -/

section Compile

variable {codec : Codec} {c : Client} {env : ℕ → Env}

variable (codec) in
/-- A compiler whose graph is well formed, but for a root. -/
structure Compiler.Sound (b : Compiler) : Prop where
  kind : b.graph.kind = .dag
  callback : b.graph.callback = none
  callbackId : b.graph.callbackId = ""
  childIds : b.graph.childIds =
    (List.range b.graph.children.length).map (taskId codec b.graph.id)
  tasks : (b.graph.plan.filter fun node => node.kind == .task).map CanvasNode.id = b.graph.childIds
  ids : ∀ node ∈ b.graph.plan,
    (∃ k < b.graph.children.length, node.id = taskId codec b.graph.id k) ∨
      ∃ p < b.graph.plan.length, node.id = collectId codec b.graph.id p
  nodup : (b.graph.plan.map CanvasNode.id).Nodup
  task_shape : ∀ node ∈ b.graph.plan, node.kind = .task →
    node.signature.isSome ∧ node.dependencies.length ≤ 1 ∧ node.waitFor = []
  ordered : Ordered b.graph.plan
  fresh : b.graph.Fresh

/-- A value that a node of the plan provides. -/
def Compiler.Provides (b : Compiler) (v : ValueReference) : Prop :=
  v.id ∈ b.graph.plan.map CanvasNode.id

variable (codec) in
/-- The compiler went on from `b` to `b'`, which provides `v`. -/
structure Compiler.Extends (b b' : Compiler) : Prop where
  sound : b'.Sound codec
  id : b'.graph.id = b.graph.id
  origin : b'.graph.originTaskId = b.graph.originTaskId
  plan : b.graph.plan <+: b'.graph.plan

lemma Compiler.Extends.refl {b : Compiler} (hb : b.Sound codec) : b.Extends codec b :=
  ⟨hb, rfl, rfl, prefix_refl _⟩

variable {b b' : Compiler} {v root : ValueReference} {node : CanvasNode} {e : Envelope}
  {s : Signature} {now : Env} {id : String} {canvas : Canvas} {g : Graph}

lemma Compiler.Extends.trans {b'' : Compiler} (h : b.Extends codec b') (h' : b'.Extends codec b'') :
    b.Extends codec b'' :=
  ⟨h'.sound, h'.id.trans h.id, h'.origin.trans h.origin, h.plan.trans h'.plan⟩

lemma Compiler.Extends.provides (h : b.Extends codec b') (hv : b.Provides v) : b'.Provides v :=
  IsPrefix.subset (h.plan.map CanvasNode.id) hv

lemma ordered_append {plan : List CanvasNode} (h : Ordered plan)
    (hnode : ∀ d ∈ node.dependencies ++ node.waitFor, d ∈ plan.map CanvasNode.id) :
    Ordered (plan ++ [node]) := by
  intro i n hn d hd
  rcases Nat.lt_or_ge i plan.length with hlt | hge
  · rw [getElem?_append_left hlt] at hn
    rw [take_append_of_le_length hlt.le]
    exact h i n hn d hd
  · rw [getElem?_append_right hge] at hn
    obtain ⟨hi, rfl⟩ := List.getElem?_eq_some_iff.mp hn
    obtain rfl : i = plan.length := by
      simp only [length_singleton] at hi
      omega
    simp only [Nat.sub_self, getElem_cons_zero] at hd
    rw [take_append_of_le_length (Nat.le_refl _), take_length]
    exact hnode d hd

/-- The compiler with one more node at the end of its plan. -/
lemma Compiler.Sound.push (hb : b.Sound codec) {more : List Envelope} {scope : String}
    (hgraph : b'.graph = { b.graph with scope := scope, children := b.graph.children ++ more, plan
      := b.graph.plan ++ [node] })
    (hmore : more.map Envelope.id = if node.kind = .task then [taskId codec b.graph.id
      b.graph.children.length] else [])
    (hid : node.id = if node.kind = .task then taskId codec b.graph.id b.graph.children.length else
      collectId codec b.graph.id b.graph.plan.length) (hids : StableIds codec)
    (hshape : node.kind = .task → node.signature.isSome ∧ node.dependencies.length ≤ 1 ∧
      node.waitFor = [])
    (hdeps : ∀ d ∈ node.dependencies ++ node.waitFor, d ∈ b.graph.plan.map CanvasNode.id)
    (hdispatched : node.dispatched = false) : b.Extends codec b' := by
  have hlen : more.length = if node.kind = .task then 1 else 0 := by
    have := congrArg List.length hmore
    rw [length_map] at this
    rw [this]
    split_ifs <;> rfl
  have hfresh : node.id ∉ b.graph.plan.map CanvasNode.id := by
    rintro hmem
    obtain ⟨n, hn, hnid⟩ := mem_map.mp hmem
    rw [hid] at hnid
    rcases hb.ids n hn with ⟨k, hk, heq⟩ | ⟨p, hp, heq⟩ <;> rw [heq] at hnid <;>
      split_ifs at hnid with hkind
    · have := taskId_inj hids hnid
      omega
    · exact taskId_ne_collectId hids hnid
    · exact taskId_ne_collectId hids hnid.symm
    · have := collectId_inj hids hnid
      omega
  refine ⟨⟨?_, ?_, ?_, ?_, ?_, ?_, ?_, ?_, ?_, ?_⟩, ?_, ?_, ?_⟩ <;>
    simp only [hgraph, Graph.childIds, map_append]
  · exact hb.kind
  · exact hb.callback
  · exact hb.callbackId
  · have hchildren : b.graph.children.map Envelope.id = _ := hb.childIds
    rw [hchildren, hmore, length_append, hlen]
    split_ifs
    · rw [range_succ, map_append]
      rfl
    · rw [append_nil, Nat.add_zero]
  · have htasks : _ = b.graph.children.map Envelope.id := hb.tasks
    rw [filter_append, map_append, htasks, hmore]
    congr 1
    rcases hkind : node.kind with _ | _ <;> simp [hkind, hid]
  · intro n hn
    rcases mem_append.mp hn with hn | hn
    · rcases hb.ids n hn with ⟨k, hk, heq⟩ | ⟨p, hp, heq⟩
      · exact .inl ⟨k, by rw [length_append]; omega, heq⟩
      · exact .inr ⟨p, by rw [length_append]; omega, heq⟩
    · obtain rfl := mem_singleton.mp hn
      by_cases hkind : n.kind = .task
      · left
        refine ⟨_, ?_, by rw [hid, if_pos hkind]⟩
        rw [length_append, hlen, if_pos hkind]
        omega
      · right
        refine ⟨_, ?_, by rw [hid, if_neg hkind]⟩
        rw [length_append, length_singleton]
        omega
  · rw [map_singleton, nodup_append]
    refine ⟨hb.nodup, nodup_singleton _, ?_⟩
    intro a ha d hd
    obtain rfl := mem_singleton.mp hd
    exact fun heq => hfresh (heq ▸ ha)
  · intro n hn hkind
    rcases mem_append.mp hn with hn | hn
    · exact hb.task_shape n hn hkind
    · obtain rfl := mem_singleton.mp hn
      exact hshape hkind
  · exact ordered_append hb.ordered hdeps
  · obtain ⟨h1, h2, h3, h4, h5, h6, h7, h8, h9, h10, h11⟩ := hb.fresh
    refine ⟨h1, h2, h3, h4, h5, h6, h7, h8, h9, h10, ?_⟩
    intro n hn
    rcases mem_append.mp hn with hn | hn
    · exact h11 n hn
    · obtain rfl := mem_singleton.mp hn
      exact hdispatched
  · exact prefix_append _ _

variable (codec) in
/-- A part of the compiler goes on from sound compilers and values that are there, and returns a
value that is there. -/
def PartSound {α : Type}
    (part : Compiler → α → Option ValueReference → Except Err (Compiler × ValueReference)) : Prop :=
  ∀ b a input b' v, b.Sound codec → (∀ u, input = some u → b.Provides u) →
    part b a input = .ok (b', v) → b.Extends codec b' ∧ b'.Provides v

lemma collect_sound (hids : StableIds codec) {b : Compiler} (hb : b.Sound codec)
    {values : List ValueReference} {input : Option ValueReference}
    (hvalues : ∀ v ∈ values, b.Provides v) (hinput : ∀ u, input = some u → b.Provides u) :
    b.Extends codec (b.collect codec values input).1 ∧
      (b.collect codec values input).1.Provides (b.collect codec values input).2 := by
  have hgraph : (b.collect codec values input).1.graph = { b.graph with
      scope := b.graph.scope
      children := b.graph.children ++ []
      plan := b.graph.plan ++
        [{ id := collectId codec b.graph.id b.graph.plan.length
           kind := .collect
           dependencies := values.map ValueReference.id
           waitFor := if values.isEmpty then (input.map ValueReference.id).toList else [] }] } := by
    simp only [Compiler.collect, append_nil]
    rfl
  constructor
  · refine hb.push hgraph rfl rfl hids (fun h => by cases h) ?_ rfl
    · intro d hd
      simp only at hd
      rcases mem_append.mp hd with hd | hd
      · obtain ⟨v, hv, rfl⟩ := mem_map.mp hd
        exact hvalues v hv
      · split_ifs at hd
        · rcases input with _ | u
          · simp at hd
          · simp only [Option.map_some, Option.toList_some, mem_singleton] at hd
            subst hd
            exact hinput u rfl
        · simp at hd
  · simp [Compiler.Provides, Compiler.collect]

/-- What `prepare` builds: the envelope of the signature with normalised links, under the identifier
it was given or the next one. -/
lemma prepare_eq_ok (h : c.prepare codec now s = .ok e) :
    ∃ s' d id queue, c.normalizeLinkOptions s.options.scope 17 s = .ok s' ∧
      now.idOr s'.options.id = .ok id ∧ e = buildEnvelope now s' d id queue := by
  unfold Client.prepare at h
  obtain ⟨s', hs', h⟩ := bind_eq_ok.mp h
  obtain ⟨d, _, h⟩ := bind_eq_ok.mp h
  obtain ⟨_, _, h⟩ := bind_eq_ok.mp h
  obtain ⟨_, _, h⟩ := bind_eq_ok.mp h
  obtain ⟨_, _, h⟩ := bind_eq_ok.mp h
  obtain ⟨_, _, h⟩ := bind_eq_ok.mp h
  obtain ⟨_, _, h⟩ := bind_eq_ok.mp h
  obtain ⟨id, hid, h⟩ := bind_eq_ok.mp h
  obtain ⟨_, _, h⟩ := bind_eq_ok.mp h
  obtain ⟨_, _, h⟩ := bind_eq_ok.mp h
  exact ⟨s', d, id, _, hs', hid, (Except.ok.inj h).symm⟩

lemma prepare_options_id (h : c.prepare codec now s = .ok e) (hid : s.options.id ≠ "") :
    e.id = s.options.id := by
  obtain ⟨s', d, id, queue, hs', hid', rfl⟩ := prepare_eq_ok h
  have hoptions : s'.options = s.options := by
    unfold Client.normalizeLinkOptions at hs'
    obtain ⟨_, _, hs'⟩ := bind_eq_ok.mp hs'
    obtain ⟨_, _, hs'⟩ := bind_eq_ok.mp hs'
    cases hs'
    cases s
    rfl
  rw [hoptions, Env.idOr, if_neg hid] at hid'
  exact (Except.ok.inj hid').symm

/-- The envelope of a signature has the identifier that it was given. -/
lemma prepare_id (h : c.prepare codec now (s.withId id) = .ok e) (hid : id ≠ "") : e.id = id :=
  prepare_options_id h hid

lemma task_sound (hids : StableIds codec) :
    PartSound codec (fun b s input => Compiler.task codec c env b s input) := by
  intro b s input b' v hb hinput h
  simp only [Compiler.task] at h
  obtain ⟨_, _, h⟩ := bind_eq_ok.mp h
  obtain ⟨d, hd, h⟩ := bind_eq_ok.mp h
  obtain ⟨_, _, h⟩ := bind_eq_ok.mp h
  obtain ⟨e, he, h⟩ := bind_eq_ok.mp h
  obtain ⟨_, _, h⟩ := bind_eq_ok.mp h
  cases h
  have heid : e.id = taskId codec b.graph.id b.graph.children.length :=
    prepare_id he (codec.stableId_ne _ _)
  constructor
  · refine hb.push rfl ?_ rfl hids (fun _ => ⟨rfl, ?_, rfl⟩) ?_ rfl
    · simp [placeEnvelope, heid]
    · rcases input with _ | u <;> simp
    · intro d hd
      rcases input with _ | u
      · simp at hd
      · simp only [Option.map_some, Option.toList_some, append_nil, mem_singleton] at hd
        subst hd
        exact hinput u rfl
  · simp [Compiler.Provides]

/-- **The compiler keeps its graph well formed and returns a value of the plan.** -/
theorem compile_sound (hids : StableIds codec) (fuel : ℕ) :
    PartSound codec (fun b canvas input => Compiler.compile codec c env fuel b canvas input) := by
  intro b canvas input b' v hb hinput h
  have hrule : CompilerRule codec c env
      (fun _ b input b' v => b.Sound codec → (∀ u, input = some u → b.Provides u) →
        b.Extends codec b' ∧ b'.Provides v)
      (fun _ b input b' values => b.Sound codec → (∀ u, input = some u → b.Provides u) →
        b.Extends codec b' ∧ ∀ v ∈ values, b'.Provides v) := by
    refine ⟨fun h hb hinput => task_sound hids _ _ _ _ _ hb hinput h, ?_, ?_, ?_, ?_, ?_, ?_⟩
    · intro b v hb hinput
      exact ⟨.refl hb, hinput v rfl⟩
    · intro b hb hinput
      exact collect_sound hids hb (by simp) (by simp)
    · intro n m b input b₁ v₁ b₂ v₂ hfirst hsecond hb hinput
      obtain ⟨hext, hprovides⟩ := hfirst hb hinput
      obtain ⟨hext', hprovides'⟩ := hsecond hext.sound fun u hu => Option.some.inj hu ▸ hprovides
      exact ⟨hext.trans hext', hprovides'⟩
    · intro b input hb hinput
      exact ⟨.refl hb, by simp⟩
    · intro n m b input b₁ values b₂ v hvalues hnext hb hinput
      obtain ⟨hext, hprovides⟩ := hvalues hb hinput
      obtain ⟨hext', hprovides'⟩ := hnext hext.sound fun u hu => hext.provides (hinput u hu)
      refine ⟨hext.trans hext', fun u hu => ?_⟩
      rcases mem_append.mp hu with hu | hu
      · exact hext'.provides (hprovides u hu)
      · exact mem_singleton.mp hu ▸ hprovides'
    · intro n b input b₁ values hvalues hb hinput
      obtain ⟨hext, hprovides⟩ := hvalues hb hinput
      obtain ⟨hext', hprovides'⟩ := collect_sound hids hext.sound hprovides
        fun u hu => hext.provides (hinput u hu)
      exact ⟨hext.trans hext', hprovides'⟩
  exact hrule.compile h hb hinput

/-- A relation that every node of the plan keeps relates what the compiler starts from to what it
returns. -/
theorem compile_related {R : Compiler → Compiler → Prop} (hrefl : ∀ b, R b b)
    (htrans : ∀ b b' b'', R b b' → R b' b'' → R b b'')
    (hcollect : ∀ b values input, R b (b.collect codec values input).1)
    (htask : ∀ b s input b' v, b.task codec c env s input = .ok (b', v) → R b b') (fuel : ℕ) :
    ∀ b canvas input b' v, Compiler.compile codec c env fuel b canvas input = .ok (b', v) →
      R b b' := by
  intro b canvas input b' v h
  have hrule : CompilerRule codec c env (fun _ b _ b' _ => R b b') (fun _ b _ b' _ => R b b') :=
    ⟨fun h => htask _ _ _ _ _ h, fun {b _} => hrefl b, fun {b} => hcollect b [] none,
      fun h h' => htrans _ _ _ h h', fun {b _} => hrefl b, fun h h' => htrans _ _ _ h h',
      fun h => htrans _ _ _ h (hcollect _ _ _)⟩
  exact hrule.compile h

/-- The compiler adds tasks and nodes and touches nothing else of its graph. -/
lemma compileCanvas_eq {start : Compiler}
    (h : compileCanvas codec c env start canvas = .ok (g, root)) :
    g = { start.graph with
      scope := g.scope, children := g.children, plan := g.plan, rootNode := g.rootNode } := by
  unfold compileCanvas at h
  obtain ⟨⟨b, v⟩, hcompile, h⟩ := bind_eq_ok.mp h
  obtain ⟨rfl, rfl⟩ := Prod.mk.inj (Except.ok.inj h)
  have hrelated := @compile_related codec c env (fun b b' => b'.graph = { b.graph with
      scope := b'.graph.scope, children := b'.graph.children, plan := b'.graph.plan })
    (fun _ => rfl) (fun b b' b'' h h' => by rw [h', h]) (fun _ _ _ => rfl) ?_ compileDepth start
    canvas none b v hcompile
  · rw [hrelated]
  · intro b s input b' v h
    simp only [Compiler.task] at h
    obtain ⟨_, _, h⟩ := bind_eq_ok.mp h
    obtain ⟨_, _, h⟩ := bind_eq_ok.mp h
    obtain ⟨_, _, h⟩ := bind_eq_ok.mp h
    obtain ⟨_, _, h⟩ := bind_eq_ok.mp h
    obtain ⟨_, _, h⟩ := bind_eq_ok.mp h
    obtain ⟨rfl, rfl⟩ := Prod.mk.inj (Except.ok.inj h)
    rfl

/-- A graph without tasks to compile into. -/
lemma Compiler.Sound.start (hkind : b.graph.kind = .dag) (hcallback : b.graph.callback = none)
    (hcallbackId : b.graph.callbackId = "") (hchildren : b.graph.children = [])
    (hplan : b.graph.plan = []) (hfresh : b.graph.Fresh) : b.Sound codec where
  kind := hkind
  callback := hcallback
  callbackId := hcallbackId
  childIds := by simp [Graph.childIds, hchildren]
  tasks := by simp [Graph.childIds, hchildren, hplan]
  ids := by simp [hplan]
  nodup := by simp [hplan]
  task_shape := by simp [hplan]
  ordered := by simp [Ordered, hplan]
  fresh := hfresh

lemma Compiler.Sound.wellFormed (hids : StableIds codec) (hb : b.Sound codec) (hv : b.Provides v) :
    ({ b.graph with rootNode := v.id } : Graph).WellFormed where
  nodup_children := by
    have hchildren : b.graph.children.map Envelope.id = _ := hb.childIds
    show (b.graph.children.map Envelope.id).Nodup
    rw [hchildren]
    exact Nodup.map (fun _ _ h => taskId_inj hids h) nodup_range
  child_ne := by
    have hchildren : b.graph.children.map Envelope.id = _ := hb.childIds
    show "" ∉ b.graph.children.map Envelope.id
    rw [hchildren]
    intro hmem
    obtain ⟨k, -, hk⟩ := mem_map.mp hmem
    exact codec.stableId_ne _ _ hk
  callback_ne := by simp [hb.callback]
  callback_not_mem := by simp [hb.callback]
  callbackId_eq _ := hb.callbackId
  flat_plan h := absurd hb.kind h
  dag_callback _ := hb.callback
  tasks _ := hb.tasks
  nodup_plan := hb.nodup
  task_shape := hb.task_shape
  ordered := hb.ordered
  root _ := hv

/-- The graph of a nested canvas is well formed, and nothing has happened to it. -/
lemma compileCanvas_sound (hids : StableIds codec) {start : Compiler} (hstart : start.Sound codec)
    (h : compileCanvas codec c env start canvas = .ok (g, root)) :
    g.WellFormed ∧ g.Fresh ∧ g.kind = .dag ∧ g.id = start.graph.id ∧
      g.originTaskId = start.graph.originTaskId := by
  unfold compileCanvas at h
  obtain ⟨⟨b, v⟩, hcompile, h⟩ := bind_eq_ok.mp h
  obtain ⟨rfl, rfl⟩ := Prod.mk.inj (Except.ok.inj h)
  obtain ⟨hext, hprovides⟩ := compile_sound hids compileDepth start canvas none b v hstart
    (by simp) hcompile
  have hfresh := hext.sound.fresh
  exact ⟨hext.sound.wellFormed hids hprovides,
    ⟨hfresh.members, hfresh.state, hfresh.output, hfresh.failure, hfresh.next,
      hfresh.callbackClaimed, hfresh.callbackEnvelope, hfresh.cancelRequested,
      hfresh.abortFailure, hfresh.revision, hfresh.dispatched⟩,
    hext.sound.kind, hext.id, hext.origin⟩

/-! ## What a flat canvas becomes -/

/-- The children of a flat graph, as far as they are prepared. -/
lemma flatChildren_sound {start : Graph} {signatures : List Signature}
    (hstart : start.children = []) (h : run (flatChild codec c env) start signatures = .ok g) :
    g = { start with scope := g.scope, children := g.children } ∧
      g.children.length = signatures.length ∧
      g.childIds = (List.range g.children.length).map (childId codec start.id) := by
  have hgrow : ∀ (l : List Signature) (g₁ g₂ : Graph),
      g₁ = { start with scope := g₁.scope, children := g₁.children } →
      g₁.childIds = (List.range g₁.children.length).map (childId codec start.id) →
      run (flatChild codec c env) g₁ l = .ok g₂ →
      g₂ = { start with scope := g₂.scope, children := g₂.children } ∧
        g₂.children.length = g₁.children.length + l.length ∧
        g₂.childIds = (List.range g₂.children.length).map (childId codec start.id) := by
    intro l
    induction l with
    | nil =>
      intro g₁ g₂ hg hids h
      rw [run_nil, Except.ok.injEq] at h
      subst h
      exact ⟨hg, rfl, hids⟩
    | cons s rest ih =>
      intro g₁ g₂ hg hids h
      obtain ⟨g₃, hstep, hrest⟩ := run_cons_eq_ok.mp h
      simp only [flatChild] at hstep
      obtain ⟨e, he, hstep⟩ := bind_eq_ok.mp hstep
      obtain ⟨_, _, hstep⟩ := bind_eq_ok.mp hstep
      cases hstep
      have hid : g₁.id = start.id := by rw [hg]
      have heid : e.id = childId codec start.id g₁.children.length := by
        rw [← hid]
        exact prepare_id he (codec.stableId_ne _ _)
      obtain ⟨h₁, h₂, h₃⟩ := ih _ g₂ (by rw [hg]) (by
        have hchildren : g₁.children.map Envelope.id = _ := hids
        simp only [Graph.childIds, map_append, hchildren, length_append,
          length_singleton, range_succ, map_singleton, heid]) hrest
      refine ⟨h₁, ?_, h₃⟩
      rw [h₂]
      simp only [length_append, length_cons, length_nil]
      omega
  obtain ⟨h₁, h₂, h₃⟩ := hgrow signatures start g rfl
    (by simp [Graph.childIds, hstart]) h
  exact ⟨h₁, by rw [h₂, hstart]; simp, h₃⟩

/-- The graph of a flat canvas to which nothing has happened. -/
def flatStart (id : String) (canvas : Canvas) (scope : String) (children : List Envelope)
    (callbackId : String) : Graph :=
  { id := id
    kind := canvas.kind.graphKind
    scope := scope
    children := children
    signatures := Signature.cloneAll canvas.signatures
    callback := canvas.callback
    callbackId := callbackId }

/-- What the flat case creates, whatever the identifiers are. -/
lemma flatGraph_eq (h : flatGraph codec c env id canvas = .ok g) :
    g = flatStart id canvas g.scope g.children g.callbackId ∧
      (canvas.callback.isSome → g.callbackId = codec.stableId id "body") ∧
      (canvas.callback = none → g.callbackId = "") ∧
      g.children.length = canvas.signatures.length ∧
      g.childIds = (List.range g.children.length).map (childId codec id) := by
  unfold flatGraph at h
  obtain ⟨g₁, hrun, h⟩ := bind_eq_ok.mp h
  obtain ⟨hgraph, hlength, hchildIds⟩ := flatChildren_sound rfl hrun
  split at h
  · next hnone =>
    obtain rfl := Except.ok.inj h
    have hid : g₁.callbackId = "" := by rw [hgraph]
    refine ⟨?_, by simp [hnone], fun _ => hid, hlength, hchildIds⟩
    rw [hid]
    exact hgraph
  · next callback hsome =>
    simp only [flatCallback] at h
    obtain ⟨_, _, h⟩ := bind_eq_ok.mp h
    obtain rfl := Except.ok.inj h
    have hid : g₁.id = id := by rw [hgraph]
    refine ⟨?_, fun _ => by rw [hid], by simp [hsome], hlength, hchildIds⟩
    simp only
    rw [hgraph]
    rfl

/-- **The graph of a flat canvas is well formed, and nothing has happened to it.** -/
theorem flatGraph_sound (hids : StableIds codec) (h : flatGraph codec c env id canvas = .ok g) :
    g.WellFormed ∧ g.Fresh := by
  obtain ⟨hgraph, hsome, hnone, -, hchildIds⟩ := flatGraph_eq h
  have hkind : canvas.kind.graphKind ≠ .dag := by
    rcases canvas.kind with _ | _ | _ | _ | _ | _ | _ <;> nofun
  have hnodup : g.childIds.Nodup := by
    rw [hchildIds]
    exact Nodup.map (fun _ _ h => childId_inj hids h) nodup_range
  have hne : "" ∉ g.childIds := by
    rw [hchildIds]
    intro hmem
    obtain ⟨k, -, hk⟩ := mem_map.mp hmem
    exact codec.stableId_ne _ _ hk
  have hbody : codec.stableId id "body" ∉ g.childIds := by
    rw [hchildIds]
    intro hmem
    obtain ⟨k, _, hk⟩ := mem_map.mp hmem
    exact childId_ne_body hids hk
  have hcallback : canvas.callback.isSome → g.callbackId ≠ "" ∧ g.callbackId ∉ g.childIds := by
    intro h
    rw [hsome h]
    exact ⟨codec.stableId_ne _ _, hbody⟩
  rw [hgraph]
  exact ⟨⟨hnodup, hne, fun h => (hcallback h).1, fun h => (hcallback h).2, hnone, fun _ => rfl,
    fun h => absurd h hkind, fun h => absurd h hkind, nodup_nil, nofun, nofun,
    fun h => absurd h hkind⟩,
    ⟨rfl, rfl, rfl, rfl, rfl, rfl, rfl, rfl, rfl, Nat.one_pos, nofun⟩⟩

end Compile

end Gogo.Async

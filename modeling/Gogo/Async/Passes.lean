import Gogo.Async.Shape

/-!
# The passes over a plan

`nested.go` `advanceNested` visits the nodes of its plan again and again, until a pass changes
nothing. This module says what the passes do to a graph, and that they end with nothing left to do.

* `NodeTurn` — the cases of one node; `nodeTurn_of_dagNode`.
* `Since` — what any number of visits did: which completions they collected and which tasks they
  settled, each at most once; `Since.step`.
* `AtRest` — no node is ready; `dagTurns_atRest`: the bound on the number of passes is large enough.
* `nestedTurn_of_advanceNested` — the transition of a compiled graph.
-/

namespace Gogo.Async

open List Gogo.Lib

/-! ## The children of a plan -/

variable {id : String} {l : List Envelope} {i : ℕ} {g : Graph} {child : Envelope}

lemma childIndex_eq_some (h : childIndex id l = some i) :
    ∃ child, l[i]? = some child ∧ child.id = id := by
  induction l generalizing i with
  | nil => cases h
  | cons e rest ih =>
    unfold childIndex at h
    rcases hrest : childIndex id rest with _ | j <;> simp only [hrest] at h
    · split_ifs at h with heq
      cases h
      exact ⟨e, rfl, heq⟩
    · cases h
      exact ih hrest

lemma childIndex_congr {l' : List Envelope} (h : l.map Envelope.id = l'.map Envelope.id) :
    childIndex id l = childIndex id l' := by
  induction l generalizing l' with
  | nil =>
    obtain rfl : l' = [] := by simpa using h.symm
    rfl
  | cons e rest ih =>
    rcases l' with _ | ⟨e', rest'⟩
    · cases h
    · obtain ⟨hid, hrest⟩ := List.cons.inj h
      simp only [childIndex, ih hrest, hid]

lemma child?_eq_some :
    g.child? id = some (i, child) ↔
      childIndex id g.children = some i ∧ g.children[i]? = some child := by
  simp only [Graph.child?, Option.bind_eq_bind, Option.bind_eq_some_iff, Option.some.injEq,
    Prod.mk.injEq]
  constructor
  · rintro ⟨j, hj, e, he, rfl, rfl⟩
    exact ⟨hj, he⟩
  · rintro ⟨hi, hchild⟩
    exact ⟨i, hi, child, hchild, rfl, rfl⟩

lemma id_of_child? (h : g.child? id = some (i, child)) : child.id = id := by
  obtain ⟨hi, hchild⟩ := child?_eq_some.mp h
  obtain ⟨child', hchild', hid⟩ := childIndex_eq_some hi
  obtain rfl := Option.some.inj (hchild.symm.trans hchild')
  exact hid

lemma mem_of_child? (h : g.child? id = some (i, child)) : child ∈ g.children :=
  mem_of_getElem? (child?_eq_some.mp h).2

/-- Replacing the envelope of one task leaves the others alone. -/
lemma child?_set {g' : Graph} {id' : String} {e : Envelope} (h : g.child? id = some (i, child))
    (he : e.id = child.id) (hchildren : g'.children = g.children.set i e) :
    g'.child? id' = if id' = id then some (i, e) else g.child? id' := by
  obtain ⟨hi, hchild⟩ := child?_eq_some.mp h
  have hids : g'.children.map Envelope.id = g.children.map Envelope.id := by
    rw [hchildren]
    exact map_set_of_eq hchild he
  have hindex : childIndex id' g'.children = childIndex id' g.children := childIndex_congr hids
  obtain ⟨hlt, -⟩ := List.getElem?_eq_some_iff.mp hchild
  split_ifs with heq
  · subst heq
    refine child?_eq_some.mpr ⟨hindex.trans hi, ?_⟩
    rw [hchildren, getElem?_set_self hlt]
  · unfold Graph.child?
    rw [hindex]
    rcases hj : childIndex id' g.children with _ | j
    · rfl
    · have hne : i ≠ j := by
        rintro rfl
        obtain ⟨e', he', hid'⟩ := childIndex_eq_some hj
        obtain rfl := Option.some.inj (hchild.symm.trans he')
        exact heq (hid'.symm.trans (id_of_child? h))
      simp only [hchildren, Option.bind_eq_bind, Option.bind_some, getElem?_set_ne hne]

/-! ## One node -/

/-- A node that a pass leaves as it is. -/
def Idle (g : Graph) (node : CanvasNode) : Prop :=
  g.done node.id = true ∨ node.dispatched = true ∨ gather g.members node = none

/-- A node that a pass acts on, with what its dependencies give it. -/
structure Ready (g : Graph) (i : ℕ) (node : CanvasNode) (failed : Bool)
    (outputs : List RawMessage) : Prop where
  at_position : g.plan[i]? = some node
  undone : g.done node.id = false
  undispatched : node.dispatched = false
  gathered : gather g.members node = some (failed, outputs)

section Node

variable (codec : Codec) (c : Client)

/-- What the visit of a node does. -/
inductive NodeTurn (st : DagState) (i : ℕ) : DagState → Prop
  | skips (h : ∀ node, st.graph.plan[i]? = some node → Idle st.graph node) : NodeTurn st i st
  | collects {node : CanvasNode} {failed : Bool} {outputs : List RawMessage}
      (hready : Ready st.graph i node failed outputs) (hkind : node.kind = .collect) :
      NodeTurn st i
        { st with
          graph :=
            { st.graph with
              members := st.graph.members.set node.id (collectCompletion node.id failed outputs) }
          progress := true }
  | settles {node : CanvasNode} {failed : Bool} {outputs : List RawMessage}
      {signature : Signature} {index : ℕ} {child e : Envelope} {failure : Option Failure}
      {bytes : ℤ} (hready : Ready st.graph i node failed outputs) (hkind : node.kind = .task)
      (hsignature : node.signature = some signature)
      (hchild : st.graph.child? node.id = some (index, child))
      (hsettle : settleTask codec c signature child st.argumentBytes failed outputs =
        .ok (e, failure, bytes)) :
      NodeTurn st i
        { graph :=
            { st.graph with
              children := st.graph.children.set index e
              plan := st.graph.plan.set i { node with dispatched := true } }
          argumentBytes := bytes
          intents := st.intents ++ [settleIntent codec st.graph.id e failure]
          progress := true }

variable {codec c}

lemma nodeTurn_of_dagNode {st st' : DagState} (h : dagNode codec c st i = .ok st') :
    NodeTurn codec c st i st' := by
  unfold dagNode at h
  split at h
  · next hnone =>
    cases h
    exact .skips fun node hnode => by rw [hnone] at hnode; cases hnode
  next node hnode =>
  have hskip : Idle st.graph node → NodeTurn codec c st i st := fun hidle =>
    .skips fun node' hnode' => by
      obtain rfl := Option.some.inj (hnode.symm.trans hnode')
      exact hidle
  split_ifs at h with hidle
  · cases h
    exact hskip (hidle.imp id .inl)
  obtain ⟨hundone, hundispatched⟩ : st.graph.done node.id = false ∧ node.dispatched = false := by
    simpa using hidle
  split at h
  · next hgather =>
    cases h
    exact hskip (.inr (.inr hgather))
  next failed outputs hgather =>
  have hready : Ready st.graph i node failed outputs := ⟨hnode, hundone, hundispatched, hgather⟩
  split at h
  · next hkind =>
    cases h
    exact .collects hready hkind
  · next hkind =>
    split at h
    · next signature index child hsignature hchild =>
      split_ifs at h
      obtain ⟨⟨e, failure, bytes⟩, hsettle, h⟩ := bind_eq_ok.mp h
      cases h
      exact .settles hready hkind hsignature hchild hsettle
    · cases h

variable {outputs : List RawMessage} {members : FinMap String Completion} {node : CanvasNode}

/-- Settling a task changes nothing of its envelope but the arguments, and fails the task when one of
its dependencies has failed. -/
lemma settleTask_spec {signature : Signature} {e : Envelope} {bytes bytes' : ℤ} {failed : Bool}
    {failure : Option Failure}
    (h : settleTask codec c signature child bytes failed outputs = .ok (e, failure, bytes')) :
    e = { child with args := e.args } ∧ (failed = true → failure = some parentFailed) := by
  have hkeep : ∀ {f : Option Failure} {b : ℤ}, (child, f, b) = (e, failure, bytes') →
      failed = false → e = { child with args := e.args } ∧
        (failed = true → failure = some parentFailed) := by
    rintro f b heq hfailed
    obtain ⟨rfl, -⟩ := Prod.mk.inj heq
    exact ⟨rfl, fun h => by rw [hfailed] at h; cases h⟩
  unfold settleTask at h
  split_ifs at h with hfailed
  · obtain ⟨rfl, hrest⟩ := Prod.mk.inj (Except.ok.inj h)
    obtain ⟨rfl, -⟩ := Prod.mk.inj hrest
    exact ⟨rfl, fun _ => rfl⟩
  have hfailed : failed = false := by simpa using hfailed
  split at h
  · split at h
    · exact hkeep (Except.ok.inj h) hfailed
    · simp only at h
      split_ifs at h
      split at h
      · exact hkeep (Except.ok.inj h) hfailed
      · obtain ⟨rfl, -⟩ := Prod.mk.inj (Except.ok.inj h)
        exact ⟨rfl, fun h => by rw [hfailed] at h; cases h⟩
  · exact hkeep (Except.ok.inj h) hfailed

lemma gather_mono {members' : FinMap String Completion} {r : Bool × List RawMessage}
    (hkept : ∀ t m, members.get? t = some m → members'.get? t = some m)
    (h : gather members node = some r) : gather members' node = some r := by
  simp only [gather, Option.bind_eq_bind, Option.bind_eq_some_iff] at h ⊢
  obtain ⟨values, hvalues, waits, hwaits, hr⟩ := h
  refine ⟨values, ?_, waits, ?_, hr⟩
  · rw [mapM_eq_some_iff] at hvalues ⊢
    exact hvalues.imp fun a b h => hkept a b h
  · rw [mapM_eq_some_iff] at hwaits ⊢
    exact hwaits.imp fun a b h => hkept a b h

lemma gather_eq_none :
    gather members node = none ↔
      ∃ d ∈ node.dependencies ++ node.waitFor, members.get? d = none := by
  have hbind : gather members node = none ↔
      node.dependencies.mapM members.get? = none ∨ node.waitFor.mapM members.get? = none := by
    unfold gather
    rcases node.dependencies.mapM members.get? with _ | values
    · simp [bind]
    · rcases node.waitFor.mapM members.get? with _ | waits <;> simp [bind]
  rw [hbind, mapM_eq_none_iff, mapM_eq_none_iff]
  constructor
  · rintro (⟨d, hd, hnone⟩ | ⟨d, hd, hnone⟩)
    · exact ⟨d, mem_append_left _ hd, hnone⟩
    · exact ⟨d, mem_append_right _ hd, hnone⟩
  · rintro ⟨d, hd, hnone⟩
    rcases mem_append.mp hd with hd | hd
    · exact .inl ⟨d, hd, hnone⟩
    · exact .inr ⟨d, hd, hnone⟩

lemma forall₂_imp_of_mem {α β : Type} {R S : α → β → Prop} {l : List α} {l' : List β}
    (h : List.Forall₂ R l l') (himp : ∀ a ∈ l, ∀ b, R a b → S a b) : List.Forall₂ S l l' := by
  induction h with
  | nil => exact .nil
  | cons hab _ ih =>
    exact .cons (himp _ mem_cons_self _ hab)
      (ih fun a ha => himp a (mem_cons_of_mem _ ha))

/-- A node whose dependencies did not fail has dependencies that succeeded. -/
lemma succeeded_of_gather (h : gather members node = some (false, outputs)) :
    ∀ d ∈ node.dependencies ++ node.waitFor, ∃ m, members.get? d = some m ∧
      m.state = .succeeded := by
  simp only [gather, Option.bind_eq_bind, Option.bind_eq_some_iff, Option.some.injEq,
    Prod.mk.injEq] at h
  obtain ⟨values, hvalues, waits, hwaits, hall, -⟩ := h
  rw [mapM_eq_some_iff] at hvalues hwaits
  have hboth : Forall₂ (fun d m => members.get? d = some m)
      (node.dependencies ++ node.waitFor) (values ++ waits) := rel_append hvalues hwaits
  intro d hd
  obtain ⟨m, hm, hget⟩ := exists_of_forall₂_left hboth hd
  refine ⟨m, hget, ?_⟩
  have := any_eq_false.mp hall m hm
  simpa using this

end Node

/-! ## Any number of visits -/

section Since

variable (codec : Codec) (c : Client)

/-- The intent that a visit gave the task at position `i`. -/
structure Settles (g g' : Graph) (i : ℕ) (intent : Intent) : Prop where
  intro ::
  settled : ∃ node signature index child failed outputs bytes e failure bytes',
    g.plan[i]? = some node ∧ node.kind = .task ∧ node.dispatched = false ∧
      g.done node.id = false ∧ node.signature = some signature ∧
      g.child? node.id = some (index, child) ∧ gather g'.members node = some (failed, outputs) ∧
      settleTask codec c signature child bytes failed outputs = .ok (e, failure, bytes') ∧
      g'.child? node.id = some (index, e) ∧ intent = settleIntent codec g.id e failure

/-- What visits did to a graph `g` on the way to `g'`, with the intents they added: `ps` are the
positions of the tasks that they settled. -/
structure Since (g g' : Graph) (ps : List ℕ) (settled : List Intent) : Prop where
  graph : g' = { g with members := g'.members, children := g'.children, plan := g'.plan }
  frame : g'.frame = g.frame
  kept : ∀ t m, g.members.get? t = some m → g'.members.get? t = some m
  collected : ∀ t m, g'.members.get? t = some m → g.members.get? t = some m ∨
    ∃ node ∈ g.plan, node.id = t ∧ node.kind = .collect ∧
      ∃ failed outputs, gather g'.members node = some (failed, outputs) ∧
        m = collectCompletion t failed outputs
  nodup : ps.Nodup
  plan : ∀ i, g'.plan[i]? =
    (g.plan[i]?).map fun node => if i ∈ ps then { node with dispatched := true } else node
  settles : List.Forall₂ (Settles codec c g g') ps settled
  children : ∀ i node, g.plan[i]? = some node → i ∉ ps → g'.child? node.id = g.child? node.id

variable {codec c}

lemma Since.refl (g : Graph) : Since codec c g g [] [] where
  graph := rfl
  frame := rfl
  kept _ _ h := h
  collected _ _ h := .inl h
  nodup := nodup_nil
  plan i := by simp
  settles := .nil
  children _ _ _ _ := rfl

variable {g : Graph} {i : ℕ}

lemma Settles.mono {g' g'' : Graph} {intent : Intent} (h : Settles codec c g g' i intent)
    (hkept : ∀ t m, g'.members.get? t = some m → g''.members.get? t = some m)
    (hchild : ∀ node, g.plan[i]? = some node → g''.child? node.id = g'.child? node.id) :
    Settles codec c g g'' i intent := by
  obtain ⟨node, signature, index, child, failed, outputs, bytes, e, failure, bytes', hnode, hkind,
    hdispatched, hundone, hsignature, hchild₁, hgather, hsettle, hchild₂, hintent⟩ := h
  exact ⟨node, signature, index, child, failed, outputs, bytes, e, failure, bytes', hnode, hkind,
    hdispatched, hundone, hsignature, hchild₁, gather_mono hkept hgather, hsettle,
    (hchild node hnode).trans hchild₂, hintent⟩

/-- Different nodes of a well-formed plan have different identifiers. -/
lemma Graph.WellFormed.plan_inj (hg : g.WellFormed) {j : ℕ} {n n' : CanvasNode}
    (hi : g.plan[i]? = some n) (hj : g.plan[j]? = some n') (h : n.id = n'.id) : i = j := by
  obtain ⟨hlt, -⟩ := List.getElem?_eq_some_iff.mp hi
  refine (getElem?_inj (by rwa [length_map]) hg.nodup_plan).mp ?_
  rw [getElem?_map, getElem?_map, hi, hj, Option.map_some, Option.map_some, h]

lemma Since.node_at {g' : Graph} {ps : List ℕ} {settled : List Intent} {node : CanvasNode}
    (h : Since codec c g g' ps settled) (hi : g'.plan[i]? = some node) :
    ∃ node₀, g.plan[i]? = some node₀ ∧
      node = if i ∈ ps then { node₀ with dispatched := true } else node₀ := by
  rw [h.plan i] at hi
  obtain ⟨node₀, hnode₀, rfl⟩ := Option.map_eq_some_iff.mp hi
  exact ⟨node₀, hnode₀, rfl⟩

/-- **One more visit.** -/
theorem Since.step {st₀ : Graph} {st st' : DagState} {ps : List ℕ} {settled : List Intent} {i : ℕ}
    (hwf : st₀.WellFormed) (h : Since codec c st₀ st.graph ps settled)
    (hturn : NodeTurn codec c st i st') :
    ∃ ps' settled', Since codec c st₀ st'.graph ps' settled' ∧
      ∃ more, settled' = settled ++ more ∧ st'.intents = st.intents ++ more := by
  cases hturn with
  | skips _ => exact ⟨ps, settled, h, [], by simp, by simp⟩
  | @collects node failed outputs hready hkind =>
    have hundone : st.graph.members.get? node.id = none := by
      simpa [Graph.done] using hready.undone
    -- A new completion touches no completion that is there.
    have hkept : ∀ t m, st.graph.members.get? t = some m →
        (st.graph.members.set node.id (collectCompletion node.id failed outputs)).get? t =
          some m := by
      intro t m hm
      rw [FinMap.get?_set_of_ne _ ?_, hm]
      rintro rfl
      rw [hundone] at hm
      cases hm
    refine ⟨ps, settled, ?_, [], by simp, by simp⟩
    obtain ⟨node₀, hnode₀, hnode⟩ := h.node_at hready.at_position
    have hid : node₀.id = node.id := by rw [hnode]; split_ifs <;> rfl
    have hkind₀ : node₀.kind = .collect := by rw [← hkind, hnode]; split_ifs <;> rfl
    have hgather₀ : ∀ members, gather members node₀ = gather members node := by
      intro members
      rw [hnode]
      split_ifs <;> rfl
    exact
      { graph := by rw [h.graph]
        frame := h.frame
        kept := fun t m hm => hkept t m (h.kept t m hm)
        collected := by
          intro t m hm
          rw [FinMap.get?_set] at hm
          split_ifs at hm with heq
          · refine .inr ⟨node₀, mem_of_getElem? hnode₀, hid.trans heq, hkind₀, failed,
              outputs, ?_, ?_⟩
            · rw [hgather₀]
              exact gather_mono hkept hready.gathered
            · rw [← heq]
              exact (Option.some.inj hm).symm
          · rcases h.collected t m hm with hold | ⟨n, hn, hnid, hnkind, f, o, hg, hm'⟩
            · exact .inl hold
            · exact .inr ⟨n, hn, hnid, hnkind, f, o, gather_mono hkept hg, hm'⟩
        nodup := h.nodup
        plan := h.plan
        settles := h.settles.imp fun _ _ hs => hs.mono hkept fun _ _ => rfl
        children := h.children }
  | @settles node failed outputs signature index child e failure bytes hready hkind hsignature
      hchild hsettle =>
      obtain ⟨he, -⟩ := settleTask_spec hsettle
      have heid : e.id = child.id := by rw [he]
      have hskeleton : e.skeleton = child.skeleton := by rw [he]; rfl
      obtain ⟨node₀, hnode₀, hnode⟩ := h.node_at hready.at_position
      -- The node was not settled before: it is not dispatched.
      have hnot : i ∉ ps := by
        intro hmem
        have hdispatched := hready.undispatched
        rw [hnode, if_pos hmem] at hdispatched
        cases hdispatched
      rw [if_neg hnot] at hnode
      subst hnode
      have hset : ∀ id, ({ st.graph with
          children := st.graph.children.set index e
          plan := st.graph.plan.set i { node with dispatched := true } } : Graph).child? id =
            if id = node.id then some (index, e) else st.graph.child? id :=
        fun id => child?_set hchild heid rfl
      have hother : ∀ j n, st₀.plan[j]? = some n → j ≠ i → n.id ≠ node.id :=
        fun j n hj hne heq => hne (hwf.plan_inj hj hnode₀ heq)
      refine ⟨ps ++ [i], settled ++ [settleIntent codec st.graph.id e failure], ?_, _, rfl, rfl⟩
      have hid : st.graph.id = st₀.id := Graph.id_of_frame h.frame
      exact
        { graph := by rw [h.graph]
          frame := by
            rw [← h.frame]
            simp only [Graph.frame]
            rw [map_set_of_eq (child?_eq_some.mp hchild).2 hskeleton,
              map_set_of_eq hready.at_position (CanvasNode.skeleton_dispatched node true)]
          kept := h.kept
          collected := h.collected
          nodup := by
            rw [nodup_append]
            refine ⟨h.nodup, nodup_singleton _, ?_⟩
            rintro a ha b hb rfl
            obtain rfl := mem_singleton.mp hb
            exact hnot ha
          plan := by
            intro j
            rcases eq_or_ne i j with rfl | hij
            · have hlt := (List.getElem?_eq_some_iff.mp hready.at_position).1
              rw [getElem?_set_self hlt, hnode₀]
              simp
            · rw [getElem?_set_ne hij, h.plan j]
              congr 1
              funext n
              simp [Ne.symm hij]
          settles := by
            refine rel_append ?_ (.cons ?_ .nil)
            · have hmem : ∀ j ∈ ps, j ≠ i := fun j hj heq => hnot (heq ▸ hj)
              refine forall₂_imp_of_mem h.settles fun j hj intent hs => ?_
              refine hs.mono (fun _ _ hm => hm) fun n hn => ?_
              rw [hset, if_neg (hother j n hn (hmem j hj))]
            · refine ⟨node, signature, index, child, failed, outputs, _, e, failure, bytes, hnode₀,
                hkind, hready.undispatched, ?_, hsignature, ?_, hready.gathered, hsettle, ?_, ?_⟩
              · rcases hdone : st₀.members.get? node.id with _ | m
                · simp [Graph.done, hdone]
                · have hundone := hready.undone
                  rw [Graph.done, h.kept _ _ hdone] at hundone
                  cases hundone
              · rw [← hchild]
                exact (h.children i node hnode₀ hnot).symm
              · rw [hset, if_pos rfl]
              · rw [hid]
          children := by
            intro j n hn hj
            simp only [mem_append, mem_singleton, not_or] at hj
            rw [hset, if_neg (hother j n hn hj.2)]
            exact h.children j n hn hj.1 }

/-- What a run of visits did, starting from the graph `g` and the intents `base`. -/
def Visited (codec : Codec) (c : Client) (g : Graph) (base : List Intent) (st : DagState) : Prop :=
  ∃ ps settled, Since codec c g st.graph ps settled ∧ st.intents = base ++ settled

lemma Visited.step {g : Graph} {base : List Intent} {st st' : DagState} {i : ℕ}
    (hwf : g.WellFormed) (h : Visited codec c g base st) (hturn : NodeTurn codec c st i st') :
    Visited codec c g base st' := by
  obtain ⟨ps, settled, hsince, hbase⟩ := h
  obtain ⟨ps', settled', hsince', more, rfl, hmore⟩ := hsince.step hwf hturn
  exact ⟨ps', _, hsince', by rw [hmore, hbase, append_assoc]⟩

end Since

/-! ## The end of the passes -/

section AtRest

/-- A node that the passes have yet to act on. -/
def Pending (g : Graph) (node : CanvasNode) : Bool := !g.done node.id && !node.dispatched

/-- How many nodes the passes have yet to act on. -/
def pendingCount (g : Graph) : ℕ := g.plan.countP (Pending g)

/-- No node of the plan is ready. -/
def AtRest (g : Graph) : Prop := ∀ node ∈ g.plan, Idle g node

variable {codec : Codec} {c : Client}

/-- A selection that loses an element and gains none has fewer elements. -/
lemma countP_lt_countP {α : Type} {p q : α → Bool} {l : List α} {a : α}
    (himp : ∀ b ∈ l, p b = true → q b = true) (ha : a ∈ l) (hp : p a = false)
    (hq : q a = true) : l.countP p < l.countP q := by
  obtain ⟨l, l', rfl⟩ := append_of_mem ha
  have hle : l.countP p ≤ l.countP q :=
    countP_mono_left fun b hb => himp b (mem_append_left _ hb)
  have hle' : l'.countP p ≤ l'.countP q :=
    countP_mono_left fun b hb => himp b (mem_append_right _ (mem_cons_of_mem _ hb))
  rw [countP_append, countP_append, countP_cons_of_neg (by simp [hp]), countP_cons_of_pos hq]
  omega

variable {st st' : DagState} {turns : ℕ} {g : Graph} {base : List Intent}

/-- A visit that acts on a node leaves fewer to act on. -/
lemma pendingCount_of_nodeTurn (h : NodeTurn codec c st i st') :
    (st' = st ∧ ∀ node, st.graph.plan[i]? = some node → Idle st.graph node) ∨
      (st'.progress = true ∧ pendingCount st'.graph < pendingCount st.graph) := by
  cases h with
  | skips hidle => exact .inl ⟨rfl, hidle⟩
  | @collects node failed outputs hready hkind =>
    refine .inr ⟨rfl, countP_lt_countP ?_ (mem_of_getElem? hready.at_position) ?_ ?_⟩
    · intro b _ hb
      simp only [Pending, Graph.done, FinMap.get?_set] at hb ⊢
      split_ifs at hb with heq
      · simp at hb
      · exact hb
    · simp [Pending, Graph.done]
    · simp [Pending, hready.undone, hready.undispatched]
  | @settles node failed outputs signature index child e failure bytes hready hkind hsignature
      hchild hsettle =>
      obtain ⟨hlt, hget⟩ := List.getElem?_eq_some_iff.mp hready.at_position
      refine .inr ⟨rfl, ?_⟩
      have hpending : Pending st.graph (st.graph.plan[i]) = true := by
        rw [hget]
        simp [Pending, hready.undone, hready.undispatched]
      have hcount := boole_getElem_le_countP (p := Pending st.graph) hlt
      rw [if_pos hpending] at hcount
      have hset := countP_set (p := Pending st.graph) (a := { node with dispatched := true })
        hlt
      rw [if_pos hpending, if_neg (by simp [Pending])] at hset
      show (st.graph.plan.set i _).countP (Pending st.graph) < st.graph.plan.countP _
      rw [hset]
      omega

/-- A run of visits acts on nodes, or changes nothing and finds every node idle. -/
lemma visits_spec {l : List ℕ} (h : run (dagNode codec c) st l = .ok st') :
    (st' = st ∧ ∀ i ∈ l, ∀ node, st.graph.plan[i]? = some node → Idle st.graph node) ∨
    (st'.progress = true ∧ pendingCount st'.graph < pendingCount st.graph) := by
  induction l generalizing st with
  | nil =>
    rw [run_nil, Except.ok.injEq] at h
    exact .inl ⟨h.symm, by simp⟩
  | cons i rest ih =>
    obtain ⟨st₁, hstep, hrest⟩ := run_cons_eq_ok.mp h
    rcases pendingCount_of_nodeTurn (nodeTurn_of_dagNode hstep) with
      ⟨rfl, hidle₁⟩ | ⟨hprogress, hlt⟩
    · rcases ih hrest with ⟨rfl, hidle⟩ | hmore
      · refine .inl ⟨rfl, fun j hj node hnode => ?_⟩
        rcases mem_cons.mp hj with rfl | hj
        · exact hidle₁ node hnode
        · exact hidle j hj node hnode
      · exact .inr hmore
    · rcases ih hrest with ⟨rfl, -⟩ | ⟨hprogress', hlt'⟩
      · exact .inr ⟨hprogress, hlt⟩
      · exact .inr ⟨hprogress', hlt'.trans hlt⟩

/-- A pass acts on nodes, or finds nothing to do. -/
lemma pass_spec (h : dagPass codec c st = .ok st') :
    (st'.progress = false ∧ AtRest st'.graph) ∨
      (st'.progress = true ∧ pendingCount st'.graph < pendingCount st.graph) := by
  rcases visits_spec h with ⟨rfl, hidle⟩ | hmore
  · refine .inl ⟨rfl, fun node hnode => ?_⟩
    obtain ⟨i, hi, rfl⟩ := getElem_of_mem hnode
    exact hidle i (mem_range.mpr hi) _ (getElem?_eq_getElem hi)
  · exact .inr hmore

/-- **What every visit keeps, the passes keep.** -/
theorem dagTurns_invariant {P : DagState → Prop}
    (hvisit : ∀ st i st', P st → NodeTurn codec c st i st' → P st')
    (hbegin : ∀ st, P st → P { st with progress := false }) (hst : P st)
    (h : dagTurns codec c turns st = .ok st') : P st' := by
  induction turns generalizing st with
  | zero =>
    cases h
    exact hst
  | succ turns ih =>
    unfold dagTurns at h
    obtain ⟨st₁, hpass, h⟩ := bind_eq_ok.mp h
    have hst₁ : P st₁ := run_invariant
      (fun _ _ _ hs hstep => hvisit _ _ _ hs (nodeTurn_of_dagNode hstep)) (hbegin st hst) hpass
    split_ifs at h
    · exact ih hst₁ h
    · cases h
      exact hst₁

lemma Visited.pass (hwf : g.WellFormed) (h : Visited codec c g base st)
    (hpass : dagPass codec c st = .ok st') : Visited codec c g base st' :=
  run_invariant (fun _ _ _ hs hstep => Visited.step hwf hs (nodeTurn_of_dagNode hstep))
    (s := { st with progress := false }) h hpass

/-- **The passes end with nothing left to do**: one for every node that is pending is enough. -/
theorem dagTurns_atRest (hwf : g.WellFormed) (hvisited : Visited codec c g base st)
    (hturns : pendingCount st.graph < turns) (h : dagTurns codec c turns st = .ok st') :
    Visited codec c g base st' ∧ AtRest st'.graph := by
  induction turns generalizing st with
  | zero => omega
  | succ turns ih =>
    unfold dagTurns at h
    obtain ⟨st₁, hpass, h⟩ := bind_eq_ok.mp h
    have hvisited₁ := hvisited.pass hwf hpass
    rcases pass_spec hpass with ⟨hprogress, hrest⟩ | ⟨hprogress, hlt⟩
    · rw [if_neg (by simp [hprogress])] at h
      cases h
      exact ⟨hvisited₁, hrest⟩
    · rw [if_pos hprogress] at h
      exact ih hvisited₁ (by omega) h

end AtRest

/-! ## Winding down a plan -/

section Plan

variable (codec : Codec)

/-- The nodes that a test selects, with their envelopes. -/
def selectTasks (g : Graph) (test : CanvasNode → Bool) : List (Envelope × CanvasNode) :=
  (g.plan.filter test).filterMap fun node => (g.child? node.id).map fun p => (p.2, node)

/-- The plan in which the nodes that a test selects are dispatched. -/
def dispatchTasks (g : Graph) (test : CanvasNode → Bool) : List CanvasNode :=
  g.plan.map fun node => if test node then { node with dispatched := true } else node

/-- A task that is not recorded. -/
def waitingTask (g : Graph) (node : CanvasNode) : Bool := node.kind == .task && !g.done node.id

/-- A task that is neither recorded nor dispatched. -/
def undispatchedTask (g : Graph) (node : CanvasNode) : Bool :=
  waitingTask g node && !node.dispatched

variable {codec}

variable {g : Graph}

/-- A map over the plan that dispatches the nodes of a test and gives each an intent. -/
lemma mapM_plan (test : CanvasNode → Bool) (intent : Envelope → CanvasNode → Intent)
    {f : CanvasNode → Except Err (CanvasNode × List Intent)}
    (hskip : ∀ node, test node = false → f node = .ok (node, []))
    (hfound : ∀ node index child, test node = true → g.child? node.id = some (index, child) → f node
      = .ok ({ node with dispatched := true }, [intent child node]))
    (hmissing : ∀ node, test node = true → g.child? node.id = none → f node = .error .invalid)
    {nodes : List (CanvasNode × List Intent)} (h : g.plan.mapM f = .ok nodes) :
    nodes.map Prod.fst = dispatchTasks g test ∧
      nodes.flatMap Prod.snd = (selectTasks g test).map fun p => intent p.1 p.2 := by
  rw [mapM_eq_ok_iff] at h
  unfold dispatchTasks selectTasks
  generalize g.plan = plan at h
  induction h with
  | nil => exact ⟨rfl, rfl⟩
  | @cons node r l rs hnode _ ih =>
    rcases htest : test node with _ | _
    · rw [hskip node htest] at hnode
      cases hnode
      simp [htest, ih]
    · rcases hchild : g.child? node.id with _ | ⟨index, child⟩
      · rw [hmissing node htest hchild] at hnode
        cases hnode
      · rw [hfound node index child htest hchild] at hnode
        cases hnode
        simp [htest, hchild, ih]

/-- What the cancellation of a compiled graph does to its plan. -/
lemma cancelPlan_spec {start : Graph} {canceled : List Intent}
    (h : cancelPlan codec g = .ok (start, canceled)) :
    (g.cancelRequested = false ∧ start = g ∧ canceled = []) ∨
    (g.cancelRequested = true ∧ start = { g with plan := dispatchTasks g (waitingTask g) } ∧
      canceled = (selectTasks g (waitingTask g)).map fun p =>
        cancellationIntent codec g.id p.1 p.2.dispatched) := by
  unfold cancelPlan at h
  split_ifs at h with hcancel
  · obtain ⟨nodes, hnodes, h⟩ := bind_eq_ok.mp h
    cases h
    have hguard : ∀ node, (node.kind = .task ∧ (!g.done node.id) = true) ↔
        waitingTask g node = true := by simp [waitingTask]
    obtain ⟨hplan, hintents⟩ := mapM_plan (waitingTask g)
      (fun child node => cancellationIntent codec g.id child node.dispatched)
      (fun node htest => by simp only [cancelNode, hguard, htest]; rfl)
      (fun node index child htest hchild => by
        simp only [cancelNode, hguard, htest, hchild, if_true])
      (fun node htest hchild => by simp only [cancelNode, hguard, htest, hchild, if_true]) hnodes
    exact .inr ⟨hcancel, by rw [hplan], hintents⟩
  · cases h
    exact .inl ⟨by simpa using hcancel, rfl, rfl⟩

/-- What an abort does to the plan of a compiled graph. -/
lemma AbortTurn.dag_spec {next : Graph} {f : Failure} {settled : List Intent}
    (h : AbortTurn codec g f next settled) (hkind : g.kind = .dag) :
    next.plan = dispatchTasks g (undispatchedTask g) ∧
      settled = (selectTasks g (undispatchedTask g)).map fun p => abortIntent codec g.id f p.1 := by
  obtain ⟨nodes, hnodes, hplan, hsettled⟩ := h.dag hkind
  have hguard : ∀ node, (node.kind = .task ∧ (!g.done node.id) = true ∧
      (!node.dispatched) = true) ↔ undispatchedTask g node = true := by
    simp [undispatchedTask, waitingTask, and_assoc]
  obtain ⟨hplan', hintents⟩ := mapM_plan (undispatchedTask g)
    (fun child _ => abortIntent codec g.id f child)
    (fun node htest => by simp only [abortNode, hguard, htest]; rfl)
    (fun node index child htest hchild => by simp only [abortNode, hguard, htest, hchild, if_true])
    (fun node htest hchild => by simp only [abortNode, hguard, htest, hchild, if_true]) hnodes
  exact ⟨hplan.trans hplan', hsettled.trans hintents⟩

end Plan

/-! ## The whole transition -/

section Nested

variable {codec : Codec} {c : Client}

/-- The frame does not see which tasks are dispatched. -/
lemma frame_dispatchTasks (g : Graph) (test : CanvasNode → Bool) :
    ({ g with plan := dispatchTasks g test } : Graph).frame = g.frame := by
  simp only [Graph.frame, dispatchTasks, List.map_map]
  congr 1
  apply map_congr_left
  intro node _
  simp only [Function.comp_apply]
  split_ifs
  · exact CanvasNode.skeleton_dispatched node true
  · rfl

variable (codec c) in
/-- The transition of a compiled graph that has not ended: its cancellation, the passes, and the end
when the root is recorded. -/
structure NestedTurn (g next : Graph) (intents : List Intent) : Prop where
  intro ::
  turn : ∃ start canceled st ps settled,
    cancelPlan codec g = .ok (start, canceled) ∧ Since codec c start st ps settled ∧ AtRest st ∧
      next = (concludeNested codec st).1 ∧
      intents = canceled ++ settled ++ (concludeNested codec st).2

/-- **The transition of a compiled graph that has not ended.** -/
theorem nestedTurn_of_advanceNested {r : Graph × List Intent} (hwf : g.WellFormed)
    (hterminal : g.state.terminal = false) (h : advanceNested codec c g = .ok r) :
    NestedTurn codec c g r.1 r.2 := by
  unfold advanceNested at h
  rw [if_neg (by simp [hterminal])] at h
  split_ifs at h
  obtain ⟨⟨start, canceled⟩, hcancel, h⟩ := bind_eq_ok.mp h
  obtain ⟨st, hturns, h⟩ := bind_eq_ok.mp h
  cases h
  have hstart : start.WellFormed := by
    rcases cancelPlan_spec hcancel with ⟨-, rfl, -⟩ | ⟨-, rfl, -⟩
    · exact hwf
    · exact hwf.of_frame (frame_dispatchTasks g _)
  have hbegin : Visited codec c start canceled
      { graph := start, argumentBytes := argumentBytes codec g, intents := canceled } :=
    ⟨[], [], Since.refl start, by simp⟩
  obtain ⟨⟨ps, settled, hsince, hintents⟩, hrest⟩ :=
    dagTurns_atRest hstart hbegin (Nat.lt_succ_of_le countP_le_length) hturns
  exact ⟨start, canceled, st.graph, ps, settled, hcancel, hsince, hrest, rfl, by
    rw [hintents]
    rfl⟩

end Nested

end Gogo.Async

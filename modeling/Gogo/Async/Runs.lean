import Gogo.Async.Shape
import Gogo.Async.Workflows

/-!
# Runs of a workflow

How workflows begin and what calls make of them, in the form that invariants are proved with.

* `Begins` — a workflow is created by a transition of a graph to which nothing has happened, or as a
  flat graph with its first dispatches; `Started.begins`. `Origin` says less, without a condition on
  identifiers; `Started.origin`.
* `Prepared` — what a call hands to the transition.
* `ReachesWhile` — calls that all meet a condition; `ReachesWhile.invariant`: the rule of invariants.
* `sampleStart`, `sampleRun` — a small client whose workflows can be run.
-/

namespace Gogo.Async

open List Gogo.Lib

variable {codec : Codec} {c : Client}

/-! ## How workflows begin -/

variable (codec c) in
/-- How a workflow begins. -/
inductive Begins : Workflow → Prop
  | advanced {g : Graph} {env : Env} {cancelRequested : Bool} {r : Graph × List Intent}
      (hwf : g.WellFormed) (hfresh : g.Fresh) (hempty : g.kind = .dag ∨ g.children = [])
      (h : advance codec c env { g with cancelRequested := cancelRequested } = .ok r) :
      Begins (createGraph r)
  | dispatched {g : Graph} (hwf : g.WellFormed) (hfresh : g.Fresh) (hkind : g.kind ≠ .dag)
      (hchildren : g.children ≠ []) : Begins (createGraph (g, flatIntents codec g))

variable {g : Graph} {env : ℕ → Env} {now : Env} {id : String} {canvas : Canvas}
  {r : Graph × List Intent} {original : Envelope} {d : Definition} {w w' : Workflow}
  {store : FlowStore}

lemma Graph.Fresh.cancelRequested_eq (h : g.Fresh) : { g with cancelRequested := false } = g := by
  rw [← h.cancelRequested]

/-- What `ApplyCanvas` begins with: a compiled graph that it advances, or a flat one, which it
advances only when it has no children. -/
lemma applyCanvas_cases (h : applyCanvas codec c env now id canvas = .ok r) :
    (∃ g root, compileCanvas codec c env { graph := { id := id, kind := .dag } } canvas =
        .ok (g, root) ∧ advance codec c now g = .ok r) ∨
      ∃ g, flatGraph codec c env id canvas = .ok g ∧
        (g.children = [] ∧ advance codec c now g = .ok r ∨
          g.children ≠ [] ∧ r = (g, flatIntents codec g)) := by
  have hnested : applyNested codec c env now id canvas = .ok r → ∃ g root, compileCanvas codec c env
      { graph := { id := id, kind := .dag } } canvas = .ok (g, root) ∧
        advance codec c now g = .ok r := by
    intro h
    obtain ⟨⟨g, root⟩, hcompile, h⟩ := bind_eq_ok.mp h
    obtain ⟨_, _, h⟩ := bind_eq_ok.mp h
    obtain ⟨r', hadvance, h⟩ := bind_eq_ok.mp h
    obtain ⟨_, _, h⟩ := bind_eq_ok.mp h
    cases h
    exact ⟨g, root, hcompile, hadvance⟩
  unfold applyCanvas at h
  split at h
  · exact .inl (hnested h)
  · exact .inl (hnested h)
  · exact .inl (hnested h)
  · obtain ⟨_, _, h⟩ := bind_eq_ok.mp h
    obtain ⟨g, hgraph, h⟩ := bind_eq_ok.mp h
    obtain ⟨_, _, h⟩ := bind_eq_ok.mp h
    obtain ⟨r', hr', h⟩ := bind_eq_ok.mp h
    obtain ⟨_, _, h⟩ := bind_eq_ok.mp h
    cases h
    refine .inr ⟨g, hgraph, ?_⟩
    unfold flatBegin at hr'
    split_ifs at hr' with hchildren
    · exact .inl ⟨hchildren, hr'⟩
    · exact .inr ⟨hchildren, (Except.ok.inj hr').symm⟩

/-- What `prepareReplacement` compiles. -/
lemma prepareReplacement_compiled (h : prepareReplacement codec c env original d canvas = .ok g) :
    ∃ canvas' start g₀ root, inherit original compileDepth canvas = .ok canvas' ∧
      start.Sound codec ∧ start.graph.plan = [] ∧ start.graph.children = [] ∧
      compileCanvas codec c env start canvas' = .ok (g₀, root) ∧
      g = { g₀ with
        children := g₀.children.map
          (placeReplacement original (codec.stableId original.id "replacement")) } := by
  unfold prepareReplacement at h
  obtain ⟨_, _, h⟩ := bind_eq_ok.mp h
  obtain ⟨canvas', hinherit, h⟩ := bind_eq_ok.mp h
  obtain ⟨⟨g₀, root⟩, hcompile, h⟩ := bind_eq_ok.mp h
  obtain ⟨_, _, h⟩ := bind_eq_ok.mp h
  obtain ⟨_, _, h⟩ := bind_eq_ok.mp h
  obtain ⟨_, _, h⟩ := bind_eq_ok.mp h
  obtain ⟨_, _, h⟩ := bind_eq_ok.mp h
  cases h
  refine ⟨canvas', _, g₀, root, hinherit, ?_, ?_, ?_, hcompile, rfl⟩
  · exact .start rfl rfl rfl rfl rfl
      ⟨rfl, rfl, rfl, rfl, rfl, rfl, rfl, rfl, rfl, Nat.one_pos, fun _ h => by cases h⟩
  · rfl
  · rfl

/-- The graph of a replacement is well formed, and nothing has happened to it. -/
lemma prepareReplacement_sound (hids : StableIds codec)
    (h : prepareReplacement codec c env original d canvas = .ok g) :
    g.WellFormed ∧ g.Fresh ∧ g.kind = .dag := by
  obtain ⟨canvas', start, g', root, -, hstart, -, -, hcompile, rfl⟩ :=
    prepareReplacement_compiled h
  obtain ⟨hwf, hfresh, hkind, -, -⟩ := compileCanvas_sound hids hstart hcompile
  have hsame : (g'.children.map (placeReplacement original
      (codec.stableId original.id "replacement"))).map Envelope.id = g'.childIds := by
    rw [List.map_map]
    rfl
  exact ⟨hwf.with_children hsame,
    ⟨hfresh.members, hfresh.state, hfresh.output, hfresh.failure, hfresh.next,
      hfresh.callbackClaimed, hfresh.callbackEnvelope, hfresh.cancelRequested,
      hfresh.abortFailure, hfresh.revision, hfresh.dispatched⟩, hkind⟩

/-- **Every workflow begins in one of the two ways.** -/
theorem Started.begins (hids : StableIds codec) (h : Started codec c w) : Begins codec c w := by
  cases h with
  | @applied env now id canvas r h =>
    rcases applyCanvas_cases h with ⟨g, root, hcompile, hadvance⟩ | ⟨g, hgraph, hflat⟩
    · have hstart : Compiler.Sound codec { graph := { id := id, kind := .dag } } :=
        .start rfl rfl rfl rfl rfl ⟨rfl, rfl, rfl, rfl, rfl, rfl, rfl, rfl, rfl, Nat.one_pos, nofun⟩
      obtain ⟨hwf, hfresh, hkind, -, -⟩ := compileCanvas_sound hids hstart hcompile
      rw [← hfresh.cancelRequested_eq] at hadvance
      exact .advanced hwf hfresh (.inl hkind) hadvance
    · obtain ⟨hwf, hfresh⟩ := flatGraph_sound hids hgraph
      rcases hflat with ⟨hchildren, hadvance⟩ | ⟨hchildren, rfl⟩
      · rw [← hfresh.cancelRequested_eq] at hadvance
        exact .advanced hwf hfresh (.inr hchildren) hadvance
      · refine .dispatched hwf hfresh ?_ hchildren
        rw [(flatGraph_eq hgraph).1]
        show canvas.kind.graphKind ≠ .dag
        rcases canvas.kind with _ | _ | _ | _ | _ | _ | _ <;> nofun
  | @replaced env now original d canvas g cancelRequested r hprepare h =>
    obtain ⟨hwf, hfresh, hkind⟩ := prepareReplacement_sound hids hprepare
    exact .advanced (hwf.of_frame g.frame_clone) hfresh.clone (.inl hkind) h

/-- Nothing was recorded of a graph, whatever its identifiers are. -/
structure Graph.Untouched (g : Graph) : Prop where
  members : g.members = .empty
  state : g.state = .running
  callbackClaimed : g.callbackClaimed = false
  abortFailure : g.abortFailure = none
  callback_ne : g.callback.isSome → g.callbackId ≠ ""

variable (codec c) in
/-- How a workflow begins, whatever its identifiers are. -/
inductive Origin : Workflow → Prop
  | advanced {g : Graph} {env : Env} {r : Graph × List Intent} (huntouched : g.Untouched)
      (h : advance codec c env g = .ok r) : Origin (createGraph r)
  | dispatched {g : Graph} (huntouched : g.Untouched) : Origin (createGraph (g, flatIntents codec g))

/-- **Every workflow begins with a graph of which nothing was recorded.** -/
theorem Started.origin (h : Started codec c w) : Origin codec c w := by
  cases h with
  | @applied env now id canvas r h =>
    rcases applyCanvas_cases h with ⟨g, root, hcompile, hadvance⟩ | ⟨g, hgraph, hflat⟩
    · refine .advanced ?_ hadvance
      rw [compileCanvas_eq hcompile]
      exact ⟨rfl, rfl, rfl, rfl, nofun⟩
    · obtain ⟨hfields, hsome, -⟩ := flatGraph_eq hgraph
      have huntouched : g.Untouched := by
        have hcallback : canvas.callback.isSome → g.callbackId ≠ "" := fun h => by
          rw [hsome h]
          exact codec.stableId_ne _ _
        rw [hfields]
        exact ⟨rfl, rfl, rfl, rfl, hcallback⟩
      rcases hflat with ⟨-, hadvance⟩ | ⟨-, rfl⟩
      · exact .advanced huntouched hadvance
      · exact .dispatched huntouched
  | @replaced env now original d canvas g cancelRequested r hprepare h =>
    unfold prepareReplacement at hprepare
    obtain ⟨_, _, hprepare⟩ := bind_eq_ok.mp hprepare
    obtain ⟨canvas', _, hprepare⟩ := bind_eq_ok.mp hprepare
    obtain ⟨⟨g', root⟩, hcompile, hprepare⟩ := bind_eq_ok.mp hprepare
    obtain ⟨_, _, hprepare⟩ := bind_eq_ok.mp hprepare
    obtain ⟨_, _, hprepare⟩ := bind_eq_ok.mp hprepare
    obtain ⟨_, _, hprepare⟩ := bind_eq_ok.mp hprepare
    obtain ⟨_, _, hprepare⟩ := bind_eq_ok.mp hprepare
    cases hprepare
    refine .advanced ?_ h
    rw [compileCanvas_eq hcompile]
    exact ⟨rfl, rfl, rfl, rfl, nofun⟩

/-- The graph of a new workflow is stored as a copy. -/
lemma Begins.clone_eq (h : Begins codec c w) : w.graph.clone = w.graph := by
  cases h <;> exact Graph.clone_clone _

@[inherit_doc Begins.clone_eq]
lemma Origin.clone_eq (h : Origin codec c w) : w.graph.clone = w.graph := by
  cases h <;> exact Graph.clone_clone _

/-! ## Calls -/

/-- What a call that writes hands to the transition. -/
inductive Prepared (store : FlowStore) (g : Graph) : FlowOp → Graph → Prop
  | record {m : Completion} (hundone : g.done m.id = false) (hterminal : m.state.terminal = true)
      (hexpected : expectsMember store g m.id = true) : Prepared store g (.recordMember m) (g.record m)
  | cancel {scope : String} (hopen : g.state.terminal = false) :
      Prepared store g (.cancelGraph scope) { g with cancelRequested := true }

lemma prepared_of_flowCall {env : Env} {op : FlowOp}
    (h : flowCall codec c store env g op = .ok (some r)) :
    ∃ g' next, Prepared store g op g' ∧ advance codec c env g' = .ok (next, r.2) ∧
      r.1 = { next with revision := r.1.revision } := by
  obtain ⟨g', next, hadvance, hr, ⟨m, rfl, rfl, hundone, hterminal, hexpected⟩ |
    ⟨scope, rfl, rfl, hopen⟩⟩ := flowCall_eq_some h
  · exact ⟨_, next, .record hundone hterminal hexpected, hadvance, hr⟩
  · exact ⟨_, next, .cancel hopen, hadvance, hr⟩

variable (codec c) in
/-- What calls that all meet a condition lead to. -/
inductive ReachesWhile (store : FlowStore) (ok : Workflow → FlowOp → Prop) (w : Workflow) :
    Workflow → Prop
  | refl : ReachesWhile store ok w w
  | step {w' : Workflow} {op : FlowOp} {env : Env} (h : ReachesWhile store ok w w') (hop : ok w' op) :
      ReachesWhile store ok w (flowStep codec c store w' (op, env))

lemma Reaches.reachesWhile (h : Reaches codec c store w w') :
    ReachesWhile codec c store (fun _ _ => True) w w' := by
  obtain ⟨calls, rfl⟩ := h
  induction calls using List.reverseRecOn with
  | nil => exact .refl
  | append_singleton calls call ih =>
    rw [foldl_append]
    exact .step ih trivial

/-- **The rule of invariants**: what holds of every workflow that begins, and of what every write
stores, holds of everything that calls lead to. -/
theorem ReachesWhile.invariant {ok : Workflow → FlowOp → Prop}
    {P : Graph → List (List Intent) → Prop} (hreach : ReachesWhile codec c store ok w w')
    (hfixed : w.graph.clone = w.graph) (hw : P w.graph w.batches)
    (hwrite : ∀ g batches op env g' next intents, ReachesWhile codec c store ok w ⟨g, batches⟩ →
      g.clone = g → P g batches → ok ⟨g, batches⟩ op → Prepared store g op g' → advance codec c env
      g' = .ok (next, intents) → P next (batches ++ [intents]))
    (hrevision : ∀ g batches n, P g batches → P { g with revision := n } batches)
    (hclone : ∀ g batches, P g batches → P g.clone batches) : P w'.graph w'.batches := by
  suffices w'.graph.clone = w'.graph ∧ P w'.graph w'.batches from this.2
  induction hreach with
  | refl => exact ⟨hfixed, hw⟩
  | @step w' op env h hop ih =>
    rcases @flowStep_cases codec c store w' (op, env) with heq | ⟨r, hr, heq⟩
    · rw [heq]
      exact ih
    · rw [heq]
      obtain ⟨g', next, hprepared, hadvance, hnext⟩ := prepared_of_flowCall hr
      refine ⟨Graph.clone_clone _, ?_⟩
      show P r.1.clone (w'.batches ++ [r.2])
      apply hclone
      rw [hnext]
      exact hrevision _ _ _ (hwrite _ _ op env g' next r.2 h ih.1 ih.2 hop hprepared hadvance)

/-! ## A small client

A concrete workflow to run: two tasks and a codec with different identifiers. -/

/-- The identifier of the sample workflow. -/
def sampleRoot : String := "f0000000-0000-4000-8000-000000000000"

/-- The identifiers of its tasks. -/
def sampleTable : List (String × String) :=
  [("child-0", "f0000000-0000-4000-8000-000000000001"),
   ("child-1", "f0000000-0000-4000-8000-000000000002"),
   ("body", "f0000000-0000-4000-8000-000000000003"),
   ("task-0", "f0000000-0000-4000-8000-000000000004"),
   ("task-1", "f0000000-0000-4000-8000-000000000005"),
   ("task-2", "f0000000-0000-4000-8000-000000000006"),
   ("task-3", "f0000000-0000-4000-8000-000000000007")]

/-- An encoding of two texts in one. -/
def sampleEncode (source label : String) : String :=
  String.ofList (source.toList.flatMap (fun ch => ['0', ch]) ++ '1' :: label.toList)

lemma sampleEncode_inj {source label source' label' : String}
    (h : sampleEncode source label = sampleEncode source' label') :
    source = source' ∧ label = label' := by
  have hlist : ∀ l l' r r' : List Char,
      l.flatMap (fun ch => ['0', ch]) ++ '1' :: r = l'.flatMap (fun ch => ['0', ch]) ++ '1' :: r' →
      l = l' ∧ r = r' := by
    intro l
    induction l with
    | nil =>
      intro l' r r' h
      rcases l' with _ | ⟨ch, l'⟩
      · exact ⟨rfl, by simpa using h⟩
      · simp at h
    | cons ch l ih =>
      intro l' r r' h
      rcases l' with _ | ⟨ch', l'⟩
      · simp at h
      · simp only [flatMap_cons, cons_append, nil_append, List.cons.injEq,
          true_and] at h
        obtain ⟨rfl, h⟩ := h
        obtain ⟨rfl, rfl⟩ := ih l' r r' h
        exact ⟨rfl, rfl⟩
  have h := String.ofList_injective h
  obtain ⟨hs, hl⟩ := hlist _ _ _ _ h
  exact ⟨String.toList_injective hs, String.toList_injective hl⟩

lemma sampleEncode_head (source label : String) :
    (sampleEncode source label).toList.head? ≠ some 'f' := by
  rw [sampleEncode, String.toList_ofList]
  rcases source.toList with _ | ⟨ch, l⟩ <;> simp

/-- Identifiers from a table for one source, and encodings otherwise. -/
def tableStableId (table : List (String × String)) (source label : String) : String :=
  if source = sampleRoot then ((table.find? fun p => p.1 == label).map Prod.snd).getD
    (sampleEncode source label)
  else sampleEncode source label

/-- The identifiers of a table are different from each other and from encodings. -/
structure IdTable (table : List (String × String)) : Prop where
  head : ∀ p ∈ table, p.2.toList.head? = some 'f'
  inj : ∀ p ∈ table, ∀ q ∈ table, p.2 = q.2 → p.1 = q.1

section IdTable

variable {table : List (String × String)}

lemma tableStableId_cases (source label : String) :
    (source = sampleRoot ∧ (label, tableStableId table source label) ∈ table) ∨
      tableStableId table source label = sampleEncode source label := by
  unfold tableStableId
  split_ifs with hsource
  · rcases hfind : table.find? fun p => p.1 == label with _ | ⟨label', id⟩
    · exact .inr (by rw [hfind, Option.map_none, Option.getD_none])
    · have hlabel : label' = label := by simpa using find?_some hfind
      subst hlabel
      rw [hfind, Option.map_some, Option.getD_some]
      exact .inl ⟨hsource, mem_of_find?_eq_some hfind⟩
  · exact .inr rfl

lemma IdTable.ne (h : IdTable table) (source label : String) :
    tableStableId table source label ≠ "" := by
  intro heq
  rcases @tableStableId_cases table source label with ⟨-, hmem⟩ | hencode
  · have := h.head _ hmem
    rw [heq] at this
    cases this
  · rw [hencode, sampleEncode] at heq
    have := congrArg String.toList heq
    rw [String.toList_ofList] at this
    simp at this

lemma IdTable.stableIds (hids : IdTable table) {source label source' label' : String}
    (h : tableStableId table source label = tableStableId table source' label') :
    source = source' ∧ label = label' := by
  rcases @tableStableId_cases table source label with ⟨rfl, hmem⟩ | heq <;>
    rcases @tableStableId_cases table source' label' with ⟨rfl, hmem'⟩ | heq'
  · exact ⟨rfl, hids.inj _ hmem _ hmem' h⟩
  · have := hids.head _ hmem
    rw [h, heq'] at this
    exact absurd this (sampleEncode_head _ _)
  · have := hids.head _ hmem'
    rw [← h, heq] at this
    exact absurd this (sampleEncode_head _ _)
  · rw [heq, heq'] at h
    exact sampleEncode_inj h

end IdTable

lemma sampleTable_ids : IdTable sampleTable := ⟨by decide, by decide⟩

/-- A codec with short encodings, but for a length of graphs of its own. -/
def sampleCodec (graphLength : Graph → Option ℕ) : Codec where
  stableId := tableStableId sampleTable
  stableId_ne := sampleTable_ids.ne
  hash _ := ""
  jsonLength _ := 4
  envelopeLength _ := some 4
  graphLength := graphLength
  intentsLength l := some l.length

lemma sampleCodec_stableIds (graphLength : Graph → Option ℕ) :
    StableIds (sampleCodec graphLength) := fun _ _ _ _ => sampleTable_ids.stableIds

/-- A task that takes every payload. -/
def sampleDefinition (input output : GoType) : Definition where
  input := input
  output := output
  validate _ := .ok ()
  validateOutput _ := .ok ()
  queue := "default"
  maxRetries := none

/-- Two tasks: one takes a number, one takes a list of numbers. -/
def sampleClient : Client where
  registry :=
    { definitions := .ofList
        [("job@1", sampleDefinition (.plain "int") (.plain "int")),
          ("sum@1", sampleDefinition (.slice "" (.plain "int")) (.plain "int"))]
      fields := fun _ => [] }
  queues := ["default"]
  routes := []
  headers := []
  pathMatch _ _ := false
  authorizer := none

/-- A moment for the sample workflow. -/
def sampleEnv : Env := ⟨1, .ok sampleRoot⟩

/-- A task that takes a number. -/
def sampleJob : Signature := { task := "job", version := 1, args := some .null }

/-- A task that takes a list of numbers. -/
def sampleSum : Signature := { task := "sum", version := 1, args := some .null }

/-- The completion of the sample task with this label. -/
def sampleCompletion (label : String) (state : State) (output : RawMessage) : Completion :=
  { id := tableStableId sampleTable sampleRoot label, state := state, output := output }

section SampleRun

variable (graphLength : Graph → Option ℕ) (canvas : Canvas)

/-- What `ApplyCanvas` makes of a canvas. -/
def sampleApply : Advanced :=
  applyCanvas (sampleCodec graphLength) sampleClient (fun _ => sampleEnv) sampleEnv sampleRoot canvas

/-- The workflow of a canvas that is accepted. -/
def sampleStart : Workflow :=
  match sampleApply graphLength canvas with
  | .ok r => createGraph r
  | .error _ => ⟨{ id := sampleRoot, kind := .group }, []⟩

/-- The workflow after some calls on the store in memory. -/
def sampleRun (ops : List FlowOp) : Workflow :=
  (ops.map fun op => (op, sampleEnv)).foldl (flowStep (sampleCodec graphLength) sampleClient .memory)
    (sampleStart graphLength canvas)

variable {graphLength canvas}

lemma sampleStart_started (h : (sampleApply graphLength canvas).isOk = true) :
    Started (sampleCodec graphLength) sampleClient (sampleStart graphLength canvas) := by
  unfold sampleStart
  rcases happly : sampleApply graphLength canvas with e | r
  · rw [happly] at h
    cases h
  · exact .applied happly

lemma sampleRun_reaches (ops : List FlowOp) :
    Reaches (sampleCodec graphLength) sampleClient .memory (sampleStart graphLength canvas)
      (sampleRun graphLength canvas ops) := ⟨_, rfl⟩

lemma ReachesWhile.sampleStep {ok : Workflow → FlowOp → Prop} {w : Workflow} {ops : List FlowOp}
    {op : FlowOp}
    (h : ReachesWhile (sampleCodec graphLength) sampleClient .memory ok w
      (sampleRun graphLength canvas ops)) (hop : ok (sampleRun graphLength canvas ops) op) :
    ReachesWhile (sampleCodec graphLength) sampleClient .memory ok w
      (sampleRun graphLength canvas (ops ++ [op])) := by
  have hstep := @ReachesWhile.step _ _ _ _ _ _ _ sampleEnv h hop
  unfold sampleRun
  rw [map_append, foldl_append]
  exact hstep

end SampleRun

end Gogo.Async

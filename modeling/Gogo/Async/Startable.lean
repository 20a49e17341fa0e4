import Gogo.Async.Progress
import Gogo.Async.Replacement

/-!
# Replacements that can be started

A task yields to a canvas as soon as `prepareReplacement` has compiled it; the relay starts the
graph later, when the task has nothing else to fall back on. The compiler looks at the size of the
plan when it enters a canvas and when it adds a task, never when it adds a collect node, while
`advanceNested` looks at the finished plan.

* `compile_planSize` — the compiler adds as many nodes as the canvas has.
* `advance_total` — a well-formed compiled graph within the limits always goes on: what a pass
  cannot do within the budget aborts the graph, and nothing else can fail.
* `accepted_replacement_starts_iff` — a replacement that was accepted can be started exactly when
  its plan has at most 2000 nodes.
-/

namespace Gogo.Async

open List Gogo.Lib

/-! ## The size of a plan -/

/-- Parts of the same sizes have the same size together. -/
lemma inSequenceSize_congr {α : Type} {size : Bool → α → ℕ} {l l' : List α}
    (h : List.Forall₂ (fun a a' => ∀ given, size given a' = size given a) l l') (given : Bool) :
    inSequenceSize size given l' = inSequenceSize size given l := by
  induction h generalizing given with
  | nil => rfl
  | cons hsize _ ih => rw [inSequenceSize, inSequenceSize, hsize, ih]

variable {original : Envelope}

lemma inherit_eq_ok {fuel : ℕ} {canvas canvas' : Canvas}
    (h : inherit original (fuel + 1) canvas = .ok canvas') :
    canvas'.kind = canvas.kind ∧
      List.Forall₂ (fun s s' => inheritSignature original s = .ok s') canvas.signatures
        canvas'.signatures ∧
      List.Forall₂ (fun step step' => inherit original fuel step = .ok step') canvas.steps
        canvas'.steps := by
  simp only [inherit] at h
  obtain ⟨_, _, h⟩ := bind_eq_ok.mp h
  obtain ⟨signatures, hsignatures, h⟩ := bind_eq_ok.mp h
  split at h <;> obtain ⟨_, _, h⟩ := bind_eq_ok.mp h <;>
    obtain ⟨steps, hsteps, h⟩ := bind_eq_ok.mp h <;> obtain rfl := Except.ok.inj h <;>
    exact ⟨rfl, mapM_eq_ok_iff.mp hsignatures, mapM_eq_ok_iff.mp hsteps⟩

/-- What a signature inherits does not change the size of the plan. -/
lemma inherit_planSize (fuel : ℕ) :
    ∀ {canvas canvas' : Canvas}, inherit original fuel canvas = .ok canvas' →
      ∀ given, canvas'.planSize given = canvas.planSize given := by
  induction fuel with
  | zero =>
    intro canvas canvas' h
    cases h
  | succ fuel ih =>
    intro canvas canvas' h given
    obtain ⟨hkind, hsignatures, hsteps⟩ := inherit_eq_ok h
    obtain ⟨kind, signatures, callback, steps⟩ := canvas
    obtain ⟨kind', signatures', callback', steps'⟩ := canvas'
    obtain rfl : kind' = kind := hkind
    have hlength : signatures'.length = signatures.length := hsignatures.length_eq.symm
    have hchain : inSequenceSize (fun _ _ => 1) given signatures' =
        inSequenceSize (fun _ _ => 1) given signatures :=
      inSequenceSize_congr (hsignatures.imp fun _ _ _ _ => rfl) given
    have hsizes : Forall₂ (fun step step' : Canvas =>
        ∀ given, step'.planSize given = step.planSize given) steps steps' :=
      hsteps.imp fun _ _ h given => ih h given
    have hsequence : Canvas.sequenceSize given steps' = Canvas.sequenceSize given steps := by
      rw [Canvas.sequenceSize_eq, Canvas.sequenceSize_eq]
      exact inSequenceSize_congr hsizes given
    have hparallel : Canvas.parallelSize given steps' = Canvas.parallelSize given steps := by
      rw [Canvas.parallelSize_eq, Canvas.parallelSize_eq]
      congr 1
      have hmapped : Forall₂ (· = ·) (steps.map (Canvas.planSize given))
          (steps'.map (Canvas.planSize given)) :=
        forall₂_map_left_iff.mpr (forall₂_map_right_iff.mpr
          (hsizes.imp fun _ _ h => (h given).symm))
      rw [forall₂_eq_eq_eq] at hmapped
      exact hmapped.symm
    rcases kind' with _ | _ | _ | _ | _ | _ | _ <;>
      simp only [Canvas.planSize, hlength, hchain, hsequence, hparallel]

section Compile

variable {codec : Codec} {c : Client} {env : ℕ → Env}

/-- The compiler has added some nodes. -/
def Compiler.Adds (b b' : Compiler) (n : ℕ) : Prop :=
  b'.graph.plan.length = b.graph.plan.length + n

lemma Compiler.collect_adds (b : Compiler) (values : List ValueReference)
    (input : Option ValueReference) : b.Adds (b.collect codec values input).1 1 := by
  simp [Compiler.Adds, Compiler.collect]

variable {b b' : Compiler} {input : Option ValueReference} {v : ValueReference}

/-- A task is added to the plan and to the children, which stay within their limit. -/
lemma Compiler.task_adds {s : Signature} (h : b.task codec c env s input = .ok (b', v)) :
    b.Adds b' 1 ∧ b'.graph.children.length ≤ 1000 := by
  simp only [Compiler.task] at h
  obtain ⟨_, hlimit, h⟩ := bind_eq_ok.mp h
  obtain ⟨_, _, h⟩ := bind_eq_ok.mp h
  obtain ⟨_, _, h⟩ := bind_eq_ok.mp h
  obtain ⟨_, _, h⟩ := bind_eq_ok.mp h
  obtain ⟨_, _, h⟩ := bind_eq_ok.mp h
  cases h
  have hlimit := refuseIf_eq_ok.mp hlimit
  simp only [Compiler.Adds, length_append, length_singleton, true_and]
  omega

/-- **The compiler adds as many nodes as the canvas has.** -/
theorem compile_planSize (fuel : ℕ) :
    ∀ {b : Compiler} {canvas : Canvas} {input : Option ValueReference} {b' : Compiler}
      {v : ValueReference}, Compiler.compile codec c env fuel b canvas input = .ok (b', v) →
      b.Adds b' (canvas.planSize input.isSome) := by
  intro b canvas input b' v h
  have hadd : ∀ {n m : ℕ} {b b₁ b₂ : Compiler}, b.Adds b₁ n → b₁.Adds b₂ m → b.Adds b₂ (n + m) :=
    fun h h' => h'.trans (by rw [h, Nat.add_assoc])
  have hrule : CompilerRule codec c env (fun n b _ b' _ => b.Adds b' n)
      (fun n b _ b' _ => b.Adds b' n) :=
    ⟨fun h => (Compiler.task_adds h).1, rfl, fun {b} => b.collect_adds [] none, hadd, rfl, hadd,
      fun h => hadd h (Compiler.collect_adds _ _ _)⟩
  exact hrule.compile h

/-- The compiler never has more than 1000 tasks. -/
lemma compile_children (fuel : ℕ) {canvas : Canvas} (hb : b.graph.children.length ≤ 1000)
    (h : Compiler.compile codec c env fuel b canvas input = .ok (b', v)) :
    b'.graph.children.length ≤ 1000 := by
  have hrelated := @compile_related codec c env
    (fun b b' => b.graph.children.length ≤ 1000 → b'.graph.children.length ≤ 1000)
    (fun _ h => h) (fun _ _ _ h h' hb => h' (h hb)) (fun _ _ _ h => h)
    (fun _ _ _ _ _ h _ => (Compiler.task_adds h).2) fuel b canvas input b' v h
  exact hrelated hb

end Compile

/-! ## Transitions that go on -/

section Total

variable {codec : Codec} {c : Client}

/-- A computation goes on, or gives up for the size of the workflow. -/
def Proceeding {α : Type} (x : Except Err α) : Prop :=
  (∃ a, x = .ok a) ∨ x = .error .workflowSize

lemma proceeding_settleTask (signature : Signature) (e : Envelope) (bytes : ℤ) (failed : Bool)
    (outputs : List RawMessage) :
    Proceeding (settleTask codec c signature e bytes failed outputs) := by
  unfold settleTask
  split_ifs with hfailed
  · exact .inl ⟨_, rfl⟩
  split
  · split
    · exact .inl ⟨_, rfl⟩
    · simp only
      split_ifs
      · exact .inr rfl
      · split
        · exact .inl ⟨_, rfl⟩
        · exact .inl ⟨_, rfl⟩
  · exact .inl ⟨_, rfl⟩

/-- A node that takes values takes as many as it has dependencies. -/
lemma length_of_gather {members : FinMap String Completion} {node : CanvasNode} {failed : Bool}
    {outputs : List RawMessage} (h : gather members node = some (failed, outputs)) :
    outputs.length = node.dependencies.length := by
  simp only [gather, Option.bind_eq_bind, Option.bind_eq_some_iff, Option.some.injEq,
    Prod.mk.injEq] at h
  obtain ⟨values, hvalues, _, _, -, rfl⟩ := h
  rw [length_map, (mapM_eq_some_iff.mp hvalues).length_eq]

/-- The visit of a node of a well-formed graph goes on. -/
lemma proceeding_dagNode {st : DagState} (hwf : st.graph.WellFormed) (hkind : st.graph.kind = .dag)
    (i : ℕ) : Proceeding (dagNode codec c st i) := by
  unfold dagNode
  split
  · exact .inl ⟨_, rfl⟩
  next node hnode =>
  split_ifs
  · exact .inl ⟨_, rfl⟩
  split
  · exact .inl ⟨_, rfl⟩
  next failed outputs hgather =>
  split
  · exact .inl ⟨_, rfl⟩
  next htask =>
  have hmem := mem_of_getElem? hnode
  obtain ⟨hsignature, hdependencies, -⟩ := hwf.task_shape node hmem htask
  obtain ⟨signature, hsignature⟩ := Option.isSome_iff_exists.mp hsignature
  obtain ⟨index, child, hchild⟩ := exists_child? (hwf.task_mem hkind hmem htask)
  simp only [hsignature, hchild]
  have houtputs := length_of_gather hgather
  rw [if_neg (by omega)]
  rcases proceeding_settleTask signature child st.argumentBytes failed outputs with
    ⟨⟨e, failure, bytes⟩, hok⟩ | herror
  · rw [hok]
    exact .inl ⟨_, rfl⟩
  · rw [herror]
    exact .inr rfl

variable {g : Graph}

/-- The passes over a well-formed plan go on. -/
lemma proceeding_dagTurns (hwf : g.WellFormed) (hkind : g.kind = .dag) {base : List Intent}
    (turns : ℕ) {st : DagState} (hst : Visited codec c g base st) :
    Proceeding (dagTurns codec c turns st) := by
  induction turns generalizing st with
  | zero => exact .inl ⟨st, rfl⟩
  | succ turns ih =>
    have hstep : ∀ mid i, Visited codec c g base mid →
        (∃ st', dagNode codec c mid i = .ok st' ∧ Visited codec c g base st') ∨
          dagNode codec c mid i = .error .workflowSize := by
      intro mid i hmid
      have hframe : mid.graph.frame = g.frame := by
        obtain ⟨ps, settled, hsince, -⟩ := hmid
        exact hsince.frame
      rcases @proceeding_dagNode codec c mid (hwf.of_frame hframe)
          ((Graph.kind_of_frame hframe).trans hkind) i with ⟨st', hok⟩ | herror
      · exact .inl ⟨st', hok, Visited.step hwf hmid (nodeTurn_of_dagNode hok)⟩
      · exact .inr herror
    have hbegin : Visited codec c g base { st with progress := false } := hst
    unfold dagTurns dagPass
    rcases run_progress hstep hbegin (List.range st.graph.plan.length) with
      ⟨st', hok, hst'⟩ | herror
    · rw [hok, ok_bind]
      split_ifs
      · exact ih hst'
      · exact .inl ⟨st', rfl⟩
    · rw [herror]
      exact .inr rfl

/-- The tasks of a well-formed plan all have envelopes, so it can be canceled. -/
lemma exists_cancelPlan {g : Graph} (hwf : g.WellFormed) (hkind : g.kind = .dag) :
    ∃ r, cancelPlan codec g = .ok r := by
  unfold cancelPlan
  split_ifs
  · obtain ⟨nodes, hnodes⟩ : ∃ nodes, g.plan.mapM (cancelNode codec g) = .ok nodes := by
      refine exists_mapM_eq_ok fun node hnode => ?_
      unfold cancelNode
      split_ifs with hwaiting
      · obtain ⟨_, child, hchild⟩ := exists_child? (hwf.task_mem hkind hnode hwaiting.1)
        rw [hchild]
        exact ⟨_, rfl⟩
      · exact ⟨_, rfl⟩
    rw [hnodes]
    exact ⟨_, rfl⟩
  · exact ⟨_, rfl⟩

lemma exists_abortPlan {g : Graph} (hwf : g.WellFormed) (hkind : g.kind = .dag) (f : Failure) :
    ∃ r, abortPlan codec g f = .ok r := by
  have hnodes : ∃ nodes, g.plan.mapM (abortNode codec g f) = .ok nodes := by
    refine exists_mapM_eq_ok fun node hnode => ?_
    unfold abortNode
    split_ifs with hwaiting
    · obtain ⟨_, child, hchild⟩ := exists_child? (hwf.task_mem hkind hnode hwaiting.1)
      rw [hchild]
      exact ⟨_, rfl⟩
    · exact ⟨_, rfl⟩
  obtain ⟨nodes, hnodes⟩ := hnodes
  unfold abortPlan
  split
  · rw [hnodes]
    exact ⟨_, rfl⟩
  · exact ⟨_, rfl⟩
  · exact ⟨_, rfl⟩

/-- A well-formed graph can be aborted. -/
lemma exists_abort {g : Graph} (hwf : g.WellFormed) (hkind : g.kind = .dag) :
    ∃ r, abort codec g = .ok r := by
  unfold abort advanceAbortedGraph
  simp only
  obtain ⟨r, hr⟩ := @exists_abortPlan codec
    { g with
      abortFailure := some workflowSize
      members := g.members.mapValues fun _ m => { m with output := none }
      output := none } (hwf.of_frame (g := g) rfl) hkind workflowSize
  rw [hr, ok_bind]
  split_ifs <;> exact ⟨_, rfl⟩

/-- The limits of `advanceNested`. -/
structure Graph.WithinLimits (g : Graph) : Prop where
  plan : g.plan.length ≤ 2000
  children : g.children.length ≤ 1000
  root : g.rootNode ≠ ""

lemma proceeding_advanceNested (hwf : g.WellFormed) (hkind : g.kind = .dag)
    (hlimits : g.WithinLimits) : Proceeding (advanceNested codec c g) := by
  unfold advanceNested
  split_ifs with hterminal hover
  · exact .inl ⟨_, rfl⟩
  · have := hlimits.plan
    have := hlimits.children
    rcases hover with hplan | hchildren | hroot
    · omega
    · omega
    · exact absurd hroot hlimits.root
  obtain ⟨⟨start, canceled⟩, hcancel⟩ := @exists_cancelPlan codec g hwf hkind
  have hframe : start.frame = g.frame := by
    rcases cancelPlan_spec hcancel with ⟨-, rfl, -⟩ | ⟨-, rfl, -⟩
    · rfl
    · exact frame_dispatchTasks g _
  have hbegin : Visited codec c start canceled
      { graph := start, argumentBytes := argumentBytes codec g, intents := canceled } :=
    ⟨[], [], Since.refl start, by simp⟩
  rw [hcancel, ok_bind]
  rcases proceeding_dagTurns (hwf.of_frame hframe) ((Graph.kind_of_frame hframe).trans hkind)
    (start.plan.length + 1) hbegin with ⟨st, hok⟩ | herror
  · simp only [hok, ok_bind]
    exact .inl ⟨_, rfl⟩
  · simp only [herror, error_bind]
    exact .inr rfl

/-- **A well-formed compiled graph within the limits goes on**: what does not fit the budget aborts
it. -/
theorem advance_total {env : Env} {g : Graph} (hwf : g.WellFormed) (hkind : g.kind = .dag)
    (habort : g.abortFailure = none) (hlimits : g.WithinLimits) :
    ∃ r, advance codec c env g = .ok r := by
  have hclone : g.clone.WithinLimits :=
    ⟨by simpa [Graph.clone] using hlimits.plan, by simpa [Graph.clone] using hlimits.children,
      hlimits.root⟩
  have hgraph : Proceeding (advanceGraph codec c env g.clone) := by
    unfold advanceGraph
    split_ifs with hterminal hdag
    · exact .inl ⟨_, rfl⟩
    · exact proceeding_advanceNested (hwf.of_frame g.frame_clone) hkind hclone
    · exact absurd hkind hdag
    · exact absurd hkind hdag
  obtain ⟨r, hr⟩ := @exists_abort codec g hwf hkind
  have hwithin : ∃ r, advanceWithin codec c env g = .ok r := by
    unfold advanceWithin
    rw [if_neg (by simp [habort])]
    rcases hgraph with ⟨⟨next, intents⟩, hok⟩ | herror
    · simp only [hok]
      split_ifs
      · exact ⟨_, rfl⟩
      · exact ⟨r, hr⟩
    · simp only [herror]
      exact ⟨r, hr⟩
  obtain ⟨⟨next, intents⟩, hok⟩ := hwithin
  unfold advance
  rw [hok]
  exact ⟨_, rfl⟩

/-- A compiled graph with too long a plan cannot be started. -/
lemma advance_crowded {env : Env} (hkind : g.kind = .dag) (hopen : g.state.terminal = false)
    (habort : g.abortFailure = none) (hplan : 2000 < g.plan.length) :
    advance codec c env g = .error .invalid := by
  have hgraph : advanceGraph codec c env g.clone = .error .invalid := by
    have hclone : 2000 < g.clone.plan.length := by simpa [Graph.clone] using hplan
    have hopen' : ¬ g.clone.state.terminal = true := by simpa [Graph.clone] using hopen
    unfold advanceGraph advanceNested
    rw [if_neg hopen', if_pos (show g.clone.kind = .dag from hkind), if_neg hopen',
      if_pos (.inl hclone)]
  unfold advance advanceWithin
  rw [if_neg (by simp [habort]), hgraph]
  rfl

end Total

/-! ## Replacements -/

section Replacement

variable {codec : Codec} {c : Client} {env : ℕ → Env} {original : Envelope} {d : Definition}
  {canvas : Canvas} {g : Graph}

/-- The graph of a replacement has a root, at most 1000 tasks, and as many nodes as its canvas. -/
lemma prepareReplacement_spec (hids : StableIds codec)
    (h : prepareReplacement codec c env original d canvas = .ok g) :
    g.children.length ≤ 1000 ∧ g.rootNode ≠ "" ∧ g.plan.length = canvas.planSize false := by
  obtain ⟨canvas', start, g₀, root, hinherit, hstart, hplan, hchildren, hcompile, rfl⟩ :=
    prepareReplacement_compiled h
  unfold compileCanvas at hcompile
  obtain ⟨⟨b, v⟩, hb, hcompile⟩ := bind_eq_ok.mp hcompile
  obtain ⟨rfl, rfl⟩ := Prod.mk.inj (Except.ok.inj hcompile)
  refine ⟨?_, ?_, ?_⟩
  · rw [length_map]
    exact compile_children compileDepth (by simp [hchildren]) hb
  · obtain ⟨hext, hprovides⟩ := compile_sound hids compileDepth start canvas' none b v hstart
      (by simp) hb
    obtain ⟨node, hnode, hid⟩ := mem_map.mp hprovides
    show v.id ≠ ""
    rcases hext.sound.ids node hnode with ⟨k, -, heq⟩ | ⟨k, -, heq⟩ <;> rw [← hid, heq] <;>
      exact codec.stableId_ne _ _
  · have hadds := compile_planSize compileDepth hb
    rw [inherit_planSize compileDepth hinherit] at hadds
    simpa [Compiler.Adds, hplan] using hadds

/-- The plan that is started is as long as the canvas says. -/
lemma length_started_plan (hids : StableIds codec)
    (h : prepareReplacement codec c env original d canvas = .ok g) (cancelRequested : Bool) :
    ({ g.clone with cancelRequested := cancelRequested } : Graph).plan.length =
      canvas.planSize false := by
  rw [← (prepareReplacement_spec hids h).2.2]
  exact length_map ..

/-- A replacement with too long a plan cannot be started. -/
lemma startReplacement_crowded (hids : StableIds codec) (now : Env)
    (h : prepareReplacement codec c env original d canvas = .ok g)
    (hcrowded : 2000 < canvas.planSize false) (cancelRequested : Bool) :
    startReplacement codec c now g cancelRequested = .error .invalid := by
  obtain ⟨-, hfresh, hkind⟩ := prepareReplacement_sound hids h
  exact advance_crowded hkind (by rw [hfresh.clone.state]; rfl) hfresh.clone.abortFailure
    (by rw [length_started_plan hids h]; exact hcrowded)

/-- **Replacements that can be started.** A replacement that was accepted starts, canceled or not,
with tasks handed out or with its end, exactly when its canvas has at most 2000 nodes. -/
theorem accepted_replacement_starts_iff (hids : StableIds codec) (now : Env)
    (h : prepareReplacement codec c env original d canvas = .ok g) :
    (∀ cancelRequested, ∃ next intents,
      startReplacement codec c now g cancelRequested = .ok (next, intents) ∧
        (intents ≠ [] ∨ next.state.terminal = true)) ↔
    canvas.planSize false ≤ 2000 := by
  obtain ⟨hwf, hfresh, hkind⟩ := prepareReplacement_sound hids h
  obtain ⟨hchildren, hroot, -⟩ := prepareReplacement_spec hids h
  constructor
  · intro hstarts
    by_contra hcrowded
    obtain ⟨next, intents, hok, -⟩ := hstarts false
    rw [startReplacement_crowded hids now h (by omega)] at hok
    cases hok
  · intro hfits cancelRequested
    obtain ⟨⟨next, intents⟩, hok⟩ := @advance_total codec c now
      { g.clone with cancelRequested := cancelRequested }
      ((hwf.of_frame g.frame_clone).of_frame (g := g.clone) rfl) hkind hfresh.abortFailure
      ⟨by rw [length_started_plan hids h]; exact hfits, by simpa [Graph.clone] using hchildren,
        hroot⟩
    refine ⟨next, intents, hok, ?_⟩
    rcases hended : next.state.terminal with _ | _
    · left
      have hgoing := (Started.begins hids (.replaced h hok)).going hids
      obtain ⟨-, t, -, -, i, hi, -⟩ := hgoing hended
      rw [← Workflow.emitted, createGraph_emitted] at hi
      exact ne_nil_of_mem hi
    · exact .inr rfl

end Replacement

/-- A group without members. -/
def emptyGroup : Canvas := { kind := .group }

/-- Groups without members that follow one another. -/
def emptyGroups (n : ℕ) : Canvas := { kind := .sequence, steps := List.replicate n emptyGroup }

/-- A codec in which every node of a plan takes 512 bytes. -/
def sampleYieldCodec : Codec := sampleCodec fun g => some (1024 + 512 * g.plan.length)

/-- A task that returns a list. -/
def sampleListing : Definition := sampleDefinition (.plain "int") (.slice "" (.plain "int"))

/-- Two empty groups make a replacement that starts. -/
theorem two_empty_groups_start :
    ∃ g, prepareReplacement sampleYieldCodec sampleClient (fun _ => sampleEnv)
        sampleOriginal.envelope sampleListing (emptyGroups 2) = .ok g ∧
      ∀ cancelRequested, ∃ next intents,
        startReplacement sampleYieldCodec sampleClient sampleEnv g cancelRequested =
            .ok (next, intents) ∧
          (intents ≠ [] ∨ next.state.terminal = true) := by
  rcases hprepare : prepareReplacement sampleYieldCodec sampleClient (fun _ => sampleEnv)
    sampleOriginal.envelope sampleListing (emptyGroups 2) with e | g
  · have hok : (prepareReplacement sampleYieldCodec sampleClient (fun _ => sampleEnv)
        sampleOriginal.envelope sampleListing (emptyGroups 2)).isOk = true := by decide +kernel
    rw [hprepare] at hok
    cases hok
  · exact ⟨g, rfl, (accepted_replacement_starts_iff (sampleCodec_stableIds _) sampleEnv
      hprepare).mpr (by decide)⟩

/-- **What the compiler accepts is well formed.** The nodes are distinct and follow what they wait
for, the tasks among them are the children, at most 1000, and there are as many as the canvas has. -/
theorem compiled_canvas_well_formed {codec : Codec} {c : Client} {env : ℕ → Env} {canvas : Canvas}
    {g : Graph} {id : String} {root : ValueReference} (hids : StableIds codec)
    (h : compileCanvas codec c env { graph := { id := id, kind := .dag } } canvas = .ok (g, root)) :
    g.WellFormed ∧ g.Fresh ∧ g.children.length ≤ 1000 ∧ g.plan.length = canvas.planSize false := by
  obtain ⟨hwf, hfresh, -⟩ := compileCanvas_sound hids (.start rfl rfl rfl rfl rfl
    ⟨rfl, rfl, rfl, rfl, rfl, rfl, rfl, rfl, rfl, Nat.one_pos, fun _ h => by cases h⟩) h
  obtain ⟨⟨b, v⟩, hb, h⟩ := bind_eq_ok.mp h
  cases h
  have hadds := compile_planSize compileDepth hb
  exact ⟨hwf, hfresh, compile_children compileDepth (by simp) hb, by simpa [Compiler.Adds] using hadds⟩

/-- A task, a group and a chord beside each other. -/
def mixedCanvas : Canvas :=
  { kind := .parallel
    steps :=
      [{ kind := .task, signatures := [sampleJob] },
       { kind := .group, signatures := [sampleJob] },
       { kind := .chord, signatures := [sampleJob], callback := some sampleSum }] }

/-- The plan of a task, a group and a chord: their four tasks, and a node that collects for the
group, for the chord and for the whole. -/
theorem mixed_canvas_compiles :
    let compiled := compileCanvas sampleYieldCodec sampleClient (fun _ => sampleEnv)
      { graph := { id := sampleRoot, kind := .dag } } mixedCanvas
    compiled.isOk = true ∧
      ∀ g root, compiled = .ok (g, root) → g.WellFormed ∧ g.plan.length = 7 := by
  refine ⟨by decide +kernel, fun g root h => ?_⟩
  obtain ⟨hwf, -, -, hsize⟩ := compiled_canvas_well_formed (sampleCodec_stableIds _) h
  exact ⟨hwf, hsize⟩

/-! ## A plan that is one node too long -/

/-- Two thousand groups without members, and one more. -/
def crowdedCanvas : Canvas :=
  { kind := .sequence, steps := [emptyGroups 1000, emptyGroups 1000, emptyGroup] }

section Crowded

variable {codec : Codec} {c : Client} {env : ℕ → Env}

/-- A compiler that has added some nodes, none of them a task. -/
structure Compiler.Crowds (b b' : Compiler) (n : ℕ) : Prop where
  children : b'.graph.children = []
  adds : b.Adds b' n

lemma Compiler.within_limit (b : Compiler) (hchildren : b.graph.children = [])
    (hplan : b.graph.plan.length ≤ 2000) : refuseIf (2000 < b.graph.plan.length ∨
      1000 < b.graph.children.length) Err.invalid = .ok () :=
  refuseIf_eq_ok.mpr (by simp [hchildren, hplan])

lemma compile_emptyGroup {b : Compiler} (fuel : ℕ) (hchildren : b.graph.children = [])
    (hplan : b.graph.plan.length ≤ 2000) (input : Option ValueReference) :
    ∃ b' v, Compiler.compile codec c env (fuel + 1) b emptyGroup input = .ok (b', v) ∧
      b.Crowds b' 1 ∧ v.empty = true := by
  refine ⟨(b.collect codec [] input).1, (b.collect codec [] input).2, ?_,
    ⟨hchildren, b.collect_adds [] input⟩, rfl⟩
  have hlimit := b.within_limit hchildren hplan
  simp only [Compiler.compile, hlimit, ok_bind]
  rfl

lemma run_emptyGroups (fuel n : ℕ) {b : Compiler} (hchildren : b.graph.children = [])
    (hplan : b.graph.plan.length + n ≤ 2001) (input : Option ValueReference) :
    ∃ b' previous, run (thenStep fun b step input => Compiler.compile codec c env (fuel + 1) b step
        input) (b, input) (List.replicate n emptyGroup) = .ok (b', previous) ∧ b.Crowds b' n ∧
      (n ≠ 0 → ∃ v, previous = some v ∧ v.empty = true) := by
  induction n generalizing b input with
  | zero => exact ⟨b, input, rfl, ⟨hchildren, rfl⟩, fun h => absurd rfl h⟩
  | succ n ih =>
    obtain ⟨b₁, v₁, hfirst, hcrowds, hempty⟩ :=
      @compile_emptyGroup codec c env b fuel hchildren (by omega) input
    have hadds : b₁.graph.plan.length = b.graph.plan.length + 1 := hcrowds.adds
    obtain ⟨b₂, previous, hrest, hcrowds', hlast⟩ :=
      ih hcrowds.children (by omega) (some v₁)
    refine ⟨b₂, previous, ?_, ⟨hcrowds'.children, ?_⟩, fun _ => ?_⟩
    · rw [replicate_succ, run_cons, thenStep, hfirst]
      exact hrest
    · have := hcrowds'.adds
      simp only [Compiler.Adds] at this ⊢
      omega
    · rcases n with _ | n
      · obtain ⟨-, rfl⟩ := Prod.mk.inj (Except.ok.inj hrest)
        exact ⟨v₁, rfl, hempty⟩
      · exact hlast (Nat.succ_ne_zero n)

lemma compile_emptyGroups (fuel n : ℕ) {b : Compiler} (hchildren : b.graph.children = [])
    (hpos : n ≠ 0) (hn : n ≤ 1000) (hplan : b.graph.plan.length + n ≤ 2001)
    (input : Option ValueReference) :
    ∃ b' v, Compiler.compile codec c env (fuel + 2) b (emptyGroups n) input = .ok (b', v) ∧
      b.Crowds b' n := by
  obtain ⟨b', previous, hrun, hcrowds, hlast⟩ :=
    @run_emptyGroups codec c env fuel n b hchildren hplan input
  obtain ⟨v, rfl, -⟩ := hlast hpos
  refine ⟨b', v, ?_, hcrowds⟩
  have hlimit := b.within_limit hchildren (by omega)
  have hsteps : refuseIf ((emptyGroups n).signatures ≠ [] ∨ (emptyGroups n).callback.isSome ∨
      1000 < (emptyGroups n).steps.length) Err.invalid = .ok () :=
    refuseIf_eq_ok.mpr (by simp [emptyGroups, hn])
  rw [Compiler.compile, hlimit, ok_bind]
  simp only [emptyGroups] at hsteps ⊢
  rw [hsteps, ok_bind, Compiler.inSequence, hrun]
  rfl

lemma inherit_emptyGroups (original : Envelope) (fuel : ℕ) {n : ℕ} (hn : n ≤ 1000) :
    inherit original (fuel + 2) (emptyGroups n) = .ok (emptyGroups n) := by
  have hsteps : (List.replicate n emptyGroup).mapM (inherit original (fuel + 1)) =
      .ok (List.replicate n emptyGroup) :=
    mapM_eq_ok_iff.mpr (forall₂_same.mpr fun step hstep => by
      rw [eq_of_mem_replicate hstep]
      rfl)
  have hlimit : refuseIf (1000 < (emptyGroups n).signatures.length ∨
      1000 < (emptyGroups n).steps.length) Err.invalid = .ok () :=
    refuseIf_eq_ok.mpr (by simp [emptyGroups, hn])
  rw [inherit, hlimit, ok_bind]
  simp only [emptyGroups, mapM_nil, hsteps]
  rfl

/-- The compiler accepts the last group, since the two thousand before it are within the limit. -/
lemma compile_crowdedCanvas (fuel : ℕ) {b : Compiler} (hchildren : b.graph.children = [])
    (hplan : b.graph.plan = []) :
    ∃ b' v, Compiler.compile codec c env (fuel + 3) b crowdedCanvas none = .ok (b', v) ∧
      b.Crowds b' 2001 ∧ v.empty = true := by
  have hlength : b.graph.plan.length = 0 := by rw [hplan]; rfl
  obtain ⟨b₁, v₁, hfirst, hcrowds₁⟩ :=
    @compile_emptyGroups codec c env fuel 1000 b hchildren (by omega) (by omega) (by omega) none
  have hadds₁ : b₁.graph.plan.length = b.graph.plan.length + 1000 := hcrowds₁.adds
  obtain ⟨b₂, v₂, hsecond, hcrowds₂⟩ := @compile_emptyGroups codec c env fuel 1000 b₁
    hcrowds₁.children (by omega) (by omega) (by omega) (some v₁)
  have hadds₂ : b₂.graph.plan.length = b₁.graph.plan.length + 1000 := hcrowds₂.adds
  obtain ⟨b₃, v₃, hthird, hcrowds₃, hempty⟩ := @compile_emptyGroup codec c env b₂ (fuel + 1)
    hcrowds₂.children (by omega) (some v₂)
  have hadds₃ : b₃.graph.plan.length = b₂.graph.plan.length + 1 := hcrowds₃.adds
  refine ⟨b₃, v₃, ?_, ⟨hcrowds₃.children, by rw [Compiler.Adds]; omega⟩, hempty⟩
  have hlimit := b.within_limit hchildren (by omega)
  have hsteps : refuseIf (crowdedCanvas.signatures ≠ [] ∨ crowdedCanvas.callback.isSome ∨
      1000 < crowdedCanvas.steps.length) Err.invalid = .ok () :=
    refuseIf_eq_ok.mpr (by simp [crowdedCanvas])
  rw [Compiler.compile, hlimit, ok_bind]
  simp only [crowdedCanvas] at hsteps ⊢
  rw [hsteps, ok_bind, Compiler.inSequence, run_cons, thenStep, hfirst]
  simp only [ok_bind, run_cons, thenStep, hsecond, hthird, run_nil]

lemma inherit_crowdedCanvas (original : Envelope) (fuel : ℕ) :
    inherit original (fuel + 3) crowdedCanvas = .ok crowdedCanvas := by
  have hsteps : [emptyGroups 1000, emptyGroups 1000, emptyGroup].mapM
      (inherit original (fuel + 2)) = .ok [emptyGroups 1000, emptyGroups 1000, emptyGroup] := by
    have hgroups := @inherit_emptyGroups original fuel 1000 (Nat.le_refl _)
    exact mapM_eq_ok_iff.mpr (.cons hgroups (.cons hgroups (.cons rfl .nil)))
  have hlimit : refuseIf (1000 < crowdedCanvas.signatures.length ∨
      1000 < crowdedCanvas.steps.length) Err.invalid = .ok () :=
    refuseIf_eq_ok.mpr (by simp [crowdedCanvas])
  rw [inherit, hlimit, ok_bind]
  simp only [crowdedCanvas, mapM_nil, hsteps]
  rfl

end Crowded

/-- A task yields to a canvas of 2001 empty groups, which can never be started. -/
theorem crowded_replacement_is_stuck :
    ∃ g, prepareReplacement sampleYieldCodec sampleClient (fun _ => sampleEnv)
        sampleOriginal.envelope sampleListing crowdedCanvas = .ok g ∧
      ∀ cancelRequested, startReplacement sampleYieldCodec sampleClient sampleEnv g
        cancelRequested = .error .invalid := by
  obtain ⟨b, v, hcompile, hcrowds, hempty⟩ := @compile_crowdedCanvas sampleYieldCodec sampleClient
    (fun _ => sampleEnv) 30
    { graph :=
        { id := sampleYieldCodec.stableId sampleOriginal.envelope.id "replacement"
          kind := .dag
          scope := sampleOriginal.envelope.scope
          originTaskId := sampleOriginal.envelope.id
          originDigest := sampleOriginal.envelope.digest sampleYieldCodec }
      hasScope := true } rfl rfl
  have hplan : b.graph.plan.length = 0 + 2001 := hcrowds.adds
  have hprepare : prepareReplacement sampleYieldCodec sampleClient (fun _ => sampleEnv)
      sampleOriginal.envelope sampleListing crowdedCanvas =
        .ok { b.graph with rootNode := v.id, children := [] } := by
    have hdepth : refuseIf (maxReplacementDepth ≤ sampleOriginal.envelope.replacementDepth)
        Err.invalid = .ok () := by decide
    have htype : refuseIf (v.type ≠ sampleListing.output ∧
        ¬ (v.empty ∧ sampleListing.output.elem?.isSome)) Err.invalid = .ok () :=
      refuseIf_eq_ok.mpr fun h => h.2 ⟨hempty, by decide⟩
    have hsize : refuseIf (¬ withinLength maxWorkflowInitialBytes (sampleYieldCodec.graphLength
        { b.graph with rootNode := v.id, children := [] })) Err.invalid = .ok () :=
      refuseIf_eq_ok.mpr fun h => h (by
        show withinLength maxWorkflowInitialBytes (some (1024 + 512 * b.graph.plan.length)) = true
        rw [hplan]
        decide)
    unfold prepareReplacement compileCanvas
    rw [hdepth, ok_bind, show compileDepth = 30 + 3 from rfl, inherit_crowdedCanvas, ok_bind]
    simp only [hcompile, ok_bind, htype, hcrowds.children, map_nil]
    rw [hsize]
    rfl
  have hsize := (prepareReplacement_spec (sampleCodec_stableIds _) hprepare).2.2
  have hcrowded : 2000 < crowdedCanvas.planSize false := by
    rw [← hsize]
    show 2000 < b.graph.plan.length
    omega
  exact ⟨_, hprepare,
    startReplacement_crowded (sampleCodec_stableIds _) sampleEnv hprepare hcrowded⟩

end Gogo.Async

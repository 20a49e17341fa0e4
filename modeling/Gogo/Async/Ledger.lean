import Gogo.Async.Dispatch
import Gogo.Async.Runs

/-!
# Barriers fire once

What the store was told about the tasks of a workflow, over every run: a task is dispatched or
failed, not both, it is published once, and only after everything it waits for has succeeded.

* `Ledger` — the invariant between a graph and the intents that were emitted for it;
  `Ledger.advance`: a transition keeps it.
* `Begins.books`, `ReachesWhile.books` — it holds of every workflow.
* `barriers_fire_once` — the result.
-/

namespace Gogo.Async

open List Gogo.Lib

variable {codec : Codec} {c : Client} {env : Env}

/-! ## More about transitions -/

variable {g g' next : Graph} {intents emitted : List Intent} {i : Intent} {t : String}
  {m : Completion} {store : FlowStore} {w : Workflow}

lemma Graph.dependsOn_of_frame (h : g'.frame = g.frame) (t : String) :
    g'.dependsOn t = g.dependsOn t := by
  have hskeleton : ∀ plan : List CanvasNode, ((plan.filter fun node => node.id == t).flatMap
      fun node => node.dependencies ++ node.waitFor) =
      (((plan.map CanvasNode.skeleton).filter fun node => node.id == t).flatMap
        fun node => node.dependencies ++ node.waitFor) := by
    intro plan
    rw [filter_map, flatMap_map]
    rfl
  simp only [Graph.dependsOn, Graph.kind_of_frame h, Graph.childIds_of_frame h,
    Graph.callbackId_of_frame h]
  rw [hskeleton g'.plan, hskeleton g.plan, Graph.plan_of_frame h]

lemma Turn.abortFailure (hg : g.WellFormed) (h : Turn codec c env g next intents) :
    next.abortFailure = g.abortFailure ∨ next.abortFailure = some workflowSize := by
  cases h with
  | aborts hcause h =>
    rw [h.graph]
    rcases hcause with ⟨hf, -⟩ | ⟨rfl, -⟩
    · exact .inl hf.symm
    · exact .inr rfl
  | stays _ _ _ => exact .inl rfl
  | nested _ hopen _ h =>
    obtain ⟨start, canceled, st, ps, settled, hcancel, hsince, -, rfl, -⟩ :=
      nestedTurn_of_advanceNested hg.clone hopen h
    left
    rw [concludeNested_graph, hsince.graph]
    rcases cancelPlan_spec hcancel with ⟨-, rfl, -⟩ | ⟨-, rfl, -⟩ <;> rfl
  | canceled _ _ _ h => cases h <;> exact .inl rfl
  | flat _ _ _ _ h => cases h <;> exact .inl rfl

lemma Turn.callbackMatches (hg : g.WellFormed) (hmatches : g.CallbackMatches)
    (h : Turn codec c env g next intents) : next.CallbackMatches := by
  cases h with
  | aborts hcause h =>
    unfold Graph.CallbackMatches
    rw [h.graph]
    exact hmatches
  | stays _ _ _ => exact hmatches.clone
  | nested _ hopen _ h =>
    obtain ⟨start, canceled, st, ps, settled, hcancel, hsince, -, rfl, -⟩ :=
      nestedTurn_of_advanceNested hg.clone hopen h
    unfold Graph.CallbackMatches
    rw [concludeNested_graph, hsince.graph]
    rcases cancelPlan_spec hcancel with ⟨-, rfl, -⟩ | ⟨-, rfl, -⟩ <;> exact hmatches.clone
  | canceled _ _ _ h => cases h <;> exact hmatches.clone
  | flat _ _ _ _ h =>
    cases h with
    | @claims members callback e hkind hclaimed hrecorded hstate hcallback hprepare =>
      intro e' he'
      obtain rfl := Option.some.inj he'
      have hsome : g.clone.callback.isSome := by rw [hcallback]; rfl
      exact ⟨prepareCallback_id hprepare (hg.clone.callback_ne hsome), hsome⟩
    | _ => exact hmatches.clone

/-- An aborted chain keeps its position and its children. -/
lemma Turn.chain_aborted (hcloned : g.clone.children = g.children) (hkind : g.kind = .chain)
    (habort : next.abortFailure.isSome) (h : Turn codec c env g next intents) :
    next.next = g.next ∧ next.children = g.children := by
  cases h with
  | aborts _ h =>
    rw [h.graph]
    exact ⟨rfl, rfl⟩
  | stays _ _ _ => exact ⟨rfl, hcloned⟩
  | nested _ _ hdag _ =>
    rw [hkind] at hdag
    cases hdag
  | canceled _ _ _ h => cases h <;> exact ⟨rfl, hcloned⟩
  | flat _ _ _ hnone h =>
    have hnext : next.abortFailure = none := by cases h <;> exact hnone
    rw [hnext] at habort
    cases habort

/-! ## The intents of a transition, by their identifiers -/

section Members

variable {g next : Graph} {intents dispatched : List Intent} {canceled : List (Envelope × Bool)}
  {unpinned : List String}

lemma cancellationIntent_id (source : String) (e : Envelope) (b : Bool) :
    (cancellationIntent codec source e b).id = codec.stableId source ("cancel-" ++ e.id) := by
  cases b <;> rfl

lemma cancellationIntent_source (source : String) (e : Envelope) (b : Bool) :
    (cancellationIntent codec source e b).sourceId = source := by
  cases b <;> rfl

lemma cancellationIntent_kind (source : String) (e : Envelope) (b : Bool) :
    (cancellationIntent codec source e b).kind ≠ .publish := by
  cases b <;> nofun

variable {i : Intent}

/-- The intents of a transition, with the completion of a replacement. -/
lemma Batch.mem_cases (h : Batch codec g next intents canceled dispatched unpinned)
    (hi : i ∈ intents ++ replacementCompletionIntents codec next) :
    i ∈ dispatched ∨ (∃ p ∈ canceled, i = cancellationIntent codec g.id p.1 p.2) ∨
      (∃ t ∈ unpinned, i = unpinIntent codec g.id t) ∨
      (i.id = codec.stableId next.id "replacement-completion" ∧ i.sourceId = next.id ∧
        i.kind = .replacementComplete) := by
  rw [h.eq] at hi
  rcases mem_append.mp hi with hi | hi
  · rcases mem_append.mp hi with hi | hi
    · rcases mem_append.mp hi with hi | hi
      · obtain ⟨p, hp, rfl⟩ := mem_map.mp hi
        exact .inr (.inl ⟨p, hp, rfl⟩)
      · exact .inl hi
    · obtain ⟨t, ht, rfl⟩ := mem_map.mp hi
      exact .inr (.inr (.inl ⟨t, ht, rfl⟩))
  · unfold replacementCompletionIntents at hi
    split_ifs at hi
    · cases hi
    · obtain rfl := mem_singleton.mp hi
      exact .inr (.inr (.inr ⟨rfl, rfl, rfl⟩))

/-- Only dispatches have dispatch identifiers. -/
lemma Batch.dispatched_of_id (hids : StableIds codec)
    (h : Batch codec g next intents canceled dispatched unpinned) {t : String}
    (hi : i ∈ intents ++ replacementCompletionIntents codec next)
    (hid : i.id = dispatchId codec g.id t) : i ∈ dispatched := by
  rcases h.mem_cases hi with hi | ⟨p, -, rfl⟩ | ⟨u, -, rfl⟩ | ⟨hid', -⟩
  · exact hi
  · rw [cancellationIntent_id] at hid
    exact absurd (hids _ _ _ _ hid).2 (label_ne _ _ (by decide) (by decide) (by decide))
  · exact absurd (hids _ _ _ _ hid).2 (label_ne _ _ (by decide) (by decide) (by decide))
  · rw [hid] at hid'
    exact absurd (hids _ _ _ _ hid').2
      (label_ne (b := "replacement-completion") _ "" (by decide) (by decide) (by decide))

/-- Only dispatches publish. -/
lemma Batch.dispatched_of_publish (h : Batch codec g next intents canceled dispatched unpinned)
    (hi : i ∈ intents ++ replacementCompletionIntents codec next) (hkind : i.kind = .publish) :
    i ∈ dispatched := by
  rcases h.mem_cases hi with hi | ⟨p, -, rfl⟩ | ⟨u, -, rfl⟩ | ⟨-, -, hkind'⟩
  · exact hi
  · exact absurd hkind (cancellationIntent_kind _ _ _)
  · cases hkind
  · rw [hkind] at hkind'
    cases hkind'

lemma Batch.source (h : Batch codec g next intents canceled dispatched unpinned)
    (hid : next.id = g.id) (hi : i ∈ intents ++ replacementCompletionIntents codec next) :
    i.sourceId = g.id := by
  rcases h.mem_cases hi with hi | ⟨p, -, rfl⟩ | ⟨u, -, rfl⟩ | ⟨-, hsource, -⟩
  · obtain ⟨e, he, -⟩ := h.deals.each i hi
    exact he.source
  · exact cancellationIntent_source _ _ _
  · rfl
  · rw [hsource, hid]

/-- **The intents of one transition have different identifiers.** -/
theorem Batch.nodup (hids : StableIds codec)
    (h : Batch codec g next intents canceled dispatched unpinned) (hid : next.id = g.id) :
    ((intents ++ replacementCompletionIntents codec next).map Intent.id).Nodup := by
  have hlabel : ∀ {a b : String} {x y : String}, a ≠ "" → b ≠ "" → a.toList.head? ≠ b.toList.head? →
      codec.stableId g.id (a ++ x) ≠ codec.stableId g.id (b ++ y) :=
    fun ha hb hne heq => label_ne _ _ ha hb hne (hids _ _ _ _ heq).2
  have hcanceled : ((cancellations codec g.id canceled).map Intent.id).Nodup := by
    have := h.nodup_canceled.map (f := fun t => codec.stableId g.id ("cancel-" ++ t))
      fun a b heq => (String.append_right_inj _).mp (hids _ _ _ _ heq).2
    rw [List.map_map] at this
    rw [cancellations, List.map_map]
    convert this using 2
    funext p
    exact cancellationIntent_id _ _ _
  have hunpinned : ((unpinned.map (unpinIntent codec g.id)).map Intent.id).Nodup := by
    rw [List.map_map]
    exact h.nodup_unpinned.map fun a b heq => (String.append_right_inj _).mp (hids _ _ _ _ heq).2
  have hdispatched : ∀ x ∈ dispatched.map Intent.id, ∃ t, x = dispatchId codec g.id t := by
    intro x hx
    obtain ⟨i, hi, rfl⟩ := mem_map.mp hx
    obtain ⟨e, he, -⟩ := h.deals.each i hi
    exact ⟨e.id, he.id⟩
  have hcancels : ∀ x ∈ (cancellations codec g.id canceled).map Intent.id,
      ∃ t, x = codec.stableId g.id ("cancel-" ++ t) := by
    intro x hx
    obtain ⟨i, hi, rfl⟩ := mem_map.mp hx
    obtain ⟨p, hp, rfl⟩ := mem_map.mp hi
    exact ⟨p.1.id, cancellationIntent_id _ _ _⟩
  have hunpins : ∀ x ∈ (unpinned.map (unpinIntent codec g.id)).map Intent.id,
      ∃ t, x = codec.stableId g.id ("unpin-" ++ t) := by
    intro x hx
    obtain ⟨i, hi, rfl⟩ := mem_map.mp hx
    obtain ⟨t, ht, rfl⟩ := mem_map.mp hi
    exact ⟨t, rfl⟩
  have hreplaced : ∀ x ∈ (replacementCompletionIntents codec next).map Intent.id,
      x = codec.stableId g.id ("replacement-completion" ++ "") := by
    intro x hx
    unfold replacementCompletionIntents at hx
    split_ifs at hx
    · cases hx
    · obtain rfl := mem_singleton.mp hx
      show codec.stableId next.id "replacement-completion" = _
      rw [hid]
      rfl
  have hreplacement : ((replacementCompletionIntents codec next).map Intent.id).Nodup := by
    unfold replacementCompletionIntents
    split_ifs
    · exact nodup_nil
    · exact nodup_singleton _
  rw [h.eq, map_append, map_append, map_append]
  refine nodup_append.mpr ⟨nodup_append.mpr ⟨nodup_append.mpr
    ⟨hcanceled, h.deals.nodup, ?_⟩, hunpinned, ?_⟩, hreplacement, ?_⟩
  · rintro a ha b hb rfl
    obtain ⟨t, rfl⟩ := hcancels a ha
    obtain ⟨t', heq⟩ := hdispatched _ hb
    exact hlabel (by decide) (by decide) (by decide) heq
  · rintro a ha b hb rfl
    obtain ⟨t, rfl⟩ := hunpins a hb
    rcases mem_append.mp ha with ha | ha
    · obtain ⟨t', heq⟩ := hcancels _ ha
      exact hlabel (by decide) (by decide) (by decide) heq
    · obtain ⟨t', heq⟩ := hdispatched _ ha
      exact hlabel (by decide) (by decide) (by decide) heq
  · rintro a ha b hb rfl
    have hrepl := hreplaced a hb
    subst hrepl
    rcases mem_append.mp ha with ha | ha
    · rcases mem_append.mp ha with ha | ha
      · obtain ⟨t', heq⟩ := hcancels _ ha
        exact hlabel (by decide) (by decide) (by decide) heq
      · obtain ⟨t', heq⟩ := hdispatched _ ha
        exact hlabel (by decide) (by decide) (by decide) heq
    · obtain ⟨t', heq⟩ := hunpins _ ha
      exact hlabel (by decide) (by decide) (by decide) heq

end Members

/-- The dispatches of a chain that is aborted are the failures of the tasks it has not dispatched. -/
lemma Turn.chain_dispatched (hkind : g.kind = .chain) (hsome : next.abortFailure.isSome)
    (haborted : ∀ f, g.abortFailure = some f → f = workflowSize)
    (h : Turn codec c env g next intents) (hids : StableIds codec) (hi : i ∈ intents)
    (hid : i.id = dispatchId codec g.id t) :
    ∃ (k : ℕ) (e : Envelope), g.children[k]? = some e ∧
      i = abortIntent codec g.id workflowSize e := by
  have hunpin : ∀ {l : List String} {source : String}, i ∈ l.map (unpinIntent codec source) →
      False := by
    intro l source hmem
    obtain ⟨u, -, rfl⟩ := mem_map.mp hmem
    exact label_ne _ _ (by decide) (by decide) (by decide) (hids _ _ _ _ hid).2
  cases h with
  | @aborts f next settled hcause h =>
    have hf : f = workflowSize := by
      rcases hcause with ⟨hf, -⟩ | ⟨rfl, -⟩
      · exact haborted f hf
      · rfl
    rcases mem_append.mp hi with hi | hi
    · have hsettled : settled = (undispatchedChildren g).map (abortIntent codec g.id f) :=
        h.chain hkind
      rw [hsettled] at hi
      obtain ⟨e, he, rfl⟩ := mem_map.mp hi
      obtain ⟨k, hk, -, -⟩ := mem_undispatchedChildren he
      exact ⟨k, e, hk, by rw [hf]⟩
    · split_ifs at hi
      · rw [graphUnpins_eq] at hi
        exact (hunpin hi).elim
      · cases hi
  | stays _ _ _ =>
    rw [graphUnpins_eq] at hi
    exact (hunpin hi).elim
  | nested _ _ hdag _ =>
    rw [hkind] at hdag
    cases hdag
  | canceled _ _ _ h =>
    have hcancel : ∀ {tasks : List (Envelope × Bool)} {source : String},
        i ∈ cancellations codec source tasks → False := by
      intro tasks source hmem
      obtain ⟨p, -, rfl⟩ := mem_map.mp hmem
      rw [cancellationIntent_id] at hid
      exact label_ne _ _ (by decide) (by decide) (by decide) (hids _ _ _ _ hid).2
    cases h with
    | callback _ _ _ => exact (hcancel hi).elim
    | members _ _ => exact (hcancel hi).elim
    | ends _ _ =>
      rw [graphUnpins_eq] at hi
      exact (hunpin hi).elim
  | flat _ _ _ hnone h =>
    have hnext : next.abortFailure = none := by cases h <;> exact hnone
    rw [hnext] at hsome
    cases hsome

/-! ## The invariant -/

/-- Whether an intent publishes a task. -/
def Intent.publishes (i : Intent) : Bool := i.kind == .publish

variable (codec) in
/-- What holds between a graph and the intents that were emitted for it. -/
structure Ledger (g : Graph) (emitted : List Intent) : Prop where
  wellFormed : g.WellFormed
  callbackMatches : g.CallbackMatches
  aborted : ∀ f, g.abortFailure = some f → f = workflowSize
  source : ∀ i ∈ emitted, i.sourceId = g.id
  dispatches : ∀ i ∈ emitted, ∀ t, i.id = dispatchId codec g.id t →
    Released g t ∧ ∃ e, e.id = t ∧ Dispatches codec g.id e i
  published : ∀ i ∈ emitted, i.kind = .publish → ∃ e, Dispatches codec g.id e i ∧
    ∀ d ∈ g.dependsOn e.id, g.stateOf d = some .succeeded
  once : ∀ i ∈ emitted, ∀ j ∈ emitted, ∀ t, i.id = dispatchId codec g.id t → j.id = i.id → i = j
  nodup : ((emitted.filter Intent.publishes).map Intent.id).Nodup
  again : g.kind = .chain → g.abortFailure.isSome → ∀ k e, g.children[k]? = some e → g.next < k →
    e.clone = e ∧ ∀ i ∈ emitted, i.id = dispatchId codec g.id e.id →
      i = abortIntent codec g.id workflowSize e

lemma Ledger.of_same (h : Ledger codec g emitted) (hframe : g'.frame = g.frame)
    (hmatches : g'.CallbackMatches) (habort : g'.abortFailure = g.abortFailure)
    (hreleased : ∀ t, Released g' t ↔ Released g t)
    (hstates : ∀ t s, g.stateOf t = some s → g'.stateOf t = some s) (hnext : g'.next = g.next)
    (hchildren : ∀ k : ℕ, g'.children[k]? = g.children[k]? ∨ g'.children[k]? = (g.children[k]?).map
      Envelope.clone) : Ledger codec g' emitted := by
  have hid : g'.id = g.id := Graph.id_of_frame hframe
  exact
    { wellFormed := h.wellFormed.of_frame hframe
      callbackMatches := hmatches
      aborted := by rw [habort]; exact h.aborted
      source := by rw [hid]; exact h.source
      dispatches := by
        rw [hid]
        intro i hi t ht
        rw [hreleased]
        exact h.dispatches i hi t ht
      published := by
        rw [hid]
        intro i hi hkind
        obtain ⟨e, he, hdeps⟩ := h.published i hi hkind
        refine ⟨e, he, fun d hd => hstates d _ (hdeps d ?_)⟩
        rwa [Graph.dependsOn_of_frame hframe] at hd
      once := by rw [hid]; exact h.once
      nodup := h.nodup
      again := by
        rw [hid, habort, hnext, Graph.kind_of_frame hframe]
        intro hkind hsome k e he hlt
        rcases hchildren k with hk | hk
        · rw [hk] at he
          exact h.again hkind hsome k e he hlt
        · rw [hk] at he
          obtain ⟨e', he', rfl⟩ := Option.map_eq_some_iff.mp he
          obtain ⟨hclone, hrest⟩ := h.again hkind hsome k e' he' hlt
          rw [hclone]
          exact ⟨hclone, hrest⟩ }

lemma Ledger.clone (h : Ledger codec g emitted) : Ledger codec g.clone emitted := by
  refine h.of_same g.frame_clone ?_ rfl (fun t => released_clone) (fun _ _ hs => hs) rfl
    (fun k => .inr ?_)
  · intro e he
    obtain ⟨e', he', rfl⟩ := Option.map_eq_some_iff.mp he
    obtain ⟨hid, hsome⟩ := h.callbackMatches e' he'
    refine ⟨hid, ?_⟩
    show (g.callback.map Signature.clone).isSome
    rwa [Option.isSome_map]
  · exact getElem?_map

lemma Ledger.revision (h : Ledger codec g emitted) (n : ℕ) :
    Ledger codec { g with revision := n } emitted :=
  h.of_same rfl h.callbackMatches rfl (fun _ => Iff.rfl) (fun _ _ hs => hs) rfl fun _ => .inl rfl

lemma stateOf_record (hundone : g.done m.id = false) {s : State} (h : g.stateOf t = some s) :
    (g.record m).stateOf t = some s := by
  unfold Graph.stateOf Graph.record
  rw [FinMap.get?_set_of_ne]
  · exact h
  · rintro rfl
    rw [Graph.done_eq_false] at hundone
    rw [hundone] at h
    cases h

/-- What a call hands to the transition satisfies the invariant. -/
lemma Ledger.prepared {op : FlowOp} (h : Ledger codec g emitted)
    (hprepared : Prepared store g op g') : Ledger codec g' emitted := by
  cases hprepared with
  | record hundone _ _ =>
    exact h.of_same rfl h.callbackMatches rfl (fun _ => Iff.rfl)
      (fun _ _ hs => stateOf_record hundone hs) rfl fun _ => .inl rfl
  | cancel _ =>
    exact h.of_same rfl h.callbackMatches rfl (fun _ => Iff.rfl) (fun _ _ hs => hs) rfl
      fun _ => .inl rfl

/-- The dispatches of a transition that were there before are the same. -/
lemma Ledger.same_of_deals {dispatched : List Intent} (h : Ledger codec g emitted)
    (hdeals : Deals codec g next dispatched) {j : Intent} (hi : i ∈ emitted) (hj : j ∈ dispatched)
    (hid : j.id = i.id) : i = j := by
  obtain ⟨e, he, -, hfresh | ⟨hkind, hsome, k, hk, hlt, rfl⟩⟩ := hdeals.each j hj
  · exact absurd (h.dispatches i hi e.id (hid.symm.trans he.id)).1 hfresh
  · exact (h.again hkind hsome k e hk hlt).2 i hi (hid.symm.trans he.id)

/-- **A transition keeps the invariant.** -/
theorem Ledger.advance (hids : StableIds codec) (h : Ledger codec g emitted)
    (hcloned : g.kind = .chain → g.clone.children = g.children)
    (hadvance : Async.advance codec c env g = .ok (next, intents)) :
    Ledger codec next (emitted ++ intents) ∧ (intents.map Intent.id).Nodup ∧
      ∀ i ∈ intents, i.sourceId = g.id := by
  obtain ⟨within, hturn, rfl⟩ := turn_of_advance hadvance
  obtain ⟨canceled, dispatched, unpinned, hbatch⟩ :=
    hturn.batch hids h.wellFormed h.callbackMatches h.aborted
  have honward := hturn.onward h.wellFormed
  have hid : next.id = g.id := Graph.id_of_frame honward.frame
  have hdeals := hbatch.deals
  have hnew : ∀ {i : Intent} {t : String},
      i ∈ within ++ replacementCompletionIntents codec next → i.id = dispatchId codec g.id t →
      i ∈ dispatched := hbatch.dispatched_of_id hids
  -- Two dispatches of one transition with one identifier are the same.
  have hsame : ∀ i ∈ dispatched, ∀ j ∈ dispatched, j.id = i.id → i = j := fun i hi j hj heq =>
    (inj_on_of_nodup_map hdeals.nodup) hi hj heq.symm
  refine ⟨?_, hbatch.nodup hids hid, fun i hi => hbatch.source hid hi⟩
  exact
    { wellFormed := h.wellFormed.of_frame honward.frame
      callbackMatches := hturn.callbackMatches h.wellFormed h.callbackMatches
      aborted := by
        intro f hf
        rcases hturn.abortFailure h.wellFormed with heq | heq
        · exact h.aborted f (heq ▸ hf)
        · exact Option.some.inj (hf.symm.trans heq)
      source := by
        intro i hi
        rw [hid]
        rcases mem_append.mp hi with hi | hi
        · exact h.source i hi
        · exact hbatch.source hid hi
      dispatches := by
        intro i hi t ht
        rw [hid] at ht ⊢
        rcases mem_append.mp hi with hi | hi
        · obtain ⟨hreleased, he⟩ := h.dispatches i hi t ht
          exact ⟨hdeals.kept t hreleased, he⟩
        · obtain ⟨e, he, hreleased, -⟩ := hdeals.each i (hnew hi ht)
          obtain rfl := dispatchId_inj hids (he.id.symm.trans ht)
          exact ⟨hreleased, e, rfl, he⟩
      published := by
        intro i hi hkind
        rw [hid]
        rcases mem_append.mp hi with hi | hi
        · obtain ⟨e, he, hdeps⟩ := h.published i hi hkind
          refine ⟨e, he, fun d hd => honward.states d _ (hdeps d ?_)⟩
          rwa [Graph.dependsOn_of_frame honward.frame] at hd
        · have hi := hbatch.dispatched_of_publish hi hkind
          obtain ⟨e, he, -, -⟩ := hdeals.each i hi
          refine ⟨e, he, fun d hd => (hdeals.published i hi hkind e he.envelope).2 d ?_⟩
          rwa [Graph.dependsOn_of_frame honward.frame] at hd
      once := by
        intro i hi j hj t ht heq
        rw [hid] at ht
        rcases mem_append.mp hi with hi | hi <;> rcases mem_append.mp hj with hj | hj
        · exact h.once i hi j hj t ht heq
        · exact h.same_of_deals hdeals hi (hnew hj (heq.trans ht)) heq
        · exact (h.same_of_deals hdeals hj (hnew hi ht) heq.symm).symm
        · exact hsame i (hnew hi ht) j (hnew hj (heq.trans ht)) heq
      nodup := by
        rw [filter_append, map_append, nodup_append]
        refine ⟨h.nodup, (hbatch.nodup hids hid).sublist (filter_sublist.map _), ?_⟩
        rintro a ha b hb rfl
        obtain ⟨i, hi, rfl⟩ := mem_map.mp ha
        obtain ⟨j, hj, heq⟩ := mem_map.mp hb
        obtain ⟨hi, -⟩ := mem_filter.mp hi
        obtain ⟨hj, hpublish⟩ := mem_filter.mp hj
        have hkind : j.kind = .publish := by simpa [Intent.publishes] using hpublish
        have hj := hbatch.dispatched_of_publish hj hkind
        obtain ⟨e, he, -, -⟩ := hdeals.each j hj
        have hfresh := (hdeals.published j hj hkind e he.envelope).1
        exact hfresh (h.dispatches i hi e.id (heq.symm.trans he.id)).1
      again := by
        intro hkind hsome k e he hlt
        have hchain : g.kind = .chain := (Graph.kind_of_frame honward.frame).symm.trans hkind
        obtain ⟨hnext, hchildren⟩ := hturn.chain_aborted (hcloned hchain) hchain hsome
        rw [hchildren] at he
        rw [hnext] at hlt
        rw [hid]
        have hclone : e.clone = e := by
          have := congrArg (fun l : List Envelope => l[k]?) (hcloned hchain)
          simp only [Graph.clone, getElem?_map, he, Option.map_some] at this
          exact Option.some.inj this
        refine ⟨hclone, fun i hi ht => ?_⟩
        have hpos := Graph.childIds_getElem? he
        rcases mem_append.mp hi with hi | hi
        · rcases hbefore : g.abortFailure with _ | f
          · exact absurd (h.dispatches i hi e.id ht).1
              (not_released_successor h.wellFormed hchain hbefore hpos hlt)
          · exact (h.again hchain (by rw [hbefore]; rfl) k e he hlt).2 i hi ht
        · have hwithin : i ∈ within := by
            rw [hbatch.eq]
            exact mem_append_left _ (mem_append_right _ (hnew hi ht))
          obtain ⟨k', e', hk', rfl⟩ :=
            hturn.chain_dispatched hchain hsome h.aborted hids hwithin ht
          have heq : e'.id = e.id := dispatchId_inj hids ht
          obtain rfl := h.wellFormed.childIds_inj hpos (heq ▸ Graph.childIds_getElem? hk')
          obtain rfl := Option.some.inj (he.symm.trans hk')
          rfl }

/-! ## Every workflow -/

/-- Nothing was emitted for a graph to which nothing has happened. -/
lemma ledger_of_fresh {g : Graph} (hwf : g.WellFormed) (hfresh : g.Fresh) (cancelRequested : Bool) :
    Ledger codec { g with cancelRequested := cancelRequested } [] where
  wellFormed := Graph.WellFormed.of_frame (g := g) rfl hwf
  callbackMatches := by
    intro e he
    have he : g.callbackEnvelope = some e := he
    rw [hfresh.callbackEnvelope] at he
    cases he
  aborted := by
    intro f hf
    have hf : g.abortFailure = some f := hf
    rw [hfresh.abortFailure] at hf
    cases hf
  source := by simp
  dispatches := by simp
  published := by simp
  once := by simp
  nodup := nodup_nil
  again := by
    intro _ hsome
    have hsome : g.abortFailure.isSome := hsome
    rw [hfresh.abortFailure] at hsome
    cases hsome

/-- The first dispatches of a flat graph: all members, or the first task of a chain. -/
lemma mem_flatIntents (h : i ∈ flatIntents codec g) :
    ∃ (k : ℕ) (e : Envelope), g.children[k]? = some e ∧ i = dispatchIntent codec g.id e ∧
      (g.kind = .chain → k = 0) := by
  unfold flatIntents at h
  split at h
  · obtain ⟨e, he, rfl⟩ := mem_map.mp h
    rcases hchildren : g.children with _ | ⟨child, rest⟩
    · rw [hchildren] at he
      cases he
    · rw [hchildren] at he
      obtain rfl := mem_singleton.mp he
      exact ⟨0, e, rfl, rfl, fun _ => rfl⟩
  · next hkind =>
    obtain ⟨e, he, rfl⟩ := mem_map.mp h
    obtain ⟨k, hk⟩ := mem_iff_getElem?.mp he
    exact ⟨k, e, hk, rfl, fun hchain => absurd hchain hkind⟩

lemma nodup_flatIntents (hids : StableIds codec) (hwf : g.WellFormed) :
    ((flatIntents codec g).map Intent.id).Nodup := by
  have hall : ((g.children.map (dispatchIntent codec g.id)).map Intent.id).Nodup := by
    have := hwf.nodup_children.map (f := dispatchId codec g.id)
      fun _ _ heq => dispatchId_inj hids heq
    rw [Graph.childIds, map_map] at this
    rwa [map_map]
  unfold flatIntents
  split
  · exact hall.sublist (((take_sublist 1 g.children).map _).map _)
  · exact hall

/-- The first dispatches of a flat graph wait for nothing. -/
lemma dependsOn_first (hwf : g.WellFormed) (hdag : g.kind ≠ .dag) {k : ℕ} {e : Envelope}
    (hk : g.children[k]? = some e) (hfirst : g.kind = .chain → k = 0) : g.dependsOn e.id = [] := by
  have hpos := Graph.childIds_getElem? hk
  rcases hkind : g.kind with _ | _ | _ | _
  · simp only [Graph.dependsOn, hkind, map_eq_nil_iff, filter_eq_nil_iff]
    rintro ⟨a, b⟩ hmem heq
    obtain ⟨j, hj⟩ := mem_iff_getElem?.mp hmem
    obtain ⟨-, hb⟩ := getElem?_zip_eq_some.mp hj
    rw [getElem?_tail] at hb
    have hb : g.childIds[j + 1]? = some e.id := by
      rw [hb]
      simpa using heq
    have := hwf.childIds_inj hpos hb
    have := hfirst hkind
    omega
  · simp only [Graph.dependsOn, hkind]
  · simp only [Graph.dependsOn, hkind]
    rw [if_neg]
    intro heq
    have hmem : e.id ∈ g.childIds := mem_of_getElem? hpos
    have hsome : g.callback.isSome := by
      by_contra hnone
      have hid := hwf.callbackId_eq (by simpa using hnone)
      rw [heq, hid] at hmem
      exact hwf.child_ne hmem
    exact hwf.callback_not_mem hsome (heq ▸ hmem)
  · exact absurd hkind hdag

lemma ledger_of_flat (hids : StableIds codec) (hwf : g.WellFormed) (hfresh : g.Fresh)
    (hdag : g.kind ≠ .dag) : Ledger codec g (flatIntents codec g) where
  wellFormed := hwf
  callbackMatches := (@ledger_of_fresh codec g hwf hfresh g.cancelRequested).callbackMatches
  aborted := (@ledger_of_fresh codec g hwf hfresh g.cancelRequested).aborted
  source := by
    intro i hi
    obtain ⟨k, e, -, rfl, -⟩ := mem_flatIntents hi
    rfl
  dispatches := by
    intro i hi t ht
    obtain ⟨k, e, hk, rfl, hfirst⟩ := mem_flatIntents hi
    have hpos := Graph.childIds_getElem? hk
    obtain rfl := dispatchId_inj hids ht
    refine ⟨?_, e, rfl, dispatchIntent_dispatches _ _⟩
    by_cases hchain : g.kind = .chain
    · rw [released_chain hchain]
      exact ⟨k, hpos, .inl (by rw [hfirst hchain]; omega)⟩
    · rw [released_barrier hchain hdag]
      exact .inl (mem_of_getElem? hpos)
  published := by
    intro i hi _
    obtain ⟨k, e, hk, rfl, hfirst⟩ := mem_flatIntents hi
    refine ⟨e, dispatchIntent_dispatches _ _, fun d hd => ?_⟩
    rw [dependsOn_first hwf hdag hk hfirst] at hd
    cases hd
  once := by
    intro i hi j hj t _ heq
    exact inj_on_of_nodup_map (nodup_flatIntents hids hwf) hi hj heq.symm
  nodup := (nodup_flatIntents hids hwf).sublist (filter_sublist.map _)
  again := by
    intro _ hsome
    rw [hfresh.abortFailure] at hsome
    cases hsome

variable (codec) in
/-- The invariant, and what holds of every batch. -/
def Books (g : Graph) (batches : List (List Intent)) : Prop :=
  Ledger codec g batches.flatten ∧
    ∀ b ∈ batches, (b.map Intent.id).Nodup ∧ ∀ i ∈ b, i.sourceId = g.id

lemma Books.advance {batches : List (List Intent)} (hids : StableIds codec)
    (h : Books codec g batches) (hcloned : g.kind = .chain → g.clone.children = g.children)
    (hadvance : Async.advance codec c env g = .ok (next, intents)) :
    Books codec next (batches ++ [intents]) := by
  obtain ⟨hledger, hbatches⟩ := h
  obtain ⟨hledger', hnodup, hsource⟩ := hledger.advance hids hcloned hadvance
  have hid : next.id = g.id := by
    obtain ⟨within, hturn, -⟩ := turn_of_advance hadvance
    exact Graph.id_of_frame (hturn.onward hledger.wellFormed).frame
  refine ⟨by simpa using hledger', fun b hb => ?_⟩
  rw [hid]
  rcases mem_append.mp hb with hb | hb
  · exact hbatches b hb
  · obtain rfl := mem_singleton.mp hb
    exact ⟨hnodup, hsource⟩

/-- The invariant holds when a workflow begins. -/
lemma Begins.books (hids : StableIds codec) (h : Begins codec c w) :
    Books codec w.graph w.batches := by
  cases h with
  | @advanced g env b r hwf hfresh hempty hadvance =>
    have hstart : Books codec { g with cancelRequested := b } [] :=
      ⟨ledger_of_fresh hwf hfresh b, by simp⟩
    have hcloned : g.kind = .chain →
        (Graph.clone { g with cancelRequested := b }).children = g.children := by
      intro hchain
      rcases hempty with hdag | hnil
      · rw [hchain] at hdag
        cases hdag
      · simp [Graph.clone, hnil]
    have hnext := hstart.advance hids hcloned hadvance
    exact ⟨hnext.1.clone, hnext.2⟩
  | @dispatched g hwf hfresh hkind hchildren =>
    refine ⟨?_, ?_⟩
    · have := (ledger_of_flat hids hwf hfresh hkind).clone
      simpa [createGraph, Workflow.write] using this
    · intro b hb
      obtain rfl : b = flatIntents codec g := by
        simpa [createGraph, Workflow.write] using hb
      refine ⟨nodup_flatIntents hids hwf, fun i hi => ?_⟩
      obtain ⟨k, e, -, rfl, -⟩ := mem_flatIntents hi
      rfl

/-- The invariant holds of everything that calls lead to. -/
theorem ReachesWhile.books (hids : StableIds codec) {ok : Workflow → FlowOp → Prop} {w' : Workflow}
    (hbegins : Begins codec c w) (hreach : ReachesWhile codec c store ok w w') :
    Books codec w'.graph w'.batches := by
  refine hreach.invariant hbegins.clone_eq (hbegins.books hids) ?_ ?_ ?_
  · intro g batches op env g' next intents _ hfixed hbooks _ hprepared hadvance
    have hbooks' : Books codec g' batches := by
      refine ⟨hbooks.1.prepared hprepared, ?_⟩
      cases hprepared <;> exact hbooks.2
    refine hbooks'.advance hids (fun _ => ?_) hadvance
    have hchildren := congrArg Graph.children hfixed
    cases hprepared <;> exact hchildren
  · intro g batches n hbooks
    exact ⟨hbooks.1.revision n, hbooks.2⟩
  · intro g batches hbooks
    exact ⟨hbooks.1.clone, hbooks.2⟩

/-! ## The outbox -/

lemma mem_foldl_stage {l outbox : List Intent} (h : i ∈ outbox ∨ i ∈ l)
    (hsame : ∀ j ∈ outbox ++ l, j.id = i.id → j = i) : i ∈ l.foldl stage outbox := by
  induction l generalizing outbox with
  | nil =>
    rcases h with h | h
    · exact h
    · cases h
  | cons a rest ih =>
    rw [foldl_cons]
    have hstage : ∀ j ∈ stage outbox a, j ∈ outbox ∨ j = a := by
      intro j hj
      unfold stage at hj
      split_ifs at hj
      · exact .inl hj
      · rcases mem_append.mp hj with hj | hj
        · exact .inl hj
        · exact .inr (mem_singleton.mp hj)
    have hrest : ∀ j ∈ stage outbox a ++ rest, j.id = i.id → j = i := by
      intro j hj
      rcases mem_append.mp hj with hj | hj
      · rcases hstage j hj with hj | rfl
        · exact hsame j (mem_append_left _ hj)
        · exact hsame j (mem_append_right _ mem_cons_self)
      · exact hsame j (mem_append_right _ (mem_cons_of_mem _ hj))
    refine ih ?_ hrest
    rcases h with h | h
    · left
      unfold stage
      split_ifs
      · exact h
      · exact mem_append_left _ h
    · rcases mem_cons.mp h with rfl | h
      · left
        unfold stage
        split_ifs with hmem
        · -- An intent with its identifier is there already, and it is the same one.
          obtain ⟨j, hj, hid⟩ := mem_map.mp hmem
          have := hsame j (mem_append_left _ hj) hid
          exact this ▸ hj
        · exact mem_append_right _ (mem_singleton.mpr rfl)
      · exact .inr h

/-! ## The result -/

/-- What the store was told about the tasks of a workflow. -/
structure FiresOnce (codec : Codec) (w : Workflow) : Prop where
  /-- A task gets one intent under its dispatch identifier, however often it is emitted. -/
  one_intent : ∀ i ∈ w.emitted, ∀ j ∈ w.emitted, ∀ t, i.id = dispatchId codec w.graph.id t →
    j.id = i.id → i = j
  /-- That intent publishes the task or fails it. -/
  publish_or_fail : ∀ i ∈ w.emitted, ∀ t, i.id = dispatchId codec w.graph.id t →
    (i.kind = .publish ∨ i.kind = .fail) ∧ ∃ e, i.envelope = some e ∧ e.id = t
  /-- The outbox keeps it. -/
  kept : ∀ i ∈ w.emitted, ∀ t, i.id = dispatchId codec w.graph.id t → i ∈ w.outbox
  /-- A task is published under its dispatch identifier, and once. -/
  published_once : (∀ i ∈ w.emitted, i.kind = .publish →
      ∃ e, i.envelope = some e ∧ i.id = dispatchId codec w.graph.id e.id) ∧
    ((w.emitted.filter Intent.publishes).map Intent.id).Nodup
  /-- It is published after everything it waits for has succeeded. -/
  after_dependencies : ∀ i ∈ w.emitted, i.kind = .publish → ∀ e, i.envelope = some e →
    ∀ d ∈ w.graph.dependsOn e.id, w.graph.stateOf d = some .succeeded
  /-- The intents of one transition have different identifiers and name the graph. -/
  batches : ∀ b ∈ w.batches, (b.map Intent.id).Nodup ∧ ∀ i ∈ b, i.sourceId = w.graph.id

lemma Books.firesOnce (h : Books codec w.graph w.batches) : FiresOnce codec w := by
  obtain ⟨hledger, hbatches⟩ := h
  exact
    { one_intent := hledger.once
      publish_or_fail := by
        intro i hi t ht
        obtain ⟨-, e, rfl, he⟩ := hledger.dispatches i hi t ht
        exact ⟨he.kind, e, he.envelope, rfl⟩
      kept := by
        intro i hi t ht
        refine mem_foldl_stage (.inr hi) fun j hj heq => ?_
        exact (hledger.once i hi j hj t ht heq).symm
      published_once := by
        refine ⟨fun i hi hkind => ?_, hledger.nodup⟩
        obtain ⟨e, he, -⟩ := hledger.published i hi hkind
        exact ⟨e, he.envelope, he.id⟩
      after_dependencies := by
        intro i hi hkind e he
        obtain ⟨e', he', hdeps⟩ := hledger.published i hi hkind
        obtain rfl := Option.some.inj (he.symm.trans he'.envelope)
        exact hdeps
      batches := hbatches }

/-- A completion that is recorded already changes nothing. -/
lemma flowStep_repeated (h : w.graph.done m.id = true) (env : Env) :
    flowStep codec c store w (.recordMember m, env) = w := by
  rcases @flowStep_cases codec c store w (.recordMember m, env) with heq | ⟨r, hr, -⟩
  · exact heq
  · obtain ⟨g', next, hprepared, -, -⟩ := prepared_of_flowCall hr
    cases hprepared with
    | record hundone _ _ =>
      rw [h] at hundone
      cases hundone

lemma Begins.revision_pos (h : Begins codec c w) : 0 < w.graph.revision := by
  cases h with
  | @advanced g env b r hwf hfresh hempty hadvance =>
    have hwf' : Graph.WellFormed { g with cancelRequested := b } :=
      Graph.WellFormed.of_frame (g := g) rfl hwf
    obtain ⟨within, hturn, -⟩ := turn_of_advance hadvance
    show 0 < r.1.revision
    rw [(hturn.onward hwf').revision]
    exact hfresh.revision
  | dispatched hwf hfresh _ _ => exact hfresh.revision

/-- **Barriers fire once.** From every workflow that a client or a relay creates, calls in any order
and number, in either store and with the reads and writes of the Redis store interleaved, tell the
store about each task once: it is published or failed, and published only after what it waits for has
succeeded. A completion that is recorded already changes nothing. -/
theorem barriers_fire_once (hids : StableIds codec) {w₀ : Workflow} (hstart : Started codec c w₀) :
    (∀ store w, Reaches codec c store w₀ w → FiresOnce codec w ∧
      ∀ m env, w.graph.done m.id = true →
        flowStep codec c store w (.recordMember m, env) = w) ∧
    (∀ events, ∀ o ∈ Optimistic.history (workflows codec c) { value := some w₀ } events,
      ∀ w, o.before = some w ∨ o.after = some w → FiresOnce codec w) := by
  have hbegins := hstart.begins hids
  have hfires : ∀ {store w}, Reaches codec c store w₀ w → FiresOnce codec w := fun hreach =>
    (hreach.reachesWhile.books hids hbegins).firesOnce
  refine ⟨fun store w hreach => ⟨hfires hreach, fun m env hdone => flowStep_repeated hdone env⟩, ?_⟩
  intro events o ho w hw
  obtain ⟨hbefore, hafter⟩ := (interleaved_reaches hbegins.revision_pos events).1 o ho
  rcases hw with hw | hw
  · obtain ⟨w', hw', hreach⟩ := hbefore w₀ rfl
    obtain rfl := Option.some.inj (hw.symm.trans hw')
    exact hfires hreach
  · obtain ⟨w', hw', hreach⟩ := (hbefore.trans hafter) w₀ rfl
    obtain rfl := Option.some.inj (hw.symm.trans hw')
    exact hfires hreach

/-- A chord of two tasks: when both have succeeded, its callback is published, and all three tasks are
published once. -/
theorem chord_fires_once :
    let w := sampleRun (fun _ => some 4)
      { kind := .chord, signatures := [sampleJob, sampleJob], callback := some sampleSum }
      [.recordMember (sampleCompletion "child-1" .succeeded (some (.str "two"))),
        .recordMember (sampleCompletion "child-0" .succeeded (some (.str "one"))),
        .recordMember (sampleCompletion "child-1" .failed none)]
    FiresOnce (sampleCodec fun _ => some 4) w ∧ w.batches.map List.length = [2, 0, 1] := by
  refine ⟨?_, by decide +kernel⟩
  have hstart := @sampleStart_started (fun _ => some 4)
    { kind := .chord, signatures := [sampleJob, sampleJob], callback := some sampleSum }
    (by decide +kernel)
  exact ((barriers_fire_once (sampleCodec_stableIds _) hstart).1 .memory _ (sampleRun_reaches _)).1

end Gogo.Async

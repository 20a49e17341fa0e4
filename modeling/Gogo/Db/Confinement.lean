import Gogo.Db.ReadYourWrites

/-!
# A router keeps to its configuration

* `Within` — the sources in a state are ones that the router may use; `step_within`, for one call.
* `router_is_confined` — **the configuration allows every admission.**
-/

namespace Gogo.Db.Routing

open List Gogo.Lib

/-- A source that a router may use. -/
def Topology.Serves (t : Topology) (source : Source) : Prop :=
  t.sources source.name = some source ∧ (source.IsPrimary ∨ t.replicas = true)

/-- An entry of the log that uses such a source, and a primary for a write. -/
def Topology.Admits (t : Topology) : Entry → Prop
  | .admitted a => t.Serves a.source ∧ (a.write = true → a.source.IsPrimary)
  | .ended _ => True

/-- What is known of the sources in a state. -/
structure Within (t : Topology) (s : State) : Prop where
  resolving : ∀ r ∈ s.resolving, t.Serves r.1.source
  bindings : ∀ b ∈ s.bindings, t.Serves b.source
  log : ∀ e ∈ s.log, t.Admits e

lemma forall_mem_concat {α : Type} {p : α → Prop} {l : List α} {x : α} (hl : ∀ y ∈ l, p y)
    (hx : p x) : ∀ y ∈ l ++ [x], p y :=
  forall_mem_append.mpr ⟨hl, forall_mem_singleton.mpr hx⟩

variable {names : Names} {t : Topology} {s s' : State} {ctx : Ctx} {b : Binding}

/-- A resolution selects a source that the router may use. -/
lemma serves_of_choose {request : Request} {selected : String}
    (h : choose names t s ctx request selected = .ok b) : t.Serves b.source := by
  simp only [choose, bind_eq_ok] at h
  obtain ⟨_, -, witness, -, _, -, h⟩ := h
  split at h
  · cases h
  · rename_i source hsource
    obtain ⟨found, hredirect, h⟩ := bind_eq_ok.mp h
    obtain ⟨_, -, h⟩ := bind_eq_ok.mp h
    cases h
    obtain ⟨⟨name, hname⟩, hmay⟩ :
        (∃ name, t.sources name = some found) ∧ (found.IsPrimary ∨ t.replicas = true) := by
      grind [Topology.redirect]
    exact ⟨t.named _ _ hname ▸ hname, hmay⟩

section

variable (hs : Within t s)

include hs

/-- A use is admitted on the source of its binding, and as a write on a primary only. -/
lemma use_within {write statement : Bool} (hb : t.Serves b.source)
    (h : s.use b ctx write statement = .ok s') : Within t s' := by
  obtain ⟨⟨pins', witness⟩, hop, h⟩ := bind_eq_ok.mp h
  cases h
  exact ⟨hs.resolving, hs.bindings, forall_mem_concat hs.log ⟨hb, (operation_ok hop).writes⟩⟩

lemma after_within {result : Except Reason State} (h : ∀ s', result = .ok s' → Within t s') :
    Within t (s.after result) := by
  cases result with
  | error _ => exact hs
  | ok s' => exact h s' rfl

lemma call_within {binding : ℕ} {f : Binding → Except Reason State}
    (h : ∀ b, t.Serves b.source → ∀ s', f b = .ok s' → Within t s') :
    Within t (s.call binding ctx f) := by
  unfold State.call
  split
  · exact hs
  · rename_i b hb
    split_ifs
    · exact after_within hs (h b (hs.bindings b (mem_of_getElem? hb)))
    · exact hs

/-- **Every call keeps to the sources that the router may use.** -/
theorem step_within (event : Event) : Within t (step names t s event) := by
  cases event with
  | withConsistency | foreign =>
    simp only [step]
    split_ifs <;> exact ⟨hs.resolving, hs.bindings, hs.log⟩
  | choose ctx request selected =>
    simp only [step]
    split_ifs
    · split
      · rename_i hb
        exact ⟨forall_mem_concat hs.resolving (serves_of_choose hb), hs.bindings, hs.log⟩
      · exact hs
    · exact hs
  | admitResolution resolution =>
    simp only [step]
    split
    · exact hs
    · rename_i hr
      exact after_within hs fun s' => use_within hs (hs.resolving _ (mem_of_getElem? hr))
  | bind resolution =>
    simp only [step]
    split
    · exact hs
    · rename_i hr
      have hb := hs.resolving _ (mem_of_getElem? hr)
      refine after_within hs fun s' hs' => ?_
      obtain ⟨s₁, huse, hs'⟩ := bind_eq_ok.mp hs'
      have hs₁ := use_within hs hb huse
      cases hs'
      exact ⟨hs₁.resolving, forall_mem_concat hs₁.bindings hb, hs₁.log⟩
  | query binding ctx => exact call_within hs fun b hb s' => use_within hs hb
  | exec | beforeWrite =>
    refine call_within hs fun b hb s' hs' => ?_
    obtain ⟨_, -, hs'⟩ := bind_eq_ok.mp hs'
    exact use_within hs hb hs'
  | atomic binding ctx opened =>
    refine call_within hs fun b hb s' hs' => ?_
    simp only [State.atomic, bind_eq_ok] at hs'
    obtain ⟨_, -, _, -, s₁, huse, hs'⟩ := hs'
    have hs₁ := use_within hs hb huse
    cases hs'
    cases opened <;> exact ⟨hs₁.resolving, hs₁.bindings, hs₁.log⟩
  | finish witness => exact ⟨hs.resolving, hs.bindings, forall_mem_concat hs.log trivial⟩

end

/-- On a configured database, on a replica only if they are enabled, and a write on a declared
primary. -/
def RouterConfig.Allows (config : RouterConfig) (a : Admission) : Prop :=
  ∃ d ∈ config.databases, a.source = d.source ∧
    (a.source.IsPrimary ∨ config.enableReplicas = true) ∧
    (a.write = true → d.primary = "" ∨ d.primary = d.name)

/-- **A router keeps to its configuration.** Whatever the rules select and in whatever order calls
are made, a router that `NewRouter` has accepted admits what its configuration allows only. -/
theorem router_is_confined (config : RouterConfig) (hrouter : newRouter names config = some t)
    (calls : List Event) (a : Admission) (ha : .admitted a ∈ (runCalls names t calls).log) :
    config.Allows a := by
  have hrun : Within t (runCalls names t calls) :=
    foldlRecOn calls (step names t) ⟨nofun, nofun, nofun⟩ fun _ hs call _ => step_within hs call
  obtain ⟨⟨hfound, hreplica⟩, hwrite⟩ := hrun.log _ ha
  unfold newRouter at hrouter
  split_ifs at hrouter
  obtain rfl := Option.some.inj hrouter
  obtain ⟨-, d, hd, hsource⟩ := RouterConfig.find_name hfound
  refine ⟨d, hd, hsource, hreplica, fun hw => ?_⟩
  have hprimary : d.source.IsPrimary := hsource ▸ hwrite hw
  grind [Source.IsPrimary, RoutedDatabase.source]

/-- A read on the replica, and a write. -/
theorem sample_router_is_confined :
    let names : Names := ⟨fun _ => true, fun _ => true⟩
    let ctx : Ctx := ⟨some 0, [], []⟩
    let config : RouterConfig :=
      ⟨[⟨"main", "", "main"⟩, ⟨"copy", "main", "copy"⟩], "main", true, 0⟩
    let calls := [.withConsistency ⟨none, [], []⟩,
      .choose ctx ⟨"shop.Book", "", .read, false⟩ "copy", .bind 0, .query 0 ctx,
      .choose ctx ⟨"shop.Book", "", .write, false⟩ "", .bind 1, .exec 1 ctx]
    ∃ t, newRouter names config = some t ∧ (runCalls names t calls).log.length = 4 ∧
      ∀ a, .admitted a ∈ (runCalls names t calls).log → config.Allows a := by
  intro names ctx config calls
  exact ⟨_, rfl, by decide +kernel, router_is_confined config rfl calls⟩

end Gogo.Db.Routing

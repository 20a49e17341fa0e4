import Gogo.Db.Routing

/-!
# Read your writes

* `operation_ok`, `ambient_ok`, `Pins.admit_ok` — what an admitted use has passed.
* `Respects`, `Admission.Good` — what is asked of two entries of the log, and of one.
* `Invariant` — what the pins, the contexts and the bindings know of the log; every call keeps it
  (`step_invariant`).
* `read_your_writes` — **in every sequence of calls, later admissions respect earlier ones and
  every admission is good.**
-/

namespace Gogo.Db.Routing

open List Gogo.Lib

/-! ## What is asked of the log -/

/-- What an earlier entry asks of a later one. Within one consistency context, after a write a
family is used by its primary only, and a model stays with its family; after the end of a block
nothing is admitted with a context from within it. -/
def Respects : Entry → Entry → Prop
  | .admitted a, .admitted b =>
    ∀ c, a.ctx.consistency = some c → b.ctx.consistency = some c →
      (a.write = true → a.source.primary = b.source.primary → b.source.IsPrimary) ∧
      (a.model ≠ "" → a.model = b.model → a.source.primary = b.source.primary)
  | .ended witness, .admitted b => ∀ w ∈ b.ctx.witnesses, w.id ≠ witness
  | _, .ended _ => True

/-- What is asked of every admission: without consistency and within a transaction it is on a
primary, and its statement runs on the transaction of its context, if there is one. -/
structure Admission.Good (a : Admission) : Prop where
  primary : a.ctx.consistency = none ∨ a.ctx.transactions ≠ [] → a.source.IsPrimary
  executor : ∀ x ∈ a.executor, x =
    match a.ctx.transactions with
    | [] => .backend a.source.name
    | t :: _ => .transaction t.tx

/-! ## What an admitted use has passed -/

variable {ended : List ℕ} {ctx : Ctx} {witness : Option Witness} {pins : Pins} {source : Source}
  {model : String} {write : Bool} {s s' : State} {b : Binding} {pins' : List Pins}

lemma witnessed_ok {first : Witness} {ts : List TxFrame} {ws : List Witness} {u : Unit}
    (h : witnessed ended first ts ws = .ok u) :
    ts.length = ws.length ∧ ∀ w ∈ ws, w.id ∉ ended ∧ w.own = true := by
  induction ts generalizing ws with
  | nil =>
    cases ws with
    | nil => exact ⟨rfl, by simp⟩
    | cons w ws => cases h
  | cons t ts ih =>
    cases ws with
    | nil => cases h
    | cons w ws =>
      simp only [witnessed] at h
      split_ifs at h with hbad
      push Not at hbad
      obtain ⟨hlen, hall⟩ := ih h
      refine ⟨by simp [hlen], forall_mem_cons.mpr ⟨⟨hbad.1, ?_⟩, hall⟩⟩
      simpa using hbad.2.1

/-- A context without transaction, or within blocks that have not ended. -/
lemma ambient_ok (h : ambient ended ctx = .ok witness) :
    witness = none ∧ ctx.witnesses = [] ∧ ctx.transactions = [] ∨
      ∃ w t ts, witness = some w ∧ w ∈ ctx.witnesses ∧ w.own = true ∧
        ctx.transactions = t :: ts ∧ ∀ w ∈ ctx.witnesses, w.id ∉ ended := by
  unfold ambient at h
  cases hws : ctx.witnesses with
  | nil =>
    cases hts : ctx.transactions with
    | nil =>
      simp only [hws, hts] at h
      cases h
      exact .inl ⟨rfl, rfl, rfl⟩
    | cons t ts =>
      simp only [hws, hts] at h
      cases h
  | cons w ws =>
    simp only [hws] at h
    obtain ⟨_, hwalk, h⟩ := bind_eq_ok.mp h
    cases h
    obtain ⟨hlen, hall⟩ := witnessed_ok hwalk
    cases hts : ctx.transactions with
    | nil =>
      rw [hts] at hlen
      cases hlen
    | cons t ts =>
      exact .inr ⟨w, t, ts, rfl, mem_cons_self, (hall w mem_cons_self).2, rfl,
        fun w' hw' => (hall w' hw').1⟩

/-- The pins after an admission. -/
structure Pins.Admits (pins : Pins) (source : Source) (model : String) (write : Bool)
    (pins' : Pins) : Prop where
  clean : source.primary ∈ pins.dirty → source.IsPrimary
  family : model ≠ "" → pins'.families.get? model = some source.primary
  families : ∀ m f, pins.families.get? m = some f → pins'.families.get? m = some f
  dirty : ∀ p ∈ pins.dirty, p ∈ pins'.dirty
  write : write = true → source.primary ∈ pins'.dirty

lemma Pins.family_ok {families : FinMap String String}
    (h : pins.family source model = .ok families) :
    (model ≠ "" → families.get? model = some source.primary) ∧
      ∀ m f, pins.families.get? m = some f → families.get? m = some f := by
  unfold Pins.family at h
  by_cases hempty : model = ""
  · rw [if_pos hempty] at h
    cases h
    exact ⟨fun hne => absurd hempty hne, fun _ _ hf => hf⟩
  · rw [if_neg hempty] at h
    cases hfamily : pins.families.get? model with
    | some primary =>
      rw [hfamily] at h
      simp only at h
      split_ifs at h with hother
      cases h
      rw [not_not] at hother
      exact ⟨fun _ => by rw [hfamily, hother], fun _ _ hf => hf⟩
    | none =>
      rw [hfamily] at h
      simp only at h
      split_ifs at h
      cases h
      refine ⟨fun _ => FinMap.get?_set_self _ _ _, fun m f hf => ?_⟩
      rw [FinMap.get?_set_of_ne, hf]
      rintro rfl
      rw [hfamily] at hf
      cases hf

lemma Pins.admit_ok {pins' : Pins} (h : pins.admitRequest source model write = .ok pins') :
    pins.Admits source model write pins' := by
  unfold Pins.admitRequest at h
  obtain ⟨_, hclean, h⟩ := bind_eq_ok.mp h
  obtain ⟨families, hfamily, h⟩ := bind_eq_ok.mp h
  rw [refuseIf_eq_ok, not_and, not_imp_not] at hclean
  obtain ⟨hmodel, hkept⟩ := Pins.family_ok hfamily
  cases h
  refine ⟨hclean, hmodel, hkept, ?_, ?_⟩
  · intro p hp
    cases write
    · exact hp
    · exact mem_cons_of_mem _ hp
  · rintro rfl
    exact mem_cons_self

/-- What an admitted use has passed. -/
structure Passed (s : State) (b : Binding) (ctx : Ctx) (write : Bool) (pins' : List Pins)
    (witness : Option Witness) : Prop where
  context : ctx.consistency = b.consistency
  ambient : ambient s.ended ctx = .ok witness
  source : ∀ w, witness = some w → w.source = b.source
  writes : write = true → b.source.IsPrimary
  pins : b.consistency = none ∧ pins' = s.pins ∨ ∃ c p p', b.consistency = some c ∧
    s.pins[c]? = some p ∧ p.Admits b.source b.request.model write p' ∧ pins' = s.pins.set c p'

lemma operation_ok (h : operation s b ctx write = .ok (pins', witness)) :
    Passed s b ctx write pins' witness := by
  unfold operation at h
  obtain ⟨_, hctx, h⟩ := bind_eq_ok.mp h
  obtain ⟨found, hambient, h⟩ := bind_eq_ok.mp h
  obtain ⟨_, hmatch, h⟩ := bind_eq_ok.mp h
  obtain ⟨_, hwrite, h⟩ := bind_eq_ok.mp h
  rw [refuseIf_eq_ok, not_not] at hctx
  rw [refuseIf_eq_ok] at hmatch
  rw [refuseIf_eq_ok, not_and, not_not] at hwrite
  have hsource : ∀ w, found = some w → w.source = b.source := by
    rintro w rfl
    by_contra hne
    exact hmatch ⟨w, rfl, hne⟩
  cases hc : b.consistency with
  | none =>
    rw [hc] at h
    cases h
    exact ⟨hctx, hambient, hsource, hwrite, .inl ⟨hc, rfl⟩⟩
  | some c =>
    rw [hc] at h
    simp only at h
    cases hp : s.pins[c]? with
    | none =>
      rw [hp] at h
      cases h
    | some p =>
      rw [hp] at h
      obtain ⟨p', hadmit, h⟩ := bind_eq_ok.mp h
      cases h
      exact ⟨hctx, hambient, hsource, hwrite,
        .inr ⟨c, p, p', hc, hp, Pins.admit_ok hadmit, rfl⟩⟩

/-! ## What the state knows -/

/-- Pins only grow. -/
def PinsGrow (pins pins' : List Pins) : Prop :=
  ∀ (c : ℕ) (p : Pins), pins[c]? = some p → ∃ p' : Pins, pins'[c]? = some p' ∧
    (∀ m f, p.families.get? m = some f → p'.families.get? m = some f) ∧
    ∀ x ∈ p.dirty, x ∈ p'.dirty

lemma PinsGrow.refl (pins : List Pins) : PinsGrow pins pins :=
  fun _ p hp => ⟨p, hp, fun _ _ h => h, fun _ h => h⟩

/-- What the pins, the contexts and the bindings know of the log. -/
structure Invariant (s : State) : Prop where
  witnesses : ∀ ctx ∈ s.contexts, ∀ w ∈ ctx.witnesses, w.own = true → w.source.IsPrimary
  bindings : ∀ b ∈ s.bindings, b.consistency = none → b.source.IsPrimary
  resolving : ∀ r ∈ s.resolving, r.2 ∈ s.contexts ∧
    (r.1.consistency = none → r.1.source.IsPrimary)
  dirty : ∀ a, .admitted a ∈ s.log → a.write = true → ∀ c, a.ctx.consistency = some c →
    ∃ p, s.pins[c]? = some p ∧ a.source.primary ∈ p.dirty
  families : ∀ a, .admitted a ∈ s.log → a.model ≠ "" → ∀ c, a.ctx.consistency = some c →
    ∃ p, s.pins[c]? = some p ∧ p.families.get? a.model = some a.source.primary
  ended : ∀ w, .ended w ∈ s.log → w ∈ s.ended
  good : ∀ a, .admitted a ∈ s.log → a.Good
  ordered : s.log.Pairwise Respects

lemma start_invariant : Invariant start := by
  refine ⟨?_, ?_, ?_, ?_, ?_, ?_, ?_, List.Pairwise.nil⟩ <;> simp [start]

/-! ## Uses -/

section

variable (h : Passed s b ctx write pins' witness)

include h

lemma Passed.grow : PinsGrow s.pins pins' := by
  rcases h.pins with ⟨-, rfl⟩ | ⟨c, p, p', -, hp, hadmits, rfl⟩
  · exact .refl _
  · intro c' q hq
    by_cases hc : c = c'
    · subst hc
      obtain rfl : p = q := Option.some.inj (hp.symm.trans hq)
      refine ⟨p', ?_, hadmits.families, hadmits.dirty⟩
      have hlt := (List.getElem?_eq_some_iff.mp hp).1
      simp [hlt]
    · exact ⟨q, by rw [getElem?_set_ne hc]; exact hq, fun _ _ hf => hf, fun _ hx => hx⟩

/-- The pins know of an admitted use. -/
lemma Passed.pinned {c : ℕ} (hc : ctx.consistency = some c) :
    ∃ p, pins'[c]? = some p ∧ (write = true → b.source.primary ∈ p.dirty) ∧
      (b.request.model ≠ "" → p.families.get? b.request.model = some b.source.primary) := by
  rw [h.context] at hc
  rcases h.pins with ⟨hnone, -⟩ | ⟨c', p, p', hc', hp, hadmits, rfl⟩
  · rw [hnone] at hc
    cases hc
  · obtain rfl : c' = c := Option.some.inj (hc'.symm.trans hc)
    have hlt := (List.getElem?_eq_some_iff.mp hp).1
    exact ⟨p', by simp [hlt], hadmits.write, hadmits.family⟩

/-- The entry of an admitted use is good. -/
lemma Passed.good (hinv : Invariant s) (hctx : ctx ∈ s.contexts)
    (hplain : b.consistency = none → b.source.IsPrimary) (statement : Bool) :
    Admission.Good ⟨ctx, b.source, b.request.model, write,
      if statement then some (executorOf b ctx witness) else none⟩ := by
  rcases ambient_ok h.ambient with ⟨rfl, -, hts⟩ | ⟨w, t, ts, rfl, hw, hown, hts, -⟩
  · refine ⟨?_, ?_⟩
    · rintro (hnone | hne)
      · exact hplain (h.context ▸ hnone)
      · exact absurd hts hne
    · intro x hx
      cases statement with
      | false => cases hx
      | true =>
        cases hx
        simp only [executorOf, hts]
  · refine ⟨fun _ => ?_, ?_⟩
    · have hprimary := hinv.witnesses ctx hctx w hw hown
      rw [h.source w rfl] at hprimary
      exact hprimary
    · intro x hx
      cases statement with
      | false => cases hx
      | true =>
        cases hx
        simp only [executorOf, hts]

/-- The entry of an admitted use respects what came before. -/
lemma Passed.respects (hinv : Invariant s) {executor : Option Executor} {e : Entry}
    (he : e ∈ s.log) :
    Respects e (.admitted ⟨ctx, b.source, b.request.model, write, executor⟩) := by
  cases e with
  | ended w =>
    intro w' hw' hid
    rcases ambient_ok h.ambient with ⟨-, hws, -⟩ | ⟨-, -, -, -, -, -, -, hactive⟩
    · rw [hws] at hw'
      cases hw'
    · exact hactive w' hw' (hid ▸ hinv.ended w he)
  | admitted a =>
    intro c ha hb
    have hc : b.consistency = some c := h.context ▸ hb
    rcases h.pins with ⟨hnone, -⟩ | ⟨c', p, p', hc', hp, hadmits, -⟩
    · rw [hnone] at hc
      cases hc
    · obtain rfl : c' = c := Option.some.inj (hc'.symm.trans hc)
      refine ⟨fun hwrite hsame => ?_, fun hmodel hsame => ?_⟩
      · obtain ⟨q, hq, hdirty⟩ := hinv.dirty a he hwrite c' ha
        obtain rfl : p = q := Option.some.inj (hp.symm.trans hq)
        exact hadmits.clean (hsame ▸ hdirty)
      · have hsame : a.model = b.request.model := hsame
        obtain ⟨q, hq, hfamily⟩ := hinv.families a he hmodel c' ha
        obtain rfl : p = q := Option.some.inj (hp.symm.trans hq)
        have hnow := hadmits.family (hsame ▸ hmodel)
        rw [← hsame, hadmits.families _ _ hfamily] at hnow
        exact Option.some.inj hnow

end

/-- A use keeps the invariant. -/
lemma use_invariant {statement : Bool} (hinv : Invariant s) (hctx : ctx ∈ s.contexts)
    (hplain : b.consistency = none → b.source.IsPrimary)
    (h : s.use b ctx write statement = .ok s') :
    Invariant s' ∧ s'.contexts = s.contexts ∧ s'.bindings = s.bindings ∧
      s'.resolving = s.resolving ∧ (write = true → b.source.IsPrimary) := by
  unfold State.use at h
  obtain ⟨⟨pins', witness⟩, hop, h⟩ := bind_eq_ok.mp h
  have hpassed := operation_ok hop
  have hgrow := hpassed.grow
  cases h
  refine ⟨⟨hinv.witnesses, hinv.bindings, hinv.resolving, ?_, ?_, ?_, ?_, ?_⟩, rfl, rfl, rfl,
    hpassed.writes⟩
  · intro a ha hwrite c hc
    rcases mem_append.mp ha with hold | hnew
    · obtain ⟨p, hp, hdirty⟩ := hinv.dirty a hold hwrite c hc
      obtain ⟨p', hp', -, hkept⟩ := hgrow c p hp
      exact ⟨p', hp', hkept _ hdirty⟩
    · obtain rfl := Entry.admitted.inj (mem_singleton.mp hnew)
      obtain ⟨p, hp, hdirty, -⟩ := hpassed.pinned hc
      exact ⟨p, hp, hdirty hwrite⟩
  · intro a ha hmodel c hc
    rcases mem_append.mp ha with hold | hnew
    · obtain ⟨p, hp, hfamily⟩ := hinv.families a hold hmodel c hc
      obtain ⟨p', hp', hkept, -⟩ := hgrow c p hp
      exact ⟨p', hp', hkept _ _ hfamily⟩
    · obtain rfl := Entry.admitted.inj (mem_singleton.mp hnew)
      obtain ⟨p, hp, -, hfamily⟩ := hpassed.pinned hc
      exact ⟨p, hp, hfamily hmodel⟩
  · intro w hw
    rcases mem_append.mp hw with hold | hnew
    · exact hinv.ended w hold
    · cases mem_singleton.mp hnew
  · intro a ha
    rcases mem_append.mp ha with hold | hnew
    · exact hinv.good a hold
    · obtain rfl := Entry.admitted.inj (mem_singleton.mp hnew)
      exact hpassed.good hinv hctx hplain statement
  · refine pairwise_append.mpr ⟨hinv.ordered, pairwise_singleton _ _, ?_⟩
    intro e he e' he'
    rw [mem_singleton.mp he']
    exact hpassed.respects hinv he

/-! ## Calls -/

/-- Without a consistency context a resolution selects a primary. -/
lemma choose_primary {names : Names} {t : Topology} {request : Request} {selected : String}
    (h : choose names t s ctx request selected = .ok b) (hnone : b.consistency = none) :
    b.source.IsPrimary := by
  unfold choose at h
  obtain ⟨_, -, h⟩ := bind_eq_ok.mp h
  obtain ⟨witness, -, h⟩ := bind_eq_ok.mp h
  obtain ⟨_, -, h⟩ := bind_eq_ok.mp h
  split at h
  · cases h
  · rename_i source hsource
    obtain ⟨found, hredirect, h⟩ := bind_eq_ok.mp h
    obtain ⟨_, -, h⟩ := bind_eq_ok.mp h
    cases h
    have hctx : ctx.consistency = none := hnone
    change found.IsPrimary
    simp only [hctx, Option.isNone_none, Bool.or_true, Bool.true_or, Topology.redirect,
      if_true] at hredirect
    split_ifs at hredirect with hprimary
    · cases hredirect
      exact hprimary
    · obtain ⟨p, hp, hroot⟩ := t.rooted _ _ hsource
      rw [hp] at hredirect
      cases hredirect
      exact hroot

/-- A refused call changes nothing. -/
lemma after_invariant {result : Except Reason State} (hinv : Invariant s)
    (h : ∀ s', result = .ok s' → Invariant s') : Invariant (s.after result) := by
  cases result with
  | error reason => exact hinv
  | ok s' => exact h s' rfl

lemma call_invariant {binding : ℕ} {f : Binding → Except Reason State} (hinv : Invariant s)
    (h : ∀ b, (b.consistency = none → b.source.IsPrimary) → ctx ∈ s.contexts → ∀ s', f b = .ok s' →
      Invariant s') : Invariant (s.call binding ctx f) := by
  unfold State.call
  cases hb : s.bindings[binding]? with
  | none => exact hinv
  | some b =>
    simp only
    split_ifs with hctx
    · exact after_invariant hinv fun s' hs' =>
        h b (hinv.bindings b (mem_of_getElem? hb)) hctx s' hs'
    · exact hinv

/-- More contexts, with primary witnesses. -/
lemma Invariant.addContext {s : State} (hinv : Invariant s) {ctx : Ctx} {n : ℕ}
    (h : ∀ w ∈ ctx.witnesses, w.own = true → w.source.IsPrimary) :
    Invariant { s with contexts := ctx :: s.contexts, next := n } where
  witnesses := forall_mem_cons.mpr ⟨h, hinv.witnesses⟩
  bindings := hinv.bindings
  resolving := fun r hr =>
    ⟨mem_cons_of_mem _ (hinv.resolving r hr).1, (hinv.resolving r hr).2⟩
  dirty := hinv.dirty
  families := hinv.families
  ended := hinv.ended
  good := hinv.good
  ordered := hinv.ordered

lemma atomic_invariant {opened : Bool} (hinv : Invariant s) (hctx : ctx ∈ s.contexts)
    (hplain : b.consistency = none → b.source.IsPrimary) (h : s.atomic b ctx opened = .ok s') :
    Invariant s' := by
  unfold State.atomic at h
  obtain ⟨_, -, h⟩ := bind_eq_ok.mp h
  obtain ⟨_, hprimary, h⟩ := bind_eq_ok.mp h
  obtain ⟨s₁, huse, h⟩ := bind_eq_ok.mp h
  rw [refuseIf_eq_ok, not_not] at hprimary
  obtain ⟨hinv₁, hcontexts, -⟩ := use_invariant hinv hctx hplain huse
  cases h
  cases opened with
  | false => exact hinv₁
  | true =>
    refine hinv₁.addContext ?_
    refine forall_mem_cons.mpr ⟨fun _ => hprimary, ?_⟩
    exact hinv.witnesses ctx hctx

/-- Every call keeps the invariant. -/
lemma step_invariant (names : Names) (t : Topology) (hinv : Invariant s) (event : Event) :
    Invariant (step names t s event) := by
  cases event with
  | withConsistency ctx =>
    simp only [step]
    split_ifs with hctx
    · have hgrow : ∀ {c : ℕ} {p : Pins}, s.pins[c]? = some p →
          (s.pins ++ [⟨.empty, []⟩])[c]? = some p := by
        intro c p hp
        rw [getElem?_append_left (List.getElem?_eq_some_iff.mp hp).1, hp]
      have hmore := @Invariant.addContext s hinv { ctx with consistency := some s.pins.length }
        s.next (hinv.witnesses ctx hctx)
      refine ⟨hmore.witnesses, hmore.bindings, hmore.resolving, ?_, ?_, hinv.ended, hinv.good,
        hinv.ordered⟩
      · intro a ha hwrite c hc
        obtain ⟨p, hp, hdirty⟩ := hinv.dirty a ha hwrite c hc
        exact ⟨p, hgrow hp, hdirty⟩
      · intro a ha hmodel c hc
        obtain ⟨p, hp, hfamily⟩ := hinv.families a ha hmodel c hc
        exact ⟨p, hgrow hp, hfamily⟩
    · exact hinv
  | choose ctx request selected =>
    simp only [step]
    split_ifs with hctx
    · split
      · rename_i b hb
        refine ⟨hinv.witnesses, hinv.bindings, ?_, hinv.dirty, hinv.families, hinv.ended,
          hinv.good, hinv.ordered⟩
        intro r hr
        rcases mem_append.mp hr with hold | hnew
        · exact hinv.resolving r hold
        · rw [mem_singleton.mp hnew]
          exact ⟨hctx, choose_primary hb⟩
      · exact hinv
    · exact hinv
  | admitResolution resolution =>
    simp only [step]
    split
    · exact hinv
    · rename_i b ctx hr
      obtain ⟨hctx, hplain⟩ := hinv.resolving _ (mem_of_getElem? hr)
      exact after_invariant hinv fun s' hs' => (use_invariant hinv hctx hplain hs').1
  | bind resolution =>
    simp only [step]
    split
    · exact hinv
    · rename_i b ctx hr
      obtain ⟨hctx, hplain⟩ := hinv.resolving _ (mem_of_getElem? hr)
      refine after_invariant hinv fun s' hs' => ?_
      obtain ⟨s₁, huse, hs'⟩ := bind_eq_ok.mp hs'
      obtain ⟨hinv₁, -⟩ := use_invariant hinv hctx hplain huse
      cases hs'
      refine ⟨hinv₁.witnesses, ?_, hinv₁.resolving, hinv₁.dirty, hinv₁.families, hinv₁.ended,
        hinv₁.good, hinv₁.ordered⟩
      intro b' hb'
      rcases mem_append.mp hb' with hold | hnew
      · exact hinv₁.bindings b' hold
      · rw [mem_singleton.mp hnew]
        exact hplain
  | query binding ctx =>
    exact call_invariant hinv fun b hplain hctx s' hs' => (use_invariant hinv hctx hplain hs').1
  | exec binding ctx =>
    refine call_invariant hinv fun b hplain hctx s' hs' => ?_
    obtain ⟨_, -, hs'⟩ := bind_eq_ok.mp hs'
    exact (use_invariant hinv hctx hplain hs').1
  | beforeWrite binding ctx =>
    refine call_invariant hinv fun b hplain hctx s' hs' => ?_
    obtain ⟨_, -, hs'⟩ := bind_eq_ok.mp hs'
    exact (use_invariant hinv hctx hplain hs').1
  | atomic binding ctx opened =>
    exact call_invariant hinv fun b hplain hctx s' hs' => atomic_invariant hinv hctx hplain hs'
  | finish witness =>
    refine ⟨hinv.witnesses, hinv.bindings, hinv.resolving, ?_, ?_, ?_, ?_, ?_⟩
    · intro a ha
      refine hinv.dirty a ?_
      simpa [step] using ha
    · intro a ha
      refine hinv.families a ?_
      simpa [step] using ha
    · intro w hw
      rcases mem_append.mp hw with hold | hnew
      · exact mem_cons_of_mem _ (hinv.ended w hold)
      · obtain rfl := Entry.ended.inj (mem_singleton.mp hnew)
        exact mem_cons_self
    · intro a ha
      refine hinv.good a ?_
      simpa [step] using ha
    · refine pairwise_append.mpr ⟨hinv.ordered, pairwise_singleton _ _, ?_⟩
      intro e _ e' he'
      rw [mem_singleton.mp he']
      cases e <;> trivial
  | foreign ctx name tx witness =>
    simp only [step]
    split_ifs with hctx
    · refine hinv.addContext ?_
      intro w hw hown
      rcases mem_append.mp hw with hnew | hold
      · rw [Option.mem_toList] at hnew
        obtain ⟨source, -, rfl⟩ := Option.map_eq_some_iff.mp hnew
        cases hown
      · exact hinv.witnesses ctx hctx w hold hown
    · exact hinv

/-- **Read your writes.** In every sequence of calls on one router, with any rules: within a
consistency context, after a write or a routed transaction on a family was admitted, every later
admission on the family is on its primary, and a model stays with its family; without consistency
or within a routed transaction every admission is on a primary; every admitted statement runs on
the transaction of its context, if there is one; and after the end of a block nothing is admitted
with a context from within it. -/
theorem read_your_writes (names : Names) (t : Topology) (calls : List Event) :
    (runCalls names t calls).log.Pairwise Respects ∧
      ∀ a, .admitted a ∈ (runCalls names t calls).log → a.Good := by
  have hinv : Invariant (runCalls names t calls) := by
    unfold runCalls
    suffices hrun : ∀ s, Invariant s → Invariant (calls.foldl (step names t) s) from
      hrun start start_invariant
    induction calls with
    | nil => exact fun _ hs => hs
    | cons call calls ih => exact fun s hs => ih _ (step_invariant names t hs call)
  exact ⟨hinv.ordered, hinv.good⟩

end Gogo.Db.Routing

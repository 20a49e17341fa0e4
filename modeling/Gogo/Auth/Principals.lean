import Gogo.Auth.Commit
import Gogo.Models.Schema

/-!
# Principals under a token ceiling

A principal that comes from a token carries a ceiling: the scopes that the token was issued for.
The ceiling is a set that may be empty; having none is something else, the mark of an identity
that no token constrains.

* `tokenScopes`, `constrainPrincipal`, `checkTokenScope` — as in the source.
* `ModelPolicy.authorize`, `constrainPolicy` — the two policies that look at the ceiling.
* `withPrincipal`, `fromContext` — a principal on its way through a context.
* `Narrows` — the same user under a smaller ceiling; it composes.
* `ModelPolicy.authorize_of_narrows`, `constrainPolicy_of_narrows` — **a smaller ceiling allows
  nothing that a larger one does not**, the latter for policies that do not themselves give more to
  a smaller ceiling (`Policy.Monotone`).
-/

namespace Gogo.Auth

open Gogo.Lib

/-- `Principal`. A ceiling that is absent and one that is empty differ. -/
structure Principal where
  id : String
  authenticated : Bool
  active : Bool
  staff : Bool
  superuser : Bool
  authVersion : ℕ
  permissions : List String
  tokenScopes : Option (List String)
  deriving DecidableEq

/-- The zero value. -/
def Principal.zero : Principal := ⟨"", false, false, false, false, 0, [], none⟩

/-- `Resource`; `object` stands for the identifier and the object, which only custom policies
look at. -/
structure Resource where
  app : String
  model : String
  object : ℕ

/-- `context.Context`: its error at the start of a check and after a callback, and its principal. -/
structure Context where
  early : Option Err
  late : Option Err
  principal : Option Principal

/-- `Policy`: nil or an error. -/
abbrev Policy := Context → Principal → String → Resource → Option Err

/-! ## Scopes -/

/-- `strings.Cut` at the first dot. -/
def cut (s : String) : Option (String × String) :=
  if s.toList.contains '.' then
    some (String.ofList (s.toList.takeWhile (· != '.')),
      String.ofList (s.toList.dropWhile (· != '.')).tail)
  else none

/-- One scope: two identifiers with a dot between them. -/
def validScope (scope : String) : Bool :=
  match cut scope with
  | none => false
  | some (app, codename) =>
    Models.validIdentifier app && Models.validIdentifier codename &&
      app.utf8ByteSize ≤ 128 && codename.utf8ByteSize ≤ 128

/-- The loop of `tokenScopes` over the sorted scopes; `previous` is the one before. -/
def scopesValid : Option String → List String → Bool
  | _, [] => true
  | previous, scope :: rest =>
    validScope scope && previous != some scope && scopesValid (some scope) rest

/-- `tokenScopes`. -/
def tokenScopes (scopes : List String) : Except Err (List String) :=
  if scopes.length < 1 ∨ 256 < scopes.length then .error (.named .tokenScopes)
  else if scopesValid none (sortStrings scopes) then .ok (sortStrings scopes)
  else .error (.named .tokenScopes)

/-- `ConstrainPrincipal`. -/
def constrainPrincipal (p : Principal) (scopes : List String) : Except Err Principal := do
  let values ← tokenScopes scopes
  match p.tokenScopes with
  | none => .ok { p with tokenScopes := some values }
  | some ceiling => .ok { p with tokenScopes := some (values.filter (ceiling.contains ·)) }

/-! ## Policies -/

section
variable (lower : String → String)

/-- The scope of an action on a model; `lower` is `strings.ToLower`. -/
def Resource.scope (r : Resource) (action : String) : String :=
  r.app ++ "." ++ action ++ "_" ++ lower r.model

/-- The resource and the action have names. -/
def Resource.specified (r : Resource) (action : String) : Bool :=
  r.app != "" && r.model != "" && action != ""

/-- An error under a condition; a sequence of checks stops at the first error. -/
def denyIf (bad : Bool) (name : Named) : Option Err := if bad then some (.named name) else none

@[simp] lemma denyIf_eq_none {bad : Bool} {name : Named} :
    denyIf bad name = none ↔ bad = false := by
  cases bad <;> simp [denyIf]

/-- `CheckTokenScope`. -/
def checkTokenScope (p : Principal) (action : String) (r : Resource) : Option Err :=
  match p.tokenScopes with
  | none => none
  | some ceiling =>
    denyIf (!(r.specified action && ceiling.contains (r.scope lower action))) .permissionDenied

/-- `ModelPolicy`. -/
structure ModelPolicy where
  allowSuperuser : Bool

/-- `ModelPolicy.Authorize`. -/
def ModelPolicy.authorize (m : ModelPolicy) : Policy := fun ctx p action r =>
  ctx.early.or <|
  (denyIf (!p.authenticated) .unauthenticated).or <|
  (denyIf (!p.active) .permissionDenied).or <|
  (checkTokenScope lower p action r).or <|
  denyIf (!((m.allowSuperuser && p.superuser) ||
    (r.specified action && p.permissions.contains (r.scope lower action)))) .permissionDenied

/-- `ConstrainPolicy`, of a policy that may be nil. After the policy the error of the context
comes first. -/
def constrainPolicy (policy : Option Policy) : Policy := fun ctx p action r =>
  ctx.early.or <|
  match policy with
  | none => some (.named .permissionDenied)
  | some policy =>
    (denyIf (p.tokenScopes.isSome && !p.authenticated) .unauthenticated).or <|
    (denyIf (p.tokenScopes.isSome && !p.active) .permissionDenied).or <|
    (checkTokenScope lower p action r).or <|
    ctx.late.or (policy ctx p action r)

end

/-- `WithPrincipal`. -/
def withPrincipal (ctx : Context) (p : Principal) : Context := { ctx with principal := some p }

/-- `FromContext`. -/
def fromContext (ctx : Context) : Principal := ctx.principal.getD .zero

/-! ## Narrowing -/

/-- The ceiling of `q` lies under that of `p`, and is there if that of `p` is. -/
structure Narrows (p q : Principal) : Prop where
  user : p.tokenScopes.isSome → q.id = p.id
  ceiling : ∀ c, p.tokenScopes = some c → ∃ c', q.tokenScopes = some c' ∧ c' ⊆ c

lemma Narrows.refl (p : Principal) : Narrows p p :=
  ⟨fun _ => rfl, fun c hc => ⟨c, hc, List.Subset.refl c⟩⟩

variable {p q : Principal} {scopes : List String}

lemma Narrows.trans {r : Principal} (h : Narrows p q) (h' : Narrows q r) : Narrows p r := by
  refine ⟨?_, ?_⟩
  · intro hsome
    obtain ⟨c, hc⟩ := Option.isSome_iff_exists.mp hsome
    obtain ⟨c', hc', -⟩ := h.ceiling c hc
    exact (h'.user (Option.isSome_iff_exists.mpr ⟨c', hc'⟩)).trans (h.user hsome)
  · intro c hc
    obtain ⟨c', hc', hsub⟩ := h.ceiling c hc
    obtain ⟨c'', hc'', hsub'⟩ := h'.ceiling c' hc'
    exact ⟨c'', hc'', List.Subset.trans hsub' hsub⟩

lemma mem_of_tokenScopes {values : List String} (h : tokenScopes scopes = .ok values) {s : String} :
    s ∈ values ↔ s ∈ scopes := by
  unfold tokenScopes at h
  split_ifs at h
  cases h
  exact mem_sortStrings

/-- What `ConstrainPrincipal` returns: the same account under a ceiling of some of the scopes. -/
lemma constrainPrincipal_ok (h : constrainPrincipal p scopes = .ok q) :
    ∃ c, q = { p with tokenScopes := some c } ∧ (∀ s ∈ c, s ∈ scopes) ∧
      ∀ c', p.tokenScopes = some c' → c ⊆ c' := by
  obtain ⟨values, hvalues, hrest⟩ := bind_eq_ok.mp h
  split at hrest
  · rename_i hnone
    cases hrest
    refine ⟨values, rfl, fun s hs => (mem_of_tokenScopes hvalues).mp hs, ?_⟩
    intro c' hc'
    rw [hnone] at hc'
    cases hc'
  · rename_i ceiling hceiling
    cases hrest
    refine ⟨_, rfl, ?_, ?_⟩
    · intro s hs
      exact (mem_of_tokenScopes hvalues).mp (List.mem_of_mem_filter hs)
    · intro c' hc' s hs
      rw [hceiling, Option.some.injEq] at hc'
      rw [List.mem_filter, List.contains_iff_mem, hc'] at hs
      exact hs.2

lemma narrows_of_constrainPrincipal (h : constrainPrincipal p scopes = .ok q) : Narrows p q := by
  obtain ⟨c, rfl, -, hsub⟩ := constrainPrincipal_ok h
  exact ⟨fun _ => rfl, fun c' hc' => ⟨c, rfl, hsub c' hc'⟩⟩

/-! ## What a smaller ceiling allows -/

section
variable {lower : String → String} {p q : Principal}

/-- Two principals are of the same state of an account, whatever their ceilings. -/
def SameAccount (p q : Principal) : Prop := q = { p with tokenScopes := q.tokenScopes }

variable {ceiling : List String} {action : String} {r : Resource} {ctx : Context}

lemma checkTokenScope_of_narrows (h : Narrows p q) (hp : p.tokenScopes = some ceiling)
    (hq : checkTokenScope lower q action r = none) : checkTokenScope lower p action r = none := by
  obtain ⟨smaller, hsmaller, hsub⟩ := h.ceiling ceiling hp
  simp only [checkTokenScope, hsmaller, hp, denyIf_eq_none, Bool.not_eq_false',
    Bool.and_eq_true, List.contains_iff_mem] at hq ⊢
  exact ⟨hq.1, hsub hq.2⟩

lemma ModelPolicy.authorize_eq_none_iff {m : ModelPolicy} :
    m.authorize lower ctx p action r = none ↔
      ctx.early = none ∧ p.authenticated = true ∧ p.active = true ∧
        checkTokenScope lower p action r = none ∧
        ((m.allowSuperuser && p.superuser) ||
          (r.specified action && p.permissions.contains (r.scope lower action))) = true := by
  simp only [ModelPolicy.authorize, Option.or_eq_none_iff, denyIf_eq_none, Bool.not_eq_false']

/-- **`ModelPolicy` allows nothing under a smaller ceiling that it refuses under a larger one.** -/
theorem ModelPolicy.authorize_of_narrows (m : ModelPolicy) (h : Narrows p q)
    (hp : p.tokenScopes = some ceiling) (hsame : SameAccount p q)
    (hq : m.authorize lower ctx q action r = none) : m.authorize lower ctx p action r = none := by
  rw [ModelPolicy.authorize_eq_none_iff] at hq ⊢
  obtain ⟨hctx, hauthenticated, hactive, hscope, hgranted⟩ := hq
  have hscope := checkTokenScope_of_narrows h hp hscope
  rw [hsame] at hauthenticated hactive hgranted
  exact ⟨hctx, hauthenticated, hactive, hscope, hgranted⟩

/-- A policy gives no more to a smaller ceiling than to a larger one. -/
def Policy.Monotone (policy : Policy) : Prop :=
  ∀ (p : Principal) (smaller larger : List String), smaller ⊆ larger →
    ∀ ctx action r, policy ctx { p with tokenScopes := some smaller } action r = none →
      policy ctx { p with tokenScopes := some larger } action r = none

lemma constrainPolicy_eq_none_iff (hp : p.tokenScopes = some ceiling) {policy : Option Policy} :
    constrainPolicy lower policy ctx p action r = none ↔
      ctx.early = none ∧ ctx.late = none ∧ p.authenticated = true ∧ p.active = true ∧
        checkTokenScope lower p action r = none ∧
        ∃ f, policy = some f ∧ f ctx p action r = none := by
  cases policy with
  | none => simp [constrainPolicy]
  | some f =>
    simp only [constrainPolicy, Option.or_eq_none_iff, denyIf_eq_none, hp, Option.isSome_some,
      Bool.true_and, Bool.not_eq_false', Option.some.injEq, exists_eq_left']
    tauto

/-- **`ConstrainPolicy` of a policy that does not give more to a smaller ceiling does not do so
either.** -/
theorem constrainPolicy_of_narrows {policy : Policy} (hpolicy : policy.Monotone) (h : Narrows p q)
    (hp : p.tokenScopes = some ceiling) (hsame : SameAccount p q)
    (hq : constrainPolicy lower (some policy) ctx q action r = none) :
    constrainPolicy lower (some policy) ctx p action r = none := by
  obtain ⟨smaller, hsmaller, hsub⟩ := h.ceiling ceiling hp
  rw [constrainPolicy_eq_none_iff hsmaller] at hq
  obtain ⟨hearly, hlate, hauthenticated, hactive, hscope, f, hf, hallowed⟩ := hq
  have hscope := checkTokenScope_of_narrows h hp hscope
  cases hf
  rw [hsame] at hauthenticated hactive
  have hlarger : policy ctx { p with tokenScopes := some ceiling } action r = none := by
    apply hpolicy p smaller ceiling hsub
    rwa [hsame, hsmaller] at hallowed
  rw [constrainPolicy_eq_none_iff hp]
  rw [← hp] at hlarger
  exact ⟨hearly, hlate, hauthenticated, hactive, hscope, policy, rfl, hlarger⟩

end

end Gogo.Auth

import Gogo.Lib.Run

/-!
# Template inheritance

`extends` collects the blocks of a child template and renders its parent with them as overrides.

* `Node`, `Interp` — node trees, and what the tags without blocks do.
* `render`, `renderTemplate` — the renderer: overrides are the first top-level blocks of the
  children, they are not passed into the body of a block, and `block.super` is the body of the
  block that was replaced.
* `django` — the inheritance of Django: every block is looked up in the whole chain, and
  `block.super` goes on from the template that gave the body.
* `Reached`, `Agrees` — the bodies that are rendered, and that each is the one of Django: every block
  with the first definition of the chain, and `block.super` with the next one.
* `Fits` — a condition on the templates alone. `resolves_as_django_iff` — **the bodies are those of
  Django under every evaluation of the other tags exactly when the chain fits; and where they are,
  both render the same.**
-/

namespace Gogo.Templates

open Gogo.Lib

/-! ## Nodes -/

/-- Source: `node`, by what the renderer does with it: text, values, blocks with the words of
their argument, tags that choose between two bodies (`if`, `for`), tags around one body (`with`,
`autoescape`, `filter`, `spaceless`, time zones, inline partials), `extends`, and other tags. -/
inductive Node
  | text (s : String)
  | value (arg : String)
  | block (names : List String) (children : List Node)
  | control (arg : String) (children alternate : List Node)
  | wrap (arg : String) (children : List Node)
  | tag (arg : String)
  | extend (arg : String)

/-- What evaluation does with a context `D` and outputs of `α`: the output of texts, values and
tags; the rounds of a control tag, each with the body it takes and its context; the context and
the output of a tag around a body; the parent of an `extends`; and the loader. -/
structure Interp (D α : Type) where
  text : String → List α
  emit : String → D → Option (List α)
  plan : String → D → Option (List (Bool × D))
  enter : String → D → Option D
  post : String → D → List α → Option (List α)
  parent : String → D → Option String
  load : String → Option (List Node)

variable {D α : Type} (I : Interp D α)

/-- One node, with what is done with bodies, with `block.super` and with blocks. -/
def expand (body : D → List Node → Option (List α)) (onSuper : D → Option (List α))
    (onBlock : D → List String → List Node → Option (List α)) (d : D) :
    Node → Option (List α)
  | .text s => some (I.text s)
  | .value arg => if arg = "block.super" then onSuper d else I.emit arg d
  | .block names children => onBlock d names children
  | .control arg children alternate => do
    let rounds ← I.plan arg d
    let outs ← rounds.mapM fun round => body round.2 (if round.1 then children else alternate)
    pure outs.flatten
  | .wrap arg children => do
    let inner ← I.enter arg d
    let out ← body inner children
    I.post arg d out
  | .tag arg => I.emit arg d
  | .extend _ => none

/-- The nodes one after the other. -/
def expandAll (node : Node → Option (List α)) (nodes : List Node) : Option (List α) :=
  (nodes.mapM node).map List.flatten

/-! ## The renderer -/

/-- Source: the map `overrides`. -/
abbrev Overrides := String → Option (List Node)

/-- Source: `render`. The fuel is what is left of `MaxDepth`; `super` is `__block_super`. -/
def render : ℕ → Overrides → D → Option (List Node) → List Node → Option (List α)
  | 0, _, _, _, _ => none
  | fuel + 1, overrides, d, super, nodes =>
    expandAll (expand I
      (fun inner children => render fuel overrides inner super children)
      (fun d =>
        match super with
        | some body => render fuel (fun _ => none) d super body
        | none => I.emit "block.super" d)
      (fun d names children =>
        match names with
        | [name] =>
          match overrides name with
          | some replacement => render fuel (fun _ => none) d (some children) replacement
          | none => render fuel (fun _ => none) d super children
        | _ => none) d) nodes

/-- The argument of the first `extends`. -/
def extension : List Node → Option String
  | [] => none
  | .extend arg :: _ => some arg
  | _ :: nodes => extension nodes

/-- The body of the first top-level block with a name. -/
def topBlock (name : String) : List Node → Option (List Node)
  | [] => none
  | .block names children :: nodes => if names = [name] then some children else topBlock name nodes
  | _ :: nodes => topBlock name nodes

/-- Every top-level block has one name. -/
def wellNamed : List Node → Bool
  | [] => true
  | .block names _ :: nodes => names.length = 1 && wellNamed nodes
  | _ :: nodes => wellNamed nodes

/-- Source: `renderTemplate`. -/
def renderTemplate : ℕ → Overrides → D → List Node → Option (List α)
  | 0, _, _, _ => none
  | fuel + 1, overrides, d, nodes =>
    match extension nodes with
    | none => render I (fuel + 1) overrides d none nodes
    | some arg =>
      if wellNamed nodes then do
        let name ← I.parent arg d
        let base ← I.load name
        renderTemplate fuel (fun b => (overrides b).or (topBlock b nodes)) d base
      else none

/-! ## Inheritance as in Django -/

mutual

/-- The body that a node gives a block, at any depth. -/
def Node.defines (b : String) : Node → Option (List Node)
  | .block names children => if names = [b] then some children else defines b children
  | .control _ children alternate => (defines b children).or (defines b alternate)
  | .wrap _ children => defines b children
  | _ => none

/-- The body that a template gives a block, at any depth. -/
def defines (b : String) : List Node → Option (List Node)
  | [] => none
  | node :: nodes => (node.defines b).or (defines b nodes)

end

/-- The body from the first template of a chain that defines a block, and the templates after
it. -/
def resolve (b : String) : List (List Node) → Option (List Node × List (List Node))
  | [] => none
  | template :: chain =>
    match defines b template with
    | some body => some (body, chain)
    | none => resolve b chain

/-- Rendering with a chain of templates: every block is looked up in the whole chain; the block
that is rendered and the templates after the one that gave its body are kept for `block.super`. -/
def django : ℕ → List (List Node) → D → Option (String × List (List Node)) → List Node →
    Option (List α)
  | 0, _, _, _, _ => none
  | fuel + 1, chain, d, current, nodes =>
    expandAll (expand I
      (fun inner children => django fuel chain inner current children)
      (fun d =>
        match current with
        | some (b, after) =>
          match resolve b after with
          | some (body, after) => django fuel chain d (some (b, after)) body
          | none => I.emit "block.super" d
        | none => I.emit "block.super" d)
      (fun d names _ =>
        match names with
        | [b] =>
          match resolve b chain with
          | some (body, after) => django fuel chain d (some (b, after)) body
          | none => none
        | _ => none) d) nodes

/-- A chain of templates: each extends the next, and the last extends none. -/
inductive Chain (d : D) : List (List Node) → Prop
  | base {template} (h : extension template = none) : Chain d [template]
  | child {template parent chain arg name} (h : extension template = some arg)
      (hnamed : wellNamed template = true) (hname : I.parent arg d = some name)
      (hload : I.load name = some parent) (hchain : Chain d (parent :: chain)) :
      Chain d (template :: parent :: chain)

/-- The overrides that the children of a chain collect: the first top-level block of a name. -/
def collected (children : List (List Node)) : Overrides :=
  fun b => children.findSome? (topBlock b)

/-! ## The bodies that are rendered -/

/-- Where the renderer is: the overrides and `__block_super`, and what `django` keeps for
`block.super`. -/
structure Place where
  overrides : Overrides
  super : Option (List Node)
  current : Option (String × List (List Node))

/-- The body that Django renders for `block.super`. -/
def Place.next (place : Place) : Option (List Node) :=
  place.current.bind fun current => (resolve current.1 current.2).map Prod.fst

/-- The body that the renderer takes for a block. -/
def Place.body (place : Place) (b : String) (children : List Node) : List Node :=
  (place.overrides b).getD children

/-- Where the renderer is in that body. -/
def Place.enter (place : Place) (b : String) (children : List Node) (after : List (List Node)) :
    Place where
  overrides _ := none
  super := if (place.overrides b).isSome then some children else place.super
  current := some (b, after)

/-- The node lists that are rendered from a base template, each with its context and place, as far
as the bodies are those of Django. -/
inductive Reached (chain : List (List Node)) (overrides : Overrides) (d : D) (base : List Node) :
    D → Place → List Node → Prop
  | base : Reached chain overrides d base d ⟨overrides, none, none⟩ base
  | control {e : D} {place : Place} {nodes children alternate : List Node} {arg : String}
      {rounds : List (Bool × D)} {round : Bool × D}
      (h : Reached chain overrides d base e place nodes)
      (hnode : .control arg children alternate ∈ nodes) (hplan : I.plan arg e = some rounds)
      (hround : round ∈ rounds) :
      Reached chain overrides d base round.2 place (if round.1 then children else alternate)
  | wrap {e inner : D} {place : Place} {nodes children : List Node} {arg : String}
      (h : Reached chain overrides d base e place nodes) (hnode : .wrap arg children ∈ nodes)
      (henter : I.enter arg e = some inner) :
      Reached chain overrides d base inner place children
  | block {e : D} {place : Place} {nodes children : List Node} {b : String}
      {after : List (List Node)} (h : Reached chain overrides d base e place nodes)
      (hnode : .block [b] children ∈ nodes)
      (hfirst : resolve b chain = some (place.body b children, after)) :
      Reached chain overrides d base e (place.enter b children after) (place.body b children)
  | super {e : D} {place : Place} {nodes body : List Node} {b : String}
      {after later : List (List Node)} (h : Reached chain overrides d base e place nodes)
      (hnode : .value "block.super" ∈ nodes) (hsuper : place.super = some body)
      (hcurrent : place.current = some (b, after)) (hnext : resolve b after = some (body, later)) :
      Reached chain overrides d base e ⟨fun _ => none, some body, some (b, later)⟩ body

/-- **Blocks are resolved as in Django**: every block that is reached is rendered with the body of
the first template that defines it, and every `block.super` with the body of the next one. -/
def Agrees (chain : List (List Node)) (overrides : Overrides) (d : D) (base : List Node) : Prop :=
  ∀ e place nodes, Reached I chain overrides d base e place nodes →
    (∀ b children, .block [b] children ∈ nodes →
      (resolve b chain).map Prod.fst = some (place.body b children)) ∧
    (.value "block.super" ∈ nodes → place.super = place.next)

/-! ## A condition on the templates -/

mutual

/-- No `block.super` at any depth; a block without a name of its own is not rendered. -/
def Node.NoSuper : Node → Prop
  | .value arg => arg ≠ "block.super"
  | .block names children => ∀ b, names = [b] → NoSuper children
  | .control _ children alternate => NoSuper children ∧ NoSuper alternate
  | .wrap _ children => NoSuper children
  | _ => True

def NoSuper : List Node → Prop
  | [] => True
  | node :: nodes => node.NoSuper ∧ NoSuper nodes

end

mutual

/-- Within a body that is rendered: the blocks have no earlier definition in the chain, and
`block.super` is the next definition of the innermost block. -/
def Node.Within (chain : List (List Node)) (super : Option (List Node)) :
    Option (String × List (List Node)) → Node → Prop
  | current, .value arg => arg = "block.super" → super = (Place.mk (fun _ => none) super current).next
  | _, .block names children => ∀ b, names = [b] → ∃ after,
      resolve b chain = some (children, after) ∧ Within chain super (some (b, after)) children
  | current, .control _ children alternate =>
    Within chain super current children ∧ Within chain super current alternate
  | current, .wrap _ children => Within chain super current children
  | _, _ => True

def Within (chain : List (List Node)) (super : Option (List Node)) :
    Option (String × List (List Node)) → List Node → Prop
  | _, [] => True
  | current, node :: nodes => node.Within chain super current ∧ Within chain super current nodes

end

/-- A block of the base template: the body that the renderer takes is the first definition of the
chain; and if it overrides one and uses `block.super`, then that one does not use it. -/
structure BlockFits (chain : List (List Node)) (overrides : Overrides) (b : String)
    (children : List Node) : Prop where
  body : ∃ after, resolve b chain = some ((overrides b).getD children, after) ∧
    Within chain (if (overrides b).isSome then some children else none) (some (b, after))
      ((overrides b).getD children)
  replaced : (overrides b).isSome → ¬ NoSuper ((overrides b).getD children) →
    Within chain (some children) none children

mutual

/-- The blocks of the base template, at any depth outside other blocks, fit the chain. -/
def Node.Fits (chain : List (List Node)) (overrides : Overrides) : Node → Prop
  | .block names children => ∀ b, names = [b] → BlockFits chain overrides b children
  | .control _ children alternate =>
    Fits chain overrides children ∧ Fits chain overrides alternate
  | .wrap _ children => Fits chain overrides children
  | _ => True

def Fits (chain : List (List Node)) (overrides : Overrides) : List Node → Prop
  | [] => True
  | node :: nodes => node.Fits chain overrides ∧ Fits chain overrides nodes

end

/-! ## Rendering node by node -/

variable {I}

variable {nodes : List Node} {d : D} {node : Node} {chain : List (List Node)}
  {overrides : Overrides} {b : String}

lemma mapM_congr_of_mem {β γ : Type} {l : List β} {f g : β → Option γ} (h : ∀ x ∈ l, f x = g x) :
    l.mapM f = l.mapM g := by
  induction l with
  | nil => rfl
  | cons x l ih =>
    rw [List.forall_mem_cons] at h
    rw [List.mapM_cons, List.mapM_cons, h.1, ih h.2]

/-- Two ways of rendering agree on a node when they agree on the bodies that are rendered, on
`block.super` and on blocks. -/
lemma expand_congr {body body' : D → List Node → Option (List α)}
    {onSuper onSuper' : D → Option (List α)}
    {onBlock onBlock' : D → List String → List Node → Option (List α)}
    (hcontrol : ∀ arg children alternate, node = .control arg children alternate → ∀ rounds,
      I.plan arg d = some rounds → ∀ round ∈ rounds,
        body round.2 (if round.1 then children else alternate) =
          body' round.2 (if round.1 then children else alternate))
    (hwrap : ∀ arg children, node = .wrap arg children → ∀ inner, I.enter arg d = some inner →
      body inner children = body' inner children)
    (hsuper : node = .value "block.super" → onSuper d = onSuper' d)
    (hblock : ∀ names children, node = .block names children → onBlock d names children = onBlock' d
      names children) :
    expand I body onSuper onBlock d node = expand I body' onSuper' onBlock' d node := by
  cases node with
  | text s => rfl
  | tag arg => rfl
  | extend arg => rfl
  | value arg =>
    simp only [expand]
    split_ifs with harg
    · exact hsuper (by rw [harg])
    · rfl
  | block names children => exact hblock names children rfl
  | control arg children alternate =>
    simp only [expand]
    cases hplan : I.plan arg d with
    | none => rfl
    | some rounds =>
      simp only [Option.bind_eq_bind, Option.bind_some]
      rw [mapM_congr_of_mem (hcontrol arg children alternate rfl rounds hplan)]
  | wrap arg children =>
    simp only [expand]
    cases henter : I.enter arg d with
    | none => rfl
    | some inner =>
      simp only [Option.bind_eq_bind, Option.bind_some]
      rw [hwrap arg children rfl inner henter]

/-- The body of a block that is reached, and what is left of the chain behind it. -/
lemma Agrees.resolve_eq {base : List Node} (h : Agrees I chain overrides d base) {e : D}
    {place : Place} (hreached : Reached I chain overrides d base e place nodes)
    {children : List Node} (hnode : .block [b] children ∈ nodes) :
    ∃ after, resolve b chain = some (place.body b children, after) := by
  obtain ⟨⟨body, after⟩, hresolve, hbody⟩ :=
    Option.map_eq_some_iff.mp ((h e place nodes hreached).1 b children hnode)
  exact ⟨after, hbody ▸ hresolve⟩

/-- **Where the bodies are those of Django, both render the same.** -/
lemma render_eq_of_agrees {base : List Node} (h : Agrees I chain overrides d base) (fuel : ℕ) {e : D}
    {place : Place} (hreached : Reached I chain overrides d base e place nodes) :
    render I fuel place.overrides e place.super nodes = django I fuel chain e place.current nodes := by
  induction fuel generalizing e place nodes with
  | zero => rfl
  | succ fuel ih =>
    rw [render, django, expandAll, expandAll]
    congr 1
    refine mapM_congr_of_mem fun node hnode => expand_congr ?_ ?_ ?_ ?_
    · rintro arg children alternate rfl rounds hplan round hround
      exact ih (hreached.control hnode hplan hround)
    · rintro arg children rfl inner henter
      exact ih (hreached.wrap hnode henter)
    · rintro rfl
      have hnext := (h e place nodes hreached).2 hnode
      rcases hcurrent : place.current with _ | ⟨b, after⟩
      · rw [Place.next, hcurrent] at hnext
        rw [hnext]
        rfl
      · rw [Place.next, hcurrent, Option.bind_some] at hnext
        cases hresolve : resolve b after with
        | none =>
          rw [hnext, hresolve]
          simp only [Option.map_none, hresolve]
        | some found =>
          obtain ⟨body, later⟩ := found
          rw [hresolve, Option.map_some] at hnext
          rw [hnext]
          simp only [hresolve]
          exact ih (hreached.super hnode hnext hcurrent hresolve)
    · rintro names children rfl
      match names, hnode with
      | [], _ => rfl
      | _ :: _ :: _, _ => rfl
      | [b], hnode =>
        obtain ⟨after, hresolve⟩ := h.resolve_eq hreached hnode
        have hnext := ih (hreached.block hnode hresolve)
        simp only [hresolve]
        refine Eq.trans ?_ hnext
        simp only [Place.enter, Place.body]
        cases place.overrides b <;> rfl

/-! ## Chains -/

/-- The children of a chain are read one after the other, and the base is rendered with what they
collect. -/
lemma renderTemplate_chain (I : Interp D α) (hchain : Chain I d chain) {children : List (List Node)}
    {base : List Node} (heq : chain = children ++ [base]) (fuel : ℕ) (overrides : Overrides)
    {first : List Node} (hfirst : chain.head? = some first) :
    renderTemplate I (fuel + children.length + 1) overrides d first =
      render I (fuel + 1) (fun b => (overrides b).or (collected children b)) d none base := by
  induction hchain generalizing children overrides first with
  | @base template h =>
    obtain ⟨rfl, rfl⟩ : children = [] ∧ template = base := by
      cases children with
      | nil => simpa using heq
      | cons c children => simp at heq
    obtain rfl : template = first := Option.some.inj hfirst
    have hnone : (fun b => (overrides b).or (collected [] b)) = overrides := by
      funext b
      simp [collected]
    rw [hnone]
    simp only [renderTemplate, h, List.length_nil, Nat.add_zero]
  | @child template parent chain arg name h hnamed hname hload _ ih =>
    obtain rfl : template = first := Option.some.inj hfirst
    cases children with
    | nil => simp at heq
    | cons c children =>
      obtain ⟨rfl, htail⟩ : template = c ∧ parent :: chain = children ++ [base] := by
        simpa using heq
      have hnext := ih htail (fun b => (overrides b).or (topBlock b template)) rfl
      have hmerge : (fun b => ((overrides b).or (topBlock b template)).or
          (collected children b)) =
          fun b => (overrides b).or (collected (template :: children) b) := by
        funext b
        rw [Option.or_assoc]
        congr 1
        simp only [collected, List.findSome?_cons]
        cases topBlock b template <;> rfl
      rw [hmerge] at hnext
      rw [← hnext, List.length_cons, ← Nat.add_assoc]
      simp only [renderTemplate, h, hnamed, if_true, hname, hload, Option.bind_eq_bind,
        Option.bind_some]

/-! ## Conditions and the bodies that are rendered -/

/-- Induction over node lists: the bodies within the nodes come first. -/
theorem nodes_induction {P : List Node → Prop}
    (h : ∀ nodes, (∀ arg children alternate, .control arg children alternate ∈ nodes →
        P children ∧ P alternate) → (∀ arg children, .wrap arg children ∈ nodes → P children) →
      (∀ names children, .block names children ∈ nodes → P children) → P nodes)
    (nodes : List Node) : P nodes := by
  induction hn : sizeOf nodes using Nat.strong_induction_on generalizing nodes with
  | _ n ih =>
    have hsize : ∀ node ∈ nodes, sizeOf node < n := fun node hnode =>
      hn ▸ List.sizeOf_lt_of_mem hnode
    refine h nodes ?_ ?_ ?_
    · intro arg children alternate hnode
      have hlt := hsize _ hnode
      simp only [Node.control.sizeOf_spec] at hlt
      exact ⟨ih _ (by omega) children rfl, ih _ (by omega) alternate rfl⟩
    · intro arg children hnode
      have hlt := hsize _ hnode
      simp only [Node.wrap.sizeOf_spec] at hlt
      exact ih _ (by omega) children rfl
    · intro names children hnode
      have hlt := hsize _ hnode
      simp only [Node.block.sizeOf_spec] at hlt
      exact ih _ (by omega) children rfl

/-- What a list says of its nodes one after the other, it says of each of them. -/
lemma forall_nodes {P : List Node → Prop} {q : Node → Prop} (hnil : P [])
    (hcons : ∀ n nodes, P (n :: nodes) ↔ q n ∧ P nodes) (nodes : List Node) :
    P nodes ↔ ∀ node ∈ nodes, q node := by
  induction nodes with
  | nil => simp [hnil]
  | cons n nodes ih => rw [hcons, ih, List.forall_mem_cons]

lemma noSuper_iff : NoSuper nodes ↔ ∀ node ∈ nodes, node.NoSuper :=
  forall_nodes (P := NoSuper) trivial (fun _ _ => Iff.rfl) nodes

lemma within_iff {super : Option (List Node)} {current : Option (String × List (List Node))} :
    Within chain super current nodes ↔ ∀ node ∈ nodes, node.Within chain super current :=
  forall_nodes (P := Within chain super current) trivial (fun _ _ => Iff.rfl) nodes

lemma fits_iff : Fits chain overrides nodes ↔ ∀ node ∈ nodes, node.Fits chain overrides :=
  forall_nodes (P := Fits chain overrides) trivial (fun _ _ => Iff.rfl) nodes

/-- In a body without `block.super` outside its blocks, what Django keeps for it does not matter. -/
lemma Within.of_none {super : List Node} (h : Within chain (some super) none nodes)
    (current : Option (String × List (List Node))) : Within chain (some super) current nodes := by
  induction nodes using nodes_induction with
  | h nodes ihcontrol ihwrap _ =>
    rw [within_iff] at h ⊢
    intro node hnode
    have hn := h node hnode
    cases node with
    | value arg => exact fun harg => absurd (hn harg) (by simp [Place.next])
    | control arg children alternate =>
      exact ⟨(ihcontrol _ _ _ hnode).1 hn.1, (ihcontrol _ _ _ hnode).2 hn.2⟩
    | wrap arg children => exact ihwrap _ _ hnode hn
    | block names children => exact hn
    | text | tag | extend => trivial

section Enough

variable {base : List Node}

/-- What a condition on the templates says of a list that is rendered. -/
def Place.Held (chain : List (List Node)) (overrides : Overrides) (place : Place)
    (nodes : List Node) : Prop :=
  place = ⟨overrides, none, none⟩ ∧ Fits chain overrides nodes ∨
    place.overrides = (fun _ => none) ∧ Within chain place.super place.current nodes ∧
      ∀ super, place.super = some super → ¬ NoSuper nodes → Within chain (some super) none super

/-- The condition is passed on to bodies that are rendered where the list is. -/
lemma Place.Held.children {place : Place} {children : List Node}
    (h : place.Held chain overrides nodes)
    (hfits : Fits chain overrides nodes → Fits chain overrides children)
    (hwithin : Within chain place.super place.current nodes →
      Within chain place.super place.current children)
    (hsuper : NoSuper nodes → NoSuper children) : place.Held chain overrides children := by
  refine h.imp (fun h => ⟨h.1, hfits h.2⟩) fun ⟨hnone, hin, hlater⟩ => ⟨hnone, hwithin hin, ?_⟩
  exact fun super heq hno => hlater super heq fun hyes => hno (hsuper hyes)

/-- Step by step, the condition holds of everything that is rendered. -/
lemma held_of_reached (hfits : Fits chain overrides base) {e : D} {place : Place}
    (h : Reached I chain overrides d base e place nodes) : place.Held chain overrides nodes := by
  induction h with
  | base => exact .inl ⟨rfl, hfits⟩
  | @control e place nodes children alternate arg rounds round _ hnode hplan hround ih =>
    cases hround : round.1
    · exact ih.children (fun h => (fits_iff.mp h _ hnode).2) (fun h => (within_iff.mp h _ hnode).2)
        fun h => (noSuper_iff.mp h _ hnode).2
    · exact ih.children (fun h => (fits_iff.mp h _ hnode).1) (fun h => (within_iff.mp h _ hnode).1)
        fun h => (noSuper_iff.mp h _ hnode).1
  | wrap _ hnode _ ih =>
    exact ih.children (fun h => fits_iff.mp h _ hnode) (fun h => within_iff.mp h _ hnode)
      fun h => noSuper_iff.mp h _ hnode
  | @block e place nodes children b after _ hnode hfirst ih =>
    rcases ih with ⟨rfl, hfits⟩ | ⟨hnone, hwithin, hlater⟩
    · have hblock := fits_iff.mp hfits _ hnode b rfl
      obtain ⟨after', hresolve, hin⟩ := hblock.body
      obtain ⟨-, rfl⟩ := Prod.mk.inj (Option.some.inj (hfirst.symm.trans hresolve))
      refine .inr ⟨rfl, hin, fun super hsuper hno => ?_⟩
      simp only [Place.enter] at hsuper
      split_ifs at hsuper with hsome
      cases hsuper
      exact hblock.replaced hsome hno
    · obtain ⟨after', hresolve, hin⟩ := within_iff.mp hwithin _ hnode b rfl
      have hbody : place.body b children = children := by simp [Place.body, hnone]
      have hsame : (place.enter b children after).super = place.super := by
        simp [Place.enter, hnone]
      rw [hbody] at hfirst ⊢
      obtain ⟨-, rfl⟩ := Prod.mk.inj (Option.some.inj (hfirst.symm.trans hresolve))
      refine .inr ⟨rfl, hsame ▸ hin, fun super hsuper hno => ?_⟩
      rw [hsame] at hsuper
      exact hlater super hsuper fun hyes => hno (noSuper_iff.mp hyes _ hnode b rfl)
  | @super e place nodes body b after later _ hnode hsuper _ _ ih =>
    rcases ih with ⟨rfl, -⟩ | ⟨-, -, hlater⟩
    · cases hsuper
    · have hbody := hlater body hsuper fun hyes => noSuper_iff.mp hyes _ hnode rfl
      refine .inr ⟨rfl, hbody.of_none _, ?_⟩
      rintro _ hsome -
      cases hsome
      exact hbody

/-- **A chain that fits is resolved as in Django.** -/
lemma agrees_of_fits (hfits : Fits chain overrides base) (I : Interp D α) (d : D) :
    Agrees I chain overrides d base := by
  intro e place nodes h
  rcases held_of_reached hfits h with ⟨rfl, hnodes⟩ | ⟨hnone, hwithin, -⟩
  · refine ⟨fun b children hnode => ?_, fun _ => rfl⟩
    obtain ⟨after, hresolve, -⟩ := (fits_iff.mp hnodes _ hnode b rfl).body
    rw [hresolve]
    rfl
  · refine ⟨fun b children hnode => ?_, fun hnode => within_iff.mp hwithin _ hnode rfl⟩
    obtain ⟨after, hresolve, -⟩ := within_iff.mp hwithin _ hnode b rfl
    rw [hresolve, Place.body, hnone]
    rfl

end Enough

/-- The evaluation under which every body of every tag is rendered. -/
def everything : Interp Unit Unit where
  text _ := []
  emit _ _ := some []
  plan _ _ := some [(true, ()), (false, ())]
  enter _ _ := some ()
  post _ _ out := some out
  parent _ _ := none
  load _ := none

lemma length_lt_of_resolve {body : List Node} {later : List (List Node)}
    (h : resolve b chain = some (body, later)) : later.length < chain.length := by
  induction chain with
  | nil => cases h
  | cons template chain ih =>
    rw [resolve] at h
    split at h
    · obtain ⟨-, rfl⟩ := Prod.mk.inj (Option.some.inj h)
      simp
    · exact (ih h).trans (by simp)

/-- The node lists that are rendered from a base template under that evaluation. -/
abbrev Rendered (chain : List (List Node)) (overrides : Overrides) (base : List Node) :
    Place → List Node → Prop := Reached everything chain overrides () base ()

/-- Both bodies of a control tag are rendered. -/
lemma reached_control {base : List Node} {place : Place} {children alternate : List Node}
    {arg : String} (hreached : Rendered chain overrides base place nodes)
    (hnode : .control arg children alternate ∈ nodes) :
    Rendered chain overrides base place children ∧
      Rendered chain overrides base place alternate := by
  have hrounds : ∀ round ∈ [(true, ()), (false, ())],
      Rendered chain overrides base place (if round.1 then children else alternate) :=
    fun round hround => hreached.control hnode rfl hround
  exact ⟨hrounds (true, ()) (by simp), hrounds (false, ()) (by simp)⟩

section Needed

variable {base : List Node} (h : Agrees everything chain overrides () base)
  {current : Option (String × List (List Node))}

include h

/-- Whatever is rendered inside a block stands within the chain. -/
lemma within_of_reached {super : Option (List Node)}
    (hreached : Rendered chain overrides base ⟨fun _ => none, super, current⟩ nodes) :
    Within chain super current nodes := by
  induction nodes using nodes_induction generalizing current with
  | h nodes ihcontrol ihwrap ihblock =>
    rw [within_iff]
    intro node hnode
    cases node with
    | value arg =>
      rintro rfl
      exact (h _ _ _ hreached).2 hnode
    | control arg children alternate =>
      obtain ⟨hthen, helse⟩ := reached_control hreached hnode
      exact ⟨(ihcontrol _ _ _ hnode).1 hthen, (ihcontrol _ _ _ hnode).2 helse⟩
    | wrap arg children => exact ihwrap _ _ hnode (hreached.wrap hnode rfl)
    | block names children =>
      rintro b rfl
      obtain ⟨after, hresolve⟩ := h.resolve_eq hreached hnode
      exact ⟨after, hresolve, ihblock _ _ hnode (hreached.block hnode hresolve)⟩
    | text | tag | extend => trivial

/-- A body with `block.super` in it renders the replaced one. -/
lemma noSuper_of_not_reached {super : List Node}
    (hnot : ∀ current, ¬ Rendered chain overrides base ⟨fun _ => none, some super, current⟩ super)
    (hreached : Rendered chain overrides base ⟨fun _ => none, some super, current⟩ nodes) :
    NoSuper nodes := by
  induction nodes using nodes_induction generalizing current with
  | h nodes ihcontrol ihwrap ihblock =>
    rw [noSuper_iff]
    intro node hnode
    cases node with
    | value arg =>
      rintro rfl
      have hnext := (h _ _ _ hreached).2 hnode
      rcases current with _ | ⟨b, after⟩
      · cases hnext
      · obtain ⟨⟨_, later⟩, hresolve, rfl⟩ := Option.map_eq_some_iff.mp hnext.symm
        exact hnot _ (hreached.super hnode rfl rfl hresolve)
    | control arg children alternate =>
      obtain ⟨hthen, helse⟩ := reached_control hreached hnode
      exact ⟨(ihcontrol _ _ _ hnode).1 hthen, (ihcontrol _ _ _ hnode).2 helse⟩
    | wrap arg children => exact ihwrap _ _ hnode (hreached.wrap hnode rfl)
    | block names children =>
      rintro b rfl
      obtain ⟨after, hresolve⟩ := h.resolve_eq hreached hnode
      exact ihblock _ _ hnode (hreached.block hnode hresolve)
    | text | tag | extend => trivial

/-- If `block.super` is not reached outside the blocks of a body, it does not stand there. -/
lemma within_none_of_reached {super : List Node}
    (hnot : ∀ nodes, Rendered chain overrides base ⟨fun _ => none, some super, current⟩ nodes →
      .value "block.super" ∉ nodes)
    (hreached : Rendered chain overrides base ⟨fun _ => none, some super, current⟩ nodes) :
    Within chain (some super) none nodes := by
  induction nodes using nodes_induction with
  | h nodes ihcontrol ihwrap _ =>
    have hwithin := within_iff.mp (within_of_reached h hreached)
    rw [within_iff]
    intro node hnode
    cases node with
    | value arg =>
      rintro rfl
      exact absurd hnode (hnot nodes hreached)
    | control arg children alternate =>
      obtain ⟨hthen, helse⟩ := reached_control hreached hnode
      exact ⟨(ihcontrol _ _ _ hnode).1 hthen, (ihcontrol _ _ _ hnode).2 helse⟩
    | wrap arg children => exact ihwrap _ _ hnode (hreached.wrap hnode rfl)
    | block names children => exact hwithin _ hnode
    | text | tag | extend => trivial

/-- The replaced body, if it is rendered, does not use `block.super` itself: the renderer would go
on with the same body, and the chain comes to an end. -/
lemma within_replaced {super : List Node}
    (hreached : Rendered chain overrides base ⟨fun _ => none, some super, current⟩ super) :
    Within chain (some super) none super := by
  -- on the number of templates that are left for `block.super`
  induction hn : (current.elim 0 fun current => current.2.length) using Nat.strong_induction_on
    generalizing current with
  | _ n ih =>
    by_cases hnot : ∀ nodes, Rendered chain overrides base ⟨fun _ => none, some super, current⟩
        nodes → .value "block.super" ∉ nodes
    · exact within_none_of_reached h hnot hreached
    · push Not at hnot
      obtain ⟨nodes, hnodes, hnode⟩ := hnot
      have hnext := (h _ _ _ hnodes).2 hnode
      rcases current with _ | ⟨b, after⟩
      · cases hnext
      · obtain ⟨⟨_, later⟩, hresolve, rfl⟩ := Option.map_eq_some_iff.mp hnext.symm
        exact ih _ (hn ▸ length_lt_of_resolve hresolve)
          (hnodes.super hnode rfl rfl hresolve) rfl

/-- **A chain that is resolved as in Django under every evaluation fits.** -/
lemma fits_of_reached
    (hreached : Rendered chain overrides base ⟨overrides, none, none⟩ nodes) :
    Fits chain overrides nodes := by
  induction nodes using nodes_induction with
  | h nodes ihcontrol ihwrap _ =>
    rw [fits_iff]
    intro node hnode
    cases node with
    | control arg children alternate =>
      obtain ⟨hthen, helse⟩ := reached_control hreached hnode
      exact ⟨(ihcontrol _ _ _ hnode).1 hthen, (ihcontrol _ _ _ hnode).2 helse⟩
    | wrap arg children => exact ihwrap _ _ hnode (hreached.wrap hnode rfl)
    | block names children =>
      rintro b rfl
      obtain ⟨after, hresolve⟩ := h.resolve_eq hreached hnode
      have hin := hreached.block hnode hresolve
      refine ⟨⟨after, hresolve, within_of_reached h hin⟩, fun hsome hsuper => ?_⟩
      have hplace : Place.enter ⟨overrides, none, none⟩ b children after =
          ⟨fun _ => none, some children, some (b, after)⟩ := by
        simp [Place.enter, hsome]
      rw [hplace] at hin
      by_contra hnot
      exact hsuper (noSuper_of_not_reached h
        (fun current hcurrent => hnot (within_replaced h hcurrent)) hin)
    | text | value | tag | extend => trivial

end Needed

/-- Texts are printed, values and tags are empty, and a parent is called by its name. -/
def printing (load : String → Option (List Node)) : Interp Unit String where
  text s := [s]
  emit _ _ := some []
  plan _ d := some [(true, d)]
  enter _ d := some d
  post _ _ out := some out
  parent arg _ := some arg
  load := load

/-- A template with one block. -/
def basePage : List Node := [.block ["title"] [.text "base"]]

/-- A template that adds to the block. -/
def middlePage : List Node :=
  [.extend "base", .block ["title"] [.text "middle", .value "block.super"]]

/-- A template that adds to the block, with its parent. -/
def leafPage (parent : String) : List Node :=
  [.extend parent, .block ["title"] [.text "leaf", .value "block.super"]]

/-- A template with a block in a block. -/
def nestedPage : List Node := [.block ["body"] [.text "body", .block ["title"] [.text "base"]]]

/-- A template that replaces the inner block. -/
def innerPage : List Node := [.extend "nested", .block ["title"] [.text "leaf"]]

/-- The loader of the templates. -/
def pages : String → Option (List Node)
  | "base" => some basePage
  | "middle" => some middlePage
  | "nested" => some nestedPage
  | _ => none

end Gogo.Templates

import Gogo.Lib.Run
import Gogo.Models.Schema

/-!
# Aggregates in expressions

The expression and predicate trees of `core/db/query.go` and the detector of
`internal/sqlcompiler/aggregate_detection.go`.

* `Expression`, `Predicate` — the trees; `Projection` — an alias.
* `Detector.expression`, `Detector.predicate` — the search for aggregate functions, through aliases,
  under one bound of depth and work.
* `Mentions`, `Occurs` — what the compiler emits an aggregate function for, whatever the bounds are.
* `detector_sound` — the detector misses no aggregate, when the names of the aliases are free of the
  path separator.
-/

namespace Gogo.SqlCompiler

open Gogo.Lib Gogo.Models

/-! ## Trees -/

/-- The kinds of expression that the compiler knows; any other text is refused there. -/
inductive ExpressionKind
  | field
  | value
  | binary
  | function
  | cast
  | case
  | jsonPath
  | jsonTextPath
  | window
  | subquery
  | exists
  | outerRef
  | ormSubquery
  | invalidTree
  | other (text : String)
deriving DecidableEq

/-- The connectors of a predicate; the empty one means `AND`. -/
inductive Connector
  | unset
  | and
  | or
  | xor
deriving DecidableEq

mutual

/-- Source: `query.go` `Expression`, with the fields that carry expressions and `DISTINCT`. -/
inductive Expression
  | mk (kind : ExpressionKind) (name : String) (args : List Expression)
      (filter : Option Predicate) (branches : List WhenBranch) (distinct : Bool := false)

/-- Source: `query.go` `WhenBranch`. -/
inductive WhenBranch
  | mk (condition : Predicate) (result : Expression)

/-- Source: `query.go` `Predicate`. -/
inductive Predicate
  | mk (field lookup : String) (value : Operand) (children : List Predicate)
      (connector : Connector) (negated : Bool) (expression : Option Expression)

/-- The right side of a predicate: nothing, an expression, a slice or some other value. -/
inductive Operand
  | null
  | expression (e : Expression)
  | slice (items : List Operand)
  | datum (text : String)

end

namespace Expression

def kind : Expression → ExpressionKind
  | mk kind _ _ _ _ _ => kind

/-- The name of a field, function or operator. -/
def name : Expression → String
  | mk _ name _ _ _ _ => name

def args : Expression → List Expression
  | mk _ _ args _ _ _ => args

/-- The row predicate of an aggregate function. -/
def filter : Expression → Option Predicate
  | mk _ _ _ filter _ _ => filter

/-- The branches of a conditional. -/
def branches : Expression → List WhenBranch
  | mk _ _ _ _ branches _ => branches

/-- A reference to a field or an alias. -/
def reference (name : String) : Expression := mk .field name [] none []

end Expression

def WhenBranch.condition : WhenBranch → Predicate
  | mk condition _ => condition

def WhenBranch.result : WhenBranch → Expression
  | mk _ result => result

namespace Predicate

/-- The field on the left side. -/
def field : Predicate → String
  | mk field _ _ _ _ _ _ => field

def lookup : Predicate → String
  | mk _ lookup _ _ _ _ _ => lookup

/-- The right side. -/
def value : Predicate → Operand
  | mk _ _ value _ _ _ _ => value

/-- The parts of a connection. -/
def children : Predicate → List Predicate
  | mk _ _ _ children _ _ _ => children

/-- How the parts are connected. -/
def connector : Predicate → Connector
  | mk _ _ _ _ connector _ _ => connector

/-- Whether the predicate is negated. -/
def negated : Predicate → Bool
  | mk _ _ _ _ _ negated _ => negated

/-- The expression on the left side, in place of a field. -/
def expression : Predicate → Option Expression
  | mk _ _ _ _ _ _ expression => expression

/-- The predicate with other parts. -/
def withChildren (p : Predicate) (children : List Predicate) : Predicate :=
  mk p.field p.lookup p.value children p.connector p.negated p.expression

/-- The predicate that says nothing. -/
def empty : Predicate := mk "" "" .null [] .unset false none

/-- The left side, unless there is none. -/
def left (p : Predicate) : Option Expression :=
  match p.expression with
  | some e => some e
  | none => if p.field = "" then none else some (.reference p.field)

end Predicate

/-- Source: `query.go` `Projection`. -/
structure Projection where
  aliasName : String
  expression : Expression

/-! ## The detector -/

/-- The upper case of a character, as far as it is an ASCII character: outside ASCII, only the
dotless i and the long s have one. -/
def upperChar (c : Char) : Char :=
  if c = '\u0131' then 'I' else if c = '\u017f' then 'S' else c.toUpper

/-- Source: `select.go` `IsAggregateFunction`; `strings.ToUpper` as far as its results are ASCII. -/
def isAggregateFunction (name : String) : Bool :=
  String.ofList (name.toList.map upperChar) ∈ ["AVG", "COUNT", "MIN", "MAX", "SUM", "STDDEV",
    "STDDEV_POP", "STDDEV_SAMP", "VARIANCE", "VAR_POP", "VAR_SAMP"]

/-- The part of a path before its first separator, if there is one: `strings.Cut(name, "__")`. -/
def cutPath : List Char → Option (List Char)
  | [] => none
  | '_' :: '_' :: _ => some []
  | ch :: rest => (cutPath rest).map (ch :: ·)

/-- The first component of a path. -/
def pathHead (name : String) : String :=
  match cutPath name.toList with
  | some head => String.ofList head
  | none => name

inductive DetectError
  | bound
  | invalidTree
  | membership
deriving DecidableEq

/-- A computation that counts the nodes it enters. -/
abbrev Detect := StateT ℕ (Except DetectError)

/-- Source: `aggregate_detection.go` `aggregateDetector`. -/
structure Detector where
  aliases : FinMap String Projection
  schema : Schema

/-- Source: `aggregate_detection.go` `aggregatePredicate`. -/
inductive AggregatePredicate
  | mk (value : Predicate) (aggregate : Bool) (children : List AggregatePredicate)

namespace AggregatePredicate

/-- The predicate that was inspected. -/
def value : AggregatePredicate → Predicate
  | mk value _ _ => value

/-- Whether an aggregate was found in it. -/
def aggregate : AggregatePredicate → Bool
  | mk _ aggregate _ => aggregate

/-- What was found in its parts. -/
def children : AggregatePredicate → List AggregatePredicate
  | mk _ _ children => children

end AggregatePredicate

/-- The bound of the work. -/
def maxNodes : ℕ := 8192

/-- The bound of the depth: what is left of it at the root. -/
def maxDepth : ℕ := 65

/-- Source: `aggregateDetector.enter`; `left` is what is left of the depth. -/
def enter (left : ℕ) : Detect Unit := fun nodes =>
  if left = 0 ∨ maxNodes < nodes + 1 then .error .bound else .ok ((), nodes + 1)

/-- A loop that looks at every element. -/
def searchAll {α : Type} (search : α → Detect Bool) (found : Bool) (l : List α) : Detect Bool :=
  l.foldlM (fun found a => do
    let part ← search a
    pure (found || part)) found

/-- The operands that `predicate` looks at. -/
def Predicate.operands (p : Predicate) : Except DetectError (List Operand) :=
  match p.value with
  | .slice items =>
    if p.lookup = "in" ∨ p.lookup = "range" then
      if maxNodes < items.length then .error .membership else .ok items
    else .ok [p.value]
  | value => .ok [value]

/-- The alias that an expression refers to. -/
def Detector.aliased (d : Detector) (e : Expression) : Option Projection :=
  if e.kind = .field then d.aliases.get? (pathHead e.name) else none

/-- The expression is a stored field. -/
def Detector.stores (d : Detector) (e : Expression) : Bool :=
  e.kind = .field && (d.schema.field? e.name).isSome

mutual

/-- Source: `aggregateDetector.expression`. -/
def Detector.expression (d : Detector) : ℕ → Expression → Detect Bool
  | 0, _ => do
    enter 0
    pure false
  | left + 1, e => do
    enter (left + 1)
    if e.kind = .invalidTree then throw .invalidTree
    else if e.kind = .window then pure false
    -- A stored field comes before an alias of that name.
    else if d.stores e then pure false
    else
      match d.aliased e with
      | some projection => d.expression left projection.expression
      | none => do
        let found ← searchAll (fun p => do
          let part ← d.predicate left p
          pure part.aggregate) (e.kind = .function && isAggregateFunction e.name) e.filter.toList
        let found ← searchAll (d.expression left) found e.args
        searchAll (fun branch => do
          let condition ← d.predicate left branch.condition
          let part ← d.expression left branch.result
          pure (condition.aggregate || part)) found e.branches

/-- Source: `aggregateDetector.predicate`. -/
def Detector.predicate (d : Detector) : ℕ → Predicate → Detect AggregatePredicate
  | 0, p => do
    enter 0
    pure (.mk p false [])
  | left + 1, p => do
    enter (left + 1)
    let found ← searchAll (d.expression left) false p.left.toList
    let operands ← StateT.lift p.operands
    let found ← searchAll (fun operand =>
      match operand with
      | .expression e => d.expression left e
      | _ => pure false) found operands
    let children ← p.children.mapM (d.predicate left)
    pure (.mk p (found || children.any AggregatePredicate.aggregate) children)

end

/-! ## What an answer of the detector implies -/

section Detect

variable {α β : Type}

variable {x : Detect α} {f : α → Detect β} {n : ℕ} {a : α} {l : List α}

lemma detect_bind_eq_ok {r : β × ℕ} :
    (x >>= f) n = .ok r ↔ ∃ a m, x n = .ok (a, m) ∧ f a m = .ok r := by
  show (x n >>= fun p => f p.1 p.2) = .ok r ↔ _
  rw [bind_eq_ok]
  constructor
  · rintro ⟨⟨a, m⟩, hx, hf⟩
    exact ⟨a, m, hx, hf⟩
  · rintro ⟨a, m, hx, hf⟩
    exact ⟨(a, m), hx, hf⟩

lemma detect_pure_eq_ok {r : α × ℕ} : (pure a : Detect α) n = .ok r ↔ r = (a, n) := by
  show (Except.ok (a, n) : Except DetectError (α × ℕ)) = .ok r ↔ _
  rw [Except.ok.injEq, eq_comm]

/-- Some part of the computation gave this answer. -/
def Answers (x : Detect α) (a : α) : Prop := ∃ n m, x n = .ok (a, m)

lemma answers_bind {b : β} (h : Answers (x >>= f) b) : ∃ a, Answers x a ∧ Answers (f a) b := by
  obtain ⟨n, m, h⟩ := h
  obtain ⟨a, m', hx, hf⟩ := detect_bind_eq_ok.mp h
  exact ⟨a, ⟨n, m', hx⟩, m', m, hf⟩

lemma answers_pure {b : α} (h : Answers (pure a) b) : b = a := by
  obtain ⟨n, m, h⟩ := h
  exact (Prod.mk.inj (detect_pure_eq_ok.mp h)).1

/-- A search keeps what was found before and finds what any element has. -/
lemma searchAll_spec {search : α → Detect Bool} {found b : Bool}
    (h : Answers (searchAll search found l) b) :
    (found = true → b = true) ∧ ∀ a ∈ l, ∃ part, Answers (search a) part ∧ (part = true → b = true) := by
  induction l generalizing found with
  | nil =>
    obtain rfl := answers_pure h
    exact ⟨id, by simp⟩
  | cons a rest ih =>
    obtain ⟨found', hfound', hrest⟩ := answers_bind h
    obtain ⟨part, hpart, hpure⟩ := answers_bind hfound'
    obtain rfl := answers_pure hpure
    obtain ⟨hkeep, hall⟩ := ih hrest
    refine ⟨fun hfound => hkeep (by rw [hfound]; rfl), fun a' ha' => ?_⟩
    rcases List.mem_cons.mp ha' with rfl | ha'
    · exact ⟨part, hpart, fun h => hkeep (by rw [h, Bool.or_true])⟩
    · exact hall a' ha'

lemma answers_mapM {r : List β} (h : Answers (l.mapM f) r) :
    List.Forall₂ (fun a b => Answers (f a) b) l r := by
  induction l generalizing r with
  | nil =>
    obtain rfl := answers_pure h
    exact .nil
  | cons a rest ih =>
    rw [List.mapM_cons] at h
    obtain ⟨b, hb, h⟩ := answers_bind h
    obtain ⟨bs, hbs, h⟩ := answers_bind h
    obtain rfl := answers_pure h
    exact .cons hb (ih hbs)

end Detect

/-! ## What mentions an aggregate -/

variable (d : Detector)

/-- The alias that the compiler takes a name for: `resolveField`, without the checks of the output
and of joins, which only refuse. -/
def Detector.resolve (name : String) : Option Projection :=
  if (d.schema.field? name).isSome then none
  else (d.aliases.get? name).or (d.aliases.get? (pathHead name))

mutual

/-- The compiler emits an aggregate function for the expression. A window is computed over the rows
that are there and is none. -/
inductive Mentions : Expression → Prop
  | function {e : Expression} (hkind : e.kind = .function) (h : isAggregateFunction e.name = true) :
      Mentions e
  | reference {e : Expression} {a : Projection} (hkind : e.kind = .field)
      (hresolve : d.resolve e.name = some a) (h : Mentions a.expression) : Mentions e
  | filter {e : Expression} {p : Predicate} (hwindow : e.kind ≠ .window) (hfield : e.kind ≠ .field)
      (hfilter : e.filter = some p) (h : Occurs p) : Mentions e
  | argument {e a : Expression} (hwindow : e.kind ≠ .window) (hfield : e.kind ≠ .field)
      (hargument : a ∈ e.args) (h : Mentions a) : Mentions e
  | condition {e : Expression} {b : WhenBranch} (hwindow : e.kind ≠ .window)
      (hfield : e.kind ≠ .field) (hbranch : b ∈ e.branches) (h : Occurs b.condition) : Mentions e
  | result {e : Expression} {b : WhenBranch} (hwindow : e.kind ≠ .window)
      (hfield : e.kind ≠ .field) (hbranch : b ∈ e.branches) (h : Mentions b.result) : Mentions e

/-- The compiler emits an aggregate function for the predicate. A connection is compiled from its
parts alone. -/
inductive Occurs : Predicate → Prop
  | left {p : Predicate} {e : Expression} (hleaf : p.children = []) (hleft : p.left = some e)
      (h : Mentions e) : Occurs p
  | operand {p : Predicate} {e : Expression} (hleaf : p.children = [])
      (hvalue : p.value = .expression e) (h : Mentions e) : Occurs p
  | member {p : Predicate} {e : Expression} {items : List Operand} (hleaf : p.children = [])
      (hlookup : p.lookup = "in" ∨ p.lookup = "range") (hvalue : p.value = .slice items)
      (hmember : .expression e ∈ items) (h : Mentions e) : Occurs p
  | child {p c : Predicate} (hchild : c ∈ p.children) (h : Occurs c) : Occurs p

end

/-- The aliases have names that are no paths. -/
def Detector.Plain : Prop := ∀ name a, d.aliases.get? name = some a → cutPath name.toList = none

variable {d}

lemma pathHead_of_plain {name : String} (h : cutPath name.toList = none) : pathHead name = name := by
  unfold pathHead
  rw [h]

variable {e : Expression} {p : Predicate} {left : ℕ}

/-- The detector follows every reference that the compiler follows. -/
lemma aliased_of_resolve (hplain : d.Plain) {a : Projection} (hkind : e.kind = .field)
    (h : d.resolve e.name = some a) : d.stores e = false ∧ d.aliased e = some a := by
  unfold Detector.resolve at h
  split_ifs at h with hstored
  refine ⟨by simpa [Detector.stores, hkind] using hstored, ?_⟩
  rw [Detector.aliased, if_pos hkind]
  rcases hname : d.aliases.get? e.name with _ | a'
  · rw [hname] at h
    exact h
  · rw [hname] at h
    rw [pathHead_of_plain (hplain _ _ hname), hname]
    exact h

/-- The operands of a predicate include the expressions that the compiler emits. -/
lemma mem_operands {ops : List Operand} (hops : p.operands = .ok ops)
    (h : p.value = .expression e ∨ ∃ items, (p.lookup = "in" ∨ p.lookup = "range") ∧ p.value =
      .slice items ∧ .expression e ∈ items) : .expression e ∈ ops := by
  unfold Predicate.operands at hops
  rcases h with hvalue | ⟨items, hlookup, hvalue, hmem⟩ <;> rw [hvalue] at hops
  · cases hops
    exact List.mem_singleton.mpr rfl
  · simp only [if_pos hlookup] at hops
    split_ifs at hops
    cases hops
    exact hmem

/-- What the answer of the detector for a predicate is made of. -/
lemma predicate_answers {node : AggregatePredicate} (h : Answers (d.predicate (left + 1) p) node) :
    ∃ found operands children,
      node = .mk p (found || children.any AggregatePredicate.aggregate) children ∧
      (∀ e, p.left = some e → ∃ part, Answers (d.expression left e) part ∧
        (part = true → found = true)) ∧
      p.operands = .ok operands ∧
      (∀ e, .expression e ∈ operands → ∃ part, Answers (d.expression left e) part ∧
        (part = true → found = true)) ∧
      List.Forall₂ (fun c child => Answers (d.predicate left c) child) p.children children := by
  unfold Detector.predicate at h
  obtain ⟨_, -, h⟩ := answers_bind h
  obtain ⟨found, hfound, h⟩ := answers_bind h
  obtain ⟨operands, hoperands, h⟩ := answers_bind h
  obtain ⟨found', hfound', h⟩ := answers_bind h
  obtain ⟨children, hchildren, h⟩ := answers_bind h
  obtain ⟨hkeep, hall⟩ := searchAll_spec hfound'
  refine ⟨found', operands, children, answers_pure h, fun e he => ?_, ?_, fun e he => hall _ he,
    answers_mapM hchildren⟩
  · obtain ⟨part, hpart, hfind⟩ := (searchAll_spec hfound).2 e (by rw [he]; simp)
    exact ⟨part, hpart, fun hp => hkeep (hfind hp)⟩
  · obtain ⟨n, m, h⟩ := hoperands
    rcases hops : p.operands with err | ops
    · rw [hops] at h
      cases h
    · rw [hops] at h
      obtain ⟨rfl, -⟩ := Prod.mk.inj (Except.ok.inj h)
      rfl

/-- What the answer of the detector for an expression is made of, when it looks at its parts. -/
structure Searched (d : Detector) (left : ℕ) (e : Expression) (b : Bool) : Prop where
  function : e.kind = .function → isAggregateFunction e.name = true → b = true
  filter : ∀ p, e.filter = some p → ∃ node, Answers (d.predicate left p) node ∧
    (node.aggregate = true → b = true)
  argument : ∀ a ∈ e.args, ∃ part, Answers (d.expression left a) part ∧ (part = true → b = true)
  condition : ∀ branch ∈ e.branches, ∃ node, Answers (d.predicate left branch.condition) node ∧
    (node.aggregate = true → b = true)
  result : ∀ branch ∈ e.branches, ∃ part, Answers (d.expression left branch.result) part ∧
    (part = true → b = true)

/-- The cases of the detector on an expression. -/
lemma expression_answers {b : Bool} (h : Answers (d.expression (left + 1) e) b) :
    e.kind = .window ∨ d.stores e = true ∨
      (∃ a, d.aliased e = some a ∧ Answers (d.expression left a.expression) b) ∨
      (d.aliased e = none ∧ Searched d left e b) := by
  unfold Detector.expression at h
  obtain ⟨_, -, h⟩ := answers_bind h
  split_ifs at h with hinvalid hwindow hstores
  · obtain ⟨n, m, h⟩ := h
    cases h
  · exact .inl hwindow
  · exact .inr (.inl hstores)
  · rcases haliased : d.aliased e with _ | a <;> simp only [haliased] at h
    · obtain ⟨found, hfilter, h⟩ := answers_bind h
      obtain ⟨found', hargs, h⟩ := answers_bind h
      obtain ⟨hkeep, hfilters⟩ := searchAll_spec hfilter
      obtain ⟨hkeep', harguments⟩ := searchAll_spec hargs
      obtain ⟨hkeep'', hbranches⟩ := searchAll_spec h
      refine .inr (.inr (.inr ⟨rfl, ?_, fun p hp => ?_, fun a ha => ?_, fun branch hbranch => ?_,
        fun branch hbranch => ?_⟩))
      · intro hkind hname
        exact hkeep'' (hkeep' (hkeep (by simp [hkind, hname])))
      · obtain ⟨part, hpart, hb⟩ := hfilters p (by rw [hp]; simp)
        obtain ⟨node, hnode, hpart⟩ := answers_bind hpart
        obtain rfl := answers_pure hpart
        exact ⟨node, hnode, fun h => hkeep'' (hkeep' (hb h))⟩
      · obtain ⟨part, hpart, hb⟩ := harguments a ha
        exact ⟨part, hpart, fun h => hkeep'' (hb h)⟩
      · obtain ⟨found, hfound, hb⟩ := hbranches branch hbranch
        obtain ⟨condition, hcondition, hfound⟩ := answers_bind hfound
        obtain ⟨part, -, hfound⟩ := answers_bind hfound
        obtain rfl := answers_pure hfound
        exact ⟨condition, hcondition, fun h => hb (by rw [h]; rfl)⟩
      · obtain ⟨found, hfound, hb⟩ := hbranches branch hbranch
        obtain ⟨condition, -, hfound⟩ := answers_bind hfound
        obtain ⟨part, hpart, hfound⟩ := answers_bind hfound
        obtain rfl := answers_pure hfound
        exact ⟨part, hpart, fun h => hb (by rw [h, Bool.or_true])⟩
    · exact .inr (.inr (.inl ⟨a, rfl, h⟩))

/-- An expression of another kind refers to nothing. -/
lemma aliased_of_ne {e : Expression} (h : e.kind ≠ .field) :
    d.stores e = false ∧ d.aliased e = none := by
  simp [Detector.stores, Detector.aliased, h]

/-- **The detector misses no aggregate**, neither in expressions nor in predicates. The induction is on
the depth that is left. -/
theorem detector_sound (hplain : d.Plain) (left : ℕ) :
    (∀ e b, Answers (d.expression left e) b → Mentions d e → b = true) ∧
      ∀ p node, Answers (d.predicate left p) node → Occurs d p → node.aggregate = true := by
  induction left with
  | zero =>
    refine ⟨fun e b h => ?_, fun p node h => ?_⟩ <;> obtain ⟨n, m, h⟩ := h <;>
      obtain ⟨_, _, henter, -⟩ := detect_bind_eq_ok.mp h <;> simp [enter] at henter
  | succ left ih =>
    obtain ⟨ihe, ihp⟩ := ih
    constructor
    · intro e b h hmentions
      -- A part that is no reference is searched.
      have hsearched : e.kind ≠ .window → e.kind ≠ .field → Searched d left e b := by
        intro hwindow hfield
        obtain ⟨hstores, haliased⟩ := @aliased_of_ne d e hfield
        rcases expression_answers h with h | h | ⟨a, h, -⟩ | ⟨-, h⟩
        · exact absurd h hwindow
        · rw [hstores] at h
          cases h
        · rw [haliased] at h
          cases h
        · exact h
      cases hmentions with
      | function hkind hname =>
        exact (hsearched (by rw [hkind]; decide) (by rw [hkind]; decide)).function hkind hname
      | reference hkind hresolve hmentions =>
        obtain ⟨hstores, haliased⟩ := aliased_of_resolve hplain hkind hresolve
        rcases expression_answers h with h | h | ⟨a, h, hanswers⟩ | ⟨h, -⟩
        · rw [hkind] at h
          cases h
        · rw [hstores] at h
          cases h
        · obtain rfl := Option.some.inj (haliased.symm.trans h)
          exact ihe _ _ hanswers hmentions
        · rw [haliased] at h
          cases h
      | filter hwindow hfield hfilter hoccurs =>
        obtain ⟨node, hnode, hb⟩ := (hsearched hwindow hfield).filter _ hfilter
        exact hb (ihp _ _ hnode hoccurs)
      | argument hwindow hfield ha hmentions =>
        obtain ⟨part, hpart, hb⟩ := (hsearched hwindow hfield).argument _ ha
        exact hb (ihe _ _ hpart hmentions)
      | condition hwindow hfield hbranch hoccurs =>
        obtain ⟨node, hnode, hb⟩ := (hsearched hwindow hfield).condition _ hbranch
        exact hb (ihp _ _ hnode hoccurs)
      | result hwindow hfield hbranch hmentions =>
        obtain ⟨part, hpart, hb⟩ := (hsearched hwindow hfield).result _ hbranch
        exact hb (ihe _ _ hpart hmentions)
    · intro p node h hoccurs
      obtain ⟨found, operands, children, rfl, hleft, hops, hoperands, hchildren⟩ :=
        predicate_answers h
      have hoperand : ∀ {e}, .expression e ∈ operands → Mentions d e → found = true := by
        intro e he hmentions
        obtain ⟨part, hpart, hfound⟩ := hoperands e he
        exact hfound (ihe _ _ hpart hmentions)
      cases hoccurs with
      | left _ he hmentions =>
        obtain ⟨part, hpart, hfound⟩ := hleft _ he
        simp [AggregatePredicate.aggregate, hfound (ihe _ _ hpart hmentions)]
      | operand _ hvalue hmentions =>
        simp [AggregatePredicate.aggregate,
          hoperand (mem_operands hops (.inl hvalue)) hmentions]
      | member _ hlookup hvalue hmem hmentions =>
        simp [AggregatePredicate.aggregate,
          hoperand (mem_operands hops (.inr ⟨_, hlookup, hvalue, hmem⟩)) hmentions]
      | child hmem hoccurs =>
        obtain ⟨child, hchild, hanswers⟩ := exists_of_forall₂_left hchildren hmem
        have hfound : children.any AggregatePredicate.aggregate = true :=
          List.any_eq_true.mpr ⟨child, hchild, ihp _ _ hanswers hoccurs⟩
        simp [AggregatePredicate.aggregate, hfound]

end Gogo.SqlCompiler

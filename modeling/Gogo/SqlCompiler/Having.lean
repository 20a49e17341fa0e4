import Mathlib.Data.List.ReduceOption
import Gogo.Lib.Kleene
import Gogo.SqlCompiler.Aggregates

/-!
# The split of a filter into `WHERE` and `HAVING`

`internal/sqlcompiler/having.go` cuts a filter in two: what can be decided on rows, and what needs
groups.

* `splitAggregateFilters` — the split.
* `Predicate.truth` — what the compiler makes of a predicate, over three truth values.
* `split_spec` — under either polarity, a tree stands exactly when both of its parts stand.
* `split_preserves_meaning` — the filter is true exactly when both parts are; the first part mentions
  no aggregate; every leaf is in one of the parts.
-/

namespace Gogo.SqlCompiler

open List Gogo.Lib Gogo.Models

/-! ## The split -/

/-- The split would turn a disjunction into a conjunction. -/
def connected (connector : Connector) (negated : Bool) : Bool :=
  match connector with
  | .xor => true
  | .unset | .and => negated
  | .or => !negated

mutual

/-- Source: `aggregatePredicate.split`. -/
def AggregatePredicate.split (inherited : Bool) :
    AggregatePredicate → Option Predicate × Option Predicate
  | .mk value aggregate children =>
    if !aggregate then (some value, none)
    else if children.isEmpty || connected value.connector (inherited != value.negated) then
      (none, some value)
    else
      let parts := splitAll (inherited != value.negated) children
      (if parts.1.isEmpty then none else some (value.withChildren parts.1),
        if parts.2.isEmpty then none else some (value.withChildren parts.2))

/-- The loop of `split` over the parts of a connection. -/
def splitAll (negated : Bool) : List AggregatePredicate → List Predicate × List Predicate
  | [] => ([], [])
  | child :: rest =>
    let parts := child.split negated
    let others := splitAll negated rest
    (parts.1.toList ++ others.1, parts.2.toList ++ others.2)

end

/-- The detector of a split. -/
def splitDetector (schema : Schema) (aliases : List Projection) : Detector where
  aliases := .ofList (aliases.map fun a => (a.aliasName, a))
  schema := schema

/-- Source: `having.go` `SplitAggregateFilters`. -/
def splitAggregateFilters (schema : Schema) (predicate : Predicate) (aliases : List Projection) :
    Except DetectError (Predicate × Predicate) := do
  let (node, _) ← (splitDetector schema aliases).predicate maxDepth predicate 0
  let parts := node.split false
  .ok (parts.1.getD .empty, parts.2.getD .empty)

/-! ## What a predicate means -/

/-- The errors of the compiler that concern connections. -/
inductive ConnectError
  | operands
deriving DecidableEq

/-- What the compiler makes of the parts of a connection. -/
def Connector.join : Connector → List Truth → Except ConnectError Truth
  | .unset, parts | .and, parts => .ok (Truth.conj parts)
  | .or, parts => .ok (Truth.disj parts)
  | .xor, [a, b] => .ok (a.ne b)
  | .xor, _ => .error .operands

/-- `NOT`, where the predicate is negated. -/
def negateIf (negated : Bool) (t : Truth) : Truth := if negated then t.neg else t

mutual

/-- Source: `Compiler.Predicate`, over truth values: what says nothing is left out of connections.
The truth of a leaf is given. -/
def Predicate.truth (leaf : Predicate → Truth) :
    Predicate → Except ConnectError (Option Truth)
  | .mk field lookup value [] connector negated expression =>
    if field = "" ∧ expression.isNone then .ok none
    else
      .ok (some (negateIf negated
        (leaf (.mk field lookup value [] connector false expression))))
  | .mk _ _ _ (child :: rest) connector negated _ => do
    let first ← child.truth leaf
    let others ← truths leaf rest
    match (first :: others).reduceOption with
    | [] => .ok none
    | parts => do
      let t ← connector.join parts
      .ok (some (negateIf negated t))

/-- The parts of a connection, in order. -/
def truths (leaf : Predicate → Truth) : List Predicate → Except ConnectError (List (Option Truth))
  | [] => .ok []
  | p :: rest => do
    let first ← p.truth leaf
    let others ← truths leaf rest
    .ok (first :: others)

end

mutual

/-- The comparisons of a predicate, in order. -/
def Predicate.leaves : Predicate → List Predicate
  | .mk field lookup value [] connector negated expression =>
    if field = "" ∧ expression.isNone then []
    else [.mk field lookup value [] connector negated expression]
  | .mk _ _ _ (child :: rest) _ _ _ => child.leaves ++ leavesAll rest

/-- The comparisons of the parts of a connection. -/
def leavesAll : List Predicate → List Predicate
  | [] => []
  | p :: rest => p.leaves ++ leavesAll rest

end

/-! ## Connections -/

section Connections

variable {leaf : Predicate → Truth}

/-- The compiler takes the predicate. -/
def Predicate.Compiles (leaf : Predicate → Truth) (p : Predicate) : Prop :=
  ∃ r, p.truth leaf = .ok r

/-- The truth value that a polarity asks for. -/
def wanted (negated : Bool) : Truth := if negated then .false else .true

/-- The predicate says nothing, or it has the truth value that its polarity asks for. -/
def Predicate.Stands (leaf : Predicate → Truth) (negated : Bool) (p : Predicate) : Prop :=
  p.truth leaf = .ok none ∨ p.truth leaf = .ok (some (wanted negated))

variable {l : List Predicate} {p : Predicate} {negated : Bool}

lemma truths_eq_mapM : truths leaf l = l.mapM (·.truth leaf) := by
  induction l with
  | nil => rfl
  | cons p rest ih =>
    rw [truths, ih, mapM_cons]
    rfl

lemma truths_eq_ok_iff {rs : List (Option Truth)} :
    truths leaf l = .ok rs ↔ List.Forall₂ (fun p r => p.truth leaf = .ok r) l rs := by
  rw [truths_eq_mapM, mapM_eq_ok_iff]

lemma exists_truths_iff : (∃ rs, truths leaf l = .ok rs) ↔ ∀ p ∈ l, p.Compiles leaf := by
  constructor
  · rintro ⟨rs, hrs⟩ p hp
    obtain ⟨r, -, hr⟩ := exists_of_forall₂_left (truths_eq_ok_iff.mp hrs) hp
    exact ⟨r, hr⟩
  · rw [truths_eq_mapM]
    exact exists_mapM_eq_ok

/-- What the compiler makes of a connection with these parts. -/
def Predicate.connect (p : Predicate) : List Truth → Except ConnectError (Option Truth)
  | [] => .ok none
  | parts => do
    let t ← p.connector.join parts
    .ok (some (negateIf p.negated t))

lemma truth_of_children (hne : p.children ≠ []) :
    p.truth leaf = (truths leaf p.children >>= fun rs => p.connect rs.reduceOption) := by
  obtain ⟨field, lookup, value, children, connector, negated, expression⟩ := p
  rcases children with _ | ⟨child, rest⟩
  · exact absurd rfl hne
  · simp only [Predicate.truth, Predicate.children, truths]
    rcases child.truth leaf with e | first
    · rfl
    · rcases truths leaf rest with e | others <;> rfl

/-- A connection that is a conjunction under its polarity has the value that is asked for when all its
parts have. -/
lemma join_eq_wanted {connector : Connector} (parts : List Truth)
    (h : connected connector negated = false) :
    ∃ t, connector.join parts = .ok t ∧ (t = wanted negated ↔ ∀ t' ∈ parts, t' = wanted negated) := by
  cases connector <;> cases negated <;> cases h
  · exact ⟨_, rfl, Truth.conj_eq_true⟩
  · exact ⟨_, rfl, Truth.conj_eq_true⟩
  · exact ⟨_, rfl, Truth.disj_eq_false⟩

lemma negateIf_eq_wanted {negated' : Bool} {t : Truth} :
    negateIf negated' t = wanted negated ↔ t = wanted (negated != negated') := by
  cases negated <;> cases negated' <;> simp [negateIf, wanted]

lemma connect_eq_wanted (parts : List Truth)
    (h : connected p.connector (negated != p.negated) = false) :
    ∃ r, p.connect parts = .ok r ∧ ((r = none ∨ r = some (wanted negated)) ↔
      ∀ t ∈ parts, t = wanted (negated != p.negated)) := by
  rcases parts with _ | ⟨t, rest⟩
  · exact ⟨none, rfl, by simp⟩
  · obtain ⟨joined, hjoin, hwanted⟩ := join_eq_wanted (t :: rest) h
    refine ⟨some (negateIf p.negated joined), ?_, ?_⟩
    · show (p.connector.join (t :: rest) >>= fun t => .ok (some (negateIf p.negated t))) = _
      rw [hjoin]
      rfl
    · rw [← hwanted, ← negateIf_eq_wanted]
      simp

variable {p : Predicate} {negated : Bool}

lemma compiles_connection (hne : p.children ≠ [])
    (hconnected : connected p.connector (negated != p.negated) = false) :
    p.Compiles leaf ↔ ∀ c ∈ p.children, c.Compiles leaf := by
  rw [← exists_truths_iff]
  constructor
  · rintro ⟨r, hr⟩
    rw [truth_of_children hne] at hr
    obtain ⟨rs, hrs, -⟩ := bind_eq_ok.mp hr
    exact ⟨rs, hrs⟩
  · rintro ⟨rs, hrs⟩
    obtain ⟨r, hr, -⟩ := connect_eq_wanted rs.reduceOption hconnected
    exact ⟨r, by rw [truth_of_children hne, hrs]; exact hr⟩

lemma Predicate.Stands.compiles (h : p.Stands leaf negated) : p.Compiles leaf :=
  h.elim (fun h => ⟨_, h⟩) fun h => ⟨_, h⟩

/-- A connection that is a conjunction under its polarity stands when all its parts stand. -/
lemma stands_connection (hne : p.children ≠ [])
    (hconnected : connected p.connector (negated != p.negated) = false) :
    p.Stands leaf negated ↔ ∀ c ∈ p.children, c.Stands leaf (negated != p.negated) := by
  by_cases hcompiles : ∀ c ∈ p.children, c.Compiles leaf
  · obtain ⟨rs, hrs⟩ := exists_truths_iff.mpr hcompiles
    obtain ⟨r, hr, hwanted⟩ := connect_eq_wanted rs.reduceOption hconnected
    have htruth : p.truth leaf = .ok r := by
      rw [truth_of_children hne, hrs]
      exact hr
    have hforall := truths_eq_ok_iff.mp hrs
    simp only [Predicate.Stands, htruth, Except.ok.injEq, hwanted, reduceOption_mem_iff]
    constructor
    · intro h c hc
      obtain ⟨x, hx, hcx⟩ := exists_of_forall₂_left hforall hc
      rw [hcx]
      rcases x with _ | t
      · exact .inl rfl
      · exact .inr (by rw [h t hx])
    · intro h t ht
      obtain ⟨c, hc, hcx⟩ := exists_of_forall₂_right hforall ht
      rcases h c hc with hnone | hsome
      · rw [hcx] at hnone
        cases hnone
      · rw [hcx] at hsome
        exact Option.some.inj (Except.ok.inj hsome)
  · refine ⟨fun h => absurd ?_ hcompiles, fun h => absurd (fun c hc => (h c hc).compiles) hcompiles⟩
    exact (compiles_connection hne hconnected).mp h.compiles

end Connections

/-! ## The parts of a split -/

/-- What the detector returns: the tree of the predicate, with a note at every node whether an
aggregate is there. -/
inductive Inspected (d : Detector) : AggregatePredicate → Prop
  | mk {p : Predicate} {aggregate : Bool} {children : List AggregatePredicate}
      (hchildren : p.children = children.map AggregatePredicate.value)
      (hclean : aggregate = false → ¬ Occurs d p) (h : ∀ c ∈ children, Inspected d c) :
      Inspected d (.mk p aggregate children)

section Split

variable {d : Detector} {leaf : Predicate → Truth}

variable {p : Predicate} {Q : Predicate → Prop} {negated : Bool}
  {children : List AggregatePredicate}

lemma inspected_of_predicate (hplain : d.Plain) {left : ℕ} {node : AggregatePredicate}
    (h : Answers (d.predicate left p) node) : node.value = p ∧ Inspected d node := by
  induction left generalizing p node with
  | zero =>
    obtain ⟨n, m, h⟩ := h
    obtain ⟨_, _, henter, -⟩ := detect_bind_eq_ok.mp h
    simp [enter] at henter
  | succ left ih =>
    have hsound := (detector_sound hplain (left + 1)).2 p node h
    obtain ⟨found, operands, children, rfl, -, -, -, hchildren⟩ := predicate_answers h
    refine ⟨rfl, .mk ?_ ?_ fun c hc => ?_⟩
    · clear hsound h
      generalize p.children = l at hchildren
      induction hchildren with
      | nil => rfl
      | cons hhead _ ihrest => rw [map_cons, (ih hhead).1, ← ihrest]
    · intro hfalse hoccurs
      have htrue := hsound hoccurs
      rw [AggregatePredicate.aggregate, hfalse] at htrue
      cases htrue
    · obtain ⟨c', -, hc'⟩ := exists_of_forall₂_right hchildren hc
      exact (ih hc').2

/-- What holds of all parts of a connection holds of the parts of its split. -/
lemma forall_splitAll
    (h : ∀ c ∈ children, Q c.value ↔ (∀ q ∈ (c.split negated).1, Q q) ∧ ∀ q ∈ (c.split negated).2, Q
      q) :
    (∀ p ∈ children.map AggregatePredicate.value, Q p) ↔
      (∀ q ∈ (splitAll negated children).1, Q q) ∧ ∀ q ∈ (splitAll negated children).2, Q q := by
  induction children with
  | nil => simp [splitAll]
  | cons c rest ih =>
    obtain ⟨hc, hrest⟩ := forall_mem_cons.mp h
    rw [map_cons, forall_mem_cons, hc, ih hrest]
    simp only [splitAll, forall_mem_append, Option.mem_toList]
    tauto

/-- The part of a split that is made of these parts of a connection, unless there are none. -/
def regroup (p : Predicate) (parts : List Predicate) : Option Predicate :=
  if parts.isEmpty then none else some (p.withChildren parts)

/-- What holds of a connection when it holds of its parts holds of what they are regrouped to. -/
lemma forall_regroup {Q' : Predicate → Prop} {parts : List Predicate}
    (h : parts ≠ [] → (Q (p.withChildren parts) ↔ ∀ c ∈ parts, Q' c)) :
    (∀ q ∈ regroup p parts, Q q) ↔ ∀ c ∈ parts, Q' c := by
  rcases parts with _ | ⟨c, rest⟩
  · simp [regroup]
  · rw [← h (cons_ne_nil c rest)]
    simp [regroup]

lemma leaves_of_children {p : Predicate} (hne : p.children ≠ []) :
    p.leaves = leavesAll p.children := by
  obtain ⟨field, lookup, value, children, connector, negated, expression⟩ := p
  rcases children with _ | ⟨child, rest⟩
  · exact absurd rfl hne
  · rfl

lemma leavesAll_append (l l' : List Predicate) :
    leavesAll (l ++ l') = leavesAll l ++ leavesAll l' := by
  induction l with
  | nil => rfl
  | cons p rest ih => rw [cons_append, leavesAll, ih, leavesAll, append_assoc]

lemma leavesAll_regroup (p : Predicate) (parts : List Predicate) :
    leavesAll (regroup p parts).toList = leavesAll parts := by
  rcases parts with _ | ⟨c, rest⟩
  · rfl
  · have hleaves := @leaves_of_children (p.withChildren (c :: rest)) (cons_ne_nil c rest)
    show leavesAll [p.withChildren (c :: rest)] = _
    rw [leavesAll, hleaves]
    exact append_nil _

/-- What holds between a predicate and the parts of its split, under a polarity. -/
structure Divides (d : Detector) (leaf : Predicate → Truth) (negated : Bool) (p : Predicate)
    (parts : Option Predicate × Option Predicate) : Prop where
  compiles : p.Compiles leaf ↔
    (∀ q ∈ parts.1, q.Compiles leaf) ∧ ∀ q ∈ parts.2, q.Compiles leaf
  stands : p.Stands leaf negated ↔
    (∀ q ∈ parts.1, q.Stands leaf negated) ∧ ∀ q ∈ parts.2, q.Stands leaf negated
  leaves : p.leaves.Perm (leavesAll parts.1.toList ++ leavesAll parts.2.toList)
  clean : ∀ q ∈ parts.1, ¬ Occurs d q

lemma leaves_splitAll (h : ∀ c ∈ children, Divides d leaf negated c.value (c.split negated)) :
    (leavesAll (children.map AggregatePredicate.value)).Perm
      (leavesAll (splitAll negated children).1 ++ leavesAll (splitAll negated children).2) := by
  induction children with
  | nil => exact .refl _
  | cons c rest ih =>
    obtain ⟨hc, hrest⟩ := forall_mem_cons.mp h
    rw [map_cons, leavesAll, splitAll, leavesAll_append, leavesAll_append]
    refine (hc.leaves.append (ih hrest)).trans ?_
    rw [append_assoc, append_assoc]
    refine Perm.append_left _ ?_
    rw [← append_assoc, ← append_assoc]
    exact Perm.append_right _ perm_append_comm

lemma clean_splitAll (h : ∀ c ∈ children, Divides d leaf negated c.value (c.split negated)) :
    ∀ q ∈ (splitAll negated children).1, ¬ Occurs d q := by
  induction children with
  | nil => simp [splitAll]
  | cons c rest ih =>
    obtain ⟨hc, hrest⟩ := forall_mem_cons.mp h
    rw [splitAll, forall_mem_append]
    exact ⟨fun q hq => hc.clean q (Option.mem_toList.mp hq), ih hrest⟩

/-- An aggregate in a connection is in one of its parts. -/
lemma clean_connection {p : Predicate} (hne : p.children ≠ []) :
    ¬ Occurs d p ↔ ∀ c ∈ p.children, ¬ Occurs d c := by
  constructor
  · exact fun h c hc hoccurs => h (.child hc hoccurs)
  · intro h hoccurs
    cases hoccurs with
    | child hc hoccurs => exact h _ hc hoccurs
    | _ => contradiction

/-- **The split of a tree**, under either polarity: it stands when both parts stand, both parts
together have its leaves, and the first one is free of aggregates. -/
theorem split_spec {node : AggregatePredicate} (h : Inspected d node) (negated : Bool) :
    Divides d leaf negated node.value (node.split negated) := by
  induction h generalizing negated with
  | @mk p aggregate children hchildren hclean _ ih =>
    unfold AggregatePredicate.split
    split_ifs with hrow hwhole
    · exact ⟨by simp [AggregatePredicate.value], by simp [AggregatePredicate.value],
        by simp [AggregatePredicate.value, leavesAll], by
          simpa using hclean (by simpa using hrow)⟩
    · exact ⟨by simp [AggregatePredicate.value], by simp [AggregatePredicate.value],
        by simp [AggregatePredicate.value, leavesAll], by simp⟩
    · -- The connection is a conjunction under its polarity, and so are both of its parts.
      rw [Bool.or_eq_true, not_or] at hwhole
      have hconnected : connected p.connector (negated != p.negated) = false := by
        simpa using hwhole.2
      have hne : p.children ≠ [] := by
        rw [hchildren]
        simpa using hwhole.1
      have ih := fun c hc => ih c hc (negated != p.negated)
      show Divides d leaf negated p
        (regroup p (splitAll (negated != p.negated) children).1,
          regroup p (splitAll (negated != p.negated) children).2)
      refine ⟨?_, ?_, ?_, ?_⟩
      · rw [compiles_connection hne hconnected, hchildren,
          forall_splitAll fun c hc => (ih c hc).compiles]
        exact and_congr
          (forall_regroup fun hparts => compiles_connection hparts hconnected).symm
          (forall_regroup fun hparts => compiles_connection hparts hconnected).symm
      · rw [stands_connection hne hconnected, hchildren,
          forall_splitAll fun c hc => (ih c hc).stands]
        exact and_congr
          (forall_regroup fun hparts => stands_connection hparts hconnected).symm
          (forall_regroup fun hparts => stands_connection hparts hconnected).symm
      · rw [leaves_of_children hne, hchildren, leavesAll_regroup, leavesAll_regroup]
        exact leaves_splitAll ih
      · refine (forall_regroup fun hparts => ?_).mpr (clean_splitAll ih)
        exact @clean_connection d (p.withChildren _) hparts

end Split

/-! ## The filter and its parts -/

/-- The names of the aliases are free of the path separator, as the compiler requires. -/
def PlainAliases (aliases : List Projection) : Prop :=
  ∀ a ∈ aliases, cutPath a.aliasName.toList = none

instance (aliases : List Projection) : Decidable (PlainAliases aliases) :=
  inferInstanceAs (Decidable (∀ a ∈ aliases, cutPath a.aliasName.toList = none))

/-- A filter: what says nothing holds. -/
def Predicate.Holds (leaf : Predicate → Truth) (p : Predicate) : Prop := p.Stands leaf false

lemma splitDetector_plain {schema : Schema} {aliases : List Projection}
    (h : PlainAliases aliases) : (splitDetector schema aliases).Plain := by
  intro name a ha
  have hmem := FinMap.mem_of_get?_ofList ha
  obtain ⟨b, hb, heq⟩ := mem_map.mp hmem
  obtain ⟨rfl, rfl⟩ := Prod.mk.inj heq
  exact h b hb

lemma forall_mem_iff_getD {Q : Predicate → Prop} (hempty : Q .empty) (o : Option Predicate) :
    (∀ q ∈ o, Q q) ↔ Q (o.getD .empty) := by
  rcases o with _ | q
  · simpa using hempty
  · simp

lemma leavesAll_toList (o : Option Predicate) : leavesAll o.toList = (o.getD .empty).leaves := by
  rcases o with _ | q
  · rfl
  · exact append_nil _

/-- **The split of a filter preserves its meaning.** When the names of the aliases are free of the path
separator: whatever truth values the leaves have, the compiler takes the filter exactly when it takes
both parts, and the filter holds exactly when both parts hold; `WHERE` mentions no aggregate, not even
through aliases; and the leaves of the filter are those of the two parts. -/
theorem split_preserves_meaning {schema : Schema} {predicate : Predicate}
    {aliases : List Projection} {parts : Predicate × Predicate} (haliases : PlainAliases aliases)
    (h : splitAggregateFilters schema predicate aliases = .ok parts) :
    (∀ leaf, (predicate.Compiles leaf ↔ parts.1.Compiles leaf ∧ parts.2.Compiles leaf) ∧
      (predicate.Holds leaf ↔ parts.1.Holds leaf ∧ parts.2.Holds leaf)) ∧
    ¬ Occurs (splitDetector schema aliases) parts.1 ∧
    predicate.leaves.Perm (parts.1.leaves ++ parts.2.leaves) := by
  unfold splitAggregateFilters at h
  obtain ⟨⟨node, m⟩, hnode, h⟩ := bind_eq_ok.mp h
  obtain rfl := Except.ok.inj h
  obtain ⟨rfl, hinspected⟩ := inspected_of_predicate (splitDetector_plain haliases) ⟨0, m, hnode⟩
  have hspec := fun leaf => @split_spec _ leaf _ hinspected false
  have hempty : ∀ leaf, Predicate.empty.truth leaf = .ok none := fun _ => rfl
  refine ⟨fun leaf => ⟨?_, ?_⟩, ?_, ?_⟩
  · rw [(hspec leaf).compiles, forall_mem_iff_getD ⟨_, hempty leaf⟩,
      forall_mem_iff_getD ⟨_, hempty leaf⟩]
  · rw [Predicate.Holds, (hspec leaf).stands, forall_mem_iff_getD (.inl (hempty leaf)),
      forall_mem_iff_getD (.inl (hempty leaf))]
    rfl
  · have hclean := (hspec fun _ => .true).clean
    rwa [forall_mem_iff_getD (Q := fun q => ¬ Occurs (splitDetector schema aliases) q)] at hclean
    intro hoccurs
    cases hoccurs with
    | left _ hleft _ => cases hleft
    | operand _ hvalue _ => cases hvalue
    | member _ _ hvalue _ _ => cases hvalue
    | child hc _ => cases hc
  · rw [← leavesAll_toList, ← leavesAll_toList]
    exact (hspec fun _ => .true).leaves

/-- The number of rows, under an alias. -/
def rowCount (aliasName : String) : Projection :=
  ⟨aliasName, .mk .function "count" [.reference "*"] none []⟩

/-- A comparison of a field. -/
def comparison (field lookup text : String) : Predicate :=
  .mk field lookup (.datum text) [] .unset false none

/-- A negated disjunction. -/
def neither (parts : List Predicate) : Predicate := .mk "" "" .null parts .or true none

/-- A negated disjunction is cut: its row filter and its group filter are negated disjunctions. -/
theorem negated_disjunction_splits :
    splitAggregateFilters {} (neither [comparison "price" "gt" "5", comparison "total" "lt" "2"])
        [rowCount "total"] =
      .ok (neither [comparison "price" "gt" "5"], neither [comparison "total" "lt" "2"]) ∧
    ∀ leaf, ((neither [comparison "price" "gt" "5", comparison "total" "lt" "2"]).Holds leaf ↔
      (neither [comparison "price" "gt" "5"]).Holds leaf ∧
        (neither [comparison "total" "lt" "2"]).Holds leaf) := by
  have hsplit : splitAggregateFilters {}
      (neither [comparison "price" "gt" "5", comparison "total" "lt" "2"]) [rowCount "total"] =
      .ok (neither [comparison "price" "gt" "5"], neither [comparison "total" "lt" "2"]) := by
    rfl
  exact ⟨hsplit, fun leaf => ((split_preserves_meaning (by decide) hsplit).1 leaf).2⟩

/-- An alias whose name has the path separator is not found by the detector, which looks for the part
before it: a filter on it is taken for a filter on rows. -/
theorem alias_path_goes_to_where :
    let filter := comparison "total__rows" "gt" "1"
    splitAggregateFilters {} filter [rowCount "total__rows"] = .ok (filter, .empty) ∧
      Occurs (splitDetector {} [rowCount "total__rows"]) filter := by
  refine ⟨rfl, .left rfl rfl (.reference (a := rowCount "total__rows") rfl rfl ?_)⟩
  exact .function rfl (by decide)

end Gogo.SqlCompiler

import Gogo.Lib.Run
import Mathlib.Data.List.Infix
import Mathlib.Data.List.Nodup

/-!
# Depth-first traversal with cycle detection

The vertices that a traversal may meet are those on which `next` is defined; it gives the
dependencies of a vertex. A vertex is finished, and appended to the order, once its dependencies
are; a vertex met again on its own path is a cycle, and a vertex without dependencies on record is
missing. The depth of the traversal is bounded by fuel.

* `Ordered next l` — every vertex of `l` is known and has its dependencies in front of it.
* `visit_spec`, `visitAll_spec` — **what a traversal returns extends the order it started from, has
  no repetition, is ordered, and ends with the vertices asked for.**
-/

namespace Gogo.Lib

open List

/-- Why a traversal stops. -/
inductive TraversalError (κ : Type)
  | cycle (k : κ)
  | missing (k : κ)
deriving DecidableEq

section DepthFirst

variable {κ : Type} [DecidableEq κ]

/-- Visit a vertex: `path` holds the vertices being visited, `order` those that are finished. -/
def visit (next : κ → Option (List κ)) :
    ℕ → List κ → List κ → κ → Except (TraversalError κ) (List κ)
  | 0, _, _, k => .error (.cycle k)
  | fuel + 1, path, order, k =>
    if k ∈ path then .error (.cycle k)
    else if k ∈ order then .ok order
    else
      match next k with
      | none => .error (.missing k)
      | some dependencies => do
        let order ← run (visit next fuel (k :: path)) order dependencies
        .ok (order ++ [k])

/-- Visit the vertices of a list one after the other. -/
def visitAll (next : κ → Option (List κ)) (fuel : ℕ) (keys : List κ) :
    Except (TraversalError κ) (List κ) :=
  run (visit next fuel []) [] keys

omit [DecidableEq κ] in
/-- Every vertex is known and has its dependencies in front of it. -/
def Ordered (next : κ → Option (List κ)) (l : List κ) : Prop :=
  ∀ before k after, l = before ++ k :: after →
    ∃ dependencies, next k = some dependencies ∧ ∀ d ∈ dependencies, d ∈ before

variable {next : κ → Option (List κ)} {fuel : ℕ} {path order order' : List κ} {k : κ}

/-! ## Ordered lists -/

omit [DecidableEq κ]

lemma ordered_nil : Ordered next [] := by
  intro before k after h
  simp at h

lemma Ordered.append_singleton (h : Ordered next order) {dependencies : List κ}
    (hk : next k = some dependencies) (hmem : ∀ d ∈ dependencies, d ∈ order) :
    Ordered next (order ++ [k]) := by
  intro before k' after heq
  rcases eq_nil_or_concat after with rfl | ⟨after, last, rfl⟩
  · obtain ⟨rfl, hlast⟩ := append_inj' heq rfl
    obtain rfl := singleton_inj.mp hlast
    exact ⟨dependencies, hk, hmem⟩
  · rw [concat_eq_append, ← cons_append, ← append_assoc] at heq
    obtain ⟨rfl, -⟩ := append_inj' heq rfl
    exact h before k' after rfl

/-- The dependencies of a vertex are on the list with it. -/
lemma Ordered.closed (h : Ordered next order) (hk : k ∈ order) :
    ∃ dependencies, next k = some dependencies ∧ ∀ d ∈ dependencies, d ∈ order := by
  obtain ⟨before, after, rfl⟩ := append_of_mem hk
  obtain ⟨dependencies, hnext, hmem⟩ := h before k after rfl
  exact ⟨dependencies, hnext, fun d hd => mem_append_left _ (hmem d hd)⟩

/-! ## What a traversal returns -/

/-- What a traversal makes of the finished vertices. -/
structure Extends (next : κ → Option (List κ)) (path order order' : List κ) : Prop where
  isPrefix : order <+: order'
  nodup : order'.Nodup
  ordered : Ordered next order'
  avoids : ∀ p ∈ path, p ∉ order → p ∉ order'

lemma Extends.refl (hnodup : order.Nodup) (hordered : Ordered next order) :
    Extends next path order order :=
  ⟨prefix_rfl, hnodup, hordered, fun _ _ h => h⟩

lemma Extends.trans {order'' : List κ} (h : Extends next path order order')
    (h' : Extends next path order' order'') : Extends next path order order'' :=
  ⟨h.isPrefix.trans h'.isPrefix, h'.nodup, h'.ordered,
    fun p hp hnot => h'.avoids p hp (h.avoids p hp hnot)⟩

variable {keys : List κ}

/-- A run of visits extends the order and finishes every vertex of the list, when a visit does. -/
lemma run_extends (path : List κ) {step : List κ → κ → Except (TraversalError κ) (List κ)}
    (hstep : ∀ order order' k, order.Nodup → Ordered next order → step order k = .ok order' →
      Extends next path order order' ∧ k ∈ order') (hnodup : order.Nodup)
    (hordered : Ordered next order) (h : run step order keys = .ok order') :
    Extends next path order order' ∧ ∀ k ∈ keys, k ∈ order' := by
  induction keys generalizing order with
  | nil =>
    cases h
    exact ⟨.refl hnodup hordered, fun k hk => by cases hk⟩
  | cons k rest ih =>
    obtain ⟨mid, hmid, hrest⟩ := run_cons_eq_ok.mp h
    obtain ⟨hext, hk⟩ := hstep order mid k hnodup hordered hmid
    obtain ⟨hext', hall⟩ := ih hext.nodup hext.ordered hrest
    refine ⟨hext.trans hext', fun k' hk' => ?_⟩
    rcases mem_cons.mp hk' with rfl | hk'
    · exact hext'.isPrefix.subset hk
    · exact hall k' hk'

variable [DecidableEq κ]

/-- **A visit extends the order and finishes its vertex.** -/
theorem visit_spec (hnodup : order.Nodup) (hordered : Ordered next order)
    (h : visit next fuel path order k = .ok order') :
    Extends next path order order' ∧ k ∈ order' := by
  induction fuel generalizing path order order' k with
  | zero => cases h
  | succ fuel ih =>
    unfold visit at h
    split_ifs at h with hpath hdone
    · cases h
      exact ⟨.refl hnodup hordered, hdone⟩
    rcases hnext : next k with _ | dependencies
    · rw [hnext] at h
      cases h
    rw [hnext] at h
    obtain ⟨mid, hmid, h⟩ := bind_eq_ok.mp h
    cases h
    obtain ⟨hext, hall⟩ := run_extends (k :: path)
      (fun o o' d hn ho hv => ih hn ho hv) hnodup hordered hmid
    -- the vertex is on the path of its dependencies, so they did not finish it
    have hfresh : k ∉ mid := hext.avoids k mem_cons_self hdone
    refine ⟨⟨hext.isPrefix.trans (prefix_append _ _), ?_, ?_, ?_⟩, by simp⟩
    · exact Nodup.append hext.nodup (nodup_singleton k) (by simpa using hfresh)
    · exact hext.ordered.append_singleton hnext hall
    · intro p hp hnot hmem
      rcases mem_append.mp hmem with hmem | hmem
      · exact hext.avoids p (mem_cons_of_mem _ hp) hnot hmem
      · exact hpath (mem_singleton.mp hmem ▸ hp)

/-- **A traversal returns an ordered list without repetition that has the vertices asked for.** -/
theorem visitAll_spec (h : visitAll next fuel keys = .ok order') :
    order'.Nodup ∧ Ordered next order' ∧ ∀ k ∈ keys, k ∈ order' := by
  obtain ⟨hext, hall⟩ := run_extends [] (fun o o' d hn ho hv => visit_spec hn ho hv)
    nodup_nil ordered_nil h
  exact ⟨hext.nodup, hext.ordered, hall⟩

/-! ## When a traversal succeeds -/

/-- Vertices without dependencies are finished in the order in which they are visited. -/
lemma visitAll_of_isolated (hnodup : keys.Nodup) (h : ∀ k ∈ keys, next k = some []) :
    visitAll next (fuel + 1) keys = .ok keys := by
  have hrun : ∀ done, (done ++ keys).Nodup →
      run (visit next (fuel + 1) []) done keys = .ok (done ++ keys) := by
    clear hnodup
    induction keys with
    | nil => exact fun done _ => by rw [append_nil, run_nil]
    | cons k rest ih =>
      intro done hnodup
      have hfresh : k ∉ done := fun hmem =>
        (nodup_append.mp hnodup).2.2 k hmem k mem_cons_self rfl
      have hassoc : done ++ k :: rest = (done ++ [k]) ++ rest := by simp
      have hk : visit next (fuel + 1) [] done k = .ok (done ++ [k]) := by
        unfold visit
        rw [if_neg not_mem_nil, if_neg hfresh, h k mem_cons_self]
        rfl
      rw [run_cons, hk, hassoc]
      exact ih (fun k' hk' => h k' (mem_cons_of_mem _ hk')) _ (hassoc ▸ hnodup)
  exact hrun [] hnodup

end DepthFirst

end Gogo.Lib

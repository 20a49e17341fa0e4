import Gogo.Lib.DepthFirst
import Mathlib.Logic.Relation

/-!
# Which traversals succeed, and what they list

The traversal of `Gogo.Lib.DepthFirst` against the dependency relation it walks: it has no say in
what is listed and none in whether it gets there.

* `Depends next` — the edges; `Reachable next keys` — what the vertices of a list need, with the
  vertices themselves.
* `Sound next k` — everything a vertex needs is known, and nothing of it needs itself.
* `visitAll_mem_iff` — **a traversal lists exactly what the vertices asked for need.**
* `visitAll_exists_iff` — **it succeeds exactly when every vertex asked for is sound.**
-/

namespace Gogo.Lib

open List Relation

section Reachable

variable {κ : Type} {next : κ → Option (List κ)} {l order order' path keys : List κ} {k : κ}
  {fuel : ℕ}

/-- A vertex and one of its dependencies. -/
def Depends (next : κ → Option (List κ)) (k d : κ) : Prop :=
  ∃ dependencies, next k = some dependencies ∧ d ∈ dependencies

/-- What the vertices of a list need, with the vertices themselves. -/
def Reachable (next : κ → Option (List κ)) (keys : List κ) (k : κ) : Prop :=
  ∃ root ∈ keys, ReflTransGen (Depends next) root k

/-- Everything that a vertex needs is known, and nothing of it needs itself. -/
structure Sound (next : κ → Option (List κ)) (k : κ) : Prop where
  known : ∀ d, ReflTransGen (Depends next) k d → (next d).isSome = true
  acyclic : ∀ d, ReflTransGen (Depends next) k d → ¬ TransGen (Depends next) d d

variable {d v : κ}

lemma Depends.known (h : Depends next k d) : (next k).isSome = true := by
  obtain ⟨dependencies, hnext, -⟩ := h
  rw [hnext]
  rfl

lemma Sound.dependency (h : Sound next k) (hd : Depends next k d) : Sound next d :=
  ⟨fun e he => h.known e (.head hd he), fun e he => h.acyclic e (.head hd he)⟩

/-! ## Ordered lists -/

lemma Ordered.mem_of_depends (h : Ordered next l) {before after : List κ}
    (hl : l = before ++ k :: after) (hd : Depends next k d) : d ∈ before := by
  obtain ⟨dependencies, hnext, hmem⟩ := h before k after hl
  obtain ⟨dependencies', hnext', hd⟩ := hd
  obtain rfl := Option.some.inj (hnext.symm.trans hnext')
  exact hmem _ hd

/-- What a vertex of an ordered list needs stands in front of it. -/
lemma Ordered.needs (h : Ordered next l) {before after : List κ} (hl : l = before ++ k :: after)
    (hd : TransGen (Depends next) k d) : d ∈ before := by
  induction hd with
  | single hedge => exact h.mem_of_depends hl hedge
  | @tail b d _ hedge ih =>
    obtain ⟨front, rest, rfl⟩ := append_of_mem ih
    have hb : l = front ++ b :: (rest ++ k :: after) := by rw [hl, append_assoc, cons_append]
    exact mem_append_left _ (h.mem_of_depends hb hedge)

/-- An ordered list is closed under dependencies. -/
lemma Ordered.mem_of_reaches (h : Ordered next l) (hk : k ∈ l)
    (hd : ReflTransGen (Depends next) k d) : d ∈ l := by
  rcases reflTransGen_iff_eq_or_transGen.mp hd with rfl | hd
  · exact hk
  · obtain ⟨before, after, hl⟩ := append_of_mem hk
    rw [hl]
    exact mem_append_left _ (h.needs hl hd)

/-- The vertices of an ordered list without repetition are sound. -/
lemma Ordered.sound (h : Ordered next l) (hnodup : l.Nodup) (hk : k ∈ l) : Sound next k := by
  refine ⟨fun d hd => ?_, fun d hd hcycle => ?_⟩
  · obtain ⟨dependencies, hnext, -⟩ := h.closed (h.mem_of_reaches hk hd)
    rw [hnext]
    rfl
  · obtain ⟨before, after, rfl⟩ := append_of_mem (h.mem_of_reaches hk hd)
    have hbefore := h.needs rfl hcycle
    exact (nodup_append.mp hnodup).2.2 d hbefore d mem_cons_self rfl

/-! ## What a traversal lists -/

/-- What a run adds is needed by a vertex of its list, when a step adds nothing else. -/
lemma run_adds_needed {step : List κ → κ → Except (TraversalError κ) (List κ)}
    (hstep : ∀ order order' k, step order k = .ok order' → ∀ v ∈ order', v ∈ order ∨ ReflTransGen
      (Depends next) k v) (h : run step order keys = .ok order') (hv : v ∈ order') :
    v ∈ order ∨ Reachable next keys v := by
  induction keys generalizing order with
  | nil =>
    cases h
    exact .inl hv
  | cons k rest ih =>
    obtain ⟨mid, hmid, hrest⟩ := run_cons_eq_ok.mp h
    rcases ih hrest with hin | ⟨root, hroot, hreach⟩
    · rcases hstep order mid k hmid v hin with hin | hreach
      · exact .inl hin
      · exact .inr ⟨k, mem_cons_self, hreach⟩
    · exact .inr ⟨root, mem_cons_of_mem _ hroot, hreach⟩

variable [DecidableEq κ]

/-- What a visit adds is needed by its vertex. -/
lemma visit_adds_needed (h : visit next fuel path order k = .ok order') (hv : v ∈ order') :
    v ∈ order ∨ ReflTransGen (Depends next) k v := by
  induction fuel generalizing path order order' k v with
  | zero => cases h
  | succ fuel ih =>
    unfold visit at h
    split_ifs at h with hpath hdone
    · cases h
      exact .inl hv
    rcases hnext : next k with _ | dependencies
    · rw [hnext] at h
      cases h
    rw [hnext] at h
    obtain ⟨mid, hmid, h⟩ := bind_eq_ok.mp h
    cases h
    rcases mem_append.mp hv with hv | hv
    · rcases run_adds_needed (fun _ _ _ hstep _ hin => ih hstep hin) hmid hv with
        hin | ⟨d, hd, hreach⟩
      · exact .inl hin
      · exact .inr (.head ⟨dependencies, hnext, hd⟩ hreach)
    · rw [mem_singleton.mp hv]
      exact .inr .refl

/-- **A traversal lists exactly what the vertices asked for need.** -/
theorem visitAll_mem_iff (h : visitAll next fuel keys = .ok order') :
    v ∈ order' ↔ Reachable next keys v := by
  obtain ⟨-, hordered, hroots⟩ := visitAll_spec h
  constructor
  · intro hv
    rcases run_adds_needed (fun _ _ _ hstep _ hin => visit_adds_needed hstep hin) h hv with
      hin | hreach
    · cases hin
    · exact hreach
  · rintro ⟨root, hroot, hreach⟩
    exact hordered.mem_of_reaches (hroots root hroot) hreach

/-! ## When a traversal succeeds -/

/-- A sound vertex is visited, with fuel for as many levels as there are known vertices. -/
lemma visit_total {known : List κ} (hknown : ∀ v, (next v).isSome = true → v ∈ known)
    (hnodup : path.Nodup) (hpath : ∀ p ∈ path, TransGen (Depends next) p k)
    (hk : Sound next k) (hfuel : known.length < fuel + path.length) (order : List κ) :
    ∃ order', visit next fuel path order k = .ok order' := by
  induction fuel generalizing path order k with
  | zero =>
    -- the path has no repetition and only known vertices, so it is not longer than they are
    have hsub : path ⊆ known := by
      intro p hp
      obtain ⟨d, hedge, -⟩ := TransGen.head'_iff.mp (hpath p hp)
      exact hknown p hedge.known
    have hle := (hnodup.subperm hsub).length_le
    omega
  | succ fuel ih =>
    have hnot : k ∉ path := fun hmem => hk.acyclic k .refl (hpath k hmem)
    unfold visit
    rw [if_neg hnot]
    split_ifs with hdone
    · exact ⟨order, rfl⟩
    obtain ⟨dependencies, hnext⟩ := Option.isSome_iff_exists.mp (hk.known k .refl)
    obtain ⟨order', horder'⟩ := @run_total _ _ _ (visit next fuel (k :: path)) dependencies
      (fun o d hd => by
        have hedge : Depends next k d := ⟨dependencies, hnext, hd⟩
        have hpath' : ∀ p ∈ k :: path, TransGen (Depends next) p d := by
          intro p hp
          rcases mem_cons.mp hp with rfl | hp
          · exact .single hedge
          · exact .tail (hpath p hp) hedge
        exact ih (nodup_cons.mpr ⟨hnot, hnodup⟩) hpath' (hk.dependency hedge)
          (by rw [length_cons]; omega) o) order
    rw [hnext]
    exact ⟨order' ++ [k], bind_eq_ok.mpr ⟨order', horder', rfl⟩⟩

/-- **A traversal succeeds exactly when every vertex asked for is sound.** -/
theorem visitAll_exists_iff {known : List κ} (hknown : ∀ v, (next v).isSome = true → v ∈ known)
    (hfuel : known.length < fuel) :
    (∃ order', visitAll next fuel keys = .ok order') ↔ ∀ k ∈ keys, Sound next k := by
  constructor
  · rintro ⟨order', h⟩ k hk
    obtain ⟨hnodup, hordered, hroots⟩ := visitAll_spec h
    exact hordered.sound hnodup (hroots k hk)
  · intro hsound
    exact run_total (fun order k hk => visit_total hknown nodup_nil (fun p hp => by cases hp)
      (hsound k hk) (by simpa using hfuel) order) []

end Reachable

end Gogo.Lib

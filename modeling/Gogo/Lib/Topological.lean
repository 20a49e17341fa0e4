import Mathlib.Data.List.Basic
import Mathlib.Data.List.Nodup
import Mathlib.Data.List.Range
import Mathlib.Tactic

/-!
# Topological orders by indegree counting

The vertices are the numbers below `n` and the edges a list of pairs without repetition. The
scheduler keeps the indegree of every vertex and a pool of ready vertices; each turn takes the
least ready vertex, emits it, lowers the indegree of its children and adds those that reach zero.

* `Before l i j` — `i` occurs before `j` in `l`.
* `IsTopological n edges l` — `l` lists every vertex once and every edge leads forward.
* `schedule_eq_some` — **an order that is returned is topological.**
-/

namespace Gogo.Lib

open List

/-! ## Orders -/

/-- `i` occurs before `j` in the list. -/
def Before {α : Type} (l : List α) (i j : α) : Prop := [i, j].Sublist l

variable {α : Type}

lemma before_append_singleton {l : List α} {x i j : α} :
    Before (l ++ [x]) i j ↔ Before l i j ∨ (i ∈ l ∧ j = x) := by
  unfold Before
  rw [sublist_append_iff]
  constructor
  · rintro ⟨l₁, l₂, heq, h₁, h₂⟩
    rcases sublist_singleton.mp h₂ with rfl | rfl
    · rw [append_nil] at heq
      exact .inl (heq ▸ h₁)
    · have hlast : l₁ = [i] ∧ x = j := by
        have : [i] ++ [j] = l₁ ++ [x] := heq
        obtain ⟨h, h'⟩ := append_inj' this rfl
        exact ⟨h.symm, (singleton_inj.mp h').symm⟩
      obtain ⟨rfl, rfl⟩ := hlast
      exact .inr ⟨singleton_sublist.mp h₁, rfl⟩
  · rintro (h | ⟨hi, rfl⟩)
    · exact ⟨[i, j], [], by simp, h, by simp⟩
    · exact ⟨[i], [j], rfl, singleton_sublist.mpr hi, Sublist.refl _⟩

lemma before_iff_idxOf [DecidableEq α] {l : List α} (hl : l.Nodup) {i j : α} :
    Before l i j ↔ l.idxOf i < l.idxOf j ∧ j ∈ l := by
  unfold Before
  induction l with
  | nil => simp
  | cons x rest ih =>
    rw [nodup_cons] at hl
    rw [sublist_cons_iff, ih hl.2]
    by_cases hi : x = i
    · subst hi
      have hself : ¬ (List.idxOf x rest < List.idxOf j rest ∧ j ∈ rest) := by
        rintro ⟨hlt, -⟩
        have := idxOf_eq_length_iff.mpr hl.1
        have := idxOf_le_length (a := j) (l := rest)
        omega
      by_cases hj : x = j
      · subst hj
        simp [hl.1]
      · simp [hself, idxOf_cons_ne _ hj, Ne.symm hj]
    · by_cases hj : x = j
      · subst hj
        simp [Ne.symm hi, hl.1]
      · simp [idxOf_cons_ne _ hi, idxOf_cons_ne _ hj, Ne.symm hi, Ne.symm hj]

lemma Before.trans {l : List α} {i j k : α} (hl : l.Nodup) (h : Before l i j) (h' : Before l j k) :
    Before l i k := by
  classical
  rw [before_iff_idxOf hl] at *
  exact ⟨h.1.trans h'.1, h'.2⟩

lemma Before.asymm {l : List α} {i j : α} (hl : l.Nodup) (h : Before l i j) : ¬ Before l j i := by
  classical
  rw [before_iff_idxOf hl] at *
  exact fun h' => lt_asymm h.1 h'.1

/-- A selection of positions whose order is kept is the same before and after a reordering. -/
lemma filter_eq_of_before {n : ℕ} {order : List ℕ} (hperm : order.Perm (List.range n))
    {test : ℕ → Bool}
    (h : ∀ i j, i < j → j < n → test i = true → test j = true → Before order i j) :
    order.filter test = (List.range n).filter test := by
  have hnodup : order.Nodup := hperm.nodup_iff.mpr nodup_range
  refine @Perm.eq_of_pairwise _ (· < ·) _ _ (fun a b _ _ hab hba => ?_) ?_ ?_
    (hperm.filter test)
  · exact absurd hba (lt_asymm hab)
  · rw [pairwise_iff_forall_sublist]
    intro i j hij
    have hmem : ∀ x ∈ [i, j], x < n ∧ test x = true := by
      intro x hx
      have := mem_filter.mp (hij.subset hx)
      exact ⟨mem_range.mp (hperm.mem_iff.mp this.1), this.2⟩
    have hbefore : Before order i j := hij.trans filter_sublist
    rcases lt_trichotomy i j with hlt | rfl | hgt
    · exact hlt
    · exact absurd hbefore (hbefore.asymm hnodup)
    · exact absurd hbefore
        ((h j i hgt (hmem i (by simp)).1 (hmem j (by simp)).2 (hmem i (by simp)).2).asymm hnodup)
  · exact pairwise_lt_range.filter test

/-- A list in which no chosen element follows an unchosen one splits into the two. -/
lemma eq_filter_append_filter {l : List α} {test : α → Bool}
    (h : l.Pairwise fun a b => test b = true → test a = true) :
    l = l.filter test ++ l.filter fun a => !test a := by
  induction l with
  | nil => rfl
  | cons a rest ih =>
    rw [pairwise_cons] at h
    by_cases ha : test a = true
    · rw [filter_cons_of_pos ha, filter_cons_of_neg (by simp [ha]), cons_append,
        ← ih h.2]
    · have hrest : ∀ b ∈ rest, ¬ test b = true := fun b hb htest => ha (h.1 b hb htest)
      have hnil : rest.filter test = [] := filter_eq_nil_iff.mpr hrest
      have hall : (rest.filter fun a => !test a) = rest :=
        filter_eq_self.mpr fun b hb => by simpa using hrest b hb
      rw [filter_cons_of_neg ha, filter_cons_of_pos (by simpa using ha), hnil, hall]
      rfl

/-- The list holds every vertex below `n` once, and every edge leads forward. -/
structure IsTopological (n : ℕ) (edges : List (ℕ × ℕ)) (l : List ℕ) : Prop where
  perm : l.Perm (List.range n)
  forward : ∀ i j, (i, j) ∈ edges → Before l i j

/-! ## The scheduler -/

/-- The vertices an edge leads to from `i`. -/
def children (edges : List (ℕ × ℕ)) (i : ℕ) : List ℕ :=
  (edges.filter fun e => e.1 = i).map Prod.snd

/-- The number of edges into `j` whose source has not been emitted. -/
def waiting (edges : List (ℕ × ℕ)) (emitted : List ℕ) (j : ℕ) : ℕ :=
  edges.countP fun e => e.2 = j ∧ e.1 ∉ emitted

/-- The loop of the scheduler, for at most `fuel` turns. -/
def scheduleLoop (edges : List (ℕ × ℕ)) : ℕ → (ℕ → ℕ) → List ℕ → List ℕ → List ℕ
  | 0, _, _, emitted => emitted
  | fuel + 1, indegree, ready, emitted =>
    match ready.min? with
    | none => emitted
    | some next =>
      let below := children edges next
      let indegree' := fun j => if j ∈ below then indegree j - 1 else indegree j
      let ready' := ready.erase next ++ below.filter fun j => indegree' j = 0
      scheduleLoop edges fuel indegree' ready' (emitted ++ [next])

/-- All vertices in scheduling order; `none` when some vertex never becomes ready. Every turn
emits a vertex, so that `n` turns are enough. -/
def schedule (n : ℕ) (edges : List (ℕ × ℕ)) : Option (List ℕ) :=
  let indegree := fun j => waiting edges [] j
  let ready := (List.range n).filter fun j => indegree j = 0
  let order := scheduleLoop edges n indegree ready []
  if order.length = n then some order else none

/-! ## The invariant of the loop -/

section Loop

variable {n : ℕ} {edges : List (ℕ × ℕ)} {indegree : ℕ → ℕ} {ready emitted : List ℕ}

/-- What the loop keeps. -/
structure LoopInv (n : ℕ) (edges : List (ℕ × ℕ)) (indegree : ℕ → ℕ) (ready emitted : List ℕ) :
    Prop where
  nodup : (emitted ++ ready).Nodup
  /-- The indegree counts the edges that still hold a vertex back. -/
  counts : ∀ j, indegree j = waiting edges emitted j
  /-- A vertex has left the waiting state exactly when nothing holds it back. -/
  released : ∀ j, j ∈ emitted ++ ready ↔ j < n ∧ waiting edges emitted j = 0
  forward : ∀ i j, (i, j) ∈ edges → j ∈ emitted → Before emitted i j

variable {j next : ℕ}

lemma mem_children {i : ℕ} : j ∈ children edges i ↔ (i, j) ∈ edges := by
  simp [children]

lemma nodup_children (hedges : edges.Nodup) (i : ℕ) : (children edges i).Nodup := by
  refine Nodup.map_on ?_ (hedges.filter _)
  rintro ⟨a, b⟩ hab ⟨c, d⟩ hcd heq
  simp only [mem_filter, decide_eq_true_eq] at hab hcd
  simp only at heq
  rw [heq, hab.2, hcd.2]

/-- Emitting a vertex releases one edge into each of its children. -/
lemma waiting_append (hedges : edges.Nodup) (hnext : next ∉ emitted) (j : ℕ) :
    waiting edges (emitted ++ [next]) j =
      if j ∈ children edges next then waiting edges emitted j - 1 else waiting edges emitted j := by
  have hsplit : waiting edges emitted j =
      waiting edges (emitted ++ [next]) j + edges.count (next, j) := by
    unfold waiting
    clear hedges
    induction edges with
    | nil => simp
    | cons e rest ih =>
      rw [countP_cons, countP_cons, count_cons, ih]
      obtain ⟨a, b⟩ := e
      by_cases hb : b = j
      · by_cases ha : a = next
        · subst ha hb
          simp [hnext]
          omega
        · simp [hb, ha]
          omega
      · simp [hb]
  have hcount := nodup_iff_count_le_one.mp hedges (next, j)
  split_ifs with hj
  · rw [mem_children] at hj
    have hpos := count_pos_iff.mpr hj
    omega
  · rw [mem_children] at hj
    have hzero := count_eq_zero.mpr hj
    omega

lemma waiting_eq_zero : waiting edges emitted j = 0 ↔ ∀ i, (i, j) ∈ edges → i ∈ emitted := by
  unfold waiting
  rw [countP_eq_zero]
  constructor
  · intro h i hij
    have := h (i, j) hij
    simpa using this
  · rintro h ⟨i, k⟩ hik
    simp only [decide_eq_true_eq, not_and, not_not]
    rintro rfl
    exact h i hik

/-- One turn of the loop keeps the invariant. -/
lemma LoopInv.turn (h : LoopInv n edges indegree ready emitted) (hedges : edges.Nodup)
    (hloop : ∀ i j, (i, j) ∈ edges → i ≠ j ∧ j < n) (hnext : next ∈ ready) :
    LoopInv n edges (fun j => if j ∈ children edges next then indegree j - 1 else indegree j)
      (ready.erase next ++ (children edges next).filter fun j =>
        (if j ∈ children edges next then indegree j - 1 else indegree j) = 0)
      (emitted ++ [next]) := by
  have hdisj := nodup_append.mp h.nodup
  have hfresh : next ∉ emitted := fun hmem => (hdisj.2.2 next hmem next hnext) rfl
  have hcounts : ∀ j, (if j ∈ children edges next then indegree j - 1 else indegree j) =
      waiting edges (emitted ++ [next]) j := by
    intro j
    rw [waiting_append hedges hfresh, h.counts j]
  have hnextw : waiting edges emitted next = 0 :=
    ((h.released next).mp (mem_append_right _ hnext)).2
  -- a child of `next` was waiting for it, so it had not been released before
  have hchild : ∀ j, j ∈ children edges next → j ∉ emitted ++ ready := by
    intro j hj hmem
    have hw := ((h.released j).mp hmem).2
    exact hfresh (waiting_eq_zero.mp hw next (mem_children.mp hj))
  refine ⟨?_, hcounts, ?_, ?_⟩
  · rw [append_assoc, nodup_append]
    refine ⟨hdisj.1, ?_, ?_⟩
    · rw [singleton_append, nodup_cons]
      constructor
      · rw [mem_append, not_or]
        refine ⟨fun hmem => hdisj.2.1.not_mem_erase hmem, fun hmem => ?_⟩
        exact hchild next (mem_of_mem_filter hmem) (mem_append_right _ hnext)
      · refine Nodup.append (hdisj.2.1.erase _) ((nodup_children hedges _).filter _) ?_
        intro j hj hj'
        exact hchild j (mem_of_mem_filter hj')
          (mem_append_right _ (mem_of_mem_erase hj))
    · rintro a ha b hb rfl
      simp only [singleton_append, mem_cons, mem_append] at hb
      rcases hb with rfl | hb | hb
      · exact hfresh ha
      · exact hdisj.2.2 a ha a (mem_of_mem_erase hb) rfl
      · exact hchild a (mem_of_mem_filter hb) (mem_append_left _ ha)
  · intro j
    have hrel := h.released j
    have hw := waiting_append hedges hfresh j
    simp only [mem_append, mem_singleton, mem_filter, hcounts,
      decide_eq_true_eq] at hrel ⊢
    by_cases hj : j ∈ children edges next
    · have hnot := hchild j hj
      rw [mem_append, not_or] at hnot
      have hne : j ≠ next := by
        rintro rfl
        exact (hloop _ _ (mem_children.mp hj)).1 rfl
      have hlt : j < n := (hloop _ _ (mem_children.mp hj)).2
      have herase : j ∉ ready.erase next := fun hmem => hnot.2 (mem_of_mem_erase hmem)
      simp [hnot.1, hne, herase, hj, hlt]
    · rw [if_neg hj] at hw
      have herase : j ∈ ready.erase next ↔ j ≠ next ∧ j ∈ ready :=
        hdisj.2.1.mem_erase_iff
      rw [hw, ← hrel, herase]
      by_cases hne : j = next
      · subst hne
        simp [hnext]
      · simp [hne, hj]
  · intro i j hij hj
    rw [before_append_singleton]
    rcases mem_append.mp hj with hj | hj
    · exact .inl (h.forward i j hij hj)
    · rw [mem_singleton] at hj
      subst hj
      exact .inr ⟨waiting_eq_zero.mp hnextw i hij, rfl⟩

/-- An emitted or ready vertex is below `n`, and they are pairwise distinct. -/
lemma LoopInv.length_le (h : LoopInv n edges indegree ready emitted) :
    (emitted ++ ready).length ≤ n := by
  have hsub : (emitted ++ ready) ⊆ List.range n := fun j hj =>
    mem_range.mpr ((h.released j).mp hj).1
  simpa using (subperm_of_subset h.nodup hsub).length_le

/-- **The loop ends with an empty pool.** -/
theorem scheduleLoop_spec (hedges : edges.Nodup)
    (hloop : ∀ i j, (i, j) ∈ edges → i ≠ j ∧ j < n) (fuel : ℕ)
    (h : LoopInv n edges indegree ready emitted) (hfuel : n ≤ fuel + emitted.length) :
    ∃ indegree', LoopInv n edges indegree' [] (scheduleLoop edges fuel indegree ready emitted) := by
  induction fuel generalizing indegree ready emitted with
  | zero =>
    have hready : ready = [] := by
      have hlen := h.length_le
      rw [length_append] at hlen
      exact eq_nil_of_length_eq_zero (by omega)
    subst hready
    exact ⟨indegree, h⟩
  | succ fuel ih =>
    rw [scheduleLoop]
    cases hmin : ready.min? with
    | none =>
      rw [min?_eq_none_iff] at hmin
      subst hmin
      exact ⟨indegree, h⟩
    | some next =>
      have hnext : next ∈ ready := min?_mem hmin
      refine ih (h.turn hedges hloop hnext) ?_
      rw [length_append, length_singleton]
      omega

end Loop

/-! ## What a schedule is -/

section Schedule

variable {n : ℕ} {edges : List (ℕ × ℕ)}

lemma loopInv_initial (n : ℕ) (edges : List (ℕ × ℕ)) : LoopInv n edges (waiting edges [])
    ((List.range n).filter fun j => waiting edges [] j = 0) [] where
  nodup := by simpa using nodup_range.filter _
  counts _ := rfl
  released j := by simp
  forward i j _ hj := by simp at hj

variable {l : List ℕ}

lemma perm_range_of_nodup (hl : l.Nodup) (hlt : ∀ j ∈ l, j < n) (hlen : l.length = n) :
    l.Perm (List.range n) := by
  have hsub : l ⊆ List.range n := fun j hj => mem_range.mpr (hlt j hj)
  exact (subperm_of_subset hl hsub).perm_of_length_le (by simp [hlen])

/-- **An order that is returned is topological.** -/
theorem schedule_eq_some (hedges : edges.Nodup) (hloop : ∀ i j, (i, j) ∈ edges → i ≠ j ∧ j < n)
    (h : schedule n edges = some l) : IsTopological n edges l := by
  obtain ⟨indegree, hinv⟩ := scheduleLoop_spec hedges hloop n
    (loopInv_initial n edges) (by simp)
  simp only [schedule, Option.ite_none_right_eq_some, Option.some.injEq] at h
  obtain ⟨hlen, rfl⟩ := h
  have hperm := perm_range_of_nodup (by simpa using hinv.nodup)
    (fun j hj => ((hinv.released j).mp (by simpa using hj)).1) hlen
  refine ⟨hperm, fun i j hij => hinv.forward i j hij ?_⟩
  exact hperm.mem_iff.mpr (mem_range.mpr (hloop i j hij).2)

end Schedule

end Gogo.Lib

import Mathlib.Data.List.Basic
import Mathlib.Tactic

/-!
# Fallible steps and runs

A fallible step returns the next state or an error, and a run takes one step for every input of
a list and stops at the first error.

* `bind_eq_ok` — a sequence of two computations succeeds exactly when both do; this is how every
  proof about a fallible definition takes it apart.
* `run` — the run over a list of inputs, with `run_append`: a run over a concatenation is the
  run over the first part followed by the run over the second.
* `run_invariant` — what one step preserves, a run preserves.
* `Always` — a predicate on every state along a run of total steps.
-/

namespace Gogo.Lib

open List

variable {ε α β σ ι : Type}

variable {x : Except ε α} {f : α → Except ε β} {b : β} {a : α} {e : ε} {u : Unit} {s s' : σ}
  {l : List α} {r : List β}

lemma bind_eq_ok : x >>= f = .ok b ↔ ∃ a, x = .ok a ∧ f a = .ok b := by
  cases x with
  | error e => simp [bind, Except.bind]
  | ok a => simp [bind, Except.bind]

/-- A sequence fails as its first part does, or as what follows. -/
lemma bind_eq_error :
    x >>= f = .error e ↔ x = .error e ∨ ∃ a, x = .ok a ∧ f a = .error e := by
  cases x <;> simp [bind, Except.bind]

lemma map_eq_ok {f : α → β} : x.map f = .ok b ↔ ∃ a, x = .ok a ∧ f a = b := by
  cases x <;> simp [Except.map]

/-- Another error in place of an error leaves the results as they are. -/
lemma mapError_eq_ok {ε' : Type} {f : ε → ε'} : x.mapError f = .ok a ↔ x = .ok a := by
  cases x <;> simp [Except.mapError]

@[simp] lemma ok_bind (a : α) (f : α → Except ε β) : (Except.ok a >>= f) = f a := rfl

@[simp] lemma error_bind (e : ε) (f : α → Except ε β) : (Except.error e >>= f) = .error e := rfl

/-- Stop with an error under a condition. -/
def refuseIf (bad : Prop) [Decidable bad] (e : ε) : Except ε Unit :=
  if bad then .error e else .ok ()

lemma refuseIf_eq_ok {bad : Prop} [Decidable bad] : refuseIf bad e = .ok u ↔ ¬ bad := by
  unfold refuseIf
  split_ifs with h <;> simp [h]

/-- One step for every input, from left to right, until a step fails. -/
def run (step : σ → ι → Except ε σ) : σ → List ι → Except ε σ
  | s, [] => .ok s
  | s, i :: rest => do
    let s' ← step s i
    run step s' rest

variable {step : σ → ι → Except ε σ}

@[simp] lemma run_nil (s : σ) : run step s [] = .ok s := rfl

lemma run_cons (s : σ) (i : ι) (rest : List ι) :
    run step s (i :: rest) = (step s i >>= fun s' => run step s' rest) := rfl

lemma run_cons_eq_ok {i : ι} {rest : List ι} :
    run step s (i :: rest) = .ok s' ↔ ∃ m, step s i = .ok m ∧ run step m rest = .ok s' :=
  bind_eq_ok

lemma run_append (s : σ) (l l' : List ι) :
    run step s (l ++ l') = (run step s l >>= fun m => run step m l') := by
  induction l generalizing s with
  | nil => rfl
  | cons i rest ih =>
    rw [cons_append, run_cons, run_cons]
    cases step s i with
    | error e => rfl
    | ok m => exact ih m

lemma run_append_eq_ok {l l' : List ι} :
    run step s (l ++ l') = .ok s' ↔ ∃ m, run step s l = .ok m ∧ run step m l' = .ok s' := by
  rw [run_append, bind_eq_ok]

/-- **What every step preserves, a run preserves.** -/
theorem run_invariant {P : σ → Prop} (hstep : ∀ s i s', P s → step s i = .ok s' → P s')
    {s s' : σ} {l : List ι} (hs : P s) (h : run step s l = .ok s') : P s' := by
  induction l generalizing s with
  | nil =>
    rw [run_nil, Except.ok.injEq] at h
    exact h ▸ hs
  | cons i rest ih =>
    obtain ⟨m, hm, hrest⟩ := run_cons_eq_ok.mp h
    exact ih (hstep s i m hs hm) hrest

/-- A run whose steps go on or give up with one error goes on or gives up with it. -/
theorem run_progress {P : σ → Prop}
    (hstep : ∀ s i, P s → (∃ s', step s i = .ok s' ∧ P s') ∨ step s i = .error e) (hs : P s)
    (l : List ι) : (∃ s', run step s l = .ok s' ∧ P s') ∨ run step s l = .error e := by
  induction l generalizing s with
  | nil => exact .inl ⟨s, rfl, hs⟩
  | cons i rest ih =>
    rw [run_cons]
    rcases hstep s i hs with ⟨m, hm, hP⟩ | herror
    · rw [hm, ok_bind]
      exact ih hP
    · rw [herror]
      exact .inr rfl

/-- A run succeeds when every step does. -/
theorem run_total {l : List ι} (hstep : ∀ s, ∀ i ∈ l, ∃ s', step s i = .ok s') (s : σ) :
    ∃ s', run step s l = .ok s' := by
  induction l generalizing s with
  | nil => exact ⟨s, rfl⟩
  | cons i rest ih =>
    obtain ⟨m, hm⟩ := hstep s i mem_cons_self
    obtain ⟨s', hs'⟩ := ih (fun s j hj => hstep s j (mem_cons_of_mem _ hj)) m
    exact ⟨s', run_cons_eq_ok.mpr ⟨m, hm, hs'⟩⟩

/-- Related states stay related along a run when every step keeps them related. -/
theorem run_related {R : σ → σ → Prop}
    (hstep : ∀ s t i s', R s t → step s i = .ok s' → ∃ t', step t i = .ok t' ∧ R s' t') {t : σ}
    {l : List ι} (hst : R s t) (h : run step s l = .ok s') :
    ∃ t', run step t l = .ok t' ∧ R s' t' := by
  induction l generalizing s t with
  | nil =>
    rw [run_nil, Except.ok.injEq] at h
    exact ⟨t, rfl, h ▸ hst⟩
  | cons i rest ih =>
    obtain ⟨m, hm, hrest⟩ := run_cons_eq_ok.mp h
    obtain ⟨m', hm', hrel⟩ := hstep s t i m hst hm
    obtain ⟨t', ht', hrel'⟩ := ih hrel hrest
    exact ⟨t', run_cons_eq_ok.mpr ⟨m', hm', ht'⟩, hrel'⟩

/-! ## Fallible maps over a list -/

/-- A fallible map over a list succeeds exactly when it does so on every element. -/
lemma mapM_eq_ok_iff : l.mapM f = .ok r ↔ List.Forall₂ (fun a b => f a = .ok b) l r := by
  induction l generalizing r with
  | nil => simp [pure, Except.pure, eq_comm]
  | cons a rest ih =>
    rw [mapM_cons, bind_eq_ok]
    constructor
    · rintro ⟨b, hb, h⟩
      obtain ⟨r', hr', heq⟩ := bind_eq_ok.mp h
      obtain rfl : b :: r' = r := by simpa [pure, Except.pure] using heq
      exact .cons hb (ih.mp hr')
    · intro h
      cases h with
      | cons hb hrest => exact ⟨_, hb, bind_eq_ok.mpr ⟨_, ih.mpr hrest, rfl⟩⟩

lemma mapM_eq_ok_map {g : α → β} (h : ∀ a ∈ l, f a = .ok (g a)) : l.mapM f = .ok (l.map g) := by
  rw [mapM_eq_ok_iff, forall₂_map_right_iff, forall₂_same]
  exact h

/-- A map that succeeds on every element succeeds on the list. -/
lemma exists_mapM_eq_ok (h : ∀ a ∈ l, ∃ b, f a = .ok b) : ∃ r, l.mapM f = .ok r := by
  induction l with
  | nil => exact ⟨[], rfl⟩
  | cons a rest ih =>
    obtain ⟨b, hb⟩ := h a mem_cons_self
    obtain ⟨r, hr⟩ := ih fun a' ha' => h a' (mem_cons_of_mem _ ha')
    exact ⟨b :: r, mapM_eq_ok_iff.mpr (.cons hb (mapM_eq_ok_iff.mp hr))⟩

/-- Every element of the first of two related lists has a partner. -/
lemma exists_of_forall₂_left {R : α → β → Prop} {l : List α} {r : List β}
    (h : List.Forall₂ R l r) {a : α} (ha : a ∈ l) : ∃ b ∈ r, R a b := by
  induction h with
  | nil => simp at ha
  | cons hb _ ih =>
    rcases mem_cons.mp ha with rfl | ha
    · exact ⟨_, mem_cons_self, hb⟩
    · obtain ⟨b, hmem, hfb⟩ := ih ha
      exact ⟨b, mem_cons_of_mem _ hmem, hfb⟩

/-- Every element of the second of two related lists has a partner. -/
lemma exists_of_forall₂_right {R : α → β → Prop} {l : List α} {r : List β}
    (h : List.Forall₂ R l r) {b : β} (hb : b ∈ r) : ∃ a ∈ l, R a b :=
  exists_of_forall₂_left h.flip hb

/-- A list that another one without repetitions describes element by element has no repetitions. -/
lemma nodup_map_of_forall₂ {γ : Type} {R : α → β → Prop} {f : β → γ} {l' : List β}
    (h : List.Forall₂ R l l') (hl : l.Nodup)
    (hinj : ∀ a b a' b', R a b → R a' b' → f b = f b' → a = a') : (l'.map f).Nodup := by
  induction h with
  | nil => exact nodup_nil
  | @cons a b l l' hab hrest ih =>
    obtain ⟨hnot, hl⟩ := nodup_cons.mp hl
    rw [map_cons, nodup_cons]
    refine ⟨fun hmem => ?_, ih hl⟩
    obtain ⟨b', hb', heq⟩ := mem_map.mp hmem
    obtain ⟨a', ha', hab'⟩ := exists_of_forall₂_right hrest hb'
    exact hnot (hinj a b a' b' hab hab' heq.symm ▸ ha')

lemma exists_of_mapM_eq_ok (h : l.mapM f = .ok r) (ha : a ∈ l) : ∃ b ∈ r, f a = .ok b :=
  exists_of_forall₂_left (mapM_eq_ok_iff.mp h) ha

lemma exists_of_mem_mapM (h : l.mapM f = .ok r) (hb : b ∈ r) : ∃ a ∈ l, f a = .ok b :=
  exists_of_forall₂_right (mapM_eq_ok_iff.mp h) hb

/-- An optional map over a list is there exactly when it is on every element. -/
lemma mapM_eq_some_iff {f : α → Option β} :
    l.mapM f = some r ↔ List.Forall₂ (fun a b => f a = some b) l r := by
  induction l generalizing r with
  | nil => simp [pure, eq_comm]
  | cons a rest ih =>
    rw [mapM_cons]
    constructor
    · intro h
      obtain ⟨b, hb, h⟩ := Option.bind_eq_some_iff.mp h
      obtain ⟨r', hr', heq⟩ := Option.bind_eq_some_iff.mp h
      obtain rfl := Option.some.inj heq
      exact .cons hb (ih.mp hr')
    · intro h
      cases h with
      | cons hb hrest =>
        exact Option.bind_eq_some_iff.mpr
          ⟨_, hb, Option.bind_eq_some_iff.mpr ⟨_, ih.mpr hrest, rfl⟩⟩

lemma mapM_eq_none_iff {f : α → Option β} : l.mapM f = none ↔ ∃ a ∈ l, f a = none := by
  induction l with
  | nil => simp [pure]
  | cons a rest ih =>
    rw [mapM_cons, exists_mem_cons_iff, ← ih]
    rcases f a with _ | b
    · simp [bind]
    · rcases rest.mapM f with _ | r <;> simp [bind, pure]

/-- A check of every element succeeds exactly when it does so on each. -/
lemma forM_eq_ok_iff {f : α → Except ε Unit} : l.forM f = .ok u ↔ ∀ a ∈ l, f a = .ok () := by
  induction l with
  | nil => exact iff_of_true rfl fun a ha => by cases ha
  | cons a rest ih =>
    have hcons : (a :: rest).forM f = (f a >>= fun _ => rest.forM f) := rfl
    rw [hcons, bind_eq_ok, forall_mem_cons]
    constructor
    · rintro ⟨v, hv, hrest⟩
      exact ⟨hv, ih.mp hrest⟩
    · rintro ⟨ha, hrest⟩
      exact ⟨(), ha, ih.mpr hrest⟩

/-- The error of a check of every element is the error of one of them. -/
lemma exists_of_forM_eq_error {f : α → Except ε Unit} (h : l.forM f = .error e) :
    ∃ a ∈ l, f a = .error e := by
  induction l with
  | nil => cases h
  | cons a rest ih =>
    have hcons : (a :: rest).forM f = (f a >>= fun _ => rest.forM f) := rfl
    rw [hcons] at h
    rcases ha : f a with e' | ⟨⟩
    · rw [ha] at h
      exact ⟨a, mem_cons_self, ha.trans h⟩
    · rw [ha] at h
      obtain ⟨b, hb, hfb⟩ := ih h
      exact ⟨b, mem_cons_of_mem _ hb, hfb⟩

/-! ## Every state on the way -/

/-- Every state on the way satisfies the predicate. -/
def Always (P : σ → Prop) (step : σ → ι → σ) (s : σ) (l : List ι) : Prop :=
  ∀ l', l' <+: l → P (l'.foldl step s)

section Always

variable {P : σ → Prop} {step : σ → ι → σ} {s : σ}

lemma always_nil : Always P step s [] ↔ P s := by
  unfold Always
  simp

variable {l : List ι}

lemma always_cons {i : ι} : Always P step s (i :: l) ↔ P s ∧ Always P step (step s i) l := by
  unfold Always
  constructor
  · intro h
    refine ⟨h [] nil_prefix, fun l' hl' => ?_⟩
    exact h (i :: l') ((prefix_cons_inj i).mpr hl')
  · rintro ⟨hs, hrest⟩ l' hl'
    rcases l' with _ | ⟨j, l'⟩
    · exact hs
    · obtain ⟨rfl, hrest'⟩ := cons_prefix_cons.mp hl'
      exact hrest l' hrest'

lemma Always.start (h : Always P step s l) : P s := h [] nil_prefix

lemma always_append {l' : List ι} :
    Always P step s (l ++ l') ↔ Always P step s l ∧ Always P step (l.foldl step s) l' := by
  induction l generalizing s with
  | nil =>
    rw [nil_append, always_nil]
    exact ⟨fun h => ⟨h.start, h⟩, fun h => h.2⟩
  | cons i rest ih =>
    rw [cons_append, always_cons, always_cons, ih, foldl_cons, and_assoc]

/-- Inputs that change nothing may be left out. -/
lemma always_of_fixed (h : ∀ i ∈ l, step s i = s) :
    (Always P step s l ↔ P s) ∧ l.foldl step s = s := by
  induction l with
  | nil => exact ⟨always_nil, rfl⟩
  | cons i rest ih =>
    have ih := ih fun j hj => h j (mem_cons_of_mem _ hj)
    rw [always_cons, foldl_cons, h i mem_cons_self, ih.1]
    exact ⟨⟨fun hs => hs.1, fun hs => ⟨hs, hs⟩⟩, ih.2⟩

/-- Inputs may be replaced by what a step reads of them. -/
lemma always_map {κ : Type} {step' : σ → κ → σ} {f : ι → κ}
    (h : ∀ s, ∀ i ∈ l, step s i = step' s (f i)) (s : σ) :
    (Always P step s l ↔ Always P step' s (l.map f)) ∧
      l.foldl step s = (l.map f).foldl step' s := by
  induction l generalizing s with
  | nil => exact ⟨by rw [map_nil, always_nil, always_nil], rfl⟩
  | cons i rest ih =>
    have hrest := ih (fun s j hj => h s j (mem_cons_of_mem _ hj)) (step' s (f i))
    rw [map_cons, always_cons, always_cons, foldl_cons, foldl_cons,
      h s i mem_cons_self, hrest.1, hrest.2]
    exact ⟨Iff.rfl, rfl⟩

end Always

end Gogo.Lib

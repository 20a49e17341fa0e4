import Gogo.Lib.Run

/-!
# Computations that keep their state when they fail

A session reads and writes a state and returns a value or fails; the state it leaves is there in
both cases. What it does is stated by triples with two postconditions, one for the value and one for
the failure.

* `Session` — with `fail`, `read`, `update` and `lift` of a computation without a state;
  `Session.bind_eq_ok` takes a successful one apart.
* `Session.atomic` — a transaction: a failure leaves the state of its start.
* `Session.deferred` — a body followed by a step that runs in any case and may fail too.
* `Session.Moves` — the state goes along a relation whether the session fails or not.
* `Session.FailsOnly` — while an invariant of the state holds, a session keeps it and fails with
  errors of one kind only; one rule for each way to build a session.
* `Triple P x Q E` — from a state with `P`, the session ends with `Q` of its value, or fails
  with `E`; one rule for each way to build a session.
-/

namespace Gogo.Lib

/-- A computation over a state that leaves a state also when it fails. -/
def Session (σ ε α : Type) : Type := σ → Except ε α × σ

namespace Session

variable {σ ε α β : Type}

instance : Monad (Session σ ε) where
  pure a := fun s => (.ok a, s)
  bind x f := fun s =>
    match x s with
    | (.ok a, s') => f a s'
    | (.error e, s') => (.error e, s')

/-- A computation without a state. -/
def lift (x : Except ε α) : Session σ ε α := fun s => (x, s)

/-- Stop. -/
def fail (e : ε) : Session σ ε α := fun s => (.error e, s)

/-- The current state. -/
def read : Session σ ε σ := fun s => (.ok s, s)

/-- Change the state. -/
def update (f : σ → σ) : Session σ ε Unit := fun s => (.ok (), f s)

/-- A transaction: a failure of the body or of the commit leaves the state of the start. -/
def atomic (body : Session σ ε Unit) (commit : Except ε Unit) : Session σ ε Unit := fun s =>
  match body s, commit with
  | (.ok (), s'), .ok () => (.ok (), s')
  | (.error e, _), _ => (.error e, s)
  | (.ok (), _), .error e => (.error e, s)

/-- A step without effect on the state that follows the body in any case. -/
def deferred (body : Session σ ε Unit) (last : Except ε Unit) : Session σ ε Unit := fun s =>
  match body s with
  | (.ok (), s') => (last, s')
  | (.error e, s') => (.error e, s')

variable {x : Session σ ε α} {f : α → Session σ ε β} {s s' : σ} {e : ε} {a : α}

/-- Two sessions in a row succeed exactly when both do. -/
lemma bind_eq_ok {b : β} :
    (x >>= f) s = (.ok b, s') ↔ ∃ a m, x s = (.ok a, m) ∧ f a m = (.ok b, s') := by
  show (match x s with
    | (.ok a, m) => f a m
    | (.error e, m) => (.error e, m)) = (.ok b, s') ↔ _
  rcases x s with ⟨e | a, m⟩
  · simp
  · simp

/-- Two sessions in a row fail exactly when the first one does, or the second one after it. -/
lemma bind_eq_error :
    (x >>= f) s = (.error e, s') ↔
      x s = (.error e, s') ∨ ∃ a m, x s = (.ok a, m) ∧ f a m = (.error e, s') := by
  show (match x s with
    | (.ok a, m) => f a m
    | (.error e, m) => (.error e, m)) = (.error e, s') ↔ _
  rcases x s with ⟨e' | a, m⟩
  · simp
  · simp

lemma lift_eq_error {x : Except ε α} :
    (lift x : Session σ ε α) s = (.error e, s') ↔ x = .error e ∧ s' = s := by
  simp [lift, eq_comm]

lemma lift_eq_ok {x : Except ε α} :
    (lift x : Session σ ε α) s = (.ok a, s') ↔ x = .ok a ∧ s' = s := by
  simp [lift, eq_comm]

lemma pure_eq_ok {b : α} : (pure a : Session σ ε α) s = (.ok b, s') ↔ a = b ∧ s = s' := by
  show (Except.ok a, s) = (Except.ok b, s') ↔ _
  simp

lemma read_eq_ok {a : σ} : (read : Session σ ε σ) s = (.ok a, s') ↔ a = s ∧ s' = s := by
  simp [read, eq_comm]

lemma update_eq_ok {f : σ → σ} {u : Unit} :
    (update f : Session σ ε Unit) s = (.ok u, s') ↔ s' = f s := by
  simp [update, eq_comm]

/-- Whatever a session does, it takes its state along a relation. -/
def Moves (R : σ → σ → Prop) (x : Session σ ε α) : Prop := ∀ s, R s (x s).2

section Moves

variable {R : σ → σ → Prop}

variable {x : Session σ ε α} {s : σ} {f : α → Session σ ε β}

lemma Moves.of_eq {s' : σ} {r : Except ε α} (h : Moves R x) (hx : x s = (r, s')) : R s s' := by
  have hmove := h s
  rw [hx] at hmove
  exact hmove

variable [IsPreorder σ R]

/-- The move of a sequence from one state. -/
lemma move_bind (hx : R s (x s).2) (hf : ∀ a m, x s = (.ok a, m) → R m (f a m).2) :
    R s ((x >>= f) s).2 := by
  show R s (match x s with
    | (.ok a, m) => f a m
    | (.error e, m) => (.error e, m)).2
  rcases hs : x s with ⟨e | a, m⟩
  · rw [hs] at hx
    exact hx
  · rw [hs] at hx
    exact trans_of R hx (hf a m hs)

lemma Moves.bind_of (hx : Moves R x) (hf : ∀ s a m, x s = (.ok a, m) → R m (f a m).2) :
    Moves R (x >>= f) :=
  fun s => move_bind (hx s) (hf s)

lemma Moves.bind (hx : Moves R x) (hf : ∀ a, Moves R (f a)) : Moves R (x >>= f) :=
  hx.bind_of fun _ a m _ => hf a m

lemma moves_lift (x : Except ε α) : Moves R (lift x : Session σ ε α) := refl_of R

lemma moves_pure (a : α) : Moves R (pure a : Session σ ε α) := refl_of R

lemma moves_read : Moves R (read : Session σ ε σ) := refl_of R

lemma moves_fail (e : ε) : Moves R (fail e : Session σ ε α) := refl_of R

end Moves

/-- From a state with the invariant `I`, the session leaves one, and what it fails with has `P`. -/
def FailsOnly (I : σ → Prop) (P : ε → Prop) (x : Session σ ε α) : Prop :=
  ∀ s, I s → I (x s).2 ∧ ∀ e, (x s).1 = .error e → P e

section FailsOnly

variable {I : σ → Prop} {P : ε → Prop} {x : Session σ ε α} {f : α → Session σ ε β}

/-- A sequence fails as its first part does, or as what follows. -/
lemma FailsOnly.bind (hx : FailsOnly I P x) (hf : ∀ a, FailsOnly I P (f a)) :
    FailsOnly I P (x >>= f) := by
  intro s hs
  have hfirst := hx s hs
  have hbind : (x >>= f) s = match x s with
    | (.ok a, m) => f a m
    | (.error e, m) => (.error e, m) := rfl
  rw [hbind]
  rcases h : x s with ⟨e | a, m⟩
  · rw [h] at hfirst
    exact ⟨hfirst.1, fun e' he' => hfirst.2 e' (by cases he'; rfl)⟩
  · rw [h] at hfirst
    exact hf a m hfirst.1

/-- A computation without a state keeps every invariant. -/
lemma failsOnly_lift {x : Except ε α} (h : ∀ e, x = .error e → P e) :
    FailsOnly I P (lift x : Session σ ε α) := fun _ hs => ⟨hs, h⟩

lemma failsOnly_pure (a : α) : FailsOnly I P (pure a : Session σ ε α) :=
  fun _ hs => ⟨hs, fun _ he => by cases he⟩

/-- What is read has the invariant. -/
lemma failsOnly_read_bind {f : σ → Session σ ε β} (h : ∀ s, I s → FailsOnly I P (f s)) :
    FailsOnly I P (read >>= f) := fun s hs => h s hs s hs

lemma failsOnly_update {f : σ → σ} (h : ∀ s, I s → I (f s)) :
    FailsOnly I P (update f : Session σ ε Unit) := fun s hs => ⟨h s hs, fun _ he => by cases he⟩

end FailsOnly

end Session

/-! ## Triples -/

/-- From a state with `P` the session returns with `Q` or fails with `E`. -/
def Triple {σ ε α : Type} (P : σ → Prop) (x : Session σ ε α) (Q : α → σ → Prop) (E : σ → Prop) :
    Prop :=
  ∀ s, P s →
    match x s with
    | (.ok a, s') => Q a s'
    | (.error _, s') => E s'

section Triple

variable {σ ε α β : Type} {P P' E E' : σ → Prop} {x : Session σ ε α} {Q Q' : α → σ → Prop}

lemma triple_pure {a : α} (h : ∀ s, P s → Q a s) : Triple P (pure a : Session σ ε α) Q E := h

variable {f : α → Session σ ε β} {R : β → σ → Prop} {r : Except ε α}

lemma triple_bind (hx : Triple P x Q E) (hf : ∀ a, Triple (Q a) (f a) R E) :
    Triple P (x >>= f) R E := by
  intro s hs
  have hx := hx s hs
  show match (match x s with
    | (.ok a, s') => f a s'
    | (.error e, s') => (.error e, s')) with
    | (.ok b, s') => R b s'
    | (.error _, s') => E s'
  rcases h : x s with ⟨e | a, s'⟩
  · rw [h] at hx
    exact hx
  · rw [h] at hx
    exact hf a s' hx

lemma triple_lift (hok : ∀ a, r = .ok a → ∀ s, P s → Q a s) (herror : ∀ s, P s → E s) :
    Triple P (Session.lift r) Q E := by
  intro s hs
  show match (r, s) with
    | (.ok a, s') => Q a s'
    | (.error _, s') => E s'
  rcases r with e | a
  · exact herror s hs
  · exact hok a rfl s hs

/-- What a computation without a state returns is a fact, not a part of the state. -/
lemma triple_lift_bind (hok : ∀ a, r = .ok a → Triple P (f a) R E) (herror : ∀ s, P s → E s) :
    Triple P (Session.lift r >>= f) R E := by
  rcases r with e | a
  · exact herror
  · exact hok a rfl

/-- What is read is the state. -/
lemma triple_read_bind {f : σ → Session σ ε β}
    (h : ∀ s, P s → Triple (fun s' => s' = s) (f s) R E) :
    Triple P (Session.read >>= f) R E :=
  fun s hs => h s hs s rfl

lemma triple_update {Q : Unit → σ → Prop} {f : σ → σ} (h : ∀ s, P s → Q () (f s)) :
    Triple P (Session.update f : Session σ ε Unit) Q E := h

/-- A stronger precondition and weaker postconditions. -/
lemma Triple.mono (h : Triple P x Q E) (hP : ∀ s, P' s → P s) (hQ : ∀ a s, Q a s → Q' a s)
    (hE : ∀ s, E s → E' s) : Triple P' x Q' E' := by
  intro s hs
  have h := h s (hP s hs)
  rcases hx : x s with ⟨e | a, s'⟩
  · rw [hx] at h
    exact hE s' h
  · rw [hx] at h
    exact hQ a s' h

/-- A failed transaction leaves the state of its start. -/
lemma triple_atomic {x : Session σ ε Unit} {Q : Unit → σ → Prop} {commit : Except ε Unit}
    (h : Triple P x Q E) : Triple P (Session.atomic x commit) Q P := by
  intro s hs
  have h := h s hs
  unfold Session.atomic
  rcases hx : x s with ⟨e | ⟨⟩, s'⟩
  · exact hs
  · rw [hx] at h
    rcases commit with e | ⟨⟩
    · exact hs
    · exact h

lemma triple_deferred {x : Session σ ε Unit} {last : Except ε Unit}
    (h : Triple P x (fun _ => E) E) :
    Triple P (Session.deferred x last) (fun _ => E) E := by
  intro s hs
  have h := h s hs
  unfold Session.deferred
  rcases hx : x s with ⟨e | ⟨⟩, s'⟩
  · rw [hx] at h
    exact h
  · rw [hx] at h
    rcases last with e | ⟨⟩
    · exact h
    · exact h

/-- An invariant of a session holds in the state it leaves. -/
lemma Triple.invariant (h : Triple P x (fun _ => P) P) {s : σ} (hs : P s) : P (x s).2 := by
  have h := h s hs
  rcases hx : x s with ⟨e | a, s'⟩
  · rw [hx] at h
    exact h
  · rw [hx] at h
    exact h

end Triple

end Gogo.Lib

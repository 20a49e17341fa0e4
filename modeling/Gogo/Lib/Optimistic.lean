import Gogo.Lib.Run

/-!
# Optimistic writes to a shared value

Any number of calls change one value that none of them holds while it works: an attempt reads the
value, computes a proposal in private, and the store takes the proposal only if the value still has
the revision that the attempt read; otherwise the call starts over, up to a bound.

* `Protocol` — the operations: what an attempt does with what it read, and what the store says to a
  proposal whose revision is the stored one.
* `System`, `Event`, `step` — the interleaving of the calls, one read or one write at a time.
* `Observation`, `history` — what an outside observer sees of a run: the value on both sides of
  every step and the reply that was given in it.
* `history_atomic` — when every write raises the revision, each step of a run is one atomic
  operation on the value of that moment.
* `direct` — the same operations under a lock, where they are atomic by construction.
* `Linked` — the value is handed from step to step; what every step keeps is kept between any two.
-/

namespace Gogo.Lib.Optimistic

open List

variable {α β κ τ ρ : Type}

/-! ## Operations -/

/-- What an attempt does with the value it has read. -/
inductive Plan (β ρ : Type)
  /-- Answer without a write. -/
  | answer (reply : ρ)
  /-- Propose a write, and answer once it is made. -/
  | write (proposal : β) (reply : ρ)

/-- What the store does with a proposal that was made of the value it holds. -/
inductive Verdict (α ρ : Type)
  | stored (value : α)
  | again
  | refused (reply : ρ)

/-- The operations `κ` on a value `α`, with proposals `β`, readings of the environment `τ` and
replies `ρ`. -/
structure Protocol (α β κ τ ρ : Type) where
  /-- The revision of a stored value. -/
  revision : α → ℕ
  /-- How often a call tries. -/
  attempts : ℕ
  /-- The reply of a call that has tried that often. -/
  exhausted : ρ
  /-- What a caller sees when the answer of the store does not arrive. -/
  lost : ρ
  /-- Whether the attempt of this number reads the value; one that does not goes on as if there
  were none. -/
  reads : κ → ℕ → Bool
  /-- What an attempt does with what it read. -/
  plan : κ → ℕ → τ → Option α → Plan β ρ
  /-- What the store does with a proposal. -/
  verdict : κ → τ → Option α → β → Verdict α ρ

variable (P : Protocol α β κ τ ρ)

/-- The revision of what is stored; nothing has revision `0`. -/
def Protocol.revisionOf : Option α → ℕ
  | none => 0
  | some v => P.revision v

/-- Every write raises the revision. -/
def Protocol.Raises : Prop :=
  ∀ k n t t' s b r v, P.plan k n t s = .write b r → P.verdict k t' s b = .stored v →
    P.revisionOf s < P.revision v

/-! ## Runs -/

/-- A call that is under way: its operation, the attempts it has lost, and what the present attempt
has read, once it has. -/
structure Call (α κ τ : Type) where
  op : κ
  attempt : ℕ := 0
  snapshot : Option (τ × Option α) := none

/-- The value and the calls that are under way. -/
structure System (α κ τ : Type) where
  value : Option α := none
  calls : ℕ → Option (Call α κ τ) := fun _ => none

/-- What happens next. -/
inductive Event (κ τ : Type)
  /-- A call begins. -/
  | start (i : ℕ) (op : κ)
  /-- An attempt reads. -/
  | read (i : ℕ) (t : τ)
  /-- An attempt hands in its proposal; its answer may be lost. -/
  | commit (i : ℕ) (t : τ) (lost : Bool)

/-- Put a call, or its absence, at a place. -/
def System.setCall (s : System α κ τ) (i : ℕ) (c : Option (Call α κ τ)) : System α κ τ :=
  { s with calls := fun j => if j = i then c else s.calls j }

/-- The next attempt of a call. -/
def Call.again (c : Call α κ τ) : Call α κ τ := { op := c.op, attempt := c.attempt + 1 }

/-- What the present attempt of a call reads. -/
def seenBy (s : System α κ τ) (c : Call α κ τ) : Option α :=
  if P.reads c.op c.attempt then s.value else none

/-- The reading half of an attempt. -/
def readStep (s : System α κ τ) (i : ℕ) (t : τ) (c : Call α κ τ) :
    System α κ τ × Option (κ × ρ) :=
  if P.attempts ≤ c.attempt then (s.setCall i none, some (c.op, P.exhausted))
  else
    match P.plan c.op c.attempt t (seenBy P s c) with
    | .answer r => (s.setCall i none, some (c.op, r))
    | .write _ _ => (s.setCall i (some { c with snapshot := some (t, seenBy P s c) }), none)

/-- The writing half of an attempt that has read `seen`. -/
def commitStep (s : System α κ τ) (i : ℕ) (t' : τ) (lost : Bool) (c : Call α κ τ) (t : τ)
    (seen : Option α) : System α κ τ × Option (κ × ρ) :=
  match P.plan c.op c.attempt t seen with
  | .answer r => (s.setCall i none, some (c.op, r))
  | .write b r =>
    if P.revisionOf seen ≠ P.revisionOf s.value then (s.setCall i (some c.again), none)
    else
      match P.verdict c.op t' s.value b with
      | .stored v =>
        ({ s.setCall i none with value := some v },
          some (c.op, if lost then P.lost else r))
      | .again => (s.setCall i (some c.again), none)
      | .refused r' => (s.setCall i none, some (c.op, r'))

/-- One step; an event that does not fit the call it names changes nothing. -/
def step (s : System α κ τ) : Event κ τ → System α κ τ × Option (κ × ρ)
  | .start i op =>
    match s.calls i with
    | none => (s.setCall i (some { op := op }), none)
    | some _ => (s, none)
  | .read i t =>
    match s.calls i with
    | some c => if c.snapshot.isSome then (s, none) else readStep P s i t c
    | none => (s, none)
  | .commit i t' lost =>
    match s.calls i with
    | some c =>
      match c.snapshot with
      | some (t, seen) => commitStep P s i t' lost c t seen
      | none => (s, none)
    | none => (s, none)

/-- One step as it is seen from outside. -/
structure Observation (α κ ρ : Type) where
  before : Option α
  after : Option α
  reply : Option (κ × ρ)

/-- The same step, seen through a reading of the value. -/
def Observation.map {γ : Type} (f : α → γ) (o : Observation α κ ρ) : Observation γ κ ρ :=
  ⟨o.before.map f, o.after.map f, o.reply⟩

/-- What is seen of a run. -/
def history (s : System α κ τ) : List (Event κ τ) → List (Observation α κ ρ)
  | [] => []
  | e :: rest =>
    ⟨s.value, (step P s e).1.value, (step P s e).2⟩ :: history (step P s e).1 rest

/-! ## Atomicity -/

/-- An atomic step on the value of the moment. -/
inductive Atomic : Observation α κ ρ → Prop
  /-- Nothing is written and nobody is answered. -/
  | silent {v : Option α} : Atomic ⟨v, v, none⟩
  /-- A call gives up. -/
  | exhausted {v : Option α} {k : κ} : Atomic ⟨v, v, some (k, P.exhausted)⟩
  /-- A call is answered from the value, or without a look at it. -/
  | answered {v : Option α} {k : κ} {n : ℕ} {t : τ} {seen : Option α} {r : ρ}
      (hplan : P.plan k n t seen = .answer r)
      (hseen : seen = v ∨ P.reads k n = false) : Atomic ⟨v, v, some (k, r)⟩
  /-- The store refuses a proposal made of the value. -/
  | refused {v : Option α} {k : κ} {t' : τ} {b : β} {r : ρ}
      (hverdict : P.verdict k t' v b = .refused r) : Atomic ⟨v, v, some (k, r)⟩
  /-- A proposal made of the value is stored. -/
  | written {v : Option α} {k : κ} {n : ℕ} {t t' : τ} {b : β} {r r' : ρ} {w : α}
      (hplan : P.plan k n t v = .write b r) (hverdict : P.verdict k t' v b = .stored w)
      (hreply : r' = r ∨ r' = P.lost) : Atomic ⟨v, some w, some (k, r')⟩

/-- A snapshot is the stored value or an older one. -/
structure Coherent (s : System α κ τ) : Prop where
  positive : ∀ v, s.value = some v → 0 < P.revision v
  older : ∀ i c t seen, s.calls i = some c → c.snapshot = some (t, seen) →
    seen = s.value ∨ P.revisionOf seen < P.revisionOf s.value
  planned : ∀ i c t seen, s.calls i = some c → c.snapshot = some (t, seen) →
    ∃ b r, P.plan c.op c.attempt t seen = .write b r

variable {P}

variable {s : System α κ τ} {i : ℕ} {c : Call α κ τ} {t : τ} {seen : Option α}

section

variable (h : Coherent P s)

include h

/-- A call that reads nothing or starts over has no snapshot to be wrong about. -/
lemma Coherent.setCall (i : ℕ) {c : Option (Call α κ τ)}
    (hc : ∀ c' t seen, c = some c' → c'.snapshot = some (t, seen) → (seen = s.value ∨ P.revisionOf
      seen < P.revisionOf s.value) ∧ ∃ b r, P.plan c'.op c'.attempt t seen = .write b r) :
    Coherent P (s.setCall i c) := by
  refine ⟨h.positive, fun j c' t seen hj hsnap => ?_, fun j c' t seen hj hsnap => ?_⟩
  · by_cases hji : j = i
    · simp only [System.setCall, if_pos hji] at hj
      exact (hc c' t seen hj hsnap).1
    · simp only [System.setCall, if_neg hji] at hj
      exact h.older j c' t seen hj hsnap
  · by_cases hji : j = i
    · simp only [System.setCall, if_pos hji] at hj
      exact (hc c' t seen hj hsnap).2
    · simp only [System.setCall, if_neg hji] at hj
      exact h.planned j c' t seen hj hsnap

lemma Coherent.setCall_none (i : ℕ) : Coherent P (s.setCall i none) :=
  h.setCall i fun _ _ _ hc _ => by cases hc

lemma Coherent.setCall_again (i : ℕ) (c : Call α κ τ) :
    Coherent P (s.setCall i (some c.again)) := by
  refine h.setCall i fun c' t seen hc hsnap => ?_
  cases hc
  cases hsnap

/-- A write leaves every snapshot older than the value. -/
lemma Coherent.store {v : α} (hv : P.revisionOf s.value < P.revision v) :
    Coherent P { s with value := some v } := by
  refine ⟨fun w hw => ?_, fun i c t seen hi hsnap => ?_, h.planned⟩
  · cases hw
    omega
  · refine .inr (lt_of_le_of_lt ?_ hv)
    rcases h.older i c t seen hi hsnap with rfl | hlt
    · exact le_rfl
    · exact hlt.le

/-- Equal revisions mean equal values. -/
lemma Coherent.eq_value (hi : s.calls i = some c) (hsnap : c.snapshot = some (t, seen))
    (hrev : P.revisionOf seen = P.revisionOf s.value) : seen = s.value := by
  rcases h.older i c t seen hi hsnap with heq | hlt
  · exact heq
  · omega

/-- What an attempt reads is the value or, when it does not look, something older. -/
lemma Coherent.older_seen (c : Call α κ τ) :
    seenBy P s c = s.value ∨ P.revisionOf (seenBy P s c) < P.revisionOf s.value := by
  unfold seenBy
  split_ifs
  · exact .inl rfl
  · rcases hvalue : s.value with _ | v
    · exact .inl rfl
    · exact .inr (h.positive v hvalue)

lemma readStep_spec (i : ℕ) (t : τ) (c : Call α κ τ) :
    Coherent P (readStep P s i t c).1 ∧
      Atomic P ⟨s.value, (readStep P s i t c).1.value, (readStep P s i t c).2⟩ := by
  unfold readStep
  split_ifs with hbound
  · exact ⟨h.setCall_none i, .exhausted⟩
  · rcases hplan : P.plan c.op c.attempt t (seenBy P s c) with r | ⟨b, r⟩
    · refine ⟨h.setCall_none i, .answered hplan ?_⟩
      unfold seenBy
      split_ifs with hreads
      · exact .inl rfl
      · exact .inr (by simpa using hreads)
    · refine ⟨h.setCall i fun c' t' seen hc hsnap => ?_, .silent⟩
      cases hc
      cases hsnap
      exact ⟨h.older_seen c, b, r, hplan⟩

end

lemma commitStep_spec (hraise : P.Raises) (h : Coherent P s) (t' : τ) (lost : Bool)
    (hi : s.calls i = some c) (hsnap : c.snapshot = some (t, seen)) :
    Coherent P (commitStep P s i t' lost c t seen).1 ∧
      Atomic P ⟨s.value, (commitStep P s i t' lost c t seen).1.value,
        (commitStep P s i t' lost c t seen).2⟩ := by
  obtain ⟨b, r, hplan⟩ := h.planned i c t seen hi hsnap
  unfold commitStep
  simp only [hplan]
  by_cases hrev : P.revisionOf seen = P.revisionOf s.value
  · rw [if_neg (not_not.mpr hrev)]
    obtain rfl := h.eq_value hi hsnap hrev
    rcases hverdict : P.verdict c.op t' s.value b with v | _ | r'
    · refine ⟨?_, .written hplan hverdict ?_⟩
      · exact (h.setCall_none i).store (hraise _ _ _ _ _ _ _ _ hplan hverdict)
      · cases lost
        · exact .inl rfl
        · exact .inr rfl
    · exact ⟨h.setCall_again i c, .silent⟩
    · exact ⟨h.setCall_none i, .refused hverdict⟩
  · rw [if_pos hrev]
    exact ⟨h.setCall_again i c, .silent⟩

lemma step_spec (hraise : P.Raises) (h : Coherent P s) (e : Event κ τ) :
    Coherent P (step P s e).1 ∧ Atomic P ⟨s.value, (step P s e).1.value, (step P s e).2⟩ := by
  rcases e with ⟨i, op⟩ | ⟨i, t⟩ | ⟨i, t', lost⟩
  · rcases hi : s.calls i with _ | c <;> simp only [step, hi]
    · refine ⟨h.setCall i fun c' t seen hc hsnap => ?_, .silent⟩
      cases hc
      cases hsnap
    · exact ⟨h, .silent⟩
  · rcases hi : s.calls i with _ | c <;> simp only [step, hi]
    · exact ⟨h, .silent⟩
    · split_ifs
      · exact ⟨h, .silent⟩
      · exact readStep_spec h i t c
  · rcases hi : s.calls i with _ | c <;> simp only [step, hi]
    · exact ⟨h, .silent⟩
    · rcases hsnap : c.snapshot with _ | ⟨t, seen⟩
      · exact ⟨h, .silent⟩
      · exact commitStep_spec hraise h t' lost hi hsnap

/-- **Every step of a run is one atomic operation on the value of that moment.** -/
theorem history_atomic (hraise : P.Raises) (h : Coherent P s) (events : List (Event κ τ)) :
    ∀ o ∈ history P s events, Atomic P o := by
  induction events generalizing s with
  | nil =>
    intro o ho
    cases ho
  | cons e rest ih =>
    obtain ⟨hcoherent, hatomic⟩ := step_spec hraise h e
    intro o ho
    rcases mem_cons.mp ho with rfl | ho
    · exact hatomic
    · exact ih hcoherent o ho

variable (P)

lemma coherent_initial : Coherent P {} where
  positive _ hv := by cases hv
  older _ _ _ _ hi := by cases hi
  planned _ _ _ _ hi := by cases hi

/-! ## Under a lock -/

/-- A call that holds the value from its reading to its writing. -/
def directStep (v : Option α) (k : κ) (t : τ) : Observation α κ ρ :=
  match P.plan k 0 t v with
  | .answer r => ⟨v, v, some (k, r)⟩
  | .write b r =>
    match P.verdict k t v b with
    | .stored w => ⟨v, some w, some (k, r)⟩
    | .again => ⟨v, v, none⟩
    | .refused r' => ⟨v, v, some (k, r')⟩

/-- What is seen of a sequence of calls that each hold the value. -/
def direct (v : Option α) : List (κ × τ) → List (Observation α κ ρ)
  | [] => []
  | c :: rest => directStep P v c.1 c.2 :: direct (directStep P v c.1 c.2).after rest

variable {P}

lemma directStep_spec (v : Option α) (k : κ) (t : τ) :
    Atomic P (directStep P v k t) ∧ (directStep P v k t).before = v := by
  unfold directStep
  rcases hplan : P.plan k 0 t v with r | ⟨b, r⟩
  · exact ⟨.answered hplan (.inl rfl), rfl⟩
  · rcases hverdict : P.verdict k t v b with w | _ | r' <;> simp only [hverdict]
    · exact ⟨.written hplan hverdict (.inl rfl), trivial⟩
    · exact ⟨.silent, trivial⟩
    · exact ⟨.refused hverdict, trivial⟩

theorem direct_atomic (v : Option α) (calls : List (κ × τ)) :
    ∀ o ∈ direct P v calls, Atomic P o := by
  induction calls generalizing v with
  | nil =>
    intro o ho
    cases ho
  | cons c rest ih =>
    intro o ho
    rcases mem_cons.mp ho with rfl | ho
    · exact (directStep_spec v c.1 c.2).1
    · exact ih _ o ho

/-! ## From step to step -/

/-- Each step begins with the value that the one before it has left. -/
def Linked : Option α → List (Observation α κ ρ) → Prop
  | _, [] => True
  | v, o :: rest => o.before = v ∧ Linked o.after rest

lemma history_linked (s : System α κ τ) (events : List (Event κ τ)) :
    Linked s.value (history P s events) := by
  induction events generalizing s with
  | nil => trivial
  | cons e rest ih => exact ⟨rfl, ih _⟩

lemma direct_linked (v : Option α) (calls : List (κ × τ)) : Linked v (direct P v calls) := by
  induction calls generalizing v with
  | nil => trivial
  | cons c rest ih => exact ⟨(directStep_spec v c.1 c.2).2, ih _⟩

lemma Linked.map {γ : Type} (f : α → γ) {v : Option α} {h : List (Observation α κ ρ)}
    (hlinked : Linked v h) : Linked (v.map f) (h.map (Observation.map f)) := by
  induction h generalizing v with
  | nil => trivial
  | cons o rest ih =>
    obtain ⟨rfl, hrest⟩ := hlinked
    exact ⟨rfl, ih hrest⟩

section Linked

variable {h : List (Observation α κ ρ)} {v : Option α}

/-- What every step keeps holds on both sides of every step. -/
lemma Linked.invariant {I : Option α → Prop} (hlinked : Linked v h) (hv : I v)
    (hstep : ∀ o ∈ h, I o.before → I o.after) : ∀ o ∈ h, I o.before ∧ I o.after := by
  induction h generalizing v with
  | nil =>
    intro o ho
    cases ho
  | cons o rest ih =>
    obtain ⟨rfl, hrest⟩ := hlinked
    have hafter := hstep o mem_cons_self hv
    intro o' ho'
    rcases mem_cons.mp ho' with rfl | ho'
    · exact ⟨hv, hafter⟩
    · exact ih hrest hafter (fun p hp => hstep p (mem_cons_of_mem _ hp)) o' ho'

/-- A preorder that every step respects relates what is seen between any two steps. -/
lemma Linked.pairwise {R : Option α → Option α → Prop} (hrefl : ∀ x, R x x)
    (htrans : ∀ x y z, R x y → R y z → R x z) (hlinked : Linked v h)
    (hstep : ∀ o ∈ h, R o.before o.after) :
    h.Pairwise (fun o o' => R o.after o'.before) ∧ ∀ o ∈ h, R v o.before := by
  induction h generalizing v with
  | nil => exact ⟨.nil, fun o ho => by cases ho⟩
  | cons o rest ih =>
    obtain ⟨rfl, hrest⟩ := hlinked
    obtain ⟨hpair, hstart⟩ := ih hrest fun p hp => hstep p (mem_cons_of_mem _ hp)
    refine ⟨.cons hstart hpair, fun p hp => ?_⟩
    rcases mem_cons.mp hp with rfl | hp
    · exact hrefl _
    · exact htrans _ _ _ (hstep o mem_cons_self) (hstart p hp)

end Linked

end Gogo.Lib.Optimistic

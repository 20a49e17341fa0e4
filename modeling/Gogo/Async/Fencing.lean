import Gogo.Async.Results

/-!
# Task execution is fenced

Whatever calls are made on one task record, by whom and when, a claim that has been superseded can
do nothing more, and a task ends once. The argument is the same for both stores: `Evolves` says what
a call can write, `Sound` what that means for one step, and a history is a chain of such steps.

* `Evolves`, `says_of_propose` — the writes of the nine calls, each with its guard; **all that a
  call can say.**
* `Sound` — what one step does to fences, outcomes and replacements.
* `Fenced` — what holds of a whole history.
* `memory_fenced`, `redis_fenced` — every history of either store is fenced.
-/

namespace Gogo.Async

open Gogo.Lib Gogo.Lib.Optimistic

variable {codec : Codec}

/-! ## What a call can write -/

/-- The writes of the nine calls. The lease that is stored is left open where the script replaces it
by one of its own clock. -/
inductive Evolves (codec : Codec) : Op → Option Record → Record → Reply → Prop
  | registered {e : Envelope} {state : State} {r : Record}
      (h : initialRecord codec e state = .ok r) : Evolves codec (.register e state) none r .done
  | acquired {e : Envelope} {owner : String} {lease : Duration} {now : Time} {base : Record}
      {c : Claim} {s : Option Record}
      (hbase : s = some base ∨ (s = none ∧ initialRecord codec e .queued = .ok base))
      (h : Acquires base owner lease now c) :
      Evolves codec (.claim e owner lease) s c.record (.claimed c)
  | renewed {r next : Record} {fence : ℕ} {owner : String} {lease : Duration} {now : Time}
      {until' : Time} (h : Leased r fence owner now)
      (hnext : next = { r with leaseUntil := until', revision := increment r.revision }) :
      Evolves codec (.renew fence owner lease) (some r) next (.renewed next)
  | yielded {r r' : Record} {t : Transition} {now : Time} (h : Leased r t.fence t.owner now)
      (hrev : r.revision ≠ maxUint64) (hyield : applyYield r t = .ok r') :
      Evolves codec (.transition t) (some r) r' .done
  | finished {r r' : Record} {t : Transition} {now : Time} (h : Leased r t.fence t.owner now)
      (hfinish : Finishes r t r') : Evolves codec (.transition t) (some r) r' .done
  | progressed {r : Record} {fence : ℕ} {owner : String} {payload : RawMessage} {now : Time}
      (h : Leased r fence owner now) :
      Evolves codec (.recordProgress fence owner payload) (some r)
        { r with progress := payload, revision := increment r.revision } .done
  | canceled {r : Record} {scope : String} (hopen : r.state.terminal = false) :
      Evolves codec (.requestCancel scope) (some r)
        { r with cancelRequested := true, revision := increment r.revision } .done
  | resolved {r r' : Record} {workflowId : String} {finalize : Record → Except Err Transition}
      {t : Transition} (hopen : r.state.terminal = false) (h : Resolves r workflowId t r') :
      Evolves codec (.resolveReplacement workflowId finalize) (some r) r' (.applied true)
  | forgotten {r : Record} (hterminal : r.state.terminal = true) :
      Evolves codec .forget (some r)
        { r with output := none, progress := none, revision := increment r.revision } .done
  | released {r : Record} (hterminal : r.state.terminal = true) :
      Evolves codec .releasePin (some r)
        { r with pinned := false, revision := increment r.revision } .done

lemma present_bind_eq_ok {β : Type} {r : Option Record} {f : Record → Except Err β} {b : β} :
    (present r >>= f) = .ok b ↔ ∃ r', r = some r' ∧ f r' = .ok b := by
  rcases r with _ | r <;> simp [present]

/-! ## What a call says -/

/-- The fence that a call acts under. -/
def Op.carries : Op → Option ℕ
  | .renew fence _ _ => some fence
  | .transition t => some t.fence
  | .recordProgress fence _ _ => some fence
  | _ => none

/-- The fence that a reply hands to its caller. -/
def Reply.acquired : Reply → Option ℕ
  | .claimed c => if c.acquired then some c.record.fence else none
  | _ => none

/-- A reply that hands out no fence, was given under none and reports no outcome. -/
def Quiet (op : Op) (x : Except Err Reply) : Prop :=
  ∀ r, x = .ok r → op.carries = none ∧ r.acquired = none ∧ r ≠ .applied true

lemma quiet_error (op : Op) (e : Err) : Quiet op (.error e) := fun _ h => by cases h

variable {op : Op} {reply : Reply} {b : Backend} {n fence : ℕ} {t : Reading} {s s' : Option Record}
  {p : Plan Write Reply} {r w : Record} {owner : String} {now : Time}
  {x : Except Err (Plan Write Reply)}

lemma quiet_ok (hcarries : op.carries = none) (hacquired : reply.acquired = none)
    (happlied : reply ≠ .applied true) : Quiet op (.ok reply) := by
  intro r hr
  cases hr
  exact ⟨hcarries, hacquired, happlied⟩

/-- The intents that a call writes with the record. -/
def Emits (codec : Codec) (op : Op) (w : Write) : Prop :=
  (∃ tr, op = .transition tr ∧ w.intents = tr.intents) ∨
    (∃ scope, op = .requestCancel scope ∧
      w.intents = replacementCancellationIntents codec w.record) ∨
    (∃ id finalize r' tr, op = .resolveReplacement id finalize ∧ finalize r' = .ok tr ∧
      w.intents = tr.intents) ∨ ((∀ scope, op ≠ .requestCancel scope) ∧ w.intents = [])

/-- Only a claim and a renewal ask for a lease. -/
def Asks (op : Op) (w : Write) : Prop :=
  w.lease = 0 ∨ (∃ e owner lease, op = .claim e owner lease) ∨
    ∃ fence owner lease, op = .renew fence owner lease

/-- All that a call can say: a quiet answer, or a write of `Evolves` with its lease and intents. -/
def Says (codec : Codec) (op : Op) (s : Option Record) : Plan Write Reply → Prop
  | .answer reply => Quiet op (.ok reply)
  | .write w reply => Evolves codec op s w.record reply ∧ Asks op w ∧ Emits codec op w

/-- **What any call says.** -/
theorem says_of_propose (h : propose codec b op n t s = .ok p) : Says codec op s p := by
  cases op with
  | register e state =>
    simp only [propose] at h
    split_ifs at h
    · obtain ⟨initial, hinitial, h⟩ := bind_eq_ok.mp h
      rcases s with _ | r
      · cases h
        exact ⟨.registered hinitial, .inl rfl, .inr (.inr (.inr ⟨by simp, rfl⟩))⟩
      · simp only at h
        split_ifs at h
        cases h
        exact quiet_ok rfl rfl (by simp)
    · obtain ⟨initial, _, h⟩ := bind_eq_ok.mp h
      obtain ⟨existing, _, h⟩ := bind_eq_ok.mp h
      split_ifs at h
      cases h
      exact quiet_ok rfl rfl (by simp)
  | claim e owner lease =>
    obtain ⟨base, hbase, h⟩ := bind_eq_ok.mp h
    obtain ⟨c, hc, h⟩ := bind_eq_ok.mp h
    split_ifs at h with hacq
    · cases h
      refine ⟨.acquired ?_ (acquires_of_claimRecord hc hacq), .inr (.inl ⟨e, owner, lease, rfl⟩),
        .inr (.inr (.inr ⟨by simp, rfl⟩))⟩
      rcases s with _ | r
      · exact .inr ⟨rfl, hbase⟩
      · exact .inl (congrArg some (Except.ok.inj hbase))
    · cases h
      exact quiet_ok rfl (if_neg hacq) (by simp)
  | renew fence owner lease =>
    obtain ⟨r, rfl, hr⟩ := present_bind_eq_ok.mp h
    obtain ⟨_, hlease, hw⟩ := bind_eq_ok.mp hr
    cases hw
    exact ⟨.renewed (validateLease_eq_ok.mp hlease) rfl, .inr (.inr ⟨fence, owner, lease, rfl⟩),
      .inr (.inr (.inr ⟨by simp, rfl⟩))⟩
  | transition tr =>
    obtain ⟨r, rfl, hr⟩ := present_bind_eq_ok.mp h
    obtain ⟨next, hnext, hw⟩ := bind_eq_ok.mp hr
    cases hw
    refine ⟨?_, .inl rfl, .inl ⟨tr, rfl, rfl⟩⟩
    obtain ⟨hlease, ⟨_, hrev, hyield⟩ | ⟨_, hfinish⟩⟩ := applyTransition_eq_ok hnext
    · exact .yielded hlease hrev hyield
    · exact .finished hlease hfinish
  | recordProgress fence owner payload =>
    simp only [propose] at h
    split_ifs at h
    rcases s with _ | r
    · cases h
    · obtain ⟨_, hlease, h⟩ := bind_eq_ok.mp h
      cases h
      exact ⟨.progressed (validateLease_eq_ok.mp hlease), .inl rfl,
        .inr (.inr (.inr ⟨by simp, rfl⟩))⟩
  | requestCancel scope =>
    obtain ⟨r, rfl, hr⟩ := present_bind_eq_ok.mp h
    unfold proposeCancel at hr
    split_ifs at hr with _ hterminal
    · cases hr
      exact quiet_ok rfl rfl (by simp)
    · cases hr
      exact ⟨.canceled (by simpa using hterminal), .inl rfl, .inr (.inl ⟨scope, rfl, rfl⟩)⟩
  | resolveReplacement workflowId finalize =>
    simp only [propose] at h
    split_ifs at h
    obtain ⟨r, rfl, hr⟩ := present_bind_eq_ok.mp h
    unfold proposeResolve at hr
    split_ifs at hr with _ hterminal
    · cases hr
      exact quiet_ok rfl rfl (by simp)
    · obtain ⟨tr, htr, hr⟩ := bind_eq_ok.mp hr
      obtain ⟨next, hnext, hr⟩ := bind_eq_ok.mp hr
      cases hr
      exact ⟨.resolved (by simpa using hterminal) (resolves_of_applyReplacementOutcome hnext),
        .inl rfl, .inr (.inr (.inl ⟨workflowId, finalize, r.clone, tr, rfl, htr, rfl⟩))⟩
  | forget =>
    obtain ⟨r, rfl, hr⟩ := present_bind_eq_ok.mp h
    unfold proposeForget at hr
    split_ifs at hr with hterminal
    push Not at hterminal
    cases hr
    exact ⟨.forgotten (by simpa using hterminal.1), .inl rfl, .inr (.inr (.inr ⟨by simp, rfl⟩))⟩
  | releasePin =>
    obtain ⟨r, rfl, hr⟩ := present_bind_eq_ok.mp h
    unfold proposeRelease at hr
    split_ifs at hr with hterminal
    cases hr
    exact ⟨.released (by simpa using hterminal), .inl rfl, .inr (.inr (.inr ⟨by simp, rfl⟩))⟩

/-- **What any call writes is one of the writes of `Evolves`.** -/
theorem evolves_of_propose {w : Write} (h : propose codec b op n t s = .ok (.write w reply)) :
    Evolves codec op s w.record reply := (says_of_propose h).1

/-! ## One step -/

/-- A step on the record, as it is seen from outside. -/
abbrev Seen := Observation Record Op (Except Err Reply)

/-- The fence of the record; before there is one, zero. -/
def fenceOf (s : Option Record) : ℕ := (s.map Record.fence).getD 0

/-- There is a record and it is terminal. -/
def isTerminal (s : Option Record) : Bool := s.any fun r => r.state.terminal

/-- There is a record and it has yielded to a replacement. -/
def isYielded (s : Option Record) : Bool := s.any fun r => r.replacementId != ""

/-- What is never undone: a fence, an outcome, a yield. -/
structure Keeps (s s' : Option Record) : Prop where
  fence : fenceOf s ≤ fenceOf s'
  outcome : ∀ r, s = some r → r.state.terminal = true →
    ∃ r', s' = some r' ∧ r'.state = r.state ∧ r'.failure = r.failure ∧
      r'.finishedAt = r.finishedAt
  yielded : isYielded s = true → isYielded s' = true
  /-- The fence of a task that has yielded stays what it is. -/
  idle : isYielded s = true → fenceOf s' = fenceOf s

lemma Keeps.refl (s : Option Record) : Keeps s s :=
  ⟨le_rfl, fun r hr _ => ⟨r, hr, rfl, rfl, rfl⟩, id, fun _ => rfl⟩

lemma Keeps.trans {s'' : Option Record} (h : Keeps s s') (h' : Keeps s' s'') : Keeps s s'' := by
  refine ⟨h.fence.trans h'.fence, fun r hr hterminal => ?_, fun hy => h'.yielded (h.yielded hy),
    fun hy => (h'.idle (h.yielded hy)).trans (h.idle hy)⟩
  obtain ⟨r', hr', hstate, hfailure, hfinished⟩ := h.outcome r hr hterminal
  obtain ⟨r'', hr'', hstate', hfailure', hfinished'⟩ :=
    h'.outcome r' hr' (by rw [hstate]; exact hterminal)
  exact ⟨r'', hr'', hstate'.trans hstate, hfailure'.trans hfailure, hfinished'.trans hfinished⟩

lemma Keeps.terminal (h : Keeps s s') (hs : isTerminal s = true) : isTerminal s' = true := by
  rcases s with _ | r
  · cases hs
  · obtain ⟨r', rfl, hstate, _⟩ := h.outcome r rfl hs
    show r'.state.terminal = true
    rw [hstate]
    exact hs

/-- A task that has yielded holds no lease. -/
def Unleased (s : Option Record) : Prop :=
  ∀ r, s = some r → r.replacementId ≠ "" → r.leaseUntil = 0

/-- What one step does to fences, outcomes and replacements. -/
structure Sound (o : Seen) : Prop where
  keeps : Keeps o.before o.after
  unleased : Unleased o.after
  /-- A fence is handed out by a step that raises the fence to it, on an open record that has not
  yielded. -/
  acquired : ∀ op r f, o.reply = some (op, .ok r) → r.acquired = some f →
    fenceOf o.before < f ∧ fenceOf o.after = f ∧ isTerminal o.before = false ∧
      isYielded o.before = false
  /-- A call under a fence succeeds only while it is the fence of an open record. -/
  carried : ∀ op r f, o.reply = some (op, .ok r) → op.carries = some f →
    fenceOf o.before = f ∧ isTerminal o.before = false
  /-- A replacement is resolved on an open record. -/
  applied : ∀ op, o.reply = some (op, .ok (.applied true)) → isTerminal o.before = false
  /-- A yielded task ends by the resolution of its replacement. -/
  ended : isYielded o.before = true → isTerminal o.before = false → isTerminal o.after = true →
    ∃ workflowId finalize x, o.reply = some (.resolveReplacement workflowId finalize, x)

/-- A step that writes nothing and answers quietly is sound. -/
lemma sound_of_quiet {reply : Option (Op × Except Err Reply)} (hs : Unleased s)
    (h : ∀ op x, reply = some (op, x) → Quiet op x) : Sound ⟨s, s, reply⟩ where
  keeps := .refl s
  unleased := hs
  acquired op r f hreply hf := by
    rw [(h op _ hreply r rfl).2.1] at hf
    cases hf
  carried op r f hreply hf := by
    rw [(h op _ hreply r rfl).1] at hf
    cases hf
  applied op hreply := absurd rfl (h op _ hreply _ rfl).2.2
  ended _ hopen hend := by
    rw [hopen] at hend
    cases hend

lemma Leased.open' (h : Leased r fence owner now) : r.state.terminal = false := by
  rw [h.running]
  rfl

lemma Leased.unyielded (h : Leased r fence owner now) (hs : Unleased (some r)) :
    r.replacementId = "" := by
  by_contra hrepl
  have hlive := h.live
  rw [hs r rfl hrepl] at hlive
  exact Nat.not_lt_zero _ hlive

lemma isYielded_some : isYielded (some r) = true ↔ r.replacementId ≠ "" := by
  simp [isYielded]

/-- Two records that differ in nothing that must not be undone. -/
lemma keeps_some (hfence : w.fence = r.fence)
    (houtcome : r.state.terminal = true → w.state = r.state ∧ w.failure = r.failure ∧ w.finishedAt =
      r.finishedAt) (hyield : r.replacementId ≠ "" → w.replacementId ≠ "") :
    Keeps (some r) (some w) := by
  refine ⟨hfence.ge, fun r' hr' hterminal => ?_, fun hy => ?_, fun _ => hfence⟩
  · cases hr'
    exact ⟨w, rfl, houtcome hterminal⟩
  · exact isYielded_some.mpr (hyield (isYielded_some.mp hy))

/-- A step with a reply is sound when what it says of that reply holds. -/
lemma sound_of_reply (hkeeps : Keeps s s') (hunleased : Unleased s')
    (hacquired : ∀ f, reply.acquired = some f → fenceOf s < f ∧ fenceOf s' = f ∧ isTerminal s =
      false ∧ isYielded s = false)
    (hcarried : ∀ f, op.carries = some f → fenceOf s = f ∧ isTerminal s = false)
    (happlied : reply = .applied true → isTerminal s = false)
    (hended : isYielded s = true → isTerminal s = false → isTerminal s' = true → ∃ workflowId
      finalize, op = .resolveReplacement workflowId finalize) :
    Sound ⟨s, s', some (op, .ok reply)⟩ where
  keeps := hkeeps
  unleased := hunleased
  acquired op' r f hr hf := by
    obtain ⟨_, hok⟩ := Prod.mk.inj (Option.some.inj hr)
    cases hok
    exact hacquired f hf
  carried op' r f hr hf := by
    obtain ⟨rfl, _⟩ := Prod.mk.inj (Option.some.inj hr)
    exact hcarried f hf
  applied op' hr := by
    obtain ⟨_, hok⟩ := Prod.mk.inj (Option.some.inj hr)
    exact happlied (Except.ok.inj hok)
  ended hy hopen hend := by
    obtain ⟨workflowId, finalize, rfl⟩ := hended hy hopen hend
    exact ⟨workflowId, finalize, _, rfl⟩

lemma unleased_some (h : w.replacementId ≠ "" → w.leaseUntil = 0) : Unleased (some w) := by
  intro r hr
  cases hr
  exact h

/-- A write under a live lease. -/
lemma sound_of_leased (h : Leased r fence owner now) (hs : Unleased (some r))
    (hcarries : op.carries = some fence) (hreply : reply.acquired = none)
    (happlied : reply ≠ .applied true) (hfence : w.fence = r.fence)
    (hw : w.replacementId ≠ "" → w.leaseUntil = 0) :
    Sound ⟨some r, some w, some (op, .ok reply)⟩ := by
  apply sound_of_reply _ (unleased_some hw)
  · intro f hf
    rw [hreply] at hf
    cases hf
  · intro f hf
    rw [hcarries] at hf
    exact ⟨h.fence.trans (Option.some.inj hf), h.open'⟩
  · exact fun happ => absurd happ happlied
  · exact fun hy => absurd (h.unyielded hs) (isYielded_some.mp hy)
  · apply keeps_some hfence
    · intro ht
      rw [h.open'] at ht
      cases ht
    · exact fun hy => absurd (h.unyielded hs) hy

/-- A write on a terminal record, or one that requests a cancellation. -/
lemma sound_of_note (hs : Unleased (some r)) (hcarries : op.carries = none)
    (hfence : w.fence = r.fence) (hstate : w.state = r.state) (hfailure : w.failure = r.failure)
    (hfinished : w.finishedAt = r.finishedAt) (hrepl : w.replacementId = r.replacementId)
    (hlease : w.leaseUntil = r.leaseUntil) : Sound ⟨some r, some w, some (op, .ok .done)⟩ := by
  apply sound_of_reply
  · exact keeps_some hfence (fun _ => ⟨hstate, hfailure, hfinished⟩) fun hy => hrepl ▸ hy
  · apply unleased_some
    rw [hrepl, hlease]
    exact hs r rfl
  · exact fun f hf => by cases hf
  · intro f hf
    rw [hcarries] at hf
    cases hf
  · exact fun happ => by cases happ
  · intro _ hopen hend
    change r.state.terminal = false at hopen
    change w.state.terminal = true at hend
    rw [hstate, hopen] at hend
    cases hend

/-- The first record of a task. -/
lemma sound_of_registered (hcarries : op.carries = none) (hrepl : w.replacementId = "") :
    Sound ⟨none, some w, some (op, .ok .done)⟩ := by
  apply sound_of_reply
  · exact ⟨Nat.zero_le _, fun _ hr => (by cases hr), fun hy => (by cases hy),
      fun hy => (by cases hy)⟩
  · exact unleased_some fun hy => absurd hrepl hy
  · exact fun f hf => by cases hf
  · intro f hf
    rw [hcarries] at hf
    cases hf
  · exact fun happ => by cases happ
  · exact fun hy => by cases hy

/-- An acquired claim, on a record or on the first one of a task. -/
lemma sound_of_acquired {e : Envelope} {lease : Duration} {base : Record} {c : Claim}
    (hbase : s = some base ∨ (s = none ∧ base.fence = 0)) (h : Acquires base owner lease now c) :
    Sound ⟨s, some c.record, some (.claim e owner lease, .ok (.claimed c))⟩ := by
  have hfence : fenceOf s + 1 = c.record.fence := by
    rw [h.record]
    rcases hbase with rfl | ⟨rfl, hzero⟩
    · rfl
    · show 0 + 1 = base.fence + 1
      rw [hzero]
  have hopen : isTerminal s = false ∧ isYielded s = false := by
    rcases hbase with rfl | ⟨rfl, _⟩
    · exact ⟨h.open', by simp [isYielded, h.unyielded]⟩
    · exact ⟨rfl, rfl⟩
  have hrepl : c.record.replacementId = "" := by
    rw [h.record]
    exact h.unyielded
  have hunyielded : isYielded s ≠ true := by simp [hopen.2]
  apply sound_of_reply
  · refine ⟨?_, fun r hr hterminal => ?_, fun hy => absurd hy hunyielded,
      fun hy => absurd hy hunyielded⟩
    · show fenceOf s ≤ c.record.fence
      omega
    · subst hr
      exact absurd hterminal (by simpa [isTerminal] using hopen.1)
  · exact unleased_some fun hy => absurd hrepl hy
  · intro f hf
    simp only [Reply.acquired] at hf
    split_ifs at hf
    cases hf
    exact ⟨by show fenceOf s < c.record.fence; omega, rfl, hopen.1, hopen.2⟩
  · exact fun f hf => by cases hf
  · exact fun happ => by cases happ
  · exact fun hy => absurd hy hunyielded

/-- The resolution of a replacement. -/
lemma sound_of_resolved {workflowId : String} {finalize : Record → Except Err Transition}
    {r' : Record} {t : Transition} (hopen : r.state.terminal = false)
    (h : Resolves r workflowId t r') :
    Sound ⟨some r, some r',
      some (.resolveReplacement workflowId finalize, .ok (.applied true))⟩ := by
  apply sound_of_reply
  · apply keeps_some h.fence
    · intro ht
      rw [hopen] at ht
      cases ht
    · exact fun hy => h.replacementId ▸ hy
  · exact unleased_some fun _ => h.leaseUntil
  · exact fun f hf => by cases hf
  · exact fun f hf => by cases hf
  · exact fun _ => hopen
  · exact fun _ _ _ => ⟨workflowId, finalize, rfl⟩

/-- **Every write of a call is a sound step.** -/
theorem sound_of_evolves (h : Evolves codec op s w reply) (hs : Unleased s) :
    Sound ⟨s, some w, some (op, .ok reply)⟩ := by
  cases h with
  | registered h => exact sound_of_registered rfl (initialRecord_eq_ok h).2.2.2
  | acquired hbase h =>
    refine sound_of_acquired (hbase.imp_right fun hb => ⟨hb.1, ?_⟩) h
    exact (initialRecord_eq_ok hb.2).2.1
  | renewed h hnext =>
    subst hnext
    refine sound_of_leased h hs rfl rfl (by simp) rfl fun hy => ?_
    exact absurd (h.unyielded hs) hy
  | yielded h _ hyield =>
    obtain ⟨_, graph, _, _, _, _, rfl⟩ := applyYield_eq_ok hyield
    exact sound_of_leased h hs rfl rfl (by simp) rfl fun _ => rfl
  | finished h hfinish =>
    exact sound_of_leased h hs rfl rfl (by simp) hfinish.fence fun _ => hfinish.leaseUntil
  | progressed h =>
    refine sound_of_leased h hs rfl rfl (by simp) rfl fun hy => ?_
    exact absurd (h.unyielded hs) hy
  | canceled _ => exact sound_of_note hs rfl rfl rfl rfl rfl rfl rfl
  | resolved hopen h => exact sound_of_resolved hopen h
  | forgotten _ => exact sound_of_note hs rfl rfl rfl rfl rfl rfl rfl
  | released _ => exact sound_of_note hs rfl rfl rfl rfl rfl rfl rfl

/-- The store may keep another lease than the one proposed, as long as it gives none to a task that
has yielded; and the answer may be lost. -/
lemma Sound.stored {x x' : Except Err Reply} (h : Sound ⟨s, some w, some (op, x)⟩)
    (hx : x' = x ∨ ∃ e, x' = .error e) {lease : Time} (hlease : w.replacementId ≠ "" → lease = 0) :
    Sound ⟨s, some { w with leaseUntil := lease }, some (op, x')⟩ where
  keeps :=
    { fence := h.keeps.fence
      outcome := fun r hr hterminal => by
        obtain ⟨r', hr', hstate⟩ := h.keeps.outcome r hr hterminal
        cases hr'
        exact ⟨_, rfl, hstate⟩
      yielded := h.keeps.yielded
      idle := h.keeps.idle }
  unleased r hr hy := by
    cases hr
    exact hlease hy
  acquired op' r f hr hf := by
    rcases hx with rfl | ⟨e, rfl⟩
    · exact h.acquired op' r f hr hf
    · cases hr
  carried op' r f hr hf := by
    rcases hx with rfl | ⟨e, rfl⟩
    · exact h.carried op' r f hr hf
    · cases hr
  applied op' hr := by
    rcases hx with rfl | ⟨e, rfl⟩
    · exact h.applied op' hr
    · cases hr
  ended hy hopen hend := by
    obtain ⟨workflowId, finalize, y, hr⟩ := h.ended hy hopen hend
    obtain ⟨rfl, _⟩ := Prod.mk.inj (Option.some.inj hr)
    exact ⟨workflowId, finalize, x', rfl⟩

/-! ## Whole histories -/

/-- What holds of a history of calls on one task record. -/
structure Fenced (h : List Seen) : Prop where
  /-- Every acquired claim raises the fence to the one it hands out. -/
  rises : ∀ o ∈ h, ∀ op r f, o.reply = some (op, .ok r) → r.acquired = some f →
    fenceOf o.before < f ∧ fenceOf o.after = f
  /-- Fences are handed out in increasing order. -/
  increasing : h.Pairwise fun o o' => ∀ op r f op' r' f',
    o.reply = some (op, .ok r) → r.acquired = some f →
    o'.reply = some (op', .ok r') → r'.acquired = some f' → f < f'
  /-- Once a later step has raised the fence, nothing succeeds under an earlier one. -/
  superseded : ∀ o o' o'', [o, o', o''].Sublist h → ∀ op r f op'' r'',
    o.reply = some (op, .ok r) → r.acquired = some f →
    fenceOf o'.before < fenceOf o'.after →
    o''.reply = some (op'', .ok r'') → op''.carries ≠ some f
  /-- At most one step ends the task. -/
  once : h.Pairwise fun o o' =>
    isTerminal o.before = false ∧ isTerminal o.after = true →
      ¬ (isTerminal o'.before = false ∧ isTerminal o'.after = true)
  /-- Once the task has ended, no outcome is accepted. -/
  closed : h.Pairwise fun o o' => isTerminal o.after = true →
    (∀ t r, o'.reply ≠ some (.transition t, .ok r)) ∧
      ∀ op, o'.reply ≠ some (op, .ok (.applied true))
  /-- The outcome stays as it was written. -/
  outcome : h.Pairwise fun o o' => ∀ r, o.after = some r → r.state.terminal = true →
    ∃ r', o'.after = some r' ∧ r'.state = r.state ∧ r'.failure = r.failure ∧
      r'.finishedAt = r.finishedAt
  /-- A task that has yielded is not acquired again: no step raises its fence, whether the reply of
  that step is received or lost. -/
  unclaimed : h.Pairwise fun o o' => isYielded o.after = true →
    fenceOf o'.after = fenceOf o'.before
  /-- A task that has yielded is ended by the resolution of its replacement alone. -/
  resolved : h.Pairwise fun o o' => isYielded o.after = true →
    isTerminal o'.before = false → isTerminal o'.after = true →
    ∃ workflowId finalize x, o'.reply = some (.resolveReplacement workflowId finalize, x)

variable {h : List Seen}

/-- Facts about later steps follow from what is kept until then and from the soundness of the later
step. -/
lemma pairwise_of_keeps {R : Seen → Seen → Prop}
    (hkeeps : h.Pairwise fun o o' => Keeps o.after o'.before) (hsound : ∀ o ∈ h, Sound o)
    (hR : ∀ o o', Sound o → Sound o' → Keeps o.after o'.before → R o o') : h.Pairwise R :=
  hkeeps.imp_of_mem fun ho ho' hk => hR _ _ (hsound _ ho) (hsound _ ho') hk

/-- **A chain of sound steps is fenced.** -/
theorem fenced_of_sound (hlinked : Linked none h) (hstep : ∀ o ∈ h, Unleased o.before → Sound o) :
    Fenced h := by
  have hnone : Unleased none := fun r hr => by cases hr
  have hunleased := hlinked.invariant hnone fun o ho hb => (hstep o ho hb).unleased
  have hsound : ∀ o ∈ h, Sound o := fun o ho => hstep o ho (hunleased o ho).1
  have hkeeps : h.Pairwise fun o o' => Keeps o.after o'.before :=
    (hlinked.pairwise Keeps.refl (fun _ _ _ => Keeps.trans) fun o ho => (hsound o ho).keeps).1
  have hafter : ∀ o o', Sound o → Sound o' → Keeps o.after o'.before →
      isTerminal o.after = true → isTerminal o'.before = true := fun _ _ _ _ hk => hk.terminal
  refine ⟨?_, ?_, ?_, ?_, ?_, ?_, ?_, ?_⟩
  · intro o ho op r f hr hf
    obtain ⟨hlt, heq, _⟩ := (hsound o ho).acquired op r f hr hf
    exact ⟨hlt, heq⟩
  · refine pairwise_of_keeps hkeeps hsound fun o o' hs hs' hk op r f op' r' f' hr hf hr' hf' => ?_
    have h₁ := (hs.acquired op r f hr hf).2.1
    have h₂ := (hs'.acquired op' r' f' hr' hf').1
    have h₃ := hk.fence
    omega
  · intro o o' o'' hsub op r f op'' r'' hr hf hraise hr'' hcarries
    have hmem : ∀ p ∈ [o, o', o''], p ∈ h := fun p hp => hsub.subset hp
    have hpair := hkeeps.sublist hsub
    simp only [List.pairwise_cons, List.mem_cons, List.not_mem_nil, or_false, forall_eq_or_imp,
      forall_eq] at hpair
    obtain ⟨⟨hk, _⟩, hk', _⟩ := hpair
    have h₁ := ((hsound o (hmem o (by simp))).acquired op r f hr hf).2.1
    have h₂ := ((hsound o'' (hmem o'' (by simp))).carried op'' r'' f hr'' hcarries).1
    have h₃ := hk.fence
    have h₄ := hk'.fence
    omega
  · refine pairwise_of_keeps hkeeps hsound fun o o' hs hs' hk hend hend' => ?_
    have := hafter o o' hs hs' hk hend.2
    rw [hend'.1] at this
    cases this
  · refine pairwise_of_keeps hkeeps hsound fun o o' hs hs' hk hend => ?_
    have hterminal := hafter o o' hs hs' hk hend
    refine ⟨fun t r hr => ?_, fun op hr => ?_⟩
    · have := (hs'.carried _ r t.fence hr rfl).2
      rw [hterminal] at this
      cases this
    · have := hs'.applied op hr
      rw [hterminal] at this
      cases this
  · refine pairwise_of_keeps hkeeps hsound fun o o' _ hs' hk r hr hterminal => ?_
    exact (hk.trans hs'.keeps).outcome r hr hterminal
  · exact pairwise_of_keeps hkeeps hsound fun o o' _ hs' hk hy => hs'.keeps.idle (hk.yielded hy)
  · refine pairwise_of_keeps hkeeps hsound fun o o' _ hs' hk hy hopen hend => ?_
    exact hs'.ended (hk.yielded hy) hopen hend

/-! ## The two stores -/

lemma toPlan_eq_answer {r : Except Err Reply} (h : toPlan x = .answer r) :
    (∃ e, r = .error e) ∨ ∃ r', x = .ok (.answer r') ∧ r = .ok r' := by
  rcases x with e | (r' | ⟨w, r'⟩)
  · exact .inl ⟨e, (Plan.answer.inj h).symm⟩
  · exact .inr ⟨r', rfl, (Plan.answer.inj h).symm⟩
  · cases h

lemma toPlan_eq_write {w : Write} {r : Except Err Reply} (h : toPlan x = .write w r) :
    ∃ r', x = .ok (.write w r') ∧ r = .ok r' := by
  rcases x with e | (r' | ⟨w', r'⟩)
  · cases h
  · cases h
  · obtain ⟨rfl, rfl⟩ := Plan.write.inj h
    exact ⟨r', rfl, rfl⟩

lemma unlessFault_eq_ok (h : unlessFault t x = .ok p) : x = .ok p := by
  unfold unlessFault at h
  split at h
  · cases h
  · exact h

/-- A step without a write is sound when its answer is quiet. -/
lemma sound_of_answer {x : Except Err Reply} (hs : Unleased s) (h : Quiet op x) :
    Sound ⟨s, s, some (op, x)⟩ := by
  refine sound_of_quiet hs fun op' x' hreply => ?_
  cases hreply
  exact h

lemma memory_sound {o : Seen} (h : Atomic (memory codec) o) (hs : Unleased o.before) :
    Sound o := by
  cases h with
  | silent => exact sound_of_quiet hs fun _ _ h => by cases h
  | exhausted => exact sound_of_answer hs (quiet_error _ _)
  | answered hplan _ =>
    rcases toPlan_eq_answer hplan with ⟨e, rfl⟩ | ⟨r, hr, rfl⟩
    · exact sound_of_answer hs (quiet_error _ _)
    · exact sound_of_answer hs (says_of_propose (unlessFault_eq_ok hr))
  | refused hverdict => cases hverdict
  | written hplan hverdict hreply =>
    obtain ⟨r, hr, rfl⟩ := toPlan_eq_write hplan
    obtain rfl := Verdict.stored.inj hverdict
    have hsound := sound_of_evolves (evolves_of_propose (unlessFault_eq_ok hr)) hs
    exact hsound.stored (hreply.imp_right fun h => ⟨_, h⟩) fun hy => hsound.unleased _ rfl hy

/-- **Every history of the locked store is fenced.** -/
theorem memory_fenced (calls : List (Op × Reading)) :
    Fenced (direct (memory codec) none calls) :=
  fenced_of_sound (direct_linked none calls) fun o ho hs =>
    memory_sound (direct_atomic none calls o ho) hs

/-- The revision of the record; before there is one, zero. -/
def revisionOf (s : Option Record) : ℕ := (s.map Record.revision).getD 0

lemma lt_increment (h : n < maxUint64) : n < increment n := by
  unfold increment
  unfold maxUint64 at h
  rw [Nat.mod_eq_of_lt (by omega)]
  omega

/-- A write raises the revision, as long as there is a higher one. -/
lemma Evolves.revision_lt (h : Evolves codec op s w reply) (hmax : revisionOf s < maxUint64) :
    revisionOf s < w.revision := by
  cases h with
  | registered h =>
    rw [(initialRecord_eq_ok h).2.2.1]
    exact Nat.one_pos
  | acquired hbase h =>
    rw [h.record]
    rcases hbase with rfl | ⟨rfl, _⟩
    · exact Nat.lt_succ_self _
    · exact Nat.succ_pos _
  | renewed _ hnext =>
    subst hnext
    exact lt_increment hmax
  | yielded _ _ hyield =>
    obtain ⟨_, graph, _, _, _, _, rfl⟩ := applyYield_eq_ok hyield
    exact Nat.lt_succ_self _
  | finished _ hfinish =>
    rw [hfinish.next]
    exact Nat.lt_succ_self _
  | progressed _ => exact lt_increment hmax
  | canceled _ => exact lt_increment hmax
  | resolved _ h =>
    rw [h.next]
    exact Nat.lt_succ_self _
  | forgotten _ => exact lt_increment hmax
  | released _ => exact lt_increment hmax

/-- Neither a claim nor a renewal, which ask for a lease, is made of a task that has yielded. -/
lemma lease_of_propose {w : Write} (h : propose codec b op n t s = .ok (.write w reply))
    (hs : Unleased s) (hy : w.record.replacementId ≠ "") : w.lease = 0 := by
  obtain ⟨hevolves, hzero | ⟨e, owner, lease, rfl⟩ | ⟨fence, owner, lease, rfl⟩, -⟩ :=
    says_of_propose h
  · exact hzero
  · generalize hw : w.record = next at hevolves hy
    cases hevolves with
    | acquired _ hacq =>
      rw [hacq.record] at hy
      exact absurd hacq.unyielded hy
  · generalize hw : w.record = next at hevolves hy
    cases hevolves with
    | renewed hlease hnext =>
      subst hnext
      exact absurd (hlease.unyielded hs) hy

section Redis

variable {resultTTL tombstoneTTL : Duration}

variable {op : Op} {n : ℕ} {t : Reading} {row : Option Row} {w : Write} {x : Except Err Reply}

lemma redis_plan_write (h : (redis codec resultTTL tombstoneTTL).plan op n t row = .write w x) :
    ∃ r, x = .ok r ∧
      propose codec (.redis resultTTL tombstoneTTL) op n t (row.map Row.view) =
        .ok (.write w r) ∧ casCheck ((row.map Row.revision).getD 0) w = .ok () := by
  obtain ⟨r, hr, rfl⟩ := toPlan_eq_write h
  obtain ⟨_, _, hr⟩ := bind_eq_ok.mp (unlessFault_eq_ok hr)
  obtain ⟨p, hp, hr⟩ := bind_eq_ok.mp hr
  rcases p with r' | ⟨w', r'⟩
  · cases hr
  · obtain ⟨_, hcas, hr⟩ := bind_eq_ok.mp hr
    obtain ⟨rfl, rfl⟩ := Plan.write.inj (Except.ok.inj hr)
    exact ⟨r', rfl, hp, hcas⟩

lemma redis_plan_answer (h : (redis codec resultTTL tombstoneTTL).plan op n t row = .answer x) :
    Quiet op x := by
  rcases toPlan_eq_answer h with ⟨e, rfl⟩ | ⟨r, hr, rfl⟩
  · exact quiet_error _ _
  · obtain ⟨_, _, hr⟩ := bind_eq_ok.mp (unlessFault_eq_ok hr)
    obtain ⟨p, hp, hr⟩ := bind_eq_ok.mp hr
    rcases p with r' | ⟨w', r'⟩
    · obtain rfl := Plan.answer.inj (Except.ok.inj hr)
      exact says_of_propose hp
    · obtain ⟨_, _, hr⟩ := bind_eq_ok.mp hr
      cases hr

/-- What the script stores is what was proposed, under a lease of its own. -/
lemma recordCAS_stored {row' : Row} (h : recordCAS t row w = .stored row') :
    row'.record = w.record ∧ row'.leaseMillis = newLease w (unixMilli t.now) := by
  simp only [recordCAS] at h
  split_ifs at h
  obtain rfl := Verdict.stored.inj h
  exact ⟨rfl, rfl⟩

lemma recordCAS_refused (h : recordCAS t row w = .refused x) : ∃ e, x = .error e := by
  simp only [recordCAS] at h
  split_ifs at h <;> exact ⟨_, (Verdict.refused.inj h).symm⟩

lemma revisionOf_view (row : Option Row) :
    revisionOf (row.map Row.view) = (row.map Row.revision).getD 0 := by
  rcases row with _ | row
  · rfl
  · exact row.revision_eq.symm

lemma redis_raises : (redis codec resultTTL tombstoneTTL).Raises := by
  intro op n t t' row w x row' hplan hverdict
  obtain ⟨r, _, hpropose, hcas⟩ := redis_plan_write hplan
  have hmax : revisionOf (row.map Row.view) < maxUint64 := by
    rw [revisionOf_view]
    unfold casCheck at hcas
    by_contra hge
    rw [if_pos (not_lt.mp hge)] at hcas
    cases hcas
  have hlt := (evolves_of_propose hpropose).revision_lt hmax
  have hrow : row'.revision = w.record.revision := by
    rw [row'.revision_eq, (recordCAS_stored hverdict).1]
  have hbefore : (redis codec resultTTL tombstoneTTL).revisionOf row =
      revisionOf (row.map Row.view) := by
    rw [revisionOf_view]
    rcases row with _ | row <;> rfl
  show (redis codec resultTTL tombstoneTTL).revisionOf row < row'.revision
  rw [hbefore, hrow]
  exact hlt

lemma redis_sound {o : Observation Row Op (Except Err Reply)}
    (h : Atomic (redis codec resultTTL tombstoneTTL) o) (hs : Unleased (o.map Row.view).before) :
    Sound (o.map Row.view) := by
  cases h with
  | silent => exact sound_of_quiet hs fun _ _ h => by cases h
  | exhausted => exact sound_of_answer hs (quiet_error _ _)
  | answered hplan _ => exact sound_of_answer hs (redis_plan_answer hplan)
  | refused hverdict =>
    obtain ⟨e, rfl⟩ := recordCAS_refused hverdict
    exact sound_of_answer hs (quiet_error _ _)
  | @written v op n t t' w x x' row hplan hverdict hreply =>
    obtain ⟨r, rfl, hpropose, _⟩ := redis_plan_write hplan
    have hsound := sound_of_evolves (evolves_of_propose hpropose) hs
    obtain ⟨hrecord, hlease⟩ := recordCAS_stored hverdict
    have hview : row.view = { w.record with leaseUntil := row.view.leaseUntil } := by
      unfold Row.view
      rw [hrecord]
    show Sound ⟨v.map Row.view, some row.view, some (op, x')⟩
    rw [hview]
    refine hsound.stored (hreply.imp_right fun h => ⟨_, h⟩) fun hy => ?_
    -- a yielded task asks for no lease, so the script writes none
    have hzero : newLease w (unixMilli t'.now) = 0 := by
      unfold newLease
      rw [lease_of_propose hpropose hs hy, if_neg (by decide),
        if_pos (hsound.unleased _ rfl hy)]
    show (if 0 < row.leaseMillis then ofUnixMilli row.leaseMillis else 0) = 0
    rw [hlease, hzero]
    rfl

/-- **Every history of the optimistic store is fenced**, however its reads and writes interleave. -/
theorem redis_fenced (events : List (Event Op Reading)) :
    Fenced ((history (redis codec resultTTL tombstoneTTL) {} events).map
      (Observation.map Row.view)) := by
  have hlinked : Linked none ((history (redis codec resultTTL tombstoneTTL) {} events).map
      (Observation.map Row.view)) := (history_linked {} events).map Row.view
  refine fenced_of_sound hlinked fun o ho hs => ?_
  obtain ⟨o', ho', rfl⟩ := List.mem_map.mp ho
  exact redis_sound (history_atomic redis_raises (coherent_initial _) events o' ho') hs

end Redis

/-! ## Both stores -/

/-- **Task execution is fenced in both stores.** In every history of calls on one task record, by
any owners and with any clock readings: a claim raises the fence; nothing succeeds under a
superseded fence; the task ends once and its outcome stays; a task that has yielded is not claimed
again and ends by the resolution of its replacement. -/
theorem execution_fenced (codec : Codec) :
    (∀ calls : List (Op × Reading), Fenced (direct (memory codec) none calls)) ∧
      ∀ (resultTTL tombstoneTTL : Duration) (events : List (Event Op Reading)),
        Fenced ((history (redis codec resultTTL tombstoneTTL) {} events).map
          (Observation.map Row.view)) :=
  ⟨memory_fenced, fun _ _ => redis_fenced⟩

end Gogo.Async

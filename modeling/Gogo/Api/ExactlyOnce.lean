import Gogo.Api.Idempotency

/-!
# Exactly-once execution

* `isRedaction_removal` — what `isRedaction` accepts is the original without some members.
* `execute_cases` — all that a call can do to the row of its identity.
* `Stored`, `stored_rowAfter` — a committed receipt is sealed as itself again, however the database
  spells its numbers.
* `exactly_once` — **a committed receipt expires the retention time after it was sealed; until then
  no other mutation runs, other input is refused, and what succeeds is a replay of the receipt.**
-/

namespace Gogo.Api

open List Gogo.Lib

/-! ## Redaction -/

/-- Scalars with one text are equal, and nothing lies below them. -/
lemma eq_of_sameScalar {d d' : Document} (h : sameScalar d d' = true) :
    d = d' ∧ Doc.SameTop d d' ∧ ∀ s p, Doc.look (s :: p) d' = none := by
  cases d <;> cases d' <;> simp only [sameScalar, beq_iff_eq, Bool.false_eq_true] at h
  · exact ⟨rfl, rfl, fun s p => by cases s <;> rfl⟩
  · subst h
    exact ⟨rfl, rfl, fun s p => by cases s <;> rfl⟩
  · obtain rfl := Spelling.text_injective h
    exact ⟨rfl, rfl, fun s p => by cases s <;> rfl⟩
  · subst h
    exact ⟨rfl, rfl, fun s p => by cases s <;> rfl⟩

variable {v before after : Document} {name digest : String} {e : Failure} {ran : Bool}
  {config : Config} {call : Call} {row : Option Receipt} {prepared : Prepared} {lib : Library}
  {s : Sealed} {receipt : Receipt}

lemma redactsItems_getElem? {before after : List Document} (hlen : before.length = after.length)
    (h : redactsItems before after = true) {i : ℕ} (hv : after[i]? = some v) :
    ∃ w, before[i]? = some w ∧ isRedaction w v = true := by
  induction before generalizing after i with
  | nil =>
    obtain rfl := length_eq_zero_iff.mp hlen.symm
    cases hv
  | cons old before ih =>
    cases after with
    | nil => cases hv
    | cons value after =>
      rw [redactsItems, Bool.and_eq_true] at h
      cases i with
      | zero =>
        cases hv
        exact ⟨old, rfl, h.1⟩
      | succ i => exact ih (Nat.succ.inj hlen) h.2 hv

lemma mem_of_lookup {l : List (String × Document)} (h : l.lookup name = some v) :
    (name, v) ∈ l := by
  obtain ⟨l₁, l₂, rfl, -⟩ := lookup_eq_some_iff.mp h
  simp

lemma redactsMembers_mem {before after : List (String × Document)}
    (h : redactsMembers before after = true) (hv : (name, v) ∈ after) :
    ∃ w, before.lookup name = some w ∧ isRedaction w v = true := by
  induction after with
  | nil => cases hv
  | cons m after ih =>
    obtain ⟨name', value⟩ := m
    rw [redactsMembers, Bool.and_eq_true] at h
    rcases mem_cons.mp hv with heq | hv
    · obtain ⟨rfl, rfl⟩ := Prod.mk.inj heq
      cases hold : before.lookup name with
      | none => simp [hold] at h
      | some old => exact ⟨old, rfl, by simpa [hold] using h.1⟩
    · exact ih h.2 hv

/-- What `isRedaction` accepts has the same top and is again accepted below it. -/
lemma isRedaction_cases (h : isRedaction before after = true) :
    (before = after ∧ Doc.SameTop before after ∧ ∀ s p, Doc.look (s :: p) after = none) ∨
    (∃ b a, before = .arr b ∧ after = .arr a ∧ b.length = a.length ∧ redactsItems b a = true) ∨
    (∃ b a, before = .obj b ∧ after = .obj a ∧ redactsMembers b a = true) := by
  cases after with
  | null =>
    have hsame : sameScalar before .null = true := by cases before <;> exact h
    exact .inl (eq_of_sameScalar hsame)
  | bool b =>
    have hsame : sameScalar before (.bool b) = true := by cases before <;> exact h
    exact .inl (eq_of_sameScalar hsame)
  | num n =>
    have hsame : sameScalar before (.num n) = true := by cases before <;> exact h
    exact .inl (eq_of_sameScalar hsame)
  | str s =>
    have hsame : sameScalar before (.str s) = true := by cases before <;> exact h
    exact .inl (eq_of_sameScalar hsame)
  | arr a =>
    cases before <;> simp only [isRedaction, Bool.false_eq_true, Bool.and_eq_true,
      beq_iff_eq] at h
    exact .inr (.inl ⟨_, a, rfl, rfl, h.1, h.2⟩)
  | obj a =>
    cases before <;> simp only [isRedaction, Bool.false_eq_true] at h
    exact .inr (.inr ⟨_, a, rfl, rfl, h⟩)

/-- **A redaction only removes members of objects.** -/
theorem isRedaction_removal (h : isRedaction before after = true) : Doc.Removal before after := by
  intro path
  induction path generalizing before after with
  | nil =>
    intro v hv
    cases hv
    refine ⟨before, rfl, ?_⟩
    rcases isRedaction_cases h with ⟨-, htop, -⟩ | ⟨b, a, rfl, rfl, hlen, -⟩ |
      ⟨b, a, rfl, rfl, -⟩
    · exact htop
    · exact hlen
    · exact trivial
  | cons step path ih =>
    intro v hv
    rcases isRedaction_cases h with ⟨-, -, hnone⟩ | ⟨b, a, rfl, rfl, hlen, hitems⟩ |
      ⟨b, a, rfl, rfl, hmembers⟩
    · rw [hnone] at hv
      cases hv
    · cases step with
      | member name => cases hv
      | item index =>
        obtain ⟨x, hx, hlook⟩ := Option.bind_eq_some_iff.mp hv
        obtain ⟨y, hy, hred⟩ := redactsItems_getElem? hlen hitems hx
        obtain ⟨w, hw, htop⟩ := ih hred v hlook
        exact ⟨w, Option.bind_eq_some_iff.mpr ⟨y, hy, hw⟩, htop⟩
    · cases step with
      | item index => cases hv
      | member name =>
        obtain ⟨x, hx, hlook⟩ := Option.bind_eq_some_iff.mp hv
        obtain ⟨y, hy, hred⟩ := redactsMembers_mem hmembers (mem_of_lookup hx)
        obtain ⟨w, hw, htop⟩ := ih hred v hlook
        exact ⟨w, Option.bind_eq_some_iff.mpr ⟨y, hy, hw⟩, htop⟩

/-- The numbers of a redaction are numbers of the original. -/
lemma forall_of_isRedaction {p : Spelling → Prop} (after : Document) :
    ∀ before, isRedaction before after = true → Doc.Forall p before → Doc.Forall p after := by
  induction after using Doc.induct with
  | null => exact fun _ _ _ => trivial
  | bool b => exact fun _ _ _ => trivial
  | str s => exact fun _ _ _ => trivial
  | num n =>
    intro before h hp
    have hsame : sameScalar before (.num n) = true := by cases before <;> exact h
    exact (eq_of_sameScalar hsame).1 ▸ hp
  | arr items ih =>
    intro before h hp
    obtain ⟨rfl, -, -⟩ | ⟨b, a, rfl, ha, hlen, hitems⟩ | ⟨b, a, rfl, ha, -⟩ := isRedaction_cases h
    · exact hp
    · obtain rfl := Doc.arr.inj ha
      rw [Doc.Forall, Doc.forallItems_iff] at hp ⊢
      intro v hv
      obtain ⟨i, hi⟩ := mem_iff_getElem?.mp hv
      obtain ⟨w, hw, hred⟩ := redactsItems_getElem? hlen hitems hi
      exact ih v hv w hred (hp w (mem_of_getElem? hw))
    · cases ha
  | obj members ih =>
    intro before h hp
    obtain ⟨rfl, -, -⟩ | ⟨b, a, rfl, ha, -⟩ | ⟨b, a, rfl, ha, hmembers⟩ := isRedaction_cases h
    · exact hp
    · cases ha
    · obtain rfl := Doc.obj.inj ha
      rw [Doc.Forall, Doc.forallMembers_iff] at hp ⊢
      intro m hm
      obtain ⟨w, hw, hred⟩ := redactsMembers_mem hmembers hm
      exact ih m hm w hred (hp _ (mem_of_lookup hw))

/-! ## One call -/

/-- A call whose transaction was not confirmed reports an error and never a commit; it reports an
unknown outcome if the commit itself did. -/
structure Unconfirmed (ran applied prepared : Bool) (e : Failure) (x : Execution) : Prop where
  ran_eq : x.ran = ran
  applied_eq : x.applied = applied
  failure_ne : x.failure ≠ none
  response_eq : x.response = none
  outcome_ne : x.outcome ≠ .committed
  unknown : prepared = true → e.isUnknownCommit = true → x.outcome = .unknown

lemma isUnknownCommit_join (h : e.isUnknownCommit = true) (cleanup : Failure) :
    (Failure.join e cleanup).isUnknownCommit = true := by
  rw [Failure.isUnknownCommit, beq_iff_eq] at h ⊢
  rw [Failure.databaseError, h]
  rfl

lemma unconfirmed_finish {applied prepared : Bool} {e' : Failure}
    (h : e.isUnknownCommit = true → e'.isUnknownCommit = true) :
    Unconfirmed ran applied prepared e (withoutCommit.finish ran applied prepared e') := by
  unfold withoutCommit.finish
  by_cases hunknown : (prepared && e'.isUnknownCommit) = true
  · rw [if_pos hunknown]
    exact ⟨rfl, rfl, by simp, rfl, by simp, fun _ _ => rfl⟩
  · rw [if_neg hunknown]
    refine ⟨rfl, rfl, by simp, rfl, by simp, fun hprepared he => ?_⟩
    exact absurd (by rw [hprepared, h he]; rfl) hunknown

lemma unconfirmed_withoutCommit (call : Call) (ran applied prepared : Bool) (e : Failure) :
    Unconfirmed ran applied prepared e (withoutCommit call ran applied prepared e) := by
  unfold withoutCommit
  cases call.rollback with
  | panic => exact ⟨rfl, rfl, by simp [uncertain], rfl, by simp [uncertain], fun _ _ => rfl⟩
  | value _ => exact unconfirmed_finish id
  | failure cleanup => exact unconfirmed_finish fun h => isUnknownCommit_join h cleanup

/-- The transaction of a call was not applied: the call reports an error and no commit. -/
structure NotApplied (config : Config) (call : Call) (row : Option Receipt) (x : Execution) :
    Prop where
  applied_eq : x.applied = false
  failure_ne : x.failure ≠ none
  outcome_ne : x.outcome ≠ .committed
  ran_admitted : x.ran = true → ∃ digest, precheck config call = .ok digest ∧
    (transact config call digest row).1 = true

/-- The transaction of a call was applied, after its function returned what it prepared. -/
structure Applied (config : Config) (call : Call) (row : Option Receipt) (x : Execution)
    (digest : String) (prepared : Prepared) : Prop where
  applied_eq : x.applied = true
  outcome_ne : x.outcome ≠ .unchanged
  admitted : precheck config call = .ok digest
  transacted : transact config call digest row = (x.ran, .ok prepared)
  response_eq : x.failure = none → x.response = some prepared.response

lemma applied_afterCommit (hprecheck : precheck config call = .ok digest)
    (htransact : transact config call digest row = (ran, .ok prepared)) :
    Applied config call row (afterCommit call ran prepared) digest prepared := by
  unfold afterCommit
  cases call.callbacks <;> exact ⟨rfl, by simp, hprecheck, htransact, by simp⟩

lemma applied_of_unknown (hprecheck : precheck config call = .ok digest)
    (htransact : transact config call digest row = (ran, .ok prepared)) :
    Applied config call row (withoutCommit call ran true true (.database true)) digest
      prepared := by
  have h := unconfirmed_withoutCommit call ran true true (.database true)
  have hunknown := h.unknown rfl rfl
  refine ⟨h.applied_eq, ?_, hprecheck, ?_, fun hnone => absurd hnone h.failure_ne⟩
  · rw [hunknown]
    simp
  · rw [h.ran_eq, htransact]

/-- **All that a call can do.** Either its transaction is not applied and the row stays, or the
function in it returned without an error and the row is the one it prepared. -/
theorem execute_cases (config : Config) (call : Call) (row : Option Receipt) :
    (NotApplied config call row (execute config call row).1 ∧ (execute config call row).2 = row) ∨
    ∃ digest prepared, Applied config call row (execute config call row).1 digest prepared ∧
      (execute config call row).2 = some prepared.row := by
  unfold execute
  cases hprecheck : precheck config call with
  | error e =>
    exact .inl ⟨⟨rfl, by simp [unchanged], by simp [unchanged], by simp [unchanged]⟩, rfl⟩
  | ok digest =>
    simp only [atomic]
    cases call.fails .begin with
    | some e =>
      exact .inl ⟨⟨rfl, by simp [unchanged], by simp [unchanged], by simp [unchanged]⟩, rfl⟩
    | none =>
      cases htransact : transact config call digest row with
      | mk ran result =>
        have hran : ran = true → ∃ digest', precheck config call = .ok digest' ∧
            (transact config call digest' row).1 = true :=
          fun h => ⟨digest, hprecheck, by rw [htransact]; exact h⟩
        -- Every way to end without a commit gives the first case.
        have hidle : ∀ (prepared : Bool) (e : Failure), NotApplied config call row
            (withoutCommit call ran false prepared e) := by
          intro prepared e
          have h := unconfirmed_withoutCommit call ran false prepared e
          exact ⟨h.applied_eq, h.failure_ne, h.outcome_ne,
            fun hr => hran (h.ran_eq ▸ hr)⟩
        cases result with
        | error e => exact .inl ⟨hidle false e, rfl⟩
        | ok prepared =>
          cases call.rollbackOnly with
          | true => exact .inl ⟨hidle true _, rfl⟩
          | false =>
            cases call.commit with
            | confirmed =>
              exact .inr ⟨digest, prepared,
                applied_afterCommit hprecheck htransact, rfl⟩
            | refused e known => exact .inl ⟨hidle true e, rfl⟩
            | unknown applied =>
              cases applied with
              | false => exact .inl ⟨hidle true _, rfl⟩
              | true => exact .inr ⟨digest, prepared,
                  applied_of_unknown hprecheck htransact, rfl⟩
            | panic applied =>
              cases applied with
              | false => exact .inl ⟨⟨rfl, by simp [uncertain], by simp [uncertain],
                  hran⟩, rfl⟩
              | true => exact .inr ⟨digest, prepared, ⟨rfl, by simp [uncertain],
                  hprecheck, htransact, by simp [uncertain]⟩, rfl⟩

/-! ## Receipts -/

/-- A response in the form that sealing gives it. -/
structure Stored (s : Sealed) : Prop where
  body : Doc.ForallMembers (fun n => canonicalToken n = n) s.body
  key : ∀ m ∈ s.objectKey, KeyMember m
  headers : sealHeaders s.status s.headers = s.headers

lemma canonicalToken_canonicalToken (n : Spelling) :
    canonicalToken (canonicalToken n) = canonicalToken n :=
  (canonicalToken_eq_iff _ _).mpr (value_canonicalToken n)

mutual

theorem forall_map_of_forall {f : Spelling → Spelling} {p : Spelling → Prop} (h : ∀ n, p (f n)) :
    ∀ d : Document, Doc.Forall p (Doc.map f d)
  | .null => trivial
  | .bool _ => trivial
  | .num n => h n
  | .str _ => trivial
  | .arr items => forallItems_mapItems h items
  | .obj members => forallMembers_mapMembers h members

theorem forallItems_mapItems {f : Spelling → Spelling} {p : Spelling → Prop} (h : ∀ n, p (f n)) :
    ∀ items : List Document, Doc.ForallItems p (Doc.mapItems f items)
  | [] => trivial
  | d :: items => ⟨forall_map_of_forall h d, forallItems_mapItems h items⟩

theorem forallMembers_mapMembers {f : Spelling → Spelling} {p : Spelling → Prop}
    (h : ∀ n, p (f n)) :
    ∀ members : List (String × Document), Doc.ForallMembers p (Doc.mapMembers f members)
  | [] => trivial
  | (_, d) :: members => ⟨forall_map_of_forall h d, forallMembers_mapMembers h members⟩

end

lemma stored_of_seal {r : MutationResponse} (h : sealMutationResponse lib r = .ok s) :
    Stored s := by
  obtain ⟨key, body, hseals⟩ := (sealMutationResponse_eq_ok_iff lib r s).mp h
  refine ⟨?_, (keyMember_of_forall₂ hseals.sealedKey).1, ?_⟩
  · rw [← hseals.sealedBody]
    exact forallMembers_mapMembers canonicalToken_canonicalToken body
  · rw [hseals.sameStatus, hseals.sealedHeaders, sealHeaders_sealHeaders]

lemma Stored.redacted (h : Stored s) {body : List (String × Document)}
    (hbody : redactsMembers s.body body = true) : Stored { s with body := body } where
  body := by
    have hred : isRedaction (.obj s.body) (.obj body) = true := hbody
    exact forall_of_isRedaction (.obj body) _ hred h.body
  key := h.key
  headers := h.headers

/-- **A stored response is sealed as itself.** However the database spells its numbers, a sealing
that succeeds gives the response that was stored. -/
theorem Stored.eq_of_seal {s' t : Sealed} (hs : Stored s) (hr : s'.Respells s)
    (h : sealMutationResponse lib s'.reopen = .ok t) : t = s := by
  obtain ⟨key, body, hseals⟩ := (sealMutationResponse_eq_ok_iff lib _ t).mp h
  obtain ⟨-, -, rfl⟩ := (receiptObject_ofMembers_iff lib _ _).mp hseals.copiedKey
  obtain ⟨-, -, rfl⟩ := (receiptObject_ofMembers_iff lib _ _).mp hseals.copiedBody
  have hstatus : t.status = s.status := hseals.sameStatus.trans hr.status
  have hheaders : t.headers = s.headers := by
    rw [hseals.sealedHeaders]
    change sealHeaders s'.status s'.headers = s.headers
    rw [hr.status, hr.headers, hs.headers]
  have hbody : t.body = s.body := by
    rw [← hseals.sealedBody,
      (Doc.mapMembers_eq_mapMembers_iff canonicalToken_eq_iff s'.body s.body).mpr hr.body]
    exact Doc.obj.inj (Doc.map_eq_self (d := .obj s.body) hs.body)
  have hkey : t.objectKey = s.objectKey := by
    have hread := (keyMember_of_forall₂ hseals.sealedKey).2
    have hthis := mapM_eq_some_iff.mpr (forall₂_sealKeyMember hs.key hr.objectKey hread)
    have hthat := mapM_eq_some_iff.mpr hseals.sealedKey
    exact Option.some.inj (hthat.symm.trans hthis)
  cases t
  cases s
  simp_all

/-! ## The function in the transaction -/

lemma redact_ok {response : Sealed} (h : redact config call response = .ok s) :
    ∃ body, redactsMembers response.body body = true ∧ s = { response with body := body } := by
  simp only [redact, bind_eq_ok, refuseIf_eq_ok] at h
  obtain ⟨_, -, _, -, _, -, body, -, _, hbody, hs⟩ := h
  exact ⟨body, by simpa using hbody, (Except.ok.inj hs).symm⟩

/-- What the branch that runs the mutation leaves: a receipt of the digest that lives for the
retention time, with the response that is returned. -/
lemma mutateAndSeal_ok (h : mutateAndSeal config call digest = .ok prepared) :
    prepared.row.requestDigest = digest ∧ Stored prepared.row.response ∧
      prepared.response = prepared.row.response ∧
      prepared.row.expiresAt = call.sealedAt + config.retention := by
  simp only [mutateAndSeal, bind_eq_ok, mapError_eq_ok] at h
  obtain ⟨_, -, s, hseal, _, -, t, hredact, _, -, _, -, hprepared⟩ := h
  cases hprepared
  obtain ⟨body, hbody, rfl⟩ := redact_ok hredact
  exact ⟨rfl, (stored_of_seal hseal).redacted hbody, rfl, rfl⟩

/-- What the branch for a receipt that has not expired leaves and returns. -/
lemma replay_ok (hstored : Stored receipt.response)
    (h : replay config call digest receipt = .ok prepared) :
    prepared.row = receipt ∧ receipt.requestDigest = digest ∧
      ∃ body, redactsMembers receipt.response.body body = true ∧
        prepared.response = { receipt.response with body := body } := by
  simp only [replay, bind_eq_ok, refuseIf_eq_ok, mapError_eq_ok] at h
  obtain ⟨_, -, _, hdigest, t, hseal, s, hredact, hprepared⟩ := h
  cases hprepared
  obtain rfl := hstored.eq_of_seal (call.stored_respells _) hseal
  obtain ⟨body, hbody, rfl⟩ := redact_ok hredact
  exact ⟨rfl, not_not.mp hdigest, body, hbody, rfl⟩

lemma lockReceipt_some {locked : Receipt × Bool}
    (h : lockReceipt config call digest (some receipt) = .ok locked) :
    locked = (receipt, false) := by
  simp only [lockReceipt, bind_eq_ok] at h
  obtain ⟨_, -, _, -, _, -, _, -, h⟩ := h
  exact (Except.ok.inj h).symm

/-- A receipt that has not expired is replayed. -/
lemma transact_of_lt {config : Config} {call : Call} {digest : String} {receipt : Receipt}
    (h : call.lockedAt < receipt.expiresAt) :
    (transact config call digest (some receipt)).1 = false ∧
    ∀ prepared, (transact config call digest (some receipt)).2 = .ok prepared →
      replay config call digest receipt = .ok prepared := by
  unfold transact
  cases hlock : lockReceipt config call digest (some receipt) with
  | error e => exact ⟨rfl, fun _ h => by cases h⟩
  | ok locked =>
    obtain rfl := lockReceipt_some hlock
    simp [h]

/-- A function that ran the mutation returns what that branch does. -/
lemma transact_ran (h : transact config call digest row = (true, .ok prepared)) :
    mutateAndSeal config call digest = .ok prepared := by
  unfold transact at h
  cases hlock : lockReceipt config call digest row with
  | error e =>
    rw [hlock] at h
    cases (Prod.mk.inj h).1
  | ok locked =>
    rw [hlock] at h
    simp only at h
    split_ifs at h
    · cases (Prod.mk.inj h).1
    · exact (Prod.mk.inj h).2

/-- A function that did not run the mutation and returns without an error replays a receipt. -/
lemma transact_not_ran (h : transact config call digest row = (false, .ok prepared)) :
    ∃ receipt, row = some receipt ∧ replay config call digest receipt = .ok prepared := by
  unfold transact at h
  cases hlock : lockReceipt config call digest row with
  | error e =>
    rw [hlock] at h
    cases (Prod.mk.inj h).2
  | ok locked =>
    rw [hlock] at h
    simp only at h
    split_ifs at h with hfresh
    · cases row with
      | some receipt =>
        obtain rfl := lockReceipt_some hlock
        exact ⟨receipt, rfl, (Prod.mk.inj h).2⟩
      | none =>
        simp only [lockReceipt, bind_eq_ok] at hlock
        obtain ⟨_, -, _, -, _, -, _, -, hlock⟩ := hlock
        cases hlock
        exact absurd hfresh.1 (by simp)
    · cases (Prod.mk.inj h).1

/-! ## Runs -/

/-- A call only ever leaves stored responses. -/
lemma stored_execute (call : Call) (hrow : ∀ receipt ∈ row, Stored receipt.response) :
    ∀ receipt ∈ (execute config call row).2, Stored receipt.response := by
  rcases execute_cases config call row with ⟨-, hsame⟩ | ⟨digest, prepared, happlied, hnew⟩
  · rw [hsame]
    exact hrow
  · rw [hnew]
    intro receipt hreceipt
    cases hreceipt
    have htransact := happlied.transacted
    cases hran : (execute config call row).1.ran with
    | true =>
      rw [hran] at htransact
      exact (mutateAndSeal_ok (transact_ran htransact)).2.1
    | false =>
      rw [hran] at htransact
      obtain ⟨receipt, rfl, hreplay⟩ := transact_not_ran htransact
      rw [(replay_ok (hrow receipt rfl) hreplay).1]
      exact hrow receipt rfl

lemma stored_rowAfter (calls : List Call) (hrow : ∀ receipt ∈ row, Stored receipt.response) :
    ∀ receipt ∈ rowAfter config row calls, Stored receipt.response := by
  induction calls generalizing row with
  | nil => exact hrow
  | cons call calls ih => exact ih (stored_execute call hrow)

/-- What a call does before the expiry of the receipt that is there. -/
structure Replays (config : Config) (call : Call) (receipt : Receipt) (x : Execution) : Prop where
  not_ran : x.ran = false
  same_digest : x.failure = none → precheck config call = .ok receipt.requestDigest
  response : x.failure = none → ∃ body, redactsMembers receipt.response.body body = true ∧
    x.response = some { receipt.response with body := body }

/-- **Before the expiry of a receipt a call keeps it and replays it.** -/
lemma execute_of_lt {config : Config} {call : Call} {receipt : Receipt}
    (hstored : Stored receipt.response) (hlt : call.lockedAt < receipt.expiresAt) :
    Replays config call receipt (execute config call (some receipt)).1 ∧
      (execute config call (some receipt)).2 = some receipt := by
  rcases execute_cases config call (some receipt) with
    ⟨hnot, hsame⟩ | ⟨digest, prepared, happlied, hnew⟩
  · refine ⟨⟨?_, fun h => absurd h hnot.failure_ne, fun h => absurd h hnot.failure_ne⟩, hsame⟩
    by_contra hran
    obtain ⟨digest, -, hmutated⟩ := hnot.ran_admitted (Bool.eq_true_of_not_eq_false hran)
    rw [(transact_of_lt hlt).1] at hmutated
    cases hmutated
  · obtain ⟨hfirst, hreplay⟩ := @transact_of_lt config call digest receipt hlt
    rw [happlied.transacted] at hfirst hreplay
    obtain ⟨hrow, hdigest, body, hbody, hresponse⟩ :=
      replay_ok hstored (hreplay prepared rfl)
    refine ⟨⟨hfirst, fun _ => ?_, fun h => ⟨body, hbody, ?_⟩⟩, ?_⟩
    · rw [hdigest]
      exact happlied.admitted
    · rw [happlied.response_eq h, hresponse]
    · rw [hnew, hrow]

lemma rowAfter_of_lt (hstored : Stored receipt.response) {calls : List Call}
    (hlt : ∀ call ∈ calls, call.lockedAt < receipt.expiresAt) :
    rowAfter config (some receipt) calls = some receipt := by
  induction calls with
  | nil => rfl
  | cons call calls ih =>
    rw [forall_mem_cons] at hlt
    rw [rowAfter, (execute_of_lt hstored hlt.1).2]
    exact ih hlt.2

/-! ## Exactly once -/

/-- Equal inputs: equal as JSON, with numbers compared by value. -/
def SameInput (config : Config) (c d : Call) : Prop :=
  ∃ a b, receiptObject config.lib c.input = .ok a ∧ receiptObject config.lib d.input = .ok b ∧
    Doc.mapMembers Spelling.value a = Doc.mapMembers Spelling.value b

/-- The digests of the inputs of two calls do not collide. -/
def NoCollision (config : Config) (c d : Call) : Prop :=
  ∀ a b, receiptObject config.lib c.input = .ok a → receiptObject config.lib d.input = .ok b →
    config.digest (Doc.mapMembers canonicalToken a) =
      config.digest (Doc.mapMembers canonicalToken b) →
    Doc.mapMembers canonicalToken a = Doc.mapMembers canonicalToken b

lemma precheck_ok (h : precheck config call = .ok digest) :
    ∃ a, receiptObject config.lib call.input = .ok a ∧
      digest = config.digest (Doc.mapMembers canonicalToken a) := by
  simp only [precheck, bind_eq_ok, mapError_eq_ok, canonicalOperation_eq_ok_iff] at h
  obtain ⟨_, -, _, -, _, -, _, -, _, -, _, -, a, ha, _, ⟨-, rfl⟩, hdigest⟩ := h
  exact ⟨a, ha, (Except.ok.inj hdigest).symm⟩

lemma sameInput_of_digest {c d : Call} (hno : NoCollision config c d)
    (hc : precheck config c = .ok digest) (hd : precheck config d = .ok digest) :
    SameInput config c d := by
  obtain ⟨a, ha, hdigest⟩ := precheck_ok hc
  obtain ⟨b, hb, hdigest'⟩ := precheck_ok hd
  refine ⟨a, b, ha, hb, ?_⟩
  have hcanonical := hno a b ha hb (hdigest ▸ hdigest')
  exact (Doc.mapMembers_eq_mapMembers_iff canonicalToken_eq_iff a b).mp hcanonical

/-- **Exactly once.** In any run of calls of one identity, and for any call in it: the outcome it
reports is right about its transaction. If it committed its mutation, then its receipt expires the
retention time after the call sealed it, and every later call that locks the row before that time,
as do the calls in between, does not run its mutation, is refused if its input is another one, and
if it succeeds returns the stored status, headers and object key with the stored body without some
members. Source: `idempotency.go` `Idempotency.Execute`. -/
theorem exactly_once (config : Config) (before : List Call) (first : Call) (between : List Call)
    (later : Call) (hno : NoCollision config first later) :
    let row := rowAfter config none before
    let x := (execute config first row).1
    let y := (execute config later (rowAfter config (execute config first row).2 between)).1
    (x.outcome = .committed → x.applied = true) ∧
    (x.outcome = .unchanged → x.applied = false) ∧
    (x.ran = true → x.applied = true →
      ∃ receipt, (execute config first row).2 = some receipt ∧
        receipt.expiresAt = first.sealedAt + config.retention ∧
        (x.failure = none → x.response = some receipt.response) ∧
        ((∀ call ∈ between ++ [later], call.lockedAt < first.sealedAt + config.retention) →
          y.ran = false ∧
          (¬ SameInput config first later → y.failure ≠ none) ∧
          (y.failure = none → ∃ response, y.response = some response ∧
            response.status = receipt.response.status ∧
            response.headers = receipt.response.headers ∧
            response.objectKey = receipt.response.objectKey ∧
            Doc.Removal (.obj receipt.response.body) (.obj response.body)))) := by
  intro row x y
  have hstored : ∀ receipt ∈ row, Stored receipt.response :=
    stored_rowAfter before fun _ h => absurd h (by simp)
  rcases execute_cases config first row with ⟨hnot, -⟩ | ⟨digest, prepared, happlied, hnew⟩
  · refine ⟨fun h => absurd h hnot.outcome_ne, fun _ => hnot.applied_eq, fun _ h => ?_⟩
    rw [hnot.applied_eq] at h
    cases h
  · refine ⟨fun _ => happlied.applied_eq, fun h => absurd h happlied.outcome_ne, fun hran _ => ?_⟩
    have htransact := happlied.transacted
    rw [hran] at htransact
    obtain ⟨hdigest, hprepared, hresponse, hexpires⟩ := mutateAndSeal_ok (transact_ran htransact)
    refine ⟨prepared.row, hnew, hexpires, fun h => by rw [happlied.response_eq h, hresponse],
      fun hlt => ?_⟩
    rw [← hexpires] at hlt
    -- The row stays the same up to the later call, which then replays it.
    have hrow : rowAfter config (execute config first row).2 between = some prepared.row := by
      rw [hnew]
      exact rowAfter_of_lt hprepared fun call h => hlt call (mem_append_left _ h)
    have hlater := (@execute_of_lt config later _ hprepared (hlt later (by simp))).1
    rw [← hrow] at hlater
    refine ⟨hlater.not_ran, fun hother hnone => ?_, fun hnone => ?_⟩
    · refine hother (sameInput_of_digest hno happlied.admitted ?_)
      rw [← hdigest]
      exact hlater.same_digest hnone
    · obtain ⟨body, hbody, hy⟩ := hlater.response hnone
      have hred : isRedaction (.obj prepared.row.response.body) (.obj body) = true := hbody
      exact ⟨_, hy, rfl, rfl, rfl, isRedaction_removal hred⟩

/-- Receipts that live for ten units of time; a digest that only counts members. -/
def shortConfig : Config where
  lib := plainLibrary
  retention := 10
  digest := fun members => toString members.length

/-- A call during which nothing fails. Its receipt is sealed one unit after the row is locked. -/
def plainCall (time : ℤ) : Call where
  principal := ⟨true, true, "u"⟩
  scope := "s"
  action := "create"
  key := "k"
  input := some [("ratio", .num oneAndHalf)]
  inTransaction := false
  authorize := fun _ => .value ()
  redact := fun _ body => .value (some (ofMembers body))
  mutate := .value (numberResponse oneAndHalf)
  contextOver := fun _ => false
  fails := fun _ => none
  openedAt := time
  lockedAt := time
  sealedAt := time + 1
  stored := id
  stored_respells := fun _ => ⟨rfl, rfl, rfl, rfl⟩
  rollbackOnly := false
  commit := .confirmed
  rollback := .value ()
  callbacks := .value ()

/-- The first call runs the mutation and seals its receipt at 101; the second, at 110, is the last
that does not run it again. -/
theorem second_call_does_not_mutate :
    (execute shortConfig (plainCall 100) none).1.ran = true ∧
      (execute shortConfig (plainCall 110) (execute shortConfig (plainCall 100) none).2).1.ran =
        false ∧
      (execute shortConfig (plainCall 111) (execute shortConfig (plainCall 100) none).2).1.ran =
        true := by
  have hno : NoCollision shortConfig (plainCall 100) (plainCall 110) := by
    intro a b ha hb _
    have hsame : (plainCall 100).input = (plainCall 110).input := rfl
    rw [hsame, hb] at ha
    rw [Except.ok.inj ha]
  have hran : (execute shortConfig (plainCall 100) none).1.ran = true := by decide +kernel
  obtain ⟨receipt, -, -, -, h⟩ :=
    (exactly_once shortConfig [] (plainCall 100) [] (plainCall 110) hno).2.2 hran
      (by decide +kernel)
  refine ⟨hran, (h fun call hcall => ?_).1, by decide +kernel⟩
  rw [nil_append, mem_singleton] at hcall
  rw [hcall]
  decide

end Gogo.Api

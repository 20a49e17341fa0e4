import Gogo.Async.Replacement

/-!
# Outcomes that can be recorded

The end of `worker.go` `processReserved`: the outcome of an attempt becomes a transition, which
carries the envelope of a retry or the intents of the callbacks and errbacks that the task declares.
A worker that cannot build the transition, or whose transition the store refuses, returns an error
and leaves the delivery to be executed again.

* `RetryPolicy.next` — when a failed attempt is tried again.
* `Worker.conclude` — the transition of an outcome.
* `LinkFits`, `Outcome.Fits` — what of the declared links, of the value they receive and of the
  envelope's own retry limit decides whether an outcome can be recorded.
* `outcome_recorded_iff` — an outcome is recorded exactly when it fits.
-/

namespace Gogo.Async

open List Gogo.Lib

/-! ## Retries -/

/-- Source: `retry.go` `RetryRequest`. -/
structure RetryRequest where
  countdown : Option Duration := none
  eta : Time := 0

/-- The error of a handler: a request to try again, or another one, which the policy's
`AutoRetryFor` accepts or not. -/
inductive RunError
  | requested (request : RetryRequest)
  | failed (auto : Bool)

/-- Source: `retry.go` `RetryPolicy`, with the delay that its backoff and the jitter give. -/
structure RetryPolicy where
  maxRetries : Option ℤ
  delay : ℤ → Duration

/-- The attempts of a policy are used up. -/
def RetryPolicy.exhausted (p : RetryPolicy) (retries : ℤ) : Bool :=
  match p.maxRetries with
  | none => false
  | some m => m ≤ retries

/-- The instant of the next attempt, before it is compared with the clock and the expiry. -/
def RetryPolicy.proposed (p : RetryPolicy) (err : RunError) (retries : ℤ) (now : Time) :
    Option Time :=
  match err with
  | .failed false => none
  | .failed true => some (Time.add now (p.delay retries))
  | .requested request =>
    match request.countdown with
    | none => some (if request.eta ≠ 0 then request.eta else Time.add now (p.delay retries))
    | some countdown =>
      if countdown < 0 then none
      else some (if request.eta ≠ 0 then request.eta else Time.add now countdown)

/-- Source: `retry.go` `RetryPolicy.Next`. -/
def RetryPolicy.next (p : RetryPolicy) (err : RunError) (retries : ℤ) (now expires : Time) :
    Option Time :=
  if retries < 0 ∨ p.exhausted retries then none
  else do
    let eta ← p.proposed err retries now
    let eta := if eta < now then now else eta
    if expires ≠ 0 ∧ ¬ eta < expires then none else some eta

/-! ## The end of an attempt -/

/-- How an attempt ends. A handler that asks for a replacement which cannot be prepared has failed
for good. -/
inductive Outcome
  | returned (output : Json)
  | raised (err : RunError)
  | refused
  | expired
  | revoked

/-- The state that an outcome ends in when it is not tried again. -/
def Outcome.state : Outcome → State
  | .returned _ => .succeeded
  | .raised _ => .failed
  | .refused => .failed
  | .expired => .expired
  | .revoked => .revoked

/-- The failure of an attempt that did not succeed. -/
def executionFailure (code : String) : Failure :=
  ⟨code, "Task execution did not complete successfully"⟩

/-- The failure that is recorded with an outcome. -/
def Outcome.failure : Outcome → Option Failure
  | .returned _ => none
  | .raised _ => some (executionFailure "FAILED")
  | .refused => some (executionFailure "FAILED")
  | .expired => some (executionFailure "EXPIRED")
  | .revoked => some (executionFailure "REVOKED")

/-- The output that is recorded with an outcome. -/
def Outcome.output : Outcome → RawMessage
  | .returned output => some output
  | _ => none

/-- The instant at which an attempt is tried again. -/
def Outcome.retryAt (policy : RetryPolicy) (now : Time) (e : Envelope) : Outcome → Option Time
  | .raised err => policy.next err e.retries now e.expiresAt
  | _ => none

/-- What the end of an attempt reads of `worker.go` `Worker`. -/
structure Worker where
  /-- The registry is the worker's own. -/
  client : Client
  id : String
  /-- Source: `time.Duration.String`. -/
  durationText : ℤ → String

section Conclude

variable (codec : Codec) (w : Worker) (policy : RetryPolicy) (now : Time) (e : Envelope)
  (fence : ℕ) (o : Outcome)

/-- The envelope of the next attempt. -/
def retryEnvelope (eta : Time) : Envelope := { e.clone with retries := e.retries + 1, eta := eta }

/-- The transition of an attempt that is tried again. -/
def Worker.retryTransition (eta : Time) : Transition :=
  { id := e.id
    fence := fence
    owner := w.id
    state := .retryWait
    next := some (retryEnvelope e eta)
    intents :=
      [{ id := codec.stableId e.id ("retry-" ++ w.durationText (e.retries + 1))
         sourceId := e.id
         kind := .publish
         envelope := some (retryEnvelope e eta) }] }

/-- The transition of an attempt that has ended, without its intents. -/
def Worker.finalTransition : Transition :=
  { id := e.id
    fence := fence
    owner := w.id
    state := o.state
    output := o.output
    failure := o.failure }

/-- The end of `worker.go` `Worker.processReserved`, up to `Transition`. -/
def Worker.conclude : Except Err Transition :=
  match o.retryAt policy now e with
  | some eta => .ok (w.retryTransition codec e fence eta)
  | none => do
    let t := w.finalTransition e fence o
    let intents ← terminalIntents codec w.client now e t
    .ok { t with intents := intents }

end Conclude

/-! ## What registration and preparation ensure -/

/-- What `task.go` `Register` makes sure of: names match the pattern, versions are positive and
retry limits are not negative. -/
def Registry.Registered (reg : Registry) : Prop :=
  ∀ key d, reg.definitions.get? key = some d → ∃ name version, key = definitionKey name version ∧
    namePattern name = true ∧ 1 ≤ version ∧ ∀ m, d.maxRetries = some m → 0 ≤ m

/-- What `client.go` `NewClient` makes sure of: queues match the pattern. -/
def Client.Configured (c : Client) : Prop := ∀ q ∈ c.queues, namePattern q = true

lemma separator_not_mem_of_namePattern {s : String} (h : namePattern s = true) :
    '@' ∉ s.toList := by
  unfold namePattern at h
  split at h
  · cases h
  · next c rest hlist =>
    rw [hlist]
    simp only [Bool.and_eq_true, all_eq_true] at h
    rintro (_ | ⟨_, hmem⟩)
    · exact absurd h.1.1 (by decide)
    · exact absurd (h.2 _ hmem) (by decide)

lemma separator_not_mem_toString {n : ℤ} (h : 0 ≤ n) : '@' ∉ (toString n).toList := by
  obtain ⟨k, rfl⟩ := Int.eq_ofNat_of_zero_le h
  intro hmem
  have hdigits : '@' ∈ Nat.toDigits 10 k := by simpa [toString, Int.repr, Nat.repr] using hmem
  exact absurd (Nat.isDigit_of_mem_toDigits (by omega) (by omega) hdigits) (by decide)

variable {reg : Registry} {c : Client} {scope : String} {fuel : ℕ} {s s' : Signature}

/-- Only what was registered is found. -/
lemma Registry.Registered.lookup (h : reg.Registered) {task : String} {version : ℤ} {d : Definition}
    (hd : reg.lookup task version = .ok d) :
    namePattern task = true ∧ 1 ≤ version ∧ ∀ m, d.maxRetries = some m → 0 ≤ m := by
  unfold Registry.lookup at hd
  split at hd
  · next d' hget =>
    cases hd
    obtain ⟨name, version', hkey, hname, hversion, hretries⟩ := h _ _ hget
    have hlist : name.toList ++ '@' :: (toString version').toList =
        task.toList ++ '@' :: (toString version).toList := by
      have := congrArg String.toList hkey.symm
      simpa [definitionKey, String.toList_append] using this
    obtain ⟨htask, -, hnumber⟩ := (append_cons_inj_of_notMem
      (separator_not_mem_of_namePattern hname)
      (separator_not_mem_toString (by omega))).mp hlist
    have hversion' : version' = version := Int.repr_inj.mp (String.toList_injective hnumber)
    have htask' : name = task := String.toList_injective htask
    subst hversion' htask'
    exact ⟨hname, hversion, hretries⟩
  · cases hd

/-- What `prepare` makes sure of a declared link. -/
structure Signature.Normalized (c : Client) (link : Signature) : Prop where
  queue : link.options.queue ∈ c.queues
  priority : 0 ≤ link.options.priority ∧ link.options.priority ≤ 9

lemma Signature.options_clone (s : Signature) : s.clone.options = s.options := by
  cases s
  rfl

lemma Client.normalizeLinkOptions_options (h : c.normalizeLinkOptions scope fuel s = .ok s') :
    s'.options = s.options := by
  cases fuel with
  | zero => cases h
  | succ fuel =>
    simp only [Client.normalizeLinkOptions] at h
    obtain ⟨_, _, h⟩ := bind_eq_ok.mp h
    obtain ⟨_, _, h⟩ := bind_eq_ok.mp h
    cases h
    exact s.options_clone

/-- One link that is normalised, with the links below it. -/
lemma Client.normalized_of_normalizeLink {link link' : Signature}
    (h : (c.normalizeLink scope link >>= c.normalizeLinkOptions scope fuel) = .ok link') :
    link'.Normalized c := by
  obtain ⟨middle, hmiddle, h⟩ := bind_eq_ok.mp h
  simp only [Client.normalizeLink] at hmiddle
  obtain ⟨_, _, hmiddle⟩ := bind_eq_ok.mp hmiddle
  obtain ⟨d, _, hmiddle⟩ := bind_eq_ok.mp hmiddle
  obtain ⟨_, hlimits, hmiddle⟩ := bind_eq_ok.mp hmiddle
  obtain ⟨_, _, hmiddle⟩ := bind_eq_ok.mp hmiddle
  cases hmiddle
  have hlimits := refuseIf_eq_ok.mp hlimits
  push Not at hlimits
  constructor <;> rw [Client.normalizeLinkOptions_options h]
  · exact hlimits.1
  · exact ⟨hlimits.2.1, hlimits.2.2.1⟩

lemma Client.normalized_of_normalizeLinkOptions (h : c.normalizeLinkOptions scope fuel s = .ok s') :
    ∀ link ∈ s'.callbacks ++ s'.errbacks, link.Normalized c := by
  cases fuel with
  | zero => cases h
  | succ fuel =>
    simp only [Client.normalizeLinkOptions] at h
    obtain ⟨callbacks, hcallbacks, h⟩ := bind_eq_ok.mp h
    obtain ⟨errbacks, herrbacks, h⟩ := bind_eq_ok.mp h
    cases h
    intro link hlink
    rcases mem_append.mp hlink with hlink | hlink
    · obtain ⟨_, _, hnormal⟩ := exists_of_mem_mapM hcallbacks hlink
      exact Client.normalized_of_normalizeLink hnormal
    · obtain ⟨_, _, hnormal⟩ := exists_of_mem_mapM herrbacks hlink
      exact Client.normalized_of_normalizeLink hnormal

/-- What `prepare` makes sure of the links of an envelope: they are normalised, and as the wire
format gives them back. -/
structure Envelope.Linked (c : Client) (e : Envelope) : Prop where
  normalized : ∀ link ∈ e.callbacks ++ e.errbacks, link.Normalized c
  callbacks : Signature.cloneAll e.callbacks = e.callbacks
  errbacks : Signature.cloneAll e.errbacks = e.errbacks

/-- **Prepared envelopes have normalised links.** -/
theorem Client.linked_of_prepare {codec : Codec} {env : Env} {e : Envelope}
    (h : c.prepare codec env s = .ok e) : e.Linked c := by
  obtain ⟨s', d, id, queue, hnormal, -, rfl⟩ := prepare_eq_ok h
  refine ⟨?_, Signature.cloneAll_cloneAll _, Signature.cloneAll_cloneAll _⟩
  intro link hlink
  simp only [buildEnvelope, Signature.cloneAll_eq_map, ← map_append] at hlink
  obtain ⟨link', hlink', rfl⟩ := mem_map.mp hlink
  obtain ⟨hqueue, hpriority⟩ := Client.normalized_of_normalizeLinkOptions hnormal link' hlink'
  exact ⟨by rwa [Signature.options_clone], by rwa [Signature.options_clone]⟩

/-- The links of an envelope that a worker has checked can be looked up. -/
lemma Registry.exists_lookup_of_validateLinks (h : reg.validateLinks fuel s = .ok ()) :
    ∀ link ∈ s.callbacks ++ s.errbacks, ∃ d, reg.lookup link.task link.version = .ok d := by
  cases fuel with
  | zero => cases h
  | succ fuel =>
    simp only [Registry.validateLinks] at h
    split_ifs at h
    obtain ⟨parent, _, h⟩ := bind_eq_ok.mp h
    obtain ⟨_, hcallbacks, herrbacks⟩ := bind_eq_ok.mp h
    have hlookup : ∀ {source : GoType} {links : List Signature} {u : Unit},
        (links.forM fun link => do
          reg.validateLink source link
          reg.validateLinks fuel link) = .ok u →
        ∀ link ∈ links, ∃ d, reg.lookup link.task link.version = .ok d := by
      intro source links u hlinks link hlink
      obtain ⟨_, hthis, -⟩ := bind_eq_ok.mp (forM_eq_ok_iff.mp hlinks link hlink)
      unfold Registry.validateLink at hthis
      obtain ⟨d, hd, -⟩ := bind_eq_ok.mp hthis
      exact ⟨d, hd⟩
    intro link hlink
    rcases mem_append.mp hlink with hlink | hlink
    · exact hlookup hcallbacks link hlink
    · exact hlookup herrbacks link hlink

/-! ## Links -/

/-- What the encoder and the hash give: stable identifiers have the form of identifiers, and the
encoding of an envelope contains the value that was bound into its arguments as it is. -/
structure Codec.Faithful (codec : Codec) : Prop where
  stableId : ∀ source label, idPattern (codec.stableId source label) = true
  bound : ∀ (s blank filled : Signature) (value : Json) (e : Envelope), s.immutable = false →
    s.bind (some .null) = .ok blank → s.bind (some value) = .ok filled →
      (codec.envelopeLength { e with args := filled.args }).map (· + 4) =
        (codec.envelopeLength { e with args := blank.args }).map (· + codec.jsonLength value)

/-- A value can be bound into a link: it takes none, takes it for its arguments, or has an object to
put it into. -/
def Signature.Bindable (s : Signature) : Prop :=
  s.immutable = true ∨ s.parentField = "" ∨ ∃ entries, s.args = some (.obj entries)

/-- The room that the envelope of a link leaves for the value that is bound into it. -/
def Signature.HasRoom (codec : Codec) (link : Signature) (blank : Envelope) (value : Json) : Prop :=
  if link.immutable then withinLength maxPayloadBytes (codec.envelopeLength blank) = true
  else withinLength (maxPayloadBytes + 4)
    ((codec.envelopeLength blank).map (· + codec.jsonLength value)) = true

section Links

variable (codec : Codec) (c : Client) (now : Time) (parent : Envelope) (kind : String)

/-- A declared link that can become a task: its headers and stamps keep the bounds of the wire
format, the value can be bound into it, and the envelope with `null` in the value's place leaves
room for it. -/
structure LinkFits (value : Json) (link : Signature) (index : ℕ) : Prop where
  headers : validHeaders link.options.headers = true
  stamps : validHeaders link.options.stamps = true
  bindable : link.Bindable
  room : ∀ blank d, link.bind (some .null) = .ok blank →
    c.registry.lookup link.task link.version = .ok d →
      link.HasRoom codec (linkedEnvelope now parent blank d
        (codec.stableId parent.id (kind ++ "-" ++ toString index))) value

variable {codec c now parent kind}

variable {s filled link : Signature} {value : Json} {producer : Client}

lemma Signature.bindable_iff (value : RawMessage) :
    s.Bindable ↔ ∃ filled, s.bind value = .ok filled := by
  unfold Signature.Bindable Signature.bind
  by_cases himmutable : s.immutable = true
  · simp [himmutable]
  · by_cases hfield : s.parentField = ""
    · simp [himmutable, hfield]
    · simp only [himmutable, hfield, Bool.false_eq_true, false_or, if_false]
      constructor
      · rintro ⟨entries, hargs⟩
        exact ⟨_, by rw [hargs]⟩
      · rintro ⟨filled, h⟩
        split at h
        · next entries hargs => exact ⟨entries, hargs⟩
        · cases h

/-- Binding changes nothing of a link but its arguments. -/
lemma Signature.bind_eq {value : RawMessage} (h : s.bind value = .ok filled) :
    filled = { s.clone with args := filled.args } := by
  unfold Signature.bind at h
  split_ifs at h
  · cases h
    cases s
    rfl
  · cases h
    rfl
  · split at h
    · cases h
      rfl
    · cases h

lemma Signature.isSome_args_clone (s : Signature) : s.clone.args.isSome = true := by
  cases s
  rfl

lemma Signature.isSome_args_of_bind (h : s.bind (some value) = .ok filled) :
    filled.args.isSome = true := by
  unfold Signature.bind at h
  split_ifs at h
  · cases h
    exact s.isSome_args_clone
  · cases h
    rfl
  · split at h
    · cases h
      rfl
    · cases h

/-- The envelope of a link is well formed exactly when its headers and stamps are. -/
lemma wellFormed_linkedEnvelope {d : Definition} {id : String} (hproducer : producer.Configured)
    (hregistered : c.registry.Registered) (hnormal : link.Normalized producer)
    (hbind : link.bind (some value) = .ok filled)
    (hd : c.registry.lookup link.task link.version = .ok d) (hid : idPattern id = true)
    (hnow : now ≠ 0) (hparent : parent.wellFormed = true) :
    (linkedEnvelope now parent filled d id).wellFormed = true ↔
      validHeaders link.options.headers = true ∧ validHeaders link.options.stamps = true := by
  obtain ⟨hname, hversion, hretries⟩ := hregistered.lookup hd
  have hfilled := Signature.bind_eq hbind
  have hoptions : filled.options = link.options := by
    rw [hfilled]
    exact link.options_clone
  have htask : filled.task = link.task ∧ filled.version = link.version := by
    rw [hfilled]
    cases link
    exact ⟨rfl, rfl⟩
  have hargs := Signature.isSome_args_of_bind hbind
  have hqueue := hproducer _ hnormal.queue
  have hqueue_ne : link.options.queue ≠ "" := by
    intro h
    rw [h] at hqueue
    cases hqueue
  have hvalidRetries : validRetries (linkedEnvelope now parent filled d id) = true := by
    unfold validRetries linkedEnvelope
    rcases hmax : d.maxRetries with _ | m
    · rfl
    · simp [hretries m hmax]
  simp only [Envelope.wellFormed, Bool.and_eq_true, all_cons, all_nil, Bool.or_eq_true,
    decide_eq_true_eq, beq_iff_eq, bne_iff_ne, ne_eq, and_true, hvalidRetries] at hparent ⊢
  obtain ⟨⟨⟨⟨⟨hdepth, hbody⟩, -⟩, hplaces⟩, hsizes⟩, -⟩ := hparent
  have hparentId : idPattern parent.id = true := hbody.1.1.1.1.1.1.1.1.2
  have hroot : idPattern (if parent.rootId = "" then parent.id else parent.rootId) = true := by
    split_ifs with hempty
    · exact hparentId
    · exact hplaces.2.2.resolve_left hempty
  have hempty : validHeaders FinMap.empty = true := rfl
  simp only [linkedEnvelope, hdepth, hid, hoptions, htask, hname, hversion, hqueue_ne, hqueue, hnow,
    hnormal.priority, hargs, hparentId, hroot, hsizes, hempty, if_false, true_or, or_true, and_true,
    true_and, not_false_eq_true, le_refl, String.utf8ByteSize_empty, Nat.zero_le]

/-- **A link becomes a task exactly when it fits.** -/
theorem linkedIntent_ok_iff {index : ℕ} (hcodec : codec.Faithful) (hproducer : producer.Configured)
    (hregistered : c.registry.Registered) (hnormal : link.Normalized producer)
    (hfound : ∃ d, c.registry.lookup link.task link.version = .ok d) (hnow : now ≠ 0)
    (hparent : parent.wellFormed = true) :
    (∃ intent, linkedIntent codec c now parent kind (some value) link index = .ok intent) ↔
      LinkFits codec c now parent kind value link index := by
  obtain ⟨d, hd⟩ := hfound
  set id := codec.stableId parent.id (kind ++ "-" ++ toString index) with hid
  have hroom : ∀ {blank filled : Signature}, link.bind (some .null) = .ok blank →
      link.bind (some value) = .ok filled →
      (withinLength maxPayloadBytes (codec.envelopeLength (linkedEnvelope now parent filled d id)) =
        true ↔ link.HasRoom codec (linkedEnvelope now parent blank d id) value) := by
    intro blank filled hblank hfilled
    unfold Signature.HasRoom
    split_ifs with himmutable
    · have hsame : blank = filled := by
        unfold Signature.bind at hblank hfilled
        rw [if_pos himmutable] at hblank hfilled
        exact Except.ok.inj (hblank.symm.trans hfilled)
      rw [hsame]
    · have hlength := hcodec.bound link blank filled value (linkedEnvelope now parent blank d id)
        (by simpa using himmutable) hblank hfilled
      have hargs : ({ linkedEnvelope now parent blank d id with args := filled.args } : Envelope) =
          linkedEnvelope now parent filled d id := by
        rw [Signature.bind_eq hblank, Signature.bind_eq hfilled]
        rfl
      have hargs' : ({ linkedEnvelope now parent blank d id with args := blank.args } : Envelope) =
          linkedEnvelope now parent blank d id := rfl
      rw [hargs, hargs'] at hlength
      rw [← hlength]
      rcases codec.envelopeLength (linkedEnvelope now parent filled d id) with _ | n
      · rfl
      · simp [withinLength]
  constructor
  · rintro ⟨intent, h⟩
    unfold linkedIntent at h
    obtain ⟨filled, hfilled, h⟩ := bind_eq_ok.mp h
    obtain ⟨d', hd', h⟩ := bind_eq_ok.mp h
    obtain rfl := Except.ok.inj (hd.symm.trans hd')
    obtain ⟨_, hvalid, -⟩ := bind_eq_ok.mp h
    obtain ⟨hwell, hlength⟩ := (Envelope.validate_eq_ok codec).mp hvalid
    obtain ⟨hheaders, hstamps⟩ := (wellFormed_linkedEnvelope hproducer hregistered hnormal hfilled
      hd (hcodec.stableId _ _) hnow hparent).mp hwell
    refine ⟨hheaders, hstamps, (Signature.bindable_iff _).mpr ⟨filled, hfilled⟩, ?_⟩
    intro blank d' hblank hd'
    obtain rfl := Except.ok.inj (hd.symm.trans hd')
    exact (hroom hblank hfilled).mp hlength
  · intro hfits
    obtain ⟨filled, hfilled⟩ := (Signature.bindable_iff (some value)).mp hfits.bindable
    obtain ⟨blank, hblank⟩ := (Signature.bindable_iff (some .null)).mp hfits.bindable
    have hwell := (wellFormed_linkedEnvelope hproducer hregistered hnormal hfilled hd
      (hcodec.stableId parent.id (kind ++ "-" ++ toString index)) hnow hparent).mpr
      ⟨hfits.headers, hfits.stamps⟩
    have hlength := (hroom hblank hfilled).mpr (hfits.room blank d hblank hd)
    have hvalid := (Envelope.validate_eq_ok codec).mpr ⟨hwell, hlength⟩
    unfold linkedIntent
    rw [hfilled, ok_bind, hd, ok_bind]
    simp only [hvalid, ok_bind]
    split <;> exact ⟨_, rfl⟩

end Links

/-! ## Outcomes -/

/-- The links that an outcome fires. -/
def Outcome.links (e : Envelope) : Outcome → List Signature
  | .returned _ => e.callbacks
  | _ => e.errbacks

/-- The label of the links that an outcome fires. -/
def Outcome.linkKind : Outcome → String
  | .returned _ => "callback"
  | _ => "errback"

/-- The value that the links of an outcome receive. -/
def Outcome.value : Outcome → Json
  | .returned output => output
  | o => encodeFailure o.failure

/-- An output within the limit of payloads. -/
def Outcome.Bounded (codec : Codec) : Outcome → Prop
  | .returned output => codec.jsonLength output ≤ maxPayloadBytes
  | _ => True

section Outcomes

variable (codec : Codec) (w : Worker) (policy : RetryPolicy) (now : Time) (e : Envelope)

/-- An attempt that is tried again fits when the envelope's own limit is not reached and the
envelope has room for the next attempt; one that ends fits when every link it fires does. -/
def Outcome.Fits (o : Outcome) : Prop :=
  match o.retryAt policy now e with
  | some eta => (∀ m, e.maxRetries = some m → e.retries < m) ∧
      withinLength maxPayloadBytes
        (codec.envelopeLength { e with retries := e.retries + 1, eta := eta }) = true
  | none => ∀ p ∈ (o.links e).zipIdx,
      LinkFits codec w.client now e o.linkKind o.value p.1 p.2

/-- The record of a delivery that a worker holds. -/
structure Held (r : Record) (fence : ℕ) (owner : String) (now : Time) : Prop where
  lease : validateLease r fence owner now = .ok ()
  id : r.envelope.id = e.id
  retries : r.envelope.retries = e.retries
  digest : r.digest = e.digest codec

variable {codec w policy now e}

/-- An acquired claim holds the delivery while its lease lasts. -/
lemma held_of_claimRecord {r : Record} {owner : String} {lease : Duration} {claim : Claim}
    {later : Time} (h : claimRecord codec r e owner now lease = .ok claim)
    (hacquired : claim.acquired = true) (hid : r.envelope.id = e.id)
    (hlive : later < claim.record.leaseUntil) :
    Held codec e claim.record claim.record.fence owner later := by
  have hrecord := (acquires_of_claimRecord h hacquired).record
  have hchecks : r.digest = e.digest codec ∧ r.envelope.retries = e.retries := by
    unfold claimRecord at h
    split_ifs at h with _ hdigest hduplicate hahead
    · cases h
      cases hacquired
    · cases h
      cases hacquired
    · cases h
      cases hacquired
    · push Not at hdigest hduplicate hahead
      exact ⟨hdigest, le_antisymm hduplicate.2.2 hahead⟩
  rw [hrecord] at hlive ⊢
  refine ⟨?_, hid, hchecks.2, hchecks.1⟩
  unfold validateLease
  rw [if_neg]
  push Not
  exact ⟨rfl, rfl, rfl, hlive⟩

lemma linkedIntents_finalTransition (fence : ℕ) (o : Outcome) :
    linkedIntents codec w.client now e (w.finalTransition e fence o) =
      (o.links e).zipIdx.mapM fun p =>
        linkedIntent codec w.client now e o.linkKind (some o.value) p.1 p.2 := by
  cases o <;> rfl

/-- The intents of an attempt that has ended can be built exactly when its links fit. -/
lemma terminalIntents_ok_iff {producer : Client} {fence : ℕ} {o : Outcome}
    (hcodec : codec.Faithful) (hproducer : producer.Configured)
    (hregistered : w.client.registry.Registered) (hlinked : e.Linked producer)
    (hfound : ∀ link ∈ e.callbacks ++ e.errbacks,
      ∃ d, w.client.registry.lookup link.task link.version = .ok d)
    (hnow : now ≠ 0) (hvalid : e.wellFormed = true) :
    (∃ intents, terminalIntents codec w.client now e (w.finalTransition e fence o) = .ok intents) ↔
      ∀ p ∈ (o.links e).zipIdx, LinkFits codec w.client now e o.linkKind o.value p.1 p.2 := by
  have hmem : ∀ p ∈ (o.links e).zipIdx, p.1 ∈ e.callbacks ++ e.errbacks := by
    intro p hp
    have hlink := fst_mem_of_mem_zipIdx hp
    cases o with
    | returned output => exact mem_append_left _ hlink
    | raised err => exact mem_append_right _ hlink
    | refused => exact mem_append_right _ hlink
    | expired => exact mem_append_right _ hlink
    | revoked => exact mem_append_right _ hlink
  have heach : ∀ p ∈ (o.links e).zipIdx,
      ((∃ intent, linkedIntent codec w.client now e o.linkKind (some o.value) p.1 p.2 =
        .ok intent) ↔ LinkFits codec w.client now e o.linkKind o.value p.1 p.2) := fun p hp =>
    linkedIntent_ok_iff hcodec hproducer hregistered (hlinked.normalized _ (hmem p hp))
      (hfound _ (hmem p hp)) hnow hvalid
  unfold terminalIntents
  rw [linkedIntents_finalTransition]
  constructor
  · rintro ⟨intents, h⟩ p hp
    obtain ⟨linked, hlinks, -⟩ := bind_eq_ok.mp h
    obtain ⟨intent, -, hintent⟩ := exists_of_mapM_eq_ok hlinks hp
    exact (heach p hp).mp ⟨intent, hintent⟩
  · intro hfits
    obtain ⟨linked, hlinks⟩ := exists_mapM_eq_ok fun p hp => (heach p hp).mpr (hfits p hp)
    rw [hlinks]
    exact ⟨_, rfl⟩

/-- What a valid envelope with links as the wire format gives them back is to a clone. -/
lemma Envelope.clone_eq_self {producer : Client} (hlinked : e.Linked producer)
    (hvalid : e.wellFormed = true) : e.clone = e := by
  have hargs : e.args.isSome = true := by
    simp only [Envelope.wellFormed, Bool.and_eq_true] at hvalid
    exact hvalid.1.1.1.1.2.2
  obtain ⟨args, hargs⟩ := Option.isSome_iff_exists.mp hargs
  unfold Envelope.clone
  rw [hlinked.callbacks, hlinked.errbacks, hargs, Option.getD_some, ← hargs]

/-- The envelope of the next attempt is valid exactly when it keeps the envelope's own limit and has
room. -/
lemma retryEnvelope_valid_iff {eta : Time} (hclone : e.clone = e)
    (hvalid : e.wellFormed = true) :
    (retryEnvelope e eta).validate codec = .ok () ↔
      (∀ m, e.maxRetries = some m → e.retries < m) ∧ withinLength maxPayloadBytes
        (codec.envelopeLength { e with retries := e.retries + 1, eta := eta }) = true := by
  rw [Envelope.validate_eq_ok, retryEnvelope, hclone]
  refine and_congr ?_ Iff.rfl
  simp only [Envelope.wellFormed, Bool.and_eq_true, decide_eq_true_eq] at hvalid ⊢
  obtain ⟨⟨⟨⟨⟨hdepth, hbody⟩, hretries⟩, hplaces⟩, hsizes⟩, hheaders⟩ := hvalid
  have hbound : validRetries { e with retries := e.retries + 1, eta := eta } = true ↔
      ∀ m, e.maxRetries = some m → e.retries < m := by
    unfold validRetries at hretries ⊢
    rcases hmax : e.maxRetries with _ | m
    · simp
    · simp only [hmax, Bool.and_eq_true, decide_eq_true_eq] at hretries
      simp only [Bool.and_eq_true, decide_eq_true_eq, hretries.1, true_and, Option.some.injEq,
        forall_eq']
      exact Int.add_one_le_iff
  have hcount : 0 ≤ e.retries + 1 := by
    have := hbody.1.1.1.2
    omega
  rw [hbound]
  constructor
  · rintro ⟨⟨⟨⟨-, hlimit⟩, -⟩, -⟩, -⟩
    exact hlimit
  · intro hlimit
    exact ⟨⟨⟨⟨⟨hdepth, ⟨⟨⟨hbody.1.1.1.1, hcount⟩, hbody.1.1.2⟩, hbody.1.2⟩, hbody.2⟩, hlimit⟩,
      hplaces⟩, hsizes⟩, hheaders⟩

lemma Outcome.terminal_state (o : Outcome) : o.state.terminal = true := by
  cases o <;> rfl

/-- A transition that does not yield is applied to a record whose lease is live as an outcome. -/
lemma applyTransition_held {r : Record} {t : Transition} {later : Time}
    {resultTTL tombstoneTTL : Duration} (hheld : Held codec e r t.fence t.owner later)
    (hunyielded : t.replacementId = "") :
    (∃ r', applyTransition codec r t later resultTTL tombstoneTTL = .ok r') ↔
      r.revision ≠ maxUint64 ∧
        ∃ r', applyOutcome codec r t later resultTTL tombstoneTTL = .ok r' := by
  unfold applyTransition
  rw [hheld.lease, ok_bind]
  by_cases hrevision : r.revision = maxUint64
  · simp [hrevision]
  · simp [hrevision, hunyielded]

/-- The store accepts the transition of an attempt that has ended. -/
lemma applyTransition_final {r : Record} {fence : ℕ} {o : Outcome} {later : Time}
    {intents : List Intent} {resultTTL tombstoneTTL : Duration} (hbounded : o.Bounded codec)
    (hheld : Held codec e r fence w.id later) :
    (∃ r', applyTransition codec r { w.finalTransition e fence o with intents := intents } later
      resultTTL tombstoneTTL = .ok r') ↔ r.revision ≠ maxUint64 := by
  rw [applyTransition_held hheld rfl]
  refine and_iff_left_of_imp fun hrevision => ?_
  have hterminal := o.terminal_state
  have hretry : o.state ≠ .retryWait := by
    intro h
    rw [h] at hterminal
    cases hterminal
  have hlength : ¬ maxPayloadBytes < codec.length o.output := by
    cases o with
    | returned output => exact Nat.not_lt.mpr hbounded
    | raised err => exact Nat.not_lt_zero _
    | refused => exact Nat.not_lt_zero _
    | expired => exact Nat.not_lt_zero _
    | revoked => exact Nat.not_lt_zero _
  have houtput : ¬ (o.state = .succeeded ∧ o.output.isNone) := by
    cases o <;> simp [Outcome.state, Outcome.output]
  unfold applyOutcome
  rw [if_neg hrevision, if_neg (by simp [Worker.finalTransition, hheld.id, hterminal]),
    if_neg (by exact hlength), if_neg (by exact houtput), if_neg (by exact hretry)]
  exact ⟨_, rfl⟩

/-- The store accepts the transition of an attempt that is tried again exactly when its envelope is
valid. -/
lemma applyTransition_retry {r : Record} {fence : ℕ} {eta later : Time}
    {resultTTL tombstoneTTL : Duration} (hclone : e.clone = e)
    (hheld : Held codec e r fence w.id later) :
    (∃ r', applyTransition codec r (w.retryTransition codec e fence eta) later resultTTL
      tombstoneTTL = .ok r') ↔
      r.revision ≠ maxUint64 ∧ (retryEnvelope e eta).validate codec = .ok () := by
  rw [applyTransition_held hheld rfl]
  refine and_congr_right fun hrevision => ?_
  have hdigest : (retryEnvelope e eta).digest codec = r.digest := by
    rw [hheld.digest, retryEnvelope, hclone]
    rfl
  have hchecks : validRetry codec r (w.retryTransition codec e fence eta) =
      (retryEnvelope e eta).validate codec := by
    unfold validRetry Worker.retryTransition
    simp only
    rw [if_neg]
    rintro (hid | hretries | hhash | hintents)
    · exact hid hheld.id.symm
    · exact hretries (by rw [hheld.retries]; rfl)
    · exact hhash hdigest
    · cases hintents
  have hstate : (w.retryTransition codec e fence eta).state = .retryWait := rfl
  unfold applyOutcome
  rw [if_neg hrevision, if_neg (by simp [Worker.retryTransition, hheld.id]),
    if_neg (by exact Nat.not_lt_zero _), if_neg (by simp [Worker.retryTransition]),
    if_pos hstate, hchecks]
  constructor
  · rintro ⟨r', h⟩
    obtain ⟨⟨⟩, hvalid, -⟩ := bind_eq_ok.mp h
    exact hvalid
  · intro hvalid
    rw [hvalid]
    exact ⟨_, rfl⟩

/-- **Outcomes that can be recorded.** For every envelope whose links `prepare` has accepted, every
worker that has checked it and holds its record, every retry policy and every outcome, the
transition is built and accepted exactly when the outcome fits and the revision can still be
counted. -/
theorem outcome_recorded_iff {producer : Client} {env : Env} {s : Signature} {prepared : Envelope}
    {r : Record} {fence : ℕ} {later : Time} {o : Outcome} (hcodec : codec.Faithful)
    (hproducer : producer.Configured) (hregistered : w.client.registry.Registered)
    (hprepare : producer.prepare codec env s = .ok prepared)
    (hcallbacks : e.callbacks = prepared.callbacks) (herrbacks : e.errbacks = prepared.errbacks)
    (hvalid : e.validate codec = .ok ())
    (hchecked : w.client.registry.validateLinks 17
      { task := e.task, version := e.version, args := e.args, callbacks := e.callbacks,
        errbacks := e.errbacks } = .ok ())
    (hheld : Held codec e r fence w.id later) (hnow : now ≠ 0) (hbounded : o.Bounded codec)
    (resultTTL tombstoneTTL : Duration) :
    (∃ t r', w.conclude codec policy now e fence o = .ok t ∧
      applyTransition codec r t later resultTTL tombstoneTTL = .ok r') ↔
    r.revision ≠ maxUint64 ∧ o.Fits codec w policy now e := by
  have hwell := ((Envelope.validate_eq_ok codec).mp hvalid).1
  have hlinked : e.Linked producer := by
    obtain ⟨hnormal, hcalls, herrs⟩ := Client.linked_of_prepare hprepare
    exact ⟨by rwa [hcallbacks, herrbacks], by rwa [hcallbacks], by rwa [herrbacks]⟩
  have hclone := Envelope.clone_eq_self hlinked hwell
  have hfound := Registry.exists_lookup_of_validateLinks hchecked
  unfold Worker.conclude Outcome.Fits
  rcases o.retryAt policy now e with _ | eta
  · simp only
    rw [← @terminalIntents_ok_iff codec w now e producer fence o hcodec hproducer hregistered
      hlinked hfound hnow hwell]
    constructor
    · rintro ⟨t, r', ht, happly⟩
      obtain ⟨intents, hintents, ht⟩ := bind_eq_ok.mp ht
      cases ht
      exact ⟨(applyTransition_final hbounded hheld).mp ⟨r', happly⟩, intents, hintents⟩
    · rintro ⟨hrevision, intents, hintents⟩
      obtain ⟨r', happly⟩ := (@applyTransition_final codec w e r fence o later intents resultTTL
        tombstoneTTL hbounded hheld).mpr hrevision
      exact ⟨_, r', by rw [hintents]; rfl, happly⟩
  · simp only
    rw [← retryEnvelope_valid_iff hclone hwell, ← @applyTransition_retry codec w e r fence eta later
      resultTTL tombstoneTTL hclone hheld]
    constructor
    · rintro ⟨t, r', ht, happly⟩
      cases ht
      exact ⟨r', happly⟩
    · rintro ⟨r', happly⟩
      exact ⟨_, r', rfl, happly⟩

end Outcomes

/-! ## A task with a callback -/

/-- A task that takes a text, returns a text and is not tried again. -/
def noteDefinition : Definition :=
  { sampleDefinition (.plain "string") (.plain "string") with maxRetries := some 0 }

/-- A client that knows one task. -/
def noteClient : Client where
  registry := { definitions := .ofList [("note@1", noteDefinition)], fields := fun _ => [] }
  queues := ["default"]
  routes := []
  headers := []
  pathMatch _ _ := false
  authorizer := none

/-- A worker of the client. -/
def noteWorker : Worker := ⟨noteClient, "worker", toString⟩

/-- A signature of the task. -/
def sampleNote : Signature := { task := "note", version := 1, args := some .null }

/-- The envelope of the task with a callback. -/
def noteEnvelope : Envelope :=
  buildEnvelope sampleEnv
    { sampleNote with callbacks := [{ sampleNote with options := { queue := "default" } }] }
    noteDefinition sampleRoot "default"

/-- The record of the task when it is registered. -/
def queuedNote : Record where
  envelope := noteEnvelope
  digest := ""
  state := .queued
  revision := 1

/-- The record of the task when the worker has claimed it. -/
def noteRecord : Record := queuedNote.acquire "worker" 10

mutual

/-- The length of an encoding: texts without escapes, and objects entry by entry. -/
def noteLength : Json → ℕ
  | .str text => text.length + 2
  | .obj entries => entriesLength entries + 2
  | _ => 4

@[inherit_doc noteLength]
def entriesLength : List (String × Json) → ℕ
  | [] => 0
  | (key, value) :: rest => key.length + 4 + noteLength value + entriesLength rest

end

/-- A codec in which an envelope takes 400 bytes beside its arguments. -/
def longCodec : Codec where
  stableId _ _ := sampleRoot
  stableId_ne _ _ := by decide
  hash _ := ""
  jsonLength := noteLength
  envelopeLength e := some (400 + noteLength (e.args.getD .null))
  graphLength _ := none
  intentsLength _ := none

/-- What is put under a key counts once, in the place of what was there. -/
lemma entriesLength_set (m : FinMap String Json) (k : String) (v v' : Json) {keys : List String}
    (hkeys : keys.Nodup) :
    entriesLength (keys.filterMap fun key => ((m.set k v).get? key).map fun x => (key, x)) +
        (if k ∈ keys then noteLength v' else 0) =
      entriesLength (keys.filterMap fun key => ((m.set k v').get? key).map fun x => (key, x)) +
        (if k ∈ keys then noteLength v else 0) := by
  induction keys with
  | nil => rfl
  | cons key keys ih =>
    obtain ⟨hkey, hkeys⟩ := nodup_cons.mp hkeys
    have ih := ih hkeys
    by_cases hk : k = key
    · subst hk
      simp only [hkey, if_false, Nat.add_zero] at ih
      simp only [filterMap_cons, FinMap.get?_set_self, Option.map_some, entriesLength,
        mem_cons_self, if_true]
      omega
    · simp only [filterMap_cons, FinMap.get?_set_of_ne m hk, mem_cons, hk, false_or]
      cases m.get? key with
      | none => exact ih
      | some x =>
        simp only [Option.map_some, entriesLength]
        omega

lemma noteLength_encodeFields_set (m : FinMap String Json) (k : String) (value : Json) :
    noteLength (encodeFields (m.set k value)) + 4 =
      noteLength (encodeFields (m.set k .null)) + noteLength value := by
  have hkeys : (m.set k value).keys = (m.set k .null).keys := by
    simp only [FinMap.keys, FinMap.set, FinMap.map_fst_setEntry]
  have hmem : k ∈ sortStrings (m.set k .null).keys :=
    mem_sortStrings.mpr ((m.set k .null).mem_keys.mpr ⟨_, m.get?_set_self _ _⟩)
  have hsum := entriesLength_set m k value .null
    (nodup_sortStrings.mpr (m.set k .null).nodup_keys)
  simp only [hmem, if_true, noteLength] at hsum
  simp only [encodeFields, noteLength, hkeys]
  omega

lemma longCodec_faithful : longCodec.Faithful := by
  refine ⟨fun _ _ => by show idPattern sampleRoot = true; decide, ?_⟩
  intro s blank filled value e hmutable hblank hfilled
  suffices noteLength (filled.args.getD .null) + 4 =
      noteLength (blank.args.getD .null) + noteLength value by
    show some (400 + noteLength (filled.args.getD .null) + 4) =
      some (400 + noteLength (blank.args.getD .null) + noteLength value)
    rw [Option.some.injEq]
    omega
  simp only [Signature.bind, hmutable, Bool.false_eq_true, if_false] at hblank hfilled
  split_ifs at hblank hfilled with hfield
  · cases hblank
    cases hfilled
    exact Nat.add_comm _ _
  · split at hblank
    · next entries hargs =>
      rw [hargs] at hfilled
      cases hblank
      cases hfilled
      exact noteLength_encodeFields_set _ _ _
    · cases hblank

lemma noteClient_configured : noteClient.Configured := by
  intro q hq
  obtain rfl : q = "default" := by simpa [noteClient] using hq
  decide

lemma noteClient_registered : noteClient.registry.Registered := by
  intro key d h
  have hmem : (key, d) ∈ [("note@1", noteDefinition)] := FinMap.mem_of_get?_ofList h
  obtain ⟨rfl, rfl⟩ : key = "note@1" ∧ d = noteDefinition := by simpa using hmem
  refine ⟨"note", 1, by decide, by decide, by decide, ?_⟩
  intro m hm
  cases hm
  exact le_refl _

/-- The outcome of a task with a callback is recorded. -/
theorem note_is_recorded :
    ∃ t r', noteWorker.conclude longCodec ⟨some 0, fun _ => 0⟩ 2 noteEnvelope 1
        (.returned (.str "done")) = .ok t ∧
      applyTransition longCodec noteRecord t 3 60 60 = .ok r' := by
  have hbounded : (Outcome.returned (.str "done")).Bounded longCodec := by
    show noteLength (.str "done") ≤ maxPayloadBytes
    decide
  have hheld : Held longCodec noteEnvelope noteRecord 1 "worker" 3 :=
    @held_of_claimRecord _ 1 noteEnvelope queuedNote "worker" 9 ⟨noteRecord, true, false⟩ 3 rfl rfl
      rfl (by decide)
  refine (@outcome_recorded_iff _ noteWorker _ _ noteEnvelope noteClient sampleEnv
    { sampleNote with callbacks := [sampleNote] } noteEnvelope _ _ _ _ longCodec_faithful noteClient_configured
    noteClient_registered rfl rfl rfl rfl rfl hheld (by decide) hbounded 60 60).mpr
    ⟨by decide, ?_⟩
  intro p hp
  obtain rfl : p = ({ sampleNote with options := { queue := "default" } }, 0) :=
    mem_singleton.mp hp
  refine ⟨rfl, rfl, .inr (.inl rfl), fun blank d hblank _ => ?_⟩
  cases hblank
  show withinLength (maxPayloadBytes + 4) (some (404 + noteLength (.str "done"))) = true
  decide

/-! ## Outcomes that are never recorded -/

/-- A callback has no room for an output as long as a payload may be. -/
lemma conclude_long_note {output : Json} (h : noteLength output = maxPayloadBytes)
    (policy : RetryPolicy) (t : Transition) :
    noteWorker.conclude longCodec policy 2 noteEnvelope 1 (.returned output) ≠ .ok t := by
  intro ht
  obtain ⟨intents, hintents, -⟩ := bind_eq_ok.mp ht
  obtain ⟨linked, hlinked, -⟩ := bind_eq_ok.mp hintents
  rw [linkedIntents_finalTransition] at hlinked
  obtain ⟨intent, -, hintent⟩ := exists_of_mapM_eq_ok hlinked mem_cons_self
  obtain ⟨filled, hfilled, hintent⟩ := bind_eq_ok.mp hintent
  obtain ⟨d, -, hintent⟩ := bind_eq_ok.mp hintent
  obtain ⟨_, hvalid, -⟩ := bind_eq_ok.mp hintent
  cases hfilled
  have hlength : withinLength maxPayloadBytes (some (400 + noteLength output)) = true :=
    ((Envelope.validate_eq_ok longCodec).mp hvalid).2
  rw [h] at hlength
  cases hlength

/-- A prepared task whose outcomes cannot be recorded: an output within the limit for which its
callback has no room, and a retry that the worker grants and the envelope does not allow. -/
theorem accepted_outcomes_not_recorded :
    noteClient.prepare longCodec sampleEnv { sampleNote with callbacks := [sampleNote] } =
        .ok noteEnvelope ∧
      (∃ output, longCodec.jsonLength output = maxPayloadBytes ∧
        ∀ t, noteWorker.conclude longCodec ⟨some 0, fun _ => 0⟩ 2 noteEnvelope 1
          (.returned output) ≠ .ok t) ∧
      ∃ t, noteWorker.conclude longCodec ⟨none, fun _ => 0⟩ 2 noteEnvelope 1
          (.raised (.requested {})) = .ok t ∧
        applyTransition longCodec noteRecord t 3 60 60 = .error .invalid := by
  have hlength : noteLength (.str (String.ofList (List.replicate (maxPayloadBytes - 2) 'x'))) =
      maxPayloadBytes := by
    rw [noteLength, String.length_ofList, length_replicate]
    decide
  refine ⟨rfl, ⟨.str (String.ofList (List.replicate (maxPayloadBytes - 2) 'x')), hlength, ?_⟩, _,
    rfl, rfl⟩
  exact conclude_long_note hlength _

end Gogo.Async

import Gogo.Async.Runs

/-!
# Periodic schedules

A beat leases the schedules that are due, makes an intent for each occurrence and commits the batch
together with the next due time (`beat.go`, `testing/periodic.go`, `redis/periodic.go`).

* `Calendar` — the rules of recurrence; `Calendar.checkedNext` is what a beat takes of them.
* `tick` — what a beat makes of a schedule that it has leased.
* `Timetable`, `BeatEvent`, `beatStep` — a stored schedule, the leases that beats hold, and what was
  committed; beats may stop at any point.
* `Iterates` — the occurrences of a rule, one after the other.
* `catch_up_loses_nothing` — what was committed is a beginning of the occurrences, each once and in
  order.
-/

namespace Gogo.Async

open List Gogo.Lib

/-! ## Schedules -/

/-- Source: `beat.go` `ScheduleRule`. -/
structure ScheduleRule where
  kind : String
  interval : Duration := 0
  expression : String := ""
  timezone : String
  fixedDelay : Bool := false
  foldPolicy : String
  gapPolicy : String

/-- What is done with occurrences that were missed. -/
inductive Misfire
  | skip
  | coalesce
  | catchup
deriving DecidableEq

/-- What is done while the last task runs. -/
inductive Overlap
  | allow
  | skip
deriving DecidableEq

/-- The rules of recurrence, which `ScheduleRule.Next` and the registered calendars compute, their
validation, and the text of an instant. -/
structure Calendar where
  next : ScheduleRule → Time → Except Err Time
  valid : ScheduleRule → Bool
  format : Time → String
  format_injective : Function.Injective format

/-- The beginning of the year 10000. -/
def lastInstant : Time := 315537897600 * 10 ^ 9

/-- Source: `beat.go` `validScheduleInstant`. -/
def validScheduleInstant (t : Time) : Bool := t != 0 && t < lastInstant

/-- Source: `beat.go` `checkedOccurrence`. -/
def checkedOccurrence (after next : Time) : Except Err Time :=
  if !validScheduleInstant after ∨ !validScheduleInstant next ∨ ¬ after < next then .error .invalid
  else .ok next

/-- Source: `beat.go` `Beat.next`. -/
def Calendar.checkedNext (cal : Calendar) (rule : ScheduleRule) (after : Time) :
    Except Err Time := do
  refuseIf (!validScheduleInstant after) .invalid
  let next ← cal.next rule after
  checkedOccurrence after next

/-- Source: `beat.go` `PeriodicSchedule`; the zero time stands for no end. -/
structure PeriodicSchedule where
  id : String
  signature : Signature
  rule : ScheduleRule
  enabled : Bool
  nextDue : Time
  endAt : Time := 0
  misfire : Misfire
  catchUpLimit : ℕ
  overlap : Overlap
  lastTaskId : String := ""
  revision : ℕ
  fence : ℕ := 0
  owner : String := ""
  leaseUntil : Time := 0
  observedAt : Time := 0

/-- Source: `beat.go` `PeriodicSchedule.Validate`. -/
def PeriodicSchedule.validate (cal : Calendar) (p : PeriodicSchedule) : Except Err Unit :=
  refuseIf (!idPattern p.id ∨ p.nextDue = 0 ∨ p.catchUpLimit < 1 ∨ 1000 < p.catchUpLimit ∨
    !cal.valid p.rule) .invalid

/-- The instant is at the end of the schedule or after it. -/
def PeriodicSchedule.ended (p : PeriodicSchedule) (t : Time) : Bool := p.endAt != 0 && p.endAt ≤ t

/-! ## A tick -/

/-- What a beat commits. -/
structure Occurrences where
  next : Time
  lastId : String
  intents : List Intent

section Tick

variable (codec : Codec) (c : Client) (cal : Calendar)

/-- The identifier of the task of an occurrence. -/
def occurrenceId (schedule : String) (due : Time) : String := codec.stableId schedule (cal.format due)

/-- The intent of an occurrence. -/
def occurrenceIntent (env : Env) (p : PeriodicSchedule) (due : Time) : Except Err Intent := do
  let e ← c.prepare codec env (p.signature.withId (occurrenceId codec cal p.id due))
  c.authorize "enqueue" e.scope (occurrenceId codec cal p.id due)
  .ok (dispatchIntent codec p.id
    { e with createdAt := p.observedAt, rootId := occurrenceId codec cal p.id due })

/-- The loop of `Beat.Tick` over the occurrences; `left` is what is left of the limit after this one. -/
def occurrences (env : ℕ → Env) (p : PeriodicSchedule) (due next : Time) (made : List Intent)
    (lastId : String) (left : ℕ) : Except Err Occurrences :=
  if p.ended due then .ok ⟨next, lastId, made⟩
  else do
    let intent ← occurrenceIntent codec c cal (env made.length) p due
    if p.misfire ≠ .catchup ∨ p.observedAt < next then
      .ok ⟨next, occurrenceId codec cal p.id due, made ++ [intent]⟩
    else
      match left with
      | 0 => .ok ⟨next, occurrenceId codec cal p.id due, made ++ [intent]⟩
      | left + 1 => do
        let next' ← cal.checkedNext p.rule next
        occurrences env p next next' (made ++ [intent]) (occurrenceId codec cal p.id due) left

/-- The last task of the schedule still runs, and the schedule does not overlap. -/
def overlaps (lookup : String → Except Err Record) (p : PeriodicSchedule) : Except Err Bool :=
  if p.overlap = .skip ∧ p.lastTaskId ≠ "" then do
    let record ← lookup p.lastTaskId
    .ok !record.state.terminal
  else .ok false

/-- Source: `beat.go` `Beat.Tick`, for one of the schedules that were leased. -/
def tick (env : ℕ → Env) (lookup : String → Except Err Record) (p : PeriodicSchedule) :
    Except Err Occurrences := do
  p.validate cal
  refuseIf (!validScheduleInstant p.observedAt ∨ !validScheduleInstant p.nextDue) .invalid
  let next ← cal.checkedNext p.rule p.nextDue
  let next ← if p.rule.fixedDelay then cal.checkedNext p.rule p.observedAt else .ok next
  let overlapping ← overlaps lookup p
  let missed := ¬ p.observedAt < next
  let next ←
    if p.misfire ≠ .catchup ∧ missed then cal.checkedNext p.rule p.observedAt else .ok next
  if overlapping ∨ (p.misfire = .skip ∧ missed) then .ok ⟨next, p.lastTaskId, []⟩
  else occurrences codec c cal env p p.nextDue next [] p.lastTaskId (p.catchUpLimit - 1)

end Tick

/-! ## The stores -/

inductive PeriodicStore
  | memory
  | redis
deriving DecidableEq

/-- The clock of a store, in whole milliseconds. -/
def storeTime (clock : Time) : Time := clock - clock % 10 ^ 6

/-- A stored schedule with its place in the index, the leases that beats hold, the batches that were
committed with the observations they were made at, and the intents that are stored. -/
structure Timetable where
  schedule : PeriodicSchedule
  /-- The score of the schedule in the index of the second store. -/
  score : Option ℤ := none
  clock : Time
  leased : List PeriodicSchedule := []
  commits : List (Time × List Intent) := []
  outbox : List Intent := []

/-- Source: `periodicOwner`. -/
def periodicOwner (owner : String) : Bool :=
  owner != "" && owner.utf8ByteSize ≤ 256 && owner.toList.all fun ch => ch ∉ ['\x00', '\r', '\n']

/-- The store in memory takes a clock after the Unix epoch and before the year 10000. -/
def clockValid (store : PeriodicStore) (now : Time) : Bool :=
  match store with
  | .memory => 0 < unixMilli now && now < lastInstant
  | .redis => true

/-- Whom the stores give leases, and for how long. -/
def leaseValid (store : PeriodicStore) (now : Time) (owner : String) (lease : Duration) : Bool :=
  10 ^ 6 ≤ lease &&
    match store with
    | .memory =>
      periodicOwner owner && clockValid .memory now &&
        ofUnixMilli (unixMilli now + milliseconds lease) < lastInstant
    | .redis => owner != ""

/-- The schedule is due and free. -/
def Timetable.due (store : PeriodicStore) (s : Timetable) : Bool :=
  s.schedule.enabled && s.schedule.leaseUntil ≤ storeTime s.clock &&
    match store with
    | .memory => unixMilli s.schedule.nextDue ≤ unixMilli (storeTime s.clock)
    | .redis => s.score.any fun score => score ≤ unixMilli (storeTime s.clock)

/-- The schedule as a beat leases it. -/
def Timetable.leaseOf (s : Timetable) (owner : String) (lease : Duration) : PeriodicSchedule :=
  { s.schedule with
    revision := s.schedule.revision + 1
    fence := s.schedule.fence + 1
    owner := owner
    leaseUntil := ofUnixMilli (unixMilli (storeTime s.clock) + milliseconds lease)
    observedAt := storeTime s.clock }

/-- Source: `LeaseSchedules`, for one schedule. -/
def Timetable.lease (store : PeriodicStore) (s : Timetable) (owner : String) (lease : Duration) :
    Timetable :=
  if !leaseValid store (storeTime s.clock) owner lease ∨ s.schedule.revision = maxUint64 ∨
      s.schedule.fence = maxUint64 ∨ !s.due store then s
  else
    { s with
      schedule := s.leaseOf owner lease
      score := some (unixMilli (s.leaseOf owner lease).leaseUntil)
      leased := s.leased ++ [s.leaseOf owner lease] }

section Stores

variable (codec : Codec) (c : Client) (cal : Calendar)

/-- The checks that both stores make of a batch. -/
def commitCheck (p : PeriodicSchedule) (b : Occurrences) : Except Err Unit := do
  p.validate cal
  refuseIf (p.owner = "" ∨ p.fence = 0 ∨ p.revision = maxUint64 ∨ ¬ p.nextDue < b.next) .invalid
  refuseIf (b.lastId ≠ "" ∧ !idPattern b.lastId) .invalid
  refuseIf ((b.intents.any fun i => i.sourceId != p.id || !idPattern i.id) ∨
    ¬ (b.intents.map Intent.id).Nodup) .invalid

/-- The checks that the store in memory makes besides. -/
def storeCheck (store : PeriodicStore) (b : Occurrences) : Except Err Unit :=
  match store with
  | .memory => do
    refuseIf (1000 < b.intents.length) .invalid
    (b.intents.filterMap Intent.envelope).forM fun e => e.validate codec
  | .redis => .ok ()

def PeriodicSchedule.commit (p : PeriodicSchedule) (b : Occurrences) : PeriodicSchedule :=
  { p with
    nextDue := b.next
    lastTaskId := b.lastId
    revision := p.revision + 1
    owner := ""
    leaseUntil := 0
    observedAt := 0
    enabled := p.enabled && !p.ended b.next }

/-- The intents after a batch: one whose identifier is there is not stored again. -/
def stageBatch (outbox intents : List Intent) : List Intent :=
  intents.foldl (fun outbox i => if i.id ∈ outbox.map Intent.id then outbox else outbox ++ [i]) outbox

/-- Source: `CommitOccurrence`. Besides the checks, a store may refuse a batch for its size, for its
encoding or for an intent that is there with another content. -/
def Timetable.commit (store : PeriodicStore) (refuses : Timetable → Occurrences → Bool) (s : Timetable)
    (p : PeriodicSchedule) (b : Occurrences) : Except Err Timetable := do
  commitCheck cal p b
  storeCheck codec store b
  refuseIf (!clockValid store (storeTime s.clock) ∨ refuses s b) .conflict
  refuseIf (s.schedule.revision ≠ p.revision ∨ s.schedule.fence ≠ p.fence ∨
    s.schedule.owner ≠ p.owner ∨ ¬ storeTime s.clock < s.schedule.leaseUntil) .leaseLost
  .ok { s with
    schedule := p.commit b
    score := if (p.commit b).enabled then some (unixMilli b.next) else none
    commits := s.commits ++ [(p.observedAt, b.intents)]
    outbox := stageBatch s.outbox b.intents }

/-- What happens next; leases are named by their positions. A beat that stops does nothing more with
its lease. -/
inductive BeatEvent
  | wait (elapsed : ℕ)
  | lease (owner : String) (lease : Duration)
  | tick (k : ℕ) (env : ℕ → Env) (lookup : String → Except Err Record)

/-- One step; a tick or a commit that fails changes nothing. -/
def beatStep (store : PeriodicStore) (refuses : Timetable → Occurrences → Bool) (s : Timetable) :
    BeatEvent → Timetable
  | .wait elapsed => { s with clock := s.clock + elapsed }
  | .lease owner lease => s.lease store owner lease
  | .tick k env lookup =>
    match s.leased[k]? with
    | none => s
    | some p =>
      match tick codec c cal env lookup p >>= s.commit codec cal store refuses p with
      | .ok s' => s'
      | .error _ => s

end Stores

/-! ## The occurrences of a rule -/

section Iterates

variable {cal : Calendar} {rule : ScheduleRule}

variable (cal rule) in
/-- From an instant on, these are the occurrences of a rule, and then comes the last instant. -/
inductive Iterates : Time → List Time → Time → Prop
  | nil {t : Time} : Iterates t [] t
  | cons {t s u : Time} {l : List Time} (hnext : cal.checkedNext rule t = .ok s)
      (h : Iterates s l u) : Iterates t (t :: l) u

variable {t u : Time} {l : List Time}

lemma Iterates.trans {v : Time} {l' : List Time} (h : Iterates cal rule t l u)
    (h' : Iterates cal rule u l' v) : Iterates cal rule t (l ++ l') v := by
  induction h with
  | nil => exact h'
  | cons hnext _ ih => exact .cons hnext (ih h')

lemma lt_of_checkedNext {s : Time} (h : cal.checkedNext rule t = .ok s) : t < s := by
  unfold Calendar.checkedNext at h
  obtain ⟨_, -, h⟩ := bind_eq_ok.mp h
  obtain ⟨next, -, h⟩ := bind_eq_ok.mp h
  unfold checkedOccurrence at h
  split_ifs at h with hcheck
  cases h
  push Not at hcheck
  exact hcheck.2.2

/-- Occurrences come one after the other. -/
lemma Iterates.sorted (h : Iterates cal rule t l u) :
    t ≤ u ∧ (∀ x ∈ l, t ≤ x ∧ x < u) ∧ l.Pairwise (· < ·) := by
  induction h with
  | nil => exact ⟨le_rfl, by simp, .nil⟩
  | cons hnext _ ih =>
    obtain ⟨hle, hall, hpairwise⟩ := ih
    have hlt := lt_of_checkedNext hnext
    refine ⟨hlt.le.trans hle, forall_mem_cons.mpr ⟨⟨le_rfl, hlt.trans_le hle⟩, ?_⟩,
      hpairwise.cons fun x hx => hlt.trans_le (hall x hx).1⟩
    exact fun x hx => ⟨hlt.le.trans (hall x hx).1, (hall x hx).2⟩

end Iterates

/-! ## What a tick makes -/

section Ticks

variable {codec : Codec} {c : Client} {cal : Calendar}

variable (codec cal) in
/-- The intent publishes the task of this occurrence. -/
structure SendsDispatch (schedule : String) (t : Time) (i : Intent) : Prop where
  kind : i.kind = .publish
  sourceId : i.sourceId = schedule
  id : i.id = codec.stableId schedule ("dispatch-" ++ occurrenceId codec cal schedule t)
  envelope : ∃ e, i.envelope = some e ∧ e.id = occurrenceId codec cal schedule t

variable {p : PeriodicSchedule} {t : Time}

lemma dispatches_of_occurrenceIntent {env : Env} {i : Intent}
    (h : occurrenceIntent codec c cal env p t = .ok i) : SendsDispatch codec cal p.id t i := by
  unfold occurrenceIntent at h
  obtain ⟨e, he, h⟩ := bind_eq_ok.mp h
  obtain ⟨_, -, h⟩ := bind_eq_ok.mp h
  cases h
  have hid := prepare_id he (codec.stableId_ne _ _)
  refine ⟨rfl, rfl, ?_, _, rfl, hid⟩
  show codec.stableId p.id ("dispatch-" ++ e.id) = _
  rw [hid]

/-- Different occurrences have intents with different identifiers. -/
lemma dispatchId_ne (hids : StableIds codec) {schedule : String} {t' : Time} (h : t ≠ t') :
    codec.stableId schedule ("dispatch-" ++ occurrenceId codec cal schedule t) ≠
      codec.stableId schedule ("dispatch-" ++ occurrenceId codec cal schedule t') := by
  intro heq
  have hlabel := (hids _ _ _ _ heq).2
  have hid : occurrenceId codec cal schedule t = occurrenceId codec cal schedule t' :=
    String.append_right_inj _ |>.mp hlabel
  exact h (cal.format_injective (hids _ _ _ _ hid).2)

/-- What a batch is made of: the occurrences from an instant on, up to an instant where the schedule
ends, or that is still to come, or where the limit is reached. -/
structure Batches (codec : Codec) (cal : Calendar) (p : PeriodicSchedule) (due : Time) (limit : ℕ)
    (times : List Time) (cur : Time) (b : Occurrences) (made : List Intent) : Prop where
  iterates : Iterates cal p.rule due times cur
  intents : ∃ new, b.intents = made ++ new ∧ List.Forall₂ (SendsDispatch codec cal p.id) times new
  before : ∀ t ∈ times, p.ended t = false
  observed : ∀ t ∈ times, t = due ∨ t ≤ p.observedAt
  length : times.length ≤ limit
  stops : (b.next = cur ∧ (p.observedAt < cur ∨ times.length = limit)) ∨
    (p.ended cur = true ∧ cal.checkedNext p.rule cur = .ok b.next)

/-- **The loop of a tick** that catches up. The induction is on what is left of the limit. -/
theorem occurrences_spec {env : ℕ → Env} {due next : Time} {made : List Intent} {lastId : String}
    {left : ℕ} {b : Occurrences} (hcatchup : p.misfire = .catchup)
    (hnext : cal.checkedNext p.rule due = .ok next)
    (h : occurrences codec c cal env p due next made lastId left = .ok b) :
    ∃ times cur, Batches codec cal p due (left + 1) times cur b made := by
  induction left generalizing due next made lastId with
  | zero =>
    unfold occurrences at h
    split_ifs at h with hended hstop
    · cases h
      exact ⟨[], due, .nil, ⟨[], by simp, .nil⟩, by simp, by simp, by simp, .inr ⟨hended, hnext⟩⟩
    all_goals
      obtain ⟨i, hi, h⟩ := bind_eq_ok.mp h
      cases h
      exact ⟨[due], next, .cons hnext .nil,
        ⟨[i], rfl, .cons (dispatches_of_occurrenceIntent hi) .nil⟩, by simpa using hended, by simp,
        by simp, .inl ⟨rfl, .inr rfl⟩⟩
  | succ left ih =>
    unfold occurrences at h
    split_ifs at h with hended hstop
    · cases h
      exact ⟨[], due, .nil, ⟨[], by simp, .nil⟩, by simp, by simp, by simp, .inr ⟨hended, hnext⟩⟩
    · obtain ⟨i, hi, h⟩ := bind_eq_ok.mp h
      cases h
      have hlater : p.observedAt < next := hstop.resolve_left (by rw [hcatchup]; simp)
      exact ⟨[due], next, .cons hnext .nil,
        ⟨[i], rfl, .cons (dispatches_of_occurrenceIntent hi) .nil⟩, by simpa using hended, by simp,
        by simp, .inl ⟨rfl, .inl hlater⟩⟩
    · obtain ⟨i, hi, h⟩ := bind_eq_ok.mp h
      obtain ⟨next', hnext', h⟩ := bind_eq_ok.mp h
      obtain ⟨times, cur, hbatch⟩ := ih hnext' h
      obtain ⟨new, hnew, hforall⟩ := hbatch.intents
      push Not at hstop
      refine ⟨due :: times, cur, .cons hnext hbatch.iterates,
        ⟨i :: new, by rw [hnew, append_assoc]; rfl,
          .cons (dispatches_of_occurrenceIntent hi) hforall⟩,
        forall_mem_cons.mpr ⟨by simpa using hended, hbatch.before⟩,
        forall_mem_cons.mpr ⟨.inl rfl, fun t ht => .inr ?_⟩,
        by simpa using hbatch.length, ?_⟩
      · rcases hbatch.observed t ht with rfl | hle
        · exact hstop.2
        · exact hle
      · rcases hbatch.stops with ⟨hcur, hlater | hlimit⟩ | hended
        · exact .inl ⟨hcur, .inl hlater⟩
        · exact .inl ⟨hcur, .inr (by simpa using hlimit)⟩
        · exact .inr hended

/-- What a tick makes of a schedule that catches up. -/
lemma batches_of_tick {env : ℕ → Env} {lookup : String → Except Err Record} {p : PeriodicSchedule}
    {b : Occurrences} (hcatchup : p.misfire = .catchup) (hoverlap : p.overlap = .allow)
    (hdelay : p.rule.fixedDelay = false) (h : tick codec c cal env lookup p = .ok b) :
    ∃ times cur, Batches codec cal p p.nextDue p.catchUpLimit times cur b [] := by
  unfold tick at h
  obtain ⟨_, hvalid, h⟩ := bind_eq_ok.mp h
  obtain ⟨_, -, h⟩ := bind_eq_ok.mp h
  obtain ⟨next, hnext, h⟩ := bind_eq_ok.mp h
  simp only [hdelay, overlaps, hoverlap, hcatchup] at h
  obtain ⟨times, cur, hbatch⟩ := occurrences_spec hcatchup hnext (b := b) h
  have hlimit := refuseIf_eq_ok.mp hvalid
  push Not at hlimit
  have hlimit : p.catchUpLimit - 1 + 1 = p.catchUpLimit := Nat.sub_add_cancel hlimit.2.2.1
  rw [hlimit] at hbatch
  exact ⟨times, cur, hbatch⟩

end Ticks

/-! ## What holds of a timetable -/

/-- What leases and commits leave alone. -/
def PeriodicSchedule.frame (p : PeriodicSchedule) : PeriodicSchedule :=
  { p with
    enabled := false, nextDue := 0, lastTaskId := "", revision := 0, fence := 0, owner := "",
    leaseUntil := 0, observedAt := 0 }

/-- The last commit: the observation it was made at and its batch. -/
def Timetable.lastCommit (s : Timetable) : Option (Time × List Intent) := s.commits.getLast?

section OnTrack

variable {codec : Codec} {c : Client} {cal : Calendar} {p₀ : PeriodicSchedule}

variable (codec cal) in
/-- What was committed: a beginning of the occurrences of a schedule, up to an instant that is still
to come, or at which the schedule ends, or that the limit of the last batch leaves for later. -/
structure Progress (p₀ : PeriodicSchedule) (s : Timetable) (times : List Time) (cur : Time) :
    Prop where
  iterates : Iterates cal p₀.rule p₀.nextDue times cur
  dispatched : List.Forall₂ (SendsDispatch codec cal p₀.id) times s.outbox
  batches : s.outbox = s.commits.flatMap Prod.snd
  before : ∀ t ∈ times, p₀.ended t = false
  limit : ∀ commit ∈ s.commits, commit.2.length ≤ p₀.catchUpLimit
  caught : ∀ observed batch, s.lastCommit = some (observed, batch) →
    (∀ t ∈ times, unixMilli t ≤ unixMilli observed) ∧
      (observed < cur ∨ p₀.ended cur = true ∨ batch.length = p₀.catchUpLimit)
  /-- The next tick goes on there. -/
  position : s.schedule.nextDue = cur ∨ (p₀.ended cur = true ∧ s.schedule.enabled = false)

variable (codec cal) in
/-- What holds of a timetable between steps. -/
structure OnTrack (p₀ : PeriodicSchedule) (s : Timetable) : Prop where
  frame : s.schedule.frame = p₀.frame
  held : ∀ q ∈ s.leased, q.revision < s.schedule.revision ∨ q = s.schedule
  score : s.schedule.enabled = true → s.score = some
    (unixMilli (if s.schedule.owner = "" then s.schedule.nextDue else s.schedule.leaseUntil))
  leased : s.schedule.owner ≠ "" → s.schedule.enabled = true ∧
    unixMilli s.schedule.nextDue ≤ unixMilli s.schedule.observedAt ∧
    s.schedule.observedAt ≤ storeTime s.clock
  committed : ∀ observed batch, s.lastCommit = some (observed, batch) →
    observed ≤ storeTime s.clock ∧ (s.schedule.owner ≠ "" → observed ≤ s.schedule.observedAt)
  progress : ∃ times cur, Progress codec cal p₀ s times cur

variable {p : PeriodicSchedule} {t t' : Time} {s : Timetable} {store : PeriodicStore}
  {intents : List Intent}

lemma ended_of_frame {q : PeriodicSchedule} (h : p.frame = q.frame) (t : Time) :
    p.ended t = q.ended t := by
  have hend := congrArg PeriodicSchedule.endAt h
  change p.endAt = q.endAt at hend
  rw [PeriodicSchedule.ended, PeriodicSchedule.ended, hend]

lemma storeTime_mono (h : t ≤ t') : storeTime t ≤ storeTime t' := by
  have hmono : ∀ a b : ℕ, a ≤ b → a - a % 10 ^ 6 ≤ b - b % 10 ^ 6 := by
    intro a b hab
    omega
  exact hmono t t' h

lemma unixMilli_mono (h : t ≤ t') : unixMilli t ≤ unixMilli t' := by
  unfold unixMilli
  have h : (t : ℤ) ≤ t' := by exact_mod_cast h
  exact Int.ediv_le_ediv (by norm_num) (by omega)

/-! ### Steps -/

lemma OnTrack.wait (h : OnTrack codec cal p₀ s) (elapsed : ℕ) :
    OnTrack codec cal p₀ { s with clock := s.clock + elapsed } := by
  have hclock : storeTime s.clock ≤ storeTime (s.clock + elapsed) :=
    storeTime_mono (Nat.le_add_right _ _)
  refine ⟨h.frame, h.held, h.score, fun howner => ?_, fun observed batch hlast => ?_, ?_⟩
  · obtain ⟨henabled, hdue, hobserved⟩ := h.leased howner
    exact ⟨henabled, hdue, hobserved.trans hclock⟩
  · obtain ⟨hobserved, hafter⟩ := h.committed observed batch hlast
    exact ⟨hobserved.trans hclock, hafter⟩
  · obtain ⟨times, cur, hprogress⟩ := h.progress
    exact ⟨times, cur, hprogress.iterates, hprogress.dispatched, hprogress.batches,
      hprogress.before, hprogress.limit, hprogress.caught, hprogress.position⟩

/-- A schedule that is leased is due, at the resolution of the stores. -/
lemma OnTrack.due (h : OnTrack codec cal p₀ s) (hdue : s.due store = true) :
    s.schedule.enabled = true ∧
      unixMilli s.schedule.nextDue ≤ unixMilli (storeTime s.clock) := by
  simp only [Timetable.due, Bool.and_eq_true, decide_eq_true_eq] at hdue
  obtain ⟨⟨henabled, -⟩, hdue⟩ := hdue
  refine ⟨henabled, ?_⟩
  cases store with
  | memory => simpa using hdue
  | redis =>
    simp only [h.score henabled, Option.any_some, decide_eq_true_eq] at hdue
    by_cases howner : s.schedule.owner = ""
    · rwa [if_pos howner] at hdue
    · obtain ⟨-, hnext, hobserved⟩ := h.leased howner
      exact hnext.trans (unixMilli_mono hobserved)

lemma OnTrack.lease (h : OnTrack codec cal p₀ s) (owner : String) (lease : Duration) :
    OnTrack codec cal p₀ (s.lease store owner lease) := by
  unfold Timetable.lease
  split_ifs with hrefused
  · exact h
  · push Not at hrefused
    obtain ⟨hvalid, -, -, hdue⟩ := hrefused
    have hready : s.due store = true := by simpa using hdue
    obtain ⟨henabled, hnext⟩ := h.due hready
    have howner : owner ≠ "" := by
      rintro rfl
      cases store <;> simp [leaseValid, periodicOwner] at hvalid
    refine ⟨h.frame, fun q hq => ?_, fun _ => ?_, fun _ => ⟨henabled, hnext, le_rfl⟩,
      fun observed batch hlast => ?_, ?_⟩
    · rcases mem_append.mp hq with hq | hq
      · refine .inl ?_
        show q.revision < s.schedule.revision + 1
        rcases h.held q hq with hlt | rfl
        · omega
        · omega
      · exact .inr (mem_singleton.mp hq)
    · show _ = some (unixMilli (if owner = "" then _ else _))
      rw [if_neg howner]
    · obtain ⟨hobserved, -⟩ := h.committed observed batch hlast
      exact ⟨hobserved, fun _ => hobserved⟩
    · obtain ⟨times, cur, hprogress⟩ := h.progress
      exact ⟨times, cur, hprogress.iterates, hprogress.dispatched, hprogress.batches,
        hprogress.before, hprogress.limit, hprogress.caught, hprogress.position⟩

/-- The intents of a batch are new. -/
lemma stageBatch_of_new {outbox : List Intent} (h : ((outbox ++ intents).map Intent.id).Nodup) :
    stageBatch outbox intents = outbox ++ intents := by
  induction intents generalizing outbox with
  | nil => simp [stageBatch]
  | cons i rest ih =>
    have hi : i.id ∉ outbox.map Intent.id := by
      rw [map_append, map_cons, nodup_append] at h
      exact fun hmem => h.2.2 _ hmem _ mem_cons_self rfl
    have hrest : stageBatch (outbox ++ [i]) rest = outbox ++ [i] ++ rest :=
      ih (by rwa [append_assoc])
    rw [append_assoc] at hrest
    rw [← singleton_append, ← hrest]
    simp only [stageBatch, singleton_append, foldl_cons, if_neg hi]

/-- The intents of different occurrences have different identifiers. -/
lemma nodup_dispatched (hids : StableIds codec) {schedule : String} {times : List Time}
    (htimes : times.Pairwise (· < ·))
    (h : List.Forall₂ (SendsDispatch codec cal schedule) times intents) :
    (intents.map Intent.id).Nodup := by
  refine nodup_map_of_forall₂ h (htimes.imp fun hlt => hlt.ne) fun t i t' i' hi hi' hid => ?_
  by_contra hne
  rw [hi.id, hi'.id] at hid
  exact dispatchId_ne hids hne hid

/-- **A commit** goes on where the last one stopped. -/
lemma OnTrack.commit (hids : StableIds codec) {refuses : Timetable → Occurrences → Bool}
    {s' : Timetable} {b : Occurrences} {env : ℕ → Env} {lookup : String → Except Err Record}
    (hcatchup : p₀.misfire = .catchup) (hoverlap : p₀.overlap = .allow)
    (hdelay : p₀.rule.fixedDelay = false) (h : OnTrack codec cal p₀ s) (hp : p ∈ s.leased)
    (htick : tick codec c cal env lookup p = .ok b)
    (hcommit : s.commit codec cal store refuses p b = .ok s') : OnTrack codec cal p₀ s' := by
  unfold Timetable.commit at hcommit
  obtain ⟨_, hcheck, hcommit⟩ := bind_eq_ok.mp hcommit
  obtain ⟨_, -, hcommit⟩ := bind_eq_ok.mp hcommit
  obtain ⟨_, -, hcommit⟩ := bind_eq_ok.mp hcommit
  obtain ⟨_, hlease, hcommit⟩ := bind_eq_ok.mp hcommit
  cases hcommit
  have hlease := refuseIf_eq_ok.mp hlease
  push Not at hlease
  -- The lease is the last one: the schedule is as the beat holds it.
  obtain rfl : p = s.schedule := (h.held p hp).resolve_left (by rw [hlease.1]; exact lt_irrefl _)
  have howner : s.schedule.owner ≠ "" := by
    unfold commitCheck at hcheck
    obtain ⟨_, -, hcheck⟩ := bind_eq_ok.mp hcheck
    obtain ⟨_, howner, -⟩ := bind_eq_ok.mp hcheck
    have howner := refuseIf_eq_ok.mp howner
    push Not at howner
    exact howner.1
  obtain ⟨henabled, hdue, hobserved⟩ := h.leased howner
  obtain ⟨times, cur, hprogress⟩ := h.progress
  obtain rfl := hprogress.position.resolve_right fun hoff => by
    rw [henabled] at hoff
    cases hoff.2
  have hrule : s.schedule.rule = p₀.rule := by
    have := congrArg PeriodicSchedule.rule h.frame
    exact this
  have hid : s.schedule.id = p₀.id := by
    have := congrArg PeriodicSchedule.id h.frame
    exact this
  have hlimit : s.schedule.catchUpLimit = p₀.catchUpLimit := by
    have := congrArg PeriodicSchedule.catchUpLimit h.frame
    exact this
  obtain ⟨times', cur', hbatch⟩ := @batches_of_tick codec c cal env lookup s.schedule b
    ((congrArg PeriodicSchedule.misfire h.frame).trans hcatchup)
    ((congrArg PeriodicSchedule.overlap h.frame).trans hoverlap) (by rw [hrule]; exact hdelay) htick
  obtain ⟨new, hnew, hforall⟩ := hbatch.intents
  obtain rfl : b.intents = new := hnew
  have hbefore := fun t ht => (ended_of_frame h.frame t).symm.trans (hbatch.before t ht)
  have hiterates := hprogress.iterates.trans (hrule ▸ hbatch.iterates)
  have hdispatched := rel_append hprogress.dispatched (hid ▸ hforall)
  have houtbox : stageBatch s.outbox b.intents = s.outbox ++ b.intents :=
    stageBatch_of_new (nodup_dispatched hids hiterates.sorted.2.2 hdispatched)
  have hlength : b.intents.length = times'.length := hforall.length_eq.symm
  have hlast : ∀ {observed batch}, (s.commits ++ [(s.schedule.observedAt, b.intents)]).getLast? =
      some (observed, batch) → observed = s.schedule.observedAt ∧ batch = b.intents := by
    intro observed batch heq
    rw [getLast?_concat, Option.some.injEq, Prod.mk.injEq] at heq
    exact ⟨heq.1.symm, heq.2.symm⟩
  refine ⟨h.frame, fun q hq => ?_, fun hon => ?_, fun hno => absurd rfl hno,
    fun observed batch heq => ?_, times ++ times', cur', hiterates, ?_, ?_, ?_, ?_, ?_, ?_⟩
  · refine .inl ?_
    show q.revision < s.schedule.revision + 1
    rcases h.held q hq with hlt | rfl
    · omega
    · omega
  · show (if (s.schedule.commit b).enabled then some (unixMilli b.next) else none) = _
    rw [if_pos hon]
    rfl
  · obtain ⟨rfl, -⟩ := hlast heq
    exact ⟨hobserved, fun hno => absurd rfl hno⟩
  · show Forall₂ _ _ (stageBatch s.outbox b.intents)
    rw [houtbox]
    exact hdispatched
  · show stageBatch s.outbox b.intents = _
    rw [houtbox, hprogress.batches, flatMap_append]
    simp
  · exact forall_mem_append.mpr ⟨hprogress.before, hbefore⟩
  · refine forall_mem_append.mpr ⟨hprogress.limit, forall_mem_singleton.mpr ?_⟩
    rw [← hlimit, hlength]
    exact hbatch.length
  · intro observed batch heq
    obtain ⟨rfl, rfl⟩ := hlast heq
    refine ⟨forall_mem_append.mpr ⟨fun t ht => ?_, fun t ht => ?_⟩, ?_⟩
    · -- What was committed before was due at an earlier observation.
      rcases hprevious : s.lastCommit with _ | ⟨observed, batch⟩
      · have hnone : s.commits = [] := getLast?_eq_none_iff.mp hprevious
        have hempty : s.outbox = [] := by rw [hprogress.batches, hnone]; rfl
        have hdispatched := hprogress.dispatched
        rw [hempty, forall₂_nil_right_iff] at hdispatched
        rw [hdispatched] at ht
        cases ht
      · exact ((hprogress.caught observed batch hprevious).1 t ht).trans
          (unixMilli_mono ((h.committed observed batch hprevious).2 howner))
    · rcases hbatch.observed t ht with rfl | hle
      · exact hdue
      · exact unixMilli_mono hle
    · rcases hbatch.stops with ⟨-, hlater | hfull⟩ | ⟨hended, -⟩
      · exact .inl hlater
      · exact .inr (.inr (by rw [hlength, hfull, hlimit]))
      · exact .inr (.inl ((ended_of_frame h.frame cur').symm.trans hended))
  · rcases hbatch.stops with ⟨hnext, -⟩ | ⟨hended, hnext⟩
    · exact .inl hnext
    · refine .inr ⟨(ended_of_frame h.frame cur').symm.trans hended, ?_⟩
      have hlt := lt_of_checkedNext hnext
      have hended : s.schedule.ended b.next = true := by
        simp only [PeriodicSchedule.ended, Bool.and_eq_true, decide_eq_true_eq] at hended ⊢
        exact ⟨hended.1, hended.2.trans hlt.le⟩
      show (s.schedule.enabled && !s.schedule.ended b.next) = false
      rw [hended, Bool.not_true, Bool.and_false]

/-- **Every step keeps a timetable on track.** -/
theorem OnTrack.step (hids : StableIds codec) {store : PeriodicStore}
    {refuses : Timetable → Occurrences → Bool} {s : Timetable} (hcatchup : p₀.misfire = .catchup)
    (hoverlap : p₀.overlap = .allow) (hdelay : p₀.rule.fixedDelay = false)
    (h : OnTrack codec cal p₀ s) (event : BeatEvent) :
    OnTrack codec cal p₀ (beatStep codec c cal store refuses s event) := by
  cases event with
  | wait elapsed => exact h.wait elapsed
  | lease owner lease => exact h.lease owner lease
  | tick k env lookup =>
    simp only [beatStep]
    split
    · exact h
    · next p hk =>
      split
      · next s' hok =>
        obtain ⟨b, htick, hcommit⟩ := bind_eq_ok.mp hok
        exact h.commit hids hcatchup hoverlap hdelay (mem_of_getElem? hk) htick hcommit
      · exact h

end OnTrack

/-! ## Whole runs -/

section Runs

variable {codec : Codec} {c : Client} {cal : Calendar}

/-- A schedule as it is stored before the first beat. -/
structure Timetable.Stored (s : Timetable) : Prop where
  owner : s.schedule.owner = ""
  score : s.schedule.enabled = true → s.score = some (unixMilli s.schedule.nextDue)
  leased : s.leased = []
  commits : s.commits = []
  outbox : s.outbox = []

lemma Timetable.Stored.onTrack {s : Timetable} (h : s.Stored) :
    OnTrack codec cal s.schedule s where
  frame := rfl
  held q hq := by
    rw [h.leased] at hq
    cases hq
  score henabled := by rw [if_pos h.owner, h.score henabled]
  leased howner := absurd h.owner howner
  committed observed batch hlast := by
    rw [Timetable.lastCommit, h.commits] at hlast
    cases hlast
  progress := by
    refine ⟨[], s.schedule.nextDue, .nil, by rw [h.outbox]; exact .nil, ?_, by simp, ?_, ?_, .inl rfl⟩
    · rw [h.outbox, h.commits]
      rfl
    · rw [h.commits]
      simp
    · intro observed batch hlast
      rw [Timetable.lastCommit, h.commits] at hlast
      cases hlast

/-- **Catching up loses and repeats nothing.** For a schedule that catches up and may overlap, over
either store and any calendar, in every run of beats that stop at any point: the stored intents
publish, one each and in order, the tasks of a beginning of the occurrences of the schedule; all of
them are before its end and, to the millisecond, not after the last observation that was committed;
the first occurrence that is missing is after that observation, or not before the end, or the last
batch has as many intents as the limit allows; and no batch has more. -/
theorem catch_up_loses_nothing (hids : StableIds codec) {store : PeriodicStore}
    {refuses : Timetable → Occurrences → Bool} {s : Timetable} (hstored : s.Stored)
    (hcatchup : s.schedule.misfire = .catchup) (hoverlap : s.schedule.overlap = .allow)
    (hdelay : s.schedule.rule.fixedDelay = false) (events : List BeatEvent) :
    let s' := events.foldl (beatStep codec c cal store refuses) s
    ∃ times cur, Progress codec cal s.schedule s' times cur ∧ (s'.outbox.map Intent.id).Nodup := by
  intro s'
  have htrack : OnTrack codec cal s.schedule s' := by
    have hstart := @Timetable.Stored.onTrack codec cal s hstored
    clear hstored
    revert s'
    generalize s.schedule = p₀ at hcatchup hoverlap hdelay hstart
    induction events generalizing s with
    | nil => exact hstart
    | cons event rest ih => exact ih (hstart.step hids hcatchup hoverlap hdelay event)
  obtain ⟨times, cur, hprogress⟩ := htrack.progress
  exact ⟨times, cur, hprogress, nodup_dispatched hids hprogress.iterates.sorted.2.2
    hprogress.dispatched⟩

end Runs

/-! ## A small schedule -/

/-- A rule that recurs every millisecond. -/
def sampleRule : ScheduleRule :=
  { kind := "interval", interval := 10 ^ 6, timezone := "UTC", foldPolicy := "both", gapPolicy := "skip" }

/-- A calendar that writes instants as numbers. -/
def sampleCalendar : Calendar where
  next _ t := .ok (t + 10 ^ 6)
  valid _ := true
  format t := Nat.repr t
  format_injective _ _ h := Nat.repr_inj.mp h

/-- One second after the Unix epoch. -/
def sampleInstant : Time := unixEpoch + 10 ^ 9

/-- The identifiers of the tasks and intents of a few occurrences. -/
def beatTable : List (String × String) :=
  [("62135596801000000000", "f0000000-0000-4000-8000-000000000001"),
   ("dispatch-f0000000-0000-4000-8000-000000000001", "f0000000-0000-4000-8000-000000000002"),
   ("62135596801001000000", "f0000000-0000-4000-8000-000000000003"),
   ("dispatch-f0000000-0000-4000-8000-000000000003", "f0000000-0000-4000-8000-000000000004"),
   ("62135596801002000000", "f0000000-0000-4000-8000-000000000005"),
   ("dispatch-f0000000-0000-4000-8000-000000000005", "f0000000-0000-4000-8000-000000000006"),
   ("62135596801000500000", "f0000000-0000-4000-8000-000000000007"),
   ("dispatch-f0000000-0000-4000-8000-000000000007", "f0000000-0000-4000-8000-000000000008")]

lemma beatTable_ids : IdTable beatTable := ⟨by decide, by decide⟩

/-- A codec with these identifiers. -/
def beatCodec : Codec :=
  { sampleCodec fun _ => some 4 with
    stableId := tableStableId beatTable
    stableId_ne := beatTable_ids.ne }

lemma beatCodec_stableIds : StableIds beatCodec := fun _ _ _ _ => beatTable_ids.stableIds

/-- A schedule that is due at an instant, with a limit of two occurrences. -/
def sampleTimetable (due clock : Time) : Timetable where
  schedule :=
    { id := sampleRoot, signature := sampleJob, rule := sampleRule, enabled := true, nextDue := due
      misfire := .catchup, catchUpLimit := 2, overlap := .allow, revision := 1 }
  score := some (unixMilli due)
  clock := clock

/-- The timetable after some events, over the store in memory. -/
def sampleBeats (s : Timetable) (events : List BeatEvent) : Timetable :=
  events.foldl (beatStep beatCodec sampleClient sampleCalendar .memory fun _ _ => false) s

/-- A tick of the beat with the lease of this number. -/
def sampleTick (k : ℕ) : BeatEvent := .tick k (fun _ => sampleEnv) fun _ => .error .notFound

/-- Three occurrences are due. The first beat stops after its lease; when that is over, a second one
commits two occurrences and leaves the rest; the first one, back again, commits nothing. -/
theorem backlog_is_worked_off :
    let s := sampleTimetable sampleInstant (sampleInstant + 2 * 10 ^ 6)
    let s' := sampleBeats s
      [.lease "first" (10 ^ 9), .wait (10 ^ 9), .lease "second" (10 ^ 9), sampleTick 1, sampleTick 0]
    s'.outbox.length = 2 ∧ s'.schedule.nextDue = sampleInstant + 2 * 10 ^ 6 ∧
      ∃ times cur, Progress beatCodec sampleCalendar s.schedule s' times cur ∧
        (s'.outbox.map Intent.id).Nodup := by
  refine ⟨by decide +kernel, by decide +kernel, ?_⟩
  exact catch_up_loses_nothing beatCodec_stableIds ⟨rfl, fun _ => rfl, rfl, rfl, rfl⟩ rfl rfl rfl _

/-- An occurrence in the middle of a millisecond is dispatched at the beginning of that millisecond:
before it is due. -/
theorem occurrence_runs_early :
    let s := sampleTimetable (sampleInstant + 500000) sampleInstant
    let s' := sampleBeats s [.lease "beat" (10 ^ 9), sampleTick 0]
    s.Stored ∧ s'.outbox.map Intent.id = [beatCodec.stableId sampleRoot
        ("dispatch-" ++ occurrenceId beatCodec sampleCalendar sampleRoot s.schedule.nextDue)] ∧
      s'.lastCommit.map Prod.fst = some sampleInstant ∧ sampleInstant < s.schedule.nextDue := by
  refine ⟨⟨rfl, fun _ => rfl, rfl, rfl, rfl⟩, by decide +kernel, by decide +kernel, by decide⟩

end Gogo.Async

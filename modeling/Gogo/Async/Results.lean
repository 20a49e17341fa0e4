import Gogo.Async.Record
import Gogo.Lib.Optimistic

/-!
# The result stores

The nine operations of `async/ports.go` `ResultStore` and `ReplacementStore` that change one task
record, as the two stores implement them: `async/testing/memory.go` `Memory`, which holds a lock
during each call, and `async/redis/results.go` `Results`, which reads the record, computes the next
one and hands it to the script `recordCAS`.

* `Op`, `Reply` — the calls on one record and what they return.
* `propose` — what a call wants to write, given the record it found.
* `memory` — the locked store.
* `Row`, `recordCAS`, `redis` — the optimistic store, with the fields of the Redis hash and the
  comparisons that the script makes of them.
-/

namespace Gogo.Async

open Gogo.Lib Gogo.Lib.Optimistic

/-! ## Calls -/

/-- The calls that change one task record. -/
inductive Op
  | register (e : Envelope) (state : State)
  | claim (e : Envelope) (owner : String) (lease : Duration)
  | renew (fence : ℕ) (owner : String) (lease : Duration)
  | transition (t : Transition)
  | recordProgress (fence : ℕ) (owner : String) (payload : RawMessage)
  | requestCancel (scope : String)
  | resolveReplacement (workflowId : String) (finalize : Record → Except Err Transition)
  | forget
  | releasePin

/-- What a call returns besides an error. -/
inductive Reply
  | done
  | claimed (c : Claim)
  | renewed (r : Record)
  | applied (wrote : Bool)

/-- The modes of `recordCAS`. -/
inductive Mode
  | create
  | claim
  | live
  | update
deriving DecidableEq

/-- What a call wants to write: the arguments of `Results.cas`. -/
structure Write where
  record : Record
  mode : Mode
  fence : ℕ := 0
  owner : String := ""
  lease : Duration := 0
  intents : List Intent := []

/-- What a call takes from its surroundings: the clock, which `Memory.Renew` reads twice, and a
failure of the context, of the connection or of the hook `Memory.Fail`. -/
structure Reading where
  now : Time
  again : Time
  fault : Option Err := none

/-- The two stores, with the retention times of the second one. -/
inductive Backend
  | memory
  | redis (resultTTL tombstoneTTL : Duration)

/-- Nanoseconds of an hour. -/
def hour : Duration := 3600 * 10 ^ 9

/-- The time for which a result is kept; zero stands for a day. -/
def Backend.resultTTL : Backend → Duration
  | .memory => 24 * hour
  | .redis resultTTL _ => if resultTTL = 0 then 24 * hour else resultTTL

/-- The time for which a finished task is remembered; zero stands for a week. -/
def Backend.tombstoneTTL : Backend → Duration
  | .memory => 7 * 24 * hour
  | .redis _ tombstoneTTL => if tombstoneTTL = 0 then 7 * 24 * hour else tombstoneTTL

/-- Source: `results.go` `Results.valid`; the connection is taken to be configured. -/
def Backend.valid : Backend → Except Err Unit
  | .memory => .ok ()
  | .redis resultTTL tombstoneTTL =>
    let b := Backend.redis resultTTL tombstoneTTL
    if b.resultTTL ≤ 0 ∨ b.tombstoneTTL < 7 * 24 * hour ∨ b.tombstoneTTL < b.resultTTL then
      .error .invalid
    else .ok ()

/-! ## What the calls propose -/

section Propose

variable (codec : Codec)

/-- The record that a call looks up. -/
def present : Option Record → Except Err Record
  | some r => .ok r
  | none => .error .notFound

/-- Source: `Memory.Register`. -/
def proposeRegister (e : Envelope) (state : State) (r : Option Record) :
    Except Err (Plan Write Reply) := do
  let initial ← initialRecord codec e state
  match r with
  | none => .ok (.write { record := initial, mode := .create } .done)
  | some existing =>
    if existing.digest ≠ initial.digest then .error .conflict else .ok (.answer .done)

/-- Source: `Results.Register`: the second attempt reads what was in the way of the first. -/
def confirmRegister (e : Envelope) (state : State) (r : Option Record) :
    Except Err (Plan Write Reply) := do
  let initial ← initialRecord codec e state
  let existing ← present r
  if existing.digest ≠ initial.digest then .error .conflict else .ok (.answer .done)

/-- The record that a claim is made on; a task without one gets its first. -/
def claimBase (e : Envelope) : Option Record → Except Err Record
  | some r => .ok r
  | none => initialRecord codec e .queued

/-- Source: `Memory.Claim`, `Results.Claim`. -/
def proposeClaim (e : Envelope) (owner : String) (lease : Duration) (now : Time)
    (r : Option Record) : Except Err (Plan Write Reply) := do
  let base ← claimBase codec e r
  let c ← claimRecord codec base e owner now lease
  if c.acquired then .ok (.write { record := c.record, mode := .claim, lease := lease } (.claimed c))
  else .ok (.answer (.claimed c))

/-- Source: `Memory.Renew`, `Results.Renew`. -/
def proposeRenew (fence : ℕ) (owner : String) (lease : Duration) (t : Reading) (r : Record) :
    Except Err (Plan Write Reply) := do
  validateLease r fence owner t.now
  let next := { r with leaseUntil := Time.add t.again lease, revision := increment r.revision }
  .ok (.write { record := next, mode := .live, fence := fence, owner := owner, lease := lease }
    (.renewed next))

/-- Source: `Memory.Transition`, `Results.Transition`. -/
def proposeTransition (b : Backend) (t : Transition) (now : Time) (r : Record) :
    Except Err (Plan Write Reply) := do
  let next ← applyTransition codec r t now b.resultTTL b.tombstoneTTL
  .ok (.write
    { record := next, mode := .live, fence := t.fence, owner := t.owner, intents := t.intents }
    .done)

/-- Source: `Memory.RecordProgress`, `Results.RecordProgress`. -/
def proposeProgress (fence : ℕ) (owner : String) (payload : RawMessage) (now : Time)
    (r : Record) : Except Err (Plan Write Reply) := do
  validateLease r fence owner now
  let next := { r with progress := payload, revision := increment r.revision }
  .ok (.write { record := next, mode := .live, fence := fence, owner := owner } .done)

/-- Source: `Memory.RequestCancel`, `Results.RequestCancel`. -/
def proposeCancel (scope : String) (r : Record) : Except Err (Plan Write Reply) :=
  if r.envelope.scope ≠ scope then .error .denied
  else if r.state.terminal then .ok (.answer .done)
  else
    let next := { r with cancelRequested := true, revision := increment r.revision }
    .ok (.write
      { record := next, mode := .update, intents := replacementCancellationIntents codec next }
      .done)

/-- Source: `Memory.ResolveReplacement`, `Results.ResolveReplacement`. -/
def proposeResolve (b : Backend) (workflowId : String)
    (finalize : Record → Except Err Transition) (now : Time) (r : Record) :
    Except Err (Plan Write Reply) :=
  if r.replacementId ≠ workflowId ∨ workflowId = "" then .error .conflict
  else if r.state.terminal then .ok (.answer (.applied false))
  else do
    let t ← finalize r.clone
    let next ← applyReplacementOutcome codec r workflowId t now b.resultTTL b.tombstoneTTL
    .ok (.write { record := next, mode := .update, intents := t.intents } (.applied true))

/-- Source: `Memory.Forget`, `Results.Forget`. -/
def proposeForget (r : Record) : Except Err (Plan Write Reply) :=
  if !r.state.terminal ∨ r.pinned then .error .pinned
  else
    .ok (.write
      { record := { r with output := none, progress := none, revision := increment r.revision }
        mode := .update }
      .done)

/-- Source: `Memory.ReleasePin`, `Results.ReleasePin`. -/
def proposeRelease (r : Record) : Except Err (Plan Write Reply) :=
  if !r.state.terminal then .error .pinned
  else
    .ok (.write
      { record := { r with pinned := false, revision := increment r.revision }, mode := .update }
      .done)

/-- The payload check of `RecordProgress`. -/
def validProgress (payload : RawMessage) : Bool :=
  payload.isSome && codec.length payload ≤ 16 * 1024

/-- The error of `RecordProgress` for a task without a record. -/
def Backend.absentProgress : Backend → Err
  | .memory => .leaseLost
  | .redis _ _ => .notFound

/-- Whether `ResolveReplacement` refuses an unnamed workflow before it looks the task up. -/
def Backend.refusesUnnamed : Backend → Bool
  | .memory => false
  | .redis _ _ => true

/-- What the attempt `n` of a call proposes, given the record it found. -/
def propose (b : Backend) (op : Op) (n : ℕ) (t : Reading) (r : Option Record) :
    Except Err (Plan Write Reply) :=
  match op with
  | .register e state =>
    if n = 0 then proposeRegister codec e state r else confirmRegister codec e state r
  | .claim e owner lease => proposeClaim codec e owner lease t.now r
  | .renew fence owner lease => present r >>= proposeRenew fence owner lease t
  | .transition tr => present r >>= proposeTransition codec b tr t.now
  | .recordProgress fence owner payload =>
    if !validProgress codec payload then .error .invalid
    else
      match r with
      | some r => proposeProgress fence owner payload t.now r
      | none => .error b.absentProgress
  | .requestCancel scope => present r >>= proposeCancel codec scope
  | .resolveReplacement workflowId finalize =>
    if workflowId = "" ∧ b.refusesUnnamed then .error .invalid
    else present r >>= proposeResolve codec b workflowId finalize t.now
  | .forget => present r >>= proposeForget
  | .releasePin => present r >>= proposeRelease

/-- A proposal with its error as an answer. -/
def toPlan : Except Err (Plan Write Reply) → Plan Write (Except Err Reply)
  | .error e => .answer (.error e)
  | .ok (.answer r) => .answer (.ok r)
  | .ok (.write w r) => .write w (.ok r)

/-- A call that its surroundings may fail. -/
def unlessFault (t : Reading) (x : Except Err (Plan Write Reply)) :
    Except Err (Plan Write Reply) :=
  match t.fault with
  | some e => .error e
  | none => x

/-! ## The locked store -/

/-- Source: `testing/memory.go` `Memory`, on one record. -/
def memory : Protocol Record Write Op Reading (Except Err Reply) where
  revision := Record.revision
  attempts := 1
  exhausted := .error .busy
  lost := .error (.other "lost")
  reads _ _ := true
  plan op n t r := toPlan (unlessFault t (propose codec .memory op n t r))
  verdict _ _ _ w := .stored w.record

/-! ## The optimistic store -/

/-- The hash of a task: the encoded record and the four fields that the script compares. All of
them are written by one `HSET`, so they agree. -/
structure Row where
  record : Record
  leaseMillis : ℤ
  revision : ℕ
  owner : String
  fence : ℕ
  revision_eq : revision = record.revision
  owner_eq : owner = record.owner
  fence_eq : fence = record.fence
  revision_pos : 0 < revision

/-- Nanoseconds from the zero time to the Unix epoch. -/
def unixEpoch : ℕ := 62135596800 * 10 ^ 9

/-- Source: `time.Time.UnixMilli`. -/
def unixMilli (t : Time) : ℤ := ((t : ℤ) - unixEpoch) / 10 ^ 6

/-- Source: `time.UnixMilli`. -/
def ofUnixMilli (n : ℤ) : Time := ((unixEpoch : ℤ) + n * 10 ^ 6).toNat

/-- Source: `results.go` `Results.read`: the lease is taken from its own field. -/
def Row.view (row : Row) : Record :=
  { row.record with leaseUntil := if 0 < row.leaseMillis then ofUnixMilli row.leaseMillis else 0 }

/-- The checks of `Results.cas` before the script runs. -/
def casCheck (expected : ℕ) (w : Write) : Except Err Unit :=
  if maxUint64 ≤ expected then .error .unavailable
  else if !idPattern w.record.envelope.id then .error .invalid
  else if (w.intents.any fun i => i.sourceId != w.record.envelope.id || !idPattern i.id) ∨
      ¬ (w.intents.map Intent.id).Nodup then .error .invalid
  else .ok ()

/-- Source: `time.Duration.Milliseconds`. -/
def milliseconds (d : Duration) : ℤ := d.tdiv (10 ^ 6)

/-- The lease that the script writes. -/
def newLease (w : Write) (now : ℤ) : ℤ :=
  if milliseconds w.lease ≠ 0 then now + milliseconds w.lease
  else if w.record.leaseUntil = 0 then 0
  else unixMilli w.record.leaseUntil

/-- Source: `results.go` `recordCAS`, once the revisions agree. The key is that of the proposed
record; under any other key than that of the stored record there is nothing to agree with. -/
def recordCAS (t : Reading) (row : Option Row) (w : Write) :
    Verdict Row (Except Err Reply) :=
  let now := unixMilli t.now
  let lease := (row.map Row.leaseMillis).getD 0
  if (row.any fun row => row.record.envelope.id != w.record.envelope.id) then .again
  else if w.mode = .claim ∧ now < lease then .again
  else if w.mode = .live ∧ (lease ≤ now ∨ (row.map Row.owner) ≠ some w.owner ∨
      (row.map Row.fence) ≠ some w.fence) then .refused (.error .leaseLost)
  else if 9007199254740991 < |newLease w now| then .refused (.error (.other "invalid task lease"))
  else if hpos : 0 < w.record.revision then
    .stored
      { record := w.record
        leaseMillis := newLease w now
        revision := w.record.revision
        owner := w.record.owner
        fence := w.record.fence
        revision_eq := rfl
        owner_eq := rfl
        fence_eq := rfl
        revision_pos := hpos }
  else .refused (.error .unavailable)

/-- Source: `results.go` `Results`, on one record. -/
def redis (resultTTL tombstoneTTL : Duration) :
    Protocol Row Write Op Reading (Except Err Reply) where
  revision := Row.revision
  attempts := 16
  exhausted := .error .busy
  lost := .error (.other "lost")
  reads op n :=
    match op with
    | .register _ _ => n != 0
    | _ => true
  plan op n t row := toPlan <| unlessFault t do
    (Backend.redis resultTTL tombstoneTTL).valid
    let p ← propose codec (.redis resultTTL tombstoneTTL) op n t (row.map Row.view)
    match p with
    | .answer r => .ok (.answer r)
    | .write w r => do
      casCheck ((row.map Row.revision).getD 0) w
      .ok (.write w r)
  verdict _ := recordCAS

end Propose

end Gogo.Async

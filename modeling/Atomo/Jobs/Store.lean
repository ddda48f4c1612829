import Atomo.Lib.LabelledSystem
import Atomo.Lib.Table
import Atomo.Data.Event
import Mathlib.Data.List.Sort

/-!
# The job store

`JobStore` of `jobs.rs`: the `jobs` table and the statements the store runs on it. Every SQL
statement is one atomic function of the table, and so is the transaction of `fail`
(`SELECT … FOR UPDATE` followed by the `UPDATE`). What Postgres and the process choose enters as
arguments: the application's `Uuid::new_v4`, the order in which a `SKIP LOCKED` scan meets the rows
no other transaction holds, the `gen_random_uuid` stream and the clock.
-/

namespace Atomo.Jobs

/-! ## Retry policy -/

/-- `FailOutcome`: what becomes of a job after a failed attempt. -/
inductive FailOutcome where
  | retry (delaySecs : Nat)
  | deadLetter
  deriving DecidableEq

def saturatingMul (a b : Nat) : Nat :=
  min (a * b) (2 ^ 64 - 1)

/-- `backoff_secs`: `base · 2^(attempts - 1)` capped at `capSecs`, the shift capped at 20. -/
def backoffSecs (attempts baseSecs capSecs : Nat) : Nat :=
  if attempts ≤ 1 then
    min baseSecs capSecs
  else
    let shift := min (attempts - 1) 20
    min (saturatingMul baseSecs (2 ^ shift)) capSecs

def decideOnFail (attempts maxAttempts : Nat) (retryable : Bool) (baseSecs capSecs : Nat) :
    FailOutcome :=
  if !retryable || attempts ≥ maxAttempts then
    .deadLetter
  else
    .retry (backoffSecs attempts baseSecs capSecs)

/-- `DEFAULT_BASE_BACKOFF_SECS`; `JobStore::new` is the only constructor. -/
def defaultBaseBackoffSecs : Nat := 5

def defaultCapBackoffSecs : Nat := 3600

/-! ## Rows -/

inductive Status where
  | queued
  | leased
  | succeeded
  | dead
  deriving DecidableEq

def Status.text : Status → String
  | .queued => "queued"
  | .leased => "leased"
  | .succeeded => "succeeded"
  | .dead => "dead"

def Status.Terminal (st : Status) : Prop :=
  st = .succeeded ∨ st = .dead

/-- A row of `jobs`. Timestamps count microseconds; `created_at` and `updated_at` are left out. -/
structure Job where
  id : String
  queue : String
  kind : String
  status : Status
  payload : Json
  result : Option Json
  error : Option String
  idempotencyKey : Option String
  attempts : Int
  maxAttempts : Int
  leaseId : Option String
  workerId : Option String
  visibleAt : Int
  tenantId : Option String
  priority : Int
  deriving DecidableEq

namespace Job

/-- `SET` list of the `UPDATE` in `lease`. -/
def lease (j : Job) (leaseId : String) (visibleAt : Int) : Job :=
  { j with status := .leased, leaseId := some leaseId, attempts := j.attempts + 1, visibleAt }

/-- `SET` list of `heartbeat`. -/
def heartbeat (j : Job) (visibleAt : Int) : Job :=
  { j with visibleAt }

/-- `SET` list of `complete`. -/
def complete (j : Job) (result : Json) : Job :=
  { j with status := .succeeded, result := some result, leaseId := none }

/-- `SET` list of the retrying `UPDATE` in `fail`. -/
def retry (j : Job) (error : String) (visibleAt : Int) : Job :=
  { j with status := .queued, leaseId := none, error := some error, visibleAt }

/-- `SET` list of the dead-lettering `UPDATE` in `fail`. -/
def deadLetter (j : Job) (error : String) : Job :=
  { j with status := .dead, leaseId := none, error := some error }

/-- `SET` list of `reclaim_expired`. -/
def reclaim (j : Job) : Job :=
  { j with status := .queued, leaseId := none, workerId := none }

@[simp] theorem lease_id (j : Job) (l : String) (v : Int) : (j.lease l v).id = j.id := rfl
@[simp] theorem heartbeat_id (j : Job) (v : Int) : (j.heartbeat v).id = j.id := rfl
@[simp] theorem complete_id (j : Job) (r : Json) : (j.complete r).id = j.id := rfl
@[simp] theorem retry_id (j : Job) (e : String) (v : Int) : (j.retry e v).id = j.id := rfl
@[simp] theorem deadLetter_id (j : Job) (e : String) : (j.deadLetter e).id = j.id := rfl
@[simp] theorem reclaim_id (j : Job) : j.reclaim.id = j.id := rfl

/-- `WHERE id = $1 AND lease_id = $2 AND status = 'leased'`. -/
def heldBy (id leaseId : String) (j : Job) : Bool :=
  j.id = id ∧ j.leaseId = some leaseId ∧ j.status = .leased

/-- `WHERE queue = ANY($1) AND status = 'queued' AND visible_at <= NOW()`. -/
def eligible (queues : List String) (now : Int) (j : Job) : Bool :=
  j.queue ∈ queues ∧ j.status = .queued ∧ j.visibleAt ≤ now

/-- `ORDER BY priority DESC, visible_at`. -/
def Before (j k : Job) : Prop :=
  k.priority < j.priority ∨ k.priority = j.priority ∧ j.visibleAt ≤ k.visibleAt

instance : DecidableRel Before := fun _ _ => inferInstanceAs (Decidable (_ ∨ _))

/-- `WHERE status = 'leased' AND visible_at < NOW()`. -/
def expired (now : Int) (j : Job) : Bool :=
  j.status = .leased ∧ j.visibleAt < now

end Job

/-- `LeasedJob`: a job as handed to a worker. -/
structure LeasedJob where
  id : String
  queue : String
  kind : String
  payload : Json
  attempts : Int
  maxAttempts : Int
  leaseId : String
  deriving DecidableEq

/-! ## The table, the clock and the random source -/

/-- `gen_random_uuid`: the `k`-th identifier drawn. No identifier is drawn twice. -/
structure Uuids where
  draw : Nat → String
  injective : Function.Injective draw

/-- Some source of distinct identifiers; the runs on fixed inputs use it. -/
instance : Inhabited Uuids where
  default :=
    { draw := fun k => String.ofList (List.replicate k 'x')
      injective := fun k l h => by
        have h := congrArg String.toList h
        simpa using congrArg List.length h }

/-- The `jobs` table with its primary key, `NOW()`, and how many identifiers have been drawn. -/
@[ext] structure Store where
  rows : List Job
  primaryKey : (rows.map Job.id).Nodup
  now : Int
  drawn : Nat

namespace Store

/-- `UPDATE jobs SET f WHERE p`, for a `SET` list that leaves the primary key alone. -/
def update (s : Store) (p : Job → Bool) (f : Job → Job) (hf : ∀ j, (f j).id = j.id) : Store where
  rows := Table.update p f s.rows
  primaryKey := by rw [Table.map_update hf]; exact s.primaryKey
  now := s.now
  drawn := s.drawn

/-- `INSERT INTO jobs` of a row whose primary key is free. -/
def insert (s : Store) (j : Job) (h : j.id ∉ s.rows.map Job.id) : Store where
  rows := s.rows ++ [j]
  primaryKey := by
    rw [List.map_append, List.map_singleton, List.nodup_append]
    refine ⟨s.primaryKey, by simp, ?_⟩
    intro a ha b hb hab
    rw [List.mem_singleton.1 hb] at hab
    exact h (hab ▸ ha)
  now := s.now
  drawn := s.drawn

@[simp] theorem update_now (s : Store) (p f hf) : (s.update p f hf).now = s.now := rfl
@[simp] theorem update_drawn (s : Store) (p f hf) : (s.update p f hf).drawn = s.drawn := rfl
@[simp] theorem insert_now (s : Store) (j h) : (s.insert j h).now = s.now := rfl
@[simp] theorem insert_drawn (s : Store) (j h) : (s.insert j h).drawn = s.drawn := rfl

theorem update_of_forall_not {s : Store} {p : Job → Bool} {f : Job → Job} (hf)
    (h : ∀ j ∈ s.rows, p j = false) : s.update p f hf = s := by
  ext1
  · exact Table.update_of_forall_not h
  · rfl
  · rfl

end Store

/-- The first and the first excluded `timestamptz`, in microseconds from 2000-01-01. -/
def minTimestamp : Int := -211813488000000000
def endTimestamp : Int := 9223371331200000000

/-- `NOW() + (secs || ' seconds')::interval`; none where the interval or the sum is out of range, in
which case the statement fails. -/
def nowPlus (now secs : Int) : Option Int :=
  let micros := secs * 1000000
  if minTimestamp ≤ now + micros ∧ now + micros < endTimestamp ∧
      -2 ^ 63 ≤ micros ∧ micros < 2 ^ 63 then
    some (now + micros)
  else
    none

/-! ## The operations of `JobStore` -/

/-- What a call returns to its caller; `dbError` is a failed statement, which changes nothing. -/
inductive Reply where
  | enqueued (id : String) (created : Bool)
  | emitted
  | leased (jobs : List LeasedJob)
  | extended (ok : Bool)
  | completed (ok : Bool)
  | failed (outcome : Option FailOutcome)
  | reclaimed (rows : Nat)
  | ticked
  | dbError
  deriving DecidableEq

/-- The store after a call, the reply, and the `Job` events sent on the broadcast channel. -/
structure Outcome where
  store : Store
  reply : Reply
  events : List ModelEvent := []

def emit (eventType : EventType) (id : String) (extra : List (String × Json)) : ModelEvent where
  eventType
  modelName := "Job"
  data := extra ++ [("id", .string id)]

def dbError (s : Store) : Outcome :=
  ⟨s, .dbError, []⟩

/-- The arguments of `enqueue`, with the identifier `Uuid::new_v4` returned. -/
structure NewJob where
  newId : String
  queue : String
  kind : String
  payload : Json
  idempotencyKey : Option String
  maxAttempts : Int
  priority : Int
  tenantId : Option String
  deriving DecidableEq

/-- The row `enqueue_tx` inserts: the given columns and the defaults of the others. -/
def NewJob.row (a : NewJob) (now : Int) : Job where
  id := a.newId
  queue := a.queue
  kind := a.kind
  status := .queued
  payload := a.payload
  result := none
  error := none
  idempotencyKey := a.idempotencyKey
  attempts := 0
  maxAttempts := a.maxAttempts
  leaseId := none
  workerId := none
  visibleAt := now
  tenantId := a.tenantId
  priority := a.priority

@[simp] theorem NewJob.row_id (a : NewJob) (now : Int) : (a.row now).id = a.newId := rfl

/-- `WHERE queue = $1 AND idempotency_key = $2`; a null key equals no key. -/
def sameKey (queue : String) (key : Option String) (j : Job) : Bool :=
  j.queue = queue ∧ key.isSome ∧ j.idempotencyKey = key

/-- `enqueue_tx`: an `INSERT` that yields to the row with the same `(queue, idempotency_key)`. -/
def enqueueTx (s : Store) (a : NewJob) : Outcome :=
  match s.rows.find? (sameKey a.queue a.idempotencyKey) with
  | some existing => ⟨s, .enqueued existing.id false, []⟩
  | none =>
    if h : (a.row s.now).id ∉ s.rows.map Job.id then
      ⟨s.insert (a.row s.now) h, .enqueued a.newId true, []⟩
    else
      dbError s

def emitEnqueued (id queue kind : String) : ModelEvent :=
  emit .created id
    [("queue", .string queue), ("kind", .string kind), ("status", .string Status.queued.text)]

/-- `enqueue`: `enqueue_tx`, then the event when a row was created. -/
def enqueue (s : Store) (a : NewJob) : Outcome :=
  let o := enqueueTx s a
  match o.reply with
  | .enqueued id true => { o with events := [emitEnqueued id a.queue a.kind] }
  | _ => o

/-- The `picked` rows of `lease`: the eligible rows the scan meets, ordered and limited. -/
def picked (s : Store) (scan queues : List String) (capacity : Int) : List Job :=
  let candidates := scan.dedup.filterMap fun id => Table.find Job.id id s.rows
  ((candidates.filter (Job.eligible queues s.now)).insertionSort Job.Before).take capacity.toNat

/-- The row of `lease`'s `UPDATE`: the `i`-th picked row gets the `i`-th fresh identifier. -/
def leaseRow (u : Uuids) (drawn : Nat) (ids : List String) (visibleAt : Int) (j : Job) : Job :=
  if j.id ∈ ids then j.lease (u.draw (drawn + ids.idxOf j.id)) visibleAt else j

/-- `RETURNING j.id, j.queue, …`. -/
def LeasedJob.ofRow (j : Job) (leaseId : String) : LeasedJob where
  id := j.id
  queue := j.queue
  kind := j.kind
  payload := j.payload
  attempts := j.attempts
  maxAttempts := j.maxAttempts
  leaseId

def maxInt32 : Int := 2 ^ 31 - 1

theorem leaseRow_id (u : Uuids) (drawn : Nat) (ids : List String) (visibleAt : Int) (j : Job) :
    (leaseRow u drawn ids visibleAt j).id = j.id := by
  unfold leaseRow
  split
  · rfl
  · rfl

/-- `lease`: one `UPDATE` of the picked rows. `scan` is the order in which `SKIP LOCKED` meets the
rows that no other transaction holds. -/
def lease (u : Uuids) (s : Store) (scan queues : List String) (capacity visibilitySecs : Int) :
    Outcome :=
  if capacity < 0 then
    dbError s
  else
    let rows := picked s scan queues capacity
    match rows, nowPlus s.now visibilitySecs with
    | [], _ => ⟨s, .leased [], []⟩
    | _ :: _, none => dbError s
    | _ :: _, some visibleAt =>
      if rows.any fun j => maxInt32 < j.attempts + 1 then
        dbError s
      else
        let f := leaseRow u s.drawn (rows.map Job.id) visibleAt
        let updated := s.update (fun _ => true) f (leaseRow_id _ _ _ _)
        let jobs := (rows.map f).map fun j => LeasedJob.ofRow j (j.leaseId.getD "")
        ⟨{ updated with drawn := s.drawn + rows.length }, .leased jobs,
          jobs.map fun l => emit .custom l.id
            [("status", .string Status.leased.text), ("attempts", .number (.ofInt l.attempts))]⟩

/-- `heartbeat`: returns whether the lease was extended. -/
def heartbeat (s : Store) (id leaseId : String) (visibilitySecs : Int) : Outcome :=
  match s.rows.find? (Job.heldBy id leaseId), nowPlus s.now visibilitySecs with
  | none, _ => ⟨s, .extended false, []⟩
  | some _, none => dbError s
  | some _, some visibleAt =>
    ⟨s.update (Job.heldBy id leaseId) (·.heartbeat visibleAt) (fun _ => rfl), .extended true, []⟩

/-- `complete`: returns whether the row was still held under this lease. -/
def complete (s : Store) (id leaseId : String) (result : Json) : Outcome :=
  let s' := s.update (Job.heldBy id leaseId) (·.complete result) fun _ => rfl
  if 0 < Table.affected (Job.heldBy id leaseId) s.rows then
    ⟨s', .completed true, [emit .custom id [("status", .string Status.succeeded.text)]]⟩
  else
    ⟨s', .completed false, []⟩

/-- `fail`: the row is read under its lease, its fate is decided and written, in one transaction. -/
def fail (s : Store) (id leaseId error : String) (retryable : Bool) : Outcome :=
  match s.rows.find? (Job.heldBy id leaseId) with
  | none => ⟨s, .failed none, []⟩
  | some row =>
    let outcome := decideOnFail (max row.attempts 0).toNat (max row.maxAttempts 0).toNat retryable
      defaultBaseBackoffSecs defaultCapBackoffSecs
    let event (st : Status) :=
      emit .custom id [("error", .string error), ("status", .string st.text)]
    match outcome with
    | .retry delaySecs =>
      match nowPlus s.now delaySecs with
      | none => dbError s
      | some visibleAt =>
        ⟨s.update (·.id = id) (·.retry error visibleAt) (fun _ => rfl), .failed (some outcome),
          [event .queued]⟩
    | .deadLetter =>
      ⟨s.update (·.id = id) (·.deadLetter error) (fun _ => rfl), .failed (some outcome),
        [event .dead]⟩

/-- `reclaim_expired`: returns the number of rows reclaimed. -/
def reclaimExpired (s : Store) : Outcome :=
  ⟨s.update (Job.expired s.now) Job.reclaim (fun _ => rfl),
    .reclaimed (Table.affected (Job.expired s.now) s.rows), []⟩

/-! ## The system -/

/-- The calls any number of workers and clients make, and the passage of time. -/
inductive Call where
  | enqueue (a : NewJob)
  | enqueueTx (a : NewJob)
  | emitEnqueued (id queue kind : String)
  | lease (scan queues : List String) (capacity visibilitySecs : Int)
  | heartbeat (id leaseId : String) (visibilitySecs : Int)
  | complete (id leaseId : String) (result : Json)
  | fail (id leaseId error : String) (retryable : Bool)
  | reclaimExpired
  | tick (micros : Nat)
  deriving DecidableEq

def run (u : Uuids) (s : Store) : Call → Outcome
  | .enqueue a => enqueue s a
  | .enqueueTx a => enqueueTx s a
  | .emitEnqueued id queue kind => ⟨s, .emitted, [emitEnqueued id queue kind]⟩
  | .lease scan queues capacity visibilitySecs => lease u s scan queues capacity visibilitySecs
  | .heartbeat id leaseId visibilitySecs => heartbeat s id leaseId visibilitySecs
  | .complete id leaseId result => complete s id leaseId result
  | .fail id leaseId error retryable => fail s id leaseId error retryable
  | .reclaimExpired => reclaimExpired s
  | .tick micros => ⟨{ s with now := s.now + micros }, .ticked, []⟩

structure Label where
  call : Call
  reply : Reply
  events : List ModelEvent
  deriving DecidableEq

/-- The job queue: it starts with an empty table and runs one call at a time. -/
def system (u : Uuids) : LabelledSystem Store Label where
  init s := s.rows = []
  step s a t := run u s a.call = ⟨t, a.reply, a.events⟩

def emptyStore (now : Int) : Store where
  rows := []
  primaryKey := by simp
  now
  drawn := 0

/-- The store after a list of calls, one after the other. -/
def runCalls (u : Uuids) (s : Store) : List Call → Store
  | [] => s
  | call :: calls => runCalls u (run u s call).store calls

def trace (u : Uuids) (s : Store) : List Call → List Label
  | [] => []
  | call :: calls =>
    let o := run u s call
    ⟨call, o.reply, o.events⟩ :: trace u o.store calls

theorem run_runCalls (u : Uuids) (s : Store) (calls : List Call) :
    (system u).Run s (trace u s calls) (runCalls u s calls) := by
  induction calls generalizing s with
  | nil => exact .nil s
  | cons call calls ih => exact .cons rfl (ih _)

/-- Every one of these calls is made in a state and with a label that meet `C`. -/
def CallsMeet (u : Uuids) (C : Store → Label → Prop) (s : Store) : List Call → Prop
  | [] => True
  | call :: calls =>
    let o := run u s call
    C s ⟨call, o.reply, o.events⟩ ∧ CallsMeet u C o.store calls

instance decidableCallsMeet (u : Uuids) (C : Store → Label → Prop) [∀ s a, Decidable (C s a)] :
    (s : Store) → (calls : List Call) → Decidable (CallsMeet u C s calls)
  | _, [] => .isTrue trivial
  | s, call :: calls =>
    have := decidableCallsMeet u C (run u s call).store calls
    inferInstanceAs (Decidable (_ ∧ _))

theorem run_restrict {u : Uuids} {C : Store → Label → Prop} {s : Store} {calls : List Call}
    (h : CallsMeet u C s calls) :
    ((system u).restrict C).Run s (trace u s calls) (runCalls u s calls) := by
  induction calls generalizing s with
  | nil => exact .nil s
  | cons call calls ih => exact .cons ⟨rfl, h.1⟩ (ih h.2)

theorem reachable_runCalls (u : Uuids) (now : Int) (calls : List Call) :
    (system u).Reachable (runCalls u (emptyStore now) calls) :=
  ⟨emptyStore now, _, rfl, run_runCalls u _ calls⟩

end Atomo.Jobs

import Atomo.Client.Transaction
import Atomo.Jobs.Store
import Atomo.Lib.LabelledSystem

/-!
# The event log under concurrent transactions

The tables `event_log` and `model_history_coverage` as the deployments of a server share them: each with
its own `HistoryConfig`, its writes, its maintenance passes and its replays. A transaction takes one
statement at a time; what it has not committed only itself sees, and its locks last until its end. A
write takes the advisory lock 718206091 shared, whoever deletes or replays takes it exclusively. What a
write does to the rows of its model is left to `Client`: here it returns records.
-/

namespace Atomo.History

open Jobs (Uuids)
open Client (chunks)

/-- What the server decides of its own. -/
structure Server where
  /-- `pg_column_size` of a row of `event_log`. -/
  columnSize : LogEntry → Nat
  /-- The order of texts. -/
  textLe : String → String → Bool

/-! ## Recording -/

/-- The statements of `persist_in` and `persist_many_in`. -/
inductive Persist where
  | mark (model : String)
  | insert (events : List StampedEvent)
  deriving DecidableEq

/-- `EventStore::persist_in`. -/
def persistIn (config : HistoryConfig) (event : StampedEvent) : List Persist :=
  if (config.policy event.modelName).mode = .off then [.mark event.modelName] else [.insert [event]]

/-- The first loop of `persist_many_in`: its statements, and the events that are left to be stored. -/
def skipUnstored (config : HistoryConfig) : List String → List StampedEvent → List Persist × List StampedEvent
  | _, [] => ([], [])
  | skipped, event :: events =>
    if (config.policy event.modelName).mode = .off then
      if event.modelName ∈ skipped then skipUnstored config skipped events
      else
        let (marks, stored) := skipUnstored config (event.modelName :: skipped) events
        (persistIn config event ++ marks, stored)
    else
      let (marks, stored) := skipUnstored config skipped events
      (marks, event :: stored)

/-- `EventStore::persist_many_in`, the lock being held. -/
def persistManyIn (config : HistoryConfig) (events : List StampedEvent) : List Persist :=
  let (marks, stored) := skipUnstored config [] events
  marks ++ (chunks 4000 stored.length stored).map .insert

/-! ## Retention -/

/-- `kept_bytes` of the rows of a model, the newest first. -/
def keptBytes (server : Server) : Nat → List LogEntry → List (LogEntry × Nat)
  | _, [] => []
  | kept, row :: rows =>
    (row, kept + server.columnSize row) :: keptBytes server (kept + server.columnSize row) rows

/-- Whether the limits of a policy are over for a row. -/
def expired (policy : HistoryPolicy) (now : Int) (ranked : LogEntry × Nat) : Bool :=
  policy.maxAgeSecs.any (fun secs => (secs : Int) * 1000000 < now - ranked.1.createdAt) ||
    policy.maxBytes.any fun bytes => bytes < ranked.2

/-- The rows that one batch deletes, the oldest first. -/
def victims (server : Server) (policy : HistoryPolicy) (now : Int) (limit : Nat) (ranked : List LogEntry) :
    List LogEntry :=
  ((((keptBytes server 0 ranked).filter (expired policy now)).map (·.1)).reverse).take limit

/-- The coverage of a model that rows were deleted of. -/
def pruned (now : Int) (deleted : List LogEntry) : Option Coverage → Coverage
  | none =>
    { mode := .retained, complete := false, firstGapAt := some now
      retainedAfter := (deleted.map (·.createdAt)).max?, removedEvents := deleted.length }
  | some c =>
    { c with
      complete := false, firstGapAt := c.firstGapAt.or (some now)
      retainedAfter := (c.retainedAfter.toList ++ deleted.map (·.createdAt)).max?
      removedEvents := c.removedEvents + deleted.length }

/-! ## Reading the whole history -/

/-- A call that reads the history of a model: `EventStore::replay`, or the rebuild of a projection. -/
inductive Reading where
  | replay (config : HistoryConfig) (since : Option String)
  | rebuild

structure Request where
  model : String
  reading : Reading

/-- Whether it reads from the start. -/
def Request.whole (r : Request) : Bool :=
  match r.reading with
  | .replay _ since => since.isNone
  | .rebuild => true

/-- A model is said to be covered unless a row says that it is not. -/
def covered (c : Option Coverage) : Bool :=
  !c.any fun c => c.mode ≠ .full || !c.complete

/-- What a call has returned, with the events that were committed by then. -/
structure Answer where
  request : Request
  rows : List LogEntry
  committed : List StampedEvent

/-! ## The state -/

/-- A row of the log; until it is committed, with the transaction that inserted it. -/
structure Tuple where
  entry : LogEntry
  insertedBy : Option Nat
  deriving DecidableEq

/-- The row once the transaction has committed. -/
def Tuple.commit (i : Nat) (t : Tuple) : Tuple :=
  if t.insertedBy = some i then { t with insertedBy := none } else t

/-- A client with its store; `pending` are the models that `initialize_models` has still to go through. -/
structure Deployment where
  config : HistoryConfig
  models : List String
  pending : List String

/-- A write whose statement has returned: its events and the statements that are left. -/
structure Write where
  config : HistoryConfig
  startedAt : Int
  events : List StampedEvent
  todo : List Persist

/-- A pass of `maintain` before its next model. -/
structure Pass where
  config : HistoryConfig
  models : List String
  remaining : Nat

/-- A batch under way on a model. -/
structure Batch where
  pass : Pass
  model : String
  startedAt : Int
  deleted : List LogEntry

/-- A call, by the last thing that it did. -/
inductive Tx where
  | begun (config : HistoryConfig) (model : String) (now : Int)
  | entered (config : HistoryConfig) (model : String) (now : Int)
  | writing (w : Write)
  | passing (p : Pass)
  | visiting (b : Batch)
  | deleting (b : Batch)
  | marked (b : Batch)
  | asking (r : Request)
  | granted (r : Request)
  | checked (r : Request)
  | fetched (r : Request) (rows : List LogEntry)

structure State where
  /-- Whether `init` has made the tables. -/
  created : Bool
  log : List Tuple
  coverage : String → Option Coverage
  /-- The row that a transaction has made of a row of `coverage`, which it locks with that. -/
  drafts : String → Option (Nat × Coverage)
  sharers : List Nat
  holder : Option Nat
  deployments : Nat → Option Deployment
  txs : Nat → Option Tx
  drawn : Nat
  /-- The events of the committed writes. -/
  committed : List StampedEvent
  answers : List Answer

inductive Act where
  | deploy (d : Nat) (config : HistoryConfig) (models : List String)
  | initModel (d : Nat)
  | begin (i d : Nat) (model : String) (now : Int)
  | maintain (i d : Nat) (models : List String)
  | replay (i d : Nat) (model : String) (since : Option String)
  | rebuild (i : Nat) (model : String)
  | lock (i : Nat)
  | create (i : Nat) (event : ModelEvent) (timestamp : String)
  | bulk (i : Nat) (events : List (ModelEvent × String))
  | persist (i : Nat)
  | visit (i : Nat) (now : Int)
  | delete (i : Nat) (ranked : List LogEntry)
  | mark (i : Nat)
  | check (i : Nat)
  | read (i : Nat) (rows : List LogEntry)
  | commit (i : Nat)
  | rollback (i : Nat)

namespace State

variable (u : Uuids) (server : Server) (s : State)

def setTx (i : Nat) (tx : Option Tx) : State :=
  { s with txs := Function.update s.txs i tx }

/-! ## Locks -/

/-- `pg_advisory_xact_lock_shared(718206091)`. -/
def lockShared (i : Nat) : Option State :=
  if s.holder = none then some { s with sharers := i :: s.sharers } else none

/-- `pg_advisory_xact_lock(718206091)`. -/
def lockExclusive (i : Nat) : Option State :=
  if s.holder = none ∧ s.sharers = [] then some { s with holder := some i } else none

/-! ## Ends -/

/-- A transaction ends: its locks are released and its drafts are gone. -/
def finish (i : Nat) (tx : Option Tx) : State :=
  { s.setTx i tx with
    drafts := fun model => (s.drafts model).filter (·.1 ≠ i)
    sharers := s.sharers.filter (· ≠ i)
    holder := s.holder.filter (· ≠ i) }

/-- What a transaction sees of `coverage`. -/
def visible (i : Nat) (model : String) : Option Coverage :=
  match s.drafts model with
  | some (j, c) => if j = i then some c else s.coverage model
  | none => s.coverage model

def commitWrite (i : Nat) (w : Write) : State :=
  { s.finish i none with
    log := s.log.map (Tuple.commit i)
    coverage := s.visible i
    committed := s.committed ++ w.events }

def commitBatch (i : Nat) (b : Batch) : State :=
  { s.finish i (some (.passing { b.pass with remaining := b.pass.remaining - b.deleted.length })) with
    log := s.log.filter fun t => t.entry.eventId ∉ b.deleted.map (·.eventId)
    coverage := s.visible i }

def rollback (i : Nat) : State :=
  { s.finish i none with log := s.log.filter fun t => t.insertedBy ≠ some i }

/-! ## Statements -/

/-- `INSERT INTO event_log … ON CONFLICT (event_id) DO NOTHING` of one row. -/
def insertEntry (i : Nat) (log : List Tuple) (entry : LogEntry) : List Tuple :=
  if ∃ t ∈ log, t.entry.eventId = entry.eventId then log else log ++ [⟨entry, some i⟩]

/-- An insertion waits for a transaction that has inserted the same id. -/
def mayInsert (i : Nat) (entries : List LogEntry) : Prop :=
  ∀ t ∈ s.log, t.insertedBy = none ∨ t.insertedBy = some i ∨ t.entry.eventId ∉ entries.map (·.eventId)

instance (i : Nat) (entries : List LogEntry) : Decidable (s.mayInsert i entries) :=
  inferInstanceAs (Decidable (∀ t ∈ s.log, _))

/-- The row of `coverage` is set, once no other transaction has one of its own there. -/
def draft (i : Nat) (model : String) (f : Option Coverage → Coverage) : Option State :=
  if s.created ∧ (s.drafts model).all (·.1 = i) then
    some { s with drafts := Function.update s.drafts model (some (i, f (s.visible i model))) }
  else none

/-- `NOT EXISTS (… complete = FALSE AND first_gap_at IS NOT NULL)`. -/
def isMarked (c : Option Coverage) : Bool :=
  c.any fun c => !c.complete && c.firstGapAt.isSome

def runPersist (i : Nat) (now : Int) : Persist → Option State
  | .mark model => if isMarked (s.visible i model) then some s else s.draft i model (Store.gapped now)
  | .insert events =>
    let entries := events.map (StampedEvent.entry now)
    if s.created ∧ s.mayInsert i entries then some { s with log := entries.foldl (insertEntry i) s.log } else none

/-- The upsert of `initialize_models`. -/
def initModel (model : String) (mode : HistoryMode) : Option State :=
  if s.created ∧ s.holder = none ∧ s.drafts model = none then
    some { s with
      coverage := Function.update s.coverage model (some { ((s.coverage model).getD { mode }) with mode }) }
  else none

/-- The committed rows of a model. -/
def rowsOf (model : String) : List LogEntry :=
  ((s.log.filter fun t => t.insertedBy = none).map (·.entry)).filter (·.modelName = model)

/-- The events of a write, stamped with ids of their own. -/
def stamp (drawn : Nat) : List (ModelEvent × String) → List StampedEvent
  | [] => []
  | (event, timestamp) :: events =>
    { event with eventId := u.draw drawn, timestamp } :: stamp (drawn + 1) events

/-- The check of a reading call. -/
def passes (r : Request) : Bool :=
  match r.reading with
  | .replay config _ => (config.policy r.model).mode = .full && s.created && covered (s.coverage r.model)
  | .rebuild => !s.created || covered (s.coverage r.model)

/-- Whether `rows` is an answer to the `SELECT` of a reading call. -/
def selects (r : Request) (rows : List LogEntry) : Prop :=
  match r.reading with
  | .replay _ since =>
    rows.Perm ((s.rowsOf r.model).filter fun row => since.all fun since => server.textLe since row.timestamp) ∧
      rows.Pairwise fun a b => server.textLe a.timestamp b.timestamp = true
  | .rebuild =>
    rows.Perm (s.rowsOf r.model) ∧
      rows.Pairwise fun a b => server.textLe a.timestamp b.timestamp = true ∧
        (server.textLe b.timestamp a.timestamp = true → a.createdAt ≤ b.createdAt)

instance (r : Request) (rows : List LogEntry) : Decidable (s.selects server r rows) := by
  unfold selects
  split <;> infer_instance

/-! ## Steps -/

/-- A client is at hand once its models are initialized. -/
def ready (d : Nat) : Option Deployment :=
  (s.deployments d).filter (·.pending.isEmpty)

/-- A new call. -/
def call (i : Nat) (tx : Tx) : Option State :=
  if (s.txs i).isNone then some (s.setTx i (some tx)) else none

/-- The events of the rows that the statement of a write returned. -/
def wrote (i : Nat) (config : HistoryConfig) (now : Int) (persist : HistoryConfig → List StampedEvent → List Persist)
    (events : List (ModelEvent × String)) : State :=
  let stamped := stamp u s.drawn events
  { s.setTx i (some (.writing { config, startedAt := now, events := stamped, todo := persist config stamped })) with
    drawn := s.drawn + events.length }

def lock (i : Nat) : Tx → Option State
  | .begun config model now => (s.lockShared i).map (·.setTx i (some (.entered config model now)))
  | .asking r => (s.lockExclusive i).map (·.setTx i (some (.granted r)))
  | _ => none

/-- The loop of `maintain` at its next model. -/
def visit (i : Nat) (now : Int) (p : Pass) : Option State :=
  match p.models with
  | [] => some (s.setTx i none)
  | model :: models =>
    if p.remaining = 0 then some (s.setTx i none)
    else if (p.config.policy model).mode ≠ .retained then some (s.setTx i (some (.passing { p with models })))
    else
      (s.lockExclusive i).map
        (·.setTx i (some (.visiting { pass := { p with models }, model, startedAt := now, deleted := [] })))

def delete (i : Nat) (ranked : List LogEntry) (b : Batch) : Option State :=
  if ranked.Perm (s.rowsOf b.model) ∧ ranked.Pairwise (fun a b => b.createdAt ≤ a.createdAt) then
    some (s.setTx i (some (.deleting { b with
      deleted := victims server (b.pass.config.policy b.model) b.startedAt b.pass.remaining ranked })))
  else none

def commit (i : Nat) : Tx → Option State
  | .writing w => if w.todo = [] then some (s.commitWrite i w) else none
  | .deleting b => if b.deleted = [] then some (s.commitBatch i b) else none
  | .marked b => some (s.commitBatch i b)
  | .fetched r rows => some { s.finish i none with answers := s.answers ++ [⟨r, rows, s.committed⟩] }
  | _ => none

def step : Act → Option State
  | .deploy d config models =>
    if (s.deployments d).isNone ∧ config.valid then
      some { s with
        created := true
        deployments := Function.update s.deployments d (some { config, models, pending := models }) }
    else none
  | .initModel d =>
    (s.deployments d).bind fun dep =>
      match dep.pending with
      | [] => none
      | model :: pending =>
        (s.initModel model (dep.config.policy model).mode).map fun s' =>
          { s' with deployments := Function.update s.deployments d (some { dep with pending }) }
  | .begin i d model now =>
    (s.ready d).bind fun dep => if model ∈ dep.models then s.call i (.begun dep.config model now) else none
  | .maintain i d models =>
    (s.ready d).bind fun dep =>
      if (dep.config.default :: dep.config.models.map (·.2)).any (·.mode = .retained) ∧
          models.Perm ((s.log.filter fun t => t.insertedBy = none).map (·.entry.modelName)).dedup then
        s.call i (.passing { config := dep.config, models, remaining := dep.config.batchSize })
      else none
  | .replay i d model since =>
    (s.ready d).bind fun dep => s.call i (.asking { model, reading := .replay dep.config since })
  | .rebuild i model => s.call i (.asking { model, reading := .rebuild })
  | .lock i => (s.txs i).bind (s.lock i)
  | .create i event timestamp =>
    match s.txs i with
    | some (.entered config model now) =>
      if event.modelName = model then
        some (s.wrote u i config now (fun config events => events.flatMap (persistIn config)) [(event, timestamp)])
      else none
    | _ => none
  | .bulk i events =>
    match s.txs i with
    | some (.entered config model now) =>
      if ∀ event ∈ events, event.1.modelName = model then some (s.wrote u i config now persistManyIn events) else none
    | _ => none
  | .persist i =>
    match s.txs i with
    | some (.writing w) =>
      match w.todo with
      | [] => none
      | statement :: todo =>
        (s.runPersist i w.startedAt statement).map (·.setTx i (some (.writing { w with todo })))
    | _ => none
  | .visit i now =>
    match s.txs i with
    | some (.passing p) => s.visit i now p
    | _ => none
  | .delete i ranked =>
    match s.txs i with
    | some (.visiting b) => s.delete server i ranked b
    | _ => none
  | .mark i =>
    match s.txs i with
    | some (.deleting b) =>
      if b.deleted = [] then none
      else (s.draft i b.model (pruned b.startedAt b.deleted)).map (·.setTx i (some (.marked b)))
    | _ => none
  | .check i =>
    match s.txs i with
    | some (.granted r) => if s.passes r then some (s.setTx i (some (.checked r))) else some (s.finish i none)
    | _ => none
  | .read i rows =>
    match s.txs i with
    | some (.checked r) => if s.created ∧ s.selects server r rows then some (s.setTx i (some (.fetched r rows))) else none
    | _ => none
  | .commit i => (s.txs i).bind (s.commit i)
  | .rollback i => (s.txs i).map fun _ => s.rollback i

end State

/-- The deployments of a server from its first one on. -/
def history (u : Uuids) (server : Server) : LabelledSystem State Act where
  init s := s.created = false ∧ s.log = [] ∧ (∀ model, s.coverage model = none) ∧ (∀ model, s.drafts model = none) ∧
    s.sharers = [] ∧ s.holder = none ∧ (∀ d, s.deployments d = none) ∧ (∀ i, s.txs i = none) ∧ s.committed = [] ∧
    s.answers = []
  step s a t := s.step u server a = some t

end Atomo.History

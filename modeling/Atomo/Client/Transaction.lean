import Atomo.Client.Store
import Atomo.Lib.Outcome
import Atomo.Schema.Validation

/-!
# Transactions

A client works on a store through transactions. What its surroundings decide is asked for at ticks, one
for each statement, hook call and stamp: whether the server takes a statement, what a hook answers, which
id and time an event gets. A transaction works on a copy of the store, which a commit puts in place and
everything else drops; `trace` records what was done, in order.
-/

namespace Atomo.Client

open Query (Statement)
open Db (Postgres)

/-- What a before-hook is told. -/
structure HookContext where
  modelName : String
  operation : String
  data : List (String × Json)

inductive HookResult where
  | proceed (data : List (String × Json))
  | abort (message : String)
  | error (message : String)

/-- An error of the client, or of the server. -/
inductive Error where
  | message (text : String)
  | database
  deriving DecidableEq

/-- A client with its surroundings. `fails` are the ticks at which the server, or the way to it, fails a
statement for reasons of its own. -/
structure Env where
  schema : Atomo.Schema
  history : HistoryConfig
  rlsEnabled : Bool
  casing : CharCase
  pg : Postgres
  fails : Nat → Bool
  uuid : Nat → String
  utcNow : Nat → String
  beforeHook : Nat → HookContext → HookResult

/-- What a task carries: the tenant of its request and the action that it runs for. -/
structure Scope where
  tenant : Option String := none
  origin : Option String := none

/-- Something that was done. -/
inductive Act where
  | begin
  | statement
  | commit
  | rollback
  | invalidate (model : String)
  | send (event : StampedEvent)
  | afterHook (name : String)
  deriving DecidableEq

def Act.isSend : Act → Bool
  | .send _ => true
  | _ => false

structure World where
  store : Store
  tick : Nat
  trace : List Act

/-- A transaction under way. -/
structure Tx where
  work : Store
  now : Int
  tick : Nat
  trace : List Act
  tenant : Option String

abbrev Program := EStateM Error World

abbrev TxProgram := EStateM Error Tx

variable {α : Type} (env : Env)

/-! ## Statements -/

/-- A statement: a fault at its tick, or what it does to the working copy. -/
def statement (effect : Nat → Tx → Option (α × Tx)) : TxProgram α := fun tx =>
  let sent := { tx with tick := tx.tick + 1, trace := tx.trace ++ [.statement] }
  if env.fails tx.tick then .error .database sent
  else
    match effect tx.tick sent with
    | some (a, tx') => .ok a tx'
    | none => .error .database sent

/-- A statement of the builder, with the columns that it returns of each row. -/
def execute (built : Statement × List Json) : TxProgram (List (List (String × Json))) :=
  statement env fun tick tx =>
    (Db.run env.pg tick tx.now tx.tenant built.2 tx.work.tables built.1).map fun (tables, rows) =>
      (rows.map (Db.rowToMap env.pg (built.1.returned tx.work.tables)),
        { tx with work := { tx.work with tables } })

/-- `SELECT pg_advisory_xact_lock_shared(718206091)`. -/
def lockShared : TxProgram Unit :=
  statement env fun _ tx => some ((), tx)

/-- `bind_tenant_local`. -/
def bindTenantLocal (tenant : String) : TxProgram Unit :=
  statement env fun _ tx => some ((), { tx with tenant := some tenant })

/-! ## Transactions -/

/-- The transaction that `begin` opens. -/
def World.begin (w : World) : Tx where
  work := w.store
  now := env.pg.now w.tick
  tick := w.tick + 1
  trace := w.trace ++ [.begin]
  tenant := none

/-- `begin`, the body, `commit`; dropped before that, it is rolled back. A failing `commit` rolls back
too. -/
def transaction (body : TxProgram α) : Program α := fun w =>
  if env.fails w.tick then .error .database { w with tick := w.tick + 1 }
  else
    match body (w.begin env) with
    | .error e tx => .error e { w with tick := tx.tick, trace := tx.trace ++ [.rollback] }
    | .ok a tx =>
      if env.fails tx.tick then
        .error .database { w with tick := tx.tick + 1, trace := tx.trace ++ [.rollback] }
      else .ok a { store := tx.work, tick := tx.tick + 1, trace := tx.trace ++ [.commit] }

/-- Something that cannot fail. -/
def perform (act : Act) : Program Unit :=
  modify fun w => { w with trace := w.trace ++ [act] }

/-! ## The event store -/

/-- The statement that stores events. -/
def insertEvents (events : List StampedEvent) : TxProgram Unit :=
  statement env fun _ tx =>
    some ((), { tx with work := tx.work.logEntries (events.map (StampedEvent.entry tx.now)) })

/-- `EventStore::persist_in`. -/
def persistIn (event : StampedEvent) : TxProgram Unit :=
  if (env.history.policy event.modelName).mode = .off then
    statement env fun _ tx => some ((), { tx with work := tx.work.markGap event.modelName tx.now })
  else insertEvents env [event]

/-- The first loop of `persist_many_in`: the gap of each model whose history is off is marked once;
the other events are left to be stored. -/
def skipUnstored : List String → List StampedEvent → TxProgram (List StampedEvent)
  | _, [] => pure []
  | skipped, event :: events => do
    if (env.history.policy event.modelName).mode = .off then
      if event.modelName ∈ skipped then skipUnstored skipped events
      else do
        persistIn env event
        skipUnstored (event.modelName :: skipped) events
    else do
      let stored ← skipUnstored skipped events
      return event :: stored

/-- `slice::chunks` of a list no longer than the first number. -/
def chunks (size : Nat) : Nat → List α → List (List α)
  | 0, _ => []
  | fuel + 1, events => if events.isEmpty then [] else events.take size :: chunks size fuel (events.drop size)

/-- The loop over the chunks. -/
def insertChunks : List (List StampedEvent) → TxProgram Unit
  | [] => pure ()
  | chunk :: chunks => do
    insertEvents env chunk
    insertChunks chunks

/-- `EventStore::persist_many_in`. -/
def persistManyIn (events : List StampedEvent) : TxProgram Unit := do
  lockShared env
  let stored ← skipUnstored env [] events
  insertChunks env (chunks 4000 stored.length stored)

/-! ## A client -/

/-- A client of that server, on which nothing fails and no hook stands in the way. -/
def Env.bare (schema : Atomo.Schema) : Env where
  schema
  history := {}
  rlsEnabled := false
  casing := .ascii
  pg := .bare
  fails _ := false
  uuid := Db.ticket
  utcNow := Db.ticket
  beforeHook _ context := .proceed context.data

/-- The columns of a table with a title for each of its rows. -/
def noteColumns : List (String × Db.ColumnType) :=
  [("id", .text), ("title", .text), ("tenant_id", .text), ("deleted_at", .timestamptz)]

def noteSchema : Atomo.Schema where
  models := [("Note", { name := "Note", fields := [("title", { name := "title", fieldType := .string, optional := true })] })]

def noteTables (rows : List Db.Row) : Db.Tables := fun _ =>
  { columns := noteColumns, primaryKey := some "id", rows }

/-- A note of a tenant. -/
def noteRow (id title tenant : String) : Db.Row :=
  [("id", .text id), ("title", .text title), ("tenant_id", .text tenant), ("deleted_at", .null)]

def noteWorld (rows : List Db.Row) : World where
  store := { tables := noteTables rows, eventLog := [], coverage := fun _ => none }
  tick := 0
  trace := []

end Atomo.Client

import Atomo.Client.Transaction

/-!
# The writes of the client

The writes of `AtomoClient`. All but `create` share the course of their transaction (`writeMany`): the
statements, one event for each row that they return, and after the commit the cache and the
subscribers.
-/

namespace Atomo.Client

open Schema (Model lookup?)
open Query (Statement WhereClause SqlBuilder.insert SqlBuilder.insertMany SqlBuilder.update
  SqlBuilder.softDelete SqlBuilder.restore SqlBuilder.delete validateWhereClauses)

abbrev Record := List (String × Json)

variable (env : Env) (scope : Scope)

/-- The model of a name. -/
def findModel (name : String) : Program Model :=
  match env.schema.model? name with
  | some model => pure model
  | none => throw (.message ("Model '" ++ name ++ "' not found"))

/-- An error of a check is an error of the call. -/
def check (result : Except String Unit) : Program Unit :=
  match result with
  | .ok _ => pure ()
  | .error message => throw (.message message)

/-- The data that a before-hook hands on. -/
def runBefore (operation : String) (model : String) (data : Record) : Program Record := fun w =>
  let asked := { w with tick := w.tick + 1 }
  match env.beforeHook w.tick { modelName := model, operation, data } with
  | .proceed data => .ok data asked
  | .abort message | .error message => .error (.message message) asked

/-- The rules of a model are checked, by `validate` or by `validate_partial`. -/
def checkRules (model : Model) (errors : List Schema.ValidationError) : Program Unit :=
  if model.validation = [] then pure ()
  else
    match errors with
    | [] => pure ()
    | e :: _ => throw (.message ("validation failed: " ++ e.message))

/-- The lock that every write takes first, and the tenant of row-level security. -/
def openWrite : TxProgram Unit := do
  lockShared env
  match env.rlsEnabled, scope.tenant with
  | true, some tenant => bindTenantLocal env tenant
  | _, _ => pure ()

/-- An event about a record, with its own id and time. -/
def stamp (type : EventType) (model : String) (actor : Option String) (data : Record) : TxProgram StampedEvent :=
  fun tx => .ok
    { eventType := type, modelName := model, data, actor, origin := scope.origin
      eventId := env.uuid tx.tick, timestamp := env.utcNow tx.tick }
    { tx with tick := tx.tick + 1 }

def stampAll (type : EventType) (model : String) (actor : Option String) : List Record → TxProgram (List StampedEvent)
  | [] => pure []
  | data :: records => do
    let event ← stamp env scope type model actor data
    let events ← stampAll type model actor records
    return event :: events

/-- The course of a bulk write on a model: the statements of `rows`, an event of `payload` for each row
that they return, and the announcements once these are committed. -/
def writeMany (modelName : String) (type : EventType) (rows : TxProgram (List Record)) (payload : Record → Record)
    (actor : Option String) : Program (List Record) := do
  let (records, events) ← transaction env do
    openWrite env scope
    let records ← rows
    let events ← stampAll env scope type modelName actor (records.map payload)
    persistManyIn env events
    return (records, events)
  perform (.invalidate modelName)
  events.forM fun event => perform (.send event)
  return records

/-- The loop of `create_many` before its transaction. -/
def prepare (modelName : String) (model : Model) : List Record → Program (List Record)
  | [] => return []
  | data :: records => do
    let data ← runBefore env "create" modelName data
    checkRules model (Schema.validate data model.validation)
    let rest ← prepare modelName model records
    return data :: rest

/-- The insertion of one record, which must return a row. -/
def insertOne (model : Model) (data : Record) : TxProgram Record := do
  let rows ← execute env (SqlBuilder.insert env.casing model data)
  match rows with
  | [] => throw .database
  | record :: _ => return record

/-- `AtomoClient::create`. -/
def create (modelName : String) (data : Record) (actor : Option String) : Program Record := do
  let model ← findModel env modelName
  let data ← runBefore env "create" modelName data
  checkRules model (Schema.validate data model.validation)
  let (record, event) ← transaction env do
    openWrite env scope
    let record ← insertOne env model data
    let event ← stamp env scope .created modelName actor record
    persistIn env event
    return (record, event)
  perform (.invalidate modelName)
  perform (.send event)
  perform (.afterHook "after_create")
  return record

def insertEach (model : Model) : List Record → TxProgram (List Record)
  | [] => return []
  | data :: records => do
    let record ← insertOne env model data
    let rest ← insertEach model records
    return record :: rest

/-- The rows of `create_many`: one insertion for a batch of one shape, else one for each record. -/
def insertAll (model : Model) (records : List Record) : TxProgram (List Record) :=
  match SqlBuilder.insertMany env.casing model records with
  | some built => execute env built
  | none => insertEach env model records

/-- `AtomoClient::create_many`. -/
def createMany (modelName : String) (records : List Record) (actor : Option String) : Program (List Record) := do
  let model ← findModel env modelName
  if records.isEmpty then return []
  else do
    let prepared ← prepare env modelName model records
    let records ← writeMany env scope modelName .created (insertAll env model prepared) id actor
    records.forM fun _ => perform (.afterHook "after_create")
    return records

/-- `AtomoClient::update_many`. -/
def updateMany (modelName : String) (clauses : List WhereClause) (data : Record) (actor : Option String) :
    Program (List Record) := do
  check (validateWhereClauses clauses)
  let model ← findModel env modelName
  let data ← runBefore env "update" modelName data
  checkRules model (Schema.validatePartial data model.validation)
  let records ← writeMany env scope modelName .updated
    (execute env (SqlBuilder.update env.casing model clauses data)) id actor
  perform (.afterHook "after_update")
  return records

/-- The data of an event that carries the id of its row only. -/
def idOnly (record : Record) : Record :=
  match lookup? "id" record with
  | some value => [("id", value)]
  | none => []

/-- `AtomoClient::delete_many`. -/
def deleteMany (modelName : String) (clauses : List WhereClause) (actor : Option String) : Program Nat := do
  check (validateWhereClauses clauses)
  let model ← findModel env modelName
  let _ ← runBefore env "delete" modelName []
  let records ← writeMany env scope modelName .deleted
    (execute env (SqlBuilder.softDelete env.casing model clauses)) idOnly actor
  perform (.afterHook "after_delete")
  return records.length

/-- `AtomoClient::restore_many`. -/
def restoreMany (modelName : String) (clauses : List WhereClause) (actor : Option String) : Program Nat := do
  check (validateWhereClauses clauses)
  let model ← findModel env modelName
  let records ← writeMany env scope modelName .restored
    (execute env (SqlBuilder.restore env.casing model clauses)) id actor
  return records.length

/-- `AtomoClient::hard_delete_many`. -/
def hardDeleteMany (modelName : String) (clauses : List WhereClause) (actor : Option String) : Program Nat := do
  check (validateWhereClauses clauses)
  let model ← findModel env modelName
  let records ← writeMany env scope modelName .hardDeleted
    (execute env (SqlBuilder.delete env.casing model clauses)) idOnly actor
  return records.length

/-! ## Access -/

/-- `AtomoClient::enforce_access`. -/
def enforceAccess (modelName action : String) (role : Option String) : Program Unit :=
  match (env.schema.model? modelName).bind (·.access) with
  | none => pure ()
  | some access =>
    match access.decide action role with
    | .allow => pure ()
    | .forbidden =>
      throw (.message ("Access denied: '" ++ action ++ "' on '" ++ modelName ++ "' requires a permitted role"))
    | .needsAuth =>
      throw (.message ("Authentication required for '" ++ action ++ "' on '" ++ modelName ++ "'"))

/-- `AtomoClient::create_checked`. -/
def createChecked (role : Option String) (modelName : String) (data : Record) (actor : Option String) :
    Program Record := do
  enforceAccess env modelName "create" role
  create env scope modelName data actor

/-- `AtomoClient::update_many_checked`. -/
def updateManyChecked (role : Option String) (modelName : String) (clauses : List WhereClause) (data : Record)
    (actor : Option String) : Program (List Record) := do
  check (validateWhereClauses clauses)
  enforceAccess env modelName "update" role
  updateMany env scope modelName clauses data actor

/-- `AtomoClient::delete_many_checked`. -/
def deleteManyChecked (role : Option String) (modelName : String) (clauses : List WhereClause)
    (actor : Option String) : Program Nat := do
  check (validateWhereClauses clauses)
  enforceAccess env modelName "delete" role
  deleteMany env scope modelName clauses actor

end Atomo.Client

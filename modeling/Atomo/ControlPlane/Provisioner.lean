import Atomo.Data.Json
import Atomo.Lib.Resumption
import Atomo.Lib.Table
import Mathlib.Data.List.Infix

/-!
# The provisioner

`Provisioner` of the control plane: each of its operations is a program that asks the registry, the driver, the
gateway and the rest of the machine one thing after another and fails with the first that fails. Fetching a schema
(`materialize_schema`) and resolving the environment (`resolve_env`) touch none of the state that the operations share
and are one request each.
-/

namespace Atomo.ControlPlane

/-! ## Projects -/

inductive ProjectStatus where
  | provisioning
  | running
  | stopped
  | failed
  deriving DecidableEq

inductive DesiredState where
  | running
  | stopped
  deriving DecidableEq

inductive SchemaRef where
  | git (repo path gitRef : String)
  | volume (path : String)
  deriving DecidableEq

/-- What a probe of an instance has found; its timestamp is left out. -/
structure Health where
  status : String
  upstream : Option String
  deriving DecidableEq

/-- A row of `projects`, as far as the operations read and write it. -/
structure Project where
  id : String
  hostname : Option String
  aliases : List String
  databaseUrlRef : String
  schemaRef : SchemaRef
  schemaVersion : Option String
  upstream : Option String
  env : Json
  status : ProjectStatus
  desiredState : DesiredState
  lastHealth : Option Health
  deriving DecidableEq

inductive InstanceState where
  | running
  | stopped
  | failed
  | unknown
  deriving DecidableEq

/-- `InstanceHandle`. -/
structure Handle where
  upstream : String

inductive CpError where
  | database (text : String)
  | driver (text : String)
  | secret (text : String)
  | notFound (id : String)
  | invalidState (text : String)
  | other (text : String)

/-! ## Requests -/

/-- What an operation waits for. -/
inductive Ask where
  | adminExec (stmt : String)
  | materializeSchema (project : Project)
  | resolveEnv (project : Project)
  | get (id : String)
  | list
  | create (project : Project)
  | updateStatus (id : String) (status : ProjectStatus)
  | setDesiredState (id : String) (desired : DesiredState)
  | setUpstream (id : String) (upstream : Option String)
  | setSchemaVersion (id version : String)
  | setLastHealth (id : String) (health : Health)
  | delete (id : String)
  | recordEvent (id action : String) (detail : List (String × String))
  | driverStart (project : Project) (env : List (String × String))
  | driverStop (project : Project)
  | driverRestart (project : Project) (env : List (String × String))
  | driverState (project : Project)
  | gatewayApply (projects : List Project)
  | tcpConnect (upstream : String)

/-- What a request is answered with, unless it fails. -/
abbrev Reply : Ask → Type
  | .resolveEnv _ => List (String × String)
  | .get _ => Project
  | .list => List Project
  | .driverStart _ _ | .driverRestart _ _ => Handle
  | .driverState _ => InstanceState
  | _ => Unit

abbrev Op :=
  Attempt CpError Ask Reply

def ask (i : Ask) : Op (Reply i) :=
  Attempt.ask i

/-! ## Operations -/

/-- `database_name`. -/
def databaseName (id : String) : String :=
  "atomo_" ++ id.map fun c => if c = '-' then '_' else c

/-- `default_port` over `ATOMO_PORT_BASE`. -/
def defaultPort (base : UInt16) (id : String) : UInt16 :=
  base + (id.toUTF8.data.foldl (fun acc b => acc + b.toUInt16) 0) % 1000

/-- `running_projects` and the `apply` that follows it everywhere. -/
def refreshGateway : Op Unit := do
  let projects ← ask .list
  ask (.gatewayApply (projects.filter fun p => p.status = .running ∧ p.upstream.isSome))

/-- The database of a new project, unless it exists already. -/
def createDatabase (db : String) : Op Unit := do
  match ← (ask (.adminExec ("CREATE DATABASE \"" ++ db ++ "\""))).outcome with
  | .ok () => pure ()
  | .error (.database text) =>
    if decide ("already exists".toList <:+: text.toList) then pure () else throw (.database text)
  | .error e => throw e

/-- The row of a new project; one that exists keeps its target. -/
def register (project : Project) : Op Unit := do
  match ← (ask (.get project.id)).outcome with
  | .error _ => ask (.create project)
  | .ok _ => ask (.updateStatus project.id .provisioning)

def assignUpstream (base : UInt16) (project : Project) : Op Project :=
  match project.upstream with
  | some _ => pure project
  | none => do
    let upstream := "127.0.0.1:" ++ toString (defaultPort base project.id)
    ask (.setUpstream project.id (some upstream))
    pure { project with upstream := some upstream }

/-- `driver.start`, after whose failure the project is marked. -/
def startOrFail (project : Project) (env : List (String × String)) : Op Handle := do
  match ← (ask (.driverStart project env)).outcome with
  | .ok handle => pure handle
  | .error e => do
    ask (.updateStatus project.id .failed)
    throw e

def create (base : UInt16) (project : Project) : Op Unit := do
  let db := databaseName project.id
  createDatabase db
  ask (.materializeSchema project)
  let project := { project with status := .provisioning }
  register project
  ask (.recordEvent project.id "create" [("db", db)])
  let project ← assignUpstream base project
  let env ← ask (.resolveEnv project)
  let handle ← startOrFail project env
  ask (.setUpstream project.id (some handle.upstream))
  ask (.updateStatus project.id .running)
  refreshGateway

def start (id : String) : Op Unit := do
  let project ← ask (.get id)
  let env ← ask (.resolveEnv project)
  let handle ← ask (.driverStart project env)
  ask (.setUpstream id (some handle.upstream))
  ask (.updateStatus id .running)
  ask (.recordEvent id "start" [])
  refreshGateway

def stop (id : String) : Op Unit := do
  let project ← ask (.get id)
  ask (.driverStop project)
  ask (.updateStatus id .stopped)
  ask (.recordEvent id "stop" [])
  refreshGateway

/-- The project at the new commit; a volume has none. -/
def bump (newSha : String) (project : Project) : Op Project :=
  match project.schemaRef with
  | .git repo path _ => pure { project with schemaRef := .git repo path newSha }
  | .volume _ => throw (.invalidState "schema_update requires a git schema source")

def schemaUpdate (id newSha : String) : Op Unit := do
  let project ← ask (.get id)
  let project ← bump newSha project
  ask (.materializeSchema project)
  let env ← ask (.resolveEnv project)
  let handle ← ask (.driverRestart project env)
  ask (.setUpstream id (some handle.upstream))
  ask (.setSchemaVersion id newSha)
  ask (.recordEvent id "schema_update" [("ref", newSha)])
  refreshGateway

def dropDatabase (id : String) : Op Unit := do
  let db := databaseName id
  let _ ← (ask (.adminExec ("SELECT pg_terminate_backend(pid) FROM pg_stat_activity WHERE datname = '" ++ db ++
    "' AND pid <> pg_backend_pid()"))).outcome
  ask (.adminExec ("DROP DATABASE IF EXISTS \"" ++ db ++ "\""))

def dropIfAsked (id : String) (dropDb : Bool) : Op Unit :=
  if dropDb then dropDatabase id else pure ()

def delete (id : String) (dropDb : Bool) : Op Unit := do
  let project ← ask (.get id)
  ask (.driverStop project)
  dropIfAsked id dropDb
  ask (.recordEvent id "delete" [("drop_database", toString dropDb)])
  ask (.delete id)
  refreshGateway

/-! ## The reconciler -/

inductive ReconcileAction where
  | noop
  | start
  | stop
  deriving DecidableEq

def decide : DesiredState → InstanceState → ReconcileAction
  | .running, .running => .noop
  | .running, .stopped | .running, .failed | .running, .unknown => .start
  | .stopped, .running | .stopped, .failed => .stop
  | .stopped, .stopped | .stopped, .unknown => .noop

def reconcileOne (project : Project) : Op Unit := do
  let observed ← ask (.driverState project)
  match decide project.desiredState observed with
  | .start => start project.id
  | .stop => stop project.id
  | .noop => pure ()

def healthOf (project : Project) : Op Health :=
  match project.upstream with
  | some upstream => do
    match ← (ask (.tcpConnect upstream)).outcome with
    | .ok () => pure { status := "healthy", upstream := some upstream }
    | .error _ => pure { status := "unreachable", upstream := some upstream }
  | none => pure { status := "unknown", upstream := none }

def probeHealth (project : Project) : Op Unit := do
  let health ← healthOf project
  let _ ← (ask (.setLastHealth project.id health)).outcome
  pure ()

/-- The loop of `tick` over the projects that it has listed; an error of one is logged and the next one follows. -/
def reconcileAll : List Project → Op Unit
  | [] => pure ()
  | project :: rest => do
    let _ ← (reconcileOne project).outcome
    probeHealth project
    reconcileAll rest

def tick : Op Unit := do
  let projects ← ask .list
  reconcileAll projects

end Atomo.ControlPlane

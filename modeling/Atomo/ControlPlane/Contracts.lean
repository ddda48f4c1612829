import Atomo.ControlPlane.Provisioner

/-!
# What the programs ask

One contract for each program of the provisioner and of the reconciler: what it asks as long as the replies satisfy
`rely`. Most requests are routine; of the others a contract says what is asked and after which replies.
-/

namespace Atomo.ControlPlane

/-- A request that neither runs a statement on the server, nor makes or removes a row, nor writes a target or an
upstream, nor has an instance started or stopped. -/
def Ask.isRoutine : Ask → Bool
  | .adminExec _ | .create _ | .delete _ | .setDesiredState _ _ | .setUpstream _ _ | .driverStart _ _
  | .driverStop _ => false
  | _ => true

def createStatement (db : String) : String :=
  "CREATE DATABASE \"" ++ db ++ "\""

def terminateStatement (db : String) : String :=
  "SELECT pg_terminate_backend(pid) FROM pg_stat_activity WHERE datname = '" ++ db ++ "' AND pid <> pg_backend_pid()"

def dropStatement (db : String) : String :=
  "DROP DATABASE IF EXISTS \"" ++ db ++ "\""

/-- The upstream that `create` gives a project. -/
def assignedUpstream (base : UInt16) (project : Project) : String :=
  project.upstream.getD ("127.0.0.1:" ++ toString (defaultPort base project.id))

/-- The project that `create` starts. -/
def assigned (base : UInt16) (project : Project) : Project :=
  { project with status := .provisioning, upstream := some (assignedUpstream base project) }

variable {rely : (i : Ask) → Except CpError (Reply i) → Prop} {guar : Ask → Prop} {id : String}

theorem obeys_ask {i : Ask} {post : Reply i → Prop} (hguar : guar i) (hpost : ∀ a, rely i (.ok a) → post a) :
    Attempt.Obeys rely guar post (ask i) :=
  Attempt.obeys_ask hguar hpost

/-- Requests whose replies do not matter. -/
theorem obeys_asks {i : Ask} (hguar : guar i) : Attempt.Obeys rely guar (fun _ => True) (ask i) :=
  obeys_ask hguar fun _ _ => trivial

theorem obeys_refreshGateway (hroutine : ∀ i : Ask, i.isRoutine = true → guar i) :
    Attempt.Obeys rely guar (fun _ => True) refreshGateway :=
  (obeys_asks (hroutine _ rfl)).bind fun _ _ => obeys_asks (hroutine _ rfl)

/-! ## Starting and stopping -/

theorem obeys_start (hroutine : ∀ i : Ask, i.isRoutine = true → guar i)
    (hstart : ∀ p env, rely (.get id) (.ok p) → guar (.driverStart p env))
    (hset : ∀ p env handle, rely (.get id) (.ok p) → rely (.driverStart p env) (.ok handle) →
      guar (.setUpstream id (some handle.upstream))) :
    Attempt.Obeys rely guar (fun _ => True) (start id) := by
  refine (obeys_ask (i := .get id) (hroutine _ rfl) fun p hp => hp).bind fun p hp => ?_
  refine (obeys_asks (hroutine _ rfl)).bind fun env _ => ?_
  refine (obeys_ask (i := .driverStart p env) (hstart p env hp) fun _ h => h).bind fun handle hhandle => ?_
  refine (obeys_asks (hset p env handle hp hhandle)).bind fun _ _ => ?_
  refine (obeys_asks (hroutine _ rfl)).bind fun _ _ => ?_
  refine (obeys_asks (hroutine _ rfl)).bind fun _ _ => ?_
  exact obeys_refreshGateway hroutine

theorem obeys_stop (hroutine : ∀ i : Ask, i.isRoutine = true → guar i)
    (hstop : ∀ p, rely (.get id) (.ok p) → guar (.driverStop p)) :
    Attempt.Obeys rely guar (fun _ => True) (stop id) := by
  refine (obeys_ask (i := .get id) (hroutine _ rfl) fun p hp => hp).bind fun p hp => ?_
  refine (obeys_asks (hstop p hp)).bind fun _ _ => ?_
  refine (obeys_asks (hroutine _ rfl)).bind fun _ _ => ?_
  refine (obeys_asks (hroutine _ rfl)).bind fun _ _ => ?_
  exact obeys_refreshGateway hroutine

/-! ## The reconciler -/

theorem obeys_reconcileOne {project : Project} (hroutine : ∀ i : Ask, i.isRoutine = true → guar i)
    (hstart : project.desiredState = .running → ∀ p env, rely (.get project.id) (.ok p) → guar (.driverStart p env))
    (hset : ∀ p env handle, rely (.get project.id) (.ok p) → rely (.driverStart p env) (.ok handle) →
      guar (.setUpstream project.id (some handle.upstream)))
    (hstop : project.desiredState = .stopped → ∀ p, rely (.get project.id) (.ok p) → guar (.driverStop p)) :
    Attempt.Obeys rely guar (fun _ => True) (reconcileOne project) := by
  refine (obeys_asks (hroutine _ rfl)).bind fun observed _ => ?_
  cases htarget : project.desiredState with
  | running =>
    cases observed with
    | running => exact Attempt.obeys_pure trivial
    | stopped | failed | unknown => exact obeys_start hroutine (hstart htarget) hset
  | stopped =>
    cases observed with
    | running | failed => exact obeys_stop hroutine (hstop htarget)
    | stopped | unknown => exact Attempt.obeys_pure trivial

theorem obeys_probeHealth (hroutine : ∀ i : Ask, i.isRoutine = true → guar i) (project : Project) :
    Attempt.Obeys rely guar (fun _ => True) (probeHealth project) := by
  have hhealth : Attempt.Obeys rely guar (fun _ => True) (healthOf project) := by
    unfold healthOf
    split
    · refine (obeys_asks (hroutine _ rfl)).outcome.bind fun r _ => ?_
      cases r <;> exact Attempt.obeys_pure trivial
    · exact Attempt.obeys_pure trivial
  refine hhealth.bind fun health _ => ?_
  exact (obeys_asks (hroutine _ rfl)).outcome.bind fun _ _ => Attempt.obeys_pure trivial

theorem obeys_reconcileAll (hroutine : ∀ i : Ask, i.isRoutine = true → guar i) {projects : List Project}
    (hstart : ∀ q ∈ projects, q.desiredState = .running → ∀ p env, rely (.get q.id) (.ok p) → guar (.driverStart p env))
    (hset : ∀ q ∈ projects, ∀ p env handle, rely (.get q.id) (.ok p) → rely (.driverStart p env) (.ok handle) →
      guar (.setUpstream q.id (some handle.upstream)))
    (hstop : ∀ q ∈ projects, q.desiredState = .stopped → ∀ p, rely (.get q.id) (.ok p) → guar (.driverStop p)) :
    Attempt.Obeys rely guar (fun _ => True) (reconcileAll projects) := by
  induction projects with
  | nil => exact Attempt.obeys_pure trivial
  | cons q projects ih =>
    have hfirst : q ∈ q :: projects := List.mem_cons_self ..
    refine (obeys_reconcileOne hroutine (hstart q hfirst) (hset q hfirst) (hstop q hfirst)).outcome.bind fun _ _ => ?_
    refine (obeys_probeHealth hroutine q).bind fun _ _ => ?_
    exact ih (fun q' hq' => hstart q' (List.mem_cons_of_mem _ hq')) (fun q' hq' => hset q' (List.mem_cons_of_mem _ hq'))
      fun q' hq' => hstop q' (List.mem_cons_of_mem _ hq')

/-- A pass over what it has listed. -/
theorem obeys_pass (hroutine : ∀ i : Ask, i.isRoutine = true → guar i)
    (hstart : ∀ ps, rely .list (.ok ps) → ∀ q ∈ ps, q.desiredState = .running → ∀ p env,
      rely (.get q.id) (.ok p) → guar (.driverStart p env))
    (hset : ∀ id p env handle, rely (.get id) (.ok p) → rely (.driverStart p env) (.ok handle) →
      guar (.setUpstream id (some handle.upstream)))
    (hstop : ∀ ps, rely .list (.ok ps) → ∀ q ∈ ps, q.desiredState = .stopped → ∀ p,
      rely (.get q.id) (.ok p) → guar (.driverStop p)) :
    Attempt.Obeys rely guar (fun _ => True) tick := by
  refine (obeys_ask (i := .list) (hroutine _ rfl) fun ps hps => hps).bind fun ps hps => ?_
  exact obeys_reconcileAll hroutine (hstart ps hps) (fun q _ => hset q.id) (hstop ps hps)

/-! ## Creating, updating and deleting -/

theorem obeys_createDatabase {db : String} (hadmin : guar (.adminExec (createStatement db))) :
    Attempt.Obeys rely guar (fun _ => True) (createDatabase db) := by
  refine (obeys_asks (i := .adminExec (createStatement db)) hadmin).outcome.bind fun r _ => ?_
  split
  · exact Attempt.obeys_pure trivial
  · split
    · exact Attempt.obeys_pure trivial
    · exact Attempt.obeys_throw
  · exact Attempt.obeys_throw

theorem obeys_register {project : Project} (hroutine : ∀ i : Ask, i.isRoutine = true → guar i)
    (hcreate : guar (.create project)) : Attempt.Obeys rely guar (fun _ => True) (register project) := by
  refine (obeys_asks (hroutine _ rfl)).outcome.bind fun r _ => ?_
  cases r with
  | ok => exact obeys_asks (hroutine _ rfl)
  | error => exact obeys_asks hcreate

theorem obeys_assignUpstream {base : UInt16} {project : Project}
    (hassign : guar (.setUpstream project.id (some (assignedUpstream base project)))) :
    Attempt.Obeys rely guar (fun p => p = assigned base project)
      (assignUpstream base { project with status := .provisioning }) := by
  unfold assignedUpstream at hassign
  unfold assignUpstream assigned assignedUpstream
  dsimp only
  cases hupstream : project.upstream with
  | some upstream =>
    rw [hupstream, Option.getD_some] at *
    exact Attempt.obeys_pure rfl
  | none =>
    rw [hupstream, Option.getD_none] at hassign
    exact (obeys_asks hassign).bind fun _ _ => Attempt.obeys_pure rfl

theorem obeys_startOrFail {project : Project} {env : List (String × String)}
    (hroutine : ∀ i : Ask, i.isRoutine = true → guar i) (hstart : guar (.driverStart project env)) :
    Attempt.Obeys rely guar (fun handle => rely (.driverStart project env) (.ok handle)) (startOrFail project env) := by
  refine (obeys_ask (i := .driverStart project env) hstart fun _ h => h).outcome.bind fun r hr => ?_
  cases r with
  | ok handle => exact Attempt.obeys_pure (hr handle rfl)
  | error e => exact (obeys_asks (hroutine _ rfl)).bind fun _ _ => Attempt.obeys_throw

theorem obeys_create {base : UInt16} {project : Project} (hroutine : ∀ i : Ask, i.isRoutine = true → guar i)
    (hadmin : guar (.adminExec (createStatement (databaseName project.id))))
    (hcreate : guar (.create { project with status := .provisioning }))
    (hassign : guar (.setUpstream project.id (some (assignedUpstream base project))))
    (hstart : ∀ env, guar (.driverStart (assigned base project) env))
    (hset : ∀ env handle, rely (.driverStart (assigned base project) env) (.ok handle) →
      guar (.setUpstream project.id (some handle.upstream))) :
    Attempt.Obeys rely guar (fun _ => True) (create base project) := by
  refine (obeys_createDatabase hadmin).bind fun _ _ => ?_
  refine (obeys_asks (hroutine _ rfl)).bind fun _ _ => ?_
  refine (obeys_register hroutine hcreate).bind fun _ _ => ?_
  refine (obeys_asks (hroutine _ rfl)).bind fun _ _ => ?_
  refine (obeys_assignUpstream hassign).bind ?_
  rintro _ rfl
  refine (obeys_asks (hroutine _ rfl)).bind fun env _ => ?_
  refine (obeys_startOrFail hroutine (hstart env)).bind fun handle hhandle => ?_
  refine (obeys_asks (hset env handle hhandle)).bind fun _ _ => ?_
  refine (obeys_asks (hroutine _ rfl)).bind fun _ _ => ?_
  exact obeys_refreshGateway hroutine

theorem obeys_bump {newSha : String} {project : Project} :
    Attempt.Obeys rely guar (fun p => p.id = project.id ∧ p.upstream = project.upstream) (bump newSha project) := by
  unfold bump
  split
  · exact Attempt.obeys_pure ⟨rfl, rfl⟩
  · exact Attempt.obeys_throw

theorem obeys_schemaUpdate {newSha : String} (hroutine : ∀ i : Ask, i.isRoutine = true → guar i)
    (hset : ∀ p p' env handle, rely (.get id) (.ok p) → p'.id = p.id ∧ p'.upstream = p.upstream →
      rely (.driverRestart p' env) (.ok handle) → guar (.setUpstream id (some handle.upstream))) :
    Attempt.Obeys rely guar (fun _ => True) (schemaUpdate id newSha) := by
  refine (obeys_ask (i := .get id) (hroutine _ rfl) fun p hp => hp).bind fun p hp => ?_
  refine obeys_bump.bind fun p' hp' => ?_
  refine (obeys_asks (hroutine _ rfl)).bind fun _ _ => ?_
  refine (obeys_asks (hroutine _ rfl)).bind fun env _ => ?_
  refine (obeys_ask (i := .driverRestart p' env) (hroutine _ rfl) fun _ h => h).bind fun handle hhandle => ?_
  refine (obeys_asks (hset p p' env handle hp hp' hhandle)).bind fun _ _ => ?_
  refine (obeys_asks (hroutine _ rfl)).bind fun _ _ => ?_
  refine (obeys_asks (hroutine _ rfl)).bind fun _ _ => ?_
  exact obeys_refreshGateway hroutine

theorem obeys_delete {dropDb : Bool} (hroutine : ∀ i : Ask, i.isRoutine = true → guar i)
    (hstop : ∀ p, rely (.get id) (.ok p) → guar (.driverStop p))
    (hadmin : ∀ p, rely (.get id) (.ok p) → guar (.adminExec (terminateStatement (databaseName id))) ∧
      guar (.adminExec (dropStatement (databaseName id))))
    (hdelete : ∀ p, rely (.get id) (.ok p) → guar (.delete id)) :
    Attempt.Obeys rely guar (fun _ => True) (delete id dropDb) := by
  refine (obeys_ask (i := .get id) (hroutine _ rfl) fun p hp => hp).bind fun p hp => ?_
  have hdrop : Attempt.Obeys rely guar (fun _ => True) (dropIfAsked id dropDb) := by
    unfold dropIfAsked
    split
    · exact (obeys_asks (i := .adminExec (terminateStatement (databaseName id))) (hadmin p hp).1).outcome.bind
        fun _ _ => obeys_asks (i := .adminExec (dropStatement (databaseName id))) (hadmin p hp).2
    · exact Attempt.obeys_pure trivial
  refine (obeys_asks (hstop p hp)).bind fun _ _ => ?_
  refine hdrop.bind fun _ _ => ?_
  refine (obeys_asks (hroutine _ rfl)).bind fun _ _ => ?_
  refine (obeys_asks (hdelete p hp)).bind fun _ _ => ?_
  exact obeys_refreshGateway hroutine

end Atomo.ControlPlane

import Atomo.Actions.Dispatcher
import Atomo.Client.Tenants
import Atomo.Crud.Routes

/-!
# What a worker does for an event

The way of a triggered action from the event to the calls of its handler: `build_job_payload`, the lease,
`actorFromPayload` and `CrudClient` of the worker SDK, the routes of the server. The payload says who caused
the event and nothing of the tenant, so no call of a handler runs under one (`never_under_tenant`).
-/

namespace Atomo.Actions

open Schema (lookup?)
open Client (Env World Record)
open Crud (ActorSnapshot Request Response WorkerIdentity)

/-! ## The SDK -/

/-- `typeof p[key] === "string" ? p[key] : undefined`. -/
def stringProperty (key : String) (p : List (String × Json)) : Option String :=
  match lookup? key p with
  | some (.string s) => some s
  | _ => none

/-- `actorFromPayload`; the empty text counts as none in its test. -/
def actorFromPayload : Json → Option ActorSnapshot
  | .object p =>
    let actor := stringProperty "actor" p
    let tenantId := stringProperty "tenantId" p
    let role := stringProperty "role" p
    if actor.getD "" = "" ∧ tenantId.getD "" = "" ∧ role.getD "" = "" then none
    else some { userId := actor, tenantId, role }
  | _ => none

/-- `JSON.stringify` of a snapshot, which leaves out what is undefined. -/
def stringify (actor : ActorSnapshot) : Json :=
  .object ([("userId", actor.userId), ("tenantId", actor.tenantId), ("role", actor.role)].filterMap fun entry =>
    entry.2.map fun text => (entry.1, .string text))

/-- A call of `ctx.crud` in a handler. -/
inductive CrudCall where
  | create (model : String) (data : Record) (origin : Option String)
  | findById (model id : String)
  | update (model id : String) (data : Record) (origin : Option String)
  | delete (model id : String) (origin : Option String)
  | findMany (model : String) (where_ : Option Json) (limit offset : Option Int32)

/-- `CrudClient`, which sends its actor along with every call. -/
def CrudCall.request (actor : Option ActorSnapshot) : CrudCall → Request
  | create model data origin => .create model data (actor.map stringify) origin
  | findById model id => .findById model id (actor.map stringify)
  | update model id data origin => .update model id data (actor.map stringify) origin
  | delete model id origin => .deleteOne model id (actor.map stringify) origin
  | findMany model where_ limit offset => .findMany model where_ limit offset (actor.map stringify)

/-- The request of a call that the handler of an event's job makes. -/
def handlerRequest (schema : Schema) (ev : StampedEvent) (action : String) (crud : CrudCall) : Request :=
  crud.request (actorFromPayload (actionJob schema ev action "").payload)

/-! ## Under a tenant -/

/-- A request that is executed under a tenant: in its scope, returning and changing rows of the tenant only. -/
structure UnderTenant (env : Env) (worker : WorkerIdentity) (tenant : String) (req : Request) : Prop where
  scope : req.scope.tenant = some tenant
  reads : ∀ (w w' : World) reply, Crud.serve env worker req w = .ok reply w' →
    ∀ record ∈ reply.all, lookup? "tenant_id" record = some (.string tenant)
  changes : ∀ (w w' : World) reply, Crud.serve env worker req w = .ok reply w' →
    Db.Confined env.pg tenant w.store.tables w'.store.tables

theorem ofJson_stringify (actor : ActorSnapshot) :
    ActorSnapshot.ofJson (stringify actor) = some actor := by
  obtain ⟨userId, role, tenantId⟩ := actor
  cases userId <;> cases role <;> cases tenantId <;> rfl

theorem request_actor (actor : Option ActorSnapshot) (crud : CrudCall) : (crud.request actor).actor = actor := by
  have hsent : (crud.request actor).sentActor = actor.map stringify := by
    cases crud <;> rfl
  unfold Request.actor
  rw [hsent]
  cases actor with
  | none => rfl
  | some snapshot => exact ofJson_stringify snapshot

/-- The payload that the dispatcher builds has the actor of the event in it, and no tenant and no role. -/
theorem actorFromPayload_actionJob (schema : Schema) (ev : StampedEvent) (action newId : String) :
    actorFromPayload (actionJob schema ev action newId).payload =
      if ev.actor.getD "" = "" then none else some { userId := ev.actor, role := none, tenantId := none } := by
  have hpayload : actorFromPayload (actionJob schema ev action newId).payload =
      if ev.actor.getD "" = "" ∧ "" = "" ∧ "" = "" then none
      else some { userId := ev.actor, tenantId := none, role := none } := by
    cases hactor : ev.actor with
    | none =>
      unfold actionJob buildJobPayload
      rw [hactor]
      rfl
    | some actor =>
      unfold actionJob buildJobPayload
      rw [hactor]
      rfl
  rw [hpayload]
  simp only [and_true]

/-- The tenant is lost on the way. -/
theorem handlerRequest_tenant (schema : Schema) (ev : StampedEvent) (action : String) (crud : CrudCall) :
    (handlerRequest schema ev action crud).scope.tenant = none := by
  unfold Request.scope handlerRequest
  rw [request_actor, actorFromPayload_actionJob]
  split <;> rfl

/-- No call of a handler is executed under a tenant, whatever the event is about. -/
theorem never_under_tenant (env : Env) (worker : WorkerIdentity) (schema : Schema) (ev : StampedEvent) (action : String)
    (crud : CrudCall) (tenant : String) : ¬UnderTenant env worker tenant (handlerRequest schema ev action crud) := by
  intro h
  have hscope := h.scope
  rw [handlerRequest_tenant] at hscope
  cases hscope

/-! ## A handler that reads the notes of another tenant -/

def noteOfA : StampedEvent where
  eventType := .created
  modelName := "Note"
  data := [("id", .string "n1"), ("title", .string "first"), ("tenant_id", .string "A")]
  actor := some "alice"
  eventId := "00000000-0000-4000-8000-000000000001"
  timestamp := "2026-01-01T00:00:00Z"

def crudWorker : WorkerIdentity where
  id := "w"
  name := "notes"
  queues := [actionQueue]
  capabilities := ["crud:*"]

/-- The handler of an event about a note of one tenant is given the note of another. -/
theorem reads_other_tenant :
    ¬∀ (env : Env) (worker : WorkerIdentity) (schema : Schema) (ev : StampedEvent) (action tenant : String) (crud : CrudCall),
      (bindings schema ev).any (fun binding => binding.action = action) = true →
      lookup? "tenant_id" ev.data = some (.string tenant) →
      UnderTenant env worker tenant (handlerRequest schema ev action crud) := by
  intro h
  have hunder := h (.bare Client.noteSchema) crudWorker noteActions noteOfA "processNote" "A" (.findById "Note" "n2")
    (by decide) rfl
  have hends : endsOk (Crud.serve (.bare Client.noteSchema) crudWorker
      (handlerRequest noteActions noteOfA "processNote" (.findById "Note" "n2")))
      (Client.noteWorld [Client.noteRow "n1" "first" "A", Client.noteRow "n2" "second" "B"])
      (fun reply _ => reply.all.any fun record => lookup? "tenant_id" record = some (.string "B")) = true := by
    decide
  obtain ⟨reply, w', hrun, htest⟩ := exists_of_endsOk hends
  obtain ⟨record, hrecord, htenant⟩ := List.any_eq_true.1 htest
  have hother := hunder.reads _ w' reply hrun record hrecord
  rw [of_decide_eq_true htenant] at hother
  exact absurd hother (by decide)

end Atomo.Actions

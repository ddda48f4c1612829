import Atomo.Client.Guarantee
import Atomo.Crud.FindMany

/-!
# The worker CRUD API

The routes of `crud_routes.rs` under `/api/worker/crud`. What they do for a request they do in the scope of
its actor snapshot: the tenant that row-level security is bound to, and the clause of `scope_by_tenant`.
Path segments, query parameters and bodies reach the routes as they were sent.
-/

namespace Atomo.Crud

open Schema (lookup?)
open Query (WhereClause scopeByTenant)
open Client (Env Scope World Record)

/-- An optional text of a snapshot: absent or null, a text, or no snapshot at all. -/
def textEntry (key : String) (entries : List (String × Json)) : Option (Option String) :=
  match lookup? key entries with
  | none | some .null => some none
  | some (.string s) => some (some s)
  | some _ => none

/-- `ActorSnapshot` as it is deserialized from an object. -/
def ActorSnapshot.ofJson : Json → Option ActorSnapshot
  | .object entries => do
    let userId ← textEntry "userId" entries
    let role ← textEntry "role" entries
    let tenantId ← textEntry "tenantId" entries
    return { userId, role, tenantId }
  | _ => none

/-- A request to one of the routes; the actor of a read is the text of a query parameter, that of a write is
an entry of the body. -/
inductive Request where
  | create (model : String) (data : Record) (actor : Option Json) (origin : Option String)
  | findById (model id : String) (actor : Option Json)
  | update (model id : String) (data : Record) (actor : Option Json) (origin : Option String)
  | deleteOne (model id : String) (actor : Option Json) (origin : Option String)
  | findMany (model : String) (where_ : Option Json) (limit offset : Option Int32) (actor : Option Json)

inductive Response where
  | record (record : Record)
  | records (records : List Record)
  | deleted (count : Nat)

/-- The records of a response. -/
def Response.all : Response → List Record
  | .record one => [one]
  | .records all => all
  | .deleted _ => []

namespace Request

def sentActor : Request → Option Json
  | .create _ _ actor _ | .findById _ _ actor | .update _ _ _ actor _ | .deleteOne _ _ actor _
  | .findMany _ _ _ _ actor => actor

def origin : Request → Option String
  | .create _ _ _ origin | .update _ _ _ _ origin | .deleteOne _ _ _ origin => origin
  | .findById _ _ _ | .findMany _ _ _ _ _ => none

/-- The snapshot that a route reads. -/
def actor (req : Request) : Option ActorSnapshot :=
  req.sentActor.bind ActorSnapshot.ofJson

/-- `with_action_origin` and `with_tenant_scope`. -/
def scope (req : Request) : Scope where
  tenant := req.actor.bind (·.tenantId)
  origin := req.origin

/-- A body whose actor is no snapshot is rejected before the route; in a query it counts as absent. -/
def malformed : Request → Bool
  | .create _ _ actor _ | .update _ _ _ actor _ | .deleteOne _ _ actor _ =>
    actor.any fun v => v ≠ .null && (ActorSnapshot.ofJson v).isNone
  | .findById _ _ _ | .findMany _ _ _ _ _ => false

end Request

def idClause (id : String) : WhereClause :=
  ⟨"id", .equals, .string id⟩

variable (env : Env) (worker : WorkerIdentity)

/-- The route of a request, from the checks that all of them begin with. -/
def guarded {α : Type} (model op : String) (route : Handler α) : Handler α := do
  capabilityCheck worker model op
  modelCheck env.schema model
  route

/-- `create`, `find_by_id`, `update`, `delete_one` and `find_many`. -/
def route (req : Request) : Handler Response :=
  let role := req.actor.bind (·.role)
  let userId := req.actor.bind (·.userId)
  let tenantId := req.actor.bind (·.tenantId)
  match req with
  | .create model data _ _ => guarded env worker model "create" do
    return .record (← call (Client.createChecked env req.scope role model data userId))
  | .findById model id _ => guarded env worker model "read" do
    call (Client.enforceAccess env model "read" role)
    match ← call (Client.findUnique env req.scope model (scopeByTenant [idClause id] tenantId)) with
    | some record => return .record record
    | none => throw (.status 404 "not found")
  | .update model id data _ _ => guarded env worker model "update" do
    match ← call (Client.updateManyChecked env req.scope role model (scopeByTenant [idClause id] tenantId) data userId) with
    | record :: _ => return .record record
    | [] => throw (.status 404 "not found")
  | .deleteOne model id _ _ => guarded env worker model "delete" do
    return .deleted (← call (Client.deleteManyChecked env req.scope role model (scopeByTenant [idClause id] tenantId) userId))
  | .findMany model where_ limit offset _ => do
    return .records (← findMany env worker model { where_, limit, offset, actor := req.actor })

/-- The request at the router. -/
def serve (req : Request) : Handler Response :=
  if req.malformed then throw (.status 422 "Failed to deserialize the JSON body into the target type")
  else route env worker req

end Atomo.Crud

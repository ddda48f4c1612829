import Atomo.GraphQL.Context

/-!
# The find route of the worker API

`GET /api/worker/crud/{model}`. The text of a query parameter that is no JSON counts as absent, so that
parameters are taken as parsed.
-/

namespace Atomo.Crud

open Schema (splitAt eqIgnoreAsciiCase)
open Client (Env Scope World Program Record)
open GraphQL (asUsize)

/-- `WorkerIdentity`. -/
structure WorkerIdentity where
  id : String
  name : String
  queues : List String
  capabilities : List String

/-- `str::splitn` at a colon. -/
def splitColon : Nat → List Char → List (List Char)
  | 0, _ => []
  | 1, text => [text]
  | n + 2, text =>
    match text.dropWhile (· ≠ ':') with
    | [] => [text]
    | _ :: rest => text.takeWhile (· ≠ ':') :: splitColon (n + 1) rest

/-- What one capability permits. -/
def permits (capability model op : String) : Bool :=
  capability = "crud:*" ||
    match splitColon 3 capability.toList with
    | [scheme, name] => scheme = "crud".toList && name = model.toList
    | [scheme, name, ops] =>
      scheme = "crud".toList && name = model.toList &&
        (splitAt ',' ops).any fun o => eqIgnoreAsciiCase o op.toList
    | _ => false

/-- `WorkerIdentity::may_crud`. -/
def WorkerIdentity.mayCrud (worker : WorkerIdentity) (model op : String) : Bool :=
  worker.capabilities.any fun capability => permits capability model op

structure ActorSnapshot where
  userId : Option String
  role : Option String
  tenantId : Option String

structure FindManyParams where
  where_ : Option Json := none
  limit : Option Int32 := none
  offset : Option Int32 := none
  actor : Option ActorSnapshot := none

/-- A response other than success. -/
inductive Error where
  | status (code : Nat) (text : String)
  | client (code : Nat) (e : Client.Error)
  deriving DecidableEq

/-- `error_response`. -/
def errorResponse : Client.Error → Error
  | .message text =>
    if "validation failed".toList <:+: text.toList then .client 422 (.message text)
    else if "Access denied".toList <:+: text.toList ∨ "Authentication required".toList <:+: text.toList then
      .client 403 (.message text)
    else .client 500 (.message text)
  | .database => .client 500 .database

abbrev Handler := EStateM Error World

def call {α : Type} (program : Program α) : Handler α :=
  withError errorResponse program

/-- `capability_check`. -/
def capabilityCheck (worker : WorkerIdentity) (model op : String) : Handler Unit :=
  if worker.mayCrud model op then pure ()
  else throw (.status 403 ("worker lacks crud capability for " ++ model ++ "." ++ op))

/-- `model_check`. -/
def modelCheck (schema : Atomo.Schema) (model : String) : Handler Unit :=
  if (schema.model? model).isSome then pure () else throw (.status 404 ("model '" ++ model ++ "' not found"))

/-- The clauses of a request: those of its `where`, and the tenant of its actor. -/
def whereClauses (params : FindManyParams) : List Query.WhereClause :=
  Query.scopeByTenant ((params.where_.map Query.parseWhere).getD []) (params.actor.bind (·.tenantId))

/-- `find_many`. -/
def findMany (env : Env) (worker : WorkerIdentity) (model : String) (params : FindManyParams) :
    Handler (List Record) := do
  capabilityCheck worker model "read"
  modelCheck env.schema model
  call (Client.enforceAccess env model "read" (params.actor.bind (·.role)))
  let limit := asUsize (min (params.limit.getD 50) 200)
  let offset := asUsize (max (params.offset.getD 0) 0)
  call (Client.findMany env { tenant := params.actor.bind (·.tenantId) } model (whereClauses params) [] (some limit)
    (some offset))

theorem call_kept {α : Type} {program : Program α} {w : World} {Q : α → World → Prop}
    (h : Ends program w Q (Client.Kept w)) : Ends (call program) w Q (Client.Kept w) :=
  h.mapError fun _ _ hkept => hkept

end Atomo.Crud

import Atomo.GraphQL.Context

/-!
# The queries of a service

The resolvers of `ServiceQuery`.
-/

namespace Atomo.GraphQL

open Client (Env Scope World Record)
open Query (WhereClause)

structure PageInfo where
  totalCount : Int64
  hasNextPage : Bool
  hasPreviousPage : Bool
  pageSize : Int32
  offset : Int32

structure PaginatedRecords where
  data : List Record
  pageInfo : PageInfo

variable (env : Env) (scope : Scope) (ctx : Ctx)

namespace ServiceQuery

/-- `Query::records`. -/
def records (modelName : String) (where_ orderBy : Option Json) (limit offset : Option Int32) :
    Resolver (List Record) := do
  checkAccess env.schema modelName "read" ctx
  let orders := (orderBy.map parseOrderBy).getD []
  let result ← call (Client.findMany env scope modelName (scopedWhere ctx where_) orders (limit.map asUsize)
    (offset.map asUsize))
  return result.map (camelKeys env.casing)

/-- The metadata of a page. -/
def pageInfo (total : Int64) (lim off : Nat) : PageInfo where
  totalCount := total
  hasNextPage := off + lim < total.toUInt64.toNat
  hasPreviousPage := 0 < off
  pageSize := .ofNat lim
  offset := .ofNat off

/-- `Query::deleted_records`. -/
def deletedRecords (modelName : String) (where_ orderBy : Option Json) (limit offset : Option Int32) :
    Resolver PaginatedRecords := do
  checkAccess env.schema modelName "read" ctx
  let lim := asUsize (limit.getD 20)
  let off := asUsize (offset.getD 0)
  let clauses := scopedWhere ctx where_
  let orders := (orderBy.map parseOrderBy).getD []
  let data ← call (Client.findDeleted env scope modelName clauses orders (some lim) (some off))
  let total ← callOr (Client.countDeleted env scope modelName clauses) 0
  return { data := data.map (camelKeys env.casing), pageInfo := pageInfo total lim off }

/-- `Query::record`. -/
def record (modelName id : String) : Resolver (Option Record) := do
  checkAccess env.schema modelName "read" ctx
  let clauses := Query.scopeByTenant [⟨"id", .equals, .string id⟩] ctx.tenant
  let result ← call (Client.findUnique env scope modelName clauses)
  return result.map (camelKeys env.casing)

/-- `Query::paginated_records`. -/
def paginatedRecords (modelName : String) (where_ orderBy : Option Json) (limit offset : Option Int32) :
    Resolver PaginatedRecords := do
  checkAccess env.schema modelName "read" ctx
  let lim := asUsize (limit.getD 20)
  let off := asUsize (offset.getD 0)
  let clauses := scopedWhere ctx where_
  let orders := (orderBy.map parseOrderBy).getD []
  let data ← call (Client.findMany env scope modelName clauses orders (some lim) (some off))
  let total ← callOr (Client.count env scope modelName clauses) 0
  return { data := data.map (camelKeys env.casing), pageInfo := pageInfo total lim off }

end ServiceQuery

end Atomo.GraphQL

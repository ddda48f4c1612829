import Atomo.Data.Json

/-!
# Where clauses

The JSON `where` of the API is walked by `parse_where` into a list of clauses, which hold together.
`resolve_where` turns the `id` shorthand of the mutations into such a JSON, `scope_by_tenant` adds the
tenant of the request, and `validate_where_clauses` is the check that every client operation makes.
-/

namespace Atomo.Query

inductive WhereOperator where
  | equals
  | notEquals
  | contains
  | startsWith
  | endsWith
  | greaterThan
  | greaterThanOrEqual
  | lessThan
  | lessThanOrEqual
  | isIn
  | notIn
  | isNull
  | isNotNull
  deriving DecidableEq

structure WhereClause where
  field : String
  operator : WhereOperator
  value : Json
  deriving DecidableEq

inductive OrderDirection where
  | asc
  | desc
  deriving DecidableEq

/-- The operator that a key of a condition names. -/
def whereOperator (op : String) (val : Json) : Option WhereOperator :=
  match op with
  | "equals" | "eq" => some .equals
  | "not" | "neq" => some .notEquals
  | "contains" | "like" => some .contains
  | "startsWith" => some .startsWith
  | "endsWith" => some .endsWith
  | "gt" => some .greaterThan
  | "gte" => some .greaterThanOrEqual
  | "lt" => some .lessThan
  | "lte" => some .lessThanOrEqual
  | "in" => some .isIn
  | "notIn" => some .notIn
  | "isNull" => if val.asBool? = some false then some .isNotNull else some .isNull
  | _ => none

/-- The clauses of one entry of the `where` object. An unknown operator is passed over. -/
def parseCondition (field : String) : Json → List WhereClause
  | .object ops =>
    ops.filterMap fun (op, val) => (whereOperator op val).map fun operator => ⟨field, operator, val⟩
  | condition => [⟨field, .equals, condition⟩]

/-- `parse_where`. -/
def parseWhere : Json → List WhereClause
  | .object map => map.flatMap fun (field, condition) => parseCondition field condition
  | _ => []

/-- `resolve_where`. -/
def resolveWhere (id : Option String) (where_ : Option Json) : Except String Json :=
  match id, where_ with
  | some id, none => .ok (.object [("id", .string id)])
  | none, some w => .ok w
  | some _, some _ => .error "Provide either `id` or `where`, not both"
  | none, none => .error "Either `id` or `where` must be provided"

/-- `scope_by_tenant`. -/
def scopeByTenant (clauses : List WhereClause) (tenantId : Option String) : List WhereClause :=
  match tenantId with
  | some tid => clauses ++ [⟨"tenant_id", .equals, .string tid⟩]
  | none => clauses

/-- `validate_where_clauses`. -/
def validateWhereClauses : List WhereClause → Except String Unit
  | [] => .ok ()
  | clause :: clauses =>
    if (clause.operator = .isIn ∨ clause.operator = .notIn) ∧ clause.value.asArray? = none then
      .error "INVALID_FILTER: in/notIn requires an array"
    else
      validateWhereClauses clauses

end Atomo.Query

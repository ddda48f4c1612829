import Atomo.Client.Reads

/-!
# Requests of the GraphQL API

What a request carries, the errors of the resolvers, and the helpers that they share. A `HashMap` that is
collected from entries keeps the last of those with one key.
-/

namespace Atomo.GraphQL

open Schema (Model lookup? ValidationError)
open Query (WhereClause OrderDirection)
open Client (Env Scope World Program Record)

/-- The role, the user and the tenant in the data of a request. -/
structure Ctx where
  userRole : Option String := none
  userId : Option String := none
  tenant : Option String := none

/-- An error of a resolver. -/
inductive Error where
  | forbidden (message : String)
  | unauthorized (message : String)
  | validationFailed (errors : List ValidationError)
  | message (text : String)
  | client (e : Client.Error)
  deriving DecidableEq

abbrev Resolver := EStateM Error World

variable {α : Type}

/-- A call of the client. -/
def call (program : Program α) : Resolver α :=
  withError .client program

/-- `unwrap_or` on a call of the client. -/
def callOr (program : Program α) (default : α) : Resolver α := fun w =>
  match program w with
  | .ok a w' => .ok a w'
  | .error _ w' => .ok default w'

/-- `check_access`. -/
def checkAccess (schema : Atomo.Schema) (modelName action : String) (ctx : Ctx) : Resolver Unit :=
  match (schema.model? modelName).bind (·.access) with
  | none => pure ()
  | some access =>
    match access.decide action ctx.userRole with
    | .allow => pure ()
    | .forbidden => throw (.forbidden ("Access denied for '" ++ action ++ "' on '" ++ modelName ++ "'"))
    | .needsAuth => throw (.unauthorized "Authentication required")

/-- `HashMap::insert`. -/
def insertKey (key : String) (value : Json) : Record → Record
  | [] => [(key, value)]
  | entry :: data => if entry.1 = key then (key, value) :: data else entry :: insertKey key value data

/-- `collect` into a `HashMap`. -/
def collect (entries : Record) : Record :=
  entries.foldl (fun data entry => insertKey entry.1 entry.2 data) []

variable (cc : CharCase)

/-- `camel_keys`. -/
def camelKeys (record : Record) : Record :=
  collect (record.map fun entry => (snakeToCamel cc entry.1, entry.2))

/-- The name in the schema for a key of the data. -/
def canonicalKey (model : Model) (key : String) : String :=
  if (lookup? key model.fields).isSome then key
  else
    match model.fields.find? fun field => toSnakeCase cc field.1 = toSnakeCase cc key with
    | some field => field.1
    | none => key

/-- `normalize_input_keys`. -/
def normalizeInputKeys (schema : Atomo.Schema) (modelName : String) (data : Record) : Record :=
  match schema.model? modelName with
  | none => data
  | some model => collect (data.map fun entry => (canonicalKey cc model entry.1, entry.2))

/-- The direction that a text names. -/
def parseDirection (text : String) : OrderDirection :=
  if Schema.eqIgnoreAsciiCase text.toList "desc".toList then .desc else .asc

/-- `parse_order_by`. -/
def parseOrderBy : Json → List (String × OrderDirection)
  | .object map => map.map fun (field, dir) => (field, parseDirection (dir.asStr?.getD "asc"))
  | .array items =>
    items.filterMap fun item =>
      match item with
      | .object _ =>
        some (((item.get? "field").bind Json.asStr?).getD "",
          parseDirection (((item.get? "direction").bind Json.asStr?).getD "asc"))
      | _ => none
  | _ => []

/-- `as usize` of an `i32`. -/
def asUsize (i : Int32) : Nat :=
  (i.toInt % 2 ^ 64).toNat

/-- A `resolve_where` as a resolver. -/
def resolveWhere (id : Option String) (where_ : Option Json) : Resolver Json :=
  match Query.resolveWhere id where_ with
  | .ok value => pure value
  | .error text => throw (.message text)

/-- The clauses of a request: those of its `where`, and its tenant. -/
def scopedWhere (ctx : Ctx) (where_ : Option Json) : List WhereClause :=
  Query.scopeByTenant ((where_.map Query.parseWhere).getD []) ctx.tenant

/-! ## What the helpers leave -/

theorem call_ends {program : Program α} {w : World} {Q : α → World → Prop} {E : Client.Error → World → Prop}
    {F : Error → World → Prop} (h : Ends program w Q E) (hF : ∀ e w', E e w' → F (.client e) w') :
    Ends (call program) w Q F :=
  h.mapError hF

theorem callOr_ends {program : Program α} {default : α} {w : World} {Q : α → World → Prop}
    {E : Client.Error → World → Prop} {F : Error → World → Prop} (h : Ends program w Q E)
    (hE : ∀ e w', E e w' → Q default w') : Ends (callOr program default) w Q F := by
  apply Ends.of_result
  unfold callOr
  cases hrun : program w with
  | ok a w' => exact h.ok hrun
  | error e w' => exact hE e w' (h.error hrun)

theorem checkAccess_ends {schema : Atomo.Schema} {modelName action : String} {ctx : Ctx} {w : World}
    {F : Error → World → Prop} (hF : ∀ e, F e w) :
    Ends (checkAccess schema modelName action ctx) w (fun _ w' => w' = w) F := by
  unfold checkAccess
  split
  · exact Ends.pure rfl
  · split
    · exact Ends.pure rfl
    · exact Ends.throw (hF _)
    · exact Ends.throw (hF _)

theorem resolveWhere_ends {id : Option String} {where_ : Option Json} {w : World} {F : Error → World → Prop}
    (hF : ∀ e, F e w) :
    Ends (resolveWhere id where_) w (fun value w' => Query.resolveWhere id where_ = .ok value ∧ w' = w) F := by
  unfold resolveWhere
  split
  · rename_i value hvalue
    exact Ends.pure ⟨hvalue, rfl⟩
  · exact Ends.throw (hF _)

end Atomo.GraphQL

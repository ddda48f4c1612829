import Atomo.Schema.AccessRules
import Atomo.Data.Json

/-!
# Models of a schema

`Schema`, `Model` and `Field` with what the query, client and GraphQL layers read of them, and the
access decision of `AccessControl`. A `HashMap` is the list of its entries in iteration order.
-/

namespace Atomo.Schema

inductive FieldType where
  | string
  | number
  | boolean
  | date
  | dateTime
  | entityId
  | json
  | reference (model : String)
  | array (of : FieldType)
  | blocks
  | file
  | custom (name : String)
  deriving DecidableEq

inductive FieldAttribute where
  | primary
  | unique
  | index
  | foreignKey
  | timestamp
  | default (value : String)
  deriving DecidableEq

structure Field where
  name : String
  fieldType : FieldType
  optional : Bool
  attributes : List FieldAttribute := []
  deriving DecidableEq

structure Relationship where
  kind : String
  model : String
  foreignKey : Option String

inductive ModelConstraint where
  | unique (columns : List String)
  | index (columns : List String)
  | check (expr : String)
  | uniqueWhere (columns : List String) (predicate : String)
  | indexWhere (columns : List String) (predicate : String)
  deriving DecidableEq

inductive ActionCondition where
  | changedAny (fields : List String)
  | fieldEquals (field : String) (value : Json)

structure EventActionBinding where
  action : String
  condition : Option ActionCondition := none

structure ModelEvents where
  created : List EventActionBinding := []
  updated : List EventActionBinding := []
  deleted : List EventActionBinding := []

structure ActionInputField where
  name : String
  fieldType : String
  required : Bool := false

inductive ActionInputDef where
  | pickFields (model : String) (fields : List String)
  | object (fields : List ActionInputField)

inductive ActionReturn where
  | model (name : String)
  | void

structure ActionDef where
  name : String
  input : ActionInputDef
  returns : Option ActionReturn := none
  sourceModel : Option String := none

structure Model where
  name : String
  fields : List (String × Field) := []
  access : Option AccessControl := none
  validation : List (String × String) := []
  tableName : Option String := none
  relationships : List (String × Relationship) := []
  constraints : List ModelConstraint := []
  events : ModelEvents := {}

end Atomo.Schema

namespace Atomo

/-- `Schema`. -/
structure Schema where
  models : List (String × Schema.Model)
  actions : List (String × Schema.ActionDef) := []
  warnings : List String := []

namespace Schema

/-- `HashMap::get` on a list of entries. -/
def lookup? {α : Type} (key : String) (entries : List (String × α)) : Option α :=
  (entries.find? (·.1 = key)).map (·.2)

theorem mem_of_lookup? {α : Type} {key : String} {value : α} {entries : List (String × α)}
    (h : lookup? key entries = some value) : (key, value) ∈ entries := by
  obtain ⟨entry, hentry, rfl⟩ := Option.map_eq_some_iff.1 h
  have hkey : entry.1 = key := by simpa using List.find?_some hentry
  rw [← hkey]
  exact List.mem_of_find?_eq_some hentry

def model? (schema : Schema) (name : String) : Option Model :=
  lookup? name schema.models

inductive AccessDecision where
  | allow
  | needsAuth
  | forbidden
  deriving DecidableEq

/-- `str::split` at a character. -/
def splitAt (sep : Char) : List Char → List (List Char)
  | [] => [[]]
  | c :: l =>
    if c = sep then [] :: splitAt sep l
    else
      match splitAt sep l with
      | [] => [[c]]
      | part :: parts => (c :: part) :: parts

def eqIgnoreAsciiCase (a b : List Char) : Bool :=
  a.map Char.toLower = b.map Char.toLower

/-- `AccessRule::decide`. -/
def AccessRule.decide : AccessRule → Option String → AccessDecision
  | .boolean code, role =>
    if code = "public" then .allow
    else if code = "authenticated" then
      match role with
      | some _ => .allow
      | none => .needsAuth
    else
      match role with
      | some r =>
        if (splitAt '|' code.toList).any fun a => eqIgnoreAsciiCase a r.toList then .allow else .forbidden
      | none => .needsAuth
  | .query _, _ | .and _, _ | .or _, _ => .allow

/-- `AccessControl::rule_for`. -/
def AccessControl.ruleFor (access : AccessControl) (action : String) : Option AccessRule :=
  if action = "create" then access.create
  else if action = "read" then access.read
  else if action = "update" then access.update
  else if action = "delete" then access.delete
  else none

/-- `AccessControl::decide`. -/
def AccessControl.decide (access : AccessControl) (action : String) (role : Option String) :
    AccessDecision :=
  match access.ruleFor action with
  | some rule => rule.decide role
  | none => .allow

end Schema

end Atomo

import Atomo.Cache.ReadCache
import Atomo.Client.Reads
import Atomo.Data.Debug

/-!
# The reads of the client with its cache

The reads of `AtomoClient` as its callers have them: `find_many`, `find_unique` and `count` behind the read
cache, the first two with their includes. A read with includes goes past the cache, the reads of its
included records do not.
-/

namespace Atomo.Client.Cached

open Schema (Relationship lookup?)
open Query (WhereClause WhereOperator OrderDirection validateWhereClauses)

/-- A client with its read cache. The cache is asked at instants, one after the other. -/
structure CachedEnv where
  client : Env
  cache : Cache.Env
  instant : Nat → Nat
  /-- The characters that the `Debug` text of a string has as they are. -/
  printed : Char → Bool
  /-- The `Debug` text of a JSON value. -/
  debugValue : Json → String

structure CachedWorld where
  world : World
  cache : Cache.State
  generation : UInt64
  asked : Nat

abbrev CachedProgram := EStateM Error CachedWorld

/-- A client that has just been built. -/
def CachedWorld.start (world : World) : CachedWorld where
  world
  cache := {}
  generation := 0
  asked := 0

variable {α : Type} (env : CachedEnv) (scope : Scope)

/-! ## Keys -/

def debugString (s : String) : String :=
  Debug.string env.printed s

def debugOperator : WhereOperator → String
  | .equals => "Equals"
  | .notEquals => "NotEquals"
  | .contains => "Contains"
  | .startsWith => "StartsWith"
  | .endsWith => "EndsWith"
  | .greaterThan => "GreaterThan"
  | .greaterThanOrEqual => "GreaterThanOrEqual"
  | .lessThan => "LessThan"
  | .lessThanOrEqual => "LessThanOrEqual"
  | .isIn => "In"
  | .notIn => "NotIn"
  | .isNull => "IsNull"
  | .isNotNull => "IsNotNull"

def debugClause (clause : WhereClause) : String :=
  "WhereClause \x7b field: " ++ debugString env clause.field ++ ", operator: " ++ debugOperator clause.operator ++
    ", value: " ++ env.debugValue clause.value ++ " \x7d"

def debugOrder (order : String × OrderDirection) : String :=
  "(" ++ debugString env order.1 ++ ", " ++ (match order.2 with
    | .asc => "Asc"
    | .desc => "Desc") ++ ")"

def debugTenant : String :=
  Debug.option (debugString env) scope.tenant

/-- `ReadCache::key`. -/
def cacheKey (model query : String) : String :=
  model ++ ":" ++ query

/-- The key of `find_many`. -/
def manyKey (model : String) (clauses : List WhereClause) (orderBy : List (String × OrderDirection))
    (limit offset : Option Nat) (includes : List String) : String :=
  cacheKey model ("many:" ++ Debug.vec (debugClause env) clauses ++ "|" ++ Debug.vec (debugOrder env) orderBy ++ "|" ++
    Debug.option Nat.repr limit ++ "|" ++ Debug.option Nat.repr offset ++ "|" ++ Debug.vec (debugString env) includes ++
    "|" ++ debugTenant env scope)

/-- The key of `find_unique`. -/
def uniqueKey (model : String) (clauses : List WhereClause) (includes : List String) : String :=
  cacheKey model ("unique:" ++ Debug.vec (debugClause env) clauses ++ Debug.vec (debugString env) includes ++
    debugTenant env scope)

/-- The key of `count`. -/
def countKey (model : String) (clauses : List WhereClause) : String :=
  cacheKey model ("count:" ++ Debug.vec (debugClause env) clauses ++ debugTenant env scope)

/-! ## The cache -/

/-- `invalidate_model`. -/
def CachedWorld.invalidate (cw : CachedWorld) : CachedWorld :=
  { cw with generation := cw.generation + 1, cache := cw.cache.invalidateModel env.cache }

def isInvalidate : Act → Bool
  | .invalidate _ => true
  | _ => false

/-- The client has got to a world, with the invalidations on the way. -/
def CachedWorld.reach (cw : CachedWorld) (w : World) : CachedWorld :=
  ((w.trace.drop cw.world.trace.length).filter isInvalidate).foldl (fun cw _ => cw.invalidate env) { cw with world := w }

/-- The work of the client behind the cache. -/
def onClient (x : Program α) : CachedProgram α := fun cw =>
  match x cw.world with
  | .ok a w => .ok a (cw.reach env w)
  | .error e w => .error e (cw.reach env w)

/-- `ReadCache::generation`. -/
def loadGeneration : CachedProgram UInt64 := fun cw =>
  .ok cw.generation cw

/-- `ReadCache::get`. -/
def cacheGet (key : String) : CachedProgram (Option Json) := fun cw =>
  let found := cw.cache.get env.cache key (env.instant cw.asked) cw.generation
  .ok found.1 { cw with cache := found.2, asked := cw.asked + 1 }

/-- `ReadCache::set_if_generation`. -/
def setIfGeneration (key : String) (value : Json) (generation : UInt64) : CachedProgram Unit := fun cw =>
  if generation = cw.generation then
    .ok () { cw with
      cache := cw.cache.fill env.cache key value generation (env.instant cw.asked) (env.instant (cw.asked + 1))
      asked := cw.asked + 2 }
  else .ok () { cw with cache := cw.cache.rejectFill }

/-- `ReadCache::record_relational_bypass`. -/
def recordRelationalBypass : CachedProgram Unit :=
  modify fun cw => { cw with cache := { cw.cache with
    metrics := { cw.cache.metrics with relationalBypasses := cw.cache.metrics.relationalBypasses + 1 } } }

/-- A read behind the cache: what is found under its key and can be decoded, or what the database says. -/
def throughCache (key : String) (decode : Json → Option α) (encode : α → Json) (read : Program α) :
    CachedProgram α := do
  let generation ← loadGeneration
  match (← cacheGet env key).bind decode with
  | some a => return a
  | none => do
    let a ← onClient env read
    setIfGeneration env key (encode a) generation
    return a

/-! ## Cached values -/

/-- The fields of a JSON object. -/
def asObject? : Json → Option Record
  | .object fields => some fields
  | _ => none

def encodeRecords (records : List Record) : Json :=
  .array (records.map .object)

/-- `serde_json::from_value` of a list of records. -/
def decodeRecords : Json → Option (List Record)
  | .array values => values.mapM asObject?
  | _ => none

def encodeRecord : Option Record → Json
  | some record => .object record
  | none => .null

/-- `serde_json::from_value` of an optional record. -/
def decodeRecord : Json → Option (Option Record)
  | .null => some none
  | .object fields => some (some fields)
  | _ => none

def encodeCount (n : Int64) : Json :=
  .number (.ofInt n.toInt)

/-- `Value::as_i64`. -/
def decodeCount : Json → Option Int64
  | .number n => n.asI64?
  | _ => none

/-! ## Reads without includes -/

/-- `find_many` without includes. -/
def findManyPlain (modelName : String) (clauses : List WhereClause) (orderBy : List (String × OrderDirection))
    (limit offset : Option Nat) : CachedProgram (List Record) := do
  onClient env (check (validateWhereClauses clauses))
  throughCache env (manyKey env scope modelName clauses orderBy limit offset []) decodeRecords encodeRecords
    (Client.findMany env.client scope modelName clauses orderBy limit offset)

/-- `find_unique` without includes. -/
def findUniquePlain (modelName : String) (clauses : List WhereClause) : CachedProgram (Option Record) := do
  onClient env (check (validateWhereClauses clauses))
  throughCache env (uniqueKey env scope modelName clauses []) decodeRecord encodeRecord
    (Client.findUnique env.client scope modelName clauses)

/-- `AtomoClient::count`. -/
def count (modelName : String) (clauses : List WhereClause) : CachedProgram Int64 := do
  onClient env (check (validateWhereClauses clauses))
  throughCache env (countKey env scope modelName clauses) decodeCount encodeCount
    (Client.count env.client scope modelName clauses)

/-! ## Includes -/

/-- `if let Ok(..)`. -/
def attempt (x : CachedProgram α) : CachedProgram (Option α) := fun cw =>
  match x cw with
  | .ok a cw' => .ok (some a) cw'
  | .error _ cw' => .ok none cw'

/-- `HashMap::insert`. -/
def setField (field : String) (value : Json) (record : Record) : Record :=
  if record.any (·.1 = field) then record.map fun entry => if entry.1 = field then (field, value) else entry
  else record ++ [(field, value)]

/-- `capitalize`. -/
def capitalize (s : String) : String :=
  match s.toList with
  | [] => ""
  | c :: rest => .ofList (env.client.casing.toUppercase c ++ rest)

/-- The record that another one names by its id becomes a field of that. -/
def includeOne (model id rel : String) (record : Record) : CachedProgram Record := do
  match ← attempt (findUniquePlain env scope model [⟨"id", .equals, .string id⟩]) with
  | some (some related) => return setField rel (.object related) record
  | _ => return record

/-- The records that name another one by its id become a field of that. -/
def includeMany (model foreignKey id rel : String) (record : Record) : CachedProgram Record := do
  match ← attempt (findManyPlain env scope model [⟨foreignKey, .equals, .string id⟩] [] none none) with
  | some related => return setField rel (encodeRecords related) record
  | none => return record

/-- `record.get(&fk_snake).or_else(|| record.get(&fk))`. -/
def foreignId (foreignKey : String) (record : Record) : Option Json :=
  (lookup? (toSnakeCase env.client.casing foreignKey) record).or (lookup? foreignKey record)

/-- A relationship that the model declares. -/
def includeDeclared (modelName rel : String) (relationship : Relationship) (record : Record) : CachedProgram Record :=
  if relationship.kind = "belongsTo" then
    match foreignId env (relationship.foreignKey.getD (rel ++ "Id")) record with
    | some (.string id) => includeOne env scope relationship.model id rel record
    | _ => pure record
  else
    match lookup? "id" record with
    | some (.string id) =>
      let foreignKey := (relationship.foreignKey.map (toSnakeCase env.client.casing)).getD
        (toSnakeCase env.client.casing modelName ++ "_id")
      includeMany env scope relationship.model foreignKey id rel record
    | _ => pure record

/-- A relationship by its name alone. -/
def includeByName (modelName rel : String) (record : Record) : CachedProgram Record :=
  match foreignId env (rel ++ "Id") record with
  | some (.string id) => includeOne env scope (capitalize env rel) id rel record
  | some _ => pure record
  | none =>
    match lookup? "id" record with
    | some (.string id) =>
      let related := capitalize env rel
      let singular := if related.toList.getLast? = some 's' then String.ofList related.toList.dropLast else related
      let queried := if (env.client.schema.model? singular).isSome then singular else related
      includeMany env scope queried (toSnakeCase env.client.casing modelName ++ "_id") id rel record
    | _ => pure record

def includeRelation (modelName : String) (record : Record) (rel : String) : CachedProgram Record :=
  match (env.client.schema.model? modelName).bind fun model => lookup? rel model.relationships with
  | some relationship => includeDeclared env scope modelName rel relationship record
  | none => includeByName env scope modelName rel record

/-- `resolve_includes`. -/
def resolveIncludes (modelName : String) (includes : List String) (record : Record) : CachedProgram Record :=
  if (env.client.schema.model? modelName).isSome then includes.foldlM (includeRelation env scope modelName) record
  else pure record

/-! ## The reads -/

/-- `AtomoClient::find_many`. -/
def findMany (modelName : String) (clauses : List WhereClause) (orderBy : List (String × OrderDirection))
    (limit offset : Option Nat) (includes : List String) : CachedProgram (List Record) :=
  if includes.isEmpty then findManyPlain env scope modelName clauses orderBy limit offset
  else do
    onClient env (check (validateWhereClauses clauses))
    recordRelationalBypass
    let records ← onClient env (Client.findMany env.client scope modelName clauses orderBy limit offset)
    records.mapM (resolveIncludes env scope modelName includes)

/-- `AtomoClient::find_unique`. -/
def findUnique (modelName : String) (clauses : List WhereClause) (includes : List String) :
    CachedProgram (Option Record) :=
  if includes.isEmpty then findUniquePlain env scope modelName clauses
  else do
    onClient env (check (validateWhereClauses clauses))
    recordRelationalBypass
    match ← onClient env (Client.findUnique env.client scope modelName clauses) with
    | some record => return some (← resolveIncludes env scope modelName includes record)
    | none => return none

/-- `AtomoClient::find_deleted`. -/
def findDeleted (modelName : String) (clauses : List WhereClause) (orderBy : List (String × OrderDirection))
    (limit offset : Option Nat) : CachedProgram (List Record) :=
  onClient env (Client.findDeleted env.client scope modelName clauses orderBy limit offset)

/-- `AtomoClient::count_deleted`. -/
def countDeleted (modelName : String) (clauses : List WhereClause) : CachedProgram Int64 :=
  onClient env (Client.countDeleted env.client scope modelName clauses)

end Atomo.Client.Cached

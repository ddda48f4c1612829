import Atomo.Dsl.Scan
import Atomo.GraphQL.Filters

/-!
# Public reads

`public_records`: the anonymous reads of the models that the operator lists, with the filters that it sets for a
model. The entries of the filter value become one keyed object, so that an entry without a colon is passed over and of
two entries that name one field the later is taken. Every row that is returned has the values of the other entries
(`stays_inside`).
-/

namespace Atomo.GraphQL

open Dsl (trim)
open Schema (lookup? splitAt)
open Query (WhereClause parseWhere tableName)
open Db (Row Tables)
open Client (Env Scope World Record)

/-! ## The configuration -/

/-- `str::split_once` at a character. -/
def splitOnce (sep : Char) (text : List Char) : Option (List Char × List Char) :=
  match text.dropWhile (· ≠ sep) with
  | [] => none
  | _ :: rest => some (text.takeWhile (· ≠ sep), rest)

/-- The field and the value of an entry. -/
def parsePair (pair : List Char) : Option (String × String) := do
  let (field, value) ← splitOnce ':' (trim pair)
  if trim field = [] then none else some (.ofList (trim field), .ofList (trim value))

/-- `parse_public_read_filters`. -/
def parsePublicReadFilters (config : String) : List (String × String) :=
  (splitAt ',' config.toList).filterMap parsePair

/-- `parse_public_read_fields`, also the reading of `ATOMO_PUBLIC_READ_MODELS`. -/
def parsePublicReadFields (config : String) : List String :=
  (((splitAt ',' config.toList).map trim).filter (· ≠ [])).map .ofList

structure Redirect where
  toSlug : String
  permanent : Bool

/-- The environment of the process, where a variable that is not set is empty, the redirects, and the encoding of a
query parameter. -/
structure PublicReads where
  models : String
  filter : String → String
  fields : String → String
  redirect : String → String → Option Redirect
  encode : String → String

/-! ## The request -/

/-- `{ "equals": value }`. -/
def equalsValue (value : String) : Json :=
  .object [("equals", .string value)]

/-- The entry of a field that a client may filter on, if it does. -/
def insertParam (params : List (String × String)) (map : Record) (field : String) : Record :=
  match lookup? field params with
  | some value => insertKey field (equalsValue value) map
  | none => map

def insertFixed (map : Record) (fixed : String × String) : Record :=
  insertKey fixed.1 (equalsValue fixed.2) map

/-- `build_public_where`. -/
def buildPublicWhere (fixed : List (String × String)) (allowedFields : List String) (params : List (String × String)) :
    Record :=
  fixed.foldl insertFixed (allowedFields.foldl (insertParam params) [])

/-- `model_declares_public_read`. -/
def modelDeclaresPublicRead (schema : Atomo.Schema) (modelName : String) : Bool :=
  ((schema.model? modelName).bind (·.access)).bind (·.read) = some (.boolean "public")

/-- The number that some decimal digits write. -/
def decimal? (digits : List Char) : Option Nat :=
  if digits ≠ [] ∧ digits.all Char.isDigit then
    some (digits.foldl (fun n c => 10 * n + (c.toNat - '0'.toNat)) 0)
  else none

def int32? (i : Int) : Option Int32 :=
  if -2 ^ 31 ≤ i ∧ i < 2 ^ 31 then some (.ofInt i) else none

/-- `str::parse::<i32>`. -/
def parseInt32 (text : String) : Option Int32 :=
  match text.toList with
  | '-' :: digits => (decimal? digits).bind fun n => int32? (-n)
  | '+' :: digits => (decimal? digits).bind fun n => int32? n
  | digits => (decimal? digits).bind fun n => int32? n

/-- `Ord::clamp`. -/
def clamp (low high i : Int32) : Int32 :=
  if i < low then low else if high < i then high else i

def publicLimit (params : List (String × String)) : Int32 :=
  clamp 1 100 (((lookup? "limit" params).bind parseInt32).getD 100)

inductive PublicError where
  | notFound
  | forbidden
  deriving DecidableEq

inductive PublicResponse where
  | items (records : List Record)
  | redirect (permanent : Bool) (location : String)

/-- The answer to a request whose query has no result: a redirect of the slug, if there is one. -/
def emptyResponse (config : PublicReads) (modelName : String) (params : List (String × String)) : PublicResponse :=
  match (lookup? "slug" params).bind (config.redirect modelName) with
  | none => .items []
  | some redirect =>
    let target := params.map fun entry => if entry.1 = "slug" then (entry.1, redirect.toSlug) else entry
    let query := "&".intercalate (target.map fun entry => entry.1 ++ "=" ++ config.encode entry.2)
    .redirect redirect.permanent ("/public/records/" ++ modelName ++ "?" ++ query)

/-- The `where` of a request. -/
def publicWhere (config : PublicReads) (modelName : String) (params : List (String × String)) : Json :=
  .object (buildPublicWhere (parsePublicReadFilters (config.filter modelName))
    (parsePublicReadFields (config.fields modelName)) params)

/-- `public_records`. -/
def publicRecords (env : Env) (scope : Scope) (config : PublicReads) (modelName : String)
    (params : List (String × String)) : EStateM PublicError World PublicResponse := do
  if modelName ∈ parsePublicReadFields config.models ∧ modelDeclaresPublicRead env.schema modelName then
    let records ← withError (fun _ => .forbidden) (ServiceQuery.records env scope {} modelName
      (some (publicWhere config modelName params)) none (some (publicLimit params)) none)
    if records = [] then return emptyResponse config modelName params
    else return .items records
  else throw .notFound

/-! ## What the filter value states -/

/-- The entries of a filter value that are not blank. -/
def entries (config : String) : List (List Char) :=
  (splitAt ',' config.toList).filter fun entry => trim entry ≠ []

variable (env : Env) (scope : Scope)

/-- The row has a value in a field. -/
def FieldHas (row : Row) (field value : String) : Prop :=
  row.get (toSnakeCase env.casing field) ≠ .null ∧ Db.castText env.pg (row.get (toSnakeCase env.casing field)) = value

/-- The row has the value of the entry in the entry's field. An entry of another form states nothing that could
hold. -/
def EntryHolds (row : Row) (entry : List Char) : Prop :=
  ∃ field value, parsePair entry = some (field, value) ∧ FieldHas env row field value

/-- An entry has the value for the field, and no later one names the field. -/
def Binds (config field value : String) : Prop :=
  ∃ before after, parsePublicReadFilters config = before ++ (field, value) :: after ∧ field ∉ after.map Prod.fst

/-- Every entry of the value is of the form `field:value`, and none names a field that another one names. -/
def Specified (config : String) : Prop :=
  (∀ entry ∈ entries config, (parsePair entry).isSome) ∧ ((parsePublicReadFilters config).map Prod.fst).Nodup

/-- The clauses of a request, and that the row is not deleted. -/
def publicClauses (config : PublicReads) (modelName : String) (params : List (String × String)) : List WhereClause :=
  parseWhere (publicWhere config modelName params) ++ [Query.SqlBuilder.notDeleted]

/-- What a request answers, given what is in the tables: records of a model that is listed and declares public reads,
of rows that are not deleted, that keep to what the operator demands of a row, and that the request without parameters
is about; and at most a hundred. -/
structure Answers (demand : Row → Prop) (config : PublicReads) (modelName : String) (tables : Tables)
    (records : List Record) : Prop where
  listed : modelName ∈ parsePublicReadFields config.models
  declared : modelDeclaresPublicRead env.schema modelName = true
  short : records.length ≤ 100
  rows : ∃ model, ∃ rows : List Row, env.schema.model? modelName = some model ∧
    records = rows.map (fun row =>
      camelKeys env.casing (Db.rowToMap env.pg (tables (tableName env.casing model)).columnNames row)) ∧
    ∀ row ∈ rows, row ∈ (tables (tableName env.casing model)).rows ∧ row.get "deleted_at" = .null ∧ demand row ∧
      matchesRow env scope (tableName env.casing model) (publicClauses config modelName []) row = true

/-- Every row that is returned has the value of each entry that binds. -/
def Inside (config : PublicReads) (modelName : String) : Tables → List Record → Prop :=
  Answers env scope (fun row => ∀ field value, Binds (config.filter modelName) field value → FieldHas env row field value)
    config modelName

/-- Every row that is returned has the value of each entry that is not blank, and a filter value that is not specified
is refused. -/
def AsStated (config : PublicReads) (modelName : String) (tables : Tables) (records : List Record) : Prop :=
  Specified (config.filter modelName) ∧
    Answers env scope (fun row => ∀ entry ∈ entries (config.filter modelName), EntryHolds env row entry) config modelName
      tables records

/-! ## The keyed object -/

section

variable {key key' : String} {value value' : Json} {map map' : Record} {fixed : List (String × String)}

theorem mem_insertKey_self (key : String) (value : Json) (map : Record) : (key, value) ∈ insertKey key value map := by
  induction map with
  | nil => exact List.mem_singleton_self _
  | cons entry map ih =>
    unfold insertKey
    split
    · exact List.mem_cons_self ..
    · exact List.mem_cons_of_mem _ ih

/-- The entries under other keys stay. -/
theorem mem_insertKey_of_ne (hkey : key' ≠ key) (h : (key', value') ∈ map) : (key', value') ∈ insertKey key value map := by
  induction map with
  | nil => cases h
  | cons entry map ih =>
    unfold insertKey
    cases h with
    | head => rw [if_neg hkey]; exact List.mem_cons_self ..
    | tail _ h =>
      split
      · exact List.mem_cons_of_mem _ h
      · exact List.mem_cons_of_mem _ (ih h)

theorem keys_insertKey (key : String) (value : Json) (map : Record) :
    (insertKey key value map).map Prod.fst =
      if key ∈ map.map Prod.fst then map.map Prod.fst else map.map Prod.fst ++ [key] := by
  induction map with
  | nil => rfl
  | cons entry map ih =>
    unfold insertKey
    by_cases hkey : entry.1 = key
    · rw [if_pos hkey, if_pos (by simp [hkey])]
      simp [hkey]
    · have hother : key ∈ (entry :: map).map Prod.fst ↔ key ∈ map.map Prod.fst := by simp [Ne.symm hkey]
      rw [if_neg hkey, List.map_cons, ih]
      simp only [hother]
      split <;> rfl

theorem nodup_insertKey (h : (map.map Prod.fst).Nodup) : ((insertKey key value map).map Prod.fst).Nodup := by
  rw [keys_insertKey]
  split
  · exact h
  · rename_i hnew
    exact List.nodup_append.2 ⟨h, List.nodup_singleton _, fun a ha b hb hsame =>
      hnew (List.mem_singleton.1 hb ▸ hsame ▸ ha)⟩

/-- In a map, an entry is the one that was put in, or an older one under another key. -/
theorem mem_insertKey (h : (map.map Prod.fst).Nodup) (hmem : (key', value') ∈ insertKey key value map) :
    (key', value') = (key, value) ∨ key' ≠ key ∧ (key', value') ∈ map := by
  induction map with
  | nil => exact .inl (List.mem_singleton.1 hmem)
  | cons entry map ih =>
    rw [List.map_cons, List.nodup_cons] at h
    unfold insertKey at hmem
    split at hmem
    · rename_i hentry
      cases hmem with
      | head => exact .inl rfl
      | tail _ hold =>
        refine .inr ⟨fun hkey => h.1 ?_, List.mem_cons_of_mem _ hold⟩
        exact List.mem_map.2 ⟨_, hold, hkey.trans hentry.symm⟩
    · rename_i hentry
      cases hmem with
      | head => exact .inr ⟨hentry, List.mem_cons_self ..⟩
      | tail _ hold =>
        cases ih h.2 hold with
        | inl hnew => exact .inl hnew
        | inr hold => exact .inr ⟨hold.1, List.mem_cons_of_mem _ hold.2⟩

/-- What fixed filters make of a smaller map is part of what they make of a larger one. -/
theorem insertFixed_subset (hmap : (map.map Prod.fst).Nodup) (h : map ⊆ map') :
    fixed.foldl insertFixed map ⊆ fixed.foldl insertFixed map' := by
  induction fixed generalizing map map' with
  | nil => exact h
  | cons pair fixed ih =>
    refine ih (nodup_insertKey hmap) ?_
    rintro ⟨key, value⟩ hmem
    cases mem_insertKey hmap hmem with
    | inl hnew => exact hnew ▸ mem_insertKey_self _ _ _
    | inr hold => exact mem_insertKey_of_ne hold.1 (h hold.2)

theorem mem_insertFixed_of_not_mem (hkey : key ∉ fixed.map Prod.fst) (h : (key, value) ∈ map) :
    (key, value) ∈ fixed.foldl insertFixed map := by
  induction fixed generalizing map with
  | nil => exact h
  | cons pair fixed ih =>
    rw [List.map_cons, List.mem_cons, not_or] at hkey
    exact ih hkey.2 (mem_insertKey_of_ne hkey.1 h)

/-- A fixed filter whose field no later one names is in the object. -/
theorem mem_insertFixed {before after : List (String × String)} {field value : String}
    (h : field ∉ after.map Prod.fst) :
    (field, equalsValue value) ∈ (before ++ (field, value) :: after).foldl insertFixed map := by
  rw [List.foldl_append, List.foldl_cons]
  exact mem_insertFixed_of_not_mem h (mem_insertKey_self _ _ _)

theorem insertParams_nil (allowedFields : List String) (map : Record) :
    allowedFields.foldl (insertParam []) map = map := by
  induction allowedFields with
  | nil => rfl
  | cons field allowedFields ih => exact ih

/-- Parameters add to the object, and take nothing from it. -/
theorem buildPublicWhere_subset (fixed : List (String × String)) (allowedFields : List String)
    (params : List (String × String)) :
    buildPublicWhere fixed allowedFields [] ⊆ buildPublicWhere fixed allowedFields params := by
  unfold buildPublicWhere
  rw [insertParams_nil]
  exact insertFixed_subset List.nodup_nil (List.nil_subset _)

end

/-! ## The rows -/

variable {env scope} {config : PublicReads} {modelName : String} {params : List (String × String)} {row : Row}
  {tables : Tables} {records : List Record}

theorem parseWhere_subset {map map' : Record} (h : map ⊆ map') :
    parseWhere (.object map) ⊆ parseWhere (.object map') := by
  intro clause hclause
  obtain ⟨entry, hentry, hparsed⟩ := List.mem_flatMap.1 hclause
  exact List.mem_flatMap.2 ⟨entry, h hentry, hparsed⟩

theorem mem_parseWhere {map : Record} {field value : String} (h : (field, equalsValue value) ∈ map) :
    ⟨field, .equals, .string value⟩ ∈ parseWhere (.object map) :=
  List.mem_flatMap.2 ⟨_, h, List.mem_singleton_self _⟩

/-- Every row that a request is about is one that the request without parameters is about. -/
theorem matches_narrowed {name : String}
    (h : matchesRow env scope name (publicClauses config modelName params) row = true) :
    matchesRow env scope name (publicClauses config modelName []) row = true := by
  unfold matchesRow Db.matching at h ⊢
  rw [Bool.and_eq_true, List.all_eq_true] at h ⊢
  refine ⟨h.1, fun clause hclause => h.2 clause ?_⟩
  unfold publicClauses at hclause ⊢
  rw [List.mem_append] at hclause ⊢
  exact hclause.imp (fun hmem => parseWhere_subset (buildPublicWhere_subset _ _ params) hmem) id

theorem equals_holds {field value : String}
    (h : (⟨field, .equals, .string value⟩ : WhereClause).holds env.pg env.casing row = true) :
    FieldHas env row field value := by
  unfold WhereClause.holds Query.WhereOperator.holds at h
  unfold FieldHas
  dsimp only at h
  generalize row.get (toSnakeCase env.casing field) = stored at h ⊢
  cases stored with
  | null => cases h
  | _ => exact ⟨nofun, of_decide_eq_true h⟩

/-- The entries that bind hold of the rows that a request is about. -/
theorem fieldHas_of_clauses
    (h : (publicClauses config modelName params).all (WhereClause.holds env.pg env.casing row) = true)
    {field value : String} (hbinds : Binds (config.filter modelName) field value) : FieldHas env row field value := by
  obtain ⟨before, after, hparsed, hlast⟩ := hbinds
  have hmem : (field, equalsValue value) ∈ buildPublicWhere (parsePublicReadFilters (config.filter modelName))
      (parsePublicReadFields (config.fields modelName)) params := by
    unfold buildPublicWhere
    rw [hparsed]
    exact mem_insertFixed hlast
  exact equals_holds (List.all_eq_true.1 h _ (List.mem_append_left _ (mem_parseWhere hmem)))

theorem notDeleted_of_clauses
    (h : (publicClauses config modelName params).all (WhereClause.holds env.pg env.casing row) = true) :
    row.get "deleted_at" = .null := by
  have hclause := List.all_eq_true.1 h Query.SqlBuilder.notDeleted
    (List.mem_append_right _ (List.mem_singleton_self _))
  have hnull : row.get (toSnakeCase env.casing "deleted_at") = .null := of_decide_eq_true hclause
  rwa [toSnakeCase_deleted_at] at hnull

theorem publicLimit_bounds (params : List (String × String)) :
    1 ≤ asUsize (publicLimit params) ∧ asUsize (publicLimit params) ≤ 100 := by
  have hbounds : 1 ≤ (publicLimit params).toInt ∧ (publicLimit params).toInt ≤ 100 := by
    unfold publicLimit clamp
    split
    · decide
    · rename_i hlow
      split
      · decide
      · rename_i hhigh
        rw [Int32.lt_iff_toInt_lt, Int.not_lt] at hlow hhigh
        exact ⟨hlow, hhigh⟩
  unfold asUsize
  omega

/-- A request that is answered has found its records, and where there are none the slug may be redirected. -/
theorem publicRecords_ends (w : World) :
    Ends (publicRecords env scope config modelName params) w
      (fun response w' => modelName ∈ parsePublicReadFields config.models ∧
        modelDeclaresPublicRead env.schema modelName = true ∧
        ∃ records, Finds env scope modelName (publicClauses config modelName params)
          (some (asUsize (publicLimit params))) none (camelKeys env.casing) w w' records ∧
          response = if records = [] then emptyResponse config modelName params else .items records)
      (fun _ _ => True) := by
  unfold publicRecords
  split
  · rename_i hlisted
    have hrecords : Ends (withError (fun _ => PublicError.forbidden) (ServiceQuery.records env scope {} modelName
        (some (publicWhere config modelName params)) none (some (publicLimit params)) none)) w
        (fun records w' => Finds env scope modelName (publicClauses config modelName params)
          (some (asUsize (publicLimit params))) none (camelKeys env.casing) w w' records) (fun _ _ => True) :=
      (records_ends none (some (publicLimit params)) none).mapError fun _ _ _ => trivial
    refine hrecords.bind fun found w' hfinds => ?_
    split
    · rename_i hnone
      exact Ends.pure ⟨hlisted.1, hlisted.2, found, hfinds, (if_pos hnone).symm⟩
    · rename_i hsome
      exact Ends.pure ⟨hlisted.1, hlisted.2, found, hfinds, (if_neg hsome).symm⟩
  · exact Ends.throw trivial

theorem items_of_emptyResponse (h : emptyResponse config modelName params = .items records) : records = [] := by
  unfold emptyResponse at h
  split at h
  · cases h
    rfl
  · cases h

theorem publicRecords_inside {w w' : World}
    (hrun : publicRecords env scope config modelName params w = .ok (.items records) w') :
    Inside env scope config modelName w.store.tables records := by
  obtain ⟨hlisted, hdeclared, found, ⟨model, rows, hmodel, ⟨order, hselected⟩, hfound, -⟩, hresponse⟩ :=
    (publicRecords_ends w).ok hrun
  have hrecords : records = found := by
    split at hresponse
    · rename_i hnone
      rw [hnone]
      exact items_of_emptyResponse hresponse.symm
    · cases hresponse
      rfl
  rw [← hrecords] at hfound
  refine ⟨hlisted, hdeclared, ?_, model, rows, hmodel, hfound, fun row hrow => ?_⟩
  · rw [hfound, List.length_map, hselected]
    exact (List.length_take_le ..).trans (publicLimit_bounds params).2
  · obtain ⟨hmem, hclauses⟩ := hselected.mem hrow
    rw [hselected] at hrow
    have hmatched := (env.pg.sort_perm _ _).mem_iff.1 (Db.page_subset hrow)
    exact ⟨hmem, notDeleted_of_clauses hclauses, fun field value => fieldHas_of_clauses hclauses,
      matches_narrowed (List.mem_filter.1 hmatched).2⟩

/-- A request keeps to the approvals of the model and to every entry that binds, whatever the filter value, the fields
and the parameters are, and parameters only narrow it. -/
theorem stays_inside (env : Env) (scope : Scope) (config : PublicReads) (modelName : String)
    (params : List (String × String)) (w w' : World) (records : List Record)
    (hrun : publicRecords env scope config modelName params w = .ok (.items records) w') :
    Inside env scope config modelName w.store.tables records :=
  publicRecords_inside hrun

/-! ## Two rows -/

/-- A model that anyone may read. -/
def publicModel : Schema.Model where
  name := "Note"
  access := some { create := none, read := some (.boolean "public"), update := none, delete := none }

def publicSchema : Atomo.Schema where
  models := [("Note", publicModel)]

/-- A deployment that lists the model, with a value of the filter and of the fields. -/
def publicReads (filter fields : String) : PublicReads where
  models := "Note"
  filter _ := filter
  fields _ := fields
  redirect _ _ := none
  encode := id

/-- A draft and a published note. -/
def publicWorld : World where
  store := {
    tables := fun _ => {
      columns := [("id", .text), ("status", .text), ("deleted_at", .timestamptz)]
      primaryKey := some "id"
      rows := [[("id", .text "n1"), ("status", .text "draft"), ("deleted_at", .null)],
        [("id", .text "n2"), ("status", .text "published"), ("deleted_at", .null)]] }
    eventLog := []
    coverage := fun _ => none }
  tick := 0
  trace := []

/-- The records that are shown to a request for the notes. -/
def shownCount (filter : String) (n : Nat) : Bool :=
  endsOk (publicRecords (.bare publicSchema) {} (publicReads filter "status") "Note" [("status", "draft")]) publicWorld
    fun response _ => match response with
      | .items records => records.length = n
      | .redirect _ _ => false

theorem exists_of_shownCount {filter : String} {n : Nat} (h : shownCount filter n = true) :
    ∃ records w', publicRecords (.bare publicSchema) {} (publicReads filter "status") "Note" [("status", "draft")]
      publicWorld = .ok (.items records) w' ∧ records.length = n := by
  obtain ⟨response, w', hrun, hcount⟩ := exists_of_endsOk h
  cases response with
  | redirect permanent location => cases hcount
  | items records => exact ⟨records, w', hrun, of_decide_eq_true hcount⟩

/-- Who asks for the drafts is shown the published note. -/
theorem stays_inside_published : ∃ records : List Record, records.length = 1 ∧
    Inside (.bare publicSchema) {} (publicReads "status:published" "status") "Note" publicWorld.store.tables records := by
  have hshown : shownCount "status:published" 1 = true := by decide
  obtain ⟨records, w', hrun, hone⟩ := exists_of_shownCount hshown
  exact ⟨records, hone, stays_inside _ _ _ _ _ _ w' records hrun⟩

/-! ## A value that is not specified -/

theorem parseWhere_equals {map : Record} (h : ∀ entry ∈ map, ∃ value, entry.2 = equalsValue value) :
    ∀ clause ∈ parseWhere (.object map), clause.operator = .equals := by
  intro clause hclause
  obtain ⟨entry, hentry, hparsed⟩ := List.mem_flatMap.1 hclause
  obtain ⟨value, hvalue⟩ := h entry hentry
  dsimp only at hparsed
  rw [hvalue] at hparsed
  rw [List.mem_singleton.1 hparsed]

/-- An entry that is put in keeps the keys apart and the values of the form of the others. -/
theorem insertKey_equals {map : Record} {field value : String} (hmap : (map.map Prod.fst).Nodup)
    (h : ∀ entry ∈ map, ∃ value, entry.2 = equalsValue value) :
    ∀ entry ∈ insertKey field (equalsValue value) map, ∃ value, entry.2 = equalsValue value := by
  rintro ⟨key, stored⟩ hmem
  cases mem_insertKey hmap hmem with
  | inl hnew =>
    cases hnew
    exact ⟨value, rfl⟩
  | inr hold => exact h _ hold.2

theorem fixed_equals {map : Record} {fixed : List (String × String)} (hmap : (map.map Prod.fst).Nodup)
    (h : ∀ entry ∈ map, ∃ value, entry.2 = equalsValue value) :
    ∀ entry ∈ fixed.foldl insertFixed map, ∃ value, entry.2 = equalsValue value := by
  induction fixed generalizing map with
  | nil => exact h
  | cons pair fixed ih => exact ih (nodup_insertKey hmap) (insertKey_equals hmap h)

theorem params_equals {map : Record} {fixed : List (String × String)} {allowedFields : List String}
    {params : List (String × String)} (hmap : (map.map Prod.fst).Nodup)
    (h : ∀ entry ∈ map, ∃ value, entry.2 = equalsValue value) :
    ∀ entry ∈ fixed.foldl insertFixed (allowedFields.foldl (insertParam params) map),
      ∃ value, entry.2 = equalsValue value := by
  induction allowedFields generalizing map with
  | nil => exact fixed_equals hmap h
  | cons field allowedFields ih =>
    rw [List.foldl_cons]
    cases hvalue : lookup? field params with
    | none =>
      have hkept : insertParam params map field = map := by simp only [insertParam, hvalue]
      rw [hkept]
      exact ih hmap h
    | some value =>
      have hput : insertParam params map field = insertKey field (equalsValue value) map := by
        simp only [insertParam, hvalue]
      rw [hput]
      exact ih (nodup_insertKey hmap) (insertKey_equals hmap h)

/-- A table without rows that has the columns of some clauses. -/
def blankWorld (clauses : List WhereClause) : World where
  store := {
    tables := fun _ => {
      columns := clauses.map fun clause => (toSnakeCase .ascii clause.field, .text)
      primaryKey := none
      rows := [] }
    eventLog := []
    coverage := fun _ => none }
  tick := 0
  trace := []

/-- Whatever its filter, a model that is listed can be asked for and is answered. -/
theorem answered {config : PublicReads} {params : List (String × String)} {w : World}
    (hlisted : "Note" ∈ parsePublicReadFields config.models)
    (hw : w.store.tables = (blankWorld (publicClauses config "Note" params)).store.tables) :
    ∃ w', publicRecords (.bare publicSchema) {} config "Note" params w = .ok (emptyResponse config "Note" params) w' := by
  have hequals : ∀ clause ∈ parseWhere (publicWhere config "Note" params), clause.operator = .equals :=
    parseWhere_equals (params_equals List.nodup_nil nofun)
  have hlimit : Db.boundsHold (some (asUsize (publicLimit params))) none = true := by
    have hshort := (publicLimit_bounds params).2
    simp only [Db.boundsHold, Option.all_some, Option.all_none, Bool.and_true, decide_eq_true_eq]
    omega
  have hnames : ∀ clause ∈ parseWhere (publicWhere config "Note" params) ++ [Query.SqlBuilder.notDeleted],
      toSnakeCase .ascii clause.field ∈ (w.store.tables (Query.tableName .ascii publicModel)).columnNames := by
    intro clause hclause
    rw [hw]
    unfold Db.Table.columnNames blankWorld
    dsimp only
    rw [List.map_map]
    exact List.mem_map_of_mem hclause
  have hrows : (w.store.tables (Query.tableName .ascii publicModel)).rows = [] := by
    rw [hw]
    rfl
  have hmodel : publicSchema.model? "Note" = some publicModel := rfl
  obtain ⟨w', hfind⟩ : ∃ w', Client.findMany (.bare publicSchema) {} "Note" (parseWhere (publicWhere config "Note" params)) []
      (some (asUsize (publicLimit params))) none w = .ok [] w' := by
    simpa [hrows, Db.page] using Client.findMany_bare hmodel hequals hlimit hnames
  have hrecords : ServiceQuery.records (.bare publicSchema) {} {} "Note" (some (publicWhere config "Note" params)) none
      (some (publicLimit params)) none w = .ok [] w' :=
    (bind_of_ok (a := ()) rfl).trans (bind_of_ok (withError_of_ok hfind))
  refine ⟨w', ?_⟩
  unfold publicRecords
  rw [if_pos ⟨hlisted, rfl⟩]
  exact bind_of_ok (withError_of_ok hrecords)

/-- With the filter `status=published`, who asks for the drafts is shown them. -/
theorem draft_shown : ¬∀ env scope config modelName params w w' records,
    publicRecords env scope config modelName params w = .ok (.items records) w' →
    AsStated env scope config modelName w.store.tables records := by
  intro h
  have hshown : shownCount "status=published" 1 = true := by decide
  obtain ⟨records, w', hrun, hone⟩ := exists_of_shownCount hshown
  obtain ⟨model, rows, -, hrecords, hrows⟩ := (h _ _ _ _ _ _ w' records hrun).2.rows
  rw [hrecords] at hone
  cases rows with
  | nil => cases hone
  | cons row rows =>
    obtain ⟨-, -, hentries, -⟩ := hrows row (List.mem_cons_self ..)
    have hentry : "status=published".toList ∈ entries "status=published" := by decide
    obtain ⟨field, value, hpair, -⟩ := hentries _ hentry
    cases hpair

end Atomo.GraphQL

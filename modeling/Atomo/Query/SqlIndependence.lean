import Atomo.Query.SqlRequests

/-!
# The text of a statement is independent of the contents of strings

Two requests that differ in nothing but the contents of string values, nested ones included, are built
into the same syntax tree; together with what the statement says, no value takes part in its text.
-/

namespace Atomo

mutual

/-- A JSON value with every string value in it made empty. -/
def Json.blank : Json → Json
  | .string _ => .string ""
  | .array xs => .array (Json.blankList xs)
  | .object fields => .object (Json.blankFields fields)
  | v => v

def Json.blankList : List Json → List Json
  | [] => []
  | v :: vs => v.blank :: Json.blankList vs

def Json.blankFields : List (String × Json) → List (String × Json)
  | [] => []
  | (key, v) :: fields => (key, v.blank) :: Json.blankFields fields

end

namespace Json

@[simp] theorem isNull_blank (v : Json) : v.blank.isNull = v.isNull := by
  cases v <;> simp [blank, isNull]

@[simp] theorem isString_blank (v : Json) : v.blank.isString = v.isString := by
  cases v <;> simp [blank, isString]

theorem blankFields_eq_map (fields : List (String × Json)) :
    blankFields fields = fields.map fun entry => (entry.1, entry.2.blank) := by
  induction fields with
  | nil => rfl
  | cons entry fields ih => rw [blankFields, ih, List.map_cons]

end Json

namespace Query

open Schema (Model lookup?)

variable (cc : CharCase)

def WhereClause.blank (clause : WhereClause) : WhereClause :=
  { clause with value := clause.value.blank }

/-- A request with the contents of every string value blotted out. -/
def Request.blank : Request → Request
  | .select clauses orderBy limit offset => .select (clauses.map WhereClause.blank) orderBy limit offset
  | .selectOne clauses => .selectOne (clauses.map WhereClause.blank)
  | .selectActive clauses orderBy limit offset =>
    .selectActive (clauses.map WhereClause.blank) orderBy limit offset
  | .selectDeleted clauses orderBy limit offset =>
    .selectDeleted (clauses.map WhereClause.blank) orderBy limit offset
  | .count clauses => .count (clauses.map WhereClause.blank)
  | .countDeleted clauses => .countDeleted (clauses.map WhereClause.blank)
  | .insert data => .insert (Json.blankFields data)
  | .insertMany records => .insertMany (records.map Json.blankFields)
  | .update clauses data => .update (clauses.map WhereClause.blank) (Json.blankFields data)
  | .delete clauses => .delete (clauses.map WhereClause.blank)
  | .softDelete clauses => .softDelete (clauses.map WhereClause.blank)
  | .restore clauses => .restore (clauses.map WhereClause.blank)

/-! ## Conditions -/

theorem whereMembers_blank (column : String) (op : Comparison) (values : List Json) (idx : Nat) :
    (whereMembers column op (Json.blankList values) idx).1 = (whereMembers column op values idx).1 ∧
      (whereMembers column op (Json.blankList values) idx).2.2 = (whereMembers column op values idx).2.2 := by
  induction values generalizing idx with
  | nil => exact ⟨rfl, rfl⟩
  | cons value values ih =>
    by_cases hnull : value.isNull = true
    · simp [whereMembers, Json.blankList, hnull, ih]
    · simp [whereMembers, Json.blankList, hnull, ih]

theorem whereClause_blank (clause : WhereClause) (idx : Nat) :
    (whereClause cc clause.blank idx).1 = (whereClause cc clause idx).1 ∧
      (whereClause cc clause.blank idx).2.2 = (whereClause cc clause idx).2.2 := by
  obtain ⟨field, operator, value⟩ := clause
  have hmembers := fun op v values => whereMembers_blank (toSnakeCase cc field) op (v :: values) idx
  cases operator with
  | isIn =>
    cases value with
    | array values =>
      cases values with
      | nil => exact ⟨rfl, rfl⟩
      | cons v values =>
        exact ⟨congrArg (Condition.group false) (hmembers .eq v values).1, (hmembers .eq v values).2⟩
    | _ => exact ⟨rfl, rfl⟩
  | notIn =>
    cases value with
    | array values =>
      cases values with
      | nil => exact ⟨rfl, rfl⟩
      | cons v values =>
        exact ⟨congrArg (Condition.group true) (hmembers .ne v values).1, (hmembers .ne v values).2⟩
    | _ => exact ⟨rfl, rfl⟩
  | _ => simp [whereClause, WhereClause.blank]

theorem whereClauses_blank (clauses : List WhereClause) (idx : Nat) :
    (whereClauses cc (clauses.map WhereClause.blank) idx).1 = (whereClauses cc clauses idx).1 := by
  induction clauses generalizing idx with
  | nil => rfl
  | cons clause clauses ih =>
    obtain ⟨hcondition, hnext⟩ := whereClause_blank cc clause idx
    have hrest := ih (whereClause cc clause idx).2.2
    rw [← hnext] at hrest
    rw [List.map_cons, whereClauses, whereClauses]
    simp only [hcondition, hnext] at hrest ⊢
    rw [hrest]

theorem buildWhere_blank (clauses : List WhereClause) (paramOffset : Nat) :
    (buildWhere cc (clauses.map WhereClause.blank) paramOffset).1 = (buildWhere cc clauses paramOffset).1 :=
  whereClauses_blank cc clauses (paramOffset + 1)

/-! ## Written values -/

theorem writeValue_blank (model : Model) (key : String) (value : Json) {ps qs : List Json}
    (hlength : ps.length = qs.length) :
    (writeValue model key value.blank ps).1 = (writeValue model key value qs).1 ∧
      (writeValue model key value.blank ps).2.length = (writeValue model key value qs).2.length := by
  by_cases hnull : value.isNull = true
  · simp [writeValue, hnull, hlength]
  · simp [writeValue, hnull, hlength]

theorem writeValues_blank (model : Model) (data : List (String × Json)) {ps qs : List Json}
    (hlength : ps.length = qs.length) :
    (writeValues model (Json.blankFields data) ps).1 = (writeValues model data qs).1 ∧
      (writeValues model (Json.blankFields data) ps).2.length = (writeValues model data qs).2.length := by
  induction data generalizing ps qs with
  | nil => exact ⟨rfl, hlength⟩
  | cons entry data ih =>
    obtain ⟨hwritten, hparams⟩ := writeValue_blank model entry.1 entry.2 hlength
    obtain ⟨hrest, hlast⟩ := ih hparams
    simp only [Json.blankFields, writeValues, hwritten, hrest]
    exact ⟨trivial, hlast⟩

/-- Nothing is bound before the first value. -/
theorem writeValues_blank_nil (model : Model) (data : List (String × Json)) :
    (writeValues model (Json.blankFields data) []).1 = (writeValues model data []).1 ∧
      (writeValues model (Json.blankFields data) []).2.length = (writeValues model data []).2.length :=
  writeValues_blank model data rfl

theorem keys_blank (data : List (String × Json)) :
    (Json.blankFields data).map Prod.fst = data.map Prod.fst := by
  rw [Json.blankFields_eq_map, List.map_map]
  rfl

theorem lookup?_blank (key : String) (record : List (String × Json)) :
    lookup? key (Json.blankFields record) = (lookup? key record).map Json.blank := by
  rw [Json.blankFields_eq_map, lookup?, lookup?, List.find?_map, Option.map_map, Option.map_map]
  rfl

theorem batchRow_blank (keys : List String) (record : List (String × Json)) :
    batchRow keys (Json.blankFields record) = Json.blankFields (batchRow keys record) := by
  rw [Json.blankFields_eq_map (batchRow keys record), batchRow, batchRow, List.map_map]
  refine List.map_congr_left fun key _ => ?_
  simp only [Function.comp_apply, lookup?_blank]
  cases lookup? key record <;> rfl

theorem homogeneous_blank (keys : List String) (record : List (String × Json)) :
    SqlBuilder.homogeneous keys (Json.blankFields record) = SqlBuilder.homogeneous keys record := by
  have hlength : (Json.blankFields record).length = record.length := by
    rw [Json.blankFields_eq_map, List.length_map]
  simp [SqlBuilder.homogeneous, lookup?_blank, hlength]

theorem insertRows_blank (model : Model) (keys : List String) (records : List (List (String × Json)))
    {ps qs : List Json} (hlength : ps.length = qs.length) :
    (SqlBuilder.insertRows model keys (records.map Json.blankFields) ps).1 =
      (SqlBuilder.insertRows model keys records qs).1 := by
  induction records generalizing ps qs with
  | nil => rfl
  | cons record records ih =>
    obtain ⟨htuple, hparams⟩ := writeValues_blank model (batchRow keys record) hlength
    rw [← batchRow_blank] at htuple hparams
    simp only [batchRow] at htuple hparams
    simp only [List.map_cons, SqlBuilder.insertRows, htuple, ih hparams]

/-! ## Statements -/

theorem insertMany_blank (model : Model) (records : List (List (String × Json))) :
    (SqlBuilder.insertMany cc model (records.map Json.blankFields)).map Prod.fst =
      (SqlBuilder.insertMany cc model records).map Prod.fst := by
  cases records with
  | nil => rfl
  | cons first records =>
    have hall : ∀ keys, ((first :: records).map Json.blankFields).all (SqlBuilder.homogeneous keys) =
        (first :: records).all (SqlBuilder.homogeneous keys) := fun keys => by
      rw [List.all_map]
      exact congrArg _ (funext fun record => homogeneous_blank keys record)
    have hlength : ([] : List Json).length = ([] : List Json).length := rfl
    have hrows := fun keys => insertRows_blank model keys (first :: records) hlength
    simp only [List.map_cons] at hall hrows
    simp only [List.map_cons, SqlBuilder.insertMany, keys_blank, hall, List.length_cons, List.length_map]
    split
    · rfl
    · split
      · rfl
      · split
        · rfl
        · simp only [Option.map_some, hrows]

theorem select_blank (model : Model) (clauses : List WhereClause)
    (orderBy : List (String × OrderDirection)) (limit offset : Option Nat) :
    (SqlBuilder.select cc model (clauses.map WhereClause.blank) orderBy limit offset).1 =
      (SqlBuilder.select cc model clauses orderBy limit offset).1 := by
  simp only [SqlBuilder.select, buildWhere_blank]

/-- The last clause of a query for active or deleted rows has no string in it. -/
theorem map_blank_append {clause : WhereClause} (h : clause.blank = clause) (clauses : List WhereClause) :
    clauses.map WhereClause.blank ++ [clause] = (clauses ++ [clause]).map WhereClause.blank := by
  rw [List.map_append, List.map_singleton, h]

theorem countWith_blank (model : Model) {deletion : WhereClause} (h : deletion.blank = deletion)
    (clauses : List WhereClause) :
    (SqlBuilder.countWith cc model deletion (clauses.map WhereClause.blank)).1 =
      (SqlBuilder.countWith cc model deletion clauses).1 := by
  simp only [SqlBuilder.countWith, map_blank_append h, buildWhere_blank]

theorem update_blank (model : Model) (clauses : List WhereClause) (data : List (String × Json)) :
    (SqlBuilder.update cc model (clauses.map WhereClause.blank) (Json.blankFields data)).1 =
      (SqlBuilder.update cc model clauses data).1 := by
  obtain ⟨hwritten, hparams⟩ := writeValues_blank_nil model data
  have hcolumns : (Json.blankFields data).map (fun entry => toSnakeCase cc entry.1) =
      data.map fun entry => toSnakeCase cc entry.1 := by
    rw [Json.blankFields_eq_map, List.map_map]
    rfl
  simp only [SqlBuilder.update, hwritten, hparams, hcolumns, buildWhere_blank]

/-- The syntax tree of the statement does not depend on the contents of strings. -/
theorem Request.build_blank (model : Model) (request : Request) :
    (request.blank.build cc model).map Prod.fst = (request.build cc model).map Prod.fst := by
  cases request with
  | select clauses orderBy limit offset => exact congrArg some (select_blank cc model clauses orderBy limit offset)
  | selectOne clauses => exact congrArg some (select_blank cc model clauses [] (some 1) none)
  | selectActive clauses orderBy limit offset =>
    refine congrArg some (Eq.trans ?_ (select_blank cc model _ orderBy limit offset))
    rw [← map_blank_append rfl]
    rfl
  | selectDeleted clauses orderBy limit offset =>
    refine congrArg some (Eq.trans ?_ (select_blank cc model _ orderBy limit offset))
    rw [← map_blank_append rfl]
    rfl
  | count clauses => exact congrArg some (countWith_blank cc model rfl clauses)
  | countDeleted clauses => exact congrArg some (countWith_blank cc model rfl clauses)
  | insert data =>
    obtain ⟨hwritten, -⟩ := writeValues_blank_nil model data
    have hcolumns : (Json.blankFields data).map (fun entry => toSnakeCase cc entry.1) =
        data.map fun entry => toSnakeCase cc entry.1 := by
      rw [Json.blankFields_eq_map, List.map_map]
      rfl
    simp only [Request.blank, Request.build, SqlBuilder.insert, hwritten, hcolumns, Option.map_some]
  | insertMany records => exact insertMany_blank cc model records
  | update clauses data => exact congrArg some (update_blank cc model clauses data)
  | delete clauses =>
    simp only [Request.blank, Request.build, SqlBuilder.delete, buildWhere_blank, Option.map_some]
  | softDelete clauses =>
    simp only [Request.blank, Request.build, SqlBuilder.softDelete, buildWhere_blank, Option.map_some]
  | restore clauses =>
    simp only [Request.blank, Request.build, SqlBuilder.restore, buildWhere_blank, Option.map_some]

/-- The text of a built statement reads as the lexemes of the request: its placeholders are `$1` to `$n`
for the `n` parameters, each in the place of its value, and names stand in delimited identifiers only.
Requests that differ in the contents of strings have the same text. -/
theorem Request.text_independent (model : Model) (request : Request) {statement : Statement}
    {params : List Json} (h : request.build cc model = some (statement, params)) :
    (∃ toks, Sql.lex statement.sql = some toks ∧
        Sql.placeholders toks = List.range' 1 params.length ∧
        toks.map (Sql.Token.bind params) = request.lexemes cc model) ∧
      ∀ other : Request, other.blank = request.blank →
        (other.build cc model).map (fun built => built.1.sql) = some statement.sql := by
  constructor
  · have hsays := request.says cc model h
    have hbinds := hsays.binds [] [] rfl
    rw [List.nil_append, List.append_nil] at hbinds
    exact ⟨statement.tokens, statement.reads.lex, hsays.placeholders, hbinds⟩
  · intro other hother
    have hblank := other.build_blank cc model
    rw [hother, request.build_blank, h] at hblank
    have hsql := congrArg (Option.map Statement.sql) hblank.symm
    rw [Option.map_map] at hsql
    exact hsql

/-- An update whose field name carries a quotation mark. -/
theorem Request.text_independent_quoted : ∃ statement params,
    (Request.update [⟨"o\"r", .equals, .string "x"⟩] [("title", .string "it's")]).build .ascii
        { name := "Post", fields := [] } = some (statement, params) ∧
      ∃ toks, Sql.lex statement.sql = some toks ∧ Sql.placeholders toks = List.range' 1 params.length :=
  have htext := Request.text_independent .ascii { name := "Post", fields := [] }
    (.update [⟨"o\"r", .equals, .string "x"⟩] [("title", .string "it's")]) rfl
  have ⟨toks, hlex, hplaceholders, _⟩ := htext.1
  ⟨_, _, rfl, toks, hlex, hplaceholders⟩

end Query

end Atomo

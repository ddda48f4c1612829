import Atomo.Data.Casing
import Atomo.Query.Where
import Atomo.Schema.Model
import Mathlib.Data.List.Sort

/-!
# The SQL builder

`SqlBuilder` and the counting queries of the client. A statement is built as a syntax tree together
with its bound parameters; `Statement.sql` is its text, piece for piece as the builder formats it.
Placeholder numbers are threaded by hand, as in the source: a clause returns the index that the next
one starts from.
-/

namespace Atomo.Query

open Schema (Model Field FieldType lookup?)

variable (cc : CharCase)

/-! ## Statements -/

inductive Comparison where
  | eq
  | ne
  | gt
  | ge
  | lt
  | le
  deriving DecidableEq

/-- A member of an `in` or `notIn` list: a comparison with a parameter, or with NULL. -/
inductive Member where
  | compare (column : String) (asText : Bool) (op : Comparison) (param : Nat)
  | null (column : String) (op : Comparison)
  deriving DecidableEq

/-- One part of a `WHERE`. The text of `like` is wild before or after its parameter. -/
inductive Condition where
  | compare (column : String) (asText : Bool) (op : Comparison) (param : Nat)
  | like (column : String) (before after : Bool) (param : Nat)
  | constant (value : Bool)
  | group (conjunctive : Bool) (members : List Member)
  | isNull (column : String)
  | isNotNull (column : String)
  deriving DecidableEq

/-- A written value. -/
inductive Written where
  | null
  | now
  | param (n : Nat) (asTimestamp : Bool)
  deriving DecidableEq

inductive Returning where
  | all
  | id
  deriving DecidableEq

inductive Statement where
  | select (counting : Bool) (table : String) (conditions : List Condition)
      (orderBy : List (String × OrderDirection)) (limit offset : Option Nat)
  | insert (table : String) (columns : List String) (rows : List (List Written))
  | update (table : String) (sets : List (String × Written)) (conditions : List Condition)
      (returning : Returning)
  | delete (table : String) (conditions : List Condition)
  deriving DecidableEq

/-! ## Their text -/

/-- `quote_ident`. -/
def quoteIdent (ident : String) : String :=
  "\"" ++ .ofList (ident.toList.flatMap fun c => if c = '"' then ['"', '"'] else [c]) ++ "\""

def Comparison.sql : Comparison → String
  | .eq => "="
  | .ne => "!="
  | .gt => ">"
  | .ge => ">="
  | .lt => "<"
  | .le => "<="

def castSql (asText : Bool) : String :=
  if asText then "::text" else ""

def placeholder (n : Nat) : String :=
  "$" ++ n.repr

def Member.sql : Member → String
  | .compare column asText op param =>
    quoteIdent column ++ castSql asText ++ " " ++ op.sql ++ " " ++ placeholder param
  | .null column op => quoteIdent column ++ " " ++ op.sql ++ " NULL"

def Condition.sql : Condition → String
  | .compare column asText op param =>
    quoteIdent column ++ castSql asText ++ " " ++ op.sql ++ " " ++ placeholder param
  | .like column before after param =>
    quoteIdent column ++ " ILIKE " ++ (if before then "'%' || " else "") ++ placeholder param ++
      (if after then " || '%'" else "")
  | .constant value => if value then "TRUE" else "FALSE"
  | .group conjunctive members =>
    "(" ++ (if conjunctive then " AND " else " OR ").intercalate (members.map Member.sql) ++ ")"
  | .isNull column => quoteIdent column ++ " IS NULL"
  | .isNotNull column => quoteIdent column ++ " IS NOT NULL"

def Written.sql : Written → String
  | .null => "NULL"
  | .now => "NOW()"
  | .param n asTimestamp => placeholder n ++ (if asTimestamp then "::timestamptz" else "")

/-- ` WHERE ` and the conditions, if there are any. -/
def whereSql (conditions : List Condition) : String :=
  if conditions = [] then "" else " WHERE " ++ " AND ".intercalate (conditions.map Condition.sql)

def OrderDirection.sql : OrderDirection → String
  | .asc => "ASC"
  | .desc => "DESC"

def orderSql (orderBy : List (String × OrderDirection)) : String :=
  if orderBy = [] then ""
  else " ORDER BY " ++ ", ".intercalate (orderBy.map fun (column, dir) => quoteIdent column ++ " " ++ dir.sql)

def boundSql (keyword : String) : Option Nat → String
  | some n => keyword ++ n.repr
  | none => ""

def Returning.sql : Returning → String
  | .all => " RETURNING *"
  | .id => " RETURNING \"id\""

def tupleSql (row : List Written) : String :=
  "(" ++ ", ".intercalate (row.map Written.sql) ++ ")"

def setSql (set : String × Written) : String :=
  quoteIdent set.1 ++ " = " ++ set.2.sql

def selectSql (counting : Bool) : String :=
  if counting then "SELECT COUNT(*) as count FROM " else "SELECT * FROM "

def Statement.sql : Statement → String
  | .select counting table conditions orderBy limit offset =>
    selectSql counting ++ quoteIdent table ++ whereSql conditions ++ orderSql orderBy ++
      boundSql " LIMIT " limit ++ boundSql " OFFSET " offset
  | .insert table columns rows =>
    "INSERT INTO " ++ quoteIdent table ++ " (" ++ ", ".intercalate (columns.map quoteIdent) ++
      ") VALUES " ++ ", ".intercalate (rows.map tupleSql) ++ Returning.all.sql
  | .update table sets conditions returning =>
    "UPDATE " ++ quoteIdent table ++ " SET " ++ ", ".intercalate (sets.map setSql) ++
      whereSql conditions ++ returning.sql
  | .delete table conditions => "DELETE FROM " ++ quoteIdent table ++ whereSql conditions ++ Returning.id.sql

/-! ## Building them -/

/-- `table_name`. -/
def tableName (model : Model) : String :=
  model.tableName.getD (toSnakeCase cc model.name ++ "s")

/-- `write_value`: NULL is written out, any other value is bound. -/
def writeValue (model : Model) (key : String) (value : Json) (params : List Json) :
    Written × List Json :=
  if value.isNull then
    (.null, params)
  else
    let params := params ++ [value]
    let isDatetime := ((lookup? key model.fields).map (·.fieldType)) = some .dateTime
    (.param params.length isDatetime, params)

/-- The loop of the writing statements over the entries of an object. -/
def writeValues (model : Model) : List (String × Json) → List Json → List Written × List Json
  | [], params => ([], params)
  | (key, val) :: data, params =>
    let (written, params) := writeValue model key val params
    let (rest, params) := writeValues model data params
    (written :: rest, params)

/-- The members of an `in` or `notIn` list from placeholder `idx` on, with the values bound and the next
index. -/
def whereMembers (column : String) (op : Comparison) : List Json → Nat → List Member × List Json × Nat
  | [], idx => ([], [], idx)
  | value :: values, idx =>
    if value.isNull then
      let (members, params, next) := whereMembers column op values idx
      (.null column op :: members, params, next)
    else
      let (members, params, next) := whereMembers column op values (idx + 1)
      (.compare column value.isString op idx :: members, value :: params, next)

/-- One clause of `build_where`: its part, the values it binds and the next placeholder index. -/
def whereClause (clause : WhereClause) (idx : Nat) : Condition × List Json × Nat :=
  let column := toSnakeCase cc clause.field
  match clause.operator with
  | .equals => (.compare column clause.value.isString .eq idx, [clause.value], idx + 1)
  | .notEquals => (.compare column clause.value.isString .ne idx, [clause.value], idx + 1)
  | .contains => (.like column true true idx, [clause.value], idx + 1)
  | .startsWith => (.like column false true idx, [clause.value], idx + 1)
  | .endsWith => (.like column true false idx, [clause.value], idx + 1)
  | .greaterThan => (.compare column false .gt idx, [clause.value], idx + 1)
  | .greaterThanOrEqual => (.compare column false .ge idx, [clause.value], idx + 1)
  | .lessThan => (.compare column false .lt idx, [clause.value], idx + 1)
  | .lessThanOrEqual => (.compare column false .le idx, [clause.value], idx + 1)
  | .isIn | .notIn =>
    let negated := clause.operator = .notIn
    match clause.value.asArray? with
    | none => (.constant false, [], idx)
    | some [] => (.constant negated, [], idx)
    | some values =>
      let (members, params, next) := whereMembers column (if negated then .ne else .eq) values idx
      (.group negated members, params, next)
  | .isNull => (.isNull column, [], idx)
  | .isNotNull => (.isNotNull column, [], idx)

/-- The loop of `build_where`. -/
def whereClauses : List WhereClause → Nat → List Condition × List Json
  | [], _ => ([], [])
  | clause :: clauses, idx =>
    let (condition, params, next) := whereClause cc clause idx
    let (conditions, rest) := whereClauses clauses next
    (condition :: conditions, params ++ rest)

/-- `build_where`. -/
def buildWhere (clauses : List WhereClause) (paramOffset : Nat) : List Condition × List Json :=
  whereClauses cc clauses (paramOffset + 1)

namespace SqlBuilder

variable (model : Model)

/-- The columns that `select` orders by. -/
def validColumns : List String :=
  (model.fields.map fun entry => toSnakeCase cc entry.2.name) ++
    ["created_at", "updated_at", "deleted_at", "tenant_id"]

/-- The part of `order_by` on columns that the model has. -/
def validOrder (orderBy : List (String × OrderDirection)) : List (String × OrderDirection) :=
  (orderBy.filter fun order => toSnakeCase cc order.1 ∈ validColumns cc model).map fun order =>
    (toSnakeCase cc order.1, order.2)

def select (clauses : List WhereClause) (orderBy : List (String × OrderDirection))
    (limit offset : Option Nat) : Statement × List Json :=
  let (conditions, params) := buildWhere cc clauses 0
  (.select false (tableName cc model) conditions (validOrder cc model orderBy) limit offset, params)

def selectOne (clauses : List WhereClause) : Statement × List Json :=
  select cc model clauses [] (some 1) none

def insert (data : List (String × Json)) : Statement × List Json :=
  let (placeholders, params) := writeValues model data []
  (.insert (tableName cc model) (data.map fun entry => toSnakeCase cc entry.1) [placeholders], params)

/-- The loop of `insert_many` over the records, each in the order of `cols`. -/
def insertRows (cols : List String) : List (List (String × Json)) → List Json →
    List (List Written) × List Json
  | [], params => ([], params)
  | record :: records, params =>
    let (tuple, params) := writeValues model (cols.map fun col => (col, (lookup? col record).getD .null)) params
    let (tuples, params) := insertRows cols records params
    (tuple :: tuples, params)

/-- The record has exactly these keys. -/
def homogeneous (cols : List String) (record : List (String × Json)) : Bool :=
  record.length = cols.length && cols.all fun col => (lookup? col record).isSome

def insertMany (records : List (List (String × Json))) : Option (Statement × List Json) :=
  match records with
  | [] => none
  | first :: _ =>
    let cols := (first.map Prod.fst).insertionSort (· ≤ ·)
    if cols.length = 0 then none
    else if !records.all (homogeneous cols) then none
    else if records.length * cols.length > 60000 then none
    else
      let (tuples, params) := insertRows model cols records []
      some (.insert (tableName cc model) (cols.map (toSnakeCase cc)) tuples, params)

/-- The statement of a batch, where there is one. -/
theorem insertMany_eq {records : List (List (String × Json))} {built : Statement × List Json}
    (h : insertMany cc model records = some built) :
    ∃ columns tuples params, built = (.insert (tableName cc model) columns tuples, params) := by
  cases records with
  | nil => cases h
  | cons first rest =>
    simp only [insertMany, Option.ite_none_left_eq_some, Option.some.injEq] at h
    obtain ⟨-, -, -, rfl⟩ := h
    exact ⟨_, _, _, rfl⟩

def update (clauses : List WhereClause) (data : List (String × Json)) : Statement × List Json :=
  let (written, params) := writeValues model data []
  let (conditions, whereParams) := buildWhere cc clauses params.length
  (.update (tableName cc model) ((data.map fun entry => toSnakeCase cc entry.1).zip written) conditions .all,
    params ++ whereParams)

def delete (clauses : List WhereClause) : Statement × List Json :=
  let (conditions, params) := buildWhere cc clauses 0
  (.delete (tableName cc model) conditions, params)

def softDelete (clauses : List WhereClause) : Statement × List Json :=
  let (conditions, params) := buildWhere cc clauses 0
  (.update (tableName cc model) [("deleted_at", .now)] conditions .id, params)

def restore (clauses : List WhereClause) : Statement × List Json :=
  let (conditions, params) := buildWhere cc clauses 0
  (.update (tableName cc model) [("deleted_at", .null)] conditions .id, params)

/-- The clause that keeps to the rows that are not deleted. -/
def notDeleted : WhereClause :=
  ⟨"deleted_at", .isNull, .null⟩

/-- The clause that keeps to the rows that are deleted. -/
def isDeleted : WhereClause :=
  ⟨"deleted_at", .isNotNull, .null⟩

def selectActive (clauses : List WhereClause) (orderBy : List (String × OrderDirection))
    (limit offset : Option Nat) : Statement × List Json :=
  select cc model (clauses ++ [notDeleted]) orderBy limit offset

def selectDeleted (clauses : List WhereClause) (orderBy : List (String × OrderDirection))
    (limit offset : Option Nat) : Statement × List Json :=
  select cc model (clauses ++ [isDeleted]) orderBy limit offset

/-- The statement of the client's `count` and `count_deleted`, whose last clause is `deletion`. -/
def countWith (deletion : WhereClause) (clauses : List WhereClause) : Statement × List Json :=
  let (conditions, params) := buildWhere cc (clauses ++ [deletion]) 0
  (.select true (tableName cc model) conditions [] none none, params)

def count (clauses : List WhereClause) : Statement × List Json :=
  countWith cc model notDeleted clauses

def countDeleted (clauses : List WhereClause) : Statement × List Json :=
  countWith cc model isDeleted clauses

end SqlBuilder

end Atomo.Query

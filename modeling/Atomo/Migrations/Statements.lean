import Atomo.Migrations.Checks

/-!
# The statements of `generate_migrations`

A statement is built as a syntax tree; `Ddl.sql` is its text. A name stands between apostrophes as it is
where a guard compares it, and quoted by `quote_ident` where it is defined; the schema parsers read names
as `\w+` or `[^'"]+`, so none has an apostrophe.
-/

namespace Atomo.Migrations

open Schema (Field FieldType FieldAttribute Model ModelConstraint Relationship lookup?)
open Query (quoteIdent tableName)
open Db (ColumnType fieldTypeToSql)

/-- A column as a statement declares it; what follows its type is `clauses`. -/
structure ColumnDef where
  name : String
  type : String
  clauses : String := ""
  primary : Bool := false
  deriving DecidableEq

inductive ConstraintBody where
  | foreignKey (column target : String)
  | check (expr : String)
  deriving DecidableEq

inductive Ddl where
  /-- `CREATE TABLE IF NOT EXISTS`. -/
  | createTable (table : String) (columns : List ColumnDef)
  /-- `ALTER TABLE … ADD COLUMN IF NOT EXISTS`. -/
  | addColumn (table : String) (column : ColumnDef)
  /-- A required column without a default: looked up by its name, and added to an empty table only. -/
  | requireColumn (table : String) (column : ColumnDef)
  /-- `CREATE [UNIQUE] INDEX IF NOT EXISTS`. -/
  | createIndex (unique : Bool) (name table : String) (columns : List String) (predicate : Option String)
  /-- `ALTER TABLE … ADD CONSTRAINT`, unless `pg_constraint` has the name. -/
  | addConstraint (name table : String) (body : ConstraintBody)
  deriving DecidableEq

def ColumnDef.sql (c : ColumnDef) : String :=
  quoteIdent c.name ++ " " ++ c.type ++ c.clauses

def ConstraintBody.sql : ConstraintBody → String
  | .foreignKey column target =>
    "FOREIGN KEY (" ++ quoteIdent column ++ ") REFERENCES " ++ quoteIdent target ++ "(\"id\")"
  | .check expr => "CHECK (" ++ expr ++ ")"

def Ddl.sql : Ddl → String
  | .createTable table columns =>
    "CREATE TABLE IF NOT EXISTS " ++ quoteIdent table ++ " (\n" ++
      ",\n".intercalate (columns.map fun c => "  " ++ c.sql) ++ "\n);"
  | .addColumn table column =>
    "ALTER TABLE " ++ quoteIdent table ++ " ADD COLUMN IF NOT EXISTS " ++ column.sql ++ ";"
  | .requireColumn table column =>
    "DO $$ BEGIN IF NOT EXISTS (SELECT 1 FROM information_schema.columns WHERE table_schema = current_schema() " ++
      "AND table_name = '" ++ table ++ "' AND column_name = '" ++ column.name ++ "') THEN " ++
      "IF EXISTS (SELECT 1 FROM " ++ quoteIdent table ++ " LIMIT 1) THEN " ++
      "RAISE EXCEPTION 'atomo: cannot add required column " ++ table ++ "." ++ column.name ++
      " with no default to a populated table; declare a .default(...) on the field, or write an explicit " ++
      "backfill migration (add it nullable, backfill, then SET NOT NULL)'; ELSE " ++
      "ALTER TABLE " ++ quoteIdent table ++ " ADD COLUMN " ++ column.sql ++ "; END IF; END IF; END $$;"
  | .createIndex unique name table columns predicate =>
    "CREATE " ++ (if unique then "UNIQUE INDEX" else "INDEX") ++ " IF NOT EXISTS " ++ quoteIdent name ++ " ON " ++
      quoteIdent table ++ " (" ++ ", ".intercalate (columns.map quoteIdent) ++ ")" ++
      (match predicate with
        | some p => " WHERE " ++ p
        | none => "") ++ ";"
  | .addConstraint name table body =>
    "DO $$ BEGIN IF NOT EXISTS (SELECT 1 FROM pg_constraint WHERE conname = '" ++ name ++ "') THEN ALTER TABLE " ++
      quoteIdent table ++ " ADD CONSTRAINT " ++ quoteIdent name ++ " " ++ body.sql ++ "; END IF; END $$;"

/-- The same statement; a table may declare its columns in another order. -/
inductive Ddl.Same : Ddl → Ddl → Prop
  | refl (st : Ddl) : Same st st
  | createTable {table : String} {columns columns' : List ColumnDef} (h : columns.Perm columns') :
      Same (.createTable table columns) (.createTable table columns')

/-! ## Columns -/

def typeSql : ColumnType → String
  | .text => "TEXT"
  | .bigint => "BIGINT"
  | .boolean => "BOOLEAN"
  | .date => "DATE"
  | .timestamptz => "TIMESTAMPTZ"
  | .jsonb => "JSONB"

/-- `default_literal`. -/
def defaultLiteral (value : String) : FieldType → String
  | .number | .boolean => value
  | _ => "'" ++ .ofList (value.toList.flatMap fun c => if c = '\'' then ['\'', '\''] else [c]) ++ "'"

variable (cc : CharCase)

/-- `column_default_clause`. -/
def columnDefaultClause (field : Field) : String :=
  let declared := field.attributes.findSome? fun
    | .default value => some value
    | _ => none
  match declared with
  | some value => " DEFAULT " ++ defaultLiteral value field.fieldType
  | none =>
    match field.fieldType with
    | .dateTime =>
      if toSnakeCase cc field.name = "created_at" ∨ toSnakeCase cc field.name = "updated_at" then " DEFAULT NOW()"
      else ""
    | .array _ | .blocks => " DEFAULT '[]'::jsonb"
    | _ => ""

def isPrimary (field : Field) : Bool :=
  field.name = "id" || .primary ∈ field.attributes

/-- The column of a field that is not a primary key. -/
def fieldColumn (field : Field) : ColumnDef :=
  { name := toSnakeCase cc field.name
    type := typeSql (fieldTypeToSql field.fieldType)
    clauses := columnDefaultClause cc field ++ if field.optional then "" else " NOT NULL" }

def declaredColumn (field : Field) : ColumnDef :=
  if isPrimary field then
    { name := toSnakeCase cc field.name
      type := "TEXT"
      clauses := " PRIMARY KEY DEFAULT gen_random_uuid()::text"
      primary := true }
  else fieldColumn cc field

/-- The columns that every table has. -/
def platformColumns : List ColumnDef :=
  [{ name := "created_at", type := "TIMESTAMPTZ", clauses := " NOT NULL DEFAULT NOW()" },
    { name := "updated_at", type := "TIMESTAMPTZ", clauses := " NOT NULL DEFAULT NOW()" },
    { name := "deleted_at", type := "TIMESTAMPTZ" }, { name := "tenant_id", type := "TEXT" }]

def tableColumns (model : Model) : List ColumnDef :=
  let declared := model.fields.map fun (_, field) => declaredColumn cc field
  declared ++ platformColumns.filter fun c => c.name ∉ declared.map ColumnDef.name

/-! ## The statements of a model -/

/-- The statement that adds the column of a field to a table of an older schema. -/
def forwardField (table : String) (field : Field) : Ddl :=
  if field.optional ∨ columnDefaultClause cc field ≠ "" then .addColumn table (fieldColumn cc field)
  else .requireColumn table (fieldColumn cc field)

/-- The columns of the fields with an attribute, primary keys apart. -/
def attributeColumns (attr : FieldAttribute) (model : Model) : List String :=
  model.fields.filterMap fun (_, field) =>
    if ¬isPrimary field ∧ attr ∈ field.attributes then some (toSnakeCase cc field.name) else none

/-- The index of `@@unique` or `@@index`; its name joins the columns with underscores. -/
def constraintIndex (unique : Bool) (table : String) (columns : List String) (predicate : Option String) : Ddl :=
  let snake := columns.map (toSnakeCase cc)
  .createIndex unique ((if unique then "uq_" else "idx_") ++ table ++ "_" ++ "_".intercalate snake) table snake predicate

/-- `push_constraint_migrations` of the constraint at a position. -/
def constraintStatement (table : String) (n : Nat) : ModelConstraint → Ddl
  | .unique columns => constraintIndex cc true table columns none
  | .index columns => constraintIndex cc false table columns none
  | .uniqueWhere columns predicate => constraintIndex cc true table columns (some predicate)
  | .indexWhere columns predicate => constraintIndex cc false table columns (some predicate)
  | .check expr => .addConstraint ("chk_" ++ table ++ "_" ++ n.repr) table (.check expr)

def modelStatements (model : Model) : List Ddl :=
  let table := tableName cc model
  .createTable table (tableColumns cc model) ::
    ((model.fields.filter fun (_, field) => !isPrimary field).map fun (_, field) => forwardField cc table field) ++
    [.addColumn table { name := "deleted_at", type := "TIMESTAMPTZ" },
      .addColumn table { name := "tenant_id", type := "TEXT" }] ++
    ((attributeColumns cc .unique model).map fun col => .createIndex true ("uq_" ++ table ++ "_" ++ col) table [col] none) ++
    ((attributeColumns cc .index model).map fun col => .createIndex false ("idx_" ++ table ++ "_" ++ col) table [col] none) ++
    model.constraints.mapIdx (constraintStatement cc table)

/-! ## The statements after all tables -/

/-- The table of each model by the model's name; of two models of a name the later counts. -/
def targetTable (schema : Schema) (name : String) : Option String :=
  lookup? name (schema.models.map fun (_, model) => (model.name, tableName cc model)).reverse

/-- The column and the target of a relationship that belongs to a model of the schema. -/
def foreignKey (schema : Schema) (model : Model) (relName : String) (rel : Relationship) : Option (String × String) :=
  if rel.kind ≠ "belongsTo" then none
  else
    let fkCol := toSnakeCase cc (rel.foreignKey.getD (relName ++ "Id"))
    match targetTable cc schema rel.model with
    | none => none
    | some target =>
      if model.fields.any fun (key, _) => toSnakeCase cc key = fkCol then some (fkCol, target) else none

def foreignKeyStatements (schema : Schema) (model : Model) : List Ddl :=
  model.relationships.filterMap fun (relName, rel) =>
    (foreignKey cc schema model relName rel).map fun (fkCol, target) =>
      let table := tableName cc model
      .addConstraint ("fk_" ++ table ++ "_" ++ fkCol) table (.foreignKey fkCol target)

/-- `validation_checks` of the fields of a model. -/
def validationStatements (model : Model) : List Ddl :=
  model.validation.flatMap fun (fieldName, rules) =>
    match lookup? fieldName model.fields with
    | none => []
    | some field =>
      (ruleChecks cc fieldName field rules).map fun c =>
        .addConstraint (c.name (tableName cc model)) (tableName cc model) (.check c.fullExpr)

/-- `generate_migrations`. -/
def generateMigrations (schema : Schema) : List Ddl :=
  (schema.models.flatMap fun (_, model) => modelStatements cc model) ++
    (schema.models.flatMap fun (_, model) => foreignKeyStatements cc schema model) ++
    schema.models.flatMap fun (_, model) => validationStatements cc model

def migrationTexts (schema : Schema) : List String :=
  (generateMigrations cc schema).map Ddl.sql

end Atomo.Migrations

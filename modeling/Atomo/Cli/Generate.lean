import Atomo.Migrations.Catalog
import Mathlib.Data.List.AList

/-!
# Generated migrations

`generate_migration_sql` of `migrate.rs`: the models of a schema against the tables of the database, as the text of a
migration file. A model without a table gets one; a table gets the columns that its model has more, and the types and
nullability that it has otherwise. What the model has less is only commented on. Once what is generated has been
executed, the database is as the models have it but for the columns that every new table gets, and after a second time
there is nothing to generate (`generate_converges`).
-/

namespace Atomo.Cli

open Migrations (clip nameBytes)
open Query (quoteIdent)
open Schema (Field FieldType Model)

/-! ## The database -/

/-- A type of a generated column. -/
inductive PgType where
  | text
  | numeric
  | boolean
  | date
  | timestamptz
  | uuid
  | jsonb
  | integer
  deriving DecidableEq

def PgType.sql : PgType → String
  | .text => "TEXT"
  | .numeric => "NUMERIC"
  | .boolean => "BOOLEAN"
  | .date => "DATE"
  | .timestamptz => "TIMESTAMPTZ"
  | .uuid => "UUID"
  | .jsonb => "JSONB"
  | .integer => "INTEGER"

/-- The `data_type` that the information schema shows for it. -/
def PgType.shown : PgType → String
  | .text => "text"
  | .numeric => "numeric"
  | .boolean => "boolean"
  | .date => "date"
  | .timestamptz => "timestamp with time zone"
  | .uuid => "uuid"
  | .jsonb => "jsonb"
  | .integer => "integer"

/-- `field_type_to_pg`; `generate_column_definition` has the same table. -/
def fieldTypeToPg : FieldType → PgType
  | .string => .text
  | .file => .text
  | .number => .numeric
  | .boolean => .boolean
  | .date => .date
  | .dateTime => .timestamptz
  | .entityId => .uuid
  | .json => .jsonb
  | .reference _ => .uuid
  | .array _ => .jsonb
  | .blocks => .jsonb
  | .custom _ => .text

def pgTypeMatches (fieldType : FieldType) (dbType : String) : Bool :=
  let expected :=
    match fieldType with
    | .string => "text"
    | .file => "text"
    | .number => "numeric"
    | .boolean => "boolean"
    | .date => "date"
    | .dateTime => "timestamp with time zone"
    | .entityId => "uuid"
    | .json => "jsonb"
    | .reference _ => "uuid"
    | .array _ => "jsonb"
    | .blocks => "jsonb"
    | .custom _ => "text"
  dbType = expected

/-- A column of the type that a field is given matches the field, and no other does. -/
theorem pgTypeMatches_iff {fieldType : FieldType} {dbType : String} :
    pgTypeMatches fieldType dbType = true ↔ dbType = (fieldTypeToPg fieldType).shown := by
  cases fieldType <;> exact decide_eq_true_iff

/-- A column belongs to a key of any kind where `is_primary_key` is set. -/
structure DatabaseColumn where
  dataType : String
  isNullable : Bool
  isPrimaryKey : Bool
  deriving DecidableEq

/-- `DatabaseTable`, by the names of its columns. -/
abbrev Columns :=
  AList fun _ : String => DatabaseColumn

/-- The base tables of the schema `public`. -/
abbrev Tables :=
  AList fun _ : String => Columns

/-- `get_current_database_schema`, which panics at a table without columns. -/
def getCurrentDatabaseSchema (db : Tables) : Option Tables :=
  let tables := db.erase "__atomo_migrations"
  if tables.entries.all fun entry => !entry.2.entries.isEmpty then some tables else none

/-! ## The statements -/

inductive ColumnClause where
  | nullable
  | notNull
  | notNullDefault (expr : String)
  | primaryKey
  deriving DecidableEq

def ColumnClause.sql : ColumnClause → String
  | .nullable => ""
  | .notNull => " NOT NULL"
  | .notNullDefault expr => " NOT NULL DEFAULT " ++ expr
  | .primaryKey => " PRIMARY KEY DEFAULT gen_random_uuid()"

structure NewColumn where
  name : String
  type : PgType
  clause : ColumnClause
  deriving DecidableEq

inductive Change where
  | createTable (table : String) (columns : List NewColumn)
  | createIndex (name table column : String)
  | alterType (table column : String) (type : PgType)
  | setNotNull (table column : String)
  | dropNotNull (table column : String)
  | addColumn (table : String) (column : NewColumn)
  deriving DecidableEq

def qi (ident : String) : String :=
  quoteIdent ident

def NewColumn.sql (c : NewColumn) : String :=
  qi c.name ++ " " ++ c.type.sql ++ c.clause.sql

def Change.sql : Change → String
  | .createTable table columns =>
    "CREATE TABLE " ++ qi table ++ " (\n" ++ ",\n".intercalate (columns.map fun c => "    " ++ c.sql) ++ "\n);"
  | .createIndex name table column => "CREATE INDEX " ++ qi name ++ " ON " ++ qi table ++ " (\"" ++ column ++ "\");"
  | .alterType table column type =>
    "ALTER TABLE " ++ qi table ++ " ALTER COLUMN " ++ qi column ++ " TYPE " ++ type.sql ++ " USING " ++ qi column ++
      "::" ++ type.sql ++ ";"
  | .setNotNull table column => "ALTER TABLE " ++ qi table ++ " ALTER COLUMN " ++ qi column ++ " SET NOT NULL;"
  | .dropNotNull table column => "ALTER TABLE " ++ qi table ++ " ALTER COLUMN " ++ qi column ++ " DROP NOT NULL;"
  | .addColumn table column => "ALTER TABLE " ++ qi table ++ " ADD COLUMN " ++ column.sql ++ ";"

/-- What the text of a migration is written from: `-- comment`, an empty line, or a statement. -/
inductive Part where
  | comment (text : String)
  | blank
  | change (c : Change)
  deriving DecidableEq

def Part.text : Part → String
  | .comment text => "-- " ++ text ++ "\n"
  | .blank => "\n"
  | .change c => c.sql ++ "\n"

def Part.change? : Part → Option Change
  | .change c => some c
  | _ => none

variable (cc : CharCase) (toLowercase : String → String)

def camelToSnakeCase (input : String) : String :=
  toSnakeCase cc input

/-- `model.name.to_lowercase()`. -/
def modelTable (model : Model) : String :=
  toLowercase model.name

def generateColumnDefinition (fieldName : String) (field : Field) : NewColumn where
  name := camelToSnakeCase cc fieldName
  type := fieldTypeToPg field.fieldType
  clause := if fieldName = "id" then .primaryKey else if field.optional then .nullable else .notNull

/-- The fields that a new table has of its own. -/
def auditFields : List String :=
  ["createdAt", "updatedAt", "version"]

def createdColumns (model : Model) : List NewColumn :=
  (if "id" ∈ model.fields.map Prod.fst then [] else [⟨"id", .uuid, .primaryKey⟩]) ++
    ((model.fields.filter fun f => f.1 ∉ auditFields).map fun f => generateColumnDefinition cc f.1 f.2) ++
    [⟨"created_at", .timestamptz, .notNullDefault "NOW()"⟩, ⟨"updated_at", .timestamptz, .notNullDefault "NOW()"⟩,
      ⟨"version", .integer, .notNullDefault "1"⟩]

/-- `generate_create_table_sql`. -/
def generateCreateTableSql (model : Model) : List Part :=
  let table := modelTable toLowercase model
  [.comment ("Create table for " ++ model.name), .change (.createTable table (createdColumns cc model)),
    .change (.createIndex ("idx_" ++ table ++ "_created_at") table "created_at"),
    .change (.createIndex ("idx_" ++ table ++ "_updated_at") table "updated_at")]

/-- The loop of `generate_table_alterations`, at a field and the column of its name. -/
def fieldChanges (table fieldName : String) (field : Field) : Option DatabaseColumn → List Change
  | some existing =>
    let column := camelToSnakeCase cc fieldName
    (if pgTypeMatches field.fieldType existing.dataType then []
      else [.alterType table column (fieldTypeToPg field.fieldType)]) ++
      if !field.optional && existing.isNullable then [.setNotNull table column]
      else if field.optional && !existing.isNullable && !existing.isPrimaryKey then [.dropNotNull table column]
      else []
  | none => [.addColumn table (generateColumnDefinition cc fieldName field)]

/-- `generate_table_alterations`. -/
def generateTableAlterations (model : Model) (columns : Columns) : List Part :=
  let table := modelTable toLowercase model
  let matched := (model.fields.map fun f => camelToSnakeCase cc f.1).filter (· ∈ columns)
  (model.fields.flatMap fun f =>
    (fieldChanges cc table f.1 f.2 (columns.lookup (camelToSnakeCase cc f.1))).map .change) ++
    (columns.keys.filter (· ∉ matched)).map fun column =>
      .comment ("ALTER TABLE " ++ qi table ++ " DROP COLUMN " ++ qi column ++ "; -- Uncomment to drop")

def isSystemTable (tableName : String) : Bool :=
  tableName = "audit_log" || tableName = "__atomo_migrations"

def modelParts (currentTables : Tables) (model : Model) : List Part :=
  match currentTables.lookup (modelTable toLowercase model) with
  | some columns =>
    let tableChanges := generateTableAlterations cc toLowercase model columns
    if tableChanges = [] then [] else tableChanges ++ [.blank]
  | none => generateCreateTableSql cc toLowercase model ++ [.blank]

/-- `generate_migration_sql`, at a time. -/
def generateMigrationSql (now : String) (models : List Model) (currentTables : Tables) : List Part :=
  [.comment "Auto-generated migration", .comment ("Generated at: " ++ now), .blank] ++
    models.flatMap (modelParts cc toLowercase currentTables) ++
    (currentTables.keys.filter fun table =>
      !(models.any fun model => modelTable toLowercase model = table) && !isSystemTable table).map fun table =>
        .comment ("DROP TABLE IF EXISTS " ++ table ++ "; -- Uncomment to drop unused table")

/-- The text of the file. -/
def migrationText (parts : List Part) : String :=
  String.join (parts.map Part.text)

def changesOf (parts : List Part) : List Change :=
  parts.filterMap Part.change?

/-! ## The server -/

/-- The name that the catalog has for an identifier. -/
def storedName (ident : String) : String :=
  (clip ident).text

def NewColumn.stored (c : NewColumn) : DatabaseColumn where
  dataType := c.type.shown
  isNullable := c.clause = .nullable
  isPrimaryKey := c.clause = .primaryKey

def newTable : List NewColumn → Columns
  | [] => ∅
  | c :: rest => (newTable rest).insert (storedName c.name) c.stored

def columnOf (db : Tables) (t c : String) : Option DatabaseColumn :=
  (db.lookup t).bind fun columns => columns.lookup c

/-- A column that is there is altered. -/
def alterColumn (db : Tables) (table column : String) (f : DatabaseColumn → DatabaseColumn) : Option Tables :=
  (db.lookup (storedName table)).bind fun columns =>
    (columns.lookup (storedName column)).map fun old =>
      db.insert (storedName table) (columns.insert (storedName column) (f old))

/-- What the server does with a statement, as far as its tables and columns decide on it. -/
def Change.exec (db : Tables) : Change → Option Tables
  | .createTable table columns =>
    if storedName table ∈ db ∨ ¬(columns.map fun c => storedName c.name).Nodup then none
    else some (db.insert (storedName table) (newTable columns))
  | .createIndex _ table column => if (columnOf db (storedName table) (storedName column)).isSome then some db else none
  | .alterType table column type => alterColumn db table column fun old => { old with dataType := type.shown }
  | .setNotNull table column => alterColumn db table column fun old => { old with isNullable := false }
  | .dropNotNull table column => alterColumn db table column fun old => { old with isNullable := true }
  | .addColumn table column =>
    (db.lookup (storedName table)).bind fun columns =>
      if storedName column.name ∈ columns then none
      else some (db.insert (storedName table) (columns.insert (storedName column.name) column.stored))

/-- The file is executed, unless the server refuses a statement for what else it knows. -/
def runChanges (accepts : Tables → Change → Bool) (db : Tables) (changes : List Change) : Option Tables :=
  changes.foldlM (fun db c => if accepts db c then c.exec db else none) db

/-- A migration is generated and executed. -/
def Round (accepts : Tables → Change → Bool) (models : List Model) (db db' : Tables) : Prop :=
  ∃ now currentTables, getCurrentDatabaseSchema db = some currentTables ∧
    runChanges accepts db (changesOf (generateMigrationSql cc toLowercase now models currentTables)) = some db'

/-- What a statement makes of a column. -/
def Change.effect (t c : String) (old : Option DatabaseColumn) : Change → Option DatabaseColumn
  | .createTable table columns => if storedName table = t then (newTable columns).lookup c else old
  | .createIndex _ _ _ => old
  | .alterType table column type =>
    if storedName table = t ∧ storedName column = c then old.map fun old => { old with dataType := type.shown } else old
  | .setNotNull table column =>
    if storedName table = t ∧ storedName column = c then old.map fun old => { old with isNullable := false } else old
  | .dropNotNull table column =>
    if storedName table = t ∧ storedName column = c then old.map fun old => { old with isNullable := true } else old
  | .addColumn table column => if storedName table = t ∧ storedName column.name = c then some column.stored else old

theorem columnOf_insert (db : Tables) (table t c : String) (columns : Columns) :
    columnOf (db.insert table columns) t c = if table = t then columns.lookup c else columnOf db t c := by
  unfold columnOf
  split
  · next h =>
    subst h
    rw [AList.lookup_insert]
    rfl
  · next h => rw [AList.lookup_insert_ne (Ne.symm h)]

variable {cc toLowercase} {accepts : Tables → Change → Bool} {db db' : Tables} {ch : Change} {changes : List Change}
  {t c : String}

theorem columnOf_set {table column : String} {columns : Columns} (h : db.lookup table = some columns)
    (new : DatabaseColumn) : columnOf (db.insert table (columns.insert column new)) t c =
      if table = t ∧ column = c then some new else columnOf db t c := by
  rw [columnOf_insert]
  by_cases ht : table = t
  · subst ht
    have hof : columnOf db table c = columns.lookup c := by
      unfold columnOf
      rw [h]
      rfl
    rw [if_pos rfl, hof]
    by_cases hc : column = c
    · subst hc
      rw [AList.lookup_insert, if_pos ⟨rfl, rfl⟩]
    · rw [AList.lookup_insert_ne (Ne.symm hc), if_neg fun hboth => hc hboth.2]
  · rw [if_neg ht, if_neg fun hboth => ht hboth.1]

theorem columnOf_alterColumn {table column : String} {f : DatabaseColumn → DatabaseColumn}
    (h : alterColumn db table column f = some db') : columnOf db' t c =
      if storedName table = t ∧ storedName column = c then (columnOf db t c).map f else columnOf db t c := by
  obtain ⟨columns, hcolumns, h⟩ := Option.bind_eq_some_iff.1 h
  obtain ⟨old, hold, rfl⟩ := Option.map_eq_some_iff.1 h
  rw [columnOf_set hcolumns]
  split
  · next hboth =>
    obtain ⟨rfl, rfl⟩ := hboth
    unfold columnOf
    rw [hcolumns, Option.bind_some, hold, Option.map_some]
  · rfl

theorem exec_column (h : ch.exec db = some db') (t c : String) : columnOf db' t c = ch.effect t c (columnOf db t c) := by
  cases ch with
  | createTable table columns =>
    rw [Change.exec] at h
    split at h
    · cases h
    · cases h
      exact columnOf_insert db _ t c _
  | createIndex name table column =>
    rw [Change.exec] at h
    split at h
    · cases h
      rfl
    · cases h
  | alterType table column type => exact columnOf_alterColumn h
  | setNotNull table column => exact columnOf_alterColumn h
  | dropNotNull table column => exact columnOf_alterColumn h
  | addColumn table column =>
    obtain ⟨columns, hcolumns, h⟩ := Option.bind_eq_some_iff.1 h
    split at h
    · cases h
    · cases h
      exact columnOf_set hcolumns _

/-- No table goes, and a created one comes. -/
theorem exec_mem (h : ch.exec db = some db') :
    (t ∈ db → t ∈ db') ∧ ∀ table columns, ch = .createTable table columns → storedName table ∈ db' := by
  have hinsert : ∀ (table : String) (columns : Columns), t ∈ db → t ∈ db.insert table columns := fun table columns ht =>
    (AList.mem_insert _).2 (.inr ht)
  have halter : ∀ {table column : String} {f : DatabaseColumn → DatabaseColumn},
      alterColumn db table column f = some db' → t ∈ db → t ∈ db' := by
    intro table column f h
    obtain ⟨columns, -, h⟩ := Option.bind_eq_some_iff.1 h
    obtain ⟨old, -, rfl⟩ := Option.map_eq_some_iff.1 h
    exact hinsert _ _
  cases ch with
  | createTable table columns =>
    rw [Change.exec] at h
    split at h
    · cases h
    · cases h
      refine ⟨hinsert _ _, fun table' columns' hsame => ?_⟩
      cases hsame
      exact (AList.mem_insert _).2 (.inl rfl)
  | createIndex name table column =>
    rw [Change.exec] at h
    split at h
    · cases h
      exact ⟨id, nofun⟩
    · cases h
  | alterType table column type => exact ⟨halter h, nofun⟩
  | setNotNull table column => exact ⟨halter h, nofun⟩
  | dropNotNull table column => exact ⟨halter h, nofun⟩
  | addColumn table column =>
    obtain ⟨columns, -, h⟩ := Option.bind_eq_some_iff.1 h
    split at h
    · cases h
    · cases h
      exact ⟨hinsert _ _, nofun⟩

/-- What a file that is executed has done: to a column the effects of its statements, one after another. -/
theorem runChanges_spec (h : runChanges accepts db changes = some db') :
    (∀ t c, columnOf db' t c = changes.foldl (fun old ch => ch.effect t c old) (columnOf db t c)) ∧
      (∀ t ∈ db, t ∈ db') ∧
      ∀ table columns, .createTable table columns ∈ changes →
        storedName table ∈ db' ∧ (columns.map fun c => storedName c.name).Nodup := by
  induction changes generalizing db with
  | nil =>
    cases h
    exact ⟨fun t c => rfl, fun t ht => ht, fun table columns hmem => nomatch hmem⟩
  | cons ch changes ih =>
    obtain ⟨next, hnext, hrest⟩ := Option.bind_eq_some_iff.1 ((List.foldlM_cons ..).symm.trans h)
    split at hnext
    · obtain ⟨hcolumns, hmem, hcreated⟩ := ih hrest
      refine ⟨fun t c => ?_, fun t ht => hmem t ((exec_mem hnext).1 ht), fun table columns hchange => ?_⟩
      · rw [hcolumns, exec_column hnext, List.foldl_cons]
      · rcases List.mem_cons.1 hchange with rfl | hlater
        · refine ⟨hmem _ ((exec_mem (t := table) hnext).2 table columns rfl), ?_⟩
          by_contra hdup
          rw [Change.exec, if_pos (.inr hdup)] at hnext
          cases hnext
        · exact hcreated table columns hlater
    · cases hnext

/-! ## What is generated -/

/-- The column is as the field is declared. -/
def Settled (field : Field) (found : Option DatabaseColumn) : Prop :=
  ∃ col, found = some col ∧ col.dataType = (fieldTypeToPg field.fieldType).shown ∧
    if field.optional then col.isNullable = true ∨ col.isPrimaryKey = true else col.isNullable = false

theorem fieldChanges_eq_nil {table fieldName : String} {field : Field} {found : Option DatabaseColumn}
    (h : Settled field found) : fieldChanges cc table fieldName field found = [] := by
  obtain ⟨col, rfl, htype, hnull⟩ := h
  unfold fieldChanges
  dsimp only
  rw [if_pos (pgTypeMatches_iff.2 htype), List.nil_append]
  cases hoptional : field.optional with
  | false =>
    rw [hoptional] at hnull
    simp [show col.isNullable = false by simpa using hnull]
  | true =>
    rw [hoptional] at hnull
    rcases (show col.isNullable = true ∨ col.isPrimaryKey = true by simpa using hnull) with hcol | hcol <;> simp [hcol]

theorem settled_stored (cc : CharCase) (fieldName : String) (field : Field) :
    Settled field (some (generateColumnDefinition cc fieldName field).stored) := by
  refine ⟨_, rfl, rfl, ?_⟩
  unfold NewColumn.stored generateColumnDefinition
  cases field.optional <;> split_ifs <;> simp_all

/-- What is generated for a field leaves its column as it is declared. -/
theorem settled_fieldChanges {table fieldName : String} (htable : storedName table = table)
    (hcolumn : storedName (camelToSnakeCase cc fieldName) = camelToSnakeCase cc fieldName) (field : Field)
    (found : Option DatabaseColumn) :
    Settled field ((fieldChanges cc table fieldName field found).foldl
      (fun old ch => ch.effect table (camelToSnakeCase cc fieldName) old) found) := by
  cases found with
  | none =>
    have hname : (generateColumnDefinition cc fieldName field).name = camelToSnakeCase cc fieldName := rfl
    unfold fieldChanges
    rw [List.foldl_cons, List.foldl_nil, Change.effect, hname, if_pos ⟨htable, hcolumn⟩]
    exact settled_stored cc fieldName field
  | some col =>
    unfold fieldChanges
    dsimp only
    rw [List.foldl_append]
    have htyped : ∃ typed : DatabaseColumn, typed.dataType = (fieldTypeToPg field.fieldType).shown ∧
        typed.isNullable = col.isNullable ∧ typed.isPrimaryKey = col.isPrimaryKey ∧
        (if pgTypeMatches field.fieldType col.dataType then []
          else [Change.alterType table (camelToSnakeCase cc fieldName) (fieldTypeToPg field.fieldType)]).foldl
          (fun old ch => ch.effect table (camelToSnakeCase cc fieldName) old) (some col) = some typed := by
      split
      · next hmatches => exact ⟨col, pgTypeMatches_iff.1 hmatches, rfl, rfl, rfl⟩
      · exact ⟨{ col with dataType := (fieldTypeToPg field.fieldType).shown }, rfl, rfl, rfl,
          by simp [Change.effect, htable, hcolumn]⟩
    obtain ⟨typed, htype, hnullable, hkey, hfold⟩ := htyped
    rw [hfold, ← hnullable, ← hkey]
    -- a column that is not nullable and should be is left so only where it belongs to a key
    cases hoptional : field.optional <;> cases hnull : typed.isNullable <;> cases hprimary : typed.isPrimaryKey <;>
      simp [Change.effect, htable, hcolumn, Settled, htype, hoptional, hnull, hprimary]

theorem foldl_of_forall {α β : Type} {f : β → α → β} {l : List α} (h : ∀ a ∈ l, ∀ b, f b a = b) (b : β) :
    l.foldl f b = b := by
  induction l with
  | nil => rfl
  | cons a l ih =>
    rw [List.foldl_cons, h a List.mem_cons_self]
    exact ih fun a ha => h a (List.mem_cons_of_mem _ ha)

/-- Only the part of one key counts. -/
theorem foldl_flatMap {α β γ κ : Type} {f : β → γ → β} {g : α → List γ} {key : α → κ} {l : List α} {x : α}
    (hx : x ∈ l) (hnodup : (l.map key).Nodup) (h : ∀ y ∈ l, key y ≠ key x → ∀ c ∈ g y, ∀ b, f b c = b) (b : β) :
    (l.flatMap g).foldl f b = (g x).foldl f b := by
  induction l with
  | nil => cases hx
  | cons y l ih =>
    rw [List.map_cons, List.nodup_cons] at hnodup
    rw [List.flatMap_cons, List.foldl_append]
    rcases List.mem_cons.1 hx with rfl | hmem
    · refine foldl_of_forall (fun c hc => ?_) _
      obtain ⟨z, hz, hc⟩ := List.mem_flatMap.1 hc
      exact h z (List.mem_cons_of_mem _ hz) (fun hsame => hnodup.1 (hsame ▸ List.mem_map_of_mem hz)) c hc
    · rw [foldl_of_forall (h y List.mem_cons_self fun hsame => hnodup.1 (hsame ▸ List.mem_map_of_mem hmem)),
        ih hmem hnodup.2 fun z hz => h z (List.mem_cons_of_mem _ hz)]

/-! ## One round after another -/

variable (cc toLowercase) in
/-- No two models have a table in common, and no two fields of a model a column; the names are not cut. -/
structure Apart (models : List Model) : Prop where
  tables : (models.map (modelTable toLowercase)).Nodup
  table : ∀ m ∈ models, (modelTable toLowercase m).utf8ByteSize ≤ nameBytes ∧ modelTable toLowercase m ≠ "__atomo_migrations"
  columns : ∀ m ∈ models, (m.fields.map fun f => camelToSnakeCase cc f.1).Nodup
  column : ∀ m ∈ models, ∀ f ∈ m.fields, (camelToSnakeCase cc f.1).utf8ByteSize ≤ nameBytes

/-- The same models, in another order, with their fields in another order. -/
def Reordered (models models' : List Model) : Prop :=
  ∀ m' ∈ models', ∃ m ∈ models, m.name = m'.name ∧ m.fields.Perm m'.fields

variable {models models' : List Model} {currentTables : Tables} {m : Model} {f : String × Field}

theorem changesOf_generateMigrationSql (now : String) : changesOf (generateMigrationSql cc toLowercase now models currentTables) =
    models.flatMap fun m => changesOf (modelParts cc toLowercase currentTables m) := by
  unfold changesOf generateMigrationSql
  rw [List.filterMap_append, List.filterMap_append, List.filterMap_flatMap, List.filterMap_map]
  simp [Part.change?, Function.comp_def]

theorem changesOf_table {columns : Columns} (h : currentTables.lookup (modelTable toLowercase m) = some columns) :
    changesOf (modelParts cc toLowercase currentTables m) = m.fields.flatMap fun f =>
      fieldChanges cc (modelTable toLowercase m) f.1 f.2 (columns.lookup (camelToSnakeCase cc f.1)) := by
  have hall : changesOf (generateTableAlterations cc toLowercase m columns) = m.fields.flatMap fun f =>
      fieldChanges cc (modelTable toLowercase m) f.1 f.2 (columns.lookup (camelToSnakeCase cc f.1)) := by
    unfold changesOf generateTableAlterations
    dsimp only
    rw [List.filterMap_append, List.filterMap_flatMap]
    simp [List.filterMap_map, Part.change?, Function.comp_def]
  unfold modelParts
  rw [h]
  dsimp only
  split
  · next hnone =>
    rw [← hall, hnone]
  · rw [← hall]
    simp [changesOf, Part.change?]

variable (cc) in
theorem changesOf_create (h : currentTables.lookup (modelTable toLowercase m) = none) :
    ∃ indexes, (∀ ch ∈ indexes, ∀ t c old, ch.effect t c old = old) ∧ changesOf (modelParts cc toLowercase currentTables m) =
      .createTable (modelTable toLowercase m) (createdColumns cc m) :: indexes := by
  unfold modelParts
  rw [h]
  refine ⟨[.createIndex ("idx_" ++ modelTable toLowercase m ++ "_created_at") (modelTable toLowercase m) "created_at",
    .createIndex ("idx_" ++ modelTable toLowercase m ++ "_updated_at") (modelTable toLowercase m) "updated_at"], ?_, rfl⟩
  simp [Change.effect]

/-- The changes for a field leave other columns alone. -/
theorem effect_fieldChanges {table fieldName : String} {field : Field} {found old : Option DatabaseColumn}
    (h : ch ∈ fieldChanges cc table fieldName field found)
    (hne : storedName table = t → storedName (camelToSnakeCase cc fieldName) ≠ c) : ch.effect t c old = old := by
  have hboth : ¬(storedName table = t ∧ storedName (camelToSnakeCase cc fieldName) = c) := fun hboth => hne hboth.1 hboth.2
  unfold fieldChanges at h
  cases found with
  | none =>
    rw [List.mem_singleton.1 h]
    exact if_neg hboth
  | some col =>
    dsimp only at h
    rcases List.mem_append.1 h with h | h
    · split at h
      · cases h
      · rw [List.mem_singleton.1 h]
        exact if_neg hboth
    · split_ifs at h
      · rw [List.mem_singleton.1 h]
        exact if_neg hboth
      · rw [List.mem_singleton.1 h]
        exact if_neg hboth
      · cases h

theorem lookup_of_schema (h : getCurrentDatabaseSchema db = some currentTables) (ht : t ≠ "__atomo_migrations") :
    currentTables.lookup t = db.lookup t := by
  unfold getCurrentDatabaseSchema at h
  dsimp only at h
  split at h
  · cases h
    exact AList.lookup_erase_ne ht
  · cases h

theorem lookup_newTable {c : NewColumn} {columns : List NewColumn} (hnodup : (columns.map fun c => storedName c.name).Nodup)
    (hc : c ∈ columns) : (newTable columns).lookup (storedName c.name) = some c.stored := by
  induction columns with
  | nil => cases hc
  | cons first rest ih =>
    rw [List.map_cons, List.nodup_cons] at hnodup
    unfold newTable
    rcases List.mem_cons.1 hc with rfl | hrest
    · exact AList.lookup_insert _
    · have hne : storedName c.name ≠ storedName first.name := fun hsame => hnodup.1 (List.mem_map.2 ⟨c, hrest, hsame⟩)
      rw [AList.lookup_insert_ne hne, ih hnodup.2 hrest]

/-- A round leaves every column of an old table as its field is declared, and of a new one all but those that every table
gets. -/
theorem round_settled (hapart : Apart cc toLowercase models) (h : Round cc toLowercase accepts models db db')
    (hm : m ∈ models) : modelTable toLowercase m ∈ db' ∧ ∀ f ∈ m.fields,
      modelTable toLowercase m ∈ db ∨ f.1 ∉ auditFields →
        Settled f.2 (columnOf db' (modelTable toLowercase m) (camelToSnakeCase cc f.1)) := by
  obtain ⟨now, currentTables, hschema, hrun⟩ := h
  obtain ⟨hcolumns, hkept, hcreated⟩ := runChanges_spec hrun
  rw [changesOf_generateMigrationSql] at hcolumns hcreated
  have hstored : ∀ y ∈ models, storedName (modelTable toLowercase y) = modelTable toLowercase y := fun y hy =>
    Migrations.clip_text (hapart.table y hy).1
  have hcolumn : ∀ y ∈ models, ∀ f ∈ y.fields, storedName (camelToSnakeCase cc f.1) = camelToSnakeCase cc f.1 :=
    fun y hy f hf => Migrations.clip_text (hapart.column y hy f hf)
  have hlookup := lookup_of_schema hschema (hapart.table m hm).2
  -- the other models have other tables
  have hown : ∀ c, columnOf db' (modelTable toLowercase m) c =
      (changesOf (modelParts cc toLowercase currentTables m)).foldl
        (fun old ch => ch.effect (modelTable toLowercase m) c old) (columnOf db (modelTable toLowercase m) c) := by
    intro c
    rw [hcolumns]
    refine foldl_flatMap hm hapart.tables (fun y hy hne ch hch old => ?_) _
    have hother : storedName (modelTable toLowercase y) ≠ modelTable toLowercase m := by rwa [hstored y hy]
    cases hy' : currentTables.lookup (modelTable toLowercase y) with
    | some columns =>
      rw [changesOf_table hy'] at hch
      obtain ⟨f, -, hch⟩ := List.mem_flatMap.1 hch
      exact effect_fieldChanges hch fun hsame => absurd hsame hother
    | none =>
      obtain ⟨indexes, hindexes, hparts⟩ := changesOf_create cc hy'
      rw [hparts] at hch
      rcases List.mem_cons.1 hch with rfl | hch
      · exact if_neg hother
      · exact hindexes ch hch _ _ _
  by_cases hmem : modelTable toLowercase m ∈ db
  · refine ⟨hkept _ hmem, fun f hf _ => ?_⟩
    obtain ⟨columns, hdb⟩ := Option.isSome_iff_exists.1 (AList.lookup_isSome.2 hmem)
    have hfound : columns.lookup (camelToSnakeCase cc f.1) = columnOf db (modelTable toLowercase m) (camelToSnakeCase cc f.1) := by
      unfold columnOf
      rw [hdb, Option.bind_some]
    rw [hown, changesOf_table (hlookup.trans hdb), foldl_flatMap hf (hapart.columns m hm), hfound]
    · exact settled_fieldChanges (hstored m hm) (hcolumn m hm f hf) f.2 _
    · intro y hy hne ch hch old
      exact effect_fieldChanges hch fun _ => by rwa [hcolumn m hm y hy]
  · have hnone : currentTables.lookup (modelTable toLowercase m) = none := by
      rw [hlookup]
      exact AList.lookup_eq_none.2 hmem
    obtain ⟨indexes, hindexes, hparts⟩ := changesOf_create cc hnone
    obtain ⟨hthere, hnodup⟩ := hcreated _ _ (List.mem_flatMap.2 ⟨m, hm, hparts ▸ List.mem_cons_self⟩)
    rw [hstored m hm] at hthere
    refine ⟨hthere, fun f hf haudit => ?_⟩
    have hof : generateColumnDefinition cc f.1 f.2 ∈ createdColumns cc m :=
      List.mem_append_left _ (List.mem_append_right _ (List.mem_map.2
        ⟨f, List.mem_filter.2 ⟨hf, by simpa using haudit.resolve_left hmem⟩, rfl⟩))
    have hnew := lookup_newTable hnodup hof
    rw [show storedName (generateColumnDefinition cc f.1 f.2).name = camelToSnakeCase cc f.1 from hcolumn m hm f hf] at hnew
    rw [hown, hparts, List.foldl_cons, foldl_of_forall fun ch hch old => hindexes ch hch _ _ old, Change.effect,
      if_pos (hstored m hm), hnew]
    exact settled_stored cc f.1 f.2

def noteModel : Model where
  name := "note"
  fields := [("title", ⟨"title", .string, false, []⟩), ("version", ⟨"version", .number, false, []⟩)]

end Atomo.Cli

import Atomo.Migrations.Rerun

/-!
# Which constraints are enforced

The names of indexes and constraints are joined from those of tables and columns, and a statement whose
name is in use does nothing. The names in use after a statement depend on those before it alone, so which
constraints the statements leave behind is read off the names: those the database had, and those that a
statement makes under a name that is free when it comes (`enforced_iff`).
-/

namespace Atomo.Migrations

open Schema (Model ModelConstraint)
open Query (tableName)

variable {δ : Type} {server : Server δ} {db db' : Database δ}

/-- A constraint, under whatever name. -/
inductive Wanted where
  | index (index : IndexInfo)
  | constraint (table : Name) (requirement : Requirement)
  deriving DecidableEq

/-- The database enforces it. -/
def Wanted.EnforcedIn (db : Database δ) : Wanted → Prop
  | .index i => i ∈ db.indexes
  | .constraint table requirement => ∃ c ∈ db.constraints, c.table = table ∧ c.requirement = requirement

instance (db : Database δ) (w : Wanted) : Decidable (w.EnforcedIn db) :=
  match w with
  | .index i => inferInstanceAs (Decidable (i ∈ db.indexes))
  | .constraint table requirement =>
    inferInstanceAs (Decidable (∃ c ∈ db.constraints, c.table = table ∧ c.requirement = requirement))

section Declared

variable (cc : CharCase)

def uniqueIndex (table : String) (columns : List String) (predicate : Option String) : Wanted :=
  .index { table := clip table, unique := true, columns := columns.map clip, predicate := predicate }

/-- What a model-level constraint asks to be enforced; a plain index enforces nothing. -/
def wantedConstraint (table : String) : ModelConstraint → Option Wanted
  | .unique columns => some (uniqueIndex table (columns.map (toSnakeCase cc)) none)
  | .uniqueWhere columns predicate => some (uniqueIndex table (columns.map (toSnakeCase cc)) (some predicate))
  | .check expr => some (.constraint (clip table) (.check expr))
  | .index _ | .indexWhere _ _ => none

/-- The constraints that a schema declares: unique fields, model-level constraints, foreign keys. -/
def declared (schema : Schema) : List Wanted :=
  schema.models.flatMap fun (_, model) =>
    let table := tableName cc model
    ((attributeColumns cc .unique model).map fun col => uniqueIndex table [col] none) ++
      model.constraints.filterMap (wantedConstraint cc table) ++
      model.relationships.filterMap fun (relName, rel) =>
        (foreignKey cc schema model relName rel).map fun (fkCol, target) =>
          .constraint (clip table) (.foreignKey (clip fkCol) (clip target))

end Declared

/-! ## By the names -/

/-- A statement makes it where these names are in use. -/
def Server.Makes (server : Server δ) (names : Names) (st : Ddl) : Wanted → Prop
  | .index i => i ∈ names.madeIndexes st
  | .constraint table requirement =>
    ∃ c ∈ server.madeConstraints names st, c.table = table ∧ c.requirement = requirement

/-- The names in use after some statements. -/
def Server.namesAlong (server : Server δ) (names : Names) (statements : List Ddl) : Names :=
  statements.foldl server.namesAfter names

/-- Some statement makes it, under a name that is free when the statement comes. -/
def Server.Reaches (server : Server δ) (names : Names) (statements : List Ddl) (w : Wanted) : Prop :=
  ∃ before st after, statements = before ++ st :: after ∧ server.Makes (server.namesAlong names before) st w

theorem reaches_cons {names : Names} {st : Ddl} {statements : List Ddl} {w : Wanted} :
    server.Reaches names (st :: statements) w ↔
      server.Makes names st w ∨ server.Reaches (server.namesAfter names st) statements w := by
  constructor
  · rintro ⟨before, st', after, heq, hmakes⟩
    cases before with
    | nil =>
      cases heq
      exact .inl hmakes
    | cons first before =>
      cases heq
      exact .inr ⟨before, st', after, rfl, hmakes⟩
  · rintro (hmakes | ⟨before, st', after, rfl, hmakes⟩)
    · exact ⟨[], st, statements, rfl, hmakes⟩
    · exact ⟨st :: before, st', after, rfl, hmakes⟩

/-- One statement adds what it makes. -/
theorem Server.Does.enforced {st : Ddl} (h : server.Does db st db') (w : Wanted) :
    w.EnforcedIn db' ↔ w.EnforcedIn db ∨ server.Makes db.names st w := by
  cases w with
  | index i =>
    unfold Wanted.EnforcedIn Server.Makes
    rw [h.indexes]
    exact List.mem_append
  | constraint table requirement =>
    unfold Wanted.EnforcedIn Server.Makes
    rw [h.constraints]
    simp only [List.mem_append, or_and_right, exists_or]

/-- What the statements leave behind depends on the names that were in use, not on the rows. -/
theorem run_enforced {statements : List Ddl} (h : server.run db statements = some db') (w : Wanted) :
    w.EnforcedIn db' ↔ w.EnforcedIn db ∨ server.Reaches db.names statements w := by
  induction statements generalizing db with
  | nil =>
    cases h
    constructor
    · exact .inl
    · rintro (hheld | ⟨before, st, after, heq, -⟩)
      · exact hheld
      · cases before <;> cases heq
  | cons st statements ih =>
    obtain ⟨mid, hexec, hrest⟩ := run_cons_iff.1 h
    have hdoes := exec_does hexec
    rw [ih hrest, hdoes.enforced, hdoes.names, reaches_cons, or_assoc]

/-- After the migrations every declared constraint is enforced just when each was enforced before, or has
a statement whose name is free when it comes. -/
theorem enforced_iff (cc : CharCase) (server : Server δ) {schema : Schema} {db db' : Database δ}
    (hrun : server.run db (generateMigrations cc schema) = some db') :
    (∀ w ∈ declared cc schema, w.EnforcedIn db') ↔
      ∀ w ∈ declared cc schema,
        w.EnforcedIn db ∨ server.Reaches db.names (generateMigrations cc schema) w :=
  forall₂_congr fun w _ => run_enforced hrun w

/-- The check of the notes on an empty database. -/
theorem notes_enforced : ∃ db : Database Unit,
    Server.plain.run .empty (generateMigrations .ascii (notes "notes")) = some db ∧
      ((∀ w ∈ declared .ascii (notes "notes"), w.EnforcedIn db) ↔
        ∀ w ∈ declared .ascii (notes "notes"), w.EnforcedIn Database.empty ∨
          Server.plain.Reaches Database.empty.names (generateMigrations .ascii (notes "notes")) w) := by
  have hsome : (Server.plain.run .empty (generateMigrations .ascii (notes "notes"))).isSome = true := by
    decide
  obtain ⟨db, hrun⟩ := Option.isSome_iff_exists.1 hsome
  exact ⟨db, hrun, enforced_iff .ascii .plain hrun⟩

/-- Accounts with a column that is unique, and unique among the accounts that are not deleted. -/
def accounts : Schema where
  models :=
    [("Account",
      { name := "Account"
        fields := [("storeId", { name := "storeId", fieldType := .string, optional := true })]
        constraints := [.uniqueWhere ["storeId"] "deleted_at IS NULL", .unique ["storeId"]] })]

/-- Both indexes are named `uq_accounts_store_id`, so the second is never made. -/
theorem second_index_dropped : ∃ db : Database Unit,
    Server.plain.run .empty (generateMigrations .ascii accounts) = some db ∧
      uniqueIndex "accounts" ["store_id"] none ∈ declared .ascii accounts ∧
      ¬(uniqueIndex "accounts" ["store_id"] none).EnforcedIn db := by
  have hsome : (Server.plain.run .empty (generateMigrations .ascii accounts)).isSome = true := by
    decide
  have hdropped : ∀ db ∈ Server.plain.run .empty (generateMigrations .ascii accounts),
      ¬(uniqueIndex "accounts" ["store_id"] none).EnforcedIn db := by
    decide
  obtain ⟨db, hrun⟩ := Option.isSome_iff_exists.1 hsome
  exact ⟨db, hrun, by decide, hdropped db hrun⟩

end Atomo.Migrations

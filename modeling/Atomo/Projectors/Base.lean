import Atomo.Client.Commits

/-!
# Base tables

The tables of the models with an id, as the migrations make them: whatever is written to them, their rows keep ids of
their own.
-/

namespace Atomo.Projectors

open Schema (Model lookup?)
open Client (Env World Write Commit Record)
open Db (Row Table Tables SqlValue)
open Query (WhereClause)

/-! ## Base tables -/

/-- A table as the migrations make it for a model with an id. -/
structure Migrated (table : Table) : Prop where
  key : table.primaryKey = some "id"
  id : lookup? "id" table.columns = some .text
  deletedAt : "deleted_at" ∈ table.columnNames

def isLive (row : Row) : Bool :=
  row.get "deleted_at" = .null

/-- The text of the id of a row. -/
def idOf (row : Row) : String :=
  match row.get "id" with
  | .text id => id
  | _ => ""

/-- The rows of a table have ids of their own. -/
structure Identified (table : Table) : Prop where
  ids : (table.rows.map idOf).Nodup
  named : ∀ row ∈ table.rows, row.get "id" = .text (idOf row)
  shaped : ∀ row ∈ table.rows, row.map Prod.fst = table.columnNames

theorem lookup?_eq_lookup {α : Type} (key : String) (entries : List (String × α)) :
    lookup? key entries = entries.lookup key := by
  induction entries with
  | nil => rfl
  | cons entry rest ih =>
    obtain ⟨first, value⟩ := entry
    unfold lookup? at ih ⊢
    by_cases hfirst : key = first
    · subst hfirst
      simp
    · have hne : (key == first) = false := by simpa using hfirst
      have hne' : ¬first = key := fun heq => hfirst heq.symm
      simp only [List.lookup_cons, hne, List.find?_cons_of_neg, decide_eq_true_eq, hne', not_false_eq_true]
      exact ih

theorem isSome_lookup? {α : Type} {key : String} {entries : List (String × α)} (h : key ∈ entries.map Prod.fst) :
    (lookup? key entries).isSome = true := by
  obtain ⟨entry, hentry, rfl⟩ := List.mem_map.1 h
  unfold lookup?
  rw [Option.isSome_map, List.find?_isSome]
  exact ⟨entry, hentry, decide_eq_true rfl⟩

theorem update_columns (row : Row) (sets : List (String × SqlValue)) :
    (row.update sets).map Prod.fst = row.map Prod.fst := by
  unfold Row.update
  rw [List.map_map]
  rfl

/-- A row that is fit to be one of a table with that id. -/
theorem named_of_fits {row : Row} (hfits : (row.get "id").fits .text = true) (hset : row.get "id" ≠ .null) :
    row.get "id" = .text (idOf row) := by
  unfold idOf
  cases hid : row.get "id" with
  | null => exact absurd hid hset
  | text id => rfl
  | _ =>
    rw [hid] at hfits
    cases hfits

theorem nodup_ids {rows : List Row} (hnamed : ∀ row ∈ rows, row.get "id" = .text (idOf row)) :
    (rows.map idOf).Nodup ↔ (rows.map fun row => row.get "id").Nodup := by
  have hsame : (rows.map fun row => row.get "id") = (rows.map idOf).map .text := by
    rw [List.map_map]
    exact List.map_congr_left hnamed
  rw [hsame, List.nodup_map_iff fun _ _ => SqlValue.text.inj]

/-- A table whose key holds has rows with ids of their own. -/
theorem identified {table : Table} (hmigrated : Migrated table) (hkeys : table.keysHold = true)
    (hfits : ∀ row ∈ table.rows, (row.get "id").fits .text = true)
    (hshaped : ∀ row ∈ table.rows, row.map Prod.fst = table.columnNames) : Identified table := by
  unfold Table.keysHold at hkeys
  rw [hmigrated.key] at hkeys
  obtain ⟨hnodup, hset⟩ := of_decide_eq_true hkeys
  have hnamed : ∀ row ∈ table.rows, row.get "id" = .text (idOf row) := fun row hrow =>
    named_of_fits (hfits row hrow) (by simpa using List.all_eq_true.1 hset row hrow)
  exact ⟨(nodup_ids hnamed).2 hnodup, hnamed, hshaped⟩

theorem Identified.keysHold {table : Table} (hmigrated : Migrated table) (h : Identified table) : table.keysHold = true := by
  unfold Table.keysHold
  rw [hmigrated.key]
  refine decide_eq_true ⟨(nodup_ids h.named).1 h.ids, List.all_eq_true.2 fun row hrow => ?_⟩
  rw [h.named row hrow]
  rfl

theorem Identified.fits {table : Table} (h : Identified table) : ∀ row ∈ table.rows, (row.get "id").fits .text = true := by
  intro row hrow
  rw [h.named row hrow]
  rfl

/-- Rows with one id are the same row. -/
theorem Identified.eq {table : Table} (h : Identified table) {row row' : Row} (hrow : row ∈ table.rows)
    (hrow' : row' ∈ table.rows) (hid : idOf row = idOf row') : row = row' :=
  List.inj_on_of_nodup_map h.ids hrow hrow' hid

/-! ## What a commit keeps -/

section

variable {env : Env} {name : String} {tables tables' : Tables} {rows : List Row}

/-- The ids that the server gives are texts. -/
def TextIds (env : Env) (name : String) : Prop :=
  ∀ tick place, (env.pg.fill tick name place "id").fits .text = true

/-- A table with the columns and the key of another one. -/
def SameShape (table table' : Table) : Prop :=
  table'.columns = table.columns ∧ table'.primaryKey = table.primaryKey

theorem SameShape.migrated {table table' : Table} (h : SameShape table table') (hmigrated : Migrated table) :
    Migrated table' := by
  obtain ⟨hcolumns, hkey⟩ := h
  refine ⟨hkey.trans hmigrated.key, ?_, ?_⟩
  · rw [hcolumns]
    exact hmigrated.id
  · unfold Table.columnNames
    rw [hcolumns]
    exact hmigrated.deletedAt

theorem Migrated.id_mem {table : Table} (h : Migrated table) : "id" ∈ table.columnNames := by
  obtain ⟨entry, hentry, -⟩ := Option.map_eq_some_iff.1 h.id
  have hid : entry.1 = "id" := by simpa using List.find?_some hentry
  exact List.mem_map.2 ⟨entry, List.mem_of_find?_eq_some hentry, hid⟩

theorem Identified.get_update {table : Table} (h : Identified table) {row : Row}
    (hrow : row ∈ table.rows) (sets : List (String × SqlValue)) {column : String} (hcolumn : column ∈ table.columnNames) :
    (row.update sets).get column = (lookup? column sets).getD (row.get column) := by
  apply Row.get_update
  apply isSome_lookup?
  rw [h.shaped row hrow]
  exact hcolumn

theorem identified_appends (htexts : TextIds env name) (hmigrated : Migrated (tables name))
    (h : Identified (tables name)) (happends : Client.Appends env.pg name tables tables' rows) :
    SameShape (tables name) (tables' name) ∧ Identified (tables' name) := by
  obtain ⟨hmade, htables, hkeys⟩ := happends
  have htable : tables' name = { tables name with rows := (tables name).rows ++ rows } := by
    rw [htables, Function.update_self]
  have hshape : SameShape (tables name) (tables' name) := by
    rw [htable]
    exact ⟨rfl, rfl⟩
  refine ⟨hshape, identified (hshape.migrated hmigrated) (hkeys (h.keysHold hmigrated)) ?_ ?_⟩
  · intro row hrow
    rw [htable] at hrow
    rcases List.mem_append.1 hrow with hold | hnew
    · exact h.fits row hold
    · obtain ⟨tick, place, values, hfits, rfl⟩ := hmade row hnew
      rw [Db.get_newRow, if_pos hmigrated.id_mem]
      cases hvalue : lookup? "id" values with
      | none => exact htexts tick place
      | some value =>
        obtain ⟨type, htype, hvaluefits⟩ := hfits.lookup hvalue
        rw [hmigrated.id] at htype
        cases htype
        exact hvaluefits
  · intro row hrow
    rw [htable] at hrow ⊢
    rcases List.mem_append.1 hrow with hold | hnew
    · exact h.shaped row hold
    · obtain ⟨tick, place, values, hfits, rfl⟩ := hmade row hnew
      unfold Db.newRow
      rw [List.map_map]
      rfl

theorem identified_sets {clauses : List WhereClause} {tenant : Option String} {sets : List (String × SqlValue)}
    (hmigrated : Migrated (tables name)) (h : Identified (tables name))
    (hid : ∀ value, lookup? "id" sets = some value → value.fits .text = true)
    (hsets : Client.Sets env.pg env.casing tenant name clauses sets tables tables' rows) :
    SameShape (tables name) (tables' name) ∧ Identified (tables' name) := by
  obtain ⟨-, htables, hkeys⟩ := hsets
  have hshape : SameShape (tables name) (tables' name) := by
    rw [htables, Function.update_self]
    exact ⟨rfl, rfl⟩
  refine ⟨hshape, identified (hshape.migrated hmigrated) hkeys ?_ ?_⟩
  · intro row hrow
    rw [htables, Function.update_self] at hrow
    obtain ⟨old, hold, rfl⟩ := List.mem_map.1 hrow
    split
    · rw [h.get_update hold sets hmigrated.id_mem]
      cases hvalue : lookup? "id" sets with
      | none => exact h.fits old hold
      | some value => exact hid value hvalue
    · exact h.fits old hold
  · intro row hrow
    rw [htables, Function.update_self] at hrow ⊢
    obtain ⟨old, hold, rfl⟩ := List.mem_map.1 hrow
    have hshaped := h.shaped old hold
    split
    · exact (update_columns old sets).trans hshaped
    · exact hshaped

theorem identified_removes {clauses : List WhereClause} {tenant : Option String} (h : Identified (tables name))
    (hremoves : Client.Removes env.pg env.casing tenant name clauses tables tables' rows) :
    SameShape (tables name) (tables' name) ∧ Identified (tables' name) := by
  obtain ⟨-, htables⟩ := hremoves
  rw [htables, Function.update_self]
  refine ⟨⟨rfl, rfl⟩, ?_, fun row hrow => h.named row (List.mem_of_mem_filter hrow),
    fun row hrow => h.shaped row (List.mem_of_mem_filter hrow)⟩
  exact h.ids.sublist (List.filter_sublist.map _)

theorem dataValues_id {model : Model} {data : Record} {sets : List (String × SqlValue)} (hmigrated : Migrated (tables name))
    (hsets : Db.dataValues env.pg env.casing model (tables name) data = some sets) (value : SqlValue)
    (hvalue : lookup? "id" sets = some value) : value.fits .text = true := by
  rw [Db.lookup_dataValues env.pg env.casing hsets] at hvalue
  obtain ⟨entry, hentry, hvalue⟩ := Option.bind_eq_some_iff.1 hvalue
  have hcolumn : toSnakeCase env.casing entry.1 = "id" := by simpa using List.find?_some hentry
  obtain ⟨type, htype, hfits⟩ := Db.entryValue_fits env.pg env.casing hvalue
  rw [hcolumn, hmigrated.id] at htype
  cases htype
  exact hfits

/-- The deletion of a row leaves its id. -/
theorem deletedAt_id (deletedAt value : SqlValue) (h : lookup? "id" [("deleted_at", deletedAt)] = some value) :
    value.fits .text = true := by
  cases h

theorem commit_identified {c : Commit} {w w' : World} (htexts : TextIds env (c.table env))
    (hmigrated : Migrated (w.store.tables (c.table env))) (h : Identified (w.store.tables (c.table env)))
    (hvalid : c.Valid env w w') :
    SameShape (w.store.tables (c.table env)) (w'.store.tables (c.table env)) ∧
      Identified (w'.store.tables (c.table env)) := by
  have hdoes := hvalid.does
  unfold Write.Does at hdoes
  cases hhanded : c.handed with
  | create data =>
    rw [hhanded] at hdoes
    obtain ⟨values, -, -, happends⟩ := hdoes
    exact identified_appends htexts hmigrated h happends
  | createMany data =>
    rw [hhanded] at hdoes
    exact identified_appends htexts hmigrated h hdoes
  | updateMany clauses data =>
    rw [hhanded] at hdoes
    obtain ⟨sets, hsets, hset⟩ := hdoes
    exact identified_sets hmigrated h (dataValues_id hmigrated hsets) hset
  | deleteMany clauses =>
    rw [hhanded] at hdoes
    obtain ⟨now, hset⟩ := hdoes
    exact identified_sets hmigrated h (deletedAt_id _) hset
  | restoreMany clauses =>
    rw [hhanded] at hdoes
    exact identified_sets hmigrated h (deletedAt_id _) hdoes
  | hardDeleteMany clauses =>
    rw [hhanded] at hdoes
    exact identified_removes h hdoes

end

end Atomo.Projectors

import Atomo.Client.Recording
import Atomo.Projectors.Mirrors

/-!
# Rebuilds over the history of a model

The log that the writes of a client leave, replayed on a projection table, against the base table that they leave. The
two agree for as long as the writes are plain (`rebuilt_iff`): a restore tells the id of its row alone, and the events
of a row do not tell when an insertion or an update sets its `deleted_at` or its `id`.
-/

namespace Atomo.Projectors

open Schema (Model lookup?)
open Client (Env World Write Call Commit Record performAll)
open Db (Row Table Tables SqlValue)
open Query (WhereClause)

/-! ## The events of a commit -/

/-- A row of the log as the projections read it. -/
def logRow (entry : LogEntry) : EventLogRow where
  modelName := entry.modelName
  eventType := entry.eventType
  data := .object entry.data
  timestamp := entry.timestamp
  createdAt := entry.createdAt

/-- The events of a commit as they are logged. -/
def logged (c : Commit) : List EventLogRow :=
  c.events.map fun event => logRow (event.entry c.now)

/-- An event tells of a row. -/
structure Tells (env : Env) (c : Commit) (tables : Tables) (event : EventLogRow) (row : Row) : Prop where
  model : event.modelName = c.call.modelName
  type : event.eventType = c.handed.eventType.debug
  data : TableProjection.dataOf event.data = c.handed.payload (c.handed.record env c.model tables row)

section

variable {env : Env} {server : Server} {projection : TableProjection} {c : Commit} {w w' : World}

theorem logged_tells (hvalid : c.Valid env w w') : List.Forall₂ (Tells env c w.store.tables) (logged c) c.rows := by
  have hevents := hvalid.events
  unfold logged
  generalize c.events = events at hevents ⊢
  generalize c.rows = rows at hevents ⊢
  induction events generalizing rows with
  | nil =>
    rw [List.map_nil, eq_comm, List.map_eq_nil_iff] at hevents
    rw [hevents]
    exact .nil
  | cons event events ih =>
    cases rows with
    | nil => cases hevents
    | cons row rows =>
      obtain ⟨hfirst, hrest⟩ := List.cons.inj hevents
      obtain ⟨htype, hrow⟩ := Prod.mk.inj hfirst
      obtain ⟨hmodel, hdata⟩ := Prod.mk.inj hrow
      exact .cons ⟨hmodel, congrArg EventType.debug htype, hdata⟩ (ih rows hrest)

theorem lookup_idOnly {record : Record} : (Client.idOnly record).lookup "id" = record.lookup "id" := by
  unfold Client.idOnly
  rw [lookup?_eq_lookup]
  cases record.lookup "id" <;> rfl

/-- What a write returns of a row has its id. -/
theorem lookup_record {write : Write} {model : Model} {tables : Tables} {row : Row}
    (hid : "id" ∈ (tables (Query.tableName env.casing model)).columnNames) :
    (write.payload (write.record env model tables row)).lookup "id" = some (Db.decode env.pg (row.get "id")) := by
  have hcolumn : "id" ∈ write.columns (tables (Query.tableName env.casing model)) := by
    cases write with
    | create | createMany | updateMany => exact hid
    | deleteMany | restoreMany | hardDeleteMany => exact List.mem_singleton_self _
  have hlookup := Db.lookup?_rowToMap env.pg row hcolumn
  rw [lookup?_eq_lookup] at hlookup
  cases write with
  | create | createMany | updateMany | restoreMany => exact hlookup
  | deleteMany | hardDeleteMany => exact lookup_idOnly.trans hlookup

theorem Tells.named {event : EventLogRow} {row : Row} (h : Tells env c w.store.tables event row)
    (hid : "id" ∈ (w.store.tables (c.table env)).columnNames) (hrow : row.get "id" = .text (idOf row)) :
    event.id?.isSome = true ∧ event.key = idOf row := by
  have hlookup : (TableProjection.dataOf event.data).lookup "id" = some (.string (idOf row)) := by
    rw [h.data, lookup_record hid, hrow]
    rfl
  unfold EventLogRow.key EventLogRow.id?
  rw [hlookup]
  exact ⟨rfl, rfl⟩

theorem keys_logged {events : List EventLogRow} {rows : List Row} (h : List.Forall₂ (Tells env c w.store.tables) events rows)
    (hid : "id" ∈ (w.store.tables (c.table env)).columnNames) (hrows : ∀ row ∈ rows, row.get "id" = .text (idOf row)) :
    events.map EventLogRow.key = rows.map idOf := by
  induction h with
  | nil => rfl
  | cons hfirst _ ih =>
    rw [List.map_cons, List.map_cons, (hfirst.named hid (hrows _ List.mem_cons_self)).2,
      ih fun row hrow => hrows row (List.mem_cons_of_mem _ hrow)]

theorem exists_of_forall₂ {α β : Type} {R : α → β → Prop} {as : List α} {bs : List β} (h : List.Forall₂ R as bs) {b : β}
    (hb : b ∈ bs) : ∃ a ∈ as, R a b := by
  induction h with
  | nil => cases hb
  | cons hfirst _ ih =>
    rcases List.mem_cons.1 hb with rfl | hrest
    · exact ⟨_, List.mem_cons_self, hfirst⟩
    · obtain ⟨a, ha, hR⟩ := ih hrest
      exact ⟨a, List.mem_cons_of_mem _ ha, hR⟩

/-- The rows by id after the events of a commit. -/
def heldAfter (server : Server) (projection : TableProjection) (c : Commit) (held : String → Option TextRow) :
    String → Option TextRow :=
  KeyedFold.run EventLogRow.key (TableProjection.effect server projection) held (logged c)

/-- Each row meets its event, and no other row any. -/
theorem heldAfter_eq {held : String → Option TextRow} (hvalid : c.Valid env w w')
    (hid : "id" ∈ (w.store.tables (c.table env)).columnNames) (hids : (c.rows.map idOf).Nodup)
    (hrows : ∀ row ∈ c.rows, row.get "id" = .text (idOf row)) :
    (∀ row ∈ c.rows, ∃ event, Tells env c w.store.tables event row ∧ event.id?.isSome = true ∧ event.key = idOf row ∧
      heldAfter server projection c held (idOf row) = TableProjection.effect server projection event (held (idOf row))) ∧
    ∀ id, id ∉ c.rows.map idOf → heldAfter server projection c held id = held id := by
  have htells := logged_tells hvalid
  have hkeys := keys_logged htells hid hrows
  constructor
  · intro row hrow
    obtain ⟨event, hevent, htell⟩ := exists_of_forall₂ htells hrow
    obtain ⟨hnamed, hkey⟩ := htell.named hid (hrows row hrow)
    refine ⟨event, htell, hnamed, hkey, ?_⟩
    rw [← hkey]
    refine KeyedFold.run_of_nodup ?_ hevent
    rw [hkeys]
    exact hids
  · intro id hnot
    apply KeyedFold.run_of_forall_ne
    intro event hevent heq
    apply hnot
    rw [← hkeys, ← heq]
    exact List.mem_map_of_mem hevent

/-- The texts that the full data of a row give. -/
theorem texts_record {write : Write} {model : Model} {tables : Tables} {row : Row}
    (hcolumns : write.columns (tables (Query.tableName env.casing model)) =
      (tables (Query.tableName env.casing model)).columnNames)
    (hpayload : write.payload = id) (hsubset : projection.columns ⊆ (tables (Query.tableName env.casing model)).columnNames)
    {column : String} (hcolumn : column ∈ projection.columns) :
    ((write.payload (write.record env model tables row)).lookup column).map (valueToText server) =
      some (valueToText server (Db.decode env.pg (row.get column))) := by
  have hmem : column ∈ write.columns (tables (Query.tableName env.casing model)) := by
    rw [hcolumns]
    exact hsubset hcolumn
  rw [hpayload, id, Write.record, ← lookup?_eq_lookup, Db.lookup?_rowToMap env.pg row hmem]
  rfl

/-! ## A commit -/

variable {event : EventLogRow} {row : Row} {held : String → Option TextRow}

/-- An event has the data of all columns of a row. -/
def Full (env : Env) (server : Server) (projection : TableProjection) (event : EventLogRow) (row : Row) : Prop :=
  ∀ column ∈ projection.columns, ((TableProjection.dataOf event.data).lookup column).map (valueToText server) =
    some (valueToText server (Db.decode env.pg (row.get column)))

theorem created_cells (hwell : projection.WellFormed) (htype : event.eventType = "Created")
    (hnamed : event.id?.isSome = true) (hfull : Full env server projection event row) :
    (TableProjection.effect server projection event none).map projection.cells =
      some (render env server projection row) := by
  rw [TableProjection.effect_inserted hwell (.inl htype) hnamed, Option.none_or, Option.map_some,
    TableProjection.cells_newRow]
  exact congrArg some (List.map_congr_left hfull)

theorem updated_cells {old : TextRow} (htype : event.eventType = "Updated") (hnamed : event.id?.isSome = true)
    (hfull : Full env server projection event row) (hrow : row.get "id" = .text (idOf row))
    (hcolumns : old.map Prod.fst = projection.columns) (hid : old.get "id" = some (idOf row)) :
    (TableProjection.effect server projection event (some old)).map projection.cells =
      some (render env server projection row) := by
  rw [TableProjection.effect_updated htype hnamed, Option.map_some, Option.map_some,
    TableProjection.cells_setRow hcolumns]
  refine congrArg some (List.map_congr_left fun column hcolumn => ?_)
  split
  · next heq => rw [heq, hid, hrow]; rfl
  · rw [hfull column hcolumn, Option.some_or]

theorem restored_cells (hwell : projection.WellFormed) (htype : event.eventType = "Restored")
    (hnamed : event.id?.isSome = true)
    (hdata : TableProjection.dataOf event.data = [("id", .string (idOf row))]) :
    (TableProjection.effect server projection event none).map projection.cells =
      some (projection.columns.map fun column => if column = "id" then some (idOf row) else none) := by
  rw [TableProjection.effect_inserted hwell (.inr htype) hnamed, Option.none_or, Option.map_some,
    TableProjection.cells_newRow, hdata]
  refine congrArg some (List.map_congr_left fun column _ => ?_)
  by_cases heq : column = "id"
  · subst heq
    rfl
  · have hne : (column == "id") = false := by simpa using heq
    simp [List.lookup_cons, hne, heq]

/-- What a write must do for a rebuild to tell of it: insert live rows, update rows without a change of their deletion
or, where they are live, of their id, and restore rows that are live, if there is more to them than their id. -/
def Plain (env : Env) (projection : TableProjection) (tables : Tables) (c : Commit) : Prop :=
  let rows := (tables (c.table env)).rows
  let selected clauses := Db.matching env.pg env.casing (Client.boundTenant env c.call.scope) (c.table env) clauses
  match c.handed with
  | .create _ | .createMany _ => ∀ row ∈ c.rows, isLive row = true
  | .updateMany clauses data =>
    ∀ sets, Db.dataValues env.pg env.casing c.model (tables (c.table env)) data = some sets →
      ∀ row ∈ rows, selected clauses row = true →
        isLive (row.update sets) = isLive row ∧ (isLive row = true → idOf (row.update sets) = idOf row)
  | .restoreMany clauses =>
    ∀ row ∈ rows, selected clauses row = true → isLive row = true ∨ ∀ column ∈ projection.columns, column = "id"
  | .deleteMany _ | .hardDeleteMany _ => True

theorem mirrors_creates (hwell : projection.WellFormed)
    (hsubset : projection.columns ⊆ (w.store.tables (c.table env)).columnNames)
    (hid : "id" ∈ (w.store.tables (c.table env)).columnNames) (hvalid : c.Valid env w w')
    (hidentified' : Identified (w'.store.tables (c.table env)))
    (hmirrors : Mirrors env server projection held (w.store.tables (c.table env)).rows)
    (happends : Client.Appends env.pg (c.table env) w.store.tables w'.store.tables c.rows)
    (htype : c.handed.eventType = .created) (hpayload : c.handed.payload = id)
    (hcolumns : c.handed.columns (w.store.tables (c.table env)) = (w.store.tables (c.table env)).columnNames) :
    Mirrors env server projection (heldAfter server projection c held) (w'.store.tables (c.table env)).rows ↔
      ∀ row ∈ c.rows, isLive row = true := by
  have hrows' : (w'.store.tables (c.table env)).rows = (w.store.tables (c.table env)).rows ++ c.rows := by
    rw [happends.2.1, Function.update_self]
  have hids := hidentified'.ids
  rw [hrows'] at hids ⊢
  have hrows : ∀ row ∈ c.rows, row.get "id" = .text (idOf row) := fun row hrow =>
    hidentified'.named row (hrows' ▸ List.mem_append_right _ hrow)
  have hnodup : (c.rows.map idOf).Nodup := by
    rw [List.map_append] at hids
    exact (List.nodup_append.1 hids).2.1
  obtain ⟨hmet, hother⟩ := heldAfter_eq hvalid hid hnodup hrows
  refine mirrors_append hids hmirrors (fun row hrow hnone => ?_) hother
  obtain ⟨event, htells, hnamed, -, heq⟩ := hmet row hrow
  rw [heq, hnone]
  refine created_cells hwell ?_ hnamed fun column hcolumn => ?_
  · rw [htells.type, htype]
    rfl
  · rw [htells.data]
    exact texts_record hcolumns hpayload hsubset hcolumn

/-- The ids of the rows that are set are those of rows of the table. -/
theorem changed_sublist (selected : Row → Bool) (f : Row → Row) (rows : List Row) :
    ((rows.filter selected).map f).Sublist (setRows selected f rows) := by
  have hsame : (rows.filter selected).map f = (rows.filter selected).map fun row => if selected row then f row else row := by
    apply List.map_congr_left
    intro row hrow
    rw [if_pos (List.mem_filter.1 hrow).2]
  rw [hsame]
  exact List.filter_sublist.map _

/-- What the statement of a setting does to the rows. -/
theorem sets_rows {name : String} {tenant : Option String} {clauses : List WhereClause} {sets : List (String × SqlValue)}
    {tables tables' : Tables} {rows : List Row}
    (h : Client.Sets env.pg env.casing tenant name clauses sets tables tables' rows) :
    rows = ((tables name).rows.filter (Db.matching env.pg env.casing tenant name clauses)).map (·.update sets) ∧
      (tables' name).rows = setRows (Db.matching env.pg env.casing tenant name clauses) (·.update sets) (tables name).rows := by
  obtain ⟨hrows, htables, -⟩ := h
  refine ⟨hrows, ?_⟩
  rw [htables, Function.update_self]
  rfl

theorem idOf_update (hidentified : Identified (w.store.tables (c.table env)))
    (hid : "id" ∈ (w.store.tables (c.table env)).columnNames) (sets : List (String × SqlValue)) {row : Row}
    (hrow : row ∈ (w.store.tables (c.table env)).rows) :
    (row.update sets).get "id" = (lookup? "id" sets).getD (row.get "id") :=
  hidentified.get_update hrow sets hid

theorem setsId_update (hidentified : Identified (w.store.tables (c.table env)))
    (hid : "id" ∈ (w.store.tables (c.table env)).columnNames) (sets : List (String × SqlValue)) :
    SetsId (·.update sets) (w.store.tables (c.table env)).rows := by
  cases hsets : lookup? "id" sets with
  | none =>
    refine .inr fun row hrow => ?_
    unfold idOf
    rw [idOf_update hidentified hid sets hrow, hsets]
    rfl
  | some value =>
    refine .inl ⟨idOf [("id", value)], fun row hrow => ?_⟩
    unfold idOf
    rw [idOf_update hidentified hid sets hrow, hsets]
    rfl

/-- The rows that a setting is about. -/
structure Changed (env : Env) (c : Commit) (w w' : World) (selected : Row → Bool) (f : Row → Row) : Prop where
  rows : c.rows = ((w.store.tables (c.table env)).rows.filter selected).map f
  rows' : (w'.store.tables (c.table env)).rows = setRows selected f (w.store.tables (c.table env)).rows

theorem Changed.named {selected : Row → Bool} {f : Row → Row} (h : Changed env c w w' selected f)
    (hidentified' : Identified (w'.store.tables (c.table env))) :
    (∀ row ∈ c.rows, row.get "id" = .text (idOf row)) ∧ (c.rows.map idOf).Nodup ∧
      ((setRows selected f (w.store.tables (c.table env)).rows).map idOf).Nodup := by
  have hids := hidentified'.ids
  rw [h.rows'] at hids
  have hsublist := changed_sublist selected f (w.store.tables (c.table env)).rows
  rw [← h.rows] at hsublist
  refine ⟨fun row hrow => ?_, hids.sublist (hsublist.map idOf), hids⟩
  apply hidentified'.named
  rw [h.rows']
  exact hsublist.subset hrow

theorem mem_changed {selected : Row → Bool} {f : Row → Row} (h : Changed env c w w' selected f)
    (hrow : row ∈ (w.store.tables (c.table env)).rows) (hselected : selected row = true) : f row ∈ c.rows := by
  rw [h.rows]
  exact List.mem_map_of_mem (List.mem_filter.2 ⟨hrow, hselected⟩)

theorem mirrors_updates {selected : Row → Bool} {sets : List (String × SqlValue)}
    (hsubset : projection.columns ⊆ (w.store.tables (c.table env)).columnNames)
    (hid : "id" ∈ (w.store.tables (c.table env)).columnNames) (hvalid : c.Valid env w w')
    (hidentified : Identified (w.store.tables (c.table env)))
    (hidentified' : Identified (w'.store.tables (c.table env)))
    (hheld : ∀ id text, held id = some text → text.map Prod.fst = projection.columns ∧ text.get "id" = some id)
    (hmirrors : Mirrors env server projection held (w.store.tables (c.table env)).rows)
    (hchanged : Changed env c w w' selected (·.update sets))
    (htype : c.handed.eventType = .updated) (hpayload : c.handed.payload = id)
    (hcolumns : c.handed.columns (w.store.tables (c.table env)) = (w.store.tables (c.table env)).columnNames) :
    Mirrors env server projection (heldAfter server projection c held) (w'.store.tables (c.table env)).rows ↔
      ∀ row ∈ (w.store.tables (c.table env)).rows, selected row = true →
        isLive (row.update sets) = isLive row ∧ (isLive row = true → idOf (row.update sets) = idOf row) := by
  obtain ⟨hrows, hnodup, hset⟩ := hchanged.named hidentified'
  obtain ⟨hmet, hother⟩ := heldAfter_eq hvalid hid hnodup hrows
  rw [hchanged.rows] at hother
  rw [hchanged.rows']
  refine mirrors_update hidentified.ids hset (setsId_update hidentified hid sets) hmirrors (fun row hrow hselected hnone => ?_)
    (fun row hrow hselected hsome => ?_) hother
  · obtain ⟨event, htells, hnamed, -, heq⟩ := hmet _ (mem_changed hchanged hrow hselected)
    rw [heq, hnone, TableProjection.effect_updated ?_ hnamed]
    · rfl
    · rw [htells.type, htype]
      rfl
  · have hin := mem_changed hchanged hrow hselected
    obtain ⟨event, htells, hnamed, -, heq⟩ := hmet _ hin
    obtain ⟨old, hold⟩ := Option.isSome_iff_exists.1 hsome
    obtain ⟨holdColumns, holdId⟩ := hheld _ _ hold
    rw [heq, hold]
    refine updated_cells ?_ hnamed (fun column hcolumn => ?_) (hrows _ hin) holdColumns holdId
    · rw [htells.type, htype]
      rfl
    · rw [htells.data]
      exact texts_record hcolumns hpayload hsubset hcolumn

theorem mirrors_deletes {selected : Row → Bool} {now : Int} (hmigrated : Migrated (w.store.tables (c.table env)))
    (hvalid : c.Valid env w w') (hidentified : Identified (w.store.tables (c.table env)))
    (hidentified' : Identified (w'.store.tables (c.table env)))
    (hmirrors : Mirrors env server projection held (w.store.tables (c.table env)).rows)
    (hchanged : Changed env c w w' selected (·.update [("deleted_at", .timestamptz now)]))
    (htype : c.handed.eventType = .deleted) :
    Mirrors env server projection (heldAfter server projection c held) (w'.store.tables (c.table env)).rows := by
  obtain ⟨hrows, hnodup, hset⟩ := hchanged.named hidentified'
  obtain ⟨hmet, hother⟩ := heldAfter_eq hvalid hmigrated.id_mem hnodup hrows
  rw [hchanged.rows] at hother
  rw [hchanged.rows']
  refine mirrors_delete hset (fun row hrow hselected => ⟨?_, ?_⟩) hmirrors (fun row hrow hselected => ?_) hother
  · unfold isLive
    rw [hidentified.get_update hrow _ hmigrated.deletedAt]
    rfl
  · unfold idOf
    rw [idOf_update hidentified hmigrated.id_mem _ hrow]
    rfl
  · obtain ⟨event, htells, hnamed, -, heq⟩ := hmet _ (mem_changed hchanged hrow hselected)
    rw [heq, TableProjection.effect_deleted (.inl ?_) hnamed]
    rw [htells.type, htype]
    rfl

theorem mirrors_hardDeletes {selected : Row → Bool} (hmigrated : Migrated (w.store.tables (c.table env)))
    (hvalid : c.Valid env w w') (hidentified : Identified (w.store.tables (c.table env)))
    (hmirrors : Mirrors env server projection held (w.store.tables (c.table env)).rows)
    (hrows : c.rows = (w.store.tables (c.table env)).rows.filter selected)
    (hrows' : (w'.store.tables (c.table env)).rows = (w.store.tables (c.table env)).rows.filter fun row => !selected row)
    (htype : c.handed.eventType = .hardDeleted) :
    Mirrors env server projection (heldAfter server projection c held) (w'.store.tables (c.table env)).rows := by
  have hnamed : ∀ row ∈ c.rows, row.get "id" = .text (idOf row) := by
    rw [hrows]
    exact fun row hrow => hidentified.named row (List.mem_of_mem_filter hrow)
  have hnodup : (c.rows.map idOf).Nodup := by
    rw [hrows]
    exact hidentified.ids.sublist (List.filter_sublist.map _)
  obtain ⟨hmet, hother⟩ := heldAfter_eq hvalid hmigrated.id_mem hnodup hnamed
  rw [hrows] at hother
  rw [hrows']
  refine mirrors_filter hidentified.ids hmirrors (fun row hrow hselected => ?_) hother
  have hin : row ∈ c.rows := by
    rw [hrows]
    exact List.mem_filter.2 ⟨hrow, hselected⟩
  obtain ⟨event, htells, hevent, -, heq⟩ := hmet row hin
  rw [heq, TableProjection.effect_deleted (.inr ?_) hevent]
  rw [htells.type, htype]
  rfl

theorem render_restored (hidentified : Identified (w.store.tables (c.table env)))
    (hsubset : projection.columns ⊆ (w.store.tables (c.table env)).columnNames)
    (hrow : row ∈ (w.store.tables (c.table env)).rows) (hlive : isLive row = true) :
    render env server projection (row.update [("deleted_at", .null)]) = render env server projection row := by
  apply List.map_congr_left
  intro column hcolumn
  rw [hidentified.get_update hrow _ (hsubset hcolumn)]
  by_cases heq : column = "deleted_at"
  · subst heq
    rw [of_decide_eq_true hlive]
    rfl
  · have hne : ¬"deleted_at" = column := fun h => heq h.symm
    simp [lookup?, hne]

theorem render_eq_id (hrow : row.get "id" = .text (idOf row)) :
    (render env server projection row = projection.columns.map fun column =>
      if column = "id" then some (idOf row) else none) ↔ ∀ column ∈ projection.columns, column = "id" := by
  unfold render
  rw [List.map_inj_left]
  refine forall₂_congr fun column _ => ?_
  by_cases heq : column = "id"
  · subst heq
    simp [hrow, Db.decode, valueToText]
  · simp [heq]

theorem mirrors_restores {selected : Row → Bool} (hwell : projection.WellFormed)
    (hmigrated : Migrated (w.store.tables (c.table env)))
    (hsubset : projection.columns ⊆ (w.store.tables (c.table env)).columnNames)
    (hvalid : c.Valid env w w') (hidentified : Identified (w.store.tables (c.table env)))
    (hidentified' : Identified (w'.store.tables (c.table env)))
    (hmirrors : Mirrors env server projection held (w.store.tables (c.table env)).rows)
    (hchanged : Changed env c w w' selected (·.update [("deleted_at", .null)]))
    (htype : c.handed.eventType = .restored) (hpayload : c.handed.payload = id)
    (hcolumns : c.handed.columns (w.store.tables (c.table env)) = ["id"]) :
    Mirrors env server projection (heldAfter server projection c held) (w'.store.tables (c.table env)).rows ↔
      ∀ row ∈ (w.store.tables (c.table env)).rows, selected row = true →
        isLive row = true ∨ ∀ column ∈ projection.columns, column = "id" := by
  obtain ⟨hrows, hnodup, hset⟩ := hchanged.named hidentified'
  obtain ⟨hmet, hother⟩ := heldAfter_eq hvalid hmigrated.id_mem hnodup hrows
  rw [hchanged.rows] at hother
  rw [hchanged.rows']
  have hsame : ∀ row ∈ (w.store.tables (c.table env)).rows,
      (row.update [("deleted_at", .null)]).get "id" = row.get "id" := by
    intro row hrow
    rw [idOf_update hidentified hmigrated.id_mem _ hrow]
    rfl
  have hsameId : ∀ row ∈ (w.store.tables (c.table env)).rows, idOf (row.update [("deleted_at", .null)]) = idOf row := by
    intro row hrow
    unfold idOf
    rw [hsame row hrow]
  refine mirrors_restore hidentified.ids hset (fun row hrow _ => ⟨?_, hsameId row hrow⟩)
    (fun row hrow hlive => render_restored hidentified hsubset hrow hlive) (fun row hrow => render_eq_id ?_) hmirrors
    (fun row hrow hselected text htext => ?_) (fun row hrow hselected hnone => ?_) hother
  · unfold isLive
    rw [hidentified.get_update hrow _ hmigrated.deletedAt]
    rfl
  · rw [hsame row hrow, hsameId row hrow]
    exact hidentified.named row hrow
  · obtain ⟨event, htells, hnamed, -, heq⟩ := hmet _ (mem_changed hchanged hrow hselected)
    rw [heq, htext, TableProjection.effect_inserted hwell (.inr ?_) hnamed, Option.some_or]
    rw [htells.type, htype]
    rfl
  · have hin := mem_changed hchanged hrow hselected
    obtain ⟨event, htells, hnamed, -, heq⟩ := hmet _ hin
    rw [heq, hnone]
    refine restored_cells hwell ?_ hnamed ?_
    · rw [htells.type, htype]
      rfl
    · have hrecord : c.handed.record env c.model w.store.tables = Db.rowToMap env.pg ["id"] :=
        congrArg (Db.rowToMap env.pg) hcolumns
      rw [htells.data, hpayload, hrecord, id, Db.rowToMap, List.map_singleton, hrows _ hin]
      rfl

/-- A rebuild goes on to tell of the live rows after a commit just when its write is plain. -/
theorem mirrors_commit (hwell : projection.WellFormed) (hmigrated : Migrated (w.store.tables (c.table env)))
    (hsubset : projection.columns ⊆ (w.store.tables (c.table env)).columnNames) (hvalid : c.Valid env w w')
    (hidentified : Identified (w.store.tables (c.table env)))
    (hidentified' : Identified (w'.store.tables (c.table env)))
    (hheld : ∀ id text, held id = some text → text.map Prod.fst = projection.columns ∧ text.get "id" = some id)
    (hmirrors : Mirrors env server projection held (w.store.tables (c.table env)).rows) :
    Mirrors env server projection (heldAfter server projection c held) (w'.store.tables (c.table env)).rows ↔
      Plain env projection w.store.tables c := by
  have hdoes := hvalid.does
  unfold Write.Does at hdoes
  unfold Plain
  cases hhanded : c.handed with
  | create data =>
    rw [hhanded] at hdoes
    obtain ⟨values, -, -, happends⟩ := hdoes
    apply mirrors_creates hwell hsubset hmigrated.id_mem hvalid hidentified' hmirrors happends <;> rw [hhanded] <;> rfl
  | createMany data =>
    rw [hhanded] at hdoes
    apply mirrors_creates hwell hsubset hmigrated.id_mem hvalid hidentified' hmirrors hdoes <;> rw [hhanded] <;> rfl
  | updateMany clauses data =>
    rw [hhanded] at hdoes
    obtain ⟨sets, hsets, hset⟩ := hdoes
    have hchanged : Changed env c w w' _ (·.update sets) := ⟨(sets_rows hset).1, (sets_rows hset).2⟩
    dsimp only
    refine (mirrors_updates hsubset hmigrated.id_mem hvalid hidentified hidentified' hheld hmirrors hchanged
      (by rw [hhanded]; rfl) (by rw [hhanded]; rfl) (by rw [hhanded]; rfl)).trans ⟨fun hplain sets' hsets' => ?_, fun hplain => ?_⟩
    · cases hsets.symm.trans hsets'
      exact hplain
    · exact hplain sets hsets
  | deleteMany clauses =>
    rw [hhanded] at hdoes
    obtain ⟨now, hset⟩ := hdoes
    have hchanged : Changed env c w w' _ (·.update [("deleted_at", .timestamptz now)]) :=
      ⟨(sets_rows hset).1, (sets_rows hset).2⟩
    refine iff_of_true (mirrors_deletes hmigrated hvalid hidentified hidentified' hmirrors hchanged ?_) trivial
    rw [hhanded]
    rfl
  | restoreMany clauses =>
    rw [hhanded] at hdoes
    have hchanged : Changed env c w w' _ (·.update [("deleted_at", .null)]) := ⟨(sets_rows hdoes).1, (sets_rows hdoes).2⟩
    apply mirrors_restores hwell hmigrated hsubset hvalid hidentified hidentified' hmirrors hchanged <;> rw [hhanded] <;> rfl
  | hardDeleteMany clauses =>
    rw [hhanded] at hdoes
    obtain ⟨hrows, htables⟩ := hdoes
    refine iff_of_true (mirrors_hardDeletes hmigrated hvalid hidentified hmirrors hrows ?_ ?_) trivial
    · rw [htables]
      exact congrArg Table.rows (Function.update_self (Query.tableName env.casing c.model) _ w.store.tables)
    · rw [hhanded]
      rfl

end

/-! ## Runs -/

section

variable {env : Env} {server : Server} {projection : TableProjection} {model : Model} {w : World}

/-- The logged events of the source model. -/
def ofModel (projection : TableProjection) (store : Store) : List EventLogRow :=
  (store.eventLog.map logRow).filter (·.modelName = projection.sourceModel)

/-- The text that a history mode is stored as. -/
def modeText : HistoryMode → String
  | .full => "full"
  | .off => "off"
  | .retained => "retained"

/-- A store with some projection tables, as the projections find it. -/
def found (store : Store) (tables : String → Option ProjectionTable) : Database where
  coverage := some fun model => (store.coverage model).map fun row => (modeText row.mode, row.complete)
  eventLog := store.eventLog.map logRow
  tables

/-- A model of full history that has no rows and no events yet, with a projection of columns of it. -/
structure Replayable (env : Env) (projection : TableProjection) (model : Model) (w : World) : Prop where
  known : env.schema.model? projection.sourceModel = some model
  full : (env.history.policy projection.sourceModel).mode = .full
  complete : ∀ row, w.store.coverage projection.sourceModel = some row → row.mode = .full ∧ row.complete = true
  migrated : Migrated (w.store.tables (Query.tableName env.casing model))
  empty : (w.store.tables (Query.tableName env.casing model)).rows = []
  unlogged : ∀ entry ∈ w.store.eventLog, entry.modelName ≠ projection.sourceModel
  wellFormed : projection.WellFormed
  subset : projection.columns ⊆ (w.store.tables (Query.tableName env.casing model)).columnNames
  freshIds : Write.FreshIds env w
  textIds : TextIds env (Query.tableName env.casing model)

/-- The texts of the live rows of the model. -/
def liveRows (env : Env) (server : Server) (projection : TableProjection) (model : Model) (w : World) :
    List (List (Option String)) :=
  ((w.store.tables (Query.tableName env.casing model)).rows.filter isLive).map (render env server projection)

/-- A rebuild fails with a statement that the server fails, or leaves exactly the live rows in the projection table,
whatever was in there. -/
def RebuildsLive (env : Env) (server : Server) (projection : TableProjection) (model : Model) (w : World) : Prop :=
  ∀ (c : Connection) (tables : String → Option ProjectionTable) (table : ProjectionTable) (fails : Nat → Bool),
    c.database = found w.store tables → tables (server.identifier projection.tableName) = some table →
    table.truncated = projection.created →
      Ends (projection.rebuildIn { server with fails }) c
        (fun _ c' => ∃ table', c'.database = c.database.setTable (server.identifier projection.tableName) table' ∧
          (table'.rows.map projection.cells).Perm (liveRows env server projection model w))
        fun _ _ => ∃ tick, fails tick = true

/-- A call that is plain if it commits. -/
def PlainCall (env : Env) (projection : TableProjection) (call : Call) (w : World) : Prop :=
  ∀ c : Commit, c.call = call → c.Valid env w (call.perform env w) → c.Stored w (call.perform env w) →
    Plain env projection w.store.tables c

/-- What all writes keep. -/
structure Kept (env : Env) (projection : TableProjection) (model : Model) (start w : World) : Prop where
  freshIds : Write.FreshIds env w
  shape : SameShape (start.store.tables (Query.tableName env.casing model)) (w.store.tables (Query.tableName env.casing model))
  identified : Identified (w.store.tables (Query.tableName env.casing model))
  coverage : w.store.coverage = start.store.coverage
  named : ∀ row ∈ ofModel projection w.store, row.id?.isSome = true

variable {start : World}

theorem Replayable.kept (h : Replayable env projection model start) : Kept env projection model start start where
  freshIds := h.freshIds
  shape := ⟨rfl, rfl⟩
  identified := by
    refine ⟨?_, ?_, ?_⟩ <;> rw [h.empty]
    · exact List.nodup_nil
    · exact fun row hrow => absurd hrow List.not_mem_nil
    · exact fun row hrow => absurd hrow List.not_mem_nil
  coverage := rfl
  named := by
    intro row hrow
    obtain ⟨hin, hmodel⟩ := List.mem_filter.1 hrow
    obtain ⟨entry, hentry, rfl⟩ := List.mem_map.1 hin
    exact absurd (of_decide_eq_true hmodel) (h.unlogged entry hentry)

theorem Kept.migrated (hreplayable : Replayable env projection model start) (h : Kept env projection model start w) :
    Migrated (w.store.tables (Query.tableName env.casing model)) :=
  h.shape.migrated hreplayable.migrated

theorem Kept.subset (hreplayable : Replayable env projection model start) (h : Kept env projection model start w) :
    projection.columns ⊆ (w.store.tables (Query.tableName env.casing model)).columnNames := by
  have hcolumns := h.shape.1
  unfold Table.columnNames
  rw [hcolumns]
  exact hreplayable.subset

/-- The commits of the model are about its table. -/
theorem valid_table (hreplayable : Replayable env projection model start) {c : Commit} {w' : World}
    (hmodel : c.call.modelName = projection.sourceModel) (hvalid : c.Valid env w w') :
    c.table env = Query.tableName env.casing model := by
  have hc := hvalid.model
  rw [hmodel, hreplayable.known] at hc
  cases hc
  rfl

theorem ofModel_stored {c : Commit} {w' : World} (hmodel : c.call.modelName = projection.sourceModel)
    (hvalid : c.Valid env w w') (hstored : c.Stored w w') :
    ofModel projection w'.store = ofModel projection w.store ++ logged c := by
  unfold ofModel
  rw [hstored.eventLog, List.map_append, List.filter_append, List.map_map]
  congr 1
  apply List.filter_eq_self.2
  intro row hrow
  obtain ⟨event, hevent, rfl⟩ := List.mem_map.1 hrow
  obtain ⟨i, hi, rfl⟩ := List.getElem_of_mem hevent
  have hevents := congrArg (fun l => l.map (fun p => p.2.1)) hvalid.events
  simp only [List.map_map] at hevents
  have hall : ∀ name ∈ c.events.map (·.modelName), name = c.call.modelName := by
    intro name hname
    have hname' : name ∈ c.rows.map fun _ => c.call.modelName := by
      refine hevents ▸ ?_
      exact hname
    obtain ⟨-, -, heq⟩ := List.mem_map.1 hname'
    exact heq.symm
  exact decide_eq_true ((hall _ (List.mem_map_of_mem hevent)).trans hmodel)

/-- The rows of a commit have their ids. -/
theorem commit_named {c : Commit} {w' : World} (hvalid : c.Valid env w w')
    (hidentified : Identified (w.store.tables (c.table env))) (hidentified' : Identified (w'.store.tables (c.table env))) :
    ∀ row ∈ c.rows, row.get "id" = .text (idOf row) := by
  have hdoes := hvalid.does
  unfold Write.Does at hdoes
  have happended : Client.Appends env.pg (c.table env) w.store.tables w'.store.tables c.rows →
      ∀ row ∈ c.rows, row.get "id" = .text (idOf row) := by
    intro happends row hrow
    apply hidentified'.named
    rw [happends.2.1, Function.update_self]
    exact List.mem_append_right _ hrow
  have hset : ∀ {tenant : Option String} {clauses : List WhereClause} {sets : List (String × SqlValue)},
      Client.Sets env.pg env.casing tenant (c.table env) clauses sets w.store.tables w'.store.tables c.rows →
        ∀ row ∈ c.rows, row.get "id" = .text (idOf row) := by
    intro tenant clauses sets hsets
    exact (Changed.named ⟨(sets_rows hsets).1, (sets_rows hsets).2⟩ hidentified').1
  cases hhanded : c.handed with
  | create data =>
    rw [hhanded] at hdoes
    obtain ⟨values, -, -, happends⟩ := hdoes
    exact happended happends
  | createMany data =>
    rw [hhanded] at hdoes
    exact happended hdoes
  | updateMany clauses data =>
    rw [hhanded] at hdoes
    obtain ⟨sets, -, hsets⟩ := hdoes
    exact hset hsets
  | deleteMany clauses =>
    rw [hhanded] at hdoes
    obtain ⟨now, hsets⟩ := hdoes
    exact hset hsets
  | restoreMany clauses =>
    rw [hhanded] at hdoes
    exact hset hdoes
  | hardDeleteMany clauses =>
    rw [hhanded] at hdoes
    intro row hrow
    rw [hdoes.1] at hrow
    exact hidentified.named row (List.mem_of_mem_filter hrow)

/-- A commit of the model keeps what all writes keep, and appends its events. -/
theorem Kept.commit (hreplayable : Replayable env projection model start) (h : Kept env projection model start w)
    {c : Commit} {w' : World} (hmodel : c.call.modelName = projection.sourceModel) (hvalid : c.Valid env w w')
    (hstored : c.Stored w w') (hfresh : Write.FreshIds env w') : Kept env projection model start w' := by
  have htable := valid_table hreplayable hmodel hvalid
  have hcommit := commit_identified (htable ▸ hreplayable.textIds) (htable ▸ h.migrated hreplayable)
    (htable ▸ h.identified) hvalid
  have hnamed := commit_named hvalid (htable ▸ h.identified) hcommit.2
  rw [htable] at hcommit
  refine ⟨hfresh, ⟨hcommit.1.1.trans h.shape.1, hcommit.1.2.trans h.shape.2⟩, hcommit.2, hstored.coverage.trans h.coverage, ?_⟩
  have hid : "id" ∈ (w.store.tables (c.table env)).columnNames := by
    rw [htable]
    exact (h.migrated hreplayable).id_mem
  intro event hevent
  rw [ofModel_stored hmodel hvalid hstored] at hevent
  rcases List.mem_append.1 hevent with hold | hnew
  · exact h.named event hold
  · obtain ⟨row, hrow, htells⟩ := exists_of_forall₂ (logged_tells hvalid).flip hnew
    exact (htells.named hid (hnamed row hrow)).1

/-- What a rebuild makes of the log as it stands. -/
def heldOf (server : Server) (projection : TableProjection) (w : World) : String → Option TextRow :=
  TableProjection.projected server projection (ofModel projection w.store)

theorem heldOf_spec (hreplayable : Replayable env projection model start) (h : Kept env projection model start w)
    (id : String) (text : TextRow) (hheld : heldOf server projection w id = some text) :
    text.map Prod.fst = projection.columns ∧ text.get "id" = some id := by
  obtain ⟨table, -, hholds⟩ := TableProjection.replayed_holds server hreplayable.wellFormed h.named projection.holds_created
  obtain ⟨hin, hid⟩ := (hholds.rows id text).1 hheld
  exact ⟨hholds.columns text hin, hid⟩

/-- The rebuilds tell of the live rows. -/
def Told (env : Env) (server : Server) (projection : TableProjection) (model : Model) (w : World) : Prop :=
  Mirrors env server projection (heldOf server projection w) (w.store.tables (Query.tableName env.casing model)).rows

theorem told_commit (hreplayable : Replayable env projection model start) (h : Kept env projection model start w)
    {c : Commit} {w' : World} (hmodel : c.call.modelName = projection.sourceModel) (hvalid : c.Valid env w w')
    (hstored : c.Stored w w') (htold : Told env server projection model w) :
    Told env server projection model w' ↔ Plain env projection w.store.tables c := by
  have htable := valid_table hreplayable hmodel hvalid
  have hcommit := commit_identified (htable ▸ hreplayable.textIds) (htable ▸ h.migrated hreplayable)
    (htable ▸ h.identified) hvalid
  have hafter : heldOf server projection w' = heldAfter server projection c (heldOf server projection w) := by
    unfold heldOf TableProjection.projected heldAfter
    rw [ofModel_stored hmodel hvalid hstored, KeyedFold.run_append]
  unfold Told at htold ⊢
  rw [← htable] at htold ⊢
  rw [hafter]
  exact mirrors_commit hreplayable.wellFormed (htable ▸ h.migrated hreplayable) (htable ▸ h.subset hreplayable) hvalid
    (htable ▸ h.identified) hcommit.2 (heldOf_spec hreplayable h) htold

/-- What is told stays told in a world with the same store. -/
theorem told_of_store {w' : World} (hstore : w'.store = w.store) :
    Told env server projection model w' ↔ Told env server projection model w := by
  unfold Told heldOf
  rw [hstore]

/-! ## Rebuilds -/

theorem get_of_cells (hwell : projection.WellFormed) {text : TextRow} {row : Row} (hrow : row.get "id" = .text (idOf row))
    (h : projection.cells text = render env server projection row) : text.get "id" = some (idOf row) := by
  have hid := List.map_inj_left.1 h "id" hwell.id
  rw [hid, hrow]
  rfl

/-- A table has the texts of the live rows just when what it holds by id are these. -/
theorem perm_iff_mirrors {table : ProjectionTable} {base : Table} {held : String → Option TextRow}
    (hwell : projection.WellFormed) (hholds : projection.Holds table held) (hidentified : Identified base) :
    (table.rows.map projection.cells).Perm ((base.rows.filter isLive).map (render env server projection)) ↔
      Mirrors env server projection held base.rows := by
  have hrenders : ∀ text ∈ table.rows, ∀ row ∈ base.rows, projection.cells text = render env server projection row →
      held (idOf row) = some text := by
    intro text htext row hrow heq
    exact (hholds.rows _ _).2 ⟨htext, get_of_cells hwell (hidentified.named row hrow) heq⟩
  constructor
  · intro hperm
    refine ⟨fun row hrow hlive => ?_, fun id text htext => ?_⟩
    · have hmem := hperm.symm.subset (List.mem_map_of_mem (List.mem_filter.2 ⟨hrow, hlive⟩))
      obtain ⟨text, htext, heq⟩ := List.mem_map.1 hmem
      rw [hrenders text htext row hrow heq, Option.map_some, heq]
    · obtain ⟨hin, hid⟩ := (hholds.rows id text).1 htext
      obtain ⟨row, hrow, heq⟩ := List.mem_map.1 (hperm.subset (List.mem_map_of_mem hin))
      obtain ⟨hrowIn, hlive⟩ := List.mem_filter.1 hrow
      refine ⟨row, hrowIn, hlive, ?_⟩
      have hget := get_of_cells hwell (hidentified.named row hrowIn) heq.symm
      exact Option.some.inj (hget.symm.trans hid)
  · intro hmirrors
    refine (List.perm_ext_iff_of_nodup ?_ ?_).2 fun texts => ⟨fun hmem => ?_, fun hmem => ?_⟩
    · refine List.Nodup.map_on (fun a ha b hb heq => ?_) hholds.ids.of_map
      refine List.inj_on_of_nodup_map hholds.ids ha hb ?_
      exact List.map_inj_left.1 heq "id" hwell.id
    · refine List.Nodup.map_on (fun a ha b hb heq => ?_) (hidentified.ids.of_map.filter _)
      have hina := List.mem_of_mem_filter ha
      have hinb := List.mem_of_mem_filter hb
      refine hidentified.eq hina hinb ?_
      have hid := List.map_inj_left.1 heq "id" hwell.id
      rw [hidentified.named a hina, hidentified.named b hinb] at hid
      exact Option.some.inj hid
    · obtain ⟨text, htext, rfl⟩ := List.mem_map.1 hmem
      obtain ⟨id, hid⟩ := Option.isSome_iff_exists.1 (hholds.named text htext)
      have hheld := (hholds.rows id text).2 ⟨htext, hid⟩
      obtain ⟨row, hrow, hlive, rfl⟩ := hmirrors.only id text hheld
      have hshown := hmirrors.shown row hrow hlive
      rw [hheld] at hshown
      rw [Option.some.inj hshown]
      exact List.mem_map_of_mem (List.mem_filter.2 ⟨hrow, hlive⟩)
    · obtain ⟨row, hrow, rfl⟩ := List.mem_map.1 hmem
      obtain ⟨hin, hlive⟩ := List.mem_filter.1 hrow
      obtain ⟨text, htext, heq⟩ := hmirrors.exists hin hlive
      rw [← heq]
      exact List.mem_map_of_mem ((hholds.rows _ _).1 htext).1

theorem Kept.complete (hreplayable : Replayable env projection model start) (h : Kept env projection model start w)
    (tables : String → Option ProjectionTable) : CompleteHistory (found w.store tables) projection.sourceModel := by
  intro coverage hcoverage mode complete hrow
  cases hcoverage
  obtain ⟨row, hstored, heq⟩ := Option.map_eq_some_iff.1 hrow
  rw [h.coverage] at hstored
  obtain ⟨hmode, hcomplete⟩ := hreplayable.complete row hstored
  rw [hmode, hcomplete] at heq
  cases heq
  exact ⟨rfl, rfl⟩

/-- The rebuilds leave the live rows just when they are told of. -/
theorem rebuildsLive_iff (hreplayable : Replayable env projection model start) (h : Kept env projection model start w)
    (hincreasing : TableProjection.Increasing server (ofModel projection w.store)) :
    RebuildsLive env server projection model w ↔ Told env server projection model w := by
  have hrebuilds : ∀ (c : Connection) (tables : String → Option ProjectionTable) (table : ProjectionTable)
      (fails : Nat → Bool), c.database = found w.store tables →
      tables (server.identifier projection.tableName) = some table → table.truncated = projection.created →
        Ends (projection.rebuildIn { server with fails }) c
          (fun _ c' => ∃ table', c'.database = c.database.setTable (server.identifier projection.tableName) table' ∧
            projection.Holds table' (heldOf server projection w)) fun _ _ => ∃ tick, fails tick = true := by
    intro c tables table fails hfound htable hshape
    refine Ends.mono (TableProjection.rebuildIn_holds hreplayable.wellFormed (hfound ▸ h.complete hreplayable tables)
      (hfound ▸ h.named) (hfound ▸ hincreasing) (hfound ▸ htable) hshape) (fun _ c' => ?_) fun _ _ h => h
    rw [hfound]
    exact id
  constructor
  · intro hlive
    have hends := hlive ⟨found w.store fun _ => some projection.created, 0⟩ _ projection.created (fun _ => false) rfl rfl rfl
    have hends' := hrebuilds ⟨found w.store fun _ => some projection.created, 0⟩ _ projection.created (fun _ => false) rfl rfl rfl
    cases hrun : projection.rebuildIn { server with fails := fun _ => false }
        ⟨found w.store fun _ => some projection.created, 0⟩ with
    | error e c' =>
      obtain ⟨tick, hfails⟩ := hends.error hrun
      cases hfails
    | ok a c' =>
      obtain ⟨table, htable, hperm⟩ := hends.ok hrun
      obtain ⟨table', htable', hholds⟩ := hends'.ok hrun
      have hsame : some table = some table' := by
        rw [← TableProjection.setTable_tables (found w.store fun _ => some projection.created)
          (server.identifier projection.tableName) table, ← htable, htable', TableProjection.setTable_tables]
      cases hsame
      exact (perm_iff_mirrors hreplayable.wellFormed hholds h.identified).1 hperm
  · intro htold c tables table fails hfound htable hshape
    refine (hrebuilds c tables table fails hfound htable hshape).mono (fun _ c' => ?_) fun _ _ h => h
    rintro ⟨table', hsame, hholds⟩
    exact ⟨table', hsame, (perm_iff_mirrors hreplayable.wellFormed hholds h.identified).2 htold⟩

/-! ## Every history -/

theorem Kept.perform (hreplayable : Replayable env projection model start) (h : Kept env projection model start w)
    {call : Call} (hmodel : call.modelName = projection.sourceModel) :
    Kept env projection model start (call.perform env w) ∧
      (ofModel projection w.store).IsPrefix (ofModel projection (call.perform env w).store) := by
  have hmode : (env.history.policy call.modelName).mode ≠ .off := by
    rw [hmodel, hreplayable.full]
    exact nofun
  obtain ⟨hfresh, hsame | ⟨c, rfl, hvalid, hstored⟩⟩ := Client.Call.perform_stored call hmode h.freshIds
  · refine ⟨⟨hfresh, ?_, ?_, ?_, ?_⟩, ?_⟩ <;> rw [hsame]
    · exact h.shape
    · exact h.identified
    · exact h.coverage
    · exact h.named
  · refine ⟨h.commit hreplayable hmodel hvalid hstored hfresh, ?_⟩
    rw [ofModel_stored hmodel hvalid hstored]
    exact List.prefix_append _ _

theorem Kept.performAll (hreplayable : Replayable env projection model start) (h : Kept env projection model start w)
    {calls : List Call} (hcalls : ∀ call ∈ calls, call.modelName = projection.sourceModel) :
    Kept env projection model start (performAll env calls w) ∧
      (ofModel projection w.store).IsPrefix (ofModel projection (performAll env calls w).store) := by
  induction calls generalizing w with
  | nil => exact ⟨h, List.prefix_rfl⟩
  | cons call calls ih =>
    obtain ⟨hnext, hprefix⟩ := h.perform hreplayable (hcalls call List.mem_cons_self)
    obtain ⟨hlast, hrest⟩ := ih hnext fun other hother => hcalls other (List.mem_cons_of_mem call hother)
    exact ⟨hlast, hprefix.trans hrest⟩

theorem performAll_append (env : Env) (before after : List Call) (w : World) :
    performAll env (before ++ after) w = performAll env after (performAll env before w) :=
  List.foldl_append

theorem Replayable.told (h : Replayable env projection model start) (server : Server) :
    Told env server projection model start := by
  have hnone : ofModel projection start.store = [] := by
    apply List.filter_eq_nil_iff.2
    intro row hrow
    obtain ⟨entry, hentry, rfl⟩ := List.mem_map.1 hrow
    rw [decide_eq_true_eq]
    exact h.unlogged entry hentry
  unfold Told heldOf
  rw [h.empty, hnone]
  exact ⟨fun row hrow => absurd hrow List.not_mem_nil, nofun⟩

/-- A call of the model that is plain goes on with what is told; one that does not is not plain. -/
theorem told_perform (hreplayable : Replayable env projection model start) (h : Kept env projection model start w)
    {call : Call} (hmodel : call.modelName = projection.sourceModel) (htold : Told env server projection model w) :
    Told env server projection model (call.perform env w) ↔ PlainCall env projection call w := by
  constructor
  · rintro htold' c rfl hvalid hstored
    exact (told_commit hreplayable h hmodel hvalid hstored htold).1 htold'
  · intro hplain
    have hmode : (env.history.policy call.modelName).mode ≠ .off := by
      rw [hmodel, hreplayable.full]
      exact nofun
    obtain ⟨-, hsame | ⟨c, rfl, hvalid, hstored⟩⟩ := Client.Call.perform_stored call hmode h.freshIds
    · exact (told_of_store hsame).2 htold
    · exact (told_commit hreplayable h hmodel hvalid hstored htold).2 (hplain c rfl hvalid hstored)

/-- Over every history of writes to a model of full history, the log being read in the order of its timestamps and these
increasing for each row: a rebuild leaves exactly the live rows at every point of the history just when each of the
writes is plain. -/
theorem rebuilt_iff (env : Env) (server : Server) (projection : TableProjection) (model : Model) (start : World)
    (calls : List Call) (hreplayable : Replayable env projection model start)
    (hcalls : ∀ call ∈ calls, call.modelName = projection.sourceModel)
    (hincreasing : TableProjection.Increasing server (ofModel projection (performAll env calls start).store)) :
    (∀ before after, calls = before ++ after →
      RebuildsLive env server projection model (performAll env before start)) ↔
      ∀ before call after, calls = before ++ call :: after → PlainCall env projection call (performAll env before start) := by
  have hlive : ∀ before after, calls = before ++ after → Kept env projection model start (performAll env before start) ∧
      (RebuildsLive env server projection model (performAll env before start) ↔
        Told env server projection model (performAll env before start)) := by
    rintro before after rfl
    obtain ⟨hkept, -⟩ := hreplayable.kept.performAll hreplayable fun call hcall =>
      hcalls call (List.mem_append_left after hcall)
    obtain ⟨-, hprefix⟩ := hkept.performAll hreplayable fun call hcall => hcalls call (List.mem_append_right before hcall)
    rw [← performAll_append] at hprefix
    exact ⟨hkept, rebuildsLive_iff hreplayable hkept (hincreasing.sublist hprefix.sublist)⟩
  have hnext : ∀ before call, performAll env (before ++ [call]) start = call.perform env (performAll env before start) :=
    fun before call => performAll_append env before [call] start
  constructor
  · rintro hall before call after rfl
    have hafter : before ++ call :: after = (before ++ [call]) ++ after := by simp
    obtain ⟨hkept, hiff⟩ := hlive before (call :: after) rfl
    have htold := hiff.1 (hall before (call :: after) rfl)
    have htold' := (hlive (before ++ [call]) after hafter).2.1 (hall (before ++ [call]) after hafter)
    rw [hnext] at htold'
    exact (told_perform hreplayable hkept (hcalls call (by simp)) htold).1 htold'
  · intro hplain before after hsplit
    apply (hlive before after hsplit).2.2
    -- by the last call of the run
    induction before using List.reverseRecOn generalizing after with
    | nil => exact hreplayable.told server
    | append_singleton before call ih =>
      have hbefore : calls = before ++ call :: after := by simpa using hsplit
      obtain ⟨hkept, -⟩ := hlive before (call :: after) hbefore
      rw [hnext]
      refine (told_perform hreplayable hkept (hcalls call ?_) (ih _ hbefore)).2 (hplain before call after hbefore)
      rw [hbefore]
      simp

end

/-! ## A note that is restored -/

/-- A server that orders timestamps by their length, and whose statements all go well. -/
def clockServer : Server where
  identifier := id
  fails _ := false
  textLe a b := a.length ≤ b.length
  byTimestamp _ rows := rows.insertionSort fun a b =>
    a.timestamp.length < b.timestamp.length ∨ a.timestamp.length = b.timestamp.length ∧ a.createdAt ≤ b.createdAt
  byTimestamp_perm _ := List.perm_insertionSort _
  byTimestamp_sorted _ rows := by
    have : Std.Total fun a b : EventLogRow =>
        a.timestamp.length < b.timestamp.length ∨ a.timestamp.length = b.timestamp.length ∧ a.createdAt ≤ b.createdAt :=
      ⟨fun a b => by omega⟩
    have : IsTrans EventLogRow fun a b =>
        a.timestamp.length < b.timestamp.length ∨ a.timestamp.length = b.timestamp.length ∧ a.createdAt ≤ b.createdAt :=
      ⟨fun a b c _ _ => by omega⟩
    refine (List.pairwise_insertionSort _ rows).imp fun {a b} hle => ⟨decide_eq_true (by omega), fun hle' => ?_⟩
    have hlength := of_decide_eq_true hle'
    omega
  display _ := ""

def noteTexts : TableProjection where
  sourceModel := "Note"
  tableName := "notes_projection"
  columns := ["id", "title"]

def noteModel : Model :=
  { name := "Note", fields := [("title", { name := "title", fieldType := .string, optional := true })] }

def noteCall (write : Write) : Call where
  scope := {}
  modelName := "Note"
  actor := none
  write

theorem noteTexts_replayable : Replayable (.bare Client.noteSchema) noteTexts noteModel (Client.noteWorld []) where
  known := by rfl
  full := rfl
  complete := nofun
  migrated := ⟨rfl, by rfl, by decide⟩
  empty := rfl
  unlogged := nofun
  wellFormed := ⟨by decide, by decide⟩
  subset := by decide
  freshIds := ⟨fun _ _ _ _ h => Db.ticket_injective h, fun _ _ _ h => absurd h List.not_mem_nil⟩
  textIds _ _ := rfl

/-- A note is created, and deleted. -/
def noteDeleted : List Call :=
  [noteCall (.create [("title", .string "a")]), noteCall (.deleteMany [])]

theorem rebuilt_iff_deleted :
    (∀ before after, noteDeleted = before ++ after → RebuildsLive (.bare Client.noteSchema) clockServer noteTexts noteModel
      (performAll (.bare Client.noteSchema) before (Client.noteWorld []))) ↔
      ∀ before call after, noteDeleted = before ++ call :: after → PlainCall (.bare Client.noteSchema) noteTexts call
        (performAll (.bare Client.noteSchema) before (Client.noteWorld [])) := by
  apply rebuilt_iff
  · exact noteTexts_replayable
  · decide
  · unfold TableProjection.Increasing
    decide +kernel

/-- A note is created, deleted, and restored. -/
def noteRestored : List Call :=
  noteDeleted ++ [noteCall (.restoreMany [])]

/-- The rebuilt table does not have the title of a note that was restored. -/
theorem restored_without_title :
    Replayable (.bare Client.noteSchema) noteTexts noteModel (Client.noteWorld []) ∧
      (∀ call ∈ noteRestored, call.modelName = noteTexts.sourceModel) ∧
      TableProjection.Increasing clockServer
        (ofModel noteTexts (performAll (.bare Client.noteSchema) noteRestored (Client.noteWorld [])).store) ∧
      ¬RebuildsLive (.bare Client.noteSchema) clockServer noteTexts noteModel
        (performAll (.bare Client.noteSchema) noteRestored (Client.noteWorld [])) := by
  refine ⟨noteTexts_replayable, by decide, ?_, fun hlive => ?_⟩
  · unfold TableProjection.Increasing
    decide +kernel
  · have hends := hlive ⟨found (performAll (.bare Client.noteSchema) noteRestored (Client.noteWorld [])).store
      fun _ => some noteTexts.created, 0⟩ _ noteTexts.created (fun _ => false) rfl rfl rfl
    have hrun : endsOk (noteTexts.rebuildIn { clockServer with fails := fun _ => false })
        ⟨found (performAll (.bare Client.noteSchema) noteRestored (Client.noteWorld [])).store
          fun _ => some noteTexts.created, 0⟩
        (fun _ c => (c.database.tables "notes_projection").map (·.rows.map noteTexts.cells) ≠
          some (liveRows (.bare Client.noteSchema) clockServer noteTexts noteModel
            (performAll (.bare Client.noteSchema) noteRestored (Client.noteWorld [])))) = true := by
      decide +kernel
    have hone : (liveRows (.bare Client.noteSchema) clockServer noteTexts noteModel
        (performAll (.bare Client.noteSchema) noteRestored (Client.noteWorld []))).length = 1 := by
      decide +kernel
    obtain ⟨a, c', hok, hother⟩ := exists_of_endsOk hrun
    obtain ⟨table, htable, hperm⟩ := hends.ok hok
    obtain ⟨texts, hlive⟩ := List.length_eq_one_iff.1 hone
    rw [hlive] at hperm
    refine of_decide_eq_true hother ?_
    rw [htable, hlive, ← List.perm_singleton.1 hperm]
    rfl

end Atomo.Projectors

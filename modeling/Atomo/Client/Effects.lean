import Atomo.Client.Guarantee
import Atomo.Query.Meaning

/-!
# The effects of the writes

What the statements of each write do to the table of its model: which rows they set, remove or append, and
what they return of them.
-/

namespace Atomo.Client

open Schema (Model)
open Query (Statement WhereClause SqlBuilder.insert SqlBuilder.update SqlBuilder.softDelete SqlBuilder.restore
  SqlBuilder.delete tableName writeValues)
open Db (Postgres Row Table Tables)

variable (pg : Postgres) (cc : CharCase) (tenant : Option String)

/-- One statement, with what it returns. -/
theorem Executed.single {tables tables' : Tables} {built : Statement × List Json} {records : List Record}
    (h : Executed pg tenant tables [built] tables' records) :
    ∃ tick now rows, Db.run pg tick now tenant built.2 tables built.1 = some (tables', rows) ∧
      records = rows.map (Db.rowToMap pg (built.1.returned tables)) := by
  cases h with
  | cons hrun hrest =>
    cases hrest
    exact ⟨_, _, _, hrun, List.append_nil _⟩

/-- The columns of the matching rows of a table are set; `rows` are these, as they are then. -/
def Sets (name : String) (clauses : List WhereClause) (sets : List (String × Db.SqlValue))
    (tables tables' : Tables) (rows : List Row) : Prop :=
  rows = ((tables name).rows.filter (Db.matching pg cc tenant name clauses)).map (·.update sets) ∧
    tables' = Function.update tables name { tables name with
      rows := (tables name).rows.map fun row =>
        if Db.matching pg cc tenant name clauses row then row.update sets else row } ∧
    (tables' name).keysHold = true

/-- The matching rows of a table are removed. -/
def Removes (name : String) (clauses : List WhereClause) (tables tables' : Tables) (rows : List Row) : Prop :=
  rows = (tables name).rows.filter (Db.matching pg cc tenant name clauses) ∧
    tables' = Function.update tables name { tables name with
      rows := (tables name).rows.filter fun row => !Db.matching pg cc tenant name clauses row }

/-- New rows are appended to a table. -/
def Appends (name : String) (tables tables' : Tables) (rows : List Row) : Prop :=
  (∀ row ∈ rows, Db.Made pg name (tables name) row) ∧
    tables' = Function.update tables name { tables name with rows := (tables name).rows ++ rows } ∧
    ((tables name).keysHold = true → (tables' name).keysHold = true)

variable {pg cc tenant} {model : Model} {clauses : List WhereClause} {tables tables' : Tables} {records : List Record}

/-- An update of the builder, whose clauses are bound after the parameters `pre`. -/
theorem Executed.sets (pre : List Json) {sets : List (String × Query.Written)} {returning : Query.Returning}
    {name : String}
    (h : Executed pg tenant tables [(.update name sets (Query.buildWhere cc clauses pre.length).1 returning,
      pre ++ (Query.buildWhere cc clauses pre.length).2)] tables' records) :
    ∃ now values rows,
      Db.writtenValues pg now (tables name) (pre ++ (Query.buildWhere cc clauses pre.length).2) sets = some values ∧
      Sets pg cc tenant name clauses values tables tables' rows ∧
      records = rows.map (Db.rowToMap pg
        (Statement.returned tables (.update name sets (Query.buildWhere cc clauses pre.length).1 returning))) := by
  obtain ⟨tick, now, rows, hrun, hrecords⟩ := h.single
  obtain ⟨values, hvalues, hrows, htables, hkeys⟩ := Db.run_update pg hrun
  rw [Db.selects_buildWhere] at hrows htables
  exact ⟨now, values, rows, hvalues, ⟨hrows, htables, hkeys⟩, hrecords⟩

theorem executed_update {data : Record}
    (h : Executed pg tenant tables [SqlBuilder.update cc model clauses data] tables' records) :
    ∃ sets rows, Db.dataValues pg cc model (tables (tableName cc model)) data = some sets ∧
      Sets pg cc tenant (tableName cc model) clauses sets tables tables' rows ∧
      records = rows.map (Db.rowToMap pg (tables (tableName cc model)).columnNames) := by
  obtain ⟨now, sets, rows, hsets, hset⟩ := Executed.sets (writeValues model data []).2 h
  rw [Db.writtenValues_writeValues] at hsets
  exact ⟨sets, rows, hsets, hset⟩

theorem executed_softDelete (h : Executed pg tenant tables [SqlBuilder.softDelete cc model clauses] tables' records) :
    ∃ now rows, Sets pg cc tenant (tableName cc model) clauses [("deleted_at", .timestamptz now)] tables tables' rows ∧
      records = rows.map (Db.rowToMap pg ["id"]) := by
  obtain ⟨now, sets, rows, hsets, hset⟩ := Executed.sets [] h
  have hdeleted : sets = [("deleted_at", .timestamptz now)] := by
    simp only [Db.writtenValues, Db.writtenValue, Option.bind_eq_bind, Option.bind_eq_some_iff] at hsets
    obtain ⟨type, -, value, hvalue, _, hnil, hsets⟩ := hsets
    cases hnil
    split at hvalue
    · cases hvalue
      cases hsets
      rfl
    · cases hvalue
  rw [hdeleted] at hset
  exact ⟨now, rows, hset⟩

theorem executed_restore (h : Executed pg tenant tables [SqlBuilder.restore cc model clauses] tables' records) :
    ∃ rows, Sets pg cc tenant (tableName cc model) clauses [("deleted_at", .null)] tables tables' rows ∧
      records = rows.map (Db.rowToMap pg ["id"]) := by
  obtain ⟨now, sets, rows, hsets, hset⟩ := Executed.sets [] h
  have hrestored : sets = [("deleted_at", .null)] := by
    simp only [Db.writtenValues, Db.writtenValue, Option.bind_eq_bind, Option.bind_eq_some_iff] at hsets
    obtain ⟨type, -, value, hvalue, _, hnil, hsets⟩ := hsets
    cases hnil
    cases hvalue
    cases hsets
    rfl
  rw [hrestored] at hset
  exact ⟨rows, hset⟩

theorem executed_delete (h : Executed pg tenant tables [SqlBuilder.delete cc model clauses] tables' records) :
    ∃ rows, Removes pg cc tenant (tableName cc model) clauses tables tables' rows ∧
      records = rows.map (Db.rowToMap pg ["id"]) := by
  obtain ⟨tick, now, rows, hrun, hrecords⟩ := h.single
  obtain ⟨hrows, htables⟩ := Db.run_delete pg hrun
  have hselects : Db.selects pg tenant (tableName cc model) (Query.whereClauses cc clauses (0 + 1)).1
      (SqlBuilder.delete cc model clauses).2 = Db.matching pg cc tenant (tableName cc model) clauses :=
    Db.selects_buildWhere pg cc tenant (tableName cc model) clauses []
  rw [hselects] at hrows htables
  exact ⟨rows, ⟨hrows, htables⟩, hrecords⟩

/-! ## Insertions -/

theorem Appends.nil (name : String) (tables : Tables) : Appends pg name tables tables [] := by
  refine ⟨fun row hrow => absurd hrow List.not_mem_nil, ?_, id⟩
  rw [List.append_nil, Function.update_eq_self]

theorem Appends.append {name : String} {rows rows' : List Row} {tables'' : Tables}
    (h : Appends pg name tables tables' rows) (h' : Appends pg name tables' tables'' rows') :
    Appends pg name tables tables'' (rows ++ rows') := by
  obtain ⟨hmade, htables, hkeys⟩ := h
  obtain ⟨hmade', htables', hkeys'⟩ := h'
  have hname : tables' name = { tables name with rows := (tables name).rows ++ rows } := by
    rw [htables, Function.update_self]
  refine ⟨fun row hrow => ?_, ?_, fun hk => hkeys' (hkeys hk)⟩
  · rcases List.mem_append.1 hrow with hold | hnew
    · exact hmade row hold
    · have hrow' := hmade' row hnew
      rw [hname] at hrow'
      exact hrow'
  · rw [htables', hname, htables, Function.update_idem, List.append_assoc]

theorem Appends.columnNames {name : String} {rows : List Row} (h : Appends pg name tables tables' rows) :
    (tables' name).columnNames = (tables name).columnNames := by
  rw [h.2.1, Function.update_self]
  rfl

/-- An insertion of the builder. -/
theorem Executed.appends {name : String} {columns : List String} {rows : List (List Query.Written)}
    {params : List Json} (h : Executed pg tenant tables [(.insert name columns rows, params)] tables' records) :
    ∃ tick now new, Db.newRows pg tick now name (tables name) columns params 0 rows = some new ∧
      Appends pg name tables tables' new ∧ records = new.map (Db.rowToMap pg (tables name).columnNames) := by
  obtain ⟨tick, now, new, hrun, hrecords⟩ := h.single
  obtain ⟨-, htables, hnew, hkeys⟩ := Db.run_insert pg hrun
  refine ⟨tick, now, new, hnew, ⟨Db.newRows_made pg hnew, htables, fun _ => ?_⟩, hrecords⟩
  rw [htables, Function.update_self]
  exact hkeys

theorem executed_insert {data : Record}
    (h : Executed pg tenant tables [SqlBuilder.insert cc model data] tables' records) :
    ∃ tick values row, Db.dataValues pg cc model (tables (tableName cc model)) data = some values ∧
      row = Db.newRow pg tick (tableName cc model) 0 (tables (tableName cc model)) values ∧
      Appends pg (tableName cc model) tables tables' [row] ∧
      records = [Db.rowToMap pg (tables (tableName cc model)).columnNames row] := by
  obtain ⟨tick, now, new, hnew, happends, hrecords⟩ := Executed.appends h
  simp only [Db.newRows, Option.bind_eq_bind, Option.bind_eq_some_iff] at hnew
  obtain ⟨values, hvalues, rest, hrest, hnew⟩ := hnew
  cases hrest
  cases hnew
  have hdata := Db.writtenValues_writeValues pg cc now model (tables (tableName cc model)) data [] []
  rw [List.append_nil] at hdata
  exact ⟨tick, values, _, hdata.symm.trans hvalues, rfl, happends, hrecords⟩

theorem Executed.uncons {built : Statement × List Json} {rest : List (Statement × List Json)}
    (h : Executed pg tenant tables (built :: rest) tables' records) :
    ∃ tables1 records1 records2, Executed pg tenant tables [built] tables1 records1 ∧
      Executed pg tenant tables1 rest tables' records2 ∧ records = records1 ++ records2 := by
  cases h with
  | cons hrun hrest =>
    have hfirst := Executed.cons hrun (.nil _)
    rw [List.append_nil] at hfirst
    exact ⟨_, _, _, hfirst, hrest, rfl⟩

theorem executed_inserts {data : List Record}
    (h : Executed pg tenant tables (data.map (SqlBuilder.insert cc model)) tables' records) :
    ∃ rows, Appends pg (tableName cc model) tables tables' rows ∧
      records = rows.map (Db.rowToMap pg (tables (tableName cc model)).columnNames) := by
  induction data generalizing tables records with
  | nil =>
    cases h
    exact ⟨[], Appends.nil _ _, rfl⟩
  | cons entry data ih =>
    obtain ⟨tables1, records1, records2, hfirst, hrest, rfl⟩ := h.uncons
    obtain ⟨tick, values, row, -, -, happends, rfl⟩ := executed_insert hfirst
    obtain ⟨rows, hrows, rfl⟩ := ih hrest
    refine ⟨_, happends.append hrows, ?_⟩
    rw [happends.columnNames, List.map_append]
    rfl

/-- The statements of a batch append a row for each of its records. -/
theorem executed_batch {env : Env} {data : List Record}
    (h : Executed env.pg tenant tables (Write.batch env model data) tables' records) :
    ∃ rows, Appends env.pg (tableName env.casing model) tables tables' rows ∧
      records = rows.map (Db.rowToMap env.pg (tables (tableName env.casing model)).columnNames) := by
  unfold Write.batch at h
  split at h
  · rename_i built hbuilt
    obtain ⟨_, _, _, rfl⟩ := Query.SqlBuilder.insertMany_eq env.casing model hbuilt
    obtain ⟨tick, now, rows, -, hrows⟩ := Executed.appends h
    exact ⟨rows, hrows⟩
  · exact executed_inserts h

/-! ## The writes -/

/-- The write with its data as a before-hook hands it on. -/
def Write.HandedOn (env : Env) (modelName : String) : Write → Write → Prop
  | create data, handed => ∃ data', Handed env "create" modelName data data' ∧ handed = create data'
  | createMany records, handed =>
    ∃ records', List.Forall₂ (Handed env "create" modelName) records records' ∧ handed = createMany records'
  | updateMany clauses data, handed =>
    ∃ data', Handed env "update" modelName data data' ∧ handed = updateMany clauses data'
  | write, handed => handed = write

/-- What a write with that data does to the tables, and the rows that its statements are about. -/
def Write.Does (env : Env) (scope : Scope) (model : Model) (tick : Nat) (write : Write) (tables : Tables)
    (rows : List Row) (tables' : Tables) : Prop :=
  let name := tableName env.casing model
  match write with
  | create data => ∃ values, Db.dataValues env.pg env.casing model (tables name) data = some values ∧
    rows = [Db.newRow env.pg tick name 0 (tables name) values] ∧ Appends env.pg name tables tables' rows
  | createMany _ => Appends env.pg name tables tables' rows
  | updateMany clauses data => ∃ sets, Db.dataValues env.pg env.casing model (tables name) data = some sets ∧
    Sets env.pg env.casing (boundTenant env scope) name clauses sets tables tables' rows
  | deleteMany clauses => ∃ now, Sets env.pg env.casing (boundTenant env scope) name clauses
    [("deleted_at", .timestamptz now)] tables tables' rows
  | restoreMany clauses => Sets env.pg env.casing (boundTenant env scope) name clauses [("deleted_at", .null)]
    tables tables' rows
  | hardDeleteMany clauses => Removes env.pg env.casing (boundTenant env scope) name clauses tables tables' rows

/-- The columns that a write returns of a row. -/
def Write.columns (table : Table) : Write → List String
  | create _ | createMany _ | updateMany _ _ => table.columnNames
  | deleteMany _ | restoreMany _ | hardDeleteMany _ => ["id"]

/-- What a write returns of a row. -/
def Write.record (env : Env) (model : Model) (write : Write) (tables : Tables) (row : Row) : Record :=
  Db.rowToMap env.pg (write.columns (tables (tableName env.casing model))) row

theorem Write.Builds.does {env : Env} {scope : Scope} {modelName : String} {write : Write}
    {built : List (Statement × List Json)} (hbuilds : write.Builds env modelName model built)
    (h : Executed env.pg (boundTenant env scope) tables built tables' records) :
    ∃ handed tick rows, write.HandedOn env modelName handed ∧ handed.Does env scope model tick tables rows tables' ∧
      records = rows.map (write.record env model tables) := by
  cases write with
  | create data =>
    obtain ⟨data', hhanded, rfl⟩ := hbuilds
    obtain ⟨tick, values, row, hvalues, rfl, happends, hrecords⟩ := executed_insert h
    exact ⟨_, tick, _, ⟨data', hhanded, rfl⟩, ⟨values, hvalues, rfl, happends⟩, hrecords⟩
  | createMany data =>
    obtain ⟨prepared, hhanded, rfl⟩ := hbuilds
    obtain ⟨rows, happends, hrecords⟩ := executed_batch h
    exact ⟨_, 0, rows, ⟨prepared, hhanded, rfl⟩, happends, hrecords⟩
  | updateMany clauses data =>
    obtain ⟨data', hhanded, rfl⟩ := hbuilds
    obtain ⟨sets, rows, hsets, hset, hrecords⟩ := executed_update h
    exact ⟨_, 0, rows, ⟨data', hhanded, rfl⟩, ⟨sets, hsets, hset⟩, hrecords⟩
  | deleteMany clauses =>
    cases hbuilds
    obtain ⟨now, rows, hset, hrecords⟩ := executed_softDelete h
    exact ⟨_, 0, rows, rfl, ⟨now, hset⟩, hrecords⟩
  | restoreMany clauses =>
    cases hbuilds
    obtain ⟨rows, hset, hrecords⟩ := executed_restore h
    exact ⟨_, 0, rows, rfl, hset, hrecords⟩
  | hardDeleteMany clauses =>
    cases hbuilds
    obtain ⟨rows, hremoves, hrecords⟩ := executed_delete h
    exact ⟨_, 0, rows, rfl, hremoves, hrecords⟩

/-! ## What is sent -/

variable {env : Env} {scope : Scope} {modelName : String} {w w' : World}

/-- The events that were sent. -/
def World.sent (w : World) : List Act :=
  w.trace.filter Act.isSend

theorem filter_isSend_eq_nil {acts : List Act} (h : ∀ act ∈ acts, act.isSend = false) :
    acts.filter Act.isSend = [] := by
  rw [List.filter_eq_nil_iff]
  intro act hact
  rw [h act hact]
  exact Bool.false_ne_true

theorem filter_isSend_sends (events : List StampedEvent) :
    (events.map Act.send).filter Act.isSend = events.map Act.send := by
  rw [List.filter_eq_self]
  intro act hact
  obtain ⟨event, -, rfl⟩ := List.mem_map.1 hact
  rfl

theorem sent_append (w : World) {acts : List Act} (h : w'.trace = w.trace ++ acts) :
    w'.sent = w.sent ++ acts.filter Act.isSend := by
  unfold World.sent
  rw [h, List.filter_append]

/-- The events of a committed write are sent. -/
theorem Committed.sent {type : EventType} {payload : Record → Record} {actor : Option String}
    {built : List (Statement × List Json)} {records : List Record} {events : List StampedEvent}
    (h : Committed env scope modelName type payload actor built w records events w') :
    w'.sent = w.sent ++ events.map .send := by
  obtain ⟨n, hooks, htrace, hhooks⟩ := h.trace
  have hquiet : ∀ act ∈ hooks, act.isSend = false := by
    intro act hact
    obtain ⟨name, rfl⟩ := hhooks act hact
    rfl
  have hstatements : ∀ act ∈ List.replicate n Act.statement, act.isSend = false := by
    intro act hact
    rw [List.eq_of_mem_replicate hact]
    rfl
  simp only [List.append_assoc] at htrace
  rw [sent_append w htrace]
  simp [List.filter_append, filter_isSend_eq_nil hquiet, filter_isSend_eq_nil hstatements, Act.isSend,
    filter_isSend_sends]

/-- What a committed write does: an event for each row that its statements are about, these recorded and sent. -/
theorem Write.Done.effects {actor : Option String} {write : Write} {reply : Reply}
    (h : Write.Done env scope modelName actor write w reply w') :
    ∃ model handed tick rows events now, env.schema.model? modelName = some model ∧
      write.HandedOn env modelName handed ∧
      handed.Does env scope model tick w.store.tables rows w'.store.tables ∧
      events.map (fun event => (event.eventType, event.modelName, event.data)) =
        rows.map (fun row =>
          (write.eventType, modelName, write.payload (write.record env model w.store.tables row))) ∧
      w'.store = recorded env.history modelName now events { w.store with tables := w'.store.tables } ∧
      (Write.FreshIds env w → Write.Recorded env modelName now events w w') ∧
      w'.sent = w.sent ++ events.map .send := by
  obtain ⟨model, built, records, events, hmodel, hbuilds, -, hcommitted⟩ := h
  have hsent := hcommitted.sent
  obtain ⟨⟨tick, hle, -, rfl⟩, ⟨tables, now, hexecuted, hstore⟩, -⟩ := hcommitted
  have htables : w'.store.tables = tables := by rw [hstore, Write.recorded_tables]
  obtain ⟨handed, tick', rows, hhanded, hdoes, rfl⟩ := hbuilds.does hexecuted
  rw [htables]
  refine ⟨model, handed, tick', rows, _, now, hmodel, hhanded, hdoes, ?_, hstore,
    fun hfresh => Write.recorded_stamped env scope hfresh hle hstore, hsent⟩
  rw [stamped_data, List.map_map, List.map_map]
  rfl

theorem Undone.sent {e : Error} (h : Undone w e w') : w'.sent = w.sent := by
  obtain ⟨acts, htrace, hacts⟩ := h.trace
  have hquiet : ∀ act ∈ acts, act.isSend = false := by
    intro act hact
    rcases hacts act hact with rfl | rfl | rfl <;> rfl
  rw [sent_append w htrace, filter_isSend_eq_nil hquiet, List.append_nil]

/-- The rows of a model that clauses select for a request. -/
def selection (env : Env) (scope : Scope) (modelName : String) (clauses : List WhereClause) (w : World) : List Row :=
  match env.schema.model? modelName with
  | none => []
  | some model => (w.store.tables (tableName env.casing model)).rows.filter
      (Db.matching env.pg env.casing (boundTenant env scope) (tableName env.casing model) clauses)

theorem selection_eq {model : Model} (hmodel : env.schema.model? modelName = some model) (clauses : List WhereClause)
    (w : World) :
    selection env scope modelName clauses w = (w.store.tables (tableName env.casing model)).rows.filter
      (Db.matching env.pg env.casing (boundTenant env scope) (tableName env.casing model) clauses) := by
  unfold selection
  rw [hmodel]

end Atomo.Client

import Atomo.Data.Json
import Atomo.Lib.Outcome
import Mathlib.Data.List.Perm.Basic
import Mathlib.Logic.Function.Basic

/-!
# Table projections

`TableProjection` on a connection: the statement that each event makes on the projection table, and the rebuild of
the table from the event log. Any statement may fail for a reason of the server's own.
-/

namespace Atomo.Projectors

/-- What is read of a row of `event_log`. -/
structure EventLogRow where
  modelName : String
  eventType : String
  data : Json
  timestamp : String
  createdAt : Int

/-- The texts of a row by column, none being NULL. -/
abbrev TextRow := List (String × Option String)

def TextRow.get (row : TextRow) (column : String) : Option String :=
  (row.lookup column).join

/-- A table of texts: its columns with their defaults, which rows its constraints take and which of them its unique
indexes do not let in together. -/
structure ProjectionTable where
  columns : List (String × Option String)
  accepts : TextRow → Bool
  conflicts : TextRow → TextRow → Bool
  rows : List TextRow

/-- What is committed; `coverage` is the table `model_history_coverage`, with the mode and whether it is complete. -/
structure Database where
  coverage : Option (String → Option (String × Bool))
  eventLog : List EventLogRow
  tables : String → Option ProjectionTable

def Database.setTable (database : Database) (name : String) (table : ProjectionTable) : Database :=
  { database with tables := Function.update database.tables name (some table) }

/-- What the server decides of its own, statement by statement. -/
structure Server where
  /-- The name that an identifier is cut to. -/
  identifier : String → String
  fails : Nat → Bool
  textLe : String → String → Bool
  /-- `ORDER BY timestamp, created_at`. -/
  byTimestamp : Nat → List EventLogRow → List EventLogRow
  byTimestamp_perm : ∀ tick rows, (byTimestamp tick rows).Perm rows
  byTimestamp_sorted : ∀ tick rows, (byTimestamp tick rows).Pairwise fun a b =>
    textLe a.timestamp b.timestamp = true ∧ (textLe b.timestamp a.timestamp = true → a.createdAt ≤ b.createdAt)
  /-- `Value::to_string`. -/
  display : Json → String

/-- The order of `ORDER BY timestamp, created_at`. -/
def Server.Sorted (server : Server) (rows : List EventLogRow) : Prop :=
  rows.Pairwise fun a b =>
    server.textLe a.timestamp b.timestamp = true ∧ (server.textLe b.timestamp a.timestamp = true → a.createdAt ≤ b.createdAt)

inductive RebuildError where
  | bail (message : String)
  | database
  deriving DecidableEq

/-- A transaction as it stands, and the number of statements before. -/
structure Connection where
  database : Database
  tick : Nat

abbrev Program := EStateM RebuildError Connection

variable (server : Server)

/-- A statement, which is refused when it has no result. -/
def statement {α : Type} (run : Nat → Database → Option (α × Database)) : Program α := fun c =>
  if server.fails c.tick then .error .database { c with tick := c.tick + 1 }
  else
    match run c.tick c.database with
    | some (a, database) => .ok a ⟨database, c.tick + 1⟩
    | none => .error .database { c with tick := c.tick + 1 }

/-- A transaction, which is rolled back when its program fails or it is not committed. -/
def transaction (body : Program Unit) : Program Unit := fun c =>
  let all : Program Unit := do
    statement server fun _ database => some ((), database)
    body
    statement server fun _ database => some ((), database)
  match all c with
  | .ok a c' => .ok a c'
  | .error e c' => .error e { c' with database := c.database }

/-- `require_complete_history_in`. -/
def requireCompleteHistoryIn (model : String) : Program Unit := do
  let found ← statement server fun _ database => some (database.coverage.isSome, database)
  if found then
    let state ← statement server fun _ database => database.coverage.map fun coverage => (coverage model, database)
    if state.any fun (mode, complete) => mode ≠ "full" || !complete then
      throw (.bail s!"HISTORY_REPLAY_UNAVAILABLE: model {model} does not have complete full history; projection unchanged")

/-! ## The statement of an event -/

/-- `value_to_text`. -/
def valueToText : Json → String
  | .string s => s
  | .null => ""
  | other => server.display other

/-- What is executed on the table of a projection. -/
inductive TableStatement where
  | insert (values : List (String × String))
  | update (id : String) (sets : List (String × String))
  | delete (id : String)

namespace ProjectionTable

def knows (table : ProjectionTable) (columns : List String) : Bool :=
  columns.Nodup ∧ columns.all fun column => column ∈ table.columns.map (·.1)

def newRow (table : ProjectionTable) (values : List (String × String)) : TextRow :=
  table.columns.map fun (column, default) => (column, (values.lookup column).or default)

def setRow (sets : List (String × String)) (row : TextRow) : TextRow :=
  row.map fun (column, value) => (column, (sets.lookup column).or value)

/-- `INSERT … ON CONFLICT DO NOTHING`, `UPDATE … WHERE "id" = …`, `DELETE … WHERE "id" = …`. -/
def execute (table : ProjectionTable) : TableStatement → Option ProjectionTable
  | .insert values =>
    let row := table.newRow values
    if table.knows (values.map (·.1)) && table.accepts row then
      some (if table.rows.any (table.conflicts row) then table else { table with rows := table.rows ++ [row] })
    else none
  | .update id sets =>
    let rows := table.rows.map fun row => if row.get "id" = some id then setRow sets row else row
    let changed := (table.rows.filter fun row => row.get "id" = some id).map (setRow sets)
    if table.knows (sets.map (·.1)) && table.knows ["id"] && changed.all table.accepts &&
        decide (rows.Pairwise fun a b => table.conflicts a b = false) then
      some { table with rows }
    else none
  | .delete id =>
    if table.knows ["id"] then some { table with rows := table.rows.filter fun row => row.get "id" ≠ some id } else none

/-- `TRUNCATE`. -/
def truncated (table : ProjectionTable) : ProjectionTable :=
  { table with rows := [] }

end ProjectionTable

structure TableProjection where
  sourceModel : String
  tableName : String
  columns : List String

namespace TableProjection

variable (projection : TableProjection)

def name : String :=
  s!"{projection.tableName}_projection"

/-- The values that an event gives for some columns. -/
def texts (columns : List String) (data : List (String × Json)) : List (String × String) :=
  columns.filterMap fun column => (data.lookup column).map fun value => (column, valueToText server value)

/-- The statement that `handle_event_connection` makes of an event, if any. -/
def statementOf (eventType : String) (data : List (String × Json)) : Option TableStatement :=
  if eventType = "Created" ∨ eventType = "Restored" then
    let values := texts server projection.columns data
    if values.isEmpty then none else some (.insert values)
  else if eventType = "Updated" then
    match data.lookup "id" with
    | some (.string id) =>
      let sets := texts server (projection.columns.filter (· ≠ "id")) data
      if sets.isEmpty then none else some (.update id sets)
    | _ => none
  else if eventType = "Deleted" ∨ eventType = "HardDeleted" then
    match data.lookup "id" with
    | some (.string id) => some (.delete id)
    | _ => none
  else none

/-- A statement on the table of the projection. -/
def onTable (run : ProjectionTable → Option ProjectionTable) : Program Unit :=
  statement server fun _ database => do
    let table ← database.tables (server.identifier projection.tableName)
    let table ← run table
    some ((), database.setTable (server.identifier projection.tableName) table)

def handleEventConnection (eventType : String) (data : List (String × Json)) : Program Unit :=
  match statementOf server projection eventType data with
  | none => pure ()
  | some made => onTable server projection (·.execute made)

/-- The object of an event, which is empty when it is none. -/
def dataOf : Json → List (String × Json)
  | .object fields => fields
  | _ => []

/-- The loop over the rows of the log. -/
def replay : List EventLogRow → Program Unit
  | [] => pure ()
  | row :: rest => do
    handleEventConnection server projection row.eventType (dataOf row.data)
    replay rest

def rebuildIn : Program Unit := do
  requireCompleteHistoryIn server projection.sourceModel
  let rows ← statement server fun tick database =>
    some (server.byTimestamp tick (database.eventLog.filter (·.modelName = projection.sourceModel)), database)
  onTable server projection (some ·.truncated)
  replay server projection rows

def rebuild : Program Unit :=
  transaction server do
    statement server fun _ database => some ((), database)
    requireCompleteHistoryIn server projection.sourceModel
    projection.rebuildIn server

/-! ## What a rebuild leaves -/

/-- What the events of some rows make of a table. -/
def replayed : List EventLogRow → ProjectionTable → Option ProjectionTable
  | [], table => some table
  | row :: rest, table =>
    match statementOf server projection row.eventType (dataOf row.data) with
    | none => replayed rest table
    | some made => (table.execute made).bind (replayed rest)

/-- A table is what the events of the model, in the order of their timestamps, make of an empty one. -/
def Rebuilt (log : List EventLogRow) (table : ProjectionTable) : Prop :=
  ∃ rows, rows.Perm (log.filter (·.modelName = projection.sourceModel)) ∧ server.Sorted rows ∧
    projection.replayed server rows table.truncated = some table

end TableProjection

/-! ## The statements one by one -/

variable {server} {c : Connection}

theorem statement_ends {α : Type} (run : Nat → Database → Option (α × Database)) :
    Ends (statement server run) c (fun a c' => run c.tick c.database = some (a, c'.database)) fun _ _ => True := by
  refine ⟨fun {a c'} h => ?_, fun _ => trivial⟩
  unfold statement at h
  split at h
  · cases h
  · split at h
    · next hrun =>
      cases h
      exact hrun
    · cases h

/-- Rolled back, a transaction leaves what was there. -/
theorem transaction_ends {body : Program Unit} {Q : Database → Prop}
    (h : ∀ c', c'.database = c.database → Ends body c' (fun _ c'' => Q c''.database) fun _ _ => True) :
    Ends (transaction server body) c (fun _ c' => Q c'.database) fun _ c' => c'.database = c.database := by
  have hall : Ends (do
      statement server fun _ database => some ((), database)
      body
      statement server fun _ database => some ((), database)) c
      (fun _ c' => Q c'.database) fun _ _ => True := by
    refine (statement_ends _).bind fun _ c' hc' => ?_
    have hsame : c'.database = c.database := (Prod.mk.inj (Option.some.inj hc')).2.symm
    refine (h c' hsame).bind fun _ c'' hc'' => ?_
    refine (statement_ends _).mono (fun _ c3 hc3 => ?_) fun _ _ _ => trivial
    rwa [← (Prod.mk.inj (Option.some.inj hc3)).2]
  constructor
  · intro _ c' h
    unfold transaction at h
    dsimp only at h
    split at h
    · next hrun =>
      cases h
      exact hall.ok hrun
    · cases h
  · intro e c' h
    unfold transaction at h
    dsimp only at h
    split at h
    · cases h
    · cases h
      rfl

/-- No row of a model says that its history is not complete. -/
def CompleteHistory (database : Database) (model : String) : Prop :=
  ∀ coverage, database.coverage = some coverage → ∀ mode complete, coverage model = some (mode, complete) →
    mode = "full" ∧ complete = true

theorem requireCompleteHistoryIn_ends (model : String) :
    Ends (requireCompleteHistoryIn server model) c
      (fun _ c' => c'.database = c.database ∧ CompleteHistory c.database model) fun _ _ => True := by
  unfold requireCompleteHistoryIn
  refine (statement_ends _).bind fun found c' hc' => ?_
  obtain ⟨hfound, hsame⟩ := Prod.mk.inj (Option.some.inj hc')
  split
  · refine (statement_ends _).bind fun state c'' hc'' => ?_
    obtain ⟨coverage, hcoverage, hstate⟩ := Option.map_eq_some_iff.1 hc''
    obtain ⟨hstate, hsame'⟩ := Prod.mk.inj hstate
    rw [← hsame] at hcoverage
    dsimp only
    split
    · exact Ends.throw trivial
    · next hpasses =>
      refine Ends.pure ⟨by rw [← hsame', ← hsame], fun coverage' hcoverage' mode complete hrow => ?_⟩
      rw [hcoverage] at hcoverage'
      cases hcoverage'
      rw [hstate] at hrow
      rw [hrow] at hpasses
      simpa using hpasses
  · next hnone =>
    refine Ends.pure ⟨hsame.symm, fun coverage hcoverage => ?_⟩
    rw [hcoverage] at hfound
    exact absurd hfound.symm hnone

namespace TableProjection

variable {projection : TableProjection}

theorem onTable_ends {run : ProjectionTable → Option ProjectionTable} :
    Ends (onTable server projection run) c
      (fun _ c' => ∃ table table', c.database.tables (server.identifier projection.tableName) = some table ∧
        run table = some table' ∧ c'.database = c.database.setTable (server.identifier projection.tableName) table')
      fun _ _ => True := by
  unfold onTable
  refine (statement_ends _).mono (fun _ c' hc' => ?_) fun _ _ _ => trivial
  obtain ⟨table, htable, hrest⟩ := Option.bind_eq_some_iff.1 hc'
  obtain ⟨table', hrun, hsame⟩ := Option.bind_eq_some_iff.1 hrest
  exact ⟨table, table', htable, hrun, (Prod.mk.inj (Option.some.inj hsame)).2.symm⟩

theorem execute_shape {table table' : ProjectionTable} {made : TableStatement} (h : table.execute made = some table') :
    table'.truncated = table.truncated := by
  cases made with
  | insert values =>
    obtain ⟨-, h⟩ := Option.ite_none_right_eq_some.1 h
    cases h
    split <;> rfl
  | update id sets =>
    obtain ⟨-, h⟩ := Option.ite_none_right_eq_some.1 h
    cases h
    rfl
  | delete id =>
    obtain ⟨-, h⟩ := Option.ite_none_right_eq_some.1 h
    cases h
    rfl

/-- The events of a replay leave the columns and constraints of the table. -/
theorem replayed_shape {rows : List EventLogRow} {table table' : ProjectionTable}
    (h : projection.replayed server rows table = some table') : table'.truncated = table.truncated := by
  induction rows generalizing table with
  | nil =>
    cases h
    rfl
  | cons row rest ih =>
    unfold replayed at h
    split at h
    · exact ih h
    · obtain ⟨next, hmade, hrest⟩ := Option.bind_eq_some_iff.1 h
      rw [ih hrest, execute_shape hmade]

theorem setTable_self {database : Database} {name : String} {table : ProjectionTable}
    (h : database.tables name = some table) : database.setTable name table = database := by
  unfold Database.setTable
  rw [← h, Function.update_eq_self]

theorem setTable_setTable (database : Database) (name : String) (table table' : ProjectionTable) :
    (database.setTable name table).setTable name table' = database.setTable name table' := by
  unfold Database.setTable
  rw [Function.update_idem]

@[simp] theorem setTable_tables (database : Database) (name : String) (table : ProjectionTable) :
    (database.setTable name table).tables name = some table := by
  simp [Database.setTable]

/-- The loop makes of the table what its events make of it. -/
theorem replay_ends (rows : List EventLogRow) {table : ProjectionTable}
    (htable : c.database.tables (server.identifier projection.tableName) = some table) :
    Ends (replay server projection rows) c
      (fun _ c' => ∃ table', projection.replayed server rows table = some table' ∧
        c'.database = c.database.setTable (server.identifier projection.tableName) table') fun _ _ => True := by
  induction rows generalizing c table with
  | nil => exact Ends.pure ⟨table, rfl, (setTable_self htable).symm⟩
  | cons row rest ih =>
    unfold replay replayed handleEventConnection
    cases statementOf server projection row.eventType (dataOf row.data) with
    | none =>
      dsimp only
      exact (Ends.pure (Q := fun _ c' => c' = c) rfl).bind fun _ c' hc' => by
        subst hc'
        exact ih htable
    | some made =>
      dsimp only
      refine onTable_ends.bind ?_
      rintro _ c' ⟨table', table'', htable', hmade, hsame⟩
      rw [htable] at htable'
      cases htable'
      have hnext : c'.database.tables (server.identifier projection.tableName) = some table'' := by
        rw [hsame, setTable_tables]
      refine (ih hnext).mono ?_ fun _ _ _ => trivial
      rintro _ c'' ⟨final, hfinal, hsame'⟩
      refine ⟨final, ?_, ?_⟩
      · rw [hmade]
        exact hfinal
      · rw [hsame', hsame, setTable_setTable]

/-- The rebuild fills its table, and changes nothing else. -/
theorem rebuildIn_ends :
    Ends (projection.rebuildIn server) c
      (fun _ c' => ∃ table, c'.database = c.database.setTable (server.identifier projection.tableName) table ∧
        projection.Rebuilt server c.database.eventLog table) fun _ _ => True := by
  unfold rebuildIn
  refine (requireCompleteHistoryIn_ends _).bind ?_
  rintro _ c1 ⟨hsame1, -⟩
  refine (statement_ends _).bind fun rows c2 hc2 => ?_
  obtain ⟨hrows, hsame2⟩ := Prod.mk.inj (Option.some.inj hc2)
  refine onTable_ends.bind ?_
  rintro _ c3 ⟨old, cut, hold, hcut, hsame3⟩
  cases hcut
  have htable : c3.database.tables (server.identifier projection.tableName) = some old.truncated := by
    rw [hsame3, setTable_tables]
  refine (replay_ends rows htable).mono ?_ fun _ _ _ => trivial
  rintro _ c4 ⟨table, hreplayed, hsame4⟩
  have hshape : table.truncated = old.truncated.truncated := replayed_shape hreplayed
  refine ⟨table, ?_, rows, ?_, ?_, ?_⟩
  · rw [hsame4, hsame3, setTable_setTable, ← hsame2, hsame1]
  · rw [← hrows, hsame1]
    exact server.byTimestamp_perm _ _
  · rw [← hrows]
    exact server.byTimestamp_sorted _ _
  · rw [hshape]
    exact hreplayed

end TableProjection

end Atomo.Projectors

import Atomo.Projectors.CurrentState
import Mathlib.Data.List.Sort

/-!
# Rebuilding all projections

`ProjectorManager::rebuild_all`: one transaction in which every projection is first asked for and then rebuilt, one
after the other. It leaves the database as it was, or every table as the last projection that fills it rebuilds
it from the log.
-/

namespace Atomo.Projectors

/-- A registered projection. Its `rebuild_in` is bound to the connection: it fills the table of the projection by the
log, and changes nothing else. -/
structure Projection (server : Server) where
  name : String
  sourceModel : String
  tableName : String
  supportsTransactionalRebuild : Bool
  rebuildIn : Program Unit
  Rebuilt : List EventLogRow → ProjectionTable → Prop
  bound : ∀ c, Ends rebuildIn c
    (fun _ c' => ∃ table, c'.database = c.database.setTable (server.identifier tableName) table ∧
      Rebuilt c.database.eventLog table)
    fun _ _ => True

/-- The table that a projection fills. -/
def Projection.relation {server : Server} (projection : Projection server) : String :=
  server.identifier projection.tableName

def TableProjection.registered (server : Server) (projection : TableProjection) : Projection server where
  name := projection.name
  sourceModel := projection.sourceModel
  tableName := projection.tableName
  supportsTransactionalRebuild := true
  rebuildIn := projection.rebuildIn server
  Rebuilt := projection.Rebuilt server
  bound _ := TableProjection.rebuildIn_ends

def CurrentStateProjection.registered (server : Server) (projection : CurrentStateProjection) : Projection server :=
  projection.projection.registered server

variable {server : Server}

/-- The first loop of `rebuild_all`. -/
def preflight : List (Projection server) → Program Unit
  | [] => pure ()
  | projection :: rest => do
    if !projection.supportsTransactionalRebuild then
      throw (.bail s!"PROJECTION_REBUILD_UNSUPPORTED: projection {projection.name} must implement connection-bound rebuild_in")
    requireCompleteHistoryIn server projection.sourceModel
    preflight rest

/-- The second loop. -/
def rebuildEach : List (Projection server) → Program Unit
  | [] => pure ()
  | projection :: rest => do
    projection.rebuildIn
    rebuildEach rest

def rebuildAll (projections : List (Projection server)) : Program Unit :=
  transaction server do
    statement server fun _ database => some ((), database)
    preflight projections
    rebuildEach projections

/-! ## What the loops leave -/

variable {c : Connection} {projections : List (Projection server)}

theorem preflight_ends :
    Ends (preflight projections) c
      (fun _ c' => c'.database = c.database ∧ ∀ projection ∈ projections,
        projection.supportsTransactionalRebuild = true ∧ CompleteHistory c.database projection.sourceModel)
      fun _ _ => True := by
  induction projections generalizing c with
  | nil => exact Ends.pure ⟨rfl, fun _ hmem => absurd hmem List.not_mem_nil⟩
  | cons projection rest ih =>
    unfold preflight
    cases hsupports : projection.supportsTransactionalRebuild with
    | false => exact Ends.throw trivial
    | true =>
      refine (requireCompleteHistoryIn_ends _).bind ?_
      rintro _ c1 ⟨hsame, hcomplete⟩
      refine ih.mono ?_ fun _ _ _ => trivial
      rintro _ c2 ⟨hsame', hrest⟩
      rw [hsame] at hsame' hrest
      refine ⟨hsame', fun other hother => ?_⟩
      rcases List.mem_cons.1 hother with rfl | hin
      · exact ⟨hsupports, hcomplete⟩
      · exact hrest other hin

/-- What some projections have made of a database, one after the other. -/
structure RebuiltBy (projections : List (Projection server)) (before after : Database) : Prop where
  eventLog : after.eventLog = before.eventLog
  coverage : after.coverage = before.coverage
  others : ∀ name, (∀ projection ∈ projections, projection.relation ≠ name) → after.tables name = before.tables name
  /-- A table that no later projection fills. -/
  last : ∀ first projection later, projections = first ++ projection :: later →
    (∀ other ∈ later, other.relation ≠ projection.relation) →
    ∃ table, after.tables projection.relation = some table ∧ projection.Rebuilt before.eventLog table

theorem rebuildEach_ends :
    Ends (rebuildEach projections) c (fun _ c' => RebuiltBy projections c.database c'.database) fun _ _ => True := by
  induction projections generalizing c with
  | nil =>
    refine Ends.pure ⟨rfl, rfl, fun _ _ => rfl, fun first projection later hsplit => ?_⟩
    cases first <;> cases hsplit
  | cons projection rest ih =>
    unfold rebuildEach
    refine (projection.bound c).bind ?_
    rintro _ c1 ⟨table, hsame, hrebuilt⟩
    refine ih.mono (fun _ c2 hrest => ?_) fun _ _ _ => trivial
    have hothers : ∀ name, name ≠ projection.relation → c1.database.tables name = c.database.tables name := by
      intro name hne
      rw [hsame]
      exact Function.update_of_ne hne _ _
    refine ⟨?_, ?_, fun name hnone => ?_, fun first other later hsplit hlast => ?_⟩
    · rw [hrest.eventLog, hsame]
      rfl
    · rw [hrest.coverage, hsame]
      rfl
    · rw [hrest.others name fun other hother => hnone other (List.mem_cons_of_mem projection hother)]
      exact hothers name fun heq => hnone projection List.mem_cons_self heq.symm
    · cases first with
      | nil =>
        obtain ⟨rfl, rfl⟩ := List.cons.inj hsplit
        refine ⟨table, ?_, hrebuilt⟩
        rw [hrest.others _ hlast, hsame]
        exact TableProjection.setTable_tables _ _ _
      | cons head first =>
        obtain ⟨rfl, hrest'⟩ := List.cons.inj hsplit
        have hlog : c1.database.eventLog = c.database.eventLog := by
          rw [hsame]
          rfl
        rw [← hlog]
        exact hrest.last first other later hrest' hlast

theorem rebuildAll_ends :
    Ends (rebuildAll projections) c
      (fun _ c' => RebuiltBy projections c.database c'.database ∧ ∀ projection ∈ projections,
        projection.supportsTransactionalRebuild = true ∧ CompleteHistory c.database projection.sourceModel)
      fun _ c' => c'.database = c.database := by
  unfold rebuildAll
  refine transaction_ends (Q := fun database => RebuiltBy projections c.database database ∧
    ∀ projection ∈ projections, projection.supportsTransactionalRebuild = true ∧
      CompleteHistory c.database projection.sourceModel) fun c1 hsame1 => ?_
  refine (statement_ends _).bind fun _ c2 hc2 => ?_
  have hsame2 : c2.database = c.database := (Prod.mk.inj (Option.some.inj hc2)).2.symm.trans hsame1
  rw [← hsame2]
  refine preflight_ends.bind ?_
  rintro _ c3 ⟨hsame3, hall⟩
  rw [← hsame3]
  exact rebuildEach_ends.mono (fun _ c4 hrebuilt => ⟨hrebuilt, by rw [hsame3]; exact hall⟩) fun _ _ _ => trivial

/-- The part of `rebuild_all` until some first projections are rebuilt. -/
def rebuiltUntil (projections first : List (Projection server)) : Program Unit := do
  statement server fun _ database => some ((), database)
  statement server fun _ database => some ((), database)
  preflight projections
  rebuildEach first

theorem rebuildEach_append (first rest : List (Projection server)) :
    rebuildEach (first ++ rest) = (do rebuildEach first; rebuildEach rest) := by
  induction first with
  | nil =>
    show _ = (pure () >>= fun _ => rebuildEach rest)
    rw [pure_bind]
    rfl
  | cons projection first ih =>
    show (projection.rebuildIn >>= fun _ => rebuildEach (first ++ rest)) = _
    rw [ih]
    show _ = ((projection.rebuildIn >>= fun _ => rebuildEach first) >>= fun _ => rebuildEach rest)
    rw [bind_assoc]

/-- A projection that fails in its turn fails them all. -/
theorem rebuildAll_fails {first later : List (Projection server)} {projection : Projection server} {c1 c2 : Connection}
    {e : RebuildError} (hreached : rebuiltUntil (first ++ projection :: later) first c = .ok () c1)
    (hfails : projection.rebuildIn c1 = .error e c2) :
    ∃ c', rebuildAll (first ++ projection :: later) c = .error e c' := by
  have hall : (do
      statement server fun _ database => some ((), database)
      (do
        statement server fun _ database => some ((), database)
        preflight (first ++ projection :: later)
        rebuildEach (first ++ projection :: later))
      statement server fun _ database => some ((), database) : Program Unit) =
      (do
        rebuiltUntil (first ++ projection :: later) first
        projection.rebuildIn
        rebuildEach later
        statement server fun _ database => some ((), database)) := by
    unfold rebuiltUntil
    rw [rebuildEach_append]
    simp only [rebuildEach, bind_assoc]
  refine ⟨{ c2 with database := c.database }, ?_⟩
  unfold rebuildAll transaction
  dsimp only
  rw [hall, bind_of_ok hreached, bind_of_error hfails]

/-- Either nothing changes, as when a projection does not support the rebuild, its history is not complete or it fails
in its turn, or each table is rebuilt by the last projection that fills it. -/
theorem rebuilt_or_unchanged (server : Server) (projections : List (Projection server)) (c : Connection) :
    (∀ projection ∈ projections, projection.supportsTransactionalRebuild = false ∨
        ¬CompleteHistory c.database projection.sourceModel → ∃ e c', rebuildAll projections c = .error e c') ∧
      (∀ first projection later, projections = first ++ projection :: later → ∀ c1 e c2,
        rebuiltUntil projections first c = .ok () c1 → projection.rebuildIn c1 = .error e c2 →
        ∃ c', rebuildAll projections c = .error e c') ∧
      match rebuildAll projections c with
      | .error _ c' => c'.database = c.database
      | .ok _ c' => RebuiltBy projections c.database c'.database := by
  refine ⟨?_, ?_, ?_⟩
  · intro projection hmem hnot
    cases hrun : rebuildAll projections c with
    | error e c' => exact ⟨e, c', rfl⟩
    | ok a c' =>
      obtain ⟨hsupports, hcomplete⟩ := (rebuildAll_ends.ok hrun).2 projection hmem
      rcases hnot with hnot | hnot
      · rw [hsupports] at hnot
        cases hnot
      · exact absurd hcomplete hnot
  · rintro first projection later rfl c1 e c2 hreached hfails
    exact rebuildAll_fails hreached hfails
  · cases hrun : rebuildAll projections c with
    | error e c' => exact rebuildAll_ends.error hrun
    | ok a c' => exact (rebuildAll_ends.ok hrun).1

/-! ## Two projections of one table -/

/-- A server whose statements all go well. -/
def sunnyServer : Server where
  identifier := id
  fails _ := false
  textLe _ _ := true
  byTimestamp _ rows := rows.insertionSort fun a b => a.createdAt ≤ b.createdAt
  byTimestamp_perm _ := List.perm_insertionSort _
  byTimestamp_sorted _ rows := by
    have : Std.Total fun a b : EventLogRow => a.createdAt ≤ b.createdAt :=
      ⟨fun a b => Int.le_total a.createdAt b.createdAt⟩
    have : IsTrans EventLogRow fun a b => a.createdAt ≤ b.createdAt := ⟨fun _ _ _ => Int.le_trans⟩
    exact (List.pairwise_insertionSort _ rows).imp fun hle => ⟨rfl, fun _ => hle⟩
  display _ := ""

/-- The projection of a model to a table that others fill too. -/
def sharing (model : String) : TableProjection where
  sourceModel := model
  tableName := "shared"
  columns := ["id"]

def noteCreated : EventLogRow where
  modelName := "Note"
  eventType := "Created"
  data := .object [("id", .string "n1")]
  timestamp := "2026-01-01T00:00:00Z"
  createdAt := 0

/-- The table of ids, and the log of a note that was created. -/
def sharedTable : Connection where
  database :=
    { coverage := none
      eventLog := [noteCreated]
      tables := fun name =>
        if name = "shared" then
          some ⟨[("id", none)], fun row => (row.get "id").isSome, fun a b => a.get "id" = b.get "id", []⟩
        else none }
  tick := 0

/-- What is left of the table when the projection of another model is rebuilt behind that of the notes. -/
def rebuiltTable : Option ProjectionTable :=
  match rebuildAll [(sharing "Note").registered sunnyServer, (sharing "Task").registered sunnyServer] sharedTable with
  | .ok _ c => c.database.tables "shared"
  | .error _ _ => none

/-- The rebuild succeeds, and the table is not that of the notes. -/
theorem shared_not_rebuilt :
    ∃ table, rebuiltTable = some table ∧ ¬(sharing "Note").Rebuilt sunnyServer sharedTable.database.eventLog table := by
  have hrows : rebuiltTable.map (·.rows) = some [] := by decide
  obtain ⟨table, htable, hempty⟩ := Option.map_eq_some_iff.1 hrows
  refine ⟨table, htable, ?_⟩
  rintro ⟨rows, hperm, -, hreplayed⟩
  have hone : sharedTable.database.eventLog.filter (·.modelName = (sharing "Note").sourceModel) = [noteCreated] := by
    rfl
  rw [hone] at hperm
  have hmade : TableProjection.statementOf sunnyServer (sharing "Note") noteCreated.eventType
      (TableProjection.dataOf noteCreated.data) = some (.insert [("id", "n1")]) := by rfl
  rw [List.perm_singleton.1 hperm, TableProjection.replayed, hmade] at hreplayed
  obtain ⟨next, hinserted, hnext⟩ := Option.bind_eq_some_iff.1 hreplayed
  cases hnext
  obtain ⟨-, hinserted⟩ := Option.ite_none_right_eq_some.1 hinserted
  have hlength := congrArg (·.rows.length) (Option.some.inj hinserted)
  simp [ProjectionTable.truncated, hempty] at hlength

end Atomo.Projectors

import Atomo.Crud.FindMany
import Atomo.GraphQL.Mutations
import Atomo.GraphQL.Queries
import Atomo.Query.Reference

/-!
# Filters

The requests that take a `where`, and which rows they are about. A row that one of them selects meets every
condition of the `where` exactly when all of it is understood (`Filtered.selects_where`).
-/

namespace Atomo.GraphQL

open Query (WhereClause parseWhere scopeByTenant understood whereHolds tableName)
open Db (Row Tables)
open Client (Env Scope World Record Kept Undone Executed Sets Removes Returns Selected boundTenant)

variable (env : Env) (scope : Scope) (ctx : Ctx)

/-- A request that takes a `where`. -/
inductive Filtered where
  | records (orderBy : Option Json) (limit offset : Option Int32)
  | deletedRecords (orderBy : Option Json) (limit offset : Option Int32)
  | paginatedRecords (orderBy : Option Json) (limit offset : Option Int32)
  | update (data : Record)
  | delete
  | restore
  | hardDelete
  | findMany (worker : Crud.WorkerIdentity) (params : Crud.FindManyParams)

inductive Answer where
  | records (records : List Record)
  | page (page : PaginatedRecords)
  | record (record : Option Record)
  | count (n : Int32)

namespace Filtered

/-- The request with a `where`, which the find route has among its parameters. -/
def run (modelName : String) (value : Json) : Filtered → EStateM (Error ⊕ Crud.Error) World Answer
  | records orderBy limit offset => withError .inl do
    return .records (← ServiceQuery.records env scope ctx modelName (some value) orderBy limit offset)
  | deletedRecords orderBy limit offset => withError .inl do
    return .page (← ServiceQuery.deletedRecords env scope ctx modelName (some value) orderBy limit offset)
  | paginatedRecords orderBy limit offset => withError .inl do
    return .page (← ServiceQuery.paginatedRecords env scope ctx modelName (some value) orderBy limit offset)
  | update data => withError .inl do
    return .record (← ServiceMutation.update env scope ctx modelName none (some value) data)
  | delete => withError .inl do
    return .count (← ServiceMutation.delete env scope ctx modelName none (some value))
  | restore => withError .inl do
    return .count (← ServiceMutation.restore env scope ctx modelName none (some value))
  | hardDelete => withError .inl do
    return .count (← ServiceMutation.hardDelete env scope ctx modelName none (some value))
  | findMany worker params => withError .inr do
    return .records (← Crud.findMany env worker modelName { params with where_ := some value })

end Filtered

/-- Exactly these rows of a table are touched: each becomes what `touch` makes of it, or is removed. -/
def Touches (name : String) (rows : List Row) (touch : Row → Option Row) (tables tables' : Tables) : Prop :=
  (∀ row ∈ rows, row ∈ (tables name).rows) ∧
    tables' = Function.update tables name { tables name with
      rows := (tables name).rows.filterMap fun row => if row ∈ rows then touch row else some row }

/-- The rows are returned, each as a record. -/
def Shows (name : String) (rows : List Row) (show_ : Record → Record) (tables tables' : Tables)
    (records : List Record) : Prop :=
  records = rows.map (fun row => show_ (Db.rowToMap env.pg (tables name).columnNames row)) ∧
    Touches name rows some tables tables'

/-- A row that is shown to the tenant of a request and that the clauses hold of. -/
abbrev matchesRow (name : String) (clauses : List WhereClause) : Row → Bool :=
  Db.matching env.pg env.casing (boundTenant env scope) name clauses

/-- The rows of a table that match. -/
def Matched (name : String) (clauses : List WhereClause) (tables : Tables) (rows : List Row) : Prop :=
  rows = (tables name).rows.filter (matchesRow env scope name clauses)

/-- A page of these, in some order. -/
def MatchedPage (name : String) (clauses : List WhereClause) (limit offset : Option Nat) (tables : Tables)
    (rows : List Row) : Prop :=
  ∃ order, Selected env.pg env.casing (boundTenant env scope) name clauses order limit offset tables rows

/-- The rows that a request selects, by its clauses, and what it does with them, by its answer and by the
tables. -/
def Filtered.Selects (modelName : String) (value : Json) (w : World) (answer : Answer) (w' : World)
    (rows : List Row) : Filtered → Prop := fun call =>
  ∃ model name, env.schema.model? modelName = some model ∧ name = tableName env.casing model ∧
    match call with
    | records _ limit offset =>
      MatchedPage env scope name (scopedWhere ctx (some value) ++ [Query.SqlBuilder.notDeleted]) (limit.map asUsize)
        (offset.map asUsize) w.store.tables rows ∧
      ∃ records, answer = .records records ∧
        Shows env name rows (camelKeys env.casing) w.store.tables w'.store.tables records
    | deletedRecords _ limit offset =>
      MatchedPage env scope name (scopedWhere ctx (some value) ++ [Query.SqlBuilder.isDeleted])
        (some (asUsize (limit.getD 20))) (some (asUsize (offset.getD 0))) w.store.tables rows ∧
      ∃ page, answer = .page page ∧
        Shows env name rows (camelKeys env.casing) w.store.tables w'.store.tables page.data
    | paginatedRecords _ limit offset =>
      MatchedPage env scope name (scopedWhere ctx (some value) ++ [Query.SqlBuilder.notDeleted])
        (some (asUsize (limit.getD 20))) (some (asUsize (offset.getD 0))) w.store.tables rows ∧
      ∃ page, answer = .page page ∧
        Shows env name rows (camelKeys env.casing) w.store.tables w'.store.tables page.data
    | findMany _ params =>
      MatchedPage env { tenant := params.actor.bind (·.tenantId) } name
        (Crud.whereClauses { params with where_ := some value } ++ [Query.SqlBuilder.notDeleted])
        (some (asUsize (min (params.limit.getD 50) 200))) (some (asUsize (max (params.offset.getD 0) 0)))
        w.store.tables rows ∧
      ∃ records, answer = .records records ∧ Shows env name rows id w.store.tables w'.store.tables records
    | update _ =>
      Matched env scope name (scopeByTenant (parseWhere value) ctx.tenant) w.store.tables rows ∧
      ∃ sets, Touches name rows (fun row => some (row.update sets)) w.store.tables w'.store.tables
    | delete =>
      Matched env scope name (scopeByTenant (parseWhere value) ctx.tenant) w.store.tables rows ∧
      ∃ now, Touches name rows (fun row => some (row.update [("deleted_at", .timestamptz now)])) w.store.tables
        w'.store.tables
    | restore =>
      Matched env scope name (scopeByTenant (parseWhere value) ctx.tenant) w.store.tables rows ∧
      Touches name rows (fun row => some (row.update [("deleted_at", .null)])) w.store.tables w'.store.tables
    | hardDelete =>
      Matched env scope name (scopeByTenant (parseWhere value) ctx.tenant) w.store.tables rows ∧
      Touches name rows (fun _ => none) w.store.tables w'.store.tables

/-! ## What the requests select -/

variable {env scope ctx} {name : String} {tables tables' : Tables} {clauses : List WhereClause}

theorem touches_some {rows : List Row} (h : ∀ row ∈ rows, row ∈ (tables name).rows) :
    Touches name rows some tables tables := by
  refine ⟨h, ?_⟩
  have hsame : ((tables name).rows.filterMap fun row => if row ∈ rows then some row else some row) =
      (tables name).rows := by
    simp only [ite_self, List.filterMap_some]
  rw [hsame, Function.update_eq_self]

/-- An update touches the rows that match. -/
theorem Sets.touches {sets : List (String × Db.SqlValue)} {updated : List Row}
    (h : Sets env.pg env.casing (boundTenant env scope) name clauses sets tables tables' updated) :
    ∃ rows, Matched env scope name clauses tables rows ∧
      Touches name rows (fun row => some (row.update sets)) tables tables' := by
  obtain ⟨-, htables, -⟩ := h
  have hrows : ((tables name).rows.map fun row =>
        if matchesRow env scope name clauses row then row.update sets else row) =
      (tables name).rows.filterMap fun row =>
        if row ∈ (tables name).rows.filter (matchesRow env scope name clauses)
        then some (row.update sets) else some row := by
    rw [← List.filterMap_eq_map]
    refine List.filterMap_congr fun row hrow => ?_
    by_cases hmatching : matchesRow env scope name clauses row = true
    · simp [List.mem_filter, hrow, hmatching]
    · simp [List.mem_filter, hmatching]
  refine ⟨(tables name).rows.filter (matchesRow env scope name clauses), rfl, ?_, ?_⟩
  · exact fun row hrow => List.mem_of_mem_filter hrow
  · rw [htables, hrows]

theorem Removes.touches {removed : List Row}
    (h : Removes env.pg env.casing (boundTenant env scope) name clauses tables tables' removed) :
    ∃ rows, Matched env scope name clauses tables rows ∧ Touches name rows (fun _ => none) tables tables' := by
  obtain ⟨-, htables⟩ := h
  have hrows : ((tables name).rows.filter fun row => !matchesRow env scope name clauses row) =
      (tables name).rows.filterMap fun row =>
        if row ∈ (tables name).rows.filter (matchesRow env scope name clauses) then none
        else some row := by
    rw [← List.filterMap_eq_filter]
    refine List.filterMap_congr fun row hrow => ?_
    by_cases hmatching : matchesRow env scope name clauses row = true
    · simp [List.mem_filter, hrow, hmatching, Option.guard]
    · simp [List.mem_filter, hmatching, Option.guard]
  refine ⟨(tables name).rows.filter (matchesRow env scope name clauses), rfl, ?_, ?_⟩
  · exact fun row hrow => List.mem_of_mem_filter hrow
  · rw [htables, hrows]

theorem all_of_scopeByTenant {p : WhereClause → Bool} {tenant : Option String}
    (h : (scopeByTenant clauses tenant).all p = true) : clauses.all p = true := by
  unfold scopeByTenant at h
  split at h
  · rw [List.all_append, Bool.and_eq_true] at h
    exact h.1
  · exact h

theorem all_of_append {p : WhereClause → Bool} {clause : WhereClause} (h : (clauses ++ [clause]).all p = true) :
    clauses.all p = true := by
  rw [List.all_append, Bool.and_eq_true] at h
  exact h.1

variable {modelName : String} {value : Json} {w : World}

/-- A page of the rows that match is found, and nothing is changed. -/
def Finds (env : Env) (scope : Scope) (modelName : String) (clauses : List WhereClause) (limit offset : Option Nat)
    (show_ : Record → Record) (w w' : World) (data : List Record) : Prop :=
  ∃ model rows, env.schema.model? modelName = some model ∧
    MatchedPage env scope (tableName env.casing model) clauses limit offset w.store.tables rows ∧
    Shows env (tableName env.casing model) rows show_ w.store.tables w'.store.tables data

theorem Returns.finds {orderBy : List (String × Query.OrderDirection)} {limit offset : Option Nat}
    {records : List Record} {w' : World} (show_ : Record → Record) (hstore : w'.store = w.store)
    (h : Returns env scope modelName clauses orderBy limit offset w.store.tables records) :
    Finds env scope modelName clauses limit offset show_ w w' (records.map show_) := by
  obtain ⟨model, rows, hmodel, hselected, hrecords⟩ := h
  refine ⟨model, rows, hmodel, ⟨_, hselected⟩, ?_, ?_⟩
  · rw [hrecords, List.map_map]
    rfl
  · rw [hstore]
    exact touches_some fun row hrow => (hselected.mem hrow).1

theorem checkAccess_kept (schema : Atomo.Schema) (modelName action : String) (ctx : Ctx) (w : World) :
    Ends (checkAccess schema modelName action ctx) w (fun _ w' => w' = w) (Kept w) :=
  checkAccess_ends fun _ => rfl

theorem records_ends (orderBy : Option Json) (limit offset : Option Int32) :
    Ends (ServiceQuery.records env scope ctx modelName (some value) orderBy limit offset) w
      (fun records w' => Finds env scope modelName (scopedWhere ctx (some value) ++ [Query.SqlBuilder.notDeleted])
        (limit.map asUsize) (offset.map asUsize) (camelKeys env.casing) w w' records) (Kept w) := by
  refine (checkAccess_kept _ _ _ _ w).bind ?_
  rintro _ w rfl
  refine (call_ends (Client.findMany_ends _) fun e w' h => h).bind ?_
  rintro records w' ⟨hstore, hreturns⟩
  exact Ends.pure (Returns.finds _ hstore hreturns)

theorem paginatedRecords_ends (orderBy : Option Json) (limit offset : Option Int32) :
    Ends (ServiceQuery.paginatedRecords env scope ctx modelName (some value) orderBy limit offset) w
      (fun page w' => Finds env scope modelName (scopedWhere ctx (some value) ++ [Query.SqlBuilder.notDeleted])
        (some (asUsize (limit.getD 20))) (some (asUsize (offset.getD 0))) (camelKeys env.casing) w w' page.data)
      (Kept w) := by
  refine (checkAccess_kept _ _ _ _ w).bind ?_
  rintro _ w rfl
  refine (call_ends (Client.findMany_ends _) fun e w' h => h).bind ?_
  rintro records w1 ⟨hstore, hreturns⟩
  have hcount : Ends (callOr (Client.count env scope modelName (scopedWhere ctx (some value))) 0) w1
      (fun _ w' => w'.store = w1.store) (Kept w) :=
    callOr_ends (Client.count_ends w1) fun _ _ h => h
  refine hcount.bind ?_
  rintro total w' hkept
  exact Ends.pure (Returns.finds _ (hkept.trans hstore) hreturns)

theorem deletedRecords_ends (orderBy : Option Json) (limit offset : Option Int32) :
    Ends (ServiceQuery.deletedRecords env scope ctx modelName (some value) orderBy limit offset) w
      (fun page w' => Finds env scope modelName (scopedWhere ctx (some value) ++ [Query.SqlBuilder.isDeleted])
        (some (asUsize (limit.getD 20))) (some (asUsize (offset.getD 0))) (camelKeys env.casing) w w' page.data)
      (Kept w) := by
  refine (checkAccess_kept _ _ _ _ w).bind ?_
  rintro _ w rfl
  refine (call_ends (Client.findDeleted_ends _) fun e w' h => h).bind ?_
  rintro records w1 ⟨hstore, hreturns⟩
  have hcount : Ends (callOr (Client.countDeleted env scope modelName (scopedWhere ctx (some value))) 0) w1
      (fun _ w' => w'.store = w1.store) (Kept w) :=
    callOr_ends (Client.countDeleted_ends w1) fun _ _ h => h
  refine hcount.bind ?_
  rintro total w' hkept
  exact Ends.pure (Returns.finds _ (hkept.trans hstore) hreturns)

theorem findMany_ends (worker : Crud.WorkerIdentity) (params : Crud.FindManyParams) :
    Ends (Crud.findMany env worker modelName { params with where_ := some value }) w
      (fun records w' => Finds env { tenant := params.actor.bind (·.tenantId) } modelName
        (Crud.whereClauses { params with where_ := some value } ++ [Query.SqlBuilder.notDeleted])
        (some (asUsize (min (params.limit.getD 50) 200))) (some (asUsize (max (params.offset.getD 0) 0))) id w w'
        records) (Kept w) := by
  have hcapability : Ends (Crud.capabilityCheck worker modelName "read") w (fun _ w' => w' = w) (Kept w) := by
    unfold Crud.capabilityCheck
    split
    · exact Ends.pure rfl
    · exact Ends.throw rfl
  have hmodel : Ends (Crud.modelCheck env.schema modelName) w (fun _ w' => w' = w) (Kept w) := by
    unfold Crud.modelCheck
    split
    · exact Ends.pure rfl
    · exact Ends.throw rfl
  refine hcapability.bind ?_
  rintro _ w rfl
  refine hmodel.bind ?_
  rintro _ w rfl
  refine (Crud.call_kept ((Client.Write.enforceAccess_ends env modelName "read" _ w).mono (fun _ _ h => h)
    fun _ _ h => h.store)).bind ?_
  rintro _ w rfl
  refine (Crud.call_kept (Client.findMany_ends w)).mono ?_ fun _ _ h => h
  rintro records w' ⟨hstore, hreturns⟩
  have hfinds := Returns.finds id hstore hreturns
  rwa [List.map_id] at hfinds

theorem answer_ends {ε δ α β : Type} {x : EStateM ε World α} {g : ε → δ} {f : α → β} {Q : α → World → Prop}
    {R : β → World → Prop} {E : ε → World → Prop} (h : Ends x w Q E) (hQ : ∀ a w', Q a w' → R (f a) w') :
    Ends (withError g do return f (← x)) w R (fun _ _ => True) :=
  (h.bind fun a w' hq => Ends.pure (hQ a w' hq)).mapError fun _ _ _ => trivial

theorem resolveWhere_value {v : Json} (h : Query.resolveWhere none (some value) = .ok v) : v = value := by
  cases h
  rfl

/-- A request that succeeds does what it does with the rows that it selects. -/
theorem run_selects (call : Filtered) (w : World) :
    Ends (call.run env scope ctx modelName value) w
      (fun answer w' => ∃ rows, call.Selects env scope ctx modelName value w answer w' rows) (fun _ _ => True) := by
  cases call with
  | records orderBy limit offset =>
    refine answer_ends (records_ends orderBy limit offset) ?_
    rintro records w' ⟨model, rows, hmodel, hmatched, hshows⟩
    exact ⟨rows, model, _, hmodel, rfl, hmatched, records, rfl, hshows⟩
  | deletedRecords orderBy limit offset =>
    refine answer_ends (deletedRecords_ends orderBy limit offset) ?_
    rintro page w' ⟨model, rows, hmodel, hmatched, hshows⟩
    exact ⟨rows, model, _, hmodel, rfl, hmatched, page, rfl, hshows⟩
  | paginatedRecords orderBy limit offset =>
    refine answer_ends (paginatedRecords_ends orderBy limit offset) ?_
    rintro page w' ⟨model, rows, hmodel, hmatched, hshows⟩
    exact ⟨rows, model, _, hmodel, rfl, hmatched, page, rfl, hshows⟩
  | findMany worker params =>
    refine answer_ends (findMany_ends worker params) ?_
    rintro records w' ⟨model, rows, hmodel, hmatched, hshows⟩
    exact ⟨rows, model, _, hmodel, rfl, hmatched, records, rfl, hshows⟩
  | update data =>
    refine answer_ends (ServiceMutation.update_ends none (some value) data) ?_
    rintro record w' ⟨v, reply, hvalue, hdone⟩
    cases resolveWhere_value hvalue
    obtain ⟨model, built, records, hmodel, ⟨data', -, rfl⟩, -, hexecuted⟩ := hdone.executed
    obtain ⟨sets, _, -, hsets, -⟩ := Client.executed_update hexecuted
    obtain ⟨rows, hmatched, htouches⟩ := Sets.touches hsets
    exact ⟨rows, model, _, hmodel, rfl, hmatched, sets, htouches⟩
  | delete =>
    refine answer_ends (ServiceMutation.delete_ends none (some value)) ?_
    rintro n w' ⟨v, reply, hvalue, hdone⟩
    cases resolveWhere_value hvalue
    obtain ⟨model, built, records, hmodel, rfl, -, hexecuted⟩ := hdone.executed
    obtain ⟨now, _, hsets, -⟩ := Client.executed_softDelete hexecuted
    obtain ⟨rows, hmatched, htouches⟩ := Sets.touches hsets
    exact ⟨rows, model, _, hmodel, rfl, hmatched, now, htouches⟩
  | restore =>
    refine answer_ends (ServiceMutation.restore_ends none (some value)) ?_
    rintro n w' ⟨v, reply, hvalue, hdone⟩
    cases resolveWhere_value hvalue
    obtain ⟨model, built, records, hmodel, rfl, -, hexecuted⟩ := hdone.executed
    obtain ⟨_, hsets, -⟩ := Client.executed_restore hexecuted
    obtain ⟨rows, hmatched, htouches⟩ := Sets.touches hsets
    exact ⟨rows, model, _, hmodel, rfl, hmatched, htouches⟩
  | hardDelete =>
    refine answer_ends (ServiceMutation.hardDelete_ends none (some value)) ?_
    rintro n w' ⟨v, reply, hvalue, hdone⟩
    cases resolveWhere_value hvalue
    obtain ⟨model, built, records, hmodel, rfl, -, hexecuted⟩ := hdone.executed
    obtain ⟨_, hremoves, -⟩ := Client.executed_delete hexecuted
    obtain ⟨rows, hmatched, htouches⟩ := Removes.touches hremoves
    exact ⟨rows, model, _, hmodel, rfl, hmatched, htouches⟩

theorem Matched.holds {rows : List Row} (h : Matched env scope name clauses tables rows) :
    ∀ row ∈ rows, clauses.all (WhereClause.holds env.pg env.casing row) = true := by
  rw [h]
  exact fun row hrow => (Bool.and_eq_true_iff.1 (List.mem_filter.1 hrow).2).2

theorem MatchedPage.holds {limit offset : Option Nat} {rows : List Row}
    (h : MatchedPage env scope name clauses limit offset tables rows) :
    ∀ row ∈ rows, clauses.all (WhereClause.holds env.pg env.casing row) = true := by
  obtain ⟨order, hselected⟩ := h
  exact fun row hrow => (hselected.mem hrow).2

/-- Of what a request selects, the kept part of its `where` holds. -/
theorem Filtered.Selects.holds {call : Filtered} {answer : Answer} {w' : World} {rows : List Row}
    (h : call.Selects env scope ctx modelName value w answer w' rows) :
    ∀ row ∈ rows, (parseWhere value).all (WhereClause.holds env.pg env.casing row) = true := by
  obtain ⟨model, name, -, -, h⟩ := h
  intro row hrow
  cases call with
  | records | deletedRecords | paginatedRecords | findMany =>
    exact all_of_scopeByTenant (all_of_append (h.1.holds row hrow))
  | update | delete | restore | hardDelete => exact all_of_scopeByTenant (h.1.holds row hrow)

end Atomo.GraphQL

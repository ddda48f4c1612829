import Atomo.Client.Effects

/-!
# The reads of the client

The reads of `AtomoClient`, past the read cache. None of them changes the store.
-/

namespace Atomo.Client

open Schema (Model lookup?)
open Query (Statement WhereClause OrderDirection SqlBuilder.select SqlBuilder.selectActive
  SqlBuilder.selectDeleted SqlBuilder.selectOne SqlBuilder.count SqlBuilder.countDeleted SqlBuilder.countWith
  SqlBuilder.notDeleted SqlBuilder.isDeleted SqlBuilder.validOrder validateWhereClauses tableName)
open Db (Tables Postgres Row)

variable (env : Env) (scope : Scope)

/-- A statement of its own, outside of a transaction. -/
def query (built : Statement × List Json) : Program (List Record) := fun w =>
  let sent := { w with tick := w.tick + 1, trace := w.trace ++ [.statement] }
  if env.fails w.tick then .error .database sent
  else
    match Db.run env.pg w.tick (env.pg.now w.tick) none built.2 w.store.tables built.1 with
    | some (tables, rows) =>
      .ok (rows.map (Db.rowToMap env.pg (built.1.returned w.store.tables)))
        { sent with store := { w.store with tables } }
    | none => .error .database sent

/-- `fetch_all_scoped`: in a transaction that binds the tenant of the request, if there is one. -/
def fetchScoped (built : Statement × List Json) : Program (List Record) :=
  match env.rlsEnabled, scope.tenant with
  | true, some tenant => transaction env do
    bindTenantLocal env tenant
    execute env built
  | _, _ => query env built

/-- `AtomoClient::find_many`, without includes. -/
def findMany (modelName : String) (clauses : List WhereClause) (orderBy : List (String × OrderDirection))
    (limit offset : Option Nat) : Program (List Record) := do
  check (validateWhereClauses clauses)
  let model ← findModel env modelName
  fetchScoped env scope (SqlBuilder.selectActive env.casing model clauses orderBy limit offset)

/-- `AtomoClient::find_deleted`. -/
def findDeleted (modelName : String) (clauses : List WhereClause) (orderBy : List (String × OrderDirection))
    (limit offset : Option Nat) : Program (List Record) := do
  check (validateWhereClauses clauses)
  let model ← findModel env modelName
  fetchScoped env scope (SqlBuilder.selectDeleted env.casing model clauses orderBy limit offset)

/-- `AtomoClient::find_unique`, without includes. -/
def findUnique (modelName : String) (clauses : List WhereClause) : Program (Option Record) := do
  check (validateWhereClauses clauses)
  let model ← findModel env modelName
  let records ← fetchScoped env scope (SqlBuilder.selectOne env.casing model (clauses ++ [SqlBuilder.notDeleted]))
  return records.head?

/-- The number that a counting statement returns. -/
def countOf (records : List Record) : Int64 :=
  match records.head?.bind (lookup? "count") with
  | some (.number n) => n.asI64?.getD 0
  | _ => 0

/-- `AtomoClient::count`. -/
def count (modelName : String) (clauses : List WhereClause) : Program Int64 := do
  check (validateWhereClauses clauses)
  let model ← findModel env modelName
  let records ← fetchScoped env scope (SqlBuilder.count env.casing model clauses)
  return countOf records

/-- `AtomoClient::count_deleted`. -/
def countDeleted (modelName : String) (clauses : List WhereClause) : Program Int64 := do
  check (validateWhereClauses clauses)
  let model ← findModel env modelName
  let records ← fetchScoped env scope (SqlBuilder.countDeleted env.casing model clauses)
  return countOf records

/-! ## What they return -/

/-- The store is as it was. -/
def Kept {α : Type} (w : World) (_ : α) (w' : World) : Prop :=
  w'.store = w.store

theorem fetchScoped_ends (built : Statement × List Json) (w : World) :
    Ends (fetchScoped env scope built) w
      (fun records w' => ∃ tables, Executed env.pg (boundTenant env scope) w.store.tables [built] tables records ∧
        w'.store = { w.store with tables }) (Kept w) := by
  have hquery : Ends (query env built) w
      (fun records w' => ∃ tables, Executed env.pg none w.store.tables [built] tables records ∧
        w'.store = { w.store with tables }) (Kept w) := by
    apply Ends.of_result
    unfold query
    by_cases hfails : env.fails w.tick = true
    · simp only [hfails, if_true]
      exact rfl
    · simp only [hfails]
      cases hrun : Db.run env.pg w.tick (env.pg.now w.tick) none built.2 w.store.tables built.1 with
      | none => exact rfl
      | some done =>
        have hexecuted := Executed.cons hrun (.nil done.1)
        rw [List.append_nil] at hexecuted
        exact ⟨done.1, hexecuted, rfl⟩
  unfold fetchScoped
  split
  · rename_i tenant hrls hscope
    rw [boundTenant_some env scope hrls hscope]
    have hbody : Ends (do
        bindTenantLocal env tenant
        execute env built) (w.begin env)
        (fun records tx => (w.begin env).Ran tx ∧ ∃ tables, tx.work = { w.store with tables } ∧
          Executed env.pg (some tenant) w.store.tables [built] tables records)
        (Failed (w.begin env)) := by
      refine (bindTenantLocal_ends env tenant _).bind fun _ tx hbind => ?_
      refine Failed.mono hbind.toRan ((execute_ends env built tx).mono ?_ fun _ _ h => h)
      intro records tx' hexecutes
      obtain ⟨tables, hwork, hexecuted⟩ := hexecutes.work
      rw [hbind.work] at hwork hexecuted
      rw [hbind.tenant] at hexecuted
      exact ⟨hbind.toRan.trans hexecutes.toRan, tables, hwork, hexecuted⟩
    refine (transaction_ends env hbody fun _ _ h => h.1).mono ?_ fun _ _ h => h.store
    rintro records w' ⟨tx, ⟨-, tables, hwork, hexecuted⟩, rfl⟩
    exact ⟨tables, hexecuted, hwork⟩
  · rename_i hnone
    rw [boundTenant_none env scope hnone]
    exact hquery

variable {env scope} {pg : Postgres} {cc : CharCase} {tenant : Option String} {model : Model} {clauses : List WhereClause}

/-- The rows that a selection returns, in its order and on its page. -/
def Selected (pg : Postgres) (cc : CharCase) (tenant : Option String) (name : String)
    (clauses : List WhereClause) (order : List (String × OrderDirection)) (limit offset : Option Nat)
    (tables : Tables) (rows : List Row) : Prop :=
  rows = Db.page limit offset
    (pg.sort order ((tables name).rows.filter (Db.matching pg cc tenant name clauses)))

theorem executed_select {orderBy : List (String × OrderDirection)} {limit offset : Option Nat}
    {tables tables' : Tables} {records : List Record}
    (h : Executed pg tenant tables [SqlBuilder.select cc model clauses orderBy limit offset] tables' records) :
    tables' = tables ∧ ∃ rows,
      Selected pg cc tenant (tableName cc model) clauses (SqlBuilder.validOrder cc model orderBy) limit offset tables rows ∧
      records = rows.map (Db.rowToMap pg (tables (tableName cc model)).columnNames) := by
  obtain ⟨tick, now, rows, hrun, hrecords⟩ := h.single
  have hselects : Db.selects pg tenant (tableName cc model) (Query.buildWhere cc clauses 0).1
      (Query.buildWhere cc clauses 0).2 = Db.matching pg cc tenant (tableName cc model) clauses :=
    Db.selects_buildWhere pg cc tenant (tableName cc model) clauses []
  simp only [SqlBuilder.select, Db.run, Bool.false_eq_true, if_false] at hrun
  split at hrun
  · cases hrun
    rw [hselects] at hrecords
    exact ⟨rfl, _, rfl, hrecords⟩
  · cases hrun

theorem executed_countWith {deletion : WhereClause} {tables tables' : Tables} {records : List Record}
    (h : Executed pg tenant tables [SqlBuilder.countWith cc model deletion clauses] tables' records) :
    tables' = tables := by
  obtain ⟨tick, now, rows, hrun, -⟩ := h.single
  simp only [SqlBuilder.countWith, Db.run, if_true] at hrun
  split at hrun
  · cases hrun
    rfl
  · cases hrun

/-- A row that is returned is one of the table that every clause holds of. -/
theorem Selected.mem {name : String} {order : List (String × OrderDirection)} {limit offset : Option Nat}
    {tables : Tables} {rows : List Row} (h : Selected pg cc tenant name clauses order limit offset tables rows) {row : Row}
    (hrow : row ∈ rows) : row ∈ (tables name).rows ∧ clauses.all (WhereClause.holds pg cc row) = true := by
  rw [h] at hrow
  have hmem := (pg.sort_perm order _).mem_iff.1 (Db.page_subset hrow)
  obtain ⟨hin, hmatching⟩ := List.mem_filter.1 hmem
  exact ⟨hin, (Bool.and_eq_true_iff.1 hmatching).2⟩

theorem Undone.kept {w w' : World} {e : Error} (h : Undone w e w') : Kept w e w' :=
  h.store

theorem findModel_kept (name : String) (w : World) :
    Ends (findModel env name) w (fun model w' => env.schema.model? name = some model ∧ w' = w) (Kept w) :=
  (findModel_ends env name w).mono (fun _ _ h => h) fun _ _ h => h.kept

theorem check_kept (result : Except String Unit) (w : World) :
    Ends (check result) w (fun _ w' => w' = w) (Kept w) :=
  (check_ends result w).mono (fun _ _ h => h) fun _ _ h => h.kept

/-- The course of the reads. -/
theorem read_ends {β : Type} {modelName : String} {build : Model → Statement × List Json}
    {answer : List Record → Program β} {w : World} {Q : β → World → Prop}
    (hQ : ∀ model tables records w', env.schema.model? modelName = some model →
      Executed env.pg (boundTenant env scope) w.store.tables [build model] tables records →
      w'.store = { w.store with tables } →
      Ends (answer records) w' Q (Kept w)) :
    Ends (do
      check (validateWhereClauses clauses)
      let model ← findModel env modelName
      let records ← fetchScoped env scope (build model)
      answer records) w Q (Kept w) := by
  refine (check_kept _ w).bind ?_
  rintro _ _ rfl
  refine (findModel_kept modelName _).bind ?_
  rintro model w ⟨hmodel, rfl⟩
  refine (fetchScoped_ends env scope _ w).bind ?_
  rintro records w' ⟨tables, hexecuted, hstore⟩
  exact hQ model tables records w' hmodel hexecuted hstore

/-- The rows of a model that a read returns, each as a record. -/
def Returns (env : Env) (scope : Scope) (modelName : String) (clauses : List WhereClause)
    (orderBy : List (String × OrderDirection)) (limit offset : Option Nat) (tables : Tables) (records : List Record) : Prop :=
  ∃ model rows, env.schema.model? modelName = some model ∧
    Selected env.pg env.casing (boundTenant env scope) (tableName env.casing model) clauses
      (SqlBuilder.validOrder env.casing model orderBy) limit offset tables rows ∧
    records = rows.map (Db.rowToMap env.pg (tables (tableName env.casing model)).columnNames)

variable {modelName : String} {orderBy : List (String × OrderDirection)} {limit offset : Option Nat}

theorem select_ends {deletion : WhereClause} (w : World) :
    Ends (do
      check (validateWhereClauses clauses)
      let model ← findModel env modelName
      fetchScoped env scope (SqlBuilder.select env.casing model (clauses ++ [deletion]) orderBy limit offset)) w
      (fun records w' => w'.store = w.store ∧
        Returns env scope modelName (clauses ++ [deletion]) orderBy limit offset w.store.tables records) (Kept w) := by
  refine (check_kept _ w).bind ?_
  rintro _ _ rfl
  refine (findModel_kept modelName _).bind ?_
  rintro model w ⟨hmodel, rfl⟩
  refine (fetchScoped_ends env scope _ w).mono ?_ fun _ _ h => h
  rintro records w' ⟨tables, hexecuted, hstore⟩
  obtain ⟨rfl, rows, hselected, hrecords⟩ := executed_select hexecuted
  exact ⟨hstore, model, rows, hmodel, hselected, hrecords⟩

theorem findMany_ends (w : World) :
    Ends (findMany env scope modelName clauses orderBy limit offset) w
      (fun records w' => w'.store = w.store ∧
        Returns env scope modelName (clauses ++ [SqlBuilder.notDeleted]) orderBy limit offset w.store.tables records)
      (Kept w) :=
  select_ends w

theorem findDeleted_ends (w : World) :
    Ends (findDeleted env scope modelName clauses orderBy limit offset) w
      (fun records w' => w'.store = w.store ∧
        Returns env scope modelName (clauses ++ [SqlBuilder.isDeleted]) orderBy limit offset w.store.tables records)
      (Kept w) :=
  select_ends w

theorem findUnique_ends (w : World) :
    Ends (findUnique env scope modelName clauses) w
      (fun record w' => w'.store = w.store ∧ ∃ records, record = records.head? ∧
        Returns env scope modelName (clauses ++ [SqlBuilder.notDeleted]) [] (some 1) none w.store.tables records)
      (Kept w) := by
  refine read_ends fun model tables records w' hmodel hexecuted hstore => Ends.pure ?_
  obtain ⟨rfl, rows, hselected, hrecords⟩ := executed_select hexecuted
  exact ⟨hstore, records, rfl, model, rows, hmodel, hselected, hrecords⟩

theorem count_ends (w : World) : Ends (count env scope modelName clauses) w (Kept w) (Kept w) := by
  refine read_ends fun model tables records w' _ hexecuted hstore => Ends.pure ?_
  rw [executed_countWith hexecuted] at hstore
  exact hstore

theorem countDeleted_ends (w : World) : Ends (countDeleted env scope modelName clauses) w (Kept w) (Kept w) := by
  refine read_ends fun model tables records w' _ hexecuted hstore => Ends.pure ?_
  rw [executed_countWith hexecuted] at hstore
  exact hstore

/-! ## Past row-level security -/

theorem fetchScoped_eq (hrls : env.rlsEnabled = false) (built : Statement × List Json) :
    fetchScoped env scope built = query env built := by
  unfold fetchScoped
  rw [hrls]

theorem validate_equals {clauses : List WhereClause} (h : ∀ clause ∈ clauses, clause.operator = .equals) :
    validateWhereClauses clauses = .ok () := by
  induction clauses with
  | nil => rfl
  | cons clause clauses ih =>
    rw [List.forall_mem_cons] at h
    unfold validateWhereClauses
    rw [if_neg (by simp [h.1]), ih h.2]

/-- The conditions are about the columns of the clauses. -/
theorem columns_whereClauses (cc : CharCase) {clauses : List WhereClause}
    (h : ∀ clause ∈ clauses, clause.operator = .equals ∨ clause.operator = .isNull) (idx : Nat) :
    (Query.whereClauses cc clauses idx).1.flatMap Query.Condition.columns =
      clauses.map fun clause => toSnakeCase cc clause.field := by
  induction clauses generalizing idx with
  | nil => rfl
  | cons clause clauses ih =>
    rw [List.forall_mem_cons] at h
    obtain ⟨field, operator, value⟩ := clause
    unfold Query.whereClauses
    dsimp only
    rw [List.flatMap_cons, ih h.2, List.map_cons]
    obtain heq | heq := h.1
    · cases heq
      rfl
    · cases heq
      rfl

/-- A client that nothing stands in the way of finds the rows that match, where the clauses are about columns of the
table. -/
theorem findMany_bare {schema : Atomo.Schema} {w : World} (hmodel : schema.model? modelName = some model)
    (h : ∀ clause ∈ clauses, clause.operator = .equals) (hlimit : Db.boundsHold limit none = true)
    (hnames : ∀ clause ∈ clauses ++ [SqlBuilder.notDeleted],
      toSnakeCase .ascii clause.field ∈ (w.store.tables (tableName .ascii model)).columnNames) :
    ∃ w', findMany (.bare schema) scope modelName clauses [] limit none w =
      .ok ((Db.page limit none ((w.store.tables (tableName .ascii model)).rows.filter
        (Db.matching .bare .ascii none (tableName .ascii model) (clauses ++ [SqlBuilder.notDeleted])))).map
          (Db.rowToMap .bare (w.store.tables (tableName .ascii model)).columnNames)) w' := by
  have hoperators : ∀ clause ∈ clauses ++ [SqlBuilder.notDeleted],
      clause.operator = .equals ∨ clause.operator = .isNull := by
    intro clause hclause
    cases List.mem_append.1 hclause with
    | inl hmem => exact .inl (h clause hmem)
    | inr hlast =>
      rw [List.mem_singleton.1 hlast]
      exact .inr rfl
  have hcheck : check (validateWhereClauses clauses) w = .ok () w := by
    rw [validate_equals h]
    rfl
  have hfind : findModel (.bare schema) modelName w = .ok model w := by
    unfold findModel
    rw [show (Env.bare schema).schema = schema from rfl, hmodel]
    rfl
  have hselects := Db.selects_buildWhere .bare .ascii none (tableName .ascii model) (clauses ++ [SqlBuilder.notDeleted]) []
  rw [List.nil_append, List.length_nil] at hselects
  have hknows : (w.store.tables (tableName .ascii model)).knows
      ((Query.buildWhere .ascii (clauses ++ [SqlBuilder.notDeleted]) 0).1.flatMap Query.Condition.columns ++ []) = true := by
    have hcolumns := columns_whereClauses .ascii hoperators 1
    unfold Query.buildWhere
    rw [hcolumns, List.append_nil]
    unfold Db.Table.knows
    rw [List.all_map, List.all_eq_true]
    exact fun clause hclause => decide_eq_true (hnames clause hclause)
  have hquery : ∃ w', query (.bare schema) (SqlBuilder.selectActive .ascii model clauses [] limit none) w =
      .ok ((Db.page limit none ((w.store.tables (tableName .ascii model)).rows.filter
        (Db.matching .bare .ascii none (tableName .ascii model) (clauses ++ [SqlBuilder.notDeleted])))).map
          (Db.rowToMap .bare (w.store.tables (tableName .ascii model)).columnNames)) w' := by
    have hrun : Db.run .bare w.tick w.tick none (SqlBuilder.selectActive .ascii model clauses [] limit none).2 w.store.tables
        (SqlBuilder.selectActive .ascii model clauses [] limit none).1 =
        some (w.store.tables, Db.page limit none ((w.store.tables (tableName .ascii model)).rows.filter
          (Db.matching .bare .ascii none (tableName .ascii model) (clauses ++ [SqlBuilder.notDeleted])))) := by
      rw [← hselects]
      exact if_pos (Bool.and_eq_true_iff.2 ⟨hknows, hlimit⟩)
    unfold query
    simp only [Env.bare, Bool.false_eq_true, if_false]
    rw [show Db.Postgres.bare.now w.tick = w.tick from rfl, hrun]
    exact ⟨_, rfl⟩
  obtain ⟨w', hdone⟩ := hquery
  refine ⟨w', (bind_of_ok hcheck).trans ((bind_of_ok hfind).trans ?_)⟩
  show fetchScoped (.bare schema) scope _ w = _
  rw [fetchScoped_eq rfl]
  exact hdone

end Atomo.Client

import Atomo.Auth.Validity
import Atomo.Client.Reads
import Atomo.Client.Tenants
import Atomo.GraphQL.Queries
import Atomo.GraphQL.Subscription
import Atomo.Lib.Parallel

/-!
# The entry points and tenants

`graphql_handler` takes the tenant of a request from a header and compares it with the tenant of the user; where they
differ, or there is no header, the request goes on without a tenant. `graphql_ws_handler` takes it from the payload of
`connection_init` and compares it with nothing. A request with the tenant of its user reads the rows of that tenant only,
and its answers depend on no other; a request without a tenant reads all rows (`tenant_confined_iff`).
-/

namespace Atomo

open Query (WhereClause OrderDirection scopeByTenant tableName SqlBuilder.select SqlBuilder.selectOne SqlBuilder.countWith
  SqlBuilder.notDeleted SqlBuilder.isDeleted validateWhereClauses)
open Db (Tables Table Row Postgres belongs)
open Schema (Model lookup?)

/-! ## Tables that differ in rows of other tenants -/

namespace Db

variable (pg : Postgres) (tenant : String)

/-- The tables have the same columns and the same rows of a tenant. -/
def Alike (tables tables' : Tables) : Prop :=
  ∀ name, (tables name).columns = (tables' name).columns ∧
    (tables name).rows.filter (belongs pg tenant) = (tables' name).rows.filter (belongs pg tenant)

variable {pg tenant} {tables tables' : Tables}

/-- Rows that are selected among those of the tenant are the same. -/
theorem Alike.filter_eq (h : Alike pg tenant tables tables') {selected : Row → Bool}
    (hselected : ∀ row, selected row = true → belongs pg tenant row = true) (name : String) :
    (tables name).rows.filter selected = (tables' name).rows.filter selected := by
  have hfilter : ∀ rows : List Row, (rows.filter (belongs pg tenant)).filter selected = rows.filter selected := by
    intro rows
    rw [List.filter_filter]
    refine List.filter_congr fun row _ => ?_
    cases hrow : selected row with
    | false => rfl
    | true => rw [hselected row hrow]; rfl
  calc
    _ = ((tables name).rows.filter (belongs pg tenant)).filter selected := (hfilter _).symm
    _ = ((tables' name).rows.filter (belongs pg tenant)).filter selected := by rw [(h name).2]
    _ = _ := hfilter _

theorem Alike.columnNames (h : Alike pg tenant tables tables') (name : String) :
    (tables name).columnNames = (tables' name).columnNames :=
  congrArg (List.map Prod.fst) (h name).1

/-- A selection among the rows of the tenant returns the same of both, and changes neither. -/
theorem Alike.run_select (h : Alike pg tenant tables tables') (tick : Nat) (now : Int) {bound : Option String}
    {params : List Json} (counting : Bool) {name : String} {conditions : List Query.Condition}
    (order : List (String × OrderDirection)) (limit offset : Option Nat)
    (hselected : ∀ row, selects pg bound name conditions params row = true → belongs pg tenant row = true) :
    ∃ returned : Option (List Row),
      run pg tick now bound params tables (.select counting name conditions order limit offset) =
        returned.map (tables, ·) ∧
      run pg tick now bound params tables' (.select counting name conditions order limit offset) =
        returned.map (tables', ·) := by
  have hknows : ∀ columns, (tables' name).knows columns = (tables name).knows columns := by
    intro columns
    unfold Table.knows
    rw [h.columnNames]
  simp only [run, hknows, ← h.filter_eq hselected name]
  split
  · split
    · exact ⟨some _, rfl, rfl⟩
    · exact ⟨some _, rfl, rfl⟩
  · exact ⟨none, rfl, rfl⟩

end Db

/-! ## Reads that are scoped -/

namespace Client

variable (env : Env) (tenant : String)

/-- The worlds differ in rows of other tenants at most, as far as queries read them. -/
structure Twin (w w' : World) : Prop where
  tick : w.tick = w'.tick
  tables : Db.Alike env.pg tenant w.store.tables w'.store.tables

variable {env tenant} {scope : Scope} {model : Model} {clauses : List WhereClause} {deletion : WhereClause}

theorem selected_belongs {bound : Option String} {row : Row}
    (h : Db.selects env.pg bound (tableName env.casing model)
      (Query.buildWhere env.casing (scopeByTenant clauses (some tenant) ++ [deletion]) 0).1
      (Query.buildWhere env.casing (scopeByTenant clauses (some tenant) ++ [deletion]) 0).2 row = true) :
    belongs env.pg tenant row = true := by
  have hselects := Db.selects_buildWhere env.pg env.casing bound (tableName env.casing model)
    (scopeByTenant clauses (some tenant) ++ [deletion]) []
  rw [List.nil_append, List.length_nil] at hselects
  rw [hselects] at h
  obtain ⟨hvisible, hall⟩ := Bool.and_eq_true_iff.1 h
  rw [List.all_append] at hall
  exact Db.belongs_of_matching (Bool.and_eq_true_iff.2 ⟨hvisible, (Bool.and_eq_true_iff.1 hall).1⟩)

/-- A statement of its own that selects among the rows of the tenant. -/
theorem query_parallel (counting : Bool) {name : String} {conditions : List Query.Condition} {params : List Json}
    (order : List (String × OrderDirection)) (limit offset : Option Nat)
    (hselected : ∀ row, Db.selects env.pg none name conditions params row = true → belongs env.pg tenant row = true) :
    Parallel (Twin env tenant) (query env (.select counting name conditions order limit offset, params)) := by
  intro w w' h
  obtain ⟨returned, hrun, hrun'⟩ :=
    h.tables.run_select w.tick (env.pg.now w.tick) counting order limit offset hselected
  have hcolumns : Query.Statement.returned w'.store.tables (.select counting name conditions order limit offset) =
      Query.Statement.returned w.store.tables (.select counting name conditions order limit offset) := by
    cases counting with
    | true => rfl
    | false => exact (h.tables.columnNames name).symm
  unfold query
  dsimp only
  rw [← h.tick, hrun, hrun', hcolumns]
  split
  · exact .error _ ⟨rfl, h.tables⟩
  · cases returned with
    | none => exact .error _ ⟨rfl, h.tables⟩
    | some rows => exact .ok _ ⟨rfl, h.tables⟩

theorem check_parallel (result : Except String Unit) : Parallel (Twin env tenant) (check result) := by
  unfold check
  split
  · exact .pure _
  · exact .throw _

theorem findModel_parallel (name : String) : Parallel (Twin env tenant) (findModel env name) := by
  unfold findModel
  split
  · exact .pure _
  · exact .throw _

section

variable (hrls : env.rlsEnabled = false)

include hrls

theorem fetch_parallel (counting : Bool) (model : Model) (order : List (String × OrderDirection))
    (limit offset : Option Nat) :
    Parallel (Twin env tenant) (fetchScoped env scope (.select counting (tableName env.casing model)
      (Query.buildWhere env.casing (scopeByTenant clauses (some tenant) ++ [deletion]) 0).1 order limit offset,
      (Query.buildWhere env.casing (scopeByTenant clauses (some tenant) ++ [deletion]) 0).2)) := by
  rw [fetchScoped_eq hrls]
  exact query_parallel counting order limit offset fun row hrow => selected_belongs hrow

omit hrls in
/-- The course of the reads. -/
theorem read_parallel {β : Type} {modelName : String} {read : Model → Program β}
    (hread : ∀ model, Parallel (Twin env tenant) (read model)) :
    Parallel (Twin env tenant) (do
      check (validateWhereClauses (scopeByTenant clauses (some tenant)))
      let model ← findModel env modelName
      read model) :=
  (check_parallel _).bind fun _ => (findModel_parallel modelName).bind hread

variable (modelName : String) (orderBy : List (String × OrderDirection)) (limit offset : Option Nat)

theorem findMany_parallel :
    Parallel (Twin env tenant)
      (findMany env scope modelName (scopeByTenant clauses (some tenant)) orderBy limit offset) :=
  read_parallel fun model => fetch_parallel hrls false model _ limit offset

theorem findDeleted_parallel :
    Parallel (Twin env tenant)
      (findDeleted env scope modelName (scopeByTenant clauses (some tenant)) orderBy limit offset) :=
  read_parallel fun model => fetch_parallel hrls false model _ limit offset

theorem findUnique_parallel :
    Parallel (Twin env tenant) (findUnique env scope modelName (scopeByTenant clauses (some tenant))) :=
  read_parallel fun model => (fetch_parallel hrls false model _ (some 1) none).bind fun _ => .pure _

theorem count_parallel : Parallel (Twin env tenant) (count env scope modelName (scopeByTenant clauses (some tenant))) :=
  read_parallel fun model => (fetch_parallel hrls true model _ none none).bind fun _ => .pure _

theorem countDeleted_parallel :
    Parallel (Twin env tenant) (countDeleted env scope modelName (scopeByTenant clauses (some tenant))) :=
  read_parallel fun model => (fetch_parallel hrls true model _ none none).bind fun _ => .pure _

end

end Client

/-! ## Record queries -/

namespace GraphQL

open Client (Env Scope World Record Twin)

/-- A query of `ServiceQuery`. -/
inductive RecordQuery where
  | records (modelName : String) (where_ orderBy : Option Json) (limit offset : Option Int32)
  | deletedRecords (modelName : String) (where_ orderBy : Option Json) (limit offset : Option Int32)
  | record (modelName id : String)
  | paginatedRecords (modelName : String) (where_ orderBy : Option Json) (limit offset : Option Int32)

/-- What a query answers. -/
inductive RecordAnswer where
  | records (found : List Record)
  | page (found : PaginatedRecords)
  | record (found : Option Record)

/-- The rows of an answer. -/
def RecordAnswer.rows : RecordAnswer → List Record
  | .records found => found
  | .page found => found.data
  | .record found => found.toList

def RecordQuery.run (env : Env) (scope : Scope) (ctx : Ctx) : RecordQuery → Resolver RecordAnswer
  | .records modelName where_ orderBy limit offset => do
    return .records (← ServiceQuery.records env scope ctx modelName where_ orderBy limit offset)
  | .deletedRecords modelName where_ orderBy limit offset => do
    return .page (← ServiceQuery.deletedRecords env scope ctx modelName where_ orderBy limit offset)
  | .record modelName id => do
    return .record (← ServiceQuery.record env scope ctx modelName id)
  | .paginatedRecords modelName where_ orderBy limit offset => do
    return .page (← ServiceQuery.paginatedRecords env scope ctx modelName where_ orderBy limit offset)

/-- A record is a row of a tenant, as the API shows it. -/
def OfTenant (env : Env) (tenant : String) (tables : Tables) (record : Record) : Prop :=
  ∃ name, ∃ row ∈ (tables name).rows, belongs env.pg tenant row = true ∧
    record = camelKeys env.casing (Db.rowToMap env.pg (tables name).columnNames row)

/-- A query answers with rows of the tenant only, and does not depend on those of others. -/
structure RecordQuery.Confined (env : Env) (scope : Scope) (ctx : Ctx) (tenant : String) (q : RecordQuery) : Prop where
  rows : ∀ w answer w', q.run env scope ctx w = .ok answer w' →
    ∀ record ∈ answer.rows, OfTenant env tenant w.store.tables record
  alike : ∀ w w', Twin env tenant w w' → answerOf (q.run env scope ctx) w = answerOf (q.run env scope ctx) w'

section

variable {env : Env} {scope : Scope} {ctx : Ctx} {tenant : String}

theorem call_parallel {α : Type} {program : Client.Program α} (h : Parallel (Twin env tenant) program) :
    Parallel (Twin env tenant) (call program) :=
  h.mapError _

theorem callOr_parallel {α : Type} {program : Client.Program α} (h : Parallel (Twin env tenant) program) (default : α) :
    Parallel (Twin env tenant) (callOr program default) := by
  intro w w' hw
  have hsame := h w w' hw
  unfold callOr
  generalize program w = result, program w' = result' at hsame ⊢
  cases hsame with
  | ok a ht => exact .ok a ht
  | error e ht => exact .ok default ht

theorem checkAccess_parallel (schema : Atomo.Schema) (modelName action : String) (ctx : Ctx) :
    Parallel (Twin env tenant) (checkAccess schema modelName action ctx) := by
  unfold checkAccess
  split
  · exact .pure _
  · split
    · exact .pure _
    · exact .throw _
    · exact .throw _

variable (hrls : env.rlsEnabled = false) (hctx : ctx.tenant = some tenant)

include hrls hctx

theorem run_parallel (q : RecordQuery) : Parallel (Twin env tenant) (q.run env scope ctx) := by
  have haccess : ∀ modelName action ctx,
      Parallel (Twin env tenant) (checkAccess env.schema modelName action ctx) := checkAccess_parallel env.schema
  cases q with
  | records modelName where_ orderBy limit offset =>
    unfold RecordQuery.run ServiceQuery.records scopedWhere
    rw [hctx]
    refine Parallel.bind ((haccess modelName "read" ctx).bind fun _ => ?_) fun _ => .pure _
    exact (call_parallel (Client.findMany_parallel hrls modelName _ _ _)).bind fun _ => .pure _
  | deletedRecords modelName where_ orderBy limit offset =>
    unfold RecordQuery.run ServiceQuery.deletedRecords scopedWhere
    rw [hctx]
    refine Parallel.bind ((haccess modelName "read" ctx).bind fun _ => ?_) fun _ => .pure _
    refine (call_parallel (Client.findDeleted_parallel hrls modelName _ _ _)).bind fun _ => ?_
    exact (callOr_parallel (Client.countDeleted_parallel hrls modelName) 0).bind fun _ => .pure _
  | record modelName id =>
    unfold RecordQuery.run ServiceQuery.record
    rw [hctx]
    refine Parallel.bind ((haccess modelName "read" ctx).bind fun _ => ?_) fun _ => .pure _
    exact (call_parallel (Client.findUnique_parallel hrls modelName)).bind fun _ => .pure _
  | paginatedRecords modelName where_ orderBy limit offset =>
    unfold RecordQuery.run ServiceQuery.paginatedRecords scopedWhere
    rw [hctx]
    refine Parallel.bind ((haccess modelName "read" ctx).bind fun _ => ?_) fun _ => .pure _
    refine (call_parallel (Client.findMany_parallel hrls modelName _ _ _)).bind fun _ => ?_
    exact (callOr_parallel (Client.count_parallel hrls modelName) 0).bind fun _ => .pure _

end

section

variable {env : Env} {scope : Scope} {ctx : Ctx} {tenant : String}

/-! ### Rows -/

theorem ofTenant_of_returns {modelName : String} {clauses : List WhereClause} {deletion : WhereClause}
    {order : List (String × OrderDirection)} {limit offset : Option Nat} {tables : Tables} {records : List Record}
    (h : Client.Returns env scope modelName (scopeByTenant clauses (some tenant) ++ [deletion]) order limit offset tables
      records) : ∀ record ∈ records.map (camelKeys env.casing), OfTenant env tenant tables record := by
  obtain ⟨model, rows, -, hselected, rfl⟩ := h
  intro record hrecord
  rw [List.map_map] at hrecord
  obtain ⟨row, hrow, rfl⟩ := List.mem_map.1 hrecord
  obtain ⟨hmem, hall⟩ := hselected.mem hrow
  rw [List.all_append] at hall
  exact ⟨_, row, hmem, Db.belongs_of_holds (Bool.and_eq_true_iff.1 hall).1, rfl⟩

variable (hctx : ctx.tenant = some tenant)

include hctx

theorem run_ofTenant (q : RecordQuery) (w : World) :
    Ends (q.run env scope ctx) w (fun answer _ => ∀ record ∈ answer.rows, OfTenant env tenant w.store.tables record)
      fun _ _ => True := by
  have haccess : ∀ modelName, Ends (checkAccess env.schema modelName "read" ctx) w (fun _ w' => w' = w) fun _ _ => True :=
    fun modelName => checkAccess_ends fun _ => trivial
  cases q with
  | records modelName where_ orderBy limit offset =>
    unfold RecordQuery.run ServiceQuery.records scopedWhere
    rw [hctx]
    refine Ends.bind (Q := fun rows _ => ∀ record ∈ rows, OfTenant env tenant w.store.tables record)
      ((haccess modelName).bind ?_) fun rows _ hrows => Ends.pure hrows
    rintro _ _ rfl
    refine (call_ends (Client.findMany_ends _) fun _ _ _ => trivial).bind ?_
    rintro rows _ ⟨-, hreturns⟩
    exact Ends.pure (ofTenant_of_returns hreturns)
  | deletedRecords modelName where_ orderBy limit offset =>
    unfold RecordQuery.run ServiceQuery.deletedRecords scopedWhere
    rw [hctx]
    refine Ends.bind (Q := fun page _ => ∀ record ∈ page.data, OfTenant env tenant w.store.tables record)
      ((haccess modelName).bind ?_) fun page _ hpage => Ends.pure hpage
    rintro _ _ rfl
    refine (call_ends (Client.findDeleted_ends _) fun _ _ _ => trivial).bind ?_
    rintro rows _ ⟨-, hreturns⟩
    refine (callOr_ends (Client.countDeleted_ends _) fun _ _ h => h).bind fun total _ _ => ?_
    exact Ends.pure (ofTenant_of_returns hreturns)
  | record modelName id =>
    unfold RecordQuery.run ServiceQuery.record
    rw [hctx]
    refine Ends.bind (Q := fun row _ => ∀ record ∈ row.toList, OfTenant env tenant w.store.tables record)
      ((haccess modelName).bind ?_) fun row _ hrow => Ends.pure hrow
    rintro _ _ rfl
    refine (call_ends (Client.findUnique_ends _) fun _ _ _ => trivial).bind ?_
    rintro _ _ ⟨-, records, rfl, hreturns⟩
    refine Ends.pure fun record hrecord => ?_
    rw [Option.mem_toList, Option.map_eq_some_iff] at hrecord
    obtain ⟨row, hrow, rfl⟩ := hrecord
    exact ofTenant_of_returns hreturns _ (List.mem_map_of_mem (List.mem_of_head? hrow))
  | paginatedRecords modelName where_ orderBy limit offset =>
    unfold RecordQuery.run ServiceQuery.paginatedRecords scopedWhere
    rw [hctx]
    refine Ends.bind (Q := fun page _ => ∀ record ∈ page.data, OfTenant env tenant w.store.tables record)
      ((haccess modelName).bind ?_) fun page _ hpage => Ends.pure hpage
    rintro _ _ rfl
    refine (call_ends (Client.findMany_ends _) fun _ _ _ => trivial).bind ?_
    rintro rows _ ⟨-, hreturns⟩
    refine (callOr_ends (Client.count_ends _) fun _ _ h => h).bind fun total _ _ => ?_
    exact Ends.pure (ofTenant_of_returns hreturns)

/-- A query with a tenant is confined to it. -/
theorem confined_of_tenant (hrls : env.rlsEnabled = false) (q : RecordQuery) : q.Confined env scope ctx tenant where
  rows w _ _ hrun := (run_ofTenant hctx q w).ok hrun
  alike _ _ htwin := (run_parallel hrls hctx q).answer htwin

end

/-! ## Entry points -/

end GraphQL

namespace Server

open Auth (AuthUser UserRole)
open GraphQL (Ctx RecordQuery Subscription)
open Client (Env Scope World)

/-- The `Debug` text of a role. -/
def roleText : UserRole → String
  | .admin => "Admin"
  | .manager => "Manager"
  | .sales => "Sales"
  | .support => "Support"
  | .viewer => "Viewer"

/-- `tenant_header_allowed`. -/
def tenantHeaderAllowed (userTenant : Option String) (headerTenant : String) : Bool :=
  userTenant.all (· = headerTenant)

/-- `str::strip_prefix`. -/
def stripPrefix (start text : String) : Option String :=
  if start.toList.isPrefixOf text.toList then some (.ofList (text.toList.drop start.length)) else none

/-- `auth_middleware`, over `verify_token`: the user of a request, or none if it is refused. -/
def authMiddleware (verify : String → Option AuthUser) (authorization : Option String) : Option AuthUser :=
  (authorization.bind (stripPrefix "Bearer ")).bind verify

/-- `graphql_handler`: the context and the scope of a request, by the user that the middleware has put in and the text of
the header `x-tenant-id`. -/
def graphqlHandler (user : Option AuthUser) (tenantId : Option String) : Ctx × Scope :=
  let allowed := tenantId.filter fun tid => user.isSome && tenantHeaderAllowed (user.bind (·.tenantId)) tid
  ({ userRole := user.map (roleText ·.role), userId := user.map (·.id), tenant := allowed }, { tenant := allowed })

/-- The token of a payload. -/
def payloadToken (value : Json) : Option String :=
  ((((value.get? "authorization").or (value.get? "Authorization")).or (value.get? "token")).bind Json.asStr?).map
    fun text => (stripPrefix "Bearer " text).getD text

/-- `on_connection_init` of `graphql_ws_handler`, over `verify_token`. -/
def onConnectionInit (verify : String → Option AuthUser) (value : Json) : Except String Ctx :=
  match payloadToken value with
  | none => .error "WebSocket auth required: missing token in connection_init"
  | some token =>
    match verify token with
    | none => .error "WebSocket auth failed: invalid or expired token"
    | some user => .ok {
        userRole := some (roleText user.role)
        userId := some user.id
        tenant := (value.get? "tenant").bind Json.asStr? }

/-- With row-level security off, each record query is confined to the tenant. -/
def QueriesConfined (tenant : String) (ctx : Ctx) (scope : Scope) : Prop :=
  ∀ env : Env, env.rlsEnabled = false → ∀ q : RecordQuery, q.Confined env scope ctx tenant

/-- The data of each event that a subscription delivers name the tenant. -/
def StreamsConfined (tenant : String) (ctx : Ctx) : Prop :=
  ∀ (schema : Atomo.Schema) (model : String) (sub : Subscription), Subscription.modelChanges schema ctx model = .ok sub →
    ∀ (cc : CharCase) (event : StampedEvent), (sub.next cc (.send event)).isSome = true →
      (lookup? "tenant_id" event.data).bind Json.asStr? = some tenant

/-! ## A request with the tenant of its user -/

theorem queriesConfined_of_tenant {tenant : String} {ctx : Ctx} (scope : Scope) (h : ctx.tenant = some tenant) :
    QueriesConfined tenant ctx scope :=
  fun _ hrls q => GraphQL.confined_of_tenant h hrls q

theorem streamsConfined_of_tenant {tenant : String} {ctx : Ctx} (h : ctx.tenant = some tenant) :
    StreamsConfined tenant ctx := by
  intro schema model sub hopened cc event hnext
  have hsub : sub.tenant = some tenant := by
    unfold Subscription.modelChanges at hopened
    split at hopened
    · cases hopened
      exact h
    · split at hopened <;> cases hopened
      exact h
  obtain ⟨shown, hshown⟩ := Option.isSome_iff_exists.1 hnext
  have hpasses := (Option.ite_none_right_eq_some.1 hshown).1
  unfold Subscription.passes at hpasses
  rw [hsub, Bool.and_eq_true] at hpasses
  exact of_decide_eq_true hpasses.2

/-! ## A request without it -/

/-- What the notes are asked for. -/
def allNotes : RecordQuery :=
  .records "Note" none none none none

/-- The notes that the tenant of a request selects, or all. -/
theorem findMany_notes (scope : Scope) (named : Option String) (rows : List Row) :
    ∃ w', Client.findMany (.bare Client.noteSchema) scope "Note" (scopeByTenant [] named) [] none none
      (Client.noteWorld rows) = .ok ((rows.filter (Db.matching .bare .ascii none "notes"
        (scopeByTenant [] named ++ [SqlBuilder.notDeleted]))).map
          (Db.rowToMap .bare (Client.noteColumns.map Prod.fst))) w' := by
  have hequals : ∀ clause ∈ scopeByTenant [] named, clause.operator = .equals := by
    cases named with
    | none => nofun
    | some tenant => simp [scopeByTenant]
  have hnames : ∀ clause ∈ scopeByTenant [] named ++ [SqlBuilder.notDeleted],
      toSnakeCase .ascii clause.field ∈ Client.noteColumns.map Prod.fst := by
    cases named with
    | none => simp [scopeByTenant, SqlBuilder.notDeleted, Client.noteColumns]
    | some tenant => simp [scopeByTenant, SqlBuilder.notDeleted, Client.noteColumns]
  obtain ⟨model, hmodel, htable⟩ :
      ∃ model, Client.noteSchema.model? "Note" = some model ∧ tableName .ascii model = "notes" :=
    ⟨_, rfl, by decide⟩
  rw [← htable]
  exact Client.findMany_bare hmodel hequals rfl hnames

theorem allNotes_answer {scope : Scope} {ctx : Ctx} {w w' : World} {found : List Client.Record}
    (hfind : Client.findMany (.bare Client.noteSchema) scope "Note" (scopeByTenant [] ctx.tenant) [] none none w =
      .ok found w') :
    answerOf (allNotes.run (.bare Client.noteSchema) scope ctx) w =
      .ok (.records (found.map (GraphQL.camelKeys .ascii))) := by
  have hrecords : GraphQL.ServiceQuery.records (.bare Client.noteSchema) scope ctx "Note" none none none none w =
      .ok (found.map (GraphQL.camelKeys .ascii)) w' :=
    (bind_of_ok (a := ()) rfl).trans (bind_of_ok (withError_of_ok hfind))
  have hrun : allNotes.run (.bare Client.noteSchema) scope ctx w =
      .ok (.records (found.map (GraphQL.camelKeys .ascii))) w' :=
    bind_of_ok hrecords
  unfold answerOf
  rw [hrun]

/-- A request that goes on without a tenant, or with another, goes on without or with this one. -/
theorem exists_other {tenant : String} {ctx : Ctx} (h : ctx.tenant ≠ some tenant) :
    ∃ other, other ≠ tenant ∧ (ctx.tenant = none ∨ ctx.tenant = some other) := by
  cases hctx : ctx.tenant with
  | none => exact ⟨tenant ++ "x", by simp, .inl rfl⟩
  | some other =>
    rw [hctx] at h
    exact ⟨other, fun heq => h (congrArg some heq), .inr rfl⟩

/-- It shows a note of another tenant. -/
theorem not_queriesConfined {tenant : String} {ctx : Ctx} {scope : Scope} (h : ctx.tenant ≠ some tenant) :
    ¬QueriesConfined tenant ctx scope := by
  intro hconfined
  obtain ⟨other, hother, hnamed⟩ := exists_other h
  have hforeign : belongs .bare tenant (Client.noteRow "n1" "Budget" other) = false :=
    decide_eq_false hother
  have htwin : Client.Twin (.bare Client.noteSchema) tenant (Client.noteWorld [])
      (Client.noteWorld [Client.noteRow "n1" "Budget" other]) := by
    refine ⟨rfl, fun name => ⟨rfl, ?_⟩⟩
    exact (List.filter_cons_of_neg (Bool.eq_false_iff.1 hforeign)).symm
  have hsame := (hconfined (.bare Client.noteSchema) rfl allNotes).alike _ _ htwin
  have hlive : Query.WhereClause.holds .bare .ascii (Client.noteRow "n1" "Budget" other) SqlBuilder.notDeleted = true := rfl
  have howned : Query.WhereClause.holds .bare .ascii (Client.noteRow "n1" "Budget" other)
      ⟨"tenant_id", .equals, .string other⟩ = true := by
    unfold Query.WhereClause.holds
    rw [toSnakeCase_tenant_id]
    exact decide_eq_true rfl
  have hmatches : Db.matching .bare .ascii none "notes" (scopeByTenant [] ctx.tenant ++ [SqlBuilder.notDeleted])
      (Client.noteRow "n1" "Budget" other) = true := by
    refine Bool.and_eq_true_iff.2 ⟨rfl, ?_⟩
    rcases hnamed with hnone | hsome
    · simp [hnone, scopeByTenant, hlive]
    · simp [hsome, scopeByTenant, howned, hlive]
  obtain ⟨_, hnone⟩ := findMany_notes scope ctx.tenant []
  obtain ⟨_, hone⟩ := findMany_notes scope ctx.tenant [Client.noteRow "n1" "Budget" other]
  rw [allNotes_answer hnone, allNotes_answer hone, List.filter_cons_of_pos hmatches] at hsame
  cases hsame

/-- It is told of a note of another tenant. -/
theorem not_streamsConfined {tenant : String} {ctx : Ctx} (h : ctx.tenant ≠ some tenant) : ¬StreamsConfined tenant ctx := by
  intro hconfined
  obtain ⟨other, hother, hnamed⟩ := exists_other h
  let event : StampedEvent := {
    eventType := .created
    modelName := "Note"
    data := [("tenant_id", .string other)]
    eventId := "e1"
    timestamp := "2026-01-01T00:00:00Z" }
  have hpasses : Subscription.passes ⟨"Note", ctx.tenant⟩ event = true := by
    unfold Subscription.passes
    rcases hnamed with hnone | hsome
    · rw [hnone]
      rfl
    · rw [hsome]
      exact decide_eq_true rfl
  have hnext : Subscription.next ⟨"Note", ctx.tenant⟩ .ascii (.send event) = some (Subscription.shown .ascii event) :=
    if_pos hpasses
  have hcarries := hconfined Client.noteSchema "Note" ⟨"Note", ctx.tenant⟩ rfl .ascii event (by rw [hnext]; rfl)
  exact hother (Option.some.inj hcarries)

/-! ## Both entry points -/

theorem queriesConfined_iff {tenant : String} {ctx : Ctx} (scope : Scope) :
    QueriesConfined tenant ctx scope ↔ ctx.tenant = some tenant :=
  ⟨fun h => Classical.byContradiction fun hne => not_queriesConfined hne h, queriesConfined_of_tenant scope⟩

theorem streamsConfined_iff {tenant : String} {ctx : Ctx} : StreamsConfined tenant ctx ↔ ctx.tenant = some tenant :=
  ⟨fun h => Classical.byContradiction fun hne => not_streamsConfined hne h, streamsConfined_of_tenant⟩

/-- A header that is honoured is the tenant of the user. -/
theorem handler_tenant_iff {user : AuthUser} {tenant : String} (huser : user.tenantId = some tenant)
    (tenantId : Option String) :
    (graphqlHandler (some user) tenantId).1.tenant = some tenant ↔ tenantId = some tenant := by
  unfold graphqlHandler tenantHeaderAllowed
  cases tenantId with
  | none => simp
  | some tid => simp [Option.filter, huser, eq_comm]

/-- What a user of a tenant is shown is confined to the tenant exactly where the header, or the payload, names it. -/
theorem tenant_confined_iff (verify : String → Option AuthUser) {user : AuthUser} {tenant : String}
    (huser : user.tenantId = some tenant) :
    (∀ authorization tenantId, authMiddleware verify authorization = some user →
      (QueriesConfined tenant (graphqlHandler (some user) tenantId).1 (graphqlHandler (some user) tenantId).2 ↔
        tenantId = some tenant)) ∧
    ∀ value token, payloadToken value = some token → verify token = some user →
      ∃ ctx, onConnectionInit verify value = .ok ctx ∧
        (QueriesConfined tenant ctx {} ↔ (value.get? "tenant").bind Json.asStr? = some tenant) ∧
        (StreamsConfined tenant ctx ↔ (value.get? "tenant").bind Json.asStr? = some tenant) := by
  constructor
  · intro _ tenantId _
    rw [queriesConfined_iff]
    exact handler_tenant_iff huser tenantId
  · intro value token htoken hverify
    unfold onConnectionInit
    rw [htoken]
    dsimp only
    rw [hverify]
    exact ⟨_, rfl, queriesConfined_iff {}, streamsConfined_iff⟩

/-- A user of the tenant `acme`. -/
def acmeUser : AuthUser where
  id := "u1"
  email := "ada@example.com"
  role := .viewer
  sessionId := "s1"
  tenantId := some "acme"

theorem acme_confined :
    QueriesConfined "acme" (graphqlHandler (some acmeUser) (some "acme")).1
      (graphqlHandler (some acmeUser) (some "acme")).2 :=
  ((tenant_confined_iff (fun _ => some acmeUser) rfl).1 (some "Bearer token") (some "acme") rfl).2 rfl

/-- Without the header the user is shown the notes of every tenant. -/
theorem headerless_unconfined : ¬∀ (verify : String → Option AuthUser) (user : AuthUser) (tenant : String)
    (authorization tenantId : Option String), user.tenantId = some tenant → authMiddleware verify authorization = some user →
    QueriesConfined tenant (graphqlHandler (some user) tenantId).1 (graphqlHandler (some user) tenantId).2 := by
  intro h
  have hconfined := h (fun _ => some acmeUser) acmeUser "acme" (some "Bearer token") none rfl rfl
  have hnone : (graphqlHandler (some acmeUser) none).1.tenant ≠ some "acme" := by
    show none ≠ some "acme"
    simp
  exact not_queriesConfined hnone hconfined

end Server

end Atomo

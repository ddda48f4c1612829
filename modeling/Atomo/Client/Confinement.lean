import Atomo.Client.Effects
import Atomo.Client.Reads
import Atomo.Db.RowSecurity

/-!
# Confinement by the database

With row-level security on, a call of the client for a tenant shows and counts the tenant's own rows only, and
leaves those of the others as they are, whatever its clauses are. Here the calls past the read cache.
-/

namespace Atomo.Client

open Schema (Model)
open Query (Statement WhereClause OrderDirection SqlBuilder.insert SqlBuilder.insertMany_eq SqlBuilder.countWith
  SqlBuilder.notDeleted SqlBuilder.isDeleted tableName)
open Db (Tables Table Postgres Row Security Role Confines Spares isOwn)

/-- Row-level security is on, and the role of the connection cannot bypass the policy, which every table of a
model has, and no other policy. -/
structure Installed (env : Env) : Prop where
  rls : env.rlsEnabled = true
  policies : ∃ (pg : Postgres) (before security : Security) (role : Role) (tables : List String),
    env.pg = pg.secured security role ∧ role.bypass = false ∧
    Db.ensureRlsPolicies tables env.rlsEnabled before = some security ∧
    (∀ table ∈ tables, ∀ policy ∈ (before table).policies, policy.name = Db.policyName) ∧
    ∀ name model, env.schema.model? name = some model → tableName env.casing model ∈ tables

variable {env : Env} {scope : Scope} {tenant : String}

theorem Installed.confines (h : Installed env) {name : String} {model : Model}
    (hmodel : env.schema.model? name = some model) : Confines env.pg (tableName env.casing model) := by
  obtain ⟨pg, before, security, role, tables, hpg, hrole, hensured, hlone, htables⟩ := h.policies
  rw [h.rls] at hensured
  rw [hpg]
  exact (Db.ensureRlsPolicies_secured hlone hensured _ (htables name model hmodel)).confines hrole

theorem Installed.bound (h : Installed env) (hscope : scope.tenant = some tenant) :
    boundTenant env scope = some tenant :=
  boundTenant_some env scope h.rls hscope

/-! ## Rows as records -/

/-- A record is a row of some tables that is the tenant's own, with all of its columns. -/
def Stored (pg : Postgres) (tenant : String) (seen : List Tables) (record : Record) : Prop :=
  ∃ tables ∈ seen, ∃ name, ∃ row ∈ (tables name).rows, isOwn tenant row = true ∧
    record = Db.rowToMap pg (tables name).columnNames row

/-- A number is that of some of the tenant's own rows in a table. -/
def Counted (tenant : String) (seen : List Tables) (n : Int64) : Prop :=
  ∃ tables ∈ seen, ∃ name, ∃ selected : Row → Bool, (∀ row, selected row = true → isOwn tenant row = true) ∧
    n = .ofNat ((tables name).rows.filter selected).length

theorem Stored.mono {pg : Postgres} {seen seen' : List Tables} {record : Record} (h : Stored pg tenant seen record)
    (hseen : seen ⊆ seen') : Stored pg tenant seen' record := by
  obtain ⟨tables, htables, hrest⟩ := h
  exact ⟨tables, hseen htables, hrest⟩

theorem Counted.mono {seen seen' : List Tables} {n : Int64} (h : Counted tenant seen n) (hseen : seen ⊆ seen') :
    Counted tenant seen' n := by
  obtain ⟨tables, htables, hrest⟩ := h
  exact ⟨tables, hseen htables, hrest⟩

/-! ## The reads -/

theorem Selected.own {pg : Postgres} {cc : CharCase} {name : String} {clauses : List WhereClause}
    {order : List (String × OrderDirection)} {limit offset : Option Nat} {tables : Tables} {rows : List Row}
    (hconfines : Confines pg name) (h : Selected pg cc (some tenant) name clauses order limit offset tables rows) :
    ∀ row ∈ rows, row ∈ (tables name).rows ∧ isOwn tenant row = true := by
  intro row hrow
  rw [h] at hrow
  have hmem := (pg.sort_perm order _).mem_iff.1 (Db.page_subset hrow)
  obtain ⟨hin, hmatching⟩ := List.mem_filter.1 hmem
  exact ⟨hin, hconfines.shown (Bool.and_eq_true_iff.1 hmatching).1⟩

theorem Returns.stored (henv : Installed env) (hscope : scope.tenant = some tenant) {modelName : String}
    {clauses : List WhereClause} {orderBy : List (String × OrderDirection)} {limit offset : Option Nat} {tables : Tables}
    {records : List Record} (h : Returns env scope modelName clauses orderBy limit offset tables records) :
    ∀ record ∈ records, Stored env.pg tenant [tables] record := by
  obtain ⟨model, rows, hmodel, hselected, rfl⟩ := h
  rw [henv.bound hscope] at hselected
  intro record hrecord
  obtain ⟨row, hrow, rfl⟩ := List.mem_map.1 hrecord
  obtain ⟨hin, hown⟩ := hselected.own (henv.confines hmodel) row hrow
  exact ⟨tables, List.mem_singleton_self _, _, row, hin, hown, rfl⟩

theorem asI64?_ofInt (n : Int64) : (Number.ofInt n.toInt).asI64? = some n := by
  have hlt := n.toInt_lt
  have hle := n.le_toInt
  unfold Number.ofInt
  split
  · rename_i hpos
    have hnat : (UInt64.ofNat n.toInt.toNat).toNat = n.toInt.toNat := UInt64.toNat_ofNat_of_lt' (by
      have : UInt64.size = 2 ^ 64 := rfl
      omega)
    show (if (UInt64.ofNat n.toInt.toNat).toNat < 2 ^ 63 then some (Int64.ofNat (UInt64.ofNat n.toInt.toNat).toNat) else none) =
      some n
    rw [hnat, if_pos (by omega)]
    congr 1
    apply Int64.toInt.inj
    rw [Int64.toInt_ofNat_of_lt (by omega)]
    omega
  · exact congrArg some (Int64.ofInt_toInt n)

theorem countOf_count (pg : Postgres) (n : Int64) : countOf [Db.rowToMap pg ["count"] [("count", .bigint n)]] = n := by
  show (Number.ofInt n.toInt).asI64?.getD 0 = n
  rw [asI64?_ofInt]
  rfl

theorem executed_countWith_countOf {pg : Postgres} {cc : CharCase} {bound : Option String} {model : Model}
    {deletion : WhereClause} {clauses : List WhereClause} {tables tables' : Tables} {records : List Record}
    (h : Executed pg bound tables [SqlBuilder.countWith cc model deletion clauses] tables' records) :
    countOf records = .ofNat ((tables (tableName cc model)).rows.filter
      (Db.matching pg cc bound (tableName cc model) (clauses ++ [deletion]))).length := by
  obtain ⟨tick, now, rows, hrun, rfl⟩ := h.single
  have hselects : Db.selects pg bound (tableName cc model) (Query.buildWhere cc (clauses ++ [deletion]) 0).1
      (Query.buildWhere cc (clauses ++ [deletion]) 0).2 = Db.matching pg cc bound (tableName cc model) (clauses ++ [deletion]) :=
    Db.selects_buildWhere pg cc bound (tableName cc model) (clauses ++ [deletion]) []
  simp only [SqlBuilder.countWith, Db.run, if_true] at hrun
  split at hrun
  · cases hrun
    rw [hselects, (pg.sort_perm _ _).length_eq]
    exact countOf_count pg _
  · cases hrun

/-- The count of a request is that of rows of its own. -/
theorem countRead_ends (henv : Installed env) {deletion : WhereClause} {modelName : String} {clauses : List WhereClause}
    (w : World) :
    Ends (do
      check (Query.validateWhereClauses clauses)
      let model ← findModel env modelName
      let records ← fetchScoped env scope (SqlBuilder.countWith env.casing model deletion clauses)
      return countOf records) w
      (fun n w' => w'.store = w.store ∧ ∀ tenant, scope.tenant = some tenant → Counted tenant [w.store.tables] n)
      (Kept w) := by
  refine read_ends fun model tables records w' hmodel hexecuted hstore => Ends.pure ⟨?_, ?_⟩
  · rw [executed_countWith hexecuted] at hstore
    exact hstore
  · intro tenant hscope
    rw [executed_countWith_countOf hexecuted, henv.bound hscope]
    exact ⟨w.store.tables, List.mem_singleton_self _, _, _,
      fun row hrow => (henv.confines hmodel).shown (Bool.and_eq_true_iff.1 hrow).1, rfl⟩

/-! ## The writes -/

variable {pg : Postgres} {tables tables' : Tables} {built : List (Statement × List Json)} {records : List Record}

theorem Executed.spares (h : Executed pg (some tenant) tables built tables' records)
    (hconfines : ∀ b ∈ built, Confines pg b.1.table) : Spares tenant tables tables' := by
  induction built generalizing tables records with
  | nil =>
    cases h
    exact .refl tenant _
  | cons first rest ih =>
    cases h with
    | cons hrun hrest =>
      have hfirst := Db.run_spares (hconfines first List.mem_cons_self) hrun
      exact hfirst.trans (ih hrest fun b hb => hconfines b (List.mem_cons_of_mem first hb))

/-- A statement that inserts. -/
def IsInsert (statement : Statement) : Prop :=
  ∃ name columns rows, statement = .insert name columns rows

/-- Stored rows stay when others are inserted. -/
theorem Stored.insert {tick : Nat} {now : Int} {bound : Option String} {params : List Json} {statement : Statement}
    {rows : List Row} {record : Record} (hinsert : IsInsert statement)
    (hrun : Db.run pg tick now bound params tables statement = some (tables', rows))
    (h : Stored pg tenant [tables] record) : Stored pg tenant [tables'] record := by
  obtain ⟨name, columns, values, rfl⟩ := hinsert
  obtain ⟨-, rfl, -, -⟩ := Db.run_insert pg hrun
  obtain ⟨_, htables, other, row, hrow, hown, rfl⟩ := h
  cases List.mem_singleton.1 htables
  refine ⟨_, List.mem_singleton_self _, other, row, ?_, hown, ?_⟩
  · by_cases hname : other = name
    · subst hname
      rw [Function.update_self]
      exact List.mem_append_left _ hrow
    · rw [Function.update_of_ne hname]
      exact hrow
  · by_cases hname : other = name
    · subst hname
      rw [Function.update_self]
      rfl
    · rw [Function.update_of_ne hname]

theorem run_insert_stored {tick : Nat} {now : Int} {params : List Json} {statement : Statement} {rows : List Row}
    (hinsert : IsInsert statement) (hconfines : Confines pg statement.table)
    (hrun : Db.run pg tick now (some tenant) params tables statement = some (tables', rows)) :
    ∀ record ∈ rows.map (Db.rowToMap pg (statement.returned tables)), Stored pg tenant [tables'] record := by
  obtain ⟨name, columns, values, rfl⟩ := hinsert
  intro record hrecord
  obtain ⟨row, hrow, rfl⟩ := List.mem_map.1 hrecord
  have hown := hconfines.written (Db.run_insert_permitted pg hrun row hrow)
  obtain ⟨-, rfl, -, -⟩ := Db.run_insert pg hrun
  refine ⟨_, List.mem_singleton_self _, name, row, ?_, hown, ?_⟩
  · rw [Function.update_self]
    exact List.mem_append_right _ hrow
  · rw [Function.update_self]
    rfl

/-- What insertions return are rows of the tenant. -/
theorem Executed.inserts_stored (h : Executed pg (some tenant) tables built tables' records)
    (hinserts : ∀ b ∈ built, IsInsert b.1) (hconfines : ∀ b ∈ built, Confines pg b.1.table) :
    (∀ record, Stored pg tenant [tables] record → Stored pg tenant [tables'] record) ∧
      ∀ record ∈ records, Stored pg tenant [tables'] record := by
  induction built generalizing tables records with
  | nil =>
    cases h
    exact ⟨fun _ h => h, fun _ h => absurd h List.not_mem_nil⟩
  | cons first rest ih =>
    cases h with
    | cons hrun hrest =>
      have hinsert := hinserts first List.mem_cons_self
      obtain ⟨hkept, hstored⟩ := ih hrest (fun b hb => hinserts b (List.mem_cons_of_mem first hb))
        fun b hb => hconfines b (List.mem_cons_of_mem first hb)
      refine ⟨fun record hrecord => hkept record (hrecord.insert hinsert hrun), fun record hrecord => ?_⟩
      rcases List.mem_append.1 hrecord with hfirst | hlater
      · exact hkept record (run_insert_stored hinsert (hconfines first List.mem_cons_self) hrun record hfirst)
      · exact hstored record hlater

/-- What an update returns are rows of the tenant. -/
theorem run_update_stored {tick : Nat} {now : Int} {params : List Json} {name : String}
    {sets : List (String × Query.Written)} {conditions : List Query.Condition} {rows : List Row}
    (hconfines : Confines pg name)
    (hrun : Db.run pg tick now (some tenant) params tables (.update name sets conditions .all) = some (tables', rows)) :
    ∀ record ∈ rows.map (Db.rowToMap pg (tables name).columnNames), Stored pg tenant [tables'] record := by
  intro record hrecord
  obtain ⟨row, hrow, rfl⟩ := List.mem_map.1 hrecord
  have hown := hconfines.written (Db.run_update_permitted pg hrun row hrow)
  obtain ⟨values, -, rfl, rfl, -⟩ := Db.run_update pg hrun
  obtain ⟨old, hold, rfl⟩ := List.mem_map.1 hrow
  obtain ⟨hin, hselected⟩ := List.mem_filter.1 hold
  refine ⟨_, List.mem_singleton_self _, name, old.update values, ?_, hown, ?_⟩
  · rw [Function.update_self]
    exact List.mem_map.2 ⟨old, hin, if_pos hselected⟩
  · rw [Function.update_self]
    rfl

/-- The statements of a write are about the table of its model. -/
theorem Write.Builds.table {modelName : String} {model : Model} {write : Write}
    (h : write.Builds env modelName model built) : ∀ b ∈ built, b.1.table = tableName env.casing model := by
  cases write with
  | create data =>
    obtain ⟨data', -, rfl⟩ := h
    exact List.forall_mem_singleton.2 rfl
  | createMany data =>
    obtain ⟨prepared, -, rfl⟩ := h
    unfold Write.batch
    split
    · rename_i statement hbuilt
      obtain ⟨_, _, _, rfl⟩ := SqlBuilder.insertMany_eq env.casing model hbuilt
      exact List.forall_mem_singleton.2 rfl
    · intro b hb
      obtain ⟨data, -, rfl⟩ := List.mem_map.1 hb
      rfl
  | updateMany clauses data =>
    obtain ⟨data', -, rfl⟩ := h
    exact List.forall_mem_singleton.2 rfl
  | deleteMany clauses | restoreMany clauses | hardDeleteMany clauses =>
    cases h
    exact List.forall_mem_singleton.2 rfl

theorem batch_inserts (model : Model) (records : List Record) : ∀ b ∈ Write.batch env model records, IsInsert b.1 := by
  unfold Write.batch
  split
  · rename_i statement hbuilt
    obtain ⟨_, _, _, rfl⟩ := SqlBuilder.insertMany_eq env.casing model hbuilt
    exact List.forall_mem_singleton.2 ⟨_, _, _, rfl⟩
  · intro b hb
    obtain ⟨data, -, rfl⟩ := List.mem_map.1 hb
    exact ⟨_, _, _, rfl⟩

/-- A write that returns what its rows are then. -/
def Write.Returning : Write → Prop
  | .create _ | .createMany _ | .updateMany _ _ => True
  | .deleteMany _ | .restoreMany _ | .hardDeleteMany _ => False

theorem Write.Builds.stored {modelName : String} {model : Model} {write : Write} (hreturning : write.Returning)
    (hbuilds : write.Builds env modelName model built) (hconfines : Confines env.pg (tableName env.casing model))
    (h : Executed env.pg (some tenant) tables built tables' records) :
    ∀ record ∈ records, Stored env.pg tenant [tables'] record := by
  have htable : ∀ b ∈ built, Confines env.pg b.1.table := fun b hb => by
    rw [hbuilds.table b hb]
    exact hconfines
  cases write with
  | create data =>
    obtain ⟨data', -, rfl⟩ := hbuilds
    exact (h.inserts_stored (List.forall_mem_singleton.2 ⟨_, _, _, rfl⟩) htable).2
  | createMany data =>
    obtain ⟨prepared, -, rfl⟩ := hbuilds
    exact (h.inserts_stored (batch_inserts model prepared) htable).2
  | updateMany clauses data =>
    obtain ⟨data', -, rfl⟩ := hbuilds
    obtain ⟨tick, now, rows, hrun, rfl⟩ := h.single
    exact run_update_stored hconfines hrun
  | deleteMany clauses | restoreMany clauses | hardDeleteMany clauses => cases hreturning

end Atomo.Client

import Atomo.Client.Effects
import Atomo.Lib.Filter

/-!
# Tenants

The rows of a tenant are those that the clause of `scope_by_tenant` holds of. A write whose clauses end in
it loses none of the other rows and changes none of them; it adds to them when the row that it makes, or
one that it updates, is given another tenant.
-/

namespace Atomo

open Query Db

namespace Db

variable (pg : Postgres) (tenant : String)

/-- A value of the tenant column that names a tenant. -/
def isTenant (value : SqlValue) : Bool :=
  Comparison.holds pg true .eq value (.text tenant)

/-- A row of a tenant. -/
def belongs (row : Row) : Bool :=
  isTenant pg tenant (row.get "tenant_id")

/-- The rows of a table that are not of a tenant. -/
def foreign (table : Table) : List Row :=
  table.rows.filter fun row => !belongs pg tenant row

/-- Of the rows that are not of a tenant none is lost or changed. -/
def Spreads (tables tables' : Tables) : Prop :=
  ∀ name, (foreign pg tenant (tables name)).Sublist (foreign pg tenant (tables' name))

/-- The rows that are not of a tenant are the same. -/
def Confined (tables tables' : Tables) : Prop :=
  ∀ name, foreign pg tenant (tables' name) = foreign pg tenant (tables name)

variable {pg tenant} {tables tables' tables'' : Tables}

theorem isTenant_text (pg : Postgres) (tenant : String) : isTenant pg tenant (.text tenant) = true := by
  simp [isTenant, Comparison.holds, castText]

theorem Spreads.trans (h : Spreads pg tenant tables tables') (h' : Spreads pg tenant tables' tables'') :
    Spreads pg tenant tables tables'' :=
  fun name => (h name).trans (h' name)

/-- What a sequence of changes adds to the other rows, one of them adds. -/
theorem Spreads.confined_trans (h : Spreads pg tenant tables tables') (h' : Spreads pg tenant tables' tables'') :
    Confined pg tenant tables tables'' ↔ Confined pg tenant tables tables' ∧ Confined pg tenant tables' tables'' := by
  constructor
  · intro hconfined
    have hfirst : Confined pg tenant tables tables' := by
      intro name
      apply List.Sublist.antisymm _ (h name)
      rw [← hconfined name]
      exact h' name
    exact ⟨hfirst, fun name => (hconfined name).trans (hfirst name).symm⟩
  · rintro ⟨hfirst, hsecond⟩
    exact fun name => (hsecond name).trans (hfirst name)

/-! ## Changes of one table -/

section Reshape

variable {name : String} {touch : Row → Option Row} {new : List Row}

theorem foreign_reshaped (htables : tables' = Function.update tables name
      { tables name with rows := (tables name).rows.filterMap touch ++ new }) :
    foreign pg tenant (tables' name) = ((tables name).rows.filterMap touch).filter (fun row => !belongs pg tenant row) ++
      new.filter fun row => !belongs pg tenant row := by
  unfold foreign
  rw [htables, Function.update_self, List.filter_append]

/-- A change of a table that keeps the rows of other tenants. -/
theorem spreads_of_reshaped (htables : tables' = Function.update tables name
      { tables name with rows := (tables name).rows.filterMap touch ++ new })
    (htouch : ∀ row ∈ (tables name).rows, belongs pg tenant row = false → touch row = some row) :
    Spreads pg tenant tables tables' := by
  intro other
  by_cases hname : other = name
  · rw [hname, foreign_reshaped htables]
    have hkept : (foreign pg tenant (tables name)).Sublist
        (((tables name).rows.filterMap touch).filter fun row => !belongs pg tenant row) :=
      List.filter_sublist_filterMap fun row hrow hforeign => htouch row hrow (by simpa using hforeign)
    exact hkept.trans (List.sublist_append_left _ _)
  · rw [htables, Function.update_of_ne hname]

theorem confined_of_reshaped (htables : tables' = Function.update tables name
      { tables name with rows := (tables name).rows.filterMap touch ++ new })
    (htouch : ∀ row ∈ (tables name).rows, belongs pg tenant row = false → touch row = some row) :
    Confined pg tenant tables tables' ↔
      (∀ row ∈ (tables name).rows, belongs pg tenant row = true → ∀ row', touch row = some row' →
        belongs pg tenant row' = true) ∧
      ∀ row ∈ new, belongs pg tenant row = true := by
  have hforeign : ∀ row ∈ (tables name).rows, (!belongs pg tenant row) = true → touch row = some row :=
    fun row hrow hforeign => htouch row hrow (by simpa using hforeign)
  have hkept := List.filter_sublist_filterMap hforeign
  have hiff := List.filter_filterMap_eq_iff hforeign
  simp only [Bool.not_eq_false'] at hiff
  rw [← hiff]
  constructor
  · intro hconfined
    have hname := hconfined name
    rw [foreign_reshaped htables] at hname
    have hlength := congrArg List.length hname
    have hle := hkept.length_le
    rw [List.length_append] at hlength
    have hnone : new.filter (fun row => !belongs pg tenant row) = [] := by
      apply List.eq_nil_of_length_eq_zero
      unfold foreign at hlength
      omega
    rw [hnone, List.append_nil] at hname
    refine ⟨hname, fun row hrow => ?_⟩
    simpa using List.filter_eq_nil_iff.1 hnone row hrow
  · rintro ⟨hsame, hnew⟩ other
    by_cases hname : other = name
    · have hnone : new.filter (fun row => !belongs pg tenant row) = [] := by
        rw [List.filter_eq_nil_iff]
        intro row hrow
        simp [hnew row hrow]
      rw [hname, foreign_reshaped htables, hsame, hnone, List.append_nil]
      rfl
    · rw [htables, Function.update_of_ne hname]

end Reshape

/-- The clause of `scope_by_tenant` holds of the rows of the tenant only. -/
theorem belongs_of_holds {cc : CharCase} {clauses : List WhereClause} {row : Row}
    (h : (scopeByTenant clauses (some tenant)).all (WhereClause.holds pg cc row) = true) : belongs pg tenant row = true := by
  unfold scopeByTenant at h
  rw [List.all_append, Bool.and_eq_true] at h
  have hclause := List.all_eq_true.1 h.2 _ List.mem_cons_self
  unfold WhereClause.holds at hclause
  rwa [toSnakeCase_tenant_id] at hclause

theorem belongs_of_matching {cc : CharCase} {bound : Option String} {name : String} {clauses : List WhereClause}
    {row : Row} (h : matching pg cc bound name (scopeByTenant clauses (some tenant)) row = true) :
    belongs pg tenant row = true :=
  belongs_of_holds (Bool.and_eq_true_iff.1 h).2

end Db

namespace Client

variable (env : Env) (scope : Scope) (tenant : String)

/-- The tenant that some data gives to a row, or else the one that the row has. -/
def tenantOf (model : Schema.Model) (table : Table) (default : SqlValue) (data : Record) : SqlValue :=
  ((data.find? fun entry => toSnakeCase env.casing entry.1 = "tenant_id").bind
    (entryValue env.pg env.casing model table)).getD default

/-- The default of the tenant column of a new row. -/
def defaultTenant (tick : Nat) (name : String) (table : Table) : SqlValue :=
  if "tenant_id" ∈ table.columnNames then env.pg.fill tick name 0 "tenant_id" else .null

/-- The row that a write makes, and those that it updates, are given the tenant. -/
def Write.Keeps (model : Schema.Model) (tick : Nat) (tables : Tables) : Write → Prop
  | create data => isTenant env.pg tenant (tenantOf env model (tables (tableName env.casing model))
      (defaultTenant env tick (tableName env.casing model) (tables (tableName env.casing model))) data) = true
  | updateMany clauses data =>
    (tables (tableName env.casing model)).rows.filter (matching env.pg env.casing (boundTenant env scope)
      (tableName env.casing model) clauses) = [] ∨
    isTenant env.pg tenant (tenantOf env model (tables (tableName env.casing model)) (.text tenant) data) = true
  | _ => True

/-- A write of one row, or of the rows that clauses select for a tenant. -/
def Write.Scoped : Write → Prop
  | create _ => True
  | createMany _ => False
  | updateMany clauses _ | deleteMany clauses | restoreMany clauses | hardDeleteMany clauses =>
    ∃ own, clauses = scopeByTenant own (some tenant)

variable {env scope tenant} {model : Schema.Model} {tick : Nat} {tables tables' : Tables} {rows : List Row}

theorem tenantOf_eq {table : Table} {data : Record} {values : List (String × SqlValue)}
    (h : dataValues env.pg env.casing model table data = some values) (default : SqlValue) :
    tenantOf env model table default data = (Schema.lookup? "tenant_id" values).getD default := by
  rw [lookup_dataValues env.pg env.casing h]
  rfl

/-- An updated row of a tenant stays one of the tenant by what is set. -/
theorem belongs_update {row : Row} {sets : List (String × SqlValue)} (h : belongs env.pg tenant row = true) :
    belongs env.pg tenant (row.update sets) =
      isTenant env.pg tenant ((Schema.lookup? "tenant_id" sets).getD (.text tenant)) := by
  have hset : row.get "tenant_id" ≠ .null := by
    intro hnull
    unfold belongs at h
    rw [hnull] at h
    cases h
  unfold belongs at *
  rw [Row.get_update row sets (Row.isSome_of_get hset)]
  cases Schema.lookup? "tenant_id" sets with
  | none => exact h.trans (isTenant_text env.pg tenant).symm
  | some value => rfl

theorem tenantOf_newRow {name : String} {table : Table} {data : Record} {values : List (String × SqlValue)}
    (h : dataValues env.pg env.casing model table data = some values) :
    (newRow env.pg tick name 0 table values).get "tenant_id" =
      tenantOf env model table (defaultTenant env tick name table) data := by
  rw [get_newRow, tenantOf_eq h]
  unfold defaultTenant
  by_cases hcolumn : "tenant_id" ∈ table.columnNames
  · rw [if_pos hcolumn, if_pos hcolumn]
  · rw [if_neg hcolumn, if_neg hcolumn]
    have hnone : Schema.lookup? "tenant_id" table.columns = none := by
      unfold Schema.lookup?
      rw [Option.map_eq_none_iff, List.find?_eq_none]
      intro entry hentry
      have hne : entry.1 ≠ "tenant_id" := fun heq => hcolumn (List.mem_map.2 ⟨entry, hentry, heq⟩)
      simpa using hne
    rw [lookup_dataValues env.pg env.casing h]
    cases hfind : data.find? fun entry => toSnakeCase env.casing entry.1 = "tenant_id" with
    | none => rfl
    | some entry =>
      have hentry : toSnakeCase env.casing entry.1 = "tenant_id" := by simpa using List.find?_some hfind
      simp [entryValue, hentry, hnone]

/-- An update of the rows that clauses select for a tenant. -/
theorem Sets.confined {name : String} {bound : Option String} {clauses : List WhereClause}
    {sets : List (String × SqlValue)}
    (h : Sets env.pg env.casing bound name (scopeByTenant clauses (some tenant)) sets tables tables' rows) :
    Spreads env.pg tenant tables tables' ∧ (Confined env.pg tenant tables tables' ↔
      (tables name).rows.filter
        (matching env.pg env.casing bound name (scopeByTenant clauses (some tenant))) = [] ∨
      isTenant env.pg tenant ((Schema.lookup? "tenant_id" sets).getD (.text tenant)) = true) := by
  obtain ⟨-, htables, -⟩ := h
  rw [← List.filterMap_eq_map, ← List.append_nil (List.filterMap _ _)] at htables
  have htouch : ∀ row ∈ (tables name).rows, belongs env.pg tenant row = false →
      (some ∘ fun row => if matching env.pg env.casing bound name (scopeByTenant clauses (some tenant)) row
        then row.update sets else row) row = some row := by
    intro row _ hforeign
    refine congrArg some (if_neg fun hmatching => ?_)
    rw [belongs_of_matching hmatching] at hforeign
    cases hforeign
  refine ⟨spreads_of_reshaped htables htouch, ?_⟩
  rw [confined_of_reshaped htables htouch, List.filter_eq_nil_iff]
  constructor
  · rintro ⟨hkept, -⟩
    by_contra hnot
    push Not at hnot
    obtain ⟨⟨row, hrow, hmatching⟩, htenant⟩ := hnot
    have hbelongs := belongs_of_matching hmatching
    apply htenant
    rw [← belongs_update hbelongs]
    exact hkept row hrow hbelongs _ (congrArg some (if_pos hmatching))
  · intro h
    refine ⟨fun row hrow hbelongs row' hrow' => ?_, fun row hrow => absurd hrow List.not_mem_nil⟩
    cases hrow'
    by_cases hmatching : matching env.pg env.casing bound name (scopeByTenant clauses (some tenant)) row = true
    · beta_reduce
      rw [if_pos hmatching, belongs_update hbelongs]
      exact h.resolve_left fun hnone => hnone row hrow hmatching
    · beta_reduce
      rw [if_neg hmatching]
      exact hbelongs

/-- What a write of one row, or of the rows of a tenant, does to those of the others. -/
theorem Write.Does.confined {write : Write} (hscoped : write.Scoped tenant)
    (h : write.Does env scope model tick tables rows tables') :
    Spreads env.pg tenant tables tables' ∧
      (Confined env.pg tenant tables tables' ↔ write.Keeps env scope tenant model tick tables) := by
  cases write with
  | create data =>
    obtain ⟨values, hvalues, rfl, -, htables, -⟩ := h
    rw [← List.filterMap_some (l := (tables (tableName env.casing model)).rows)] at htables
    have htouch : ∀ row ∈ (tables (tableName env.casing model)).rows, belongs env.pg tenant row = false →
        some row = some row := fun _ _ _ => rfl
    refine ⟨spreads_of_reshaped htables htouch, ?_⟩
    rw [confined_of_reshaped htables htouch, List.forall_mem_singleton]
    unfold belongs Write.Keeps
    rw [tenantOf_newRow hvalues]
    refine ⟨fun h => h.2, fun h => ⟨fun row _ hbelongs row' hrow' => ?_, h⟩⟩
    cases hrow'
    exact hbelongs
  | createMany data => cases hscoped
  | updateMany clauses data =>
    obtain ⟨own, rfl⟩ := hscoped
    obtain ⟨sets, hsets, hset⟩ := h
    have hconfined := Sets.confined hset
    rwa [← tenantOf_eq hsets] at hconfined
  | deleteMany clauses =>
    obtain ⟨own, rfl⟩ := hscoped
    obtain ⟨now, hset⟩ := h
    obtain ⟨hspreads, hiff⟩ := Sets.confined hset
    exact ⟨hspreads, hiff.trans ⟨fun _ => trivial, fun _ => .inr (isTenant_text env.pg tenant)⟩⟩
  | restoreMany clauses =>
    obtain ⟨own, rfl⟩ := hscoped
    obtain ⟨hspreads, hiff⟩ := Sets.confined h
    exact ⟨hspreads, hiff.trans ⟨fun _ => trivial, fun _ => .inr (isTenant_text env.pg tenant)⟩⟩
  | hardDeleteMany clauses =>
    obtain ⟨own, rfl⟩ := hscoped
    obtain ⟨-, htables⟩ := h
    rw [← List.filterMap_eq_filter, ← List.append_nil (List.filterMap _ _)] at htables
    have htouch : ∀ row ∈ (tables (tableName env.casing model)).rows, belongs env.pg tenant row = false →
        Option.guard (fun row => !matching env.pg env.casing (boundTenant env scope) (tableName env.casing model)
          (scopeByTenant own (some tenant)) row) row = some row := by
      intro row _ hforeign
      rw [Option.guard_eq_some_iff]
      refine ⟨rfl, ?_⟩
      rw [Bool.not_eq_true', Bool.eq_false_iff]
      intro hmatching
      rw [belongs_of_matching hmatching] at hforeign
      cases hforeign
    refine ⟨spreads_of_reshaped htables htouch, ?_⟩
    rw [confined_of_reshaped htables htouch]
    refine ⟨fun _ => trivial, fun _ => ⟨fun row _ hbelongs row' hrow' => ?_, fun row hrow =>
      absurd hrow List.not_mem_nil⟩⟩
    rw [(Option.guard_eq_some_iff.1 hrow').1] at hbelongs
    exact hbelongs

/-! ## Sequences of writes -/

/-- A write that is performed on tables, with the data that its hook hands on. -/
structure Step where
  model : Schema.Model
  tick : Nat
  tables : Tables
  write : Write

/-- Writes are performed one after the other. -/
inductive Performed (env : Env) (scope : Scope) (modelName : String) :
    Tables → List Write → List Step → Tables → Prop
  | nil (tables : Tables) : Performed env scope modelName tables [] [] tables
  | cons {model write handed tick tables rows tables' writes steps tables''}
      (hmodel : env.schema.model? modelName = some model) (hhanded : write.HandedOn env modelName handed)
      (hdoes : handed.Does env scope model tick tables rows tables')
      (hrest : Performed env scope modelName tables' writes steps tables'') :
      Performed env scope modelName tables (write :: writes) (⟨model, tick, tables, handed⟩ :: steps) tables''

def Step.Keeps (env : Env) (scope : Scope) (tenant : String) (step : Step) : Prop :=
  step.write.Keeps env scope tenant step.model step.tick step.tables

theorem Write.HandedOn.scoped {modelName : String} {write handed : Write} (h : write.HandedOn env modelName handed)
    (hscoped : write.Scoped tenant) : handed.Scoped tenant := by
  cases write with
  | create data =>
    obtain ⟨data', -, rfl⟩ := h
    exact hscoped
  | createMany data => cases hscoped
  | updateMany clauses data =>
    obtain ⟨data', -, rfl⟩ := h
    exact hscoped
  | deleteMany | restoreMany | hardDeleteMany =>
    cases h
    exact hscoped

/-- The rows of other tenants are kept by a sequence of writes, and no other row joins them exactly when every
write keeps to the tenant. -/
theorem Performed.confined {modelName : String} {writes : List Write} {steps : List Step}
    (hscoped : ∀ write ∈ writes, write.Scoped tenant) (h : Performed env scope modelName tables writes steps tables') :
    Spreads env.pg tenant tables tables' ∧
      (Confined env.pg tenant tables tables' ↔ ∀ step ∈ steps, step.Keeps env scope tenant) := by
  induction h with
  | nil tables =>
    refine ⟨fun name => List.Sublist.refl _, fun _ step hstep => absurd hstep List.not_mem_nil, fun _ name => rfl⟩
  | cons hmodel hhanded hdoes hrest ih =>
    obtain ⟨hspreads, hiff⟩ := hdoes.confined (hhanded.scoped (hscoped _ List.mem_cons_self))
    obtain ⟨hspreads', hiff'⟩ := ih fun write hwrite => hscoped write (List.mem_cons_of_mem _ hwrite)
    refine ⟨hspreads.trans hspreads', ?_⟩
    rw [hspreads.confined_trans hspreads', hiff, hiff', List.forall_mem_cons]
    rfl

theorem Write.Done.performed {modelName : String} {actor : Option String} {write : Write} {w w' : World} {reply : Reply}
    (h : Write.Done env scope modelName actor write w reply w') :
    ∃ step, Performed env scope modelName w.store.tables [write] [step] w'.store.tables := by
  obtain ⟨model, handed, tick, rows, events, now, hmodel, hhanded, hdoes, -⟩ := h.effects
  exact ⟨_, .cons hmodel hhanded hdoes (.nil _)⟩

theorem Performed.append {modelName : String} {tables'' : Tables} {writes writes' : List Write}
    {steps steps' : List Step} (h : Performed env scope modelName tables writes steps tables')
    (h' : Performed env scope modelName tables' writes' steps' tables'') :
    Performed env scope modelName tables (writes ++ writes') (steps ++ steps') tables'' := by
  induction h with
  | nil => exact h'
  | cons hmodel hhanded hdoes _ ih => exact .cons hmodel hhanded hdoes (ih h')

/-! ## The tables of a write -/

/-- A write changes the rows of one table only, and leaves its keys to hold. -/
theorem Write.Does.reshapes {model : Schema.Model} {tick : Nat} {write : Write} {rows : List Row}
    (h : write.Does env scope model tick tables rows tables') :
    ∃ rows', tables' = Function.update tables (tableName env.casing model)
        { tables (tableName env.casing model) with rows := rows' } ∧
      ((tables (tableName env.casing model)).keysHold = true → (tables' (tableName env.casing model)).keysHold = true) := by
  cases write with
  | create data =>
    obtain ⟨values, -, -, -, htables, hkeys⟩ := h
    exact ⟨_, htables, hkeys⟩
  | createMany records =>
    obtain ⟨-, htables, hkeys⟩ := h
    exact ⟨_, htables, hkeys⟩
  | updateMany clauses data =>
    obtain ⟨sets, -, -, htables, hkeys⟩ := h
    exact ⟨_, htables, fun _ => hkeys⟩
  | deleteMany clauses =>
    obtain ⟨now, -, htables, hkeys⟩ := h
    exact ⟨_, htables, fun _ => hkeys⟩
  | restoreMany clauses =>
    obtain ⟨-, htables, hkeys⟩ := h
    exact ⟨_, htables, fun _ => hkeys⟩
  | hardDeleteMany clauses =>
    obtain ⟨-, htables⟩ := h
    refine ⟨_, htables, fun hkeys => ?_⟩
    rw [htables, Function.update_self]
    refine Db.Table.keysHold_sublist ?_ ?_ hkeys
    · rfl
    · exact List.filter_sublist

/-- Writes on a model leave the tables of others as they are. -/
theorem Performed.elsewhere {modelName name : String} {writes : List Write} {steps : List Step}
    (h : Performed env scope modelName tables writes steps tables')
    (hname : ∀ model, env.schema.model? modelName = some model → tableName env.casing model ≠ name) :
    tables' name = tables name := by
  induction h with
  | nil => rfl
  | cons hmodel _ hdoes _ ih =>
    obtain ⟨rows', htables, -⟩ := hdoes.reshapes
    rw [ih, htables, Function.update_of_ne (hname _ hmodel).symm]

theorem Performed.keysHold {modelName : String} {writes : List Write} {steps : List Step}
    (h : Performed env scope modelName tables writes steps tables') (name : String) :
    (tables' name).primaryKey = (tables name).primaryKey ∧
      ((tables name).keysHold = true → (tables' name).keysHold = true) := by
  induction h with
  | nil => exact ⟨rfl, id⟩
  | @cons model _ _ _ before _ middle _ _ _ _ _ hdoes _ ih =>
    obtain ⟨rows', htables, hkeys⟩ := hdoes.reshapes
    have hfirst : (middle name).primaryKey = (before name).primaryKey ∧
        ((before name).keysHold = true → (middle name).keysHold = true) := by
      by_cases hname : name = tableName env.casing model
      · subst hname
        refine ⟨?_, hkeys⟩
        rw [htables, Function.update_self]
      · rw [htables, Function.update_of_ne hname]
        exact ⟨rfl, id⟩
    exact ⟨ih.1.trans hfirst.1, fun h => ih.2 (hfirst.2 h)⟩

end Client

end Atomo

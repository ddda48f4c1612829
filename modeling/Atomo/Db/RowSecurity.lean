import Atomo.Db.Statement
import Atomo.Lib.Filter

/-!
# Row-level security

The policies that `ensure_rls_policies` installs, and what they make of the statements: one that is executed
for a tenant shows, changes, removes and writes no row that names another one.
-/

namespace Atomo

open Query (Statement)

namespace Db

/-! ## Policies -/

/-- The conditions of the policies. -/
inductive PolicyCondition where
  | isNull (column : String)
  | equalsSetting (column setting : String)
  | or (a b : PolicyCondition)
  deriving DecidableEq

/-- A condition is true of a row under the settings of the transaction. A comparison with NULL is not. -/
def PolicyCondition.holds (settings : String → Option String) (row : Row) : PolicyCondition → Bool
  | isNull column => row.get column = .null
  | equalsSetting column setting =>
    match row.get column, settings setting with
    | .text s, some t => s = t
    | _, _ => false
  | or a b => a.holds settings row || b.holds settings row

structure Policy where
  name : String
  shown : PolicyCondition
  check : PolicyCondition
  deriving DecidableEq

/-- The row-level security of a table. -/
structure TableSecurity where
  enabled : Bool := false
  forced : Bool := false
  policies : List Policy := []

inductive PolicyStatement where
  | enable (table : String)
  | force (table : String)
  | dropPolicyIfExists (name table : String)
  | createPolicy (table : String) (policy : Policy)

abbrev Security := String → TableSecurity

/-- A policy statement; a table has one policy of a name. -/
def PolicyStatement.run (security : Security) : PolicyStatement → Option Security
  | enable table => some (Function.update security table { security table with enabled := true })
  | force table => some (Function.update security table { security table with forced := true })
  | dropPolicyIfExists name table => some (Function.update security table
      { security table with policies := (security table).policies.filter (·.name ≠ name) })
  | createPolicy table policy =>
    if (security table).policies.any (·.name = policy.name) then none
    else some (Function.update security table
      { security table with policies := (security table).policies ++ [policy] })

def tenantSetting : String :=
  "atomo.tenant_id"

def policyName : String :=
  "atomo_tenant_isolation"

/-- `tenant_id IS NULL OR tenant_id = current_setting('atomo.tenant_id', true)`. -/
def tenantCondition : PolicyCondition :=
  .or (.isNull "tenant_id") (.equalsSetting "tenant_id" tenantSetting)

/-- `policy_statements_for`. -/
def policyStatementsFor (table : String) : List PolicyStatement :=
  [.enable table, .force table, .dropPolicyIfExists policyName table,
    .createPolicy table { name := policyName, shown := tenantCondition, check := tenantCondition }]

def runAll (security : Security) (statements : List PolicyStatement) : Option Security :=
  statements.foldlM PolicyStatement.run security

/-- `ensure_rls_policies`: all of it, or none. -/
def ensureRlsPolicies (tables : List String) (enabled : Bool) (security : Security) : Option Security :=
  if enabled then runAll security (tables.flatMap policyStatementsFor) else some security

/-- The role of the connection. -/
structure Role where
  bypass : Bool
  owner : Bool

/-- The policies stand between a role and a table. -/
def TableSecurity.applies (table : TableSecurity) (role : Role) : Bool :=
  table.enabled && !role.bypass && (table.forced || !role.owner)

/-- The settings of a transaction that a tenant is bound in. -/
def settings (tenant : Option String) (setting : String) : Option String :=
  if setting = tenantSetting then tenant else none

/-- A row that one of the policies shows. -/
def TableSecurity.shows (table : TableSecurity) (role : Role) (tenant : Option String) (row : Row) : Bool :=
  !table.applies role || table.policies.any fun policy => policy.shown.holds (settings tenant) row

/-- A row that one of the policies lets the role write. -/
def TableSecurity.allows (table : TableSecurity) (role : Role) (tenant : Option String) (row : Row) : Bool :=
  !table.applies role || table.policies.any fun policy => policy.check.holds (settings tenant) row

/-- A server with row-level security. -/
def Postgres.secured (pg : Postgres) (security : Security) (role : Role) : Postgres :=
  { pg with
    visible := fun tenant name row => (security name).shows role tenant row
    permits := fun tenant name row => (security name).allows role tenant row }

/-- A row that names no tenant, or this one. -/
def isOwn (tenant : String) (row : Row) : Bool :=
  row.get "tenant_id" = .null || row.get "tenant_id" = .text tenant

/-- The policies of a table let a tenant see and write its own rows only. -/
structure Confines (pg : Postgres) (name : String) : Prop where
  shown : ∀ {tenant row}, pg.visible (some tenant) name row = true → isOwn tenant row = true
  written : ∀ {tenant row}, pg.permits (some tenant) name row = true → isOwn tenant row = true

/-! ## The installed policies -/

/-- The tables with the policy alone. -/
def Secured (security : Security) (table : String) : Prop :=
  (security table).enabled = true ∧ (security table).forced = true ∧
    (security table).policies = [{ name := policyName, shown := tenantCondition, check := tenantCondition }]

variable {security security' : Security} {table : String}

theorem runAll_policyStatementsFor (hlone : ∀ policy ∈ (security table).policies, policy.name = policyName) :
    ∃ secured, runAll security (policyStatementsFor table) = some secured ∧ Secured secured table ∧
      ∀ other, other ≠ table → secured other = security other := by
  have hdropped : (security table).policies.filter (fun policy => !decide (policy.name = policyName)) = [] := by
    apply List.filter_eq_nil_iff.2
    intro policy hpolicy
    simp [hlone policy hpolicy]
  refine ⟨Function.update security table
    ⟨true, true, [{ name := policyName, shown := tenantCondition, check := tenantCondition }]⟩, ?_, ?_, ?_⟩
  · simp [runAll, policyStatementsFor, PolicyStatement.run, hdropped]
  · simp [Secured]
  · intro other hother
    exact Function.update_of_ne hother _ _

/-- Every table that is handed to `ensure_rls_policies` ends with the policy alone. -/
theorem ensureRlsPolicies_secured {tables : List String}
    (hlone : ∀ table ∈ tables, ∀ policy ∈ (security table).policies, policy.name = policyName)
    (h : ensureRlsPolicies tables true security = some security') : ∀ table ∈ tables, Secured security' table := by
  have hrun : runAll security (tables.flatMap policyStatementsFor) = some security' := h
  clear h
  suffices hsecured : ∀ table, Secured security table ∨ table ∈ tables → Secured security' table from
    fun table htable => hsecured table (.inr htable)
  induction tables generalizing security with
  | nil =>
    intro table htable
    cases hrun
    exact htable.resolve_right List.not_mem_nil
  | cons first tables ih =>
    obtain ⟨secured, hfirst, hsecured, hothers⟩ := runAll_policyStatementsFor (hlone first List.mem_cons_self)
    have hrest : runAll secured (tables.flatMap policyStatementsFor) = some security' := by
      unfold runAll at *
      rwa [List.flatMap_cons, List.foldlM_append, hfirst] at hrun
    have hkept (table : String) (hold : Secured security table) : Secured secured table := by
      by_cases hname : table = first
      · rw [hname]
        exact hsecured
      · unfold Secured
        rw [hothers table hname]
        exact hold
    intro table htable
    apply ih ?_ hrest
    · rcases htable with hold | hin
      · exact .inl (hkept table hold)
      · rcases List.mem_cons.1 hin with rfl | hin
        · exact .inl hsecured
        · exact .inr hin
    · intro table htable policy hpolicy
      by_cases hname : table = first
      · rw [hname, hsecured.2.2, List.mem_singleton] at hpolicy
        rw [hpolicy]
      · rw [hothers table hname] at hpolicy
        exact hlone table (List.mem_cons_of_mem first htable) policy hpolicy

theorem isOwn_of_tenantCondition {tenant : String} {row : Row}
    (h : tenantCondition.holds (settings (some tenant)) row = true) : isOwn tenant row = true := by
  unfold isOwn
  simp only [tenantCondition, PolicyCondition.holds, settings, if_true, Bool.or_eq_true] at h ⊢
  apply h.imp_right
  intro hequals
  split at hequals
  · rename_i s t hs ht
    cases ht
    rw [hs, of_decide_eq_true hequals]
    exact decide_eq_true rfl
  · cases hequals

/-- A role that cannot bypass the policy is confined by it. -/
theorem Secured.confines {pg : Postgres} {role : Role} (h : Secured security table) (hrole : role.bypass = false) :
    Confines (pg.secured security role) table := by
  obtain ⟨henabled, hforced, hpolicies⟩ := h
  have happlies : (security table).applies role = true := by
    simp [TableSecurity.applies, henabled, hforced, hrole]
  constructor
  · intro tenant row hshown
    apply isOwn_of_tenantCondition
    simpa [Postgres.secured, TableSecurity.shows, happlies, hpolicies] using hshown
  · intro tenant row hallowed
    apply isOwn_of_tenantCondition
    simpa [Postgres.secured, TableSecurity.allows, happlies, hpolicies] using hallowed

/-! ## Statements under a policy -/

end Db

/-- The table that a statement is about. -/
def Query.Statement.table : Statement → String
  | .select _ table _ _ _ _ | .insert table _ _ | .update table _ _ _ | .delete table _ => table

namespace Db

/-- The rows of a table that name another tenant. -/
def others (tenant : String) (table : Table) : List Row :=
  table.rows.filter fun row => !isOwn tenant row

/-- The rows of other tenants are as they were, and none is added to them. -/
def Spares (tenant : String) (tables tables' : Tables) : Prop :=
  ∀ name, others tenant (tables' name) = others tenant (tables name)

theorem Spares.refl (tenant : String) (tables : Tables) : Spares tenant tables tables :=
  fun _ => rfl

theorem Spares.trans {tenant : String} {tables tables' tables'' : Tables} (h : Spares tenant tables tables')
    (h' : Spares tenant tables' tables'') : Spares tenant tables tables'' :=
  fun name => (h' name).trans (h name)

theorem spares_update {tenant name : String} {tables : Tables} {rows : List Row}
    (h : rows.filter (fun row => !isOwn tenant row) = (tables name).rows.filter fun row => !isOwn tenant row) :
    Spares tenant tables (Function.update tables name { tables name with rows }) := by
  intro other
  by_cases hname : other = name
  · rw [hname, Function.update_self]
    exact h
  · rw [Function.update_of_ne hname]

variable {pg : Postgres} {tenant : String} {tick : Nat} {now : Int} {params : List Json} {tables tables' : Tables}
  {statement : Statement} {rows : List Row}

theorem Confines.selected {name : String} (hconfines : Confines pg name) {conditions : List Query.Condition} {row : Row}
    (h : selects pg (some tenant) name conditions params row = true) : isOwn tenant row = true :=
  hconfines.shown (Bool.and_eq_true_iff.1 h).1

/-- What a statement that a tenant is bound for does to the rows of the others: nothing. -/
theorem run_spares (hconfines : Confines pg statement.table)
    (h : run pg tick now (some tenant) params tables statement = some (tables', rows)) : Spares tenant tables tables' := by
  cases statement with
  | select counting name conditions orderBy limit offset =>
    simp only [run] at h
    split at h
    · split at h <;> cases h <;> exact .refl tenant _
    · cases h
  | insert name columns values =>
    have hallowed := run_insert_permitted pg h
    obtain ⟨-, rfl, -, -⟩ := run_insert pg h
    apply spares_update
    rw [List.filter_append, List.filter_eq_nil_iff (l := rows) |>.2, List.append_nil]
    intro row hrow
    simp [hconfines.written (hallowed row hrow)]
  | update name sets conditions returning =>
    have hallowed := run_update_permitted pg h
    obtain ⟨values, -, rfl, rfl, -⟩ := run_update pg h
    apply spares_update
    apply List.filter_map_eq_filter
    intro row hrow
    split
    · rename_i hselected
      have hwritten : row.update values ∈ ((tables name).rows.filter
          (selects pg (some tenant) name conditions params)).map (·.update values) :=
        List.mem_map_of_mem (List.mem_filter.2 ⟨hrow, hselected⟩)
      right
      simp [hconfines.selected hselected, hconfines.written (hallowed _ hwritten)]
    · exact .inl rfl
  | delete name conditions =>
    obtain ⟨rfl, rfl⟩ := run_delete pg h
    apply spares_update
    rw [List.filter_filter]
    apply List.filter_congr
    intro row _
    cases hselected : selects pg (some tenant) name conditions params row with
    | true => simp [hconfines.selected hselected]
    | false => simp

end Db

end Atomo

import Atomo.Server.Accounts

/-!
# What requests do to accounts

Each handler, by the accounts and the sessions that it leaves (`Follows`). Only `create_user`, `update_user` and the
mutations of a model that is stored in `users` or `sessions` may change what an account is allowed to do, and a field
that is `Harmless` does not.
-/

namespace Atomo

/-! ## Roles -/

namespace Auth

/-- `UserRole::can_access`. -/
def UserRole.canAccess : UserRole → UserRole → Bool
  | .admin, _ => true
  | .manager, .manager | .manager, .sales | .manager, .support | .manager, .viewer => true
  | .sales, .sales | .sales, .viewer => true
  | .support, .support | .support, .viewer => true
  | .viewer, .viewer => true
  | _, _ => false

/-- One role is above another. -/
def UserRole.Above (role other : UserRole) : Prop :=
  role.canAccess other = true ∧ role ≠ other

theorem UserRole.not_viewer_above (role : UserRole) : ¬UserRole.viewer.Above role := by
  rintro ⟨haccess, hne⟩
  cases role with
  | viewer => exact hne rfl
  | admin | manager | sales | support => cases haccess

theorem UserRole.ofText_text {lower : String → String} (hlower : ∀ role : UserRole, lower role.text = role.text)
    (role : UserRole) : UserRole.ofText lower role.text = role := by
  unfold UserRole.ofText
  rw [hlower]
  cases role <;> rfl

end Auth

namespace Server

open Auth (Account AuthUser JwtClaims Session UserRole)
open Db (Row SqlValue Table Tables)
open Query (tableName)
open Schema (lookup? mem_of_lookup?)

variable {Token : Type} (env : PlatformEnv Token)

/-- The role that a text of the database stands for. -/
def PlatformEnv.role (text : String) : UserRole :=
  .ofText env.tokens.lower text

/-- The role is above the one that a registration grants. -/
def PlatformEnv.Exceeds (role : UserRole) : Prop :=
  role.Above (env.role env.registration.role)

/-- A field that leaves the privileges alone: it asks for no account above a registration's unless that is refused, gives
a role or a flag only as it is, and is about no model that is stored in `users` or `sessions`. -/
def Field.Harmless (s : PlatformState Token) : Field → Prop
  | .query _ => True
  | .mutation modelName _ => ∀ model, env.client.schema.model? modelName = some model →
      tableName env.client.casing model ≠ "users" ∧ tableName env.client.casing model ≠ "sessions"
  | .createUser email firstName lastName role => ¬env.Exceeds role ∨ firstName = none ∨ lastName = none ∨
      ∃ row ∈ (s.table "users").rows, row.get "email" = .text email
  | .updateUser userId _ _ _ role isActive => ∀ id a, env.parseId userId = some id → a ∈ s.accounts → a.id = id →
      (∀ r, role = some r → r.text = a.role) ∧ ∀ b, isActive = some b → b = a.isActive

/-! ## Rows and accounts -/

theorem accountOf_id {row : Row} {a : Account} (h : accountOf row = some a) : row.get "id" = .text a.id := by
  unfold accountOf at h
  split at h
  · rename_i id hid
    cases h
    exact hid
  · cases h

theorem sessionOf_id {row : Row} {x : Session} (h : sessionOf row = some x) : row.get "id" = .text x.id := by
  unfold sessionOf at h
  split at h
  · rename_i id hid
    cases h
    exact hid
  · cases h

theorem accountOf_of_id {row : Row} {id : String} (h : row.get "id" = .text id) :
    ∃ a, accountOf row = some a ∧ a.id = id ∧ a.role = textOf (row.get "role") ∧
      a.isActive = decide (row.get "is_active" = .boolean true) := by
  unfold accountOf
  rw [h]
  exact ⟨_, rfl, rfl, rfl, rfl⟩

theorem sessionOf_of_id {row : Row} {id : String} (h : row.get "id" = .text id) :
    ∃ x, sessionOf row = some x ∧ x.id = id ∧ x.userId = textOf (row.get "user_id") := by
  unfold sessionOf
  rw [h]
  exact ⟨_, rfl, rfl, rfl⟩

theorem accountOf_eq {row : Row} {a : Account} (h : accountOf row = some a) :
    a.role = textOf (row.get "role") ∧ a.isActive = decide (row.get "is_active" = .boolean true) := by
  obtain ⟨a', ha', -, hrole, hactive⟩ := accountOf_of_id (accountOf_id h)
  cases h.symm.trans ha'
  exact ⟨hrole, hactive⟩

theorem sessionOf_eq {row : Row} {x : Session} (h : sessionOf row = some x) : x.userId = textOf (row.get "user_id") := by
  obtain ⟨x', hx', -, huser⟩ := sessionOf_of_id (sessionOf_id h)
  cases h.symm.trans hx'
  exact huser

/-- Rows with one key are one row. -/
theorem eq_of_get_id {table : Table} (hprimary : table.primaryKey = some "id") (hkeys : table.keysHold = true)
    {row row' : Row} (hrow : row ∈ table.rows) (hrow' : row' ∈ table.rows) (h : row.get "id" = row'.get "id") :
    row = row' := by
  unfold Table.keysHold at hkeys
  rw [hprimary] at hkeys
  exact List.inj_on_of_nodup_map (of_decide_eq_true hkeys).1 hrow hrow' h

/-- A row that is appended has a key of its own. -/
theorem get_id_ne_of_append {table : Table} (hprimary : table.primaryKey = some "id") {new row : Row}
    (hkeys : ({ table with rows := table.rows ++ [new] } : Table).keysHold = true) (hrow : row ∈ table.rows) :
    row.get "id" ≠ new.get "id" := by
  unfold Table.keysHold at hkeys
  rw [hprimary] at hkeys
  have hnodup := (of_decide_eq_true hkeys).1
  rw [List.map_append, List.nodup_append] at hnodup
  exact hnodup.2.2 _ (List.mem_map_of_mem hrow) _ (List.mem_singleton_self _)

namespace PlatformState

variable {s t : PlatformState Token} {name : String} {table : Table}

theorem table_setTable (s : PlatformState Token) (name : String) (table : Table) :
    (s.setTable name table).table name = table :=
  Function.update_self ..

theorem table_setTable_of_ne (s : PlatformState Token) (table : Table) {other : String} (h : other ≠ name) :
    (s.setTable name table).table other = s.table other :=
  Function.update_of_ne h ..

theorem mem_accounts {a : Account} : a ∈ s.accounts ↔ ∃ row ∈ (s.table "users").rows, accountOf row = some a :=
  List.mem_filterMap

theorem mem_sessions {x : Session} : x ∈ s.sessions ↔ ∃ row ∈ (s.table "sessions").rows, sessionOf row = some x :=
  List.mem_filterMap

theorem accounts_setTable (s : PlatformState Token) (table : Table) (h : "users" ≠ name) :
    (s.setTable name table).accounts = s.accounts := by
  unfold accounts
  rw [table_setTable_of_ne s table h]

theorem sessions_setTable (s : PlatformState Token) (table : Table) (h : "sessions" ≠ name) :
    (s.setTable name table).sessions = s.sessions := by
  unfold sessions
  rw [table_setTable_of_ne s table h]

theorem Keyed.users (h : s.Keyed) : (s.table "users").primaryKey = some "id" ∧ (s.table "users").keysHold = true :=
  h _ (List.mem_cons_self ..)

theorem Keyed.sessions (h : s.Keyed) :
    (s.table "sessions").primaryKey = some "id" ∧ (s.table "sessions").keysHold = true :=
  h _ (List.mem_cons_of_mem _ (List.mem_singleton_self _))

theorem Keyed.account_eq (h : s.Keyed) {a a' : Account} (ha : a ∈ s.accounts) (ha' : a' ∈ s.accounts)
    (hid : a.id = a'.id) : a = a' := by
  obtain ⟨row, hrow, hof⟩ := mem_accounts.1 ha
  obtain ⟨row', hrow', hof'⟩ := mem_accounts.1 ha'
  have hget : row.get "id" = row'.get "id" := by rw [accountOf_id hof, accountOf_id hof', hid]
  cases eq_of_get_id h.users.1 h.users.2 hrow hrow' hget
  exact Option.some.inj (hof.symm.trans hof')

theorem Keyed.session_eq (h : s.Keyed) {x x' : Session} (hx : x ∈ s.sessions) (hx' : x' ∈ s.sessions)
    (hid : x.id = x'.id) : x = x' := by
  obtain ⟨row, hrow, hof⟩ := mem_sessions.1 hx
  obtain ⟨row', hrow', hof'⟩ := mem_sessions.1 hx'
  have hget : row.get "id" = row'.get "id" := by rw [sessionOf_id hof, sessionOf_id hof', hid]
  cases eq_of_get_id h.sessions.1 h.sessions.2 hrow hrow' hget
  exact Option.some.inj (hof.symm.trans hof')

theorem mem_accounts_append {row : Row} {a : Account} :
    a ∈ (s.setTable "users" { s.table "users" with rows := (s.table "users").rows ++ [row] }).accounts ↔
      a ∈ s.accounts ∨ accountOf row = some a := by
  rw [mem_accounts, table_setTable, mem_accounts]
  simp only [List.mem_append, List.mem_singleton, or_and_right, exists_or, exists_eq_left]

theorem mem_sessions_append {row : Row} {x : Session} :
    x ∈ (s.setTable "sessions" { s.table "sessions" with rows := (s.table "sessions").rows ++ [row] }).sessions ↔
      x ∈ s.sessions ∨ sessionOf row = some x := by
  rw [mem_sessions, table_setTable, mem_sessions]
  simp only [List.mem_append, List.mem_singleton, or_and_right, exists_or, exists_eq_left]

/-- The id of a row that is appended to `users` is that of no account. -/
theorem Keyed.account_fresh (h : s.Keyed) {row : Row} {id : String} (hid : row.get "id" = .text id)
    (hkeys : ({ s.table "users" with rows := (s.table "users").rows ++ [row] } : Table).keysHold = true) :
    ∀ a ∈ s.accounts, a.id ≠ id := by
  intro a ha heq
  obtain ⟨other, hother, hof⟩ := mem_accounts.1 ha
  apply get_id_ne_of_append h.users.1 hkeys hother
  rw [accountOf_id hof, hid, heq]

/-- A session with the id of a row that is appended to `sessions` is that row. -/
theorem Keyed.session_appended (h : s.Keyed) {row : Row} {id : String} (hid : row.get "id" = .text id)
    (hkeys : ({ s.table "sessions" with rows := (s.table "sessions").rows ++ [row] } : Table).keysHold = true) {x : Session}
    (hx : x ∈ (s.setTable "sessions"
      { s.table "sessions" with rows := (s.table "sessions").rows ++ [row] }).sessions) (hxid : x.id = id) :
    sessionOf row = some x := by
  refine (mem_sessions_append.1 hx).resolve_left fun hold => ?_
  obtain ⟨other, hother, hof⟩ := mem_sessions.1 hold
  apply get_id_ne_of_append h.sessions.1 hkeys hother
  rw [sessionOf_id hof, hid, hxid]

/-- Keys hold of a table that a statement has left. -/
theorem Keyed.setTable (h : s.Keyed) (hprimary : table.primaryKey = (s.table name).primaryKey)
    (hkeys : table.keysHold = true) : (s.setTable name table).Keyed := by
  intro other hother
  by_cases heq : other = name
  · subst heq
    rw [table_setTable, hprimary]
    exact ⟨(h other hother).1, hkeys⟩
  · rw [table_setTable_of_ne s table heq]
    exact h other hother

end PlatformState

/-! ## What steps do -/

/-- The accounts and the sessions after some steps, which open sessions for certain accounts only. -/
structure Follows (mayAct : String → Prop) (s t : PlatformState Token) : Prop where
  keyed : s.Keyed → t.Keyed
  stays : ∀ a ∈ s.accounts, ∃ a' ∈ t.accounts, a'.id = a.id
  accounts : ∀ a' ∈ t.accounts,
    (∃ a ∈ s.accounts, a.id = a'.id ∧ a.role = a'.role ∧ a.isActive = a'.isActive) ∨
      (∀ a ∈ s.accounts, a.id ≠ a'.id) ∧ ¬env.Exceeds (env.role a'.role)
  sessions : ∀ x' ∈ t.sessions, (∃ x ∈ s.sessions, x.id = x'.id ∧ x.userId = x'.userId) ∨ mayAct x'.userId
  issued : ∃ returned, t.issued = s.issued ++ returned ∧ ∀ entry ∈ returned,
    (∀ claims, env.tokens.reads entry.1 = some claims → claims = entry.2) ∧
      ∀ x ∈ t.sessions, x.id = entry.2.jti → mayAct x.userId

section

variable {env} {mayAct : String → Prop} {s t v : PlatformState Token}

namespace Follows

theorem of_tables (hkeyed : s.Keyed → t.Keyed) (haccounts : t.accounts = s.accounts) (hsessions : t.sessions = s.sessions)
    (hissued : t.issued = s.issued) : Follows env mayAct s t where
  keyed := hkeyed
  stays a ha := ⟨a, by rwa [haccounts], rfl⟩
  accounts a' ha' := .inl ⟨a', by rwa [← haccounts], rfl, rfl, rfl⟩
  sessions x' hx' := .inl ⟨x', by rwa [← hsessions], rfl, rfl⟩
  issued := ⟨[], by rw [hissued, List.append_nil], fun entry he => absurd he List.not_mem_nil⟩

theorem refl (s : PlatformState Token) : Follows env mayAct s s :=
  of_tables id rfl rfl rfl

theorem trans (h : Follows env mayAct s t) (h' : Follows env mayAct t v) : Follows env mayAct s v where
  keyed hs := h'.keyed (h.keyed hs)
  stays a ha := by
    obtain ⟨a', ha', hid⟩ := h.stays a ha
    obtain ⟨a'', ha'', hid'⟩ := h'.stays a' ha'
    exact ⟨a'', ha'', hid'.trans hid⟩
  accounts a'' ha'' := by
    rcases h'.accounts a'' ha'' with ⟨a', ha', hid', hrole', hactive'⟩ | ⟨hnew, hgrants⟩
    · rcases h.accounts a' ha' with ⟨a, ha, hid, hrole, hactive⟩ | ⟨hnew, hgrants⟩
      · exact .inl ⟨a, ha, hid.trans hid', hrole.trans hrole', hactive.trans hactive'⟩
      · exact .inr ⟨fun a ha => hid' ▸ hnew a ha, hrole' ▸ hgrants⟩
    · refine .inr ⟨fun a ha heq => ?_, hgrants⟩
      obtain ⟨a', ha', hid⟩ := h.stays a ha
      exact hnew a' ha' (hid.trans heq)
  sessions x'' hx'' := by
    rcases h'.sessions x'' hx'' with ⟨x', hx', hid', huser'⟩ | hmay
    · rcases h.sessions x' hx' with ⟨x, hx, hid, huser⟩ | hmay
      · exact .inl ⟨x, hx, hid.trans hid', huser.trans huser'⟩
      · exact .inr (huser' ▸ hmay)
    · exact .inr hmay
  issued := by
    obtain ⟨first, hfirst, hall⟩ := h.issued
    obtain ⟨second, hsecond, hall'⟩ := h'.issued
    refine ⟨first ++ second, by rw [hsecond, hfirst, List.append_assoc], fun entry he => ?_⟩
    cases List.mem_append.1 he with
    | inl he =>
      refine ⟨(hall entry he).1, fun x'' hx'' hjti => ?_⟩
      rcases h'.sessions x'' hx'' with ⟨x', hx', hid', huser'⟩ | hmay
      · exact huser' ▸ (hall entry he).2 x' hx' (hid'.trans hjti)
      · exact hmay
    | inr he => exact hall' entry he

theorem ticked (s : PlatformState Token) : Follows env mayAct s s.ticked :=
  of_tables id rfl rfl rfl

theorem drawn (s : PlatformState Token) (n : Nat) : Follows env mayAct s { s with drawn := n } :=
  of_tables id rfl rfl rfl

/-- A row that is appended to `users`. -/
theorem insertAccount (hs : s.Keyed) {row : Row} {id role : String} (hid : row.get "id" = .text id)
    (hrole : row.get "role" = .text role) (hgrants : ¬env.Exceeds (env.role role))
    (hkeys : ({ s.table "users" with rows := (s.table "users").rows ++ [row] } : Table).keysHold = true) :
    Follows env mayAct s (s.setTable "users" { s.table "users" with rows := (s.table "users").rows ++ [row] }) := by
  refine ⟨fun hs => hs.setTable rfl hkeys, fun a ha => ⟨a, PlatformState.mem_accounts_append.2 (.inl ha), rfl⟩,
    fun a' ha' => ?_, fun x hx => ?_, [], (List.append_nil _).symm, fun entry he => absurd he List.not_mem_nil⟩
  · cases PlatformState.mem_accounts_append.1 ha' with
    | inl hold => exact .inl ⟨a', hold, rfl, rfl, rfl⟩
    | inr hnew =>
      have haid : a'.id = id := SqlValue.text.inj ((accountOf_id hnew).symm.trans hid)
      have harole : a'.role = role := by rw [(accountOf_eq hnew).1, hrole]; rfl
      refine .inr ⟨?_, by rwa [harole]⟩
      rw [haid]
      exact hs.account_fresh hid hkeys
  · rw [s.sessions_setTable _ (by decide)] at hx
    exact .inl ⟨x, hx, rfl, rfl⟩

/-- A row that is appended to `sessions`. -/
theorem insertSession {row : Row} {userId : String} (huser : row.get "user_id" = .text userId) (hmay : mayAct userId)
    (hkeys : ({ s.table "sessions" with rows := (s.table "sessions").rows ++ [row] } : Table).keysHold = true) :
    Follows env mayAct s
      (s.setTable "sessions" { s.table "sessions" with rows := (s.table "sessions").rows ++ [row] }) := by
  refine ⟨fun hs => hs.setTable rfl hkeys, fun a ha => ⟨a, ?_, rfl⟩, fun a' ha' => ?_, fun x' hx' => ?_, [],
    (List.append_nil _).symm, fun entry he => absurd he List.not_mem_nil⟩
  · rwa [s.accounts_setTable _ (by decide)]
  · rw [s.accounts_setTable _ (by decide)] at ha'
    exact .inl ⟨a', ha', rfl, rfl, rfl⟩
  · cases PlatformState.mem_sessions_append.1 hx' with
    | inl hold => exact .inl ⟨x', hold, rfl, rfl⟩
    | inr hof =>
      rw [sessionOf_eq hof, huser]
      exact .inr hmay

/-- Rows of `users` that are changed, but not in what they make of an account. -/
theorem changeAccounts {change : Row → Row} (hid : ∀ row, (change row).get "id" = row.get "id")
    (hsame : ∀ row ∈ (s.table "users").rows, textOf ((change row).get "role") = textOf (row.get "role") ∧
      ((change row).get "is_active" = .boolean true ↔ row.get "is_active" = .boolean true))
    (hkeys : ({ s.table "users" with rows := (s.table "users").rows.map change } : Table).keysHold = true) :
    Follows env mayAct s (s.setTable "users" { s.table "users" with rows := (s.table "users").rows.map change }) := by
  have htable := s.table_setTable "users" { s.table "users" with rows := (s.table "users").rows.map change }
  refine ⟨fun hs => hs.setTable rfl hkeys, fun a ha => ?_, fun a' ha' => ?_, fun x hx => ?_, [],
    (List.append_nil _).symm, fun entry he => absurd he List.not_mem_nil⟩
  · obtain ⟨row, hrow, hof⟩ := PlatformState.mem_accounts.1 ha
    obtain ⟨a', ha', haid, -⟩ := accountOf_of_id ((hid row).trans (accountOf_id hof))
    refine ⟨a', ?_, haid⟩
    rw [PlatformState.mem_accounts, htable]
    exact ⟨change row, List.mem_map_of_mem hrow, ha'⟩
  · rw [PlatformState.mem_accounts, htable] at ha'
    obtain ⟨row', hrow', hof'⟩ := ha'
    obtain ⟨row, hrow, rfl⟩ := List.mem_map.1 hrow'
    obtain ⟨a, ha, haid, harole, haactive⟩ := accountOf_of_id ((hid row).symm.trans (accountOf_id hof'))
    obtain ⟨hrole, hactive⟩ := hsame row hrow
    refine .inl ⟨a, PlatformState.mem_accounts.2 ⟨row, hrow, ha⟩, haid, ?_, ?_⟩
    · rw [harole, (accountOf_eq hof').1, hrole]
    · rw [haactive, (accountOf_eq hof').2, decide_eq_decide]
      exact hactive.symm
  · rw [s.sessions_setTable _ (by decide)] at hx
    exact .inl ⟨x, hx, rfl, rfl⟩

/-- Rows of `sessions` that are changed, but not whose they are. -/
theorem changeSessions {change : Row → Row} (hid : ∀ row, (change row).get "id" = row.get "id")
    (huser : ∀ row, (change row).get "user_id" = row.get "user_id")
    (hkeys : ({ s.table "sessions" with rows := (s.table "sessions").rows.map change } : Table).keysHold = true) :
    Follows env mayAct s
      (s.setTable "sessions" { s.table "sessions" with rows := (s.table "sessions").rows.map change }) := by
  have htable := s.table_setTable "sessions" { s.table "sessions" with rows := (s.table "sessions").rows.map change }
  refine ⟨fun hs => hs.setTable rfl hkeys, fun a ha => ⟨a, ?_, rfl⟩, fun a' ha' => ?_, fun x' hx' => ?_, [],
    (List.append_nil _).symm, fun entry he => absurd he List.not_mem_nil⟩
  · rwa [s.accounts_setTable _ (by decide)]
  · rw [s.accounts_setTable _ (by decide)] at ha'
    exact .inl ⟨a', ha', rfl, rfl, rfl⟩
  · rw [PlatformState.mem_sessions, htable] at hx'
    obtain ⟨row', hrow', hof'⟩ := hx'
    obtain ⟨row, hrow, rfl⟩ := List.mem_map.1 hrow'
    obtain ⟨x, hx, hxid, hxuser⟩ := sessionOf_of_id ((hid row).symm.trans (sessionOf_id hof'))
    refine .inl ⟨x, PlatformState.mem_sessions.2 ⟨row, hrow, hx⟩, hxid, ?_⟩
    rw [hxuser, sessionOf_eq hof', huser]

end Follows

/-! ## Statements -/

theorem statement_ends {name : String} {effect : Nat → Table → Option Table} (s : PlatformState Token) :
    Ends (statement env name effect) s
      (fun _ t => ∃ table, effect s.world.tick (s.table name) = some table ∧ constraintsHold name table = true ∧
        t = s.ticked.setTable name table)
      fun _ t => t = s.ticked := by
  unfold statement
  apply Ends.of_result
  split
  · rename_i hresult
    split at hresult
    · cases hresult
    · split at hresult
      · rename_i table htable
        cases hresult
        obtain ⟨heffect, hconstraints⟩ := Option.filter_eq_some_iff.1 htable
        exact ⟨table, heffect, hconstraints, rfl⟩
      · cases hresult
  · rename_i hresult
    split at hresult
    · cases hresult
      rfl
    · split at hresult
      · cases hresult
      · cases hresult
        rfl

theorem insertRow_ends {name : String} {values : List (String × SqlValue)} (s : PlatformState Token) :
    Ends (insertRow env name values) s
      (fun _ t => ∃ row : Row, (∀ column value, lookup? column values = some value → row.get column = value) ∧
        constraintsHold name { s.table name with rows := (s.table name).rows ++ [row] } = true ∧
        t = s.ticked.setTable name { s.table name with rows := (s.table name).rows ++ [row] })
      fun _ t => t = s.ticked := by
  refine (statement_ends s).mono ?_ fun _ _ h => h
  rintro _ t ⟨table, heffect, hconstraints, rfl⟩
  obtain ⟨htakes, htable⟩ := Option.ite_none_right_eq_some.1 heffect
  cases htable
  refine ⟨_, fun column value hvalue => ?_, hconstraints, rfl⟩
  have hcolumn : column ∈ (s.table name).columnNames := by
    obtain ⟨type, htype, -⟩ := (Option.any_eq_true _ _).1 (List.all_eq_true.1 htakes _ (mem_of_lookup? hvalue))
    exact List.mem_map_of_mem (mem_of_lookup? htype)
  rw [Db.get_newRow, if_pos hcolumn, hvalue, Option.getD_some]

theorem updateRow_ends {name id : String} {sets : List (String × SqlValue)} (s : PlatformState Token) :
    Ends (updateRow env name id sets) s
      (fun _ t =>
        constraintsHold name { s.table name with rows := (s.table name).rows.map (changed id sets) } = true ∧
        t = s.ticked.setTable name { s.table name with rows := (s.table name).rows.map (changed id sets) })
      fun _ t => t = s.ticked := by
  refine (statement_ends s).mono ?_ fun _ _ h => h
  rintro _ t ⟨table, heffect, hconstraints, rfl⟩
  obtain ⟨-, htable⟩ := Option.ite_none_right_eq_some.1 heffect
  cases htable
  exact ⟨hconstraints, rfl⟩

theorem keysHold_of_constraints {name : String} {table : Table} (h : constraintsHold name table = true) :
    table.keysHold = true :=
  (Bool.and_eq_true_iff.1 h).1

theorem get_changed_of_none {id : String} {sets : List (String × SqlValue)} {column : String}
    (h : lookup? column sets = none) (row : Row) : (changed id sets row).get column = row.get column := by
  unfold changed
  split
  · exact row.get_update_of_none h
  · rfl

theorem draw_ends (s : PlatformState Token) {E : Unit → PlatformState Token → Prop} :
    Ends (draw env) s (fun id t => id = env.ids.draw s.drawn ∧ t = { s with drawn := s.drawn + 1 }) E :=
  Ends.of_result ⟨rfl, rfl⟩

theorem get_ends (s : PlatformState Token) {E : Unit → PlatformState Token → Prop} :
    Ends (get : Handler Token (PlatformState Token)) s (fun s' t => s' = s ∧ t = s) E :=
  Ends.of_result ⟨rfl, rfl⟩

/-! ## Handlers -/

variable (env mayAct) in
/-- Whatever the handler ends with, it has opened sessions for certain accounts only. -/
def Leads {α : Type} (x : Handler Token α) (s : PlatformState Token) : Prop :=
  Ends x s (fun _ t => Follows env mayAct s t) fun _ t => Follows env mayAct s t

namespace Leads

variable {α β : Type} {x : Handler Token α} {f : α → Handler Token β}

theorem throw : Leads env mayAct (MonadExcept.throw () : Handler Token α) s :=
  Ends.throw (.refl s)

theorem bind {Q : α → PlatformState Token → Prop}
    (hx : Ends x s (fun a t => Q a t ∧ Follows env mayAct s t) fun _ t => Follows env mayAct s t)
    (hf : ∀ a t, Q a t → Follows env mayAct s t → Leads env mayAct (f a) t) : Leads env mayAct (x >>= f) s :=
  Ends.bind hx fun a t h => (hf a t h.1 h.2).mono (fun _ _ => h.2.trans) fun _ _ => h.2.trans

theorem seq (hx : Leads env mayAct x s) (hf : ∀ a t, Follows env mayAct s t → Leads env mayAct (f a) t) :
    Leads env mayAct (x >>= f) s :=
  Ends.bind hx fun a t h => (hf a t h).mono (fun _ _ => h.trans) fun _ _ => h.trans

theorem get_bind {g : PlatformState Token → Handler Token β} (h : Leads env mayAct (g s) s) :
    Leads env mayAct (get >>= g) s := by
  refine Ends.bind (get_ends s) ?_
  rintro _ _ ⟨rfl, rfl⟩
  exact h

theorem draw_bind {g : String → Handler Token β}
    (h : Leads env mayAct (g (env.ids.draw s.drawn)) { s with drawn := s.drawn + 1 }) :
    Leads env mayAct (draw env >>= g) s := by
  refine (draw_ends s).bind ?_
  rintro _ _ ⟨rfl, rfl⟩
  exact h.mono (fun _ _ => (Follows.drawn s _).trans) fun _ _ => (Follows.drawn s _).trans

end Leads

/-- An update of `users` that leaves the roles and flags as they are. -/
theorem updateUsers_leads {id : String} {sets : List (String × SqlValue)} (hid : lookup? "id" sets = none)
    (hsame : ∀ row ∈ (s.table "users").rows,
      textOf ((changed id sets row).get "role") = textOf (row.get "role") ∧
        ((changed id sets row).get "is_active" = .boolean true ↔ row.get "is_active" = .boolean true)) :
    Leads env mayAct (updateRow env "users" id sets) s := by
  refine (updateRow_ends s).mono ?_ ?_
  · rintro _ t ⟨hconstraints, rfl⟩
    exact (Follows.ticked s).trans (.changeAccounts (get_changed_of_none hid) hsame (keysHold_of_constraints hconstraints))
  · rintro _ t rfl
    exact .ticked s

theorem updateSessions_leads {id : String} {sets : List (String × SqlValue)} (hid : lookup? "id" sets = none)
    (huser : lookup? "user_id" sets = none) : Leads env mayAct (updateRow env "sessions" id sets) s := by
  refine (updateRow_ends s).mono ?_ ?_
  · rintro _ t ⟨hconstraints, rfl⟩
    exact (Follows.ticked s).trans
      (.changeSessions (get_changed_of_none hid) (get_changed_of_none huser) (keysHold_of_constraints hconstraints))
  · rintro _ t rfl
    exact .ticked s

/-- A new account. -/
theorem insertUser_ends (hs : s.Keyed) {id email role firstName lastName : String} {rest : List (String × SqlValue)}
    (hgrants : ¬env.Exceeds (env.role role)) :
    Ends (insertRow env "users" (newAccount id email role firstName lastName rest)) s
      (fun _ t => ((∀ a ∈ s.accounts, a.id ≠ id) ∧ t.sessions = s.sessions ∧ t.drawn = s.drawn) ∧ Follows env mayAct s t)
      fun _ t => Follows env mayAct s t := by
  refine (insertRow_ends s).mono ?_ ?_
  · rintro _ t ⟨row, hrow, hconstraints, rfl⟩
    have hticked : s.ticked.Keyed := hs
    have hkeys := keysHold_of_constraints hconstraints
    exact ⟨⟨hticked.account_fresh (hrow "id" _ rfl) hkeys, s.ticked.sessions_setTable _ (by decide), rfl⟩,
      (Follows.ticked s).trans (.insertAccount hticked (hrow "id" _ rfl) (hrow "role" _ rfl) hgrants hkeys)⟩
  · rintro _ t rfl
    exact .ticked s

theorem createSession_ends (hs : s.Keyed) {userId : String} (hmay : mayAct userId) :
    Ends (createSession env userId) s
      (fun id t => (∀ x ∈ t.sessions, x.id = id → x.userId = userId) ∧ Follows env mayAct s t)
      fun _ t => Follows env mayAct s t := by
  refine (draw_ends s).bind ?_
  rintro id _ ⟨-, rfl⟩
  refine (draw_ends _).bind ?_
  rintro token _ ⟨-, rfl⟩
  refine (get_ends _).bind ?_
  rintro _ _ ⟨rfl, rfl⟩
  have hdrawn : Follows env mayAct s { s with drawn := s.drawn + 1 + 1 } := .drawn s _
  refine ((insertRow_ends _).mono (fun _ t h => ?_) ?_).bind fun _ t h => Ends.pure h
  · obtain ⟨row, hrow, hconstraints, rfl⟩ := h
    have hticked : ({ s with drawn := s.drawn + 1 + 1 } : PlatformState Token).ticked.Keyed := hs
    have hkeys := keysHold_of_constraints hconstraints
    refine ⟨fun x hx hxid => ?_, (hdrawn.trans (.ticked _)).trans (.insertSession (hrow "user_id" _ rfl) hmay hkeys)⟩
    rw [sessionOf_eq (hticked.session_appended (hrow "id" _ rfl) hkeys hx hxid), hrow "user_id" _ rfl]
    rfl
  · rintro _ t rfl
    exact hdrawn.trans (.ticked _)

/-- A token for an id that the sessions of certain accounts only have. -/
theorem issue_leads {sign : JwtClaims → Token} {userId email role jti : String}
    (hsign : ∀ claims claims', env.tokens.reads (sign claims) = some claims' → claims' = claims)
    (hjti : ∀ x ∈ s.sessions, x.id = jti → mayAct x.userId) :
    Leads env mayAct (issue sign userId email role jti) s := by
  refine Ends.of_result ⟨id, fun a ha => ⟨a, ha, rfl⟩, fun a' ha' => .inl ⟨a', ha', rfl, rfl, rfl⟩,
    fun x' hx' => .inl ⟨x', hx', rfl, rfl⟩, [_], rfl, fun entry he => ?_⟩
  rw [List.mem_singleton.1 he]
  exact ⟨fun claims hreads => hsign _ _ hreads, hjti⟩

theorem reads_sign (env : PlatformEnv Token) (claims claims' : JwtClaims)
    (h : env.tokens.reads (env.tokens.sign claims) = some claims') : claims' = claims := by
  rw [env.tokens.reads_sign] at h
  exact (Option.some.inj h).symm

theorem issueTokens_leads (hs : s.Keyed) {userId email role : String} (hmay : mayAct userId) :
    Leads env mayAct (issueTokens env userId email role) s := by
  refine .bind (createSession_ends hs hmay) fun id t hid _ => issue_leads (reads_sign env) fun x hx hxid => ?_
  rw [hid x hx hxid]
  exact hmay

/-- A registration, where sessions may be opened for new accounts. -/
theorem register_leads (hs : s.Keyed) (hnew : ∀ id, (∀ a ∈ s.accounts, a.id ≠ id) → mayAct id) (req : RegisterRequest)
    (accepted : Bool) : Leads env mayAct (register env req accepted) s := by
  unfold register
  dsimp only
  split
  · have hdrawn : ({ s with drawn := s.drawn + 1 } : PlatformState Token).Keyed := hs
    refine .draw_bind (.bind (insertUser_ends hdrawn fun h => h.2 rfl) fun _ t ht hfollows => ?_)
    exact issueTokens_leads (hfollows.keyed hdrawn) (hnew _ ht.1)
  · exact .throw

/-- A login, where sessions may be opened for the account that is found. -/
theorem login_leads (hs : s.Keyed) {email : String}
    (hmay : ∀ a, s.accounts.find? (fun a => a.email = email ∧ a.isActive = true) = some a → mayAct a.id)
    (verified : Bool) : Leads env mayAct (login env email verified) s := by
  refine .get_bind ?_
  split
  · exact .throw
  · rename_i a ha
    split
    · have hupdate : Leads env mayAct (updateRow env "users" a.id [("last_login_at", .timestamptz s.now)]) s := by
        refine updateUsers_leads rfl fun row _ => ?_
        rw [get_changed_of_none rfl, get_changed_of_none rfl]
        exact ⟨rfl, .rfl⟩
      exact .seq hupdate fun _ t hfollows => issueTokens_leads (hfollows.keyed hs) (hmay a ha)
    · exact .throw

/-- A refresh, where sessions may be opened for the account of the session that is found. -/
theorem refresh_leads (hs : s.Keyed) {refreshToken : String}
    (hmay : ∀ x, s.sessions.find? (fun x => x.token = refreshToken ∧ x.isRevoked = false) = some x → mayAct x.userId) :
    Leads env mayAct (refresh env refreshToken) s := by
  refine .get_bind ?_
  split
  · rename_i session row hsession _
    split
    · split
      · exact .throw
      · rename_i user huser
        refine .draw_bind (.seq (updateSessions_leads rfl rfl) fun _ t hfollows => ?_)
        refine issue_leads (reads_sign env) fun x' hx' hxid => ?_
        rcases hfollows.sessions x' hx' with ⟨x, hx, hid, hxuser⟩ | hmayact
        · rw [← hxuser, hs.session_eq hx (List.mem_of_find?_eq_some hsession) (hid.trans hxid)]
          exact hmay session hsession
        · exact hmayact
    · exact .throw
  · exact .throw

theorem authenticated_ends {token : Option Token} (s : PlatformState Token) :
    Ends (authenticated env token) s (fun user t => token.bind (s.auth.verifyToken env.tokens) = some user ∧ t = s)
      fun _ t => t = s := by
  unfold authenticated
  refine (get_ends s).bind ?_
  rintro _ _ ⟨rfl, rfl⟩
  split
  · rename_i user huser
    exact Ends.pure ⟨huser, rfl⟩
  · exact Ends.throw rfl

theorem logout_leads (token : Option Token) : Leads env mayAct (logout env token) s := by
  refine Ends.bind ((authenticated_ends s).mono (fun _ _ h => h) ?_) ?_
  · rintro _ _ rfl
    exact .refl _
  · rintro user _ ⟨-, rfl⟩
    split
    · exact updateSessions_leads rfl rfl
    · exact Leads.throw

/-- A login with a provider. The identifier of its token is that of no session, and that of an account that it makes is
never one of a session. -/
theorem oauth_leads (hs : s.Keyed) (hunforeseen : s.Unforeseen env) (info : Auth.OAuthUserInfo) :
    Leads env mayAct (oauth env info) s := by
  have hissue : ∀ {t : PlatformState Token} {userId email role : String}, t.sessions = s.sessions → s.drawn ≤ t.drawn →
      Leads env mayAct (issue env.tokens.signOAuth userId email role (env.ids.draw t.drawn))
        { t with drawn := t.drawn + 1 } := by
    intro t userId email role hsessions hdrawn
    refine issue_leads (fun claims claims' h => env.tokens.reads_signOAuth claims claims' h) fun x hx hxid => ?_
    exact absurd hxid (hunforeseen _ hdrawn x (hsessions ▸ hx))
  refine .get_bind ?_
  split
  · exact .draw_bind (hissue rfl (Nat.le_refl _))
  · have hviewer : ¬env.Exceeds (env.role "viewer") := by
      have hrole : env.role "viewer" = .viewer := UserRole.ofText_text env.lower_text .viewer
      rw [hrole]
      exact UserRole.not_viewer_above _
    have hdrawn : ({ s with drawn := s.drawn + 1 } : PlatformState Token).Keyed := hs
    refine .draw_bind (.bind (insertUser_ends hdrawn hviewer) fun _ t ht _ => .draw_bind (hissue ht.2.1 ?_))
    rw [ht.2.2]
    exact Nat.le_succ _

theorem letIn_leads (request : Request) : Leads env mayAct (letIn request) s :=
  Ends.of_result (.of_tables id rfl rfl rfl)

theorem graphql_leads (token : Option Token) (tenantId : Option String) :
    Leads env mayAct (graphql env token tenantId) s := by
  refine Ends.bind ((authenticated_ends s).mono (fun _ _ h => h) ?_) ?_
  · rintro _ _ rfl
    exact .refl _
  · rintro user _ ⟨-, rfl⟩
    exact letIn_leads _

theorem connect_leads (token : Option Token) (tenant : Option String) :
    Leads env mayAct (connect env token tenant) s := by
  refine Ends.bind ((authenticated_ends s).mono (fun _ _ h => h) ?_) ?_
  · rintro _ _ rfl
    exact .refl _
  · rintro user _ ⟨-, rfl⟩
    exact letIn_leads _

/-! ## Fields -/

theorem resolve_ends {α : Type} {resolver : GraphQL.Resolver α} {P : Client.World → Prop}
    (h : Ends resolver s.world (fun _ w => P w) fun _ w => P w) :
    Ends (resolve resolver) s (fun _ t => ∃ w, P w ∧ t = { s with world := w })
      fun _ t => ∃ w, P w ∧ t = { s with world := w } := by
  apply Ends.of_result
  unfold resolve
  cases hresult : resolver s.world with
  | ok a w => exact ⟨w, h.ok hresult, rfl⟩
  | error e w => exact ⟨w, h.error hresult, rfl⟩

/-- A query leaves the store as it is. -/
theorem query_kept {client : Client.Env} {scope : Client.Scope} {ctx : GraphQL.Ctx} (q : GraphQL.RecordQuery)
    (w : Client.World) :
    Ends (q.run client scope ctx) w (fun _ w' => w'.store = w.store) fun _ w' => w'.store = w.store := by
  have haccess : ∀ modelName, Ends (GraphQL.checkAccess client.schema modelName "read" ctx) w (fun _ w' => w' = w)
      fun _ w' => w'.store = w.store := fun modelName => GraphQL.checkAccess_ends fun _ => rfl
  cases q with
  | records modelName where_ orderBy limit offset =>
    refine Ends.bind (Q := fun _ w' => w'.store = w.store) ((haccess modelName).bind ?_) fun _ _ h => Ends.pure h
    rintro _ _ rfl
    exact (GraphQL.call_ends (Client.findMany_ends _) fun _ _ h => h).bind fun _ _ h => Ends.pure h.1
  | deletedRecords modelName where_ orderBy limit offset =>
    refine Ends.bind (Q := fun _ w' => w'.store = w.store) ((haccess modelName).bind ?_) fun _ _ h => Ends.pure h
    rintro _ _ rfl
    refine (GraphQL.call_ends (Client.findDeleted_ends _) fun _ _ h => h).bind fun _ w' h => ?_
    refine (GraphQL.callOr_ends (Client.countDeleted_ends _) fun _ _ h => h).bind fun _ _ h' => ?_
    exact Ends.pure (h'.trans h.1)
  | record modelName id =>
    refine Ends.bind (Q := fun _ w' => w'.store = w.store) ((haccess modelName).bind ?_) fun _ _ h => Ends.pure h
    rintro _ _ rfl
    exact (GraphQL.call_ends (Client.findUnique_ends _) fun _ _ h => h).bind fun _ _ h => Ends.pure h.1
  | paginatedRecords modelName where_ orderBy limit offset =>
    refine Ends.bind (Q := fun _ w' => w'.store = w.store) ((haccess modelName).bind ?_) fun _ _ h => Ends.pure h
    rintro _ _ rfl
    refine (GraphQL.call_ends (Client.findMany_ends _) fun _ _ h => h).bind fun _ w' h => ?_
    refine (GraphQL.callOr_ends (Client.count_ends _) fun _ _ h => h).bind fun _ _ h' => ?_
    exact Ends.pure (h'.trans h.1)

/-- A mutation performs some writes on its model, whatever it ends with. -/
theorem mutation_performs {client : Client.Env} {scope : Client.Scope} {ctx : GraphQL.Ctx} {modelName : String}
    (m : GraphQL.Mutation) (w : Client.World) :
    Ends (m.run client scope ctx modelName) w
      (fun _ w' => ∃ writes, GraphQL.Mutation.Performs client scope modelName writes w w')
      fun _ w' => ∃ writes, GraphQL.Mutation.Performs client scope modelName writes w w' :=
  (GraphQL.Mutation.run_performs m w).mono (fun _ _ h => ⟨_, h⟩) fun _ _ h => ⟨h.choose, h.choose_spec.2⟩

theorem resolve_leads {α : Type} {resolver : GraphQL.Resolver α}
    (h : Ends resolver s.world
      (fun _ w => ∀ name ∈ ["users", "sessions"], w.store.tables name = s.world.store.tables name)
      fun _ w => ∀ name ∈ ["users", "sessions"], w.store.tables name = s.world.store.tables name) :
    Leads env mayAct (resolve resolver) s := by
  have hfollows : ∀ t, (∃ w : Client.World, (∀ name ∈ ["users", "sessions"], w.store.tables name = s.table name) ∧
      t = { s with world := w }) → Follows env mayAct s t := by
    rintro _ ⟨w, htables, rfl⟩
    refine .of_tables (fun hs name hname => ?_) ?_ ?_ rfl
    · show (w.store.tables name).primaryKey = some "id" ∧ (w.store.tables name).keysHold = true
      rw [htables name hname]
      exact hs name hname
    · exact congrArg (fun table : Table => table.rows.filterMap accountOf) (htables "users" (List.mem_cons_self ..))
    · exact congrArg (fun table : Table => table.rows.filterMap sessionOf)
        (htables "sessions" (List.mem_cons_of_mem _ (List.mem_singleton_self _)))
  exact (resolve_ends h).mono (fun _ t => hfollows t) fun _ t => hfollows t

/-- No two addresses of `users` are the same. -/
theorem email_ne_of_append {table : Table} {row other : Row}
    (h : emailsDistinct { table with rows := table.rows ++ [row] } = true) (hother : other ∈ table.rows)
    (hrow : row.get "email" ≠ .null) : other.get "email" ≠ row.get "email" := by
  intro heq
  unfold emailsDistinct at h
  rw [decide_eq_true_eq, List.map_append, List.filter_append, List.nodup_append] at h
  refine h.2.2 (other.get "email") ?_ (row.get "email") ?_ heq
  · rw [List.mem_filter]
    exact ⟨List.mem_map_of_mem hother, by rw [heq]; exact decide_eq_true hrow⟩
  · rw [List.mem_filter]
    exact ⟨List.mem_singleton_self _, decide_eq_true hrow⟩

theorem createUser_leads (hs : s.Keyed) {email : String} {firstName lastName : Option String} {role : UserRole}
    (h : (Field.createUser email firstName lastName role).Harmless env s) :
    Leads env mayAct (createUser env email firstName lastName role) s := by
  have hdrawn : ({ s with drawn := s.drawn + 1 } : PlatformState Token).Keyed := hs
  refine .draw_bind (.get_bind ?_)
  split
  · rename_i first last
    rcases h with hgrants | hfirst | hlast | ⟨other, hother, hemail⟩
    · have hrole : ¬env.Exceeds (env.role role.text) := by
        unfold PlatformEnv.role
        rwa [UserRole.ofText_text env.lower_text]
      exact (insertUser_ends hdrawn hrole).mono (fun _ _ h => h.2) fun _ _ h => h
    · cases hfirst
    · cases hlast
    · refine (insertRow_ends _).mono ?_ ?_
      · rintro _ t ⟨row, hrow, hconstraints, -⟩
        have hget : row.get "email" = .text email := hrow "email" _ rfl
        have hdistinct := (Bool.and_eq_true_iff.1 hconstraints).2
        have hset : row.get "email" ≠ .null := by
          rw [hget]
          exact SqlValue.noConfusion
        exact absurd (hemail.trans hget.symm) (email_ne_of_append hdistinct hother hset)
      · rintro _ t rfl
        exact .ticked _
  · exact .throw

/-- What `update_user` sets is what it is given. -/
theorem lookup?_userSets {now : Int} {email firstName lastName : Option String} {role : Option UserRole}
    {isActive : Option Bool} {column : String} {value : SqlValue}
    (h : lookup? column (userSets now email firstName lastName role isActive) = some value) :
    column ≠ "id" ∧ (column = "role" → ∃ r, role = some r ∧ value = .text r.text) ∧
      (column = "is_active" → ∃ b, isActive = some b ∧ value = .boolean b) := by
  have hmem := mem_of_lookup? h
  unfold userSets at hmem
  obtain ⟨given, hgiven, heq⟩ := List.mem_filterMap.1 hmem
  have hsome : given = some (column, value) := heq
  subst hsome
  simp only [List.mem_cons, List.not_mem_nil, or_false, eq_comm (a := some (column, value)), Option.map_eq_some_iff,
    Prod.mk.injEq, Option.some.injEq] at hgiven
  rcases hgiven with ⟨_, _, rfl, _⟩ | ⟨_, _, rfl, _⟩ | ⟨_, _, rfl, _⟩ | ⟨r, hr, rfl, hvalue⟩ | ⟨b, hb, rfl, hvalue⟩ |
    ⟨rfl, _⟩
  · simp
  · simp
  · simp
  · exact ⟨by simp, fun _ => ⟨r, hr, hvalue.symm⟩, by simp⟩
  · exact ⟨by simp, by simp, fun _ => ⟨b, hb, hvalue.symm⟩⟩
  · simp

theorem updateUser_leads {userId : String} {email firstName lastName : Option String} {role : Option UserRole}
    {isActive : Option Bool} (h : (Field.updateUser userId email firstName lastName role isActive).Harmless env s) :
    Leads env mayAct (updateUser env userId email firstName lastName role isActive) s := by
  refine .get_bind ?_
  split
  · rename_i id hparse
    have hid : lookup? "id" (userSets s.now email firstName lastName role isActive) = none := by
      rw [Option.eq_none_iff_forall_ne_some]
      exact fun value hvalue => (lookup?_userSets hvalue).1 rfl
    refine updateUsers_leads hid fun row hrow => ?_
    unfold changed
    split
    · rename_i hrowId
      obtain ⟨a, ha, haid, harole, hactive⟩ := accountOf_of_id hrowId
      obtain ⟨hsameRole, hsameFlag⟩ := h id a hparse (PlatformState.mem_accounts.2 ⟨row, hrow, ha⟩) haid
      constructor
      · rcases row.get_update_cases (userSets s.now email firstName lastName role isActive) "role" with hkept | hset
        · rw [hkept]
        · obtain ⟨r, hr, hvalue⟩ := (lookup?_userSets hset).2.1 rfl
          rw [hvalue, ← harole, ← hsameRole r hr]
          rfl
      · rcases row.get_update_cases (userSets s.now email firstName lastName role isActive) "is_active" with hkept | hset
        · rw [hkept]
        · obtain ⟨b, hb, hvalue⟩ := (lookup?_userSets hset).2.2 rfl
          rw [hvalue, hsameFlag b hb, hactive, SqlValue.boolean.injEq, decide_eq_true_eq]
    · exact ⟨rfl, .rfl⟩
  · exact .throw

theorem field_leads (hs : s.Keyed) (r : Request) {f : Field} (h : f.Harmless env s) : Leads env mayAct (f.run env r) s := by
  cases f with
  | query q =>
    refine resolve_leads ((query_kept q s.world).mono (fun _ w hw => ?_) fun _ w hw => ?_)
    all_goals
      intro name _
      rw [hw]
  | mutation modelName m =>
    refine resolve_leads ((mutation_performs m s.world).mono (fun _ w hw => ?_) fun _ w hw => ?_)
    all_goals
      obtain ⟨writes, steps, hperformed⟩ := hw
      intro name hname
      refine hperformed.elsewhere fun model hmodel => ?_
      rcases List.mem_cons.1 hname with rfl | hname
      · exact (h model hmodel).1
      · rw [List.mem_singleton.1 hname]
        exact (h model hmodel).2
  | createUser email firstName lastName role => exact createUser_leads hs h
  | updateUser userId email firstName lastName role isActive => exact updateUser_leads h

/-! ## Steps -/

variable (env mayAct s) in
/-- What a step takes to open sessions for certain accounts only and to leave the others as they are. -/
def Needs : PlatformOp Token → Prop
  | .register _ _ => ∀ id, (∀ a ∈ s.accounts, a.id ≠ id) → mayAct id
  | .login email _ =>
    ∀ a, s.accounts.find? (fun a => a.email = email ∧ a.isActive = true) = some a → mayAct a.id
  | .refresh refreshToken =>
    ∀ x, s.sessions.find? (fun x => x.token = refreshToken ∧ x.isRevoked = false) = some x → mayAct x.userId
  | .field i f => ∀ r, s.requests[i]? = some r → f.Harmless env s
  | _ => True

theorem run_leads (hs : s.Keyed) (hunforeseen : s.Unforeseen env) {op : PlatformOp Token} (h : Needs env mayAct s op) :
    Leads env mayAct (op.run env s) s := by
  cases op with
  | wait micros => exact Ends.of_result (.of_tables id rfl rfl rfl)
  | register req accepted => exact register_leads hs h req accepted
  | login email verified => exact login_leads hs h verified
  | refresh refreshToken => exact refresh_leads hs h
  | logout token => exact logout_leads token
  | oauth info => exact oauth_leads hs hunforeseen info
  | graphql token tenantId => exact graphql_leads token tenantId
  | connect token tenant => exact connect_leads token tenant
  | field i f =>
    unfold PlatformOp.run
    dsimp only
    split
    · rename_i r hr
      exact field_leads hs r (h r hr)
    · exact .throw

/-- Every field leaves the tables with their keys. -/
theorem field_keyed (r : Request) (f : Field) :
    Ends (f.run env r) s (fun _ t => s.Keyed → t.Keyed) fun _ t => s.Keyed → t.Keyed := by
  have hstatement : ∀ {t : PlatformState Token} {name : String} {effect : Nat → Table → Option Table},
      (∀ tick table, effect tick (t.table name) = some table → table.primaryKey = (t.table name).primaryKey) →
      Ends (statement env name effect) t (fun _ v => t.Keyed → v.Keyed) fun _ v => t.Keyed → v.Keyed := by
    intro t name effect hprimary
    refine (statement_ends t).mono ?_ ?_
    · rintro _ _ ⟨table, heffect, hconstraints, rfl⟩ ht
      have hticked : t.ticked.Keyed := ht
      exact hticked.setTable (hprimary _ _ heffect) (keysHold_of_constraints hconstraints)
    · rintro _ _ rfl
      exact id
  have hworld : ∀ w : Client.World, (∀ name, (w.store.tables name).primaryKey = (s.table name).primaryKey ∧
      ((s.table name).keysHold = true → (w.store.tables name).keysHold = true)) →
      s.Keyed → ({ s with world := w } : PlatformState Token).Keyed :=
    fun w hw hs name hname => ⟨(hw name).1.trans (hs name hname).1, (hw name).2 (hs name hname).2⟩
  cases f with
  | query q =>
    refine (resolve_ends (query_kept q s.world)).mono ?_ ?_
    all_goals
      rintro _ _ ⟨w, hw, rfl⟩
      refine hworld w fun name => ?_
      rw [hw]
      exact ⟨rfl, id⟩
  | mutation modelName m =>
    refine (resolve_ends (mutation_performs m s.world)).mono ?_ ?_
    all_goals
      rintro _ _ ⟨w, ⟨writes, steps, hperformed⟩, rfl⟩
      exact hworld w hperformed.keysHold
  | createUser email firstName lastName role =>
    refine (draw_ends s).bind ?_
    rintro id _ ⟨-, rfl⟩
    refine (get_ends _).bind ?_
    rintro _ _ ⟨rfl, rfl⟩
    split
    · refine hstatement fun tick table heffect => ?_
      obtain ⟨-, htable⟩ := Option.ite_none_right_eq_some.1 heffect
      cases htable
      rfl
    · exact Ends.throw fun h => h
  | updateUser userId email firstName lastName role isActive =>
    refine (get_ends s).bind ?_
    rintro _ _ ⟨rfl, rfl⟩
    split
    · refine hstatement fun tick table heffect => ?_
      obtain ⟨-, htable⟩ := Option.ite_none_right_eq_some.1 heffect
      cases htable
      rfl
    · exact Ends.throw fun h => h

/-- Every step does. -/
theorem step_keyed (hs : s.Keyed) (hunforeseen : s.Unforeseen env) (op : PlatformOp Token) :
    (endState (op.run env s) s).Keyed := by
  by_cases hfield : ∃ i f, op = .field i f
  · obtain ⟨i, f, rfl⟩ := hfield
    refine Ends.at_end ?_
    unfold PlatformOp.run
    dsimp only
    split
    · exact (field_keyed _ f).mono (fun _ _ h => h hs) fun _ _ h => h hs
    · exact Ends.throw hs
  · have hneeds : Needs env (fun _ => True) s op := by
      cases op with
      | field i f => exact absurd ⟨i, f, rfl⟩ hfield
      | register => exact fun _ _ => trivial
      | login | refresh => exact fun _ _ => trivial
      | wait | logout | oauth | graphql | connect => trivial
    exact Ends.at_end ((run_leads hs hunforeseen hneeds).mono (fun _ _ h => h.keyed hs) fun _ _ h => h.keyed hs)

end

end Server

end Atomo

import Atomo.Server.Effects

/-!
# Containment of privileges

Who may give an account a role, or activate it. The middleware of `/graphql` proves who a request is from, and neither
`create_user` nor `update_user` asks whether that is an administrator; nor does a mutation on a model that is stored in
`users` or in `sessions`. A run whose documents leave these alone, unless they are an administrator's, keeps the roles
of the accounts and gives nobody a session beyond them (`privileges_contained`).
-/

namespace Atomo.Server

open Auth (JwtClaims UserRole)
open Db (Row)

variable {Token : Type} (env : PlatformEnv Token)

/-! ## Containment -/

/-- The accounts there are keep their roles and stay active or inactive, and no account comes to be that has a role above
the one of a registration. -/
structure Contained (s t : PlatformState Token) : Prop where
  kept : ∀ a ∈ s.accounts, ∀ a' ∈ t.accounts, a'.id = a.id → a'.role = a.role ∧ a'.isActive = a.isActive
  created : ∀ a' ∈ t.accounts, (∀ a ∈ s.accounts, a.id ≠ a'.id) → ¬env.Exceeds (env.role a'.role)

/-- The step is one of a request that was authenticated as an administrator. -/
def ByAdmin (s : PlatformState Token) (op : PlatformOp Token) : Prop :=
  ∃ i f r, op = .field i f ∧ s.requests[i]? = some r ∧ r.user.role = .admin

/-- If the account was there at the start, its role then was one of these. -/
def Held (roles : UserRole → Prop) (start : PlatformState Token) (userId : String) : Prop :=
  ∀ a ∈ start.accounts, a.id = userId → roles (env.role a.role)

/-- Whoever takes the step started with one of the roles. -/
def StartedWith (roles : UserRole → Prop) (start s : PlatformState Token) : PlatformOp Token → Prop
  | .login email _ =>
    ∀ a, s.accounts.find? (fun a => a.email = email ∧ a.isActive = true) = some a → Held env roles start a.id
  | .refresh refreshToken =>
    ∀ x, s.sessions.find? (fun x => x.token = refreshToken ∧ x.isRevoked = false) = some x →
      Held env roles start x.userId
  | .field i _ => ∀ r, s.requests[i]? = some r → roles r.user.role
  | _ => True

/-- No token that is returned between the two states is verified with a role other than these. -/
def Within (roles : UserRole → Prop) (s t : PlatformState Token) : Prop :=
  ∃ returned, t.issued = s.issued ++ returned ∧
    ∀ entry ∈ returned, ∀ user, t.auth.verifyToken env.tokens entry.1 = some user → roles user.role

/-- Each step of a run that is not an administrator's contains the privileges; and where none is, those who have started
with certain roles, among them all that a registration could grant, get no session with another. -/
structure PrivilegesContained (s : PlatformState Token) (ops : List (PlatformOp Token)) (t : PlatformState Token) :
    Prop where
  contained : (platform env).AllSteps (fun u op v => ByAdmin u op ∨ Contained env u v) s ops
  sessions : ∀ roles : UserRole → Prop, ¬roles .admin → (∀ role, ¬env.Exceeds role → roles role) →
    (platform env).AllSteps (fun u op _ => StartedWith env roles s u op) s ops → Within env roles s t

/-! ## The condition -/

/-- The fields of documents are harmless, apart from those of administrators. -/
def Guarded (s : PlatformState Token) : PlatformOp Token → Prop
  | .field i f => ∀ r, s.requests[i]? = some r → r.user.role = .admin ∨ f.Harmless env s
  | _ => True

/-! ## Runs -/

section

variable {env} {mayAct : String → Prop} {s t v : PlatformState Token}

theorem keyed_reachable (h : (platform env).Reachable s) : s.Keyed ∧ s.Unforeseen env := by
  have hinductive : (platform env).Inductive fun s => s.Keyed ∧ s.Unforeseen env := by
    refine ⟨fun s hs => ⟨hs.1, hs.2.2.2⟩, ?_⟩
    rintro s op _ ⟨hkeyed, hunforeseen⟩ ⟨rfl, hnext⟩
    exact ⟨step_keyed hkeyed hunforeseen op, hnext⟩
  exact hinductive.reachable h

theorem Follows.contained (hs : s.Keyed) (h : Follows env mayAct s t) : Contained env s t where
  kept a ha a' ha' hid := by
    rcases h.accounts a' ha' with ⟨b, hb, hbid, hrole, hactive⟩ | ⟨hnew, -⟩
    · rw [hs.account_eq hb ha (hbid.trans hid)] at hrole hactive
      exact ⟨hrole.symm, hactive.symm⟩
    · exact absurd hid.symm (hnew a ha)
  created a' ha' hnew := by
    rcases h.accounts a' ha' with ⟨a, ha, hid, -⟩ | ⟨-, hgrants⟩
    · exact absurd hid (hnew a ha)
    · exact hgrants

/-- A token that is returned is verified with the role that its account started with, or with one of a registration. -/
theorem Follows.within {roles : UserRole → Prop} (h : Follows env (Held env roles s) s t)
    (hroles : ∀ role, ¬env.Exceeds role → roles role) : Within env roles s t := by
  obtain ⟨returned, hissued, hall⟩ := h.issued
  refine ⟨returned, hissued, fun entry he user hverified => ?_⟩
  obtain ⟨hreads, hsessions⟩ := hall entry he
  obtain ⟨claims, hdecode, x, hx, hid, -, a, ha, haid, hrole⟩ := Auth.verifyToken_spec hverified
  have hclaims := hreads claims (Auth.decode_eq_some_iff.1 hdecode).1
  have hheld := hsessions x hx (by rw [hid, hclaims])
  rw [hrole]
  rcases h.accounts a ha with ⟨first, hfirst, hfirstId, hfirstRole, -⟩ | ⟨-, hgrants⟩
  · rw [← hfirstRole]
    exact hheld first hfirst (hfirstId.trans haid)
  · exact hroles _ hgrants

theorem step_unique {op : PlatformOp Token} (h : (platform env).step s op t) (h' : (platform env).step s op v) : t = v :=
  h.1.trans h'.1.symm

/-- The runs whose steps all meet a condition. -/
theorem allSteps_iff {C : PlatformState Token → PlatformOp Token → Prop} {ops : List (PlatformOp Token)}
    (r : (platform env).Run s ops t) :
    (platform env).AllSteps (fun u op _ => C u op) s ops ↔ ((platform env).restrict C).Run s ops t :=
  r.allSteps_iff step_unique (C := C) (I := fun _ => True) (fun _ _ _ _ _ => .rfl) (fun _ _ _ _ _ _ => trivial) trivial

/-- In a run whose documents leave `users` and `sessions` alone, unless they are an administrator's, the privileges are
contained. -/
theorem privileges_contained (env : PlatformEnv Token) {s t : PlatformState Token} {ops : List (PlatformOp Token)}
    (hs : (platform env).Reachable s) (r : ((platform env).restrict (Guarded env)).Run s ops t) :
    PrivilegesContained env s ops t := by
  have hguarded := (allSteps_iff r.of_restrict).2 r
  constructor
  · intro before op after u v hops hrun hstep
    obtain ⟨hkeyed, hunforeseen⟩ := keyed_reachable (hs.run hrun)
    by_cases hadmin : ByAdmin u op
    · exact .inl hadmin
    · right
      have hneeds : Needs env (fun _ => True) u op := by
        have hguard := hguarded before op after u v hops hrun hstep
        cases op with
        | field i f =>
          intro r hr
          exact (hguard r hr).resolve_left fun hrole => hadmin ⟨i, f, r, rfl, hr, hrole⟩
        | register => exact fun _ _ => trivial
        | login | refresh => exact fun _ _ => trivial
        | wait | logout | oauth | graphql | connect => trivial
      rw [hstep.1]
      exact Ends.at_end ((run_leads hkeyed hunforeseen hneeds).mono (fun _ _ h => h.contained hkeyed)
        fun _ _ h => h.contained hkeyed)
  · intro roles hadmin hroles hstarted
    have hboth : ((platform env).restrict fun u op => Guarded env u op ∧ StartedWith env roles s u op).Run s ops t :=
      (allSteps_iff r.of_restrict).1 fun before op after u v hops hrun hstep =>
        ⟨hguarded before op after u v hops hrun hstep, hstarted before op after u v hops hrun hstep⟩
    have hkept : (t.Keyed ∧ t.Unforeseen env) ∧ Follows env (Held env roles s) s t := by
      refine hboth.preserves (P := fun u => (u.Keyed ∧ u.Unforeseen env) ∧ Follows env (Held env roles s) s u) ?_
        ⟨keyed_reachable hs, .refl s⟩
      rintro u op _ ⟨⟨hkeyed, hunforeseen⟩, hfollows⟩ ⟨⟨rfl, hnext⟩, hguard, hstart⟩
      have hneeds : Needs env (Held env roles s) u op := by
        cases op with
        | field i f =>
          intro r hr
          exact (hguard r hr).resolve_left fun hrole => hadmin (hrole ▸ hstart r hr)
        | register =>
          intro id hfresh a ha haid
          obtain ⟨a', ha', hid⟩ := hfollows.stays a ha
          exact absurd (hid.trans haid) (hfresh a' ha')
        | login email verified => exact hstart
        | refresh refreshToken => exact hstart
        | wait | logout | oauth | graphql | connect => trivial
      have hstep : Follows env (Held env roles s) u (endState (op.run env u) u) :=
        Ends.at_end (run_leads hkeyed hunforeseen hneeds)
      exact ⟨⟨step_keyed hkeyed hunforeseen op, hnext⟩, hfollows.trans hstep⟩
    exact hkept.2.within hroles

end

/-! ## A viewer -/

/-- The columns of `users` and of `sessions` that the requests read and write. -/
def platformColumns : String → List (String × Db.ColumnType)
  | "users" => [("id", .text), ("email", .text), ("first_name", .text), ("last_name", .text), ("role", .text),
      ("is_active", .boolean), ("tenant_id", .text), ("last_login_at", .timestamptz), ("created_at", .timestamptz),
      ("updated_at", .timestamptz)]
  | "sessions" => [("id", .text), ("user_id", .text), ("token", .text), ("expires_at", .timestamptz),
      ("is_revoked", .boolean), ("created_at", .timestamptz)]
  | _ => []

def viewerId : String := "01ARZ3NDEKTSV4RRFFQ69G5FAV"

def viewerRow : Row :=
  [("id", .text viewerId), ("email", .text "vera@example.com"), ("first_name", .text "Vera"), ("last_name", .text "Viewer"),
    ("role", .text "viewer"), ("is_active", .boolean true), ("tenant_id", .null), ("last_login_at", .null),
    ("created_at", .timestamptz 0), ("updated_at", .timestamptz 0)]

/-- A platform with one account, of a viewer. -/
def oneViewer : PlatformState JwtClaims where
  now := 0
  drawn := 0
  world := {
    store := {
      tables := fun name => {
        columns := platformColumns name
        primaryKey := some "id"
        rows := if name = "users" then [viewerRow] else [] }
      eventLog := []
      coverage := fun _ => none }
    tick := 0
    trace := [] }
  issued := []
  requests := []

def plainPlatform : PlatformEnv JwtClaims where
  tokens := Auth.plainEnv
  client := .bare { models := [] }
  ids := default
  parseId := some
  registration := ⟨true, "viewer", .none⟩
  lower_text _ := rfl

/-- The token of a login of the viewer. -/
def viewerToken : JwtClaims :=
  oneViewer.auth.claims viewerId "vera@example.com" "viewer" (plainPlatform.ids.draw 0)

theorem unforeseen_of_drawn {env : PlatformEnv Token} {s : PlatformState Token}
    (h : ∀ x ∈ s.sessions, ∃ m, m < s.drawn ∧ x.id = env.ids.draw m) : s.Unforeseen env := by
  intro n hn x hx heq
  obtain ⟨m, hm, hid⟩ := h x hx
  have hmn := env.ids.injective (hid.symm.trans heq)
  omega

theorem reachable_oneViewer : (platform plainPlatform).Reachable oneViewer :=
  .of_init ⟨by unfold PlatformState.Keyed; decide, rfl, rfl, unforeseen_of_drawn (by decide)⟩

/-- The platform after these requests. -/
def after (ops : List (PlatformOp JwtClaims)) : PlatformState JwtClaims :=
  ops.foldl (fun s op => endState (op.run plainPlatform s) s) oneViewer

def viewerLogin : PlatformOp JwtClaims :=
  .login "vera@example.com" true

def viewerRequest : PlatformOp JwtClaims :=
  .graphql (some viewerToken) none

/-- The viewer asks for another role. -/
def promotion : PlatformOp JwtClaims :=
  .field 0 (.updateUser viewerId none none none (some .admin) none)

theorem run_viewerLogin : ((platform plainPlatform).restrict (Guarded plainPlatform)).Run oneViewer [viewerLogin]
    (after [viewerLogin]) :=
  .single ⟨⟨rfl, unforeseen_of_drawn (by decide)⟩, trivial⟩

theorem run_viewerRequest :
    (platform plainPlatform).Run oneViewer [viewerLogin, viewerRequest] (after [viewerLogin, viewerRequest]) :=
  run_viewerLogin.of_restrict.snoc ⟨rfl, unforeseen_of_drawn (by decide)⟩

theorem run_promotion : (platform plainPlatform).Run oneViewer [viewerLogin, viewerRequest, promotion]
    (after [viewerLogin, viewerRequest, promotion]) :=
  run_viewerRequest.snoc ⟨rfl, unforeseen_of_drawn (by decide)⟩

theorem login_contained : PrivilegesContained plainPlatform oneViewer [viewerLogin] (after [viewerLogin]) :=
  privileges_contained plainPlatform reachable_oneViewer run_viewerLogin

/-- A viewer makes itself an administrator. -/
theorem viewer_promoted : ¬∀ (env : PlatformEnv JwtClaims) (s t : PlatformState JwtClaims)
    (ops : List (PlatformOp JwtClaims)), (platform env).Reachable s → (platform env).Run s ops t →
      PrivilegesContained env s ops t := by
  intro h
  have hcontained := (h plainPlatform oneViewer _ _ reachable_oneViewer run_promotion).contained
    [viewerLogin, viewerRequest] promotion [] _ _ rfl run_viewerRequest ⟨rfl, unforeseen_of_drawn (by decide)⟩
  rcases hcontained with ⟨i, f, r, hop, hrequest, hrole⟩ | hcontained
  · cases hop
    have hviewer : (after [viewerLogin, viewerRequest]).requests[0]?.map (fun r => r.user.role) = some .viewer := by decide
    rw [hrequest, Option.map_some, hrole] at hviewer
    cases hviewer
  · have hroles : ∀ a ∈ (after [viewerLogin, viewerRequest]).accounts,
        ∃ a' ∈ (after [viewerLogin, viewerRequest, promotion]).accounts, a'.id = a.id ∧ a'.role ≠ a.role := by decide
    obtain ⟨a, ha⟩ : ∃ a, a ∈ (after [viewerLogin, viewerRequest]).accounts := List.exists_mem_of_ne_nil _ (by decide)
    obtain ⟨a', ha', hid, hne⟩ := hroles a ha
    exact hne (hcontained.kept a ha a' ha' hid).1

end Atomo.Server

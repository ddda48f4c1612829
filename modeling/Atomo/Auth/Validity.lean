import Atomo.Auth.OAuth
import Atomo.Auth.Refresh

/-!
# Valid sessions

`verify_token` beside the operations that issue access tokens, `issue_tokens`, `refresh_access_token` and `issue_jwt`,
and those that end sessions. The session of a token is looked up and so is its user, but not whether the user is active;
a token of `issue_jwt` has no session at all; and `decode` lets a token pass for a minute after it has expired. Apart
from these, a token is verified exactly as long as it is valid (`exact_iff`).
-/

namespace Atomo.Auth

open Jobs (Uuids)

/-! ## Accounts -/

inductive UserRole where
  | admin
  | manager
  | sales
  | support
  | viewer
  deriving DecidableEq

/-- `UserRole::to_string`. -/
def UserRole.text : UserRole → String
  | .admin => "admin"
  | .manager => "manager"
  | .sales => "sales"
  | .support => "support"
  | .viewer => "viewer"

/-- `UserRole::from`, over `str::to_lowercase`. -/
def UserRole.ofText (lower : String → String) (text : String) : UserRole :=
  match lower text with
  | "admin" => .admin
  | "manager" => .manager
  | "sales" => .sales
  | "support" => .support
  | _ => .viewer

/-- A row of `users`, as far as a session depends on it. -/
structure Account where
  id : String
  email : String
  role : String
  isActive : Bool
  tenantId : Option String
  deriving DecidableEq

structure AuthUser where
  id : String
  email : String
  role : UserRole
  sessionId : String
  tenantId : Option String

/-! ## Tokens -/

/-- What is outside the repository: lower case, and how claims are signed, by the service and by the OAuth manager, whose
secret may be another. A token is read as the claims that were signed; one that does not have the signature of the
service is not read. -/
structure AuthEnv (Token : Type) where
  lower : String → String
  sign : JwtClaims → Token
  signOAuth : JwtClaims → Token
  reads : Token → Option JwtClaims
  reads_sign : ∀ claims, reads (sign claims) = some claims
  reads_signOAuth : ∀ claims claims', reads (signOAuth claims) = some claims' → claims' = claims

/-- `DateTime::timestamp` of an instant in microseconds. -/
def seconds (micros : Int) : Int :=
  micros / 1000000

variable {Token : Type}

/-- `decode` with `Validation::new`, whose leeway is a minute. -/
def AuthEnv.decode (env : AuthEnv Token) (now : Int) (token : Token) : Option JwtClaims :=
  (env.reads token).filter fun claims => seconds now ≤ claims.exp + 60

/-! ## The operations -/

/-- The tables, and the access tokens that have been returned, with their claims. -/
structure AuthState (Token : Type) where
  now : Int
  drawn : Nat
  users : List Account
  sessions : List Session
  issued : List (Token × JwtClaims)

namespace AuthState

variable (env : AuthEnv Token) (u : Uuids) (s : AuthState Token)

/-- The claims of a token that is issued now. -/
def claims (userId email role jti : String) : JwtClaims where
  sub := userId
  email := email
  role := role
  exp := seconds (s.now + sessionMicros)
  iat := seconds s.now
  jti := jti

/-- `issue_tokens`. -/
def issueTokens (userId email role : String) : AuthState Token :=
  let claims := s.claims userId email role (u.draw s.drawn)
  { s with
    drawn := s.drawn + 2
    sessions := s.sessions ++ [{
      id := u.draw s.drawn
      userId
      token := u.draw (s.drawn + 1)
      expiresAt := s.now + sessionMicros
      isRevoked := false }]
    issued := s.issued ++ [(env.sign claims, claims)] }

/-- `INSERT INTO users` of a new account. -/
def insertUser (email role : String) (tenantId : Option String) : AuthState Token :=
  { s with
    drawn := s.drawn + 1
    users := s.users ++ [{ id := u.draw s.drawn, email, role, isActive := true, tenantId }] }

/-- `create_user`. -/
def createUser (email : String) (role : UserRole) : AuthState Token :=
  if email ∈ s.users.map Account.email then s else s.insertUser u email role.text none

/-- `register`, with the tenant that the policy has for an id. -/
def register (email role : String) (tenant : String → Option String) : AuthState Token :=
  if email ∈ s.users.map Account.email then s
  else (s.insertUser u email role (tenant (u.draw s.drawn))).issueTokens env u (u.draw s.drawn) email role

/-- `login`, with a password that is verified or not. -/
def login (email : String) (verified : Bool) : AuthState Token :=
  match s.users.find? fun a => a.email = email ∧ a.isActive = true with
  | none => s
  | some a => if verified then s.issueTokens env u a.id a.email (UserRole.ofText env.lower a.role).text else s

/-- `refresh_access_token`. -/
def refresh (refreshToken : String) : Option (AuthState Token) := do
  let session ← s.sessions.find? fun x => x.token = refreshToken ∧ x.isRevoked = false
  let row ← s.sessions.find? fun x => x.token = refreshToken
  if s.now < row.expiresAt then
    let user ← s.users.find? fun a => a.id = session.userId
    let claims := s.claims user.id user.email user.role session.id
    some { s with
      drawn := s.drawn + 1
      sessions := Table.update (·.id = session.id) (Session.rotate (u.draw s.drawn) s.now) s.sessions
      issued := s.issued ++ [(env.sign claims, claims)] }
  else none

/-- `issue_jwt`. -/
def issueJwt (userId email role : String) : AuthState Token :=
  let claims := s.claims userId email role (u.draw s.drawn)
  { s with
    drawn := s.drawn + 1
    issued := s.issued ++ [(env.signOAuth claims, claims)] }

/-- The end of `oauth_callback`: `find_or_create_user` and `issue_jwt`. -/
def oauth (info : OAuthUserInfo) : AuthState Token :=
  match s.users.find? fun a => a.email = info.address with
  | some a => s.issueJwt env u a.id a.email a.role
  | none => (s.insertUser u info.address "viewer" none).issueJwt env u (u.draw s.drawn) info.address "viewer"

/-- `update_user`, which fails where the address is that of another account. -/
def updateUser (userId : String) (email : Option String) (role : Option UserRole) (isActive : Option Bool) :
    AuthState Token :=
  let users := Table.update (·.id = userId) (fun a => { a with
    email := email.getD a.email
    role := (role.map UserRole.text).getD a.role
    isActive := isActive.getD a.isActive }) s.users
  if (users.map Account.email).Nodup then { s with users } else s

/-- `validate_session`. -/
def validateSession (token : Token) : Option Account := do
  let claims ← env.decode s.now token
  let session ← s.sessions.find? fun x => x.id = claims.jti ∧ s.now < x.expiresAt ∧ x.isRevoked = false
  s.users.find? fun a => a.id = session.userId

/-- `verify_token`. -/
def verifyToken (token : Token) : Option AuthUser := do
  let claims ← env.decode s.now token
  let user ← s.validateSession env token
  return {
    id := user.id
    email := user.email
    role := .ofText env.lower user.role
    sessionId := claims.jti
    tenantId := (s.users.find? fun a => a.id = user.id).bind (·.tenantId) }

end AuthState

/-- An operation, or time that passes. That a row of `users` is deleted is the doing of an operator. -/
inductive AuthOp where
  | wait (micros : Nat)
  | createUser (email : String) (role : UserRole)
  | register (email role : String) (tenant : String → Option String)
  | login (email : String) (verified : Bool)
  | refresh (refreshToken : String)
  | oauth (info : OAuthUserInfo)
  | revokeSession (sessionId : String)
  | deactivateUser (userId : String)
  | updateUser (userId : String) (email : Option String) (role : Option UserRole) (isActive : Option Bool)
  | deleteUser (userId : String)

/-- The state after an operation, which is as before where the operation fails. -/
def AuthState.step (env : AuthEnv Token) (u : Uuids) (s : AuthState Token) : AuthOp → AuthState Token
  | .wait micros => { s with now := s.now + micros }
  | .createUser email role => s.createUser u email role
  | .register email role tenant => s.register env u email role tenant
  | .login email verified => s.login env u email verified
  | .refresh refreshToken => (s.refresh env u refreshToken).getD s
  | .oauth info => s.oauth env u info
  | .revokeSession sessionId => { s with sessions := Table.update (·.id = sessionId) Session.revoke s.sessions }
  | .deactivateUser userId =>
    { s with users := Table.update (·.id = userId) (fun a => { a with isActive := false }) s.users }
  | .updateUser userId email role isActive => s.updateUser userId email role isActive
  | .deleteUser userId => { s with users := s.users.filter fun a => a.id ≠ userId }

/-- Runs from empty tables on. -/
def authentications (env : AuthEnv Token) (u : Uuids) : LabelledSystem (AuthState Token) AuthOp where
  init s := s.users = [] ∧ s.sessions = [] ∧ s.issued = []
  step s op t := t = s.step env u op

/-! ## Valid tokens -/

namespace AuthState

variable (env : AuthEnv Token) (u : Uuids) (s : AuthState Token)

/-- The session has not expired and is not revoked. -/
def Live (x : Session) : Prop :=
  s.now < x.expiresAt ∧ x.isRevoked = false

def Expired (claims : JwtClaims) : Prop :=
  claims.exp * 1000000 ≤ s.now

/-- There is an account, and it is active. -/
def Active (userId : String) : Prop :=
  ∃ a ∈ s.users, a.id = userId ∧ a.isActive = true

/-- The token was returned by an operation, neither it nor its session has expired, the session is not revoked, and the
user exists and is active. -/
def Valid (token : Token) : Prop :=
  ∃ claims, (token, claims) ∈ s.issued ∧ ¬s.Expired claims ∧ (∀ x ∈ s.sessions, x.id = claims.jti → s.Live x) ∧
    s.Active claims.sub

/-- The token has the signature of the service for claims that it was not issued with. -/
def Forged (token : Token) : Prop :=
  ∃ claims, env.reads token = some claims ∧ (token, claims) ∉ s.issued

/-- A token that is no forgery is verified exactly if it is valid, and a refresh token is accepted only for a live session
of an active user. -/
structure Exact : Prop where
  verified : ∀ token, ¬s.Forged env token → ((s.verifyToken env token).isSome ↔ s.Valid token)
  refreshed : ∀ refreshToken, (s.refresh env u refreshToken).isSome →
    ∃ x ∈ s.sessions, x.token = refreshToken ∧ s.Live x ∧ s.Active x.userId

/-- No user with a live session has been deactivated, no token that is still good lacks a session, and no token has
expired within the last minute while its session lives on. -/
structure InOrder : Prop where
  active : ∀ x ∈ s.sessions, s.Live x → ∀ a ∈ s.users, a.id = x.userId → a.isActive = true
  sessions : ∀ token claims, (token, claims) ∈ s.issued → ¬s.Expired claims → s.Active claims.sub →
    ∃ x ∈ s.sessions, x.id = claims.jti
  leeway : ∀ token claims, (token, claims) ∈ s.issued → s.Expired claims → seconds s.now ≤ claims.exp + 60 →
    ∀ x ∈ s.sessions, x.id = claims.jti → s.Live x → ∀ a ∈ s.users, a.id ≠ x.userId

end AuthState

/-! ## What the operations keep -/

section

variable {env : AuthEnv Token} {u : Uuids} {s : AuthState Token} {sessions : List Session} {entry : Token × JwtClaims}
  {p : Session → Bool} {f : Session → Session} {x : Session} {token : Token} {claims : JwtClaims}

/-- A token of the service is for a session of its subject. -/
def OfSession (env : AuthEnv Token) (sessions : List Session) (entry : Token × JwtClaims) : Prop :=
  entry.1 = env.sign entry.2 ∧ ∃ x ∈ sessions, x.id = entry.2.jti ∧ x.userId = entry.2.sub

/-- A token of the manager is for an id that no session has. -/
def OfOAuth (env : AuthEnv Token) (u : Uuids) (n : Nat) (sessions : List Session) (entry : Token × JwtClaims) : Prop :=
  entry.1 = env.signOAuth entry.2 ∧ Drawn u n entry.2.jti ∧ ∀ x ∈ sessions, x.id ≠ entry.2.jti

structure AuthState.Sound (env : AuthEnv Token) (u : Uuids) (s : AuthState Token) : Prop where
  users : (s.users.map Account.id).Nodup
  usersDrawn : ∀ id ∈ s.users.map Account.id, Drawn u s.drawn id
  ids : (s.sessions.map Session.id).Nodup
  drawn : ∀ x ∈ s.sessions, Drawn u s.drawn x.id ∧ Drawn u s.drawn x.token
  tokens : ∀ x ∈ s.sessions, ∀ y ∈ s.sessions, x.token = y.token → x.id = y.id
  issued : ∀ entry ∈ s.issued, OfSession env s.sessions entry ∨ OfOAuth env u s.drawn s.sessions entry

theorem eq_of_reads (h : OfSession env sessions entry ∨ OfOAuth env u s.drawn sessions entry)
    (hreads : env.reads entry.1 = some claims) : claims = entry.2 := by
  cases h with
  | inl hsession =>
    rw [hsession.1, env.reads_sign] at hreads
    exact (Option.some.inj hreads).symm
  | inr hoauth =>
    rw [hoauth.1] at hreads
    exact env.reads_signOAuth _ _ hreads

namespace AuthState.Sound

theorem setUsers {users : List Account} (h : s.Sound env u)
    (hids : (users.map Account.id).Sublist (s.users.map Account.id)) :
    ({ s with users } : AuthState Token).Sound env u :=
  ⟨h.users.sublist hids, fun id hid => h.usersDrawn id (hids.subset hid), h.ids, h.drawn, h.tokens, h.issued⟩

theorem insertUser (h : s.Sound env u) (email role : String) (tenantId : Option String) :
    (s.insertUser u email role tenantId).Sound env u := by
  have hle : s.drawn ≤ s.drawn + 1 := Nat.le_succ _
  refine ⟨?_, fun id hid => ?_, h.ids, fun x hx => ⟨(h.drawn x hx).1.mono hle, (h.drawn x hx).2.mono hle⟩, h.tokens,
    fun entry he => ?_⟩
  · dsimp only [AuthState.insertUser]
    rw [List.map_append, List.map_singleton, nodup_append_singleton_iff]
    exact ⟨h.users, fun hmem => (h.usersDrawn _ hmem).ne (Nat.le_refl _) rfl⟩
  · dsimp only [AuthState.insertUser] at hid
    rw [List.map_append, List.map_singleton] at hid
    cases List.mem_append.1 hid with
    | inl hold => exact (h.usersDrawn id hold).mono hle
    | inr hnew => exact ⟨s.drawn, Nat.lt_succ_self _, List.mem_singleton.1 hnew⟩
  · exact (h.issued entry he).imp id fun hoauth => ⟨hoauth.1, hoauth.2.1.mono hle, hoauth.2.2⟩

theorem issue (h : s.Sound env u) (he : OfSession env s.sessions entry ∨ OfOAuth env u s.drawn s.sessions entry) :
    ({ s with issued := s.issued ++ [entry] } : AuthState Token).Sound env u := by
  refine ⟨h.users, h.usersDrawn, h.ids, h.drawn, h.tokens, fun other hother => ?_⟩
  cases List.mem_append.1 hother with
  | inl hold => exact h.issued other hold
  | inr hnew =>
    rw [List.mem_singleton.1 hnew]
    exact he

/-- Identifiers are drawn that nothing has yet. -/
theorem draw (h : s.Sound env u) {n : Nat} (hle : s.drawn ≤ n) : ({ s with drawn := n } : AuthState Token).Sound env u :=
  ⟨h.users, fun id hid => (h.usersDrawn id hid).mono hle, h.ids,
    fun x hx => ⟨(h.drawn x hx).1.mono hle, (h.drawn x hx).2.mono hle⟩, h.tokens,
    fun entry he => (h.issued entry he).imp id fun hoauth => ⟨hoauth.1, hoauth.2.1.mono hle, hoauth.2.2⟩⟩

theorem addSession (h : s.Sound env u) (userId : String) (expiresAt : Int) :
    ({ s with
      drawn := s.drawn + 2
      sessions := s.sessions ++ [{
        id := u.draw s.drawn, userId, token := u.draw (s.drawn + 1), expiresAt, isRevoked := false }] } :
      AuthState Token).Sound env u := by
  have hle : s.drawn ≤ s.drawn + 2 := Nat.le_add_right _ _
  have hdraw := h.draw hle
  refine ⟨hdraw.users, hdraw.usersDrawn, ?_, fun x hx => ?_, fun x hx y hy hsame => ?_, fun entry he => ?_⟩
  · rw [List.map_append, List.map_singleton, nodup_append_singleton_iff]
    refine ⟨h.ids, fun hmem => ?_⟩
    obtain ⟨x, hx, hid⟩ := List.mem_map.1 hmem
    exact (h.drawn x hx).1.ne (Nat.le_refl _) hid
  · cases List.mem_append.1 hx with
    | inl hold => exact hdraw.drawn x hold
    | inr hnew =>
      rw [List.mem_singleton.1 hnew]
      exact ⟨⟨s.drawn, by simp, rfl⟩, ⟨s.drawn + 1, by simp, rfl⟩⟩
  · cases List.mem_append.1 hx with
    | inl hold =>
      cases List.mem_append.1 hy with
      | inl hold' => exact h.tokens x hold y hold' hsame
      | inr hnew' =>
        rw [List.mem_singleton.1 hnew'] at hsame
        exact absurd hsame ((h.drawn x hold).2.ne (Nat.le_succ _))
    | inr hnew =>
      rw [List.mem_singleton.1 hnew] at hsame ⊢
      cases List.mem_append.1 hy with
      | inl hold' => exact absurd hsame.symm ((h.drawn y hold').2.ne (Nat.le_succ _))
      | inr hnew' => rw [List.mem_singleton.1 hnew']
  · cases h.issued entry he with
    | inl hsession =>
      obtain ⟨hsign, x, hx, hkeys⟩ := hsession
      exact .inl ⟨hsign, x, List.mem_append_left _ hx, hkeys⟩
    | inr hoauth =>
      refine .inr ⟨hoauth.1, hoauth.2.1.mono hle, fun x hx => ?_⟩
      cases List.mem_append.1 hx with
      | inl hold => exact hoauth.2.2 x hold
      | inr hnew =>
        rw [List.mem_singleton.1 hnew]
        exact (hoauth.2.1.ne (Nat.le_refl _)).symm

theorem issueTokens (h : s.Sound env u) (userId email role : String) :
    (s.issueTokens env u userId email role).Sound env u := by
  refine (h.addSession userId (s.now + sessionMicros)).issue (.inl ⟨rfl, ?_⟩)
  exact ⟨_, List.mem_append_right _ (List.mem_singleton_self _), rfl, rfl⟩

theorem issueJwt (h : s.Sound env u) (userId email role : String) : (s.issueJwt env u userId email role).Sound env u := by
  refine (h.draw (Nat.le_succ _)).issue (.inr ⟨rfl, ⟨s.drawn, Nat.lt_succ_self _, rfl⟩, fun x hx => ?_⟩)
  exact (h.drawn x hx).1.ne (Nat.le_refl _)

/-- Sessions that are rewritten keep their ids and their users. -/
theorem rewrite (h : s.Sound env u) {n : Nat} (hle : s.drawn ≤ n) (hf : ∀ x, (f x).id = x.id ∧ (f x).userId = x.userId)
    (hdrawn : ∀ x ∈ Table.update p f s.sessions, Drawn u n x.token)
    (htokens : ∀ x ∈ Table.update p f s.sessions, ∀ y ∈ Table.update p f s.sessions, x.token = y.token → x.id = y.id) :
    ({ s with drawn := n, sessions := Table.update p f s.sessions } : AuthState Token).Sound env u := by
  have hids : (Table.update p f s.sessions).map Session.id = s.sessions.map Session.id :=
    Table.map_update fun x => (hf x).1
  have hid : ∀ x ∈ Table.update p f s.sessions, ∃ x₀ ∈ s.sessions, x₀.id = x.id := by
    intro x hx
    have hmem : x.id ∈ s.sessions.map Session.id := hids ▸ List.mem_map_of_mem hx
    exact List.mem_map.1 hmem
  have hdraw := h.draw hle
  refine ⟨hdraw.users, hdraw.usersDrawn, hids ▸ h.ids, fun x hx => ⟨?_, hdrawn x hx⟩, htokens, fun entry he => ?_⟩
  · obtain ⟨x₀, h₀, hsame⟩ := hid x hx
    exact hsame ▸ (hdraw.drawn x₀ h₀).1
  · cases hdraw.issued entry he with
    | inl hsession =>
      obtain ⟨hsign, x, hx, hjti, hsub⟩ := hsession
      refine .inl ⟨hsign, ?_⟩
      cases hp : p x with
      | true => exact ⟨f x, Table.mem_update_of hx hp, (hf x).1.trans hjti, (hf x).2.trans hsub⟩
      | false => exact ⟨x, Table.mem_update_of_not hx hp, hjti, hsub⟩
    | inr hoauth =>
      refine .inr ⟨hoauth.1, hoauth.2.1, fun x hx => ?_⟩
      obtain ⟨x₀, h₀, hsame⟩ := hid x hx
      exact hsame ▸ hoauth.2.2 x₀ h₀

theorem revoke (h : s.Sound env u) (p : Session → Bool) :
    ({ s with sessions := Table.update p Session.revoke s.sessions } : AuthState Token).Sound env u := by
  refine h.rewrite (Nat.le_refl _) (fun _ => ⟨rfl, rfl⟩) (fun x hx => ?_) fun x hx y hy hsame => ?_
  · obtain ⟨x₀, h₀, -, htoken⟩ := mem_revoke hx
    exact htoken ▸ (h.drawn x₀ h₀).2
  · obtain ⟨x₀, h₀, hid, htoken⟩ := mem_revoke hx
    obtain ⟨y₀, k₀, hid', htoken'⟩ := mem_revoke hy
    rw [hid, hid']
    exact h.tokens x₀ h₀ y₀ k₀ (by rw [← htoken, ← htoken', hsame])

theorem rotate (h : s.Sound env u) (sessionId : String) :
    ({ s with
      drawn := s.drawn + 1
      sessions := Table.update (·.id = sessionId) (Session.rotate (u.draw s.drawn) s.now) s.sessions } :
      AuthState Token).Sound env u := by
  refine h.rewrite (Nat.le_succ _) (fun _ => ⟨rfl, rfl⟩) (fun x hx => ?_) fun x hx y hy hsame => ?_
  · rcases mem_rotate hx with ⟨hmem, -⟩ | ⟨htoken, -⟩
    · exact (h.drawn x hmem).2.mono (Nat.le_succ _)
    · exact ⟨s.drawn, Nat.lt_succ_self _, htoken⟩
  · rcases mem_rotate hx with ⟨hmem, -⟩ | ⟨htoken, hid⟩
    · rcases mem_rotate hy with ⟨hmem', -⟩ | ⟨htoken', -⟩
      · exact h.tokens x hmem y hmem' hsame
      · exact absurd (hsame.trans htoken') ((h.drawn x hmem).2.ne (Nat.le_refl _))
    · rcases mem_rotate hy with ⟨hmem', -⟩ | ⟨-, hid'⟩
      · exact absurd (hsame.symm.trans htoken) ((h.drawn y hmem').2.ne (Nat.le_refl _))
      · rw [hid, hid']

end AuthState.Sound

/-- A refresh that is accepted rotates the session of the token, for its user. -/
theorem refresh_spec {refreshToken : String} {t : AuthState Token} (h : s.refresh env u refreshToken = some t) :
    ∃ x ∈ s.sessions, x.token = refreshToken ∧ x.isRevoked = false ∧
      (∃ row ∈ s.sessions, row.token = refreshToken ∧ s.now < row.expiresAt) ∧
      ∃ a ∈ s.users, a.id = x.userId ∧
        t = { s with
          drawn := s.drawn + 1
          sessions := Table.update (·.id = x.id) (Session.rotate (u.draw s.drawn) s.now) s.sessions
          issued := s.issued ++ [(env.sign (s.claims a.id a.email a.role x.id), s.claims a.id a.email a.role x.id)] } := by
  unfold AuthState.refresh at h
  simp only [Option.bind_eq_bind, Option.bind_eq_some_iff, Option.ite_none_right_eq_some] at h
  obtain ⟨x, hx, row, hrow, hexpires, a, ha, ht⟩ := h
  have hkeys := List.find?_some hx
  have htoken := List.find?_some hrow
  have hid := List.find?_some ha
  rw [decide_eq_true_iff] at hkeys htoken hid
  exact ⟨x, List.mem_of_find?_eq_some hx, hkeys.1, hkeys.2, ⟨row, List.mem_of_find?_eq_some hrow, htoken, hexpires⟩,
    a, List.mem_of_find?_eq_some ha, hid, (Option.some.inj ht).symm⟩

theorem AuthState.Sound.refresh (h : s.Sound env u) {refreshToken : String} {t : AuthState Token}
    (ht : s.refresh env u refreshToken = some t) : t.Sound env u := by
  obtain ⟨x, hx, -, -, -, a, -, huser, rfl⟩ := refresh_spec ht
  obtain ⟨y, hy, hid, huser'⟩ : ∃ y ∈ Table.update (fun y : Session => decide (y.id = x.id))
      (Session.rotate (u.draw s.drawn) s.now) s.sessions, y.id = x.id ∧ y.userId = x.userId :=
    ⟨_, Table.mem_update_of hx (decide_eq_true rfl), rfl, rfl⟩
  exact (h.rotate x.id).issue (.inl ⟨rfl, y, hy, hid, huser'.trans huser.symm⟩)

theorem AuthState.Sound.step (h : s.Sound env u) (op : AuthOp) : (s.step env u op).Sound env u := by
  cases op with
  | wait micros => exact ⟨h.users, h.usersDrawn, h.ids, h.drawn, h.tokens, h.issued⟩
  | createUser email role =>
    unfold AuthState.step AuthState.createUser
    dsimp only
    split
    · exact h
    · exact h.insertUser _ _ _
  | register email role tenant =>
    unfold AuthState.step AuthState.register
    dsimp only
    split
    · exact h
    · exact (h.insertUser _ _ _).issueTokens _ _ _
  | login email verified =>
    unfold AuthState.step AuthState.login
    dsimp only
    split
    · exact h
    · split
      · exact h.issueTokens _ _ _
      · exact h
  | refresh refreshToken =>
    unfold AuthState.step
    dsimp only
    cases ht : s.refresh env u refreshToken with
    | none => exact h
    | some t => exact h.refresh ht
  | oauth info =>
    unfold AuthState.step AuthState.oauth
    dsimp only
    split
    · exact h.issueJwt _ _ _
    · exact (h.insertUser _ _ _).issueJwt _ _ _
  | revokeSession sessionId => exact h.revoke _
  | deactivateUser userId =>
    refine h.setUsers ?_
    rw [Table.map_update (f := fun a : Account => { a with isActive := false }) fun _ => rfl]
  | updateUser userId email role isActive =>
    unfold AuthState.step AuthState.updateUser
    dsimp only
    split
    · refine h.setUsers ?_
      rw [Table.map_update]
      exact fun _ => rfl
    · exact h
  | deleteUser userId => exact h.setUsers (List.filter_sublist.map _)

theorem sound_authentications (env : AuthEnv Token) (u : Uuids) :
    (authentications env u).Inductive (AuthState.Sound env u) where
  init s hs := by
    obtain ⟨husers, hsessions, hissued⟩ := hs
    constructor <;> simp [husers, hsessions, hissued]
  step s op t h hstep := by
    change t = s.step env u op at hstep
    rw [hstep]
    exact h.step op

end

/-! ## What is accepted -/

section

variable {env : AuthEnv Token} {u : Uuids} {s : AuthState Token} {token : Token} {claims : JwtClaims}

theorem exists_of_find {α : Type} {q : α → Prop} [DecidablePred q] {l : List α} {a : α}
    (h : l.find? (fun a => q a) = some a) : a ∈ l ∧ q a :=
  have hq := List.find?_some h
  ⟨List.mem_of_find?_eq_some h, of_decide_eq_true hq⟩

theorem find_of_exists {α : Type} {q : α → Prop} [DecidablePred q] {l : List α} {a : α} (ha : a ∈ l) (hq : q a) :
    ∃ b, l.find? (fun a => q a) = some b := by
  rw [← Option.isSome_iff_exists, List.find?_isSome]
  exact ⟨a, ha, decide_eq_true hq⟩

theorem decode_eq_some_iff {now : Int} :
    env.decode now token = some claims ↔ env.reads token = some claims ∧ seconds now ≤ claims.exp + 60 := by
  unfold AuthEnv.decode
  rw [Option.filter_eq_some_iff, decide_eq_true_iff]

/-- A token that is verified is one of a live session, and has the role of the account of that. -/
theorem verifyToken_spec {user : AuthUser} (h : s.verifyToken env token = some user) :
    ∃ claims, env.decode s.now token = some claims ∧ ∃ x ∈ s.sessions, x.id = claims.jti ∧ s.Live x ∧
      ∃ a ∈ s.users, a.id = x.userId ∧ user.role = .ofText env.lower a.role := by
  unfold AuthState.verifyToken AuthState.validateSession at h
  simp only [Option.bind_eq_bind, Option.bind_eq_some_iff, Option.pure_def] at h
  obtain ⟨claims, hdecode, a, ⟨claims', hdecode', x, hx, ha⟩, huser⟩ := h
  cases hdecode.symm.trans hdecode'
  cases huser
  obtain ⟨hmem, hid, hlive⟩ := exists_of_find hx
  obtain ⟨haccount, haid⟩ := exists_of_find ha
  exact ⟨claims, hdecode, x, hmem, hid, hlive, a, haccount, haid, rfl⟩

/-- A token is verified for the live session that its claims name, and the account of that. -/
theorem verifyToken_isSome_iff (h : s.Sound env u) :
    (s.verifyToken env token).isSome ↔ ∃ claims, env.decode s.now token = some claims ∧
      ∃ x ∈ s.sessions, x.id = claims.jti ∧ s.Live x ∧ ∃ a ∈ s.users, a.id = x.userId := by
  rw [Option.isSome_iff_exists]
  constructor
  · rintro ⟨user, hverified⟩
    obtain ⟨claims, hdecode, x, hx, hid, hlive, a, ha, haid, -⟩ := verifyToken_spec hverified
    exact ⟨claims, hdecode, x, hx, hid, hlive, a, ha, haid⟩
  · rintro ⟨claims, hdecode, x, hx, hid, hlive, a, ha, huser⟩
    unfold AuthState.verifyToken AuthState.validateSession
    simp only [Option.bind_eq_bind, Option.bind_eq_some_iff, Option.pure_def]
    obtain ⟨y, hy⟩ := find_of_exists (q := fun x : Session => x.id = claims.jti ∧ s.now < x.expiresAt ∧ x.isRevoked = false)
      hx ⟨hid, hlive⟩
    obtain ⟨hmem, hid', -⟩ := exists_of_find hy
    rw [← Table.eq_of_key h.ids hmem hx (hid'.trans hid.symm)] at huser
    obtain ⟨b, hb⟩ := find_of_exists (q := fun a => a.id = y.userId) ha huser
    exact ⟨_, claims, hdecode, b, ⟨claims, hdecode, y, hy, hb⟩, rfl⟩

/-- A refresh token is accepted for the live session that has it, and the account of that. -/
theorem refresh_isSome_iff (h : s.Sound env u) {refreshToken : String} :
    (s.refresh env u refreshToken).isSome ↔
      ∃ x ∈ s.sessions, x.token = refreshToken ∧ s.Live x ∧ ∃ a ∈ s.users, a.id = x.userId := by
  have hunique : ∀ x ∈ s.sessions, ∀ y ∈ s.sessions, x.token = refreshToken → y.token = refreshToken → x = y :=
    fun x hx y hy hx' hy' => Table.eq_of_key h.ids hx hy (h.tokens x hx y hy (hx'.trans hy'.symm))
  constructor
  · intro hsome
    obtain ⟨t, ht⟩ := Option.isSome_iff_exists.1 hsome
    obtain ⟨x, hx, htoken, hrevoked, ⟨row, hrow, htoken', hexpires⟩, a, ha, huser, -⟩ := refresh_spec ht
    rw [hunique row hrow x hx htoken' htoken] at hexpires
    exact ⟨x, hx, htoken, ⟨hexpires, hrevoked⟩, a, ha, huser⟩
  · rintro ⟨x, hx, htoken, ⟨hexpires, hrevoked⟩, a, ha, huser⟩
    obtain ⟨y, hy⟩ := find_of_exists (q := fun x => x.token = refreshToken ∧ x.isRevoked = false) hx ⟨htoken, hrevoked⟩
    obtain ⟨row, hrow⟩ := find_of_exists (q := fun x => x.token = refreshToken) hx htoken
    have hyx := hunique y (exists_of_find hy).1 x hx (exists_of_find hy).2.1 htoken
    have hrowx := hunique row (exists_of_find hrow).1 x hx (exists_of_find hrow).2 htoken
    subst hyx hrowx
    obtain ⟨b, hb⟩ := find_of_exists (q := fun a : Account => a.id = row.userId) ha huser
    unfold AuthState.refresh
    simp only [Option.bind_eq_bind, hy, hrow, hb, Option.bind_some, hexpires, if_true, Option.isSome_some]

end

section

variable {env : AuthEnv Token} {u : Uuids} {s : AuthState Token} {token : Token} {claims : JwtClaims} {x : Session}

/-- A token that was issued and whose claims name a session is one of the service, for the user of that session. -/
theorem ofSession_of_mem (h : s.Sound env u) (hissued : (token, claims) ∈ s.issued) (hx : x ∈ s.sessions)
    (hid : x.id = claims.jti) : token = env.sign claims ∧ x.userId = claims.sub := by
  cases h.issued _ hissued with
  | inl hsession =>
    obtain ⟨hsign, y, hy, hjti, hsub⟩ := hsession
    rw [Table.eq_of_key h.ids hx hy (hid.trans hjti.symm)]
    exact ⟨hsign, hsub⟩
  | inr hoauth => exact absurd hid (hoauth.2.2 x hx)

theorem not_forged (h : s.Sound env u) (hissued : (token, claims) ∈ s.issued) : ¬s.Forged env token := by
  rintro ⟨claims', hreads, hunissued⟩
  rw [eq_of_reads (h.issued _ hissued) hreads] at hunissued
  exact hunissued hissued

/-- A token that was issued is verified for the live session that its claims name. -/
theorem verified_of_mem (h : s.Sound env u) (hissued : (token, claims) ∈ s.issued)
    (hleeway : seconds s.now ≤ claims.exp + 60) (hx : x ∈ s.sessions) (hid : x.id = claims.jti) (hlive : s.Live x)
    {a : Account} (ha : a ∈ s.users) (huser : a.id = x.userId) : (s.verifyToken env token).isSome := by
  refine (verifyToken_isSome_iff h).2 ⟨claims, decode_eq_some_iff.2 ⟨?_, hleeway⟩, x, hx, hid, hlive, a, ha, huser⟩
  rw [(ofSession_of_mem h hissued hx hid).1]
  exact env.reads_sign claims

theorem inOrder_of_exact (h : s.Sound env u) (hexact : s.Exact env u) : s.InOrder where
  active x hx hlive a ha huser := by
    obtain ⟨y, hy, htoken, -, b, hb, huser', hactive⟩ :=
      hexact.refreshed x.token ((refresh_isSome_iff h).2 ⟨x, hx, rfl, hlive, a, ha, huser⟩)
    rw [Table.eq_of_key h.ids hy hx (h.tokens y hy x hx htoken)] at huser'
    rwa [Table.eq_of_key h.users ha hb (huser.trans huser'.symm)]
  sessions token claims hissued hexpired hactive := by
    by_contra hnone
    have hvalid : s.Valid token :=
      ⟨claims, hissued, hexpired, fun x hx hid => absurd ⟨x, hx, hid⟩ hnone, hactive⟩
    have hverified := (hexact.verified token (not_forged h hissued)).2 hvalid
    obtain ⟨claims', hdecode, x, hx, hid, -⟩ := (verifyToken_isSome_iff h).1 hverified
    have hsame := eq_of_reads (h.issued _ hissued) (decode_eq_some_iff.1 hdecode).1
    exact hnone ⟨x, hx, hid.trans (congrArg JwtClaims.jti hsame)⟩
  leeway token claims hissued hexpired hleeway x hx hid hlive a ha huser := by
    have hverified := verified_of_mem h hissued hleeway hx hid hlive ha huser
    obtain ⟨claims', hissued', hvalid, -⟩ := (hexact.verified token (not_forged h hissued)).1 hverified
    have hreads : env.reads token = some claims := by
      rw [(ofSession_of_mem h hissued hx hid).1]
      exact env.reads_sign claims
    have hsame : claims = claims' := eq_of_reads (h.issued _ hissued') hreads
    exact hvalid (hsame ▸ hexpired)

theorem exact_of_inOrder (h : s.Sound env u) (horder : s.InOrder) : s.Exact env u where
  verified token hgenuine := by
    constructor
    · intro hverified
      obtain ⟨claims, hdecode, x, hx, hid, hlive, a, ha, huser⟩ := (verifyToken_isSome_iff h).1 hverified
      obtain ⟨hreads, hleeway⟩ := decode_eq_some_iff.1 hdecode
      have hissued : (token, claims) ∈ s.issued := by
        by_contra hunissued
        exact hgenuine ⟨claims, hreads, hunissued⟩
      refine ⟨claims, hissued, fun hexpired => ?_, fun y hy hid' => ?_, a, ha, ?_, horder.active x hx hlive a ha huser⟩
      · exact horder.leeway token claims hissued hexpired hleeway x hx hid hlive a ha huser
      · rwa [Table.eq_of_key h.ids hy hx (hid'.trans hid.symm)]
      · exact huser.trans (ofSession_of_mem h hissued hx hid).2
    · rintro ⟨claims, hissued, hexpired, hlive, a, ha, huser, hactive⟩
      obtain ⟨x, hx, hid⟩ := horder.sessions token claims hissued hexpired ⟨a, ha, huser, hactive⟩
      have hleeway : seconds s.now ≤ claims.exp + 60 := by
        unfold AuthState.Expired at hexpired
        unfold seconds
        omega
      exact verified_of_mem h hissued hleeway hx hid (hlive x hx hid) ha
        (huser.trans (ofSession_of_mem h hissued hx hid).2.symm)
  refreshed refreshToken haccepted := by
    obtain ⟨x, hx, htoken, hlive, a, ha, huser⟩ := (refresh_isSome_iff h).1 haccepted
    exact ⟨x, hx, htoken, hlive, a, ha, huser, horder.active x hx hlive a ha huser⟩

end

/-- In every state of every run sessions are exact exactly as long as they are in order. -/
theorem exact_iff (env : AuthEnv Token) (u : Uuids) {s : AuthState Token} (hs : (authentications env u).Reachable s) :
    s.Exact env u ↔ s.InOrder :=
  have hsound := (sound_authentications env u).reachable hs
  ⟨inOrder_of_exact hsound, exact_of_inOrder hsound⟩

/-! ## An account that is deactivated -/

/-- Tokens that are their claims. -/
def plainEnv : AuthEnv JwtClaims where
  lower := id
  sign := id
  signOAuth := id
  reads := some
  reads_sign _ := rfl
  reads_signOAuth _ _ h := (Option.some.inj h).symm

def emptyAuth : AuthState JwtClaims where
  now := 0
  drawn := 0
  users := []
  sessions := []
  issued := []

/-- An account has been registered. -/
def registered : AuthState JwtClaims :=
  emptyAuth.register plainEnv default "ada@example.com" "viewer" fun _ => none

theorem reachable_registered : (authentications plainEnv default).Reachable registered :=
  ⟨emptyAuth, [.register "ada@example.com" "viewer" fun _ => none], ⟨rfl, rfl, rfl⟩, .single rfl⟩

theorem exact_registered : registered.Exact plainEnv default :=
  (exact_iff plainEnv default reachable_registered).2
    { active := fun _ _ _ a ha _ => (by decide : ∀ a ∈ registered.users, a.isActive = true) a ha
      sessions := fun token claims hissued _ _ =>
        (by decide : ∀ entry ∈ registered.issued, ∃ x ∈ registered.sessions, x.id = entry.2.jti) (token, claims) hissued
      leeway := fun token claims hissued hexpired _ _ _ _ _ _ _ _ =>
        absurd hexpired
          ((by decide : ∀ entry ∈ registered.issued, ¬entry.2.exp * 1000000 ≤ registered.now) (token, claims) hissued) }

/-- The token of an account that has been deactivated is still verified. -/
theorem deactivated_verified : ¬∀ s : AuthState JwtClaims, (authentications plainEnv default).Reachable s →
    s.Exact plainEnv default := by
  intro h
  let s : AuthState JwtClaims := registered.step plainEnv default (.deactivateUser ((default : Uuids).draw 0))
  let claims : JwtClaims :=
    emptyAuth.claims ((default : Uuids).draw 0) "ada@example.com" "viewer" ((default : Uuids).draw 1)
  have hexact : s.Exact plainEnv default := h s (reachable_registered.run (.single rfl))
  have hgenuine : ¬s.Forged plainEnv claims := by
    rintro ⟨claims', hreads, hunissued⟩
    cases hreads
    exact hunissued (.head _)
  obtain ⟨_, -, -, -, a, ha, -, hactive⟩ := (hexact.verified claims hgenuine).1 (by decide)
  have hinactive : ∀ a ∈ s.users, a.isActive = false := by decide
  rw [hinactive a ha] at hactive
  cases hactive

end Atomo.Auth

import Atomo.Jobs.Store
import Atomo.Schema.Model

/-!
# Logins through an identity provider

`oauth_authorize` and `oauth_callback` of `oauth.rs`. Every await of a callback is a step, and any number of
callbacks are under way. What the identity providers answer is a relation of the deployment. The state that
`oauth_authorize` draws is in the URL of its redirect and nowhere else: once a login can complete at all, it
completes for a callback without any state (`bound_iff`).
-/

namespace Atomo.Auth

open Jobs (Uuids)
open Schema (lookup?)

/-! ## The manager -/

structure OAuthProvider where
  name : String
  clientId : String
  clientSecret : String
  authUrl : String
  tokenUrl : String
  userinfoUrl : String
  redirectUri : String
  scopes : List String
  deriving DecidableEq

/-- `OAuthProvider::authorize_url`, over `urlencoding::encode`. -/
def OAuthProvider.authorizeUrl (encode : String → String) (p : OAuthProvider) (state : String) : String :=
  p.authUrl ++ "?client_id=" ++ encode p.clientId ++ "&redirect_uri=" ++ encode p.redirectUri ++
    "&response_type=code&scope=" ++ encode (" ".intercalate p.scopes) ++ "&state=" ++ encode state

structure TokenResponse where
  accessToken : String
  tokenType : String
  expiresIn : Option UInt64
  idToken : Option String

structure OAuthUserInfo where
  sub : String
  email : Option String
  name : Option String
  picture : Option String

/-- The address that `find_or_create_user` looks for. -/
def OAuthUserInfo.address (info : OAuthUserInfo) : String :=
  info.email.getD (info.sub ++ "@oauth.local")

structure OAuthManager where
  providers : List (String × OAuthProvider)
  pool : Bool
  jwtSecret : Option String

/-- A row of `users`, as far as a login reads and writes it. -/
structure UserRow where
  id : String
  email : String
  firstName : String
  role : String

structure JwtClaims where
  sub : String
  email : String
  role : String
  exp : Int
  iat : Int
  jti : String

/-- The manager and what is outside the repository: how a URL and a token are encoded, and with what the token
endpoint and the profile endpoint of a provider can answer a code and an access token. -/
structure OAuthEnv where
  manager : OAuthManager
  encode : String → String
  sign : String → JwtClaims → String
  exchange : OAuthProvider → String → TokenResponse → Prop
  userInfo : OAuthProvider → String → OAuthUserInfo → Prop

/-- `issue_jwt`. -/
def OAuthEnv.issueJwt (env : OAuthEnv) (user : UserRow) (now : Int) (jti : String) : String :=
  env.sign (env.manager.jwtSecret.getD "dev-insecure-secret")
    { sub := user.id, email := user.email, role := user.role, exp := now + 86400, iat := now, jti }

/-! ## Requests under way -/

/-- `CallbackParams` with the provider of the path. -/
structure CallbackRequest where
  provider : String
  code : String
  state : Option String
  deriving DecidableEq

/-- A callback before its first await, and after each of those that succeed. -/
inductive CallbackStage where
  | arrived
  | exchanged (p : OAuthProvider) (tokens : TokenResponse)
  | profile (info : OAuthUserInfo)
  | absent (info : OAuthUserInfo)
  | user (row : UserRow)

/-- What the browsers are answered. -/
inductive OAuthEvent where
  | redirected (provider state url : String)
  | notFound
  | issued (request : CallbackRequest) (token : String) (row : UserRow)
  | refused (request : CallbackRequest)

structure OAuthStore where
  users : List UserRow
  drawn : Nat
  callbacks : Nat → Option (CallbackRequest × CallbackStage)
  events : List OAuthEvent

inductive OAuthAct where
  | authorize (provider : String)
  | callback (i : Nat) (request : CallbackRequest)
  | exchange (i : Nat) (tokens : TokenResponse)
  | userInfo (i : Nat) (info : OAuthUserInfo)
  | select (i : Nat)
  | insert (i : Nat)
  | issue (i : Nat) (now : Int)
  | fail (i : Nat)

namespace OAuthStore

variable (s : OAuthStore)

def setCallback (i : Nat) (c : Option (CallbackRequest × CallbackStage)) : OAuthStore :=
  { s with callbacks := Function.update s.callbacks i c }

/-- `oauth_authorize`. -/
def authorize (env : OAuthEnv) (u : Uuids) (provider : String) : OAuthStore :=
  match lookup? provider env.manager.providers with
  | none => { s with events := s.events ++ [.notFound] }
  | some p =>
    let state := u.draw s.drawn
    { s with
      drawn := s.drawn + 1
      events := s.events ++ [.redirected provider state (p.authorizeUrl env.encode state)] }

/-- `SELECT id, email, role FROM users WHERE email = $1`. -/
def select (i : Nat) (request : CallbackRequest) (info : OAuthUserInfo) : OAuthStore :=
  match s.users.find? fun row => row.email = info.address with
  | some row => s.setCallback i (some (request, .user row))
  | none => s.setCallback i (some (request, .absent info))

/-- The `INSERT INTO users` of `find_or_create_user`. -/
def insert (u : Uuids) (i : Nat) (request : CallbackRequest) (info : OAuthUserInfo) : OAuthStore :=
  let row : UserRow :=
    { id := u.draw s.drawn, email := info.address, firstName := info.name.getD "", role := "viewer" }
  { s.setCallback i (some (request, .user row)) with
    drawn := s.drawn + 1
    users := s.users ++ [row] }

/-- The last lines of `oauth_callback`. -/
def issue (env : OAuthEnv) (u : Uuids) (i : Nat) (request : CallbackRequest) (row : UserRow) (now : Int) :
    OAuthStore :=
  { s.setCallback i none with
    drawn := s.drawn + 1
    events := s.events ++ [.issued request (env.issueJwt row now (u.draw s.drawn)) row] }

end OAuthStore

/-- One request or one await. An await can fail in every stage; `BAD_GATEWAY` and `INTERNAL_SERVER_ERROR` are one
event. -/
inductive OAuthStep (env : OAuthEnv) (u : Uuids) (s : OAuthStore) : OAuthAct → OAuthStore → Prop
  | authorize (provider : String) : OAuthStep env u s (.authorize provider) (s.authorize env u provider)
  | callback {i : Nat} (request : CallbackRequest) (hi : s.callbacks i = none) :
      OAuthStep env u s (.callback i request) (s.setCallback i (some (request, .arrived)))
  | exchange {i : Nat} {request : CallbackRequest} {p : OAuthProvider} {tokens : TokenResponse}
      (hi : s.callbacks i = some (request, .arrived)) (hp : lookup? request.provider env.manager.providers = some p)
      (htokens : env.exchange p request.code tokens) :
      OAuthStep env u s (.exchange i tokens) (s.setCallback i (some (request, .exchanged p tokens)))
  | userInfo {i : Nat} {request : CallbackRequest} {p : OAuthProvider} {tokens : TokenResponse} {info : OAuthUserInfo}
      (hi : s.callbacks i = some (request, .exchanged p tokens)) (hinfo : env.userInfo p tokens.accessToken info) :
      OAuthStep env u s (.userInfo i info) (s.setCallback i (some (request, .profile info)))
  | select {i : Nat} {request : CallbackRequest} {info : OAuthUserInfo}
      (hi : s.callbacks i = some (request, .profile info)) (hpool : env.manager.pool = true) :
      OAuthStep env u s (.select i) (s.select i request info)
  | insert {i : Nat} {request : CallbackRequest} {info : OAuthUserInfo}
      (hi : s.callbacks i = some (request, .absent info)) (hunique : info.address ∉ s.users.map UserRow.email) :
      OAuthStep env u s (.insert i) (s.insert u i request info)
  | issue {i : Nat} {request : CallbackRequest} {row : UserRow} (now : Int)
      (hi : s.callbacks i = some (request, .user row)) :
      OAuthStep env u s (.issue i now) (s.issue env u i request row now)
  | fail {i : Nat} {request : CallbackRequest} {stage : CallbackStage} (hi : s.callbacks i = some (request, stage)) :
      OAuthStep env u s (.fail i) { s.setCallback i none with events := s.events ++ [.refused request] }

/-- Requests of any browsers, from any table of users on. -/
def logins (env : OAuthEnv) (u : Uuids) : LabelledSystem OAuthStore OAuthAct where
  init s := s.drawn = 0 ∧ s.events = [] ∧ ∀ i, s.callbacks i = none
  step := OAuthStep env u

/-! ## Bound logins -/

/-- A token is issued for a state that an earlier redirect to the same provider carries and that no token has been
issued for before. -/
def Bound (events : List OAuthEvent) : Prop :=
  ∀ before after request token row, events = before ++ .issued request token row :: after →
    ∃ state url, request.state = some state ∧ .redirected request.provider state url ∈ before ∧
      ∀ request' token' row', .issued request' token' row' ∈ before → request'.state ≠ some state

/-- No code of a provider is exchanged for a token that its profile endpoint answers. -/
def NoProfiles (env : OAuthEnv) : Prop :=
  ∀ name p, lookup? name env.manager.providers = some p →
    ∀ code tokens, env.exchange p code tokens → ∀ info, ¬env.userInfo p tokens.accessToken info

section

variable {env : OAuthEnv} {u : Uuids} {s s' : OAuthStore} {i : Nat} {request : CallbackRequest}

theorem setCallback_callbacks {c d : Option (CallbackRequest × CallbackStage)} {j : Nat}
    (h : (s.setCallback i c).callbacks j = d) : c = d ∨ s.callbacks j = d := by
  unfold OAuthStore.setCallback at h
  dsimp only at h
  by_cases hji : j = i
  · subst hji
    rw [Function.update_self] at h
    exact .inl h
  · rw [Function.update_of_ne hji] at h
    exact .inr h

@[simp] theorem setCallback_self (c : Option (CallbackRequest × CallbackStage)) :
    (s.setCallback i c).callbacks i = c :=
  Function.update_self ..

/-- How far a callback comes where no login can complete: without a pool it stops at its profile. -/
def CallbackStage.Blocked (env : OAuthEnv) (request : CallbackRequest) : CallbackStage → Prop
  | .arrived => True
  | .exchanged p tokens => lookup? request.provider env.manager.providers = some p ∧ env.exchange p request.code tokens
  | .profile _ => env.manager.pool = false
  | .absent _ | .user _ => False

structure OAuthStore.Blocked (env : OAuthEnv) (s : OAuthStore) : Prop where
  callbacks : ∀ i request stage, s.callbacks i = some (request, stage) → stage.Blocked env request
  events : ∀ request token row, .issued request token row ∉ s.events

theorem OAuthStore.Blocked.setCallback (h : s.Blocked env) {c : Option (CallbackRequest × CallbackStage)}
    (hc : ∀ request stage, c = some (request, stage) → stage.Blocked env request) : (s.setCallback i c).Blocked env := by
  refine ⟨fun j request stage hj => ?_, h.events⟩
  cases setCallback_callbacks hj with
  | inl hnew => exact hc request stage hnew
  | inr hold => exact h.callbacks j request stage hold

theorem OAuthStore.Blocked.event (h : s.Blocked env) {e : OAuthEvent} (n : Nat)
    (he : ∀ request token row, e ≠ .issued request token row) :
    ({ s with drawn := n, events := s.events ++ [e] } : OAuthStore).Blocked env := by
  refine ⟨h.callbacks, fun request token row hmem => ?_⟩
  cases List.mem_append.1 hmem with
  | inl hold => exact h.events request token row hold
  | inr hnew => exact he request token row (List.mem_singleton.1 hnew).symm

theorem OAuthStore.Blocked.step (hnone : env.manager.pool = false ∨ NoProfiles env) {a : OAuthAct} (h : s.Blocked env)
    (hstep : OAuthStep env u s a s') : s'.Blocked env := by
  cases hstep with
  | authorize provider =>
    unfold OAuthStore.authorize
    split
    · exact h.event s.drawn nofun
    · exact h.event (s.drawn + 1) nofun
  | callback request hi =>
    apply h.setCallback
    intro request' stage hc
    cases hc
    exact trivial
  | exchange hi hp htokens =>
    apply h.setCallback
    intro request' stage hc
    cases hc
    exact ⟨hp, htokens⟩
  | userInfo hi hinfo =>
    have hat := h.callbacks _ _ _ hi
    apply h.setCallback
    intro request' stage hc
    cases hc
    cases hnone with
    | inl hpool => exact hpool
    | inr hprofiles => exact absurd hinfo (hprofiles _ _ hat.1 _ _ hat.2 _)
  | select hi hpool =>
    have hat : env.manager.pool = false := h.callbacks _ _ _ hi
    rw [hpool] at hat
    cases hat
  | insert hi => exact (h.callbacks _ _ _ hi).elim
  | issue now hi => exact (h.callbacks _ _ _ hi).elim
  | fail hi => exact (h.setCallback (c := none) nofun).event s.drawn nofun

theorem blocked_logins (hnone : env.manager.pool = false ∨ NoProfiles env) :
    (logins env u).Inductive (OAuthStore.Blocked env) := by
  refine ⟨fun s hs => ⟨fun i request stage hi => ?_, fun request token row hmem => ?_⟩,
    fun s a s' h hstep => h.step hnone hstep⟩
  · rw [hs.2.2 i] at hi
    cases hi
  · rw [hs.2.1] at hmem
    cases hmem

/-- A run goes on from here to answer a request with a token. -/
def Answerable (env : OAuthEnv) (u : Uuids) (request : CallbackRequest) (s : OAuthStore) : Prop :=
  ∃ as s' token row, (logins env u).Run s as s' ∧ s'.events = s.events ++ [.issued request token row]

theorem Answerable.before {a : OAuthAct} (h : Answerable env u request s') (hstep : OAuthStep env u s a s')
    (hevents : s'.events = s.events) : Answerable env u request s := by
  obtain ⟨as, t, token, row, r, ht⟩ := h
  exact ⟨a :: as, t, token, row, .cons hstep r, by rw [ht, hevents]⟩

theorem answerable_of_user {row : UserRow} (hi : s.callbacks i = some (request, .user row)) :
    Answerable env u request s :=
  ⟨[.issue i 0], s.issue env u i request row 0, _, row, .single (.issue 0 hi), rfl⟩

/-- `find_or_create_user` finds a row or makes one. -/
theorem answerable_of_profile (hpool : env.manager.pool = true) {info : OAuthUserInfo}
    (hi : s.callbacks i = some (request, .profile info)) : Answerable env u request s := by
  suffices h : Answerable env u request (s.select i request info) by
    refine h.before (.select hi hpool) ?_
    unfold OAuthStore.select
    split <;> rfl
  unfold OAuthStore.select
  split
  · exact answerable_of_user (setCallback_self _)
  · rename_i habsent
    have hunique : info.address ∉ s.users.map UserRow.email := by
      intro hmem
      obtain ⟨row, hrow, hemail⟩ := List.mem_map.1 hmem
      exact List.find?_eq_none.1 habsent row hrow (decide_eq_true hemail)
    have huser : Answerable env u request ((s.setCallback i (some (request, .absent info))).insert u i request info) :=
      answerable_of_user (setCallback_self _)
    exact huser.before (.insert (setCallback_self _) hunique) rfl

/-- A callback whose code is exchanged and whose profile is served can be answered with a token, whatever its
state. -/
theorem answerable (tokens : TokenResponse) (info : OAuthUserInfo) (hpool : env.manager.pool = true) {p : OAuthProvider}
    (hp : lookup? request.provider env.manager.providers = some p) (htokens : env.exchange p request.code tokens)
    (hinfo : env.userInfo p tokens.accessToken info) (hi : s.callbacks i = none) : Answerable env u request s := by
  let arrived := s.setCallback i (some (request, .arrived))
  let exchanged := arrived.setCallback i (some (request, .exchanged p tokens))
  let profile := exchanged.setCallback i (some (request, .profile info))
  have hprofile : Answerable env u request profile := answerable_of_profile hpool (setCallback_self _)
  have hexchanged : Answerable env u request exchanged :=
    hprofile.before (.userInfo (setCallback_self _) hinfo) rfl
  have harrived : Answerable env u request arrived :=
    hexchanged.before (.exchange (setCallback_self _) hp htokens) rfl
  exact harrived.before (.callback request hi) rfl

def noLogins : OAuthStore :=
  ⟨[], 0, fun _ => none, []⟩

/-- Every token of every run is issued for a state of its own exactly where no login can complete at all. -/
theorem bound_iff (env : OAuthEnv) (u : Uuids) :
    (∀ s, (logins env u).Reachable s → Bound s.events) ↔ env.manager.pool = false ∨ NoProfiles env := by
  constructor
  · intro hbound
    by_contra hcan
    rw [not_or, Bool.not_eq_false] at hcan
    obtain ⟨hpool, hprofiles⟩ := hcan
    refine hprofiles fun name p hp code tokens htokens info hinfo => ?_
    have hanswer : Answerable env u ⟨name, code, none⟩ noLogins := answerable (i := 0) tokens info hpool hp htokens hinfo rfl
    obtain ⟨as, s', token, row, r, hevents⟩ := hanswer
    have hissued := hbound s' ⟨noLogins, as, ⟨rfl, rfl, fun _ => rfl⟩, r⟩ [] [] _ token row hevents
    obtain ⟨state, -, hstate, -⟩ := hissued
    cases hstate
  · intro hnone s hs before after request token row hevents
    have hmem : .issued request token row ∈ s.events := by
      rw [hevents]
      exact List.mem_append_right _ (List.mem_cons_self ..)
    exact absurd hmem (((blocked_logins hnone).reachable hs).events request token row)

/-! ## A code of another account -/

/-- One provider, whose endpoints know one code and one account. -/
def oneAccount : OAuthEnv where
  manager :=
    { providers := [("google", {
        name := "google"
        clientId := "cid"
        clientSecret := "secret"
        authUrl := "https://idp/auth"
        tokenUrl := "https://idp/token"
        userinfoUrl := "https://idp/userinfo"
        redirectUri := "http://localhost:3000/auth/callback/google"
        scopes := ["openid", "email", "profile"] })]
      pool := true
      jwtSecret := some "jwt" }
  encode := id
  sign _ claims := claims.sub
  exchange _ code tokens := code = "code-of-mallory" ∧ tokens.accessToken = "at-of-mallory"
  userInfo _ accessToken info := accessToken = "at-of-mallory" ∧ info.email = some "mallory@idp"

/-- A browser that has asked for no login calls back with the code of someone else's account and no state, and is
answered with a token for that account. -/
theorem unbound_login : ¬∀ s, (logins oneAccount default).Reachable s → Bound s.events := by
  intro h
  have hanswer : Answerable oneAccount default ⟨"google", "code-of-mallory", none⟩ noLogins :=
    answerable (i := 0) ⟨"at-of-mallory", "Bearer", none, none⟩ ⟨"mallory", some "mallory@idp", none, none⟩ rfl rfl
      ⟨rfl, rfl⟩ ⟨rfl, rfl⟩ rfl
  obtain ⟨as, s', token, row, r, hevents⟩ := hanswer
  have hissued := h s' ⟨noLogins, as, ⟨rfl, rfl, fun _ => rfl⟩, r⟩ [] [] _ token row hevents
  obtain ⟨state, -, hstate, -⟩ := hissued
  cases hstate

end

end Atomo.Auth

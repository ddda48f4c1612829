import Atomo.Auth.Validity
import Atomo.Dsl.Scan
import Atomo.GraphQL.EntryPoints
import Atomo.GraphQL.Tenants

/-!
# Accounts

The requests to `/auth` and to `/graphql` by what they do to `users` and `sessions`, which are tables of the database like
those of the models: `HttpAuthService` and its handlers, the resolvers of `PlatformMutation` and those of the service.
Passwords and their hashes are left out, whether one is accepted being the choice of the label, and so is `enqueueJob`,
which writes to `jobs` only.
-/

namespace Atomo.Server

open Auth (Account AuthEnv AuthState AuthUser JwtClaims OAuthUserInfo Session UserRole seconds sessionMicros)
open Client (Env Scope World)
open Db (Row SqlValue Table Tables)
open GraphQL (Ctx RecordQuery Resolver)
open Jobs (Uuids)
open Schema (lookup?)

/-! ## Rows -/

def textOf : SqlValue → String
  | .text s => s
  | _ => ""

/-- A row of `users` as the queries read it. -/
def accountOf (row : Row) : Option Account :=
  match row.get "id" with
  | .text id => some {
      id
      email := textOf (row.get "email")
      role := textOf (row.get "role")
      isActive := row.get "is_active" = .boolean true
      tenantId := if row.get "tenant_id" = .null then none else some (textOf (row.get "tenant_id")) }
  | _ => none

/-- A row of `sessions`. -/
def sessionOf (row : Row) : Option Session :=
  match row.get "id" with
  | .text id => some {
      id
      userId := textOf (row.get "user_id")
      token := textOf (row.get "token")
      expiresAt := match row.get "expires_at" with
        | .timestamptz micros => micros
        | _ => 0
      isRevoked := row.get "is_revoked" ≠ .boolean false }
  | _ => none

/-! ## The platform -/

/-- `TenantProvisioning`. -/
inductive TenantProvisioning where
  | none
  | perUser
  | fixed (tenant : String)

/-- `TenantProvisioning::tenant_id_for`. -/
def TenantProvisioning.tenantIdFor (userId : String) : TenantProvisioning → Option String
  | none => Option.none
  | perUser => some userId
  | fixed tenant => some tenant

structure RegistrationConfig where
  enabled : Bool
  role : String
  tenant : TenantProvisioning

/-- The platform with its surroundings: the tokens, the client of the service, the identifiers that are drawn, and how
`EntityId::from_string` reads one, as the text that it is written as again. -/
structure PlatformEnv (Token : Type) where
  tokens : AuthEnv Token
  client : Env
  ids : Uuids
  parseId : String → Option String
  registration : RegistrationConfig
  lower_text : ∀ role : UserRole, tokens.lower role.text = role.text

/-- A request to `/graphql` or a connection to `/graphql/ws` that has been let in, with what its resolvers are given. -/
structure Request where
  user : AuthUser
  ctx : Ctx
  scope : Scope

/-- The database and the clock, the access tokens that have been returned, with their claims, and the requests and
connections that have been let in. -/
structure PlatformState (Token : Type) where
  now : Int
  drawn : Nat
  world : World
  issued : List (Token × JwtClaims)
  requests : List Request

variable {Token : Type}

namespace PlatformState

def table (s : PlatformState Token) (name : String) : Table :=
  s.world.store.tables name

def accounts (s : PlatformState Token) : List Account :=
  (s.table "users").rows.filterMap accountOf

def sessions (s : PlatformState Token) : List Session :=
  (s.table "sessions").rows.filterMap sessionOf

/-- What the queries of `HttpAuthService` see. -/
def auth (s : PlatformState Token) : AuthState Token where
  now := s.now
  drawn := s.drawn
  users := s.accounts
  sessions := s.sessions
  issued := s.issued

/-- The state after a statement has been sent. -/
def ticked (s : PlatformState Token) : PlatformState Token :=
  { s with world := { s.world with tick := s.world.tick + 1 } }

def setTable (s : PlatformState Token) (name : String) (table : Table) : PlatformState Token :=
  { s with world := { s.world with store := { s.world.store with
      tables := Function.update s.world.store.tables name table } } }

end PlatformState

/-- A handler, which may end with an error; what it has done by then stays. -/
abbrev Handler (Token α : Type) := EStateM Unit (PlatformState Token) α

variable (env : PlatformEnv Token)

/-! ## Statements of the platform -/

/-- The addresses of `users` are `UNIQUE`. -/
def emailsDistinct (table : Table) : Bool :=
  ((table.rows.map fun row => row.get "email").filter fun email => email ≠ .null).Nodup

/-- The constraints that a statement must leave true. -/
def constraintsHold (name : String) (table : Table) : Bool :=
  table.keysHold && (name ≠ "users" || emailsDistinct table)

/-- The values are of columns of the table and of their types. -/
def takes (table : Table) (values : List (String × SqlValue)) : Bool :=
  values.all fun entry => (lookup? entry.1 table.columns).any fun type => entry.2.fits type

/-- A statement on one table, which the server may fail for reasons of its own. -/
def statement (name : String) (effect : Nat → Table → Option Table) : Handler Token Unit := fun s =>
  if env.client.fails s.world.tick then .error () s.ticked
  else
    match (effect s.world.tick (s.table name)).filter (constraintsHold name) with
    | some table => .ok () (s.ticked.setTable name table)
    | none => .error () s.ticked

/-- `INSERT` of a row with these values. -/
def insertRow (name : String) (values : List (String × SqlValue)) : Handler Token Unit :=
  statement env name fun tick table =>
    if takes table values then
      some { table with rows := table.rows ++ [Db.newRow env.client.pg tick name 0 table values] }
    else none

/-- What `UPDATE … SET … WHERE id = …` makes of a row. -/
def changed (id : String) (sets : List (String × SqlValue)) (row : Row) : Row :=
  if row.get "id" = .text id then row.update sets else row

/-- `UPDATE … SET … WHERE id = …`. -/
def updateRow (name id : String) (sets : List (String × SqlValue)) : Handler Token Unit :=
  statement env name fun _ table =>
    if takes table sets then some { table with rows := table.rows.map (changed id sets) } else none

/-- An identifier that is drawn. -/
def draw : Handler Token String := fun s =>
  .ok (env.ids.draw s.drawn) { s with drawn := s.drawn + 1 }

/-! ## `/auth` -/

/-- `create_session`. -/
def createSession (userId : String) : Handler Token String := do
  let id ← draw env
  let token ← draw env
  let s ← get
  insertRow env "sessions" [("id", .text id), ("user_id", .text userId), ("token", .text token),
    ("expires_at", .timestamptz (s.now + sessionMicros)), ("created_at", .timestamptz s.now),
    ("is_revoked", .boolean false)]
  return id

/-- A token for these claims is returned. -/
def issue (sign : JwtClaims → Token) (userId email role jti : String) : Handler Token Unit :=
  modify fun s =>
    let claims := s.auth.claims userId email role jti
    { s with issued := s.issued ++ [(sign claims, claims)] }

/-- `issue_tokens`. -/
def issueTokens (userId email role : String) : Handler Token Unit := do
  let sessionId ← createSession env userId
  issue env.tokens.sign userId email role sessionId

/-- The values of an account that is made, apart from its hash. -/
def newAccount (id email role : String) (firstName lastName : String) (rest : List (String × SqlValue)) :
    List (String × SqlValue) :=
  [("id", .text id), ("email", .text email), ("first_name", .text firstName), ("last_name", .text lastName),
    ("role", .text role), ("is_active", .boolean true)] ++ rest

structure RegisterRequest where
  email : String
  firstName : Option String
  lastName : Option String

/-- `register`, with a password that the policy accepts or not; the route is mounted only where it is enabled. -/
def register (req : RegisterRequest) (accepted : Bool) : Handler Token Unit := do
  let email := env.tokens.lower (.ofList (Dsl.trim req.email.toList))
  if env.registration.enabled && accepted && (email ≠ "" && '@' ∈ email.toList && email.utf8ByteSize ≤ 254) then
    let id ← draw env
    let tenant := (env.registration.tenant.tenantIdFor id).elim .null SqlValue.text
    insertRow env "users" (newAccount id email env.registration.role (req.firstName.getD "") (req.lastName.getD "")
      [("tenant_id", tenant)])
    issueTokens env id email env.registration.role
  else throw ()

/-- `login` over `authenticate`, with a password that is verified or not. -/
def login (email : String) (verified : Bool) : Handler Token Unit := do
  let s ← get
  match s.accounts.find? fun a => a.email = email ∧ a.isActive = true with
  | none => throw ()
  | some a =>
    if verified then
      updateRow env "users" a.id [("last_login_at", .timestamptz s.now)]
      issueTokens env a.id a.email (UserRole.ofText env.tokens.lower a.role).text
    else throw ()

/-- `refresh` over `refresh_access_token`. -/
def refresh (refreshToken : String) : Handler Token Unit := do
  let s ← get
  match s.sessions.find? fun x => x.token = refreshToken ∧ x.isRevoked = false,
      s.sessions.find? fun x => x.token = refreshToken with
  | some session, some row =>
    if s.now < row.expiresAt then
      match s.accounts.find? fun a => a.id = session.userId with
      | none => throw ()
      | some user =>
        let token ← draw env
        updateRow env "sessions" session.id
          [("token", .text token), ("expires_at", .timestamptz (s.now + sessionMicros))]
        issue env.tokens.sign user.id user.email user.role session.id
    else throw ()
  | _, _ => throw ()

/-- The user of a request, by its bearer token. -/
def authenticated (token : Option Token) : Handler Token AuthUser := do
  let s ← get
  match token.bind (s.auth.verifyToken env.tokens) with
  | some user => return user
  | none => throw ()

/-- `logout`. -/
def logout (token : Option Token) : Handler Token Unit := do
  let user ← authenticated env token
  match env.parseId user.sessionId with
  | some id => updateRow env "sessions" id [("is_revoked", .boolean true)]
  | none => throw ()

/-- The end of `oauth_callback`: `find_or_create_user` and `issue_jwt`. -/
def oauth (info : OAuthUserInfo) : Handler Token Unit := do
  let s ← get
  match s.accounts.find? fun a => a.email = info.address with
  | some a =>
    let jti ← draw env
    issue env.tokens.signOAuth a.id a.email a.role jti
  | none =>
    let id ← draw env
    insertRow env "users" (newAccount id info.address "viewer" (info.name.getD "") ""
      [("created_at", .timestamptz s.now), ("updated_at", .timestamptz s.now)])
    let jti ← draw env
    issue env.tokens.signOAuth id info.address "viewer" jti

/-! ## `/graphql` -/

def letIn (request : Request) : Handler Token Unit :=
  modify fun s => { s with requests := s.requests ++ [request] }

/-- A request to `/graphql` with these headers. -/
def graphql (token : Option Token) (tenantId : Option String) : Handler Token Unit := do
  let user ← authenticated env token
  letIn ⟨user, (graphqlHandler (some user) tenantId).1, (graphqlHandler (some user) tenantId).2⟩

/-- A connection to `/graphql/ws` with these parts of its payload. -/
def connect (token : Option Token) (tenant : Option String) : Handler Token Unit := do
  let user ← authenticated env token
  letIn ⟨user, { userRole := some (roleText user.role), userId := some user.id, tenant }, {}⟩

/-- A resolver of the service. -/
def resolve {α : Type} (resolver : Resolver α) : Handler Token Unit := fun s =>
  match resolver s.world with
  | .ok _ w => .ok () { s with world := w }
  | .error _ w => .error () { s with world := w }

/-- `create_user`; the names are `NOT NULL`. -/
def createUser (email : String) (firstName lastName : Option String) (role : UserRole) : Handler Token Unit := do
  let id ← draw env
  let s ← get
  match firstName, lastName with
  | some first, some last =>
    insertRow env "users" (newAccount id email role.text first last
      [("created_at", .timestamptz s.now), ("updated_at", .timestamptz s.now)])
  | _, _ => throw ()

/-- The columns that `update_user` sets. -/
def userSets (now : Int) (email firstName lastName : Option String) (role : Option UserRole) (isActive : Option Bool) :
    List (String × SqlValue) :=
  [email.map fun e => ("email", .text e), firstName.map fun n => ("first_name", .text n),
    lastName.map fun n => ("last_name", .text n), role.map fun r => ("role", .text r.text),
    isActive.map fun b => ("is_active", .boolean b), some ("updated_at", .timestamptz now)].filterMap id

/-- `update_user`. -/
def updateUser (userId : String) (email firstName lastName : Option String) (role : Option UserRole)
    (isActive : Option Bool) : Handler Token Unit := do
  let s ← get
  match env.parseId userId with
  | some id => updateRow env "users" id (userSets s.now email firstName lastName role isActive)
  | none => throw ()

/-- A field of a document. -/
inductive Field where
  | query (q : RecordQuery)
  | mutation (modelName : String) (m : GraphQL.Mutation)
  | createUser (email : String) (firstName lastName : Option String) (role : UserRole)
  | updateUser (userId : String) (email firstName lastName : Option String) (role : Option UserRole)
      (isActive : Option Bool)

def Field.run (r : Request) : Field → Handler Token Unit
  | query q => resolve (q.run env.client r.scope r.ctx)
  | mutation modelName m => resolve (m.run env.client r.scope r.ctx modelName)
  | createUser email firstName lastName role => Server.createUser env email firstName lastName role
  | updateUser userId email firstName lastName role isActive =>
    Server.updateUser env userId email firstName lastName role isActive

/-! ## Runs -/

/-- A request, the next field of a document under way, or time that passes. The fields of documents of several requests
come in any order. -/
inductive PlatformOp (Token : Type) where
  | wait (micros : Nat)
  | register (req : RegisterRequest) (accepted : Bool)
  | login (email : String) (verified : Bool)
  | refresh (refreshToken : String)
  | logout (token : Option Token)
  | oauth (info : OAuthUserInfo)
  | graphql (token : Option Token) (tenantId : Option String)
  | connect (token : Option Token) (tenant : Option String)
  | field (request : Nat) (field : Field)

def PlatformOp.run (s : PlatformState Token) : PlatformOp Token → Handler Token Unit
  | wait micros => modify fun s => { s with now := s.now + micros }
  | register req accepted => Server.register env req accepted
  | login email verified => Server.login env email verified
  | refresh refreshToken => Server.refresh env refreshToken
  | logout token => Server.logout env token
  | oauth info => Server.oauth env info
  | graphql token tenantId => Server.graphql env token tenantId
  | connect token tenant => Server.connect env token tenant
  | field i f =>
    match s.requests[i]? with
    | some r => f.run env r
    | none => throw ()

namespace PlatformState

/-- The tables have their primary keys. -/
def Keyed (s : PlatformState Token) : Prop :=
  ∀ name ∈ ["users", "sessions"], (s.table name).primaryKey = some "id" ∧ (s.table name).keysHold = true

/-- No session has an id that is yet to be drawn, which nobody can foresee. -/
def Unforeseen (s : PlatformState Token) : Prop :=
  ∀ n, s.drawn ≤ n → ∀ x ∈ s.sessions, x.id ≠ env.ids.draw n

end PlatformState

/-- Runs from any tables on, such as those that an administrator was seeded in. -/
def platform : LabelledSystem (PlatformState Token) (PlatformOp Token) where
  init s := s.Keyed ∧ s.issued = [] ∧ s.requests = [] ∧ s.Unforeseen env
  step s op t := t = endState (op.run env s) s ∧ t.Unforeseen env

end Atomo.Server

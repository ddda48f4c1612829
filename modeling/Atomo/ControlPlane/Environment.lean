import Atomo.ControlPlane.Lifecycle
import Atomo.Dsl.Scan
import Atomo.Schema.Validation

/-!
# The environment of an instance

`resolve_env`: what an instance is started with. The secret that signs the sessions of a project is read from the
secret store, and where that does not give one a new secret is drawn and written over the old one, whether the secret is
missing or could not be read. So a project keeps its secret just where each call that gets that far reads it, or has its
write refused and the secret in the project's own overrides (`stable_iff`).
-/

namespace Atomo.ControlPlane

open Dsl (trim)
open Schema (parseUsize)

/-! ## The secret store -/

/-- The values behind the references. -/
abbrev Secrets :=
  String → Option String

structure SecretStore where
  /-- What is given of a stored value. -/
  read : String → String
  /-- The error for a reference without a value. -/
  missing : String → CpError

/-- What the `aws` CLI prints is trimmed. -/
def ssmSecretStore : SecretStore where
  read value := .ofList (trim value.toList)
  missing reference := .secret ("aws ssm get-parameter " ++ reference ++ " failed: ParameterNotFound")

/-- `get`, unless the call fails with `fault`. -/
def SecretStore.get (store : SecretStore) (secrets : Secrets) (fault : Option CpError) (reference : String) :
    Except CpError String :=
  match fault, secrets reference with
  | some e, _ => .error e
  | none, some value => .ok (store.read value)
  | none, none => .error (store.missing reference)

/-! ## The environment -/

structure Host where
  schemaVolumeRoot : String
  portBase : UInt16
  /-- `Value::to_string`. -/
  jsonText : Json → String

/-- `Path::join`. -/
def joinPath (root path : String) : String :=
  if path.toList.head? = some '/' then path
  else if root = "" ∨ root.toList.getLast? = some '/' then root ++ path
  else root ++ "/" ++ path

def projectSchemaDir (host : Host) (id : String) : String :=
  joinPath host.schemaVolumeRoot id

def materializedSchemaPath (host : Host) (project : Project) : String :=
  match project.schemaRef with
  | .git _ _ _ => joinPath (projectSchemaDir host project.id) "schema.ts"
  | .volume path => path

/-- `str::parse::<u16>`. -/
def parsePort (text : List Char) : Option UInt16 :=
  (parseUsize text).bind fun n => if n < 2 ^ 16 then some (.ofNat n) else none

/-- The port at the end of an upstream, after its last colon. -/
def upstreamPort (upstream : String) : Option UInt16 :=
  parsePort (upstream.toList.reverse.takeWhile (· ≠ ':')).reverse

def jwtSecretRef (id : String) : String :=
  "/atomo/" ++ id ++ "/JWT_SECRET"

abbrev EnvMap :=
  List (String × String)

def EnvMap.insert (key value : String) (env : EnvMap) : EnvMap :=
  (key, value) :: env.filter (·.1 ≠ key)

def overrideText (host : Host) : Json → String
  | .string s => s
  | other => host.jsonText other

/-- The overrides of the project come last. -/
def mergeOverrides (host : Host) (overrides : Json) (env : EnvMap) : EnvMap :=
  match overrides with
  | .object fields => fields.foldl (fun env entry => env.insert entry.1 (overrideText host entry.2)) env
  | _ => env

/-- What befalls the calls of the store in one call of `resolve_env`: the reads of the database's URL and of the secret
can fail, the write of the secret takes effect or not, and `generated` is the text of the two UUIDs. -/
structure Outcomes where
  databaseUrl : Option CpError
  jwt : Option CpError
  put : Bool
  generated : String

/-- The secret, read or drawn. -/
def resolveJwt (store : SecretStore) (id : String) (o : Outcomes) (secrets : Secrets) : String × Secrets :=
  let generate :=
    (o.generated, if o.put then Function.update secrets (jwtSecretRef id) (some o.generated) else secrets)
  match store.get secrets o.jwt (jwtSecretRef id) with
  | .ok value => if value ≠ "" then (value, secrets) else generate
  | .error _ => generate

/-- `resolve_env`. -/
def resolveEnv (store : SecretStore) (host : Host) (project : Project) (o : Outcomes) (secrets : Secrets) :
    Except CpError EnvMap × Secrets :=
  match store.get secrets o.databaseUrl project.databaseUrlRef with
  | .error e => (.error e, secrets)
  | .ok databaseUrl =>
    let port := (project.upstream.bind upstreamPort).getD (defaultPort host.portBase project.id)
    let (jwt, secrets) := resolveJwt store project.id o secrets
    let env : EnvMap := EnvMap.insert "DATABASE_URL" databaseUrl []
    let env := env.insert "ATOMO_SCHEMA_PATH" (materializedSchemaPath host project)
    let env := env.insert "HOST" "0.0.0.0"
    let env := env.insert "PORT" (toString port)
    let env := env.insert "JWT_SECRET" jwt
    let env := env.insert "ATOMO_PROJECT_ID" project.id
    (.ok (mergeOverrides host project.env env), secrets)

/-! ## Calls -/

/-- A call of `resolve_env` by an operation on the project. -/
structure Resolution where
  project : Project
  outcomes : Outcomes

/-- Any calls, each drawing a secret that is none of those stored. -/
def resolutions (store : SecretStore) (host : Host) : LabelledSystem Secrets Resolution where
  init _ := True
  step secrets call secrets' :=
    (∀ reference, secrets reference ≠ some call.outcomes.generated) ∧
      secrets' = (resolveEnv store host call.project call.outcomes secrets).2

/-- The call leaves the secret of `id` in place, and an environment that it resolves for `id` carries it. -/
def Carries (store : SecretStore) (host : Host) (id secret : String) (secrets : Secrets) (call : Resolution)
    (secrets' : Secrets) : Prop :=
  secrets' (jwtSecretRef id) = some secret ∧
    (call.project.id = id → ∀ env, (resolveEnv store host call.project call.outcomes secrets).1 = .ok env →
      env.lookup "JWT_SECRET" = some secret)

/-- From a state in which a project has a secret on, every call leaves it and carries it. -/
def Stable (store : SecretStore) (host : Host) (secrets : Secrets) (calls : List Resolution) : Prop :=
  ∀ before after s id secret, calls = before ++ after → (resolutions store host).Run secrets before s →
    s (jwtSecretRef id) = some secret → secret ≠ "" →
    (resolutions store host).AllSteps (Carries store host id secret) s after

/-- What the project's overrides say of the secret. -/
def jwtOverride (host : Host) (project : Project) : Option String :=
  match project.env with
  | .object fields => (fields.reverse.lookup "JWT_SECRET").map (overrideText host)
  | _ => none

/-- A call for a project that has a secret ends before it asks for it, or reads it as it is and the overrides do not
change it, or has it in the overrides and reads one or cannot write. -/
def KeptIn (store : SecretStore) (host : Host) (secrets : Secrets) (call : Resolution) : Prop :=
  ∀ secret, secrets (jwtSecretRef call.project.id) = some secret → secret ≠ "" →
    (store.get secrets call.outcomes.databaseUrl call.project.databaseUrlRef).isOk = false ∨
    (call.outcomes.jwt = none ∧ store.read secret = secret ∧ jwtOverride host call.project = none) ∨
    (jwtOverride host call.project = some secret ∧
      ((call.outcomes.jwt = none ∧ store.read secret ≠ "") ∨ call.outcomes.put = false))

/-! ## Looking up -/

variable {store : SecretStore} {host : Host} {secrets secrets' : Secrets} {call : Resolution} {project : Project}
  {o : Outcomes} {id secret : String}

theorem EnvMap.lookup_insert_self (key value : String) (env : EnvMap) : (env.insert key value).lookup key = some value := by
  unfold EnvMap.insert
  rw [List.lookup_cons, beq_self_eq_true]

theorem EnvMap.lookup_insert_of_ne {key key' : String} (hne : key' ≠ key) (value : String) (env : EnvMap) :
    (env.insert key value).lookup key' = env.lookup key' := by
  have hfilter : (env.filter (·.1 ≠ key)).lookup key' = env.lookup key' := by
    induction env with
    | nil => rfl
    | cons entry env ih =>
      rw [List.filter_cons]
      by_cases hentry : entry.1 = key
      · rw [if_neg (by simp [hentry]), ih, List.lookup_cons, beq_eq_false_iff_ne.2 (hentry ▸ hne)]
      · rw [if_pos (by simp [hentry]), List.lookup_cons, List.lookup_cons, ih]
  unfold EnvMap.insert
  rw [List.lookup_cons, beq_eq_false_iff_ne.2 hne]
  exact hfilter

theorem lookup_foldl_insert {key : String} (fields : List (String × Json)) (env : EnvMap) :
    (fields.foldl (fun env entry => env.insert entry.1 (overrideText host entry.2)) env).lookup key =
      ((fields.reverse.lookup key).map (overrideText host)).or (env.lookup key) := by
  induction fields generalizing env with
  | nil => rfl
  | cons entry fields ih =>
    rw [List.foldl_cons, ih, List.reverse_cons, List.lookup_append]
    cases fields.reverse.lookup key with
    | some value => rfl
    | none =>
      by_cases hentry : key = entry.1
      · subst hentry
        rw [EnvMap.lookup_insert_self, List.lookup_cons, beq_self_eq_true]
        rfl
      · rw [EnvMap.lookup_insert_of_ne hentry, List.lookup_cons, beq_eq_false_iff_ne.2 hentry]
        rfl

theorem lookup_mergeOverrides (env : EnvMap) :
    (mergeOverrides host project.env env).lookup "JWT_SECRET" =
      (jwtOverride host project).or (env.lookup "JWT_SECRET") := by
  unfold mergeOverrides jwtOverride
  split
  · exact lookup_foldl_insert _ env
  · rfl

/-- The secret that a call has ends in the environment unless the overrides have one. -/
theorem resolveEnv_ok (host : Host) {databaseUrl : String}
    (h : store.get secrets o.databaseUrl project.databaseUrlRef = .ok databaseUrl) :
    ∃ env, resolveEnv store host project o secrets = (.ok env, (resolveJwt store project.id o secrets).2) ∧
      env.lookup "JWT_SECRET" =
        some ((jwtOverride host project).getD (resolveJwt store project.id o secrets).1) := by
  unfold resolveEnv
  rw [h]
  refine ⟨_, rfl, ?_⟩
  rw [lookup_mergeOverrides, EnvMap.lookup_insert_of_ne (by decide), EnvMap.lookup_insert_self]
  cases jwtOverride host project <;> rfl

theorem resolveEnv_error {e : CpError} (h : store.get secrets o.databaseUrl project.databaseUrlRef = .error e) :
    resolveEnv store host project o secrets = (.error e, secrets) := by
  unfold resolveEnv
  rw [h]

theorem jwtSecretRef_inj {id' : String} (h : jwtSecretRef id = jwtSecretRef id') : id = id' := by
  unfold jwtSecretRef at h
  have hlist := congrArg String.toList h
  rw [String.toList_append, String.toList_append, String.toList_append, String.toList_append] at hlist
  exact String.toList_injective (List.append_cancel_left (List.append_cancel_right hlist))

theorem resolveJwt_read (hstored : secrets (jwtSecretRef id) = some secret) (hjwt : o.jwt = none)
    (hread : store.read secret ≠ "") : resolveJwt store id o secrets = (store.read secret, secrets) := by
  unfold resolveJwt SecretStore.get
  rw [hjwt, hstored]
  exact if_pos hread

theorem resolveJwt_drawn (hstored : secrets (jwtSecretRef id) = some secret)
    (hread : ¬(o.jwt = none ∧ store.read secret ≠ "")) :
    resolveJwt store id o secrets =
      (o.generated, if o.put then Function.update secrets (jwtSecretRef id) (some o.generated) else secrets) := by
  unfold resolveJwt SecretStore.get
  rw [hstored]
  cases hjwt : o.jwt with
  | some e => rfl
  | none => exact if_neg fun hvalue => hread ⟨hjwt, hvalue⟩

theorem resolveEnv_other {reference : String} (h : reference ≠ jwtSecretRef project.id) :
    (resolveEnv store host project o secrets).2 reference = secrets reference := by
  cases hget : store.get secrets o.databaseUrl project.databaseUrlRef with
  | error e => rw [resolveEnv_error hget]
  | ok databaseUrl =>
    obtain ⟨env, henv, -⟩ := resolveEnv_ok host hget
    rw [henv]
    have hgenerated : (if o.put then Function.update secrets (jwtSecretRef project.id) (some o.generated) else secrets)
        reference = secrets reference := by
      split
      · exact Function.update_of_ne h ..
      · rfl
    unfold resolveJwt
    dsimp only
    split
    · split
      · rfl
      · exact hgenerated
    · exact hgenerated

/-! ## Calls that keep the secret -/

/-- A call carries the secret of its own project exactly where it is kept in it. -/
theorem carries_own_iff (hfresh : ∀ reference, secrets reference ≠ some o.generated)
    (hstored : secrets (jwtSecretRef project.id) = some secret) (hne : secret ≠ "") :
    Carries store host project.id secret secrets ⟨project, o⟩ (resolveEnv store host project o secrets).2 ↔
      (store.get secrets o.databaseUrl project.databaseUrlRef).isOk = false ∨
      (o.jwt = none ∧ store.read secret = secret ∧ jwtOverride host project = none) ∨
      (jwtOverride host project = some secret ∧ ((o.jwt = none ∧ store.read secret ≠ "") ∨ o.put = false)) := by
  have hdrawn : o.generated ≠ secret := fun h => hfresh _ (h ▸ hstored)
  unfold Carries
  cases hget : store.get secrets o.databaseUrl project.databaseUrlRef with
  | error e =>
    rw [resolveEnv_error hget]
    exact ⟨fun _ => .inl rfl, fun _ => ⟨hstored, fun _ env henv => by cases henv⟩⟩
  | ok databaseUrl =>
    obtain ⟨env, henv, hlookup⟩ := resolveEnv_ok host hget
    have hcarried : (project.id = project.id → ∀ env', (resolveEnv store host project o secrets).1 = .ok env' →
        env'.lookup "JWT_SECRET" = some secret) ↔
        (jwtOverride host project).getD (resolveJwt store project.id o secrets).1 = secret := by
      rw [henv]
      constructor
      · exact fun h => Option.some.inj (hlookup.symm.trans (h rfl env rfl))
      · rintro h - _ ⟨⟩
        rw [hlookup, h]
    rw [hcarried, henv]
    have hgot : (Except.ok databaseUrl : Except CpError String).isOk ≠ false := Bool.noConfusion
    by_cases hread : o.jwt = none ∧ store.read secret ≠ ""
    · rw [resolveJwt_read hstored hread.1 hread.2]
      cases hoverride : jwtOverride host project with
      | none => simp [hgot, hstored, hread.1]
      | some value => simp [hgot, hstored, hread]
    · rw [resolveJwt_drawn hstored hread]
      have hunread : ¬(o.jwt = none ∧ store.read secret = secret) :=
        fun h => hread ⟨h.1, fun hempty => hne (h.2.symm.trans hempty)⟩
      cases hput : o.put with
      | true =>
        refine iff_of_false (fun h => hdrawn ?_) ?_
        · have hwritten : Function.update secrets (jwtSecretRef project.id) (some o.generated)
              (jwtSecretRef project.id) = some secret := h.1
          rw [Function.update_self] at hwritten
          exact Option.some.inj hwritten
        · rintro (h | ⟨h, hsame, -⟩ | ⟨-, h | h⟩)
          · exact hgot h
          · exact hunread ⟨h, hsame⟩
          · exact hread h
          · cases h
      | false =>
        rw [if_neg Bool.false_ne_true]
        cases hoverride : jwtOverride host project with
        | none =>
          refine iff_of_false (fun h => hdrawn h.2) ?_
          rintro (h | ⟨h, hsame, -⟩ | ⟨h, -⟩)
          · exact hgot h
          · exact hunread ⟨h, hsame⟩
          · cases h
        | some value => simp [hgot, hstored]

theorem carries_other (hid : project.id ≠ id) (hstored : secrets (jwtSecretRef id) = some secret) :
    Carries store host id secret secrets ⟨project, o⟩ (resolveEnv store host project o secrets).2 := by
  refine ⟨?_, fun h => absurd h hid⟩
  rw [resolveEnv_other fun h => hid (jwtSecretRef_inj h).symm, hstored]

/-- A call carries all secrets exactly where it keeps that of its own project. -/
theorem carries_iff (hfresh : ∀ reference, secrets reference ≠ some call.outcomes.generated) :
    (∀ id secret, secrets (jwtSecretRef id) = some secret → secret ≠ "" →
      Carries store host id secret secrets call (resolveEnv store host call.project call.outcomes secrets).2) ↔
    KeptIn store host secrets call := by
  constructor
  · exact fun h secret hstored hne => (carries_own_iff hfresh hstored hne).1 (h _ secret hstored hne)
  · intro h id secret hstored hne
    by_cases hid : call.project.id = id
    · subst hid
      exact (carries_own_iff hfresh hstored hne).2 (h secret hstored hne)
    · exact carries_other hid hstored

/-! ## Runs -/

theorem resolutions_unique {s t t' : Secrets} (h : (resolutions store host).step s call t)
    (h' : (resolutions store host).step s call t') : t = t' :=
  h.2.trans h'.2.symm

/-- The projects keep their secrets in a run exactly where each of its calls keeps that of its project. -/
theorem stable_iff (store : SecretStore) (host : Host) (s t : Secrets) (calls : List Resolution)
    (r : (resolutions store host).Run s calls t) :
    Stable store host s calls ↔ ((resolutions store host).restrict (KeptIn store host)).Run s calls t := by
  have hsteps := r.allSteps_iff (fun h h' => resolutions_unique h h') (I := fun _ => True)
    (Q := fun u call v => ∀ id secret, u (jwtSecretRef id) = some secret → secret ≠ "" →
      Carries store host id secret u call v) (C := KeptIn store host)
    (by rintro u call v - ⟨hfresh, rfl⟩; exact carries_iff hfresh) (fun _ _ _ _ _ _ => trivial) trivial
  constructor
  · refine fun h => hsteps.1 fun before call after u v hcalls hrun hstep id secret hstored hne => ?_
    exact h before (call :: after) u id secret hcalls hrun hstored hne [] call after u v rfl (.nil u) hstep
  · intro hkept before after u id secret hcalls hrun hstored hne
    subst hcalls
    obtain ⟨u', hbefore, hafter⟩ := LabelledSystem.run_append_iff.1 hkept
    obtain rfl : u' = u := LabelledSystem.Run.unique (fun h h' => resolutions_unique h h') hbefore.of_restrict hrun
    rintro during call rest v w rfl hduring hstep
    obtain ⟨v', hduring', hrest⟩ := LabelledSystem.run_append_iff.1 hafter
    obtain rfl : v' = v := LabelledSystem.Run.unique (fun h h' => resolutions_unique h h') hduring'.of_restrict hduring
    have hheld : v' (jwtSecretRef id) = some secret := by
      refine LabelledSystem.Run.preserves (P := fun s : Secrets => s (jwtSecretRef id) = some secret) ?_ hduring' hstored
      rintro s call t hs ⟨⟨hfresh, rfl⟩, hkeeps⟩
      exact ((carries_iff hfresh).2 hkeeps id secret hs hne).1
    obtain ⟨w', ⟨hstep', hkeeps⟩, -⟩ := LabelledSystem.run_cons_iff.1 hrest
    obtain ⟨hfresh, rfl⟩ := hstep
    exact (carries_iff hfresh).2 hkeeps id secret hheld hne

/-! ### A read that fails once -/

/-- A project with its database and, at first, its secret. -/
def storedShop : Secrets
  | "/atomo/shop/DATABASE_URL" => some "postgres://db/atomo_shop"
  | "/atomo/shop/JWT_SECRET" => some "6f1c"
  | _ => none

def plainHost : Host where
  schemaVolumeRoot := "./atomo-schemas"
  portBase := 4000
  jsonText _ := ""

theorem fresh_storedShop (reference : String) : storedShop reference ≠ some "9d0e" := by
  unfold storedShop
  split <;> simp

/-- A call that reads the secret keeps it. -/
theorem stable_shop : Stable ssmSecretStore plainHost storedShop [⟨shop .running .running, ⟨none, none, true, "9d0e"⟩⟩] := by
  refine (stable_iff _ _ _ _ _ (.single ⟨fresh_storedShop, rfl⟩)).2 (.single ⟨⟨fresh_storedShop, rfl⟩, ?_⟩)
  intro secret hstored hne
  cases hstored
  exact .inr (.inl ⟨rfl, by decide, rfl⟩)

/-- A secret whose read fails once is written over. -/
theorem secret_replaced : ¬∀ (store : SecretStore) (host : Host) (s t : Secrets) (calls : List Resolution),
    (resolutions store host).Run s calls t → Stable store host s calls := by
  intro h
  have hstep : (resolutions ssmSecretStore plainHost).step storedShop
      ⟨shop .running .running, ⟨none, some (.secret "ThrottlingException"), true, "9d0e"⟩⟩ _ := ⟨fresh_storedShop, rfl⟩
  have hcarries := h ssmSecretStore plainHost storedShop _ _ (.single hstep) [] _ storedShop "shop" "6f1c" rfl (.nil _)
    rfl (by decide) [] _ [] storedShop _ rfl (.nil _) hstep
  exact absurd hcarries.1 (by decide)

end Atomo.ControlPlane

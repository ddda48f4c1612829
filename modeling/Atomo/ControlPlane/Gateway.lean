import Atomo.ControlPlane.Provisioner

/-!
# The gateway's routes

`CaddyGateway` renders two routes for each project, one for its hosts and one for its id in the header, project by
project. Caddy takes the first route that matches, so a request goes to the first project that it names in any way
(`evaluate_routes`), whatever the precedence of the ways is meant to be.
-/

namespace Atomo.ControlPlane

/-! ## The code -/

/-- The hosts of a project's first route: its hostname and its aliases. -/
def Project.hosts (p : Project) : List String :=
  (p.hostname.toList ++ p.aliases).filter (· ≠ "")

def proxyTo (upstream : String) : Json :=
  .array [.object [
    ("handler", .string "reverse_proxy"),
    ("upstreams", .array [.object [("dial", .string upstream)]])]]

def hostRoute (hosts : List String) (upstream : String) : Json :=
  .object [
    ("match", .array [.object [("host", .array (hosts.map .string))]]),
    ("handle", proxyTo upstream),
    ("terminal", .bool true)]

def headerRoute (id upstream : String) : Json :=
  .object [
    ("match", .array [.object [("header", .object [("X-Atomo-Project", .array [.string id])])]]),
    ("handle", proxyTo upstream),
    ("terminal", .bool true)]

/-- The routes of one project; without an upstream it has none. -/
def Project.routes (p : Project) : List Json :=
  match p.upstream.filter (· ≠ "") with
  | none => []
  | some upstream =>
    (if p.hosts = [] then [] else [hostRoute p.hosts upstream]) ++ [headerRoute p.id upstream]

/-- `routes`. -/
def gatewayRoutes (projects : List Project) : List Json :=
  projects.flatMap Project.routes

/-- `render`. -/
def renderGateway (projects : List Project) : Json :=
  .object [("apps", .object [("http", .object [("servers", .object [("srv0", .object [
    ("listen", .array [.string ":443", .string ":80"]),
    ("routes", .array (gatewayRoutes projects))])])])])]

/-! ## What Caddy does with them -/

/-- A request, with its header `X-Atomo-Project` if it has one. -/
structure Request where
  host : String
  project : Option String

/-- How Caddy compares a host, and the value of a header, with one of a matcher. -/
structure Caddy where
  host : String → String → Bool
  value : String → String → Bool

namespace Caddy

variable (caddy : Caddy) (req : Request)

/-- One matcher of a set: any of the hosts, or every field with any of its values. -/
def matcher (entry : String × Json) : Bool :=
  match entry with
  | ("host", .array hosts) => hosts.any fun h => h.asStr?.any (caddy.host · req.host)
  | ("header", .object fields) => fields.all fun
    | ("X-Atomo-Project", .array values) => req.project.any fun v => values.any fun w => w.asStr?.any (caddy.value · v)
    | _ => false
  | _ => false

/-- A route fires where all the matchers of one of its sets match. -/
def fires (route : Json) : Bool :=
  match route.get? "match" with
  | some (.array sets) => sets.any fun
    | .object matchers => matchers.all (caddy.matcher req)
    | _ => false
  | _ => false

/-- The upstream that a route hands the request to. -/
def dial? (route : Json) : Option String :=
  match route.get? "handle" with
  | some (.array (handler :: _)) =>
    match handler.get? "upstreams" with
    | some (.array (upstream :: _)) => (upstream.get? "dial").bind Json.asStr?
    | _ => none
  | _ => none

def takes (route : Json) : Bool :=
  caddy.fires req route && route.get? "terminal" = some (.bool true)

/-- The first terminal route that fires. -/
def evaluate (routes : List Json) : Option String :=
  (routes.find? (caddy.takes req)).bind dial?

/-- The routes of a configuration. -/
def routesOf (config : Json) : List Json :=
  ((((((config.get? "apps").bind (·.get? "http")).bind (·.get? "servers")).bind (·.get? "srv0")).bind
    (·.get? "routes")).bind Json.asArray?).getD []

/-! ## What is claimed -/

/-- The ways in which a request names a project, the closest first. -/
def byHostname (p : Project) : Bool :=
  p.hostname.any fun h => h ≠ "" && caddy.host h req.host

def byAlias (p : Project) : Bool :=
  p.aliases.any fun a => a ≠ "" && caddy.host a req.host

def byHeader (p : Project) : Bool :=
  req.project.any (caddy.value p.id)

/-- A project that requests can be handed to. -/
def Routable (p : Project) : Prop :=
  ∃ upstream, p.upstream = some upstream ∧ upstream ≠ ""

instance (p : Project) : Decidable (Routable p) :=
  decidable_of_iff (p.upstream.any (· ≠ "") = true) (by cases h : p.upstream <;> simp [Routable, h])

/-- The upstream is that of a project with the hostname; else of one with the alias; else of the one in the header;
else there is none. -/
def Precedence (projects : List Project) (target : Option String) : Prop :=
  (∃ p ∈ projects, Routable p ∧ caddy.byHostname req p = true ∧ target = p.upstream) ∨
    (∀ p ∈ projects, Routable p → caddy.byHostname req p = false) ∧
      ((∃ p ∈ projects, Routable p ∧ caddy.byAlias req p = true ∧ target = p.upstream) ∨
        (∀ p ∈ projects, Routable p → caddy.byAlias req p = false) ∧
          ((∃ p ∈ projects, Routable p ∧ caddy.byHeader req p = true ∧ target = p.upstream) ∨
            (∀ p ∈ projects, Routable p → caddy.byHeader req p = false) ∧ target = none))

/-- How closely a request names a project: 0 by its hostname, 1 by an alias, 2 by the header, 3 not at all. -/
def rank (p : Project) : Nat :=
  if caddy.byHostname req p then 0 else if caddy.byAlias req p then 1 else if caddy.byHeader req p then 2 else 3

def Names (p : Project) : Prop :=
  Routable p ∧ caddy.rank req p < 3

instance (p : Project) : Decidable (caddy.Names req p) := by
  unfold Names
  infer_instance

/-- The first project that the request names, or one with its upstream, is named as closely as any. -/
def ClosestFirst (projects : List Project) : Prop :=
  ∀ p, projects.find? (caddy.Names req ·) = some p →
    ∃ q ∈ projects, caddy.Names req q ∧ q.upstream = p.upstream ∧
      ∀ r ∈ projects, Routable r → caddy.rank req q ≤ caddy.rank req r

/-! ## The first project that is named -/

section

variable {caddy : Caddy} {req : Request} {p : Project} {projects : List Project} {upstream : String}

theorem takes_hostRoute (hosts : List String) :
    caddy.takes req (hostRoute hosts upstream) = hosts.any (caddy.host · req.host) := by
  simp [takes, fires, hostRoute, Json.get?, matcher, Json.asStr?, List.any_map, Function.comp_def]

theorem takes_headerRoute (id : String) :
    caddy.takes req (headerRoute id upstream) = req.project.any (caddy.value id) := by
  simp [takes, fires, headerRoute, Json.get?, matcher, Json.asStr?]

theorem any_hosts : p.hosts.any (caddy.host · req.host) = (caddy.byHostname req p || caddy.byAlias req p) := by
  unfold Project.hosts byHostname byAlias
  rw [List.any_filter, List.any_append]
  cases p.hostname <;> simp

theorem routes_of_routable (h : p.upstream = some upstream) (hne : upstream ≠ "") :
    p.routes = (if p.hosts = [] then [] else [hostRoute p.hosts upstream]) ++ [headerRoute p.id upstream] := by
  unfold Project.routes
  rw [h, Option.filter_some_pos (by simpa using hne)]

theorem routes_of_not_routable (h : ¬Routable p) : p.routes = [] := by
  unfold Project.routes
  split
  · rfl
  · next upstream hfilter =>
    rw [Option.filter_eq_some_iff] at hfilter
    exact absurd ⟨upstream, hfilter.1, by simpa using hfilter.2⟩ h

theorem rank_lt_iff : caddy.rank req p < 3 ↔
    (caddy.byHostname req p || caddy.byAlias req p) = true ∨ caddy.byHeader req p = true := by
  unfold rank
  cases caddy.byHostname req p <;> cases caddy.byAlias req p <;> cases caddy.byHeader req p <;> simp

/-- Of the routes of a project that the request names one is taken, to its upstream. -/
theorem takes_of_names (h : caddy.Names req p) :
    ∃ route, p.routes.find? (caddy.takes req) = some route ∧ dial? route = p.upstream := by
  obtain ⟨⟨upstream, hupstream, hne⟩, hrank⟩ := h
  rw [routes_of_routable hupstream hne, hupstream]
  by_cases hhosts : p.hosts.any (caddy.host · req.host) = true
  · have hsome : p.hosts ≠ [] := by
      intro hnil
      rw [hnil] at hhosts
      cases hhosts
    rw [if_neg hsome, List.cons_append, List.find?_cons_of_pos ((takes_hostRoute _).trans hhosts)]
    exact ⟨_, rfl, rfl⟩
  · have hheader : caddy.byHeader req p = true := by
      rw [any_hosts] at hhosts
      exact (rank_lt_iff.1 hrank).resolve_left hhosts
    have hfirst : (if p.hosts = [] then [] else [hostRoute p.hosts upstream]).find? (caddy.takes req) = none := by
      split
      · rfl
      · rw [List.find?_cons_of_neg (by rwa [takes_hostRoute])]
        rfl
    rw [List.find?_append, hfirst, Option.none_or, List.find?_cons_of_pos ((takes_headerRoute _).trans hheader)]
    exact ⟨_, rfl, rfl⟩

theorem takes_of_not_names (h : ¬caddy.Names req p) : p.routes.find? (caddy.takes req) = none := by
  by_cases hroutable : Routable p
  · have hrank : ¬caddy.rank req p < 3 := fun hrank => h ⟨hroutable, hrank⟩
    rw [rank_lt_iff, not_or] at hrank
    obtain ⟨upstream, hupstream, hne⟩ := hroutable
    rw [routes_of_routable hupstream hne, List.find?_eq_none]
    intro route hroute
    rcases List.mem_append.1 hroute with hroute | hroute
    · split at hroute
      · cases hroute
      · rw [List.mem_singleton.1 hroute, takes_hostRoute, any_hosts]
        exact hrank.1
    · rw [List.mem_singleton.1 hroute, takes_headerRoute]
      exact hrank.2
  · rw [routes_of_not_routable hroutable]
    rfl

/-- Caddy hands a request to the first project that it names in any way. -/
theorem evaluate_routes (projects : List Project) :
    caddy.evaluate req (gatewayRoutes projects) = (projects.find? (caddy.Names req ·)).bind Project.upstream := by
  induction projects with
  | nil => rfl
  | cons p projects ih =>
    unfold evaluate gatewayRoutes at *
    rw [List.flatMap_cons, List.find?_append]
    by_cases hnames : caddy.Names req p
    · obtain ⟨route, hroute, hdial⟩ := takes_of_names hnames
      rw [hroute, List.find?_cons_of_pos (by simpa using hnames)]
      exact hdial
    · rw [takes_of_not_names hnames, Option.none_or, ih, List.find?_cons_of_neg (by simpa using hnames)]

/-! ## The precedence -/

theorem rank_cases (caddy : Caddy) (req : Request) (p : Project) :
    caddy.byHostname req p = true ∧ caddy.rank req p = 0 ∨
      caddy.byHostname req p = false ∧ (caddy.byAlias req p = true ∧ caddy.rank req p = 1 ∨
        caddy.byAlias req p = false ∧ (caddy.byHeader req p = true ∧ caddy.rank req p = 2 ∨
          caddy.byHeader req p = false ∧ caddy.rank req p = 3)) := by
  unfold rank
  cases caddy.byHostname req p <;> cases caddy.byAlias req p <;> cases caddy.byHeader req p <;> simp

theorem byHostname_iff : caddy.byHostname req p = true ↔ caddy.rank req p = 0 := by
  rcases rank_cases caddy req p with ⟨h, hr⟩ | ⟨h, ⟨-, hr⟩ | ⟨-, ⟨-, hr⟩ | ⟨-, hr⟩⟩⟩ <;> simp [h, hr]

theorem byAlias_iff (h : caddy.rank req p ≠ 0) : caddy.byAlias req p = true ↔ caddy.rank req p = 1 := by
  rcases rank_cases caddy req p with ⟨-, hr⟩ | ⟨-, ⟨ha, hr⟩ | ⟨ha, ⟨-, hr⟩ | ⟨-, hr⟩⟩⟩
  · exact absurd hr h
  all_goals simp [ha, hr]

theorem byHeader_iff (h : 1 < caddy.rank req p) : caddy.byHeader req p = true ↔ caddy.rank req p = 2 := by
  rcases rank_cases caddy req p with ⟨-, hr⟩ | ⟨-, ⟨-, hr⟩ | ⟨-, ⟨hh, hr⟩ | ⟨hh, hr⟩⟩⟩
  · omega
  · omega
  all_goals simp [hh, hr]

/-- A precedence over the routable projects whose ranks are at least `n`. -/
theorem precedence_step {P : Project → Prop} {n : Nat} (hn : n < 3) {target : Option String} {rest : Prop}
    (hmin : ∀ r ∈ projects, Routable r → n ≤ caddy.rank req r)
    (hP : ∀ r ∈ projects, Routable r → (P r ↔ caddy.rank req r = n))
    (hrest : (∀ r ∈ projects, Routable r → n < caddy.rank req r) → (rest ↔
      (∃ q ∈ projects, caddy.Names req q ∧ target = q.upstream ∧
        ∀ r ∈ projects, Routable r → caddy.rank req q ≤ caddy.rank req r) ∨
      (∀ r ∈ projects, ¬caddy.Names req r) ∧ target = none)) :
    ((∃ p ∈ projects, Routable p ∧ P p ∧ target = p.upstream) ∨ (∀ p ∈ projects, Routable p → ¬P p) ∧ rest) ↔
      (∃ q ∈ projects, caddy.Names req q ∧ target = q.upstream ∧
        ∀ r ∈ projects, Routable r → caddy.rank req q ≤ caddy.rank req r) ∨
      (∀ r ∈ projects, ¬caddy.Names req r) ∧ target = none := by
  by_cases hsome : ∃ p ∈ projects, Routable p ∧ P p
  · obtain ⟨p, hp, hroutable, hPp⟩ := hsome
    have hrank := (hP p hp hroutable).1 hPp
    constructor
    · rintro (⟨q, hq, hqr, hPq, htarget⟩ | ⟨hnone, -⟩)
      · have hq' := (hP q hq hqr).1 hPq
        exact .inl ⟨q, hq, ⟨hqr, by omega⟩, htarget, fun r hr hrr => hq' ▸ hmin r hr hrr⟩
      · exact absurd hPp (hnone p hp hroutable)
    · rintro (⟨q, hq, hnames, htarget, hleast⟩ | ⟨hnone, -⟩)
      · have hle := hleast p hp hroutable
        have hge := hmin q hq hnames.1
        exact .inl ⟨q, hq, hnames.1, (hP q hq hnames.1).2 (by omega), htarget⟩
      · exact absurd ⟨hroutable, by omega⟩ (hnone p hp)
  · have hnone : ∀ p ∈ projects, Routable p → ¬P p := fun p hp hr hPp => hsome ⟨p, hp, hr, hPp⟩
    have habove : ∀ r ∈ projects, Routable r → n < caddy.rank req r := fun r hr hrr =>
      Nat.lt_of_le_of_ne (hmin r hr hrr) fun heq => hnone r hr hrr ((hP r hr hrr).2 heq.symm)
    rw [← hrest habove]
    constructor
    · rintro (⟨q, hq, hqr, hPq, -⟩ | ⟨-, h⟩)
      · exact absurd hPq (hnone q hq hqr)
      · exact h
    · exact fun h => .inr ⟨hnone, h⟩

/-- The precedence is that of the ranks. -/
theorem precedence_iff_rank (target : Option String) : caddy.Precedence req projects target ↔
    (∃ q ∈ projects, caddy.Names req q ∧ target = q.upstream ∧
      ∀ r ∈ projects, Routable r → caddy.rank req q ≤ caddy.rank req r) ∨
    (∀ r ∈ projects, ¬caddy.Names req r) ∧ target = none := by
  unfold Precedence
  simp only [← Bool.not_eq_true]
  refine precedence_step (n := 0) (by omega) (fun _ _ _ => Nat.zero_le _) (fun r _ _ => byHostname_iff) fun hhost => ?_
  refine precedence_step (n := 1) (by omega) hhost
    (fun r hr hrr => byAlias_iff (Nat.pos_iff_ne_zero.1 (hhost r hr hrr))) fun halias => ?_
  refine precedence_step (n := 2) (by omega) halias (fun r hr hrr => byHeader_iff (halias r hr hrr)) fun hheader => ?_
  have hnone : ∀ r ∈ projects, ¬caddy.Names req r := fun r hr hnames => by
    have := hheader r hr hnames.1
    have := hnames.2
    omega
  constructor
  · exact fun htarget => .inr ⟨hnone, htarget⟩
  · rintro (⟨q, hq, hnames, -, -⟩ | ⟨-, htarget⟩)
    · exact absurd hnames (hnone q hq)
    · exact htarget

theorem routesOf_renderGateway (projects : List Project) : routesOf (renderGateway projects) = gatewayRoutes projects :=
  rfl

/-- The routes of a fleet send a request where the precedence says exactly where the first project that the request
names, or one with its upstream, is named as closely as any. -/
theorem precedence_iff (caddy : Caddy) (req : Request) (projects : List Project) :
    caddy.Precedence req projects (caddy.evaluate req (routesOf (renderGateway projects))) ↔
      caddy.ClosestFirst req projects := by
  rw [routesOf_renderGateway, evaluate_routes, precedence_iff_rank]
  unfold ClosestFirst
  cases hfind : projects.find? (caddy.Names req ·) with
  | none =>
    have hnone : ∀ r ∈ projects, ¬caddy.Names req r := by
      intro r hr
      simpa using List.find?_eq_none.1 hfind r hr
    refine ⟨fun _ p hp => ?_, fun _ => .inr ⟨hnone, rfl⟩⟩
    cases hp
  | some p =>
    have hp : p ∈ projects := List.mem_of_find?_eq_some hfind
    have hnames : caddy.Names req p := by simpa using List.find?_some hfind
    constructor
    · rintro (⟨q, hq, hqnames, hupstream, hleast⟩ | ⟨hnone, -⟩) p' hp'
      · cases hp'
        exact ⟨q, hq, hqnames, hupstream.symm, hleast⟩
      · exact absurd hnames (hnone p hp)
    · intro hclosest
      obtain ⟨q, hq, hqnames, hupstream, hleast⟩ := hclosest p rfl
      exact .inl ⟨q, hq, hqnames, hupstream.symm, hleast⟩

end

/-! ### A header before a hostname -/

def site (id hostname upstream : String) : Project where
  id
  hostname := some hostname
  aliases := []
  databaseUrlRef := "/atomo/" ++ id ++ "/DATABASE_URL"
  schemaRef := .volume ("/schemas/" ++ id)
  schemaVersion := none
  upstream := some upstream
  env := .object []
  status := .running
  desiredState := .running
  lastHealth := none

def sites : List Project :=
  [site "a" "a.example.com" "127.0.0.1:4097", site "b" "b.example.com" "127.0.0.1:4098"]

/-- A request for the hostname of one project goes to the other, which it names in the header. -/
theorem header_before_hostname : ¬∀ (caddy : Caddy) (req : Request) (projects : List Project),
    caddy.Precedence req projects (caddy.evaluate req (routesOf (renderGateway projects))) := by
  intro h
  let caddy : Caddy := ⟨fun a b => a == b, fun a b => a == b⟩
  have hroute := h caddy ⟨"b.example.com", some "a"⟩ sites
  have hb : site "b" "b.example.com" "127.0.0.1:4098" ∈ sites := by simp [sites]
  have hroutable : Routable (site "b" "b.example.com" "127.0.0.1:4098") := by decide
  rw [precedence_iff_rank, routesOf_renderGateway, evaluate_routes] at hroute
  rcases hroute with ⟨q, hq, -, htarget, hleast⟩ | ⟨hnone, -⟩
  · simp only [sites, List.mem_cons, List.not_mem_nil, or_false] at hq
    rcases hq with rfl | rfl
    · have hle := hleast _ hb hroutable
      exact absurd hle (by decide)
    · revert htarget
      decide
  · have hnot := hnone _ hb
    exact absurd hnot (by decide)

end Caddy

end Atomo.ControlPlane

import Atomo.Client.Batches
import Atomo.GraphQL.PublicReads
import Atomo.Lib.Table
import Atomo.Lib.Walk

/-!
# Public redirects

The redirects of the public reads and a client that follows them. A slug that no public record has leads to the slug
that it is redirected to (`hop`), and the redirects form any graph that operators write. A client comes to a response
that is not a redirect after at most as many hops as the model has redirects, unless the slugs lead it into a cycle; then
it never does (`follow_settles`).
-/

namespace Atomo.GraphQL

open Schema (lookup?)
open Query (tableName)
open Db (Row Tables)
open Client (Env Scope World Record)

/-! ## The redirects -/

/-- A row of `public_read_redirects`. -/
structure RedirectRow where
  model : String
  fromSlug : String
  toSlug : String
  permanent : Bool

namespace RedirectStore

def keyed (model fromSlug : String) (row : RedirectRow) : Bool :=
  row.model = model ∧ row.fromSlug = fromSlug

/-- `RedirectStore::lookup`. -/
def lookup (rows : List RedirectRow) (model fromSlug : String) : Option RedirectRow :=
  rows.find? (keyed model fromSlug)

/-- `RedirectStore::upsert`. -/
def upsert (rows : List RedirectRow) (model fromSlug toSlug : String) (permanent : Bool) : List RedirectRow :=
  if rows.any (keyed model fromSlug) then
    Table.update (keyed model fromSlug) (fun row => { row with toSlug := toSlug, permanent := permanent }) rows
  else rows ++ [⟨model, fromSlug, toSlug, permanent⟩]

/-- `RedirectStore::remove`, and whether there was a row. -/
def remove (rows : List RedirectRow) (model fromSlug : String) : List RedirectRow × Bool :=
  (rows.filter fun row => !keyed model fromSlug row, 0 < Table.affected (keyed model fromSlug) rows)

/-- A row that is found is one of the key. -/
theorem of_lookup {rows : List RedirectRow} {model fromSlug : String} {row : RedirectRow}
    (h : lookup rows model fromSlug = some row) : row ∈ rows ∧ row.model = model ∧ row.fromSlug = fromSlug := by
  have hkeyed : keyed model fromSlug row = true := List.find?_some h
  exact ⟨List.mem_of_find?_eq_some h, of_decide_eq_true hkeyed⟩

/-- A call that changes the redirects. -/
inductive Call where
  | upsert (model fromSlug toSlug : String) (permanent : Bool)
  | remove (model fromSlug : String)

def apply (rows : List RedirectRow) : Call → List RedirectRow
  | .upsert model fromSlug toSlug permanent => upsert rows model fromSlug toSlug permanent
  | .remove model fromSlug => (remove rows model fromSlug).1

/-- The redirects that are left by some calls. -/
def after (calls : List Call) : List RedirectRow :=
  calls.foldl apply []

end RedirectStore

/-- A deployment with redirects. -/
def PublicReads.redirecting (config : PublicReads) (rows : List RedirectRow) : PublicReads :=
  { config with redirect := fun model slug =>
      (RedirectStore.lookup rows model slug).map fun row => { toSlug := row.toSlug, permanent := row.permanent } }

/-! ## The client -/

/-- A request, whose parameters a map has taken. -/
structure Request where
  modelName : String
  params : List (String × String)
  distinct : (params.map Prod.fst).Nodup

/-- The parameters with another slug. -/
def withSlug (slug : String) (params : List (String × String)) : List (String × String) :=
  params.map fun entry => if entry.1 = "slug" then (entry.1, slug) else entry

/-- The `Location` of a request. -/
def location (config : PublicReads) (modelName : String) (params : List (String × String)) : String :=
  "/public/records/" ++ modelName ++ "?" ++
    "&".intercalate (params.map fun entry => entry.1 ++ "=" ++ config.encode entry.2)

variable (env : Env) (scope : Scope) (config : PublicReads) (read : String → Option Request)

/-- A client that follows `n` redirects at most. What is at a `Location` that is not one of a request is not found. -/
def follow : Nat → Request → EStateM PublicError World PublicResponse
  | 0, request => publicRecords env scope config request.modelName request.params
  | n + 1, request => do
    match ← publicRecords env scope config request.modelName request.params with
    | .items records => return .items records
    | .redirect _ location =>
      match read location with
      | some next => follow n next
      | none => throw .notFound

/-- After `n` redirects at most the response is not a redirect: it has the records, or is an error. -/
def Settles (n : Nat) (request : Request) (w : World) : Prop :=
  Ends (follow env scope config read n request) w (fun response _ => ∃ records, response = .items records)
    (fun _ _ => True)

/-- A row is about to be shown to a request. -/
def hasRecord (modelName : String) (params : List (String × String)) (tables : Tables) : Bool :=
  match env.schema.model? modelName with
  | none => false
  | some model => (tables (tableName env.casing model)).rows.any
      (matchesRow env scope (tableName env.casing model) (publicClauses config modelName params))

/-- The slug that a slug leads to. -/
def hop (rows : List RedirectRow) (modelName : String) (params : List (String × String)) (tables : Tables)
    (slug : String) : Option String :=
  if hasRecord env scope config modelName (withSlug slug params) tables then none
  else (RedirectStore.lookup rows modelName slug).map (·.toSlug)

/-- The slugs lead a request into a cycle. -/
def Circular (rows : List RedirectRow) (request : Request) (tables : Tables) : Prop :=
  ∃ slug, lookup? "slug" request.params = some slug ∧
    Walk.Trapped (hop env scope config rows request.modelName request.params tables) slug

/-- Another request is this one with a slug, in some order. -/
def Request.At (request : Request) (slug : String) (other : Request) : Prop :=
  other.modelName = request.modelName ∧ other.params.Perm (withSlug slug request.params)

/-- What is written for the request, with the slug of a redirect of the model, is read as that: the parameters are a map,
which keeps them in an order of its own. -/
def ReadsBack (rows : List RedirectRow) (request : Request) : Prop :=
  ∀ row ∈ rows, row.model = request.modelName → ∀ target, target.Perm (withSlug row.toSlug request.params) →
    ∃ next, read (location config request.modelName target) = some next ∧ next.modelName = request.modelName ∧
      next.params.Perm target

/-- No read of the model with the parameters of the request is refused. -/
def NeverRefused (request : Request) (tables : Tables) : Prop :=
  ∀ slug target w, target.Perm (withSlug slug request.params) → w.store.tables = tables →
    ∃ response w', publicRecords env scope config request.modelName target w = .ok response w'

/-! ## The parameters -/

section

variable {slug slug' : String} {params params' : List (String × String)}

@[simp] theorem keys_withSlug : (withSlug slug params).map Prod.fst = params.map Prod.fst := by
  unfold withSlug
  rw [List.map_map]
  refine List.map_congr_left fun entry _ => ?_
  dsimp only [Function.comp]
  split <;> rfl

theorem withSlug_withSlug : withSlug slug' (withSlug slug params) = withSlug slug' params := by
  unfold withSlug
  rw [List.map_map]
  refine List.map_congr_left fun entry _ => ?_
  by_cases hslug : entry.1 = "slug" <;> simp [hslug]

theorem lookup?_withSlug (h : lookup? "slug" params ≠ none) : lookup? "slug" (withSlug slug params) = some slug := by
  induction params with
  | nil => exact absurd rfl h
  | cons entry params ih =>
    unfold withSlug lookup? at ih ⊢
    unfold lookup? at h
    by_cases hslug : entry.1 = "slug"
    · simp [hslug]
    · simp only [List.map_cons, if_neg hslug, List.find?_cons, decide_eq_false hslug] at h ⊢
      exact ih h

theorem withSlug_of_not_mem (h : "slug" ∉ params.map Prod.fst) : withSlug slug params = params := by
  induction params with
  | nil => rfl
  | cons entry params ih =>
    rw [List.map_cons, List.mem_cons, not_or] at h
    exact congrArg₂ List.cons (if_neg (Ne.symm h.1)) (ih h.2)

theorem withSlug_self (hdistinct : (params.map Prod.fst).Nodup) (h : lookup? "slug" params = some slug) :
    withSlug slug params = params := by
  induction params with
  | nil => rfl
  | cons entry params ih =>
    rw [List.map_cons, List.nodup_cons] at hdistinct
    by_cases hslug : entry.1 = "slug"
    · have hvalue : entry.2 = slug := by simpa [lookup?, hslug] using h
      refine congrArg₂ List.cons ?_ (withSlug_of_not_mem (hslug ▸ hdistinct.1))
      dsimp only
      rw [if_pos hslug, ← hvalue]
    · refine congrArg₂ List.cons (if_neg hslug) (ih hdistinct.2 ?_)
      rw [← h]
      simp [lookup?, hslug]

theorem lookup?_target {target : List (String × String)} (hdistinct : (params.map Prod.fst).Nodup)
    (hslug : lookup? "slug" params ≠ none) (htarget : target.Perm (withSlug slug params)) :
    lookup? "slug" target = some slug := by
  rw [← lookup?_withSlug hslug]
  refine (Client.lookup?_perm htarget.symm ?_ _).symm
  rwa [keys_withSlug]

end

/-! ## A hop -/

variable {env scope config read} {rows : List RedirectRow} {modelName : String} {params target : List (String × String)}
  {tables : Tables} {slug : String} {request other : Request} {n : Nat} {w : World}

/-- The order of the parameters makes no difference to the clauses. -/
theorem publicClauses_perm (hdistinct : (target.map Prod.fst).Nodup) (h : target.Perm params) :
    publicClauses config modelName target = publicClauses config modelName params := by
  have hparam : insertParam target = insertParam params := by
    funext map field
    unfold insertParam
    rw [Client.lookup?_perm h hdistinct]
  unfold publicClauses publicWhere buildPublicWhere
  rw [hparam]

theorem emptyResponse_redirecting (h : lookup? "slug" target = some slug) :
    emptyResponse (config.redirecting rows) modelName target =
      match RedirectStore.lookup rows modelName slug with
      | none => .items []
      | some row => .redirect row.permanent (location config modelName (withSlug row.toSlug target)) := by
  unfold emptyResponse PublicReads.redirecting
  rw [h]
  dsimp only [Option.bind_some]
  cases RedirectStore.lookup rows modelName slug <;> rfl

/-- Records are found exactly where a row is there to be shown. -/
theorem finds_nil_iff {clauses : List Query.WhereClause} {limit : Nat} {w' : World} {records : List Record}
    (hclauses : clauses = publicClauses config modelName params) (hlimit : 1 ≤ limit)
    (h : Finds env scope modelName clauses (some limit) none (camelKeys env.casing) w w' records) :
    records = [] ↔ hasRecord env scope config modelName params w.store.tables = false := by
  obtain ⟨model, found, hmodel, ⟨order, hselected⟩, ⟨hrecords, -⟩⟩ := h
  subst hclauses
  have hempty : found = [] ↔ (w.store.tables (tableName env.casing model)).rows.filter
      (matchesRow env scope (tableName env.casing model) (publicClauses config modelName params)) = [] := by
    rw [hselected]
    unfold Db.page
    dsimp only [Option.getD_none]
    have hsort := (env.pg.sort_perm order ((w.store.tables (tableName env.casing model)).rows.filter
      (matchesRow env scope (tableName env.casing model) (publicClauses config modelName params)))).length_eq
    rw [List.take_eq_nil_iff, or_iff_right (by omega), List.drop_zero, ← List.length_eq_zero_iff, hsort,
      List.length_eq_zero_iff]
  rw [hrecords, List.map_eq_nil_iff, hempty]
  unfold hasRecord
  rw [hmodel]
  simp only [List.any_eq_false, List.filter_eq_nil_iff]

theorem Finds.tables_eq {clauses : List Query.WhereClause} {limit offset : Option Nat} {show_ : Record → Record} {w' : World}
    {records : List Record} (h : Finds env scope modelName clauses limit offset show_ w w' records) :
    w'.store.tables = w.store.tables := by
  obtain ⟨model, found, hmodel, -, -, -, htables⟩ := h
  rw [htables]
  simp only [ite_self, List.filterMap_some, Function.update_eq_self]

/-- A request with a slug is answered by its records, by the redirect to the slug that the slug leads to, or by nothing. -/
theorem publicRecords_hop (hslug : lookup? "slug" request.params ≠ none) (hat : request.At slug other) :
    Ends (publicRecords env scope (config.redirecting rows) other.modelName other.params) w
      (fun response w' => w'.store.tables = w.store.tables ∧
        match hop env scope config rows request.modelName request.params w.store.tables slug with
        | none => ∃ records, response = .items records
        | some toSlug => ∃ permanent,
          response = .redirect permanent (location config request.modelName (withSlug toSlug other.params)))
      (fun _ _ => True) := by
  obtain ⟨hmodel, hparams⟩ := hat
  rw [hmodel]
  refine (publicRecords_ends w).mono (fun response w' hends => ?_) (fun _ _ _ => trivial)
  obtain ⟨-, -, records, hfinds, hresponse⟩ := hends
  have hnone : records = [] ↔ hasRecord env scope config request.modelName (withSlug slug request.params) w.store.tables =
      false :=
    finds_nil_iff (publicClauses_perm other.distinct hparams) (publicLimit_bounds _).1 hfinds
  refine ⟨hfinds.tables_eq, ?_⟩
  unfold hop
  cases hrecord : hasRecord env scope config request.modelName (withSlug slug request.params) w.store.tables with
  | true =>
    rw [if_pos rfl]
    rw [if_neg (by simp [hnone, hrecord])] at hresponse
    exact ⟨records, hresponse⟩
  | false =>
    rw [if_neg Bool.false_ne_true]
    rw [if_pos (hnone.2 hrecord), emptyResponse_redirecting (lookup?_target request.distinct hslug hparams)] at hresponse
    cases hlookup : RedirectStore.lookup rows request.modelName slug with
    | none =>
      rw [hlookup] at hresponse
      exact ⟨[], hresponse⟩
    | some row =>
      rw [hlookup] at hresponse
      exact ⟨row.permanent, hresponse⟩

/-! ## The way of a client -/

theorem settles_of_items (h : Ends (publicRecords env scope config request.modelName request.params) w
    (fun response _ => ∃ records, response = .items records) (fun _ _ => True)) :
    Settles env scope config read n request w := by
  cases n with
  | zero => exact h
  | succ n =>
    refine h.bind fun response w' hitems => ?_
    obtain ⟨records, rfl⟩ := hitems
    exact Ends.pure ⟨records, rfl⟩

/-- The client has followed a redirect. -/
theorem follow_redirect {permanent : Bool} {location : String} {w' : World} {next : Request}
    (hrun : publicRecords env scope config request.modelName request.params w = .ok (.redirect permanent location) w')
    (hnext : read location = some next) :
    follow env scope config read (n + 1) request w = follow env scope config read n next w' := by
  refine (bind_of_ok hrun).trans ?_
  simp only [hnext]

/-- The `Location` of a redirect is read as the request with the slug that it leads to. -/
theorem exists_next {toSlug : String} (hread : ReadsBack config read rows request) (hat : request.At slug other)
    (hhop : hop env scope config rows request.modelName request.params tables slug = some toSlug) :
    ∃ next, read (location config request.modelName (withSlug toSlug other.params)) = some next ∧
      request.At toSlug next := by
  have htarget : (withSlug toSlug other.params).Perm (withSlug toSlug request.params) := by
    have hperm : (withSlug toSlug other.params).Perm (withSlug toSlug (withSlug slug request.params)) := hat.2.map _
    rwa [withSlug_withSlug] at hperm
  unfold hop at hhop
  split at hhop
  · cases hhop
  · obtain ⟨row, hlookup, rfl⟩ := Option.map_eq_some_iff.1 hhop
    obtain ⟨hrow, hmodel, -⟩ := RedirectStore.of_lookup hlookup
    obtain ⟨next, hnext, hmodel, hperm⟩ := hread row hrow hmodel _ htarget
    exact ⟨next, hnext, hmodel, hperm.trans htarget⟩

/-- A client settles from a slug which the way of the slugs stops from. -/
theorem settles_of_halts (hslug : lookup? "slug" request.params ≠ none) (hread : ReadsBack config read rows request)
    (h : Walk.Halts (hop env scope config rows request.modelName request.params tables) n slug)
    (hat : request.At slug other) (htables : w.store.tables = tables) :
    Settles env scope (config.redirecting rows) read n other w := by
  induction h generalizing other w with
  | stop last =>
    refine settles_of_items ((publicRecords_hop hslug hat).mono (fun response w' hends => ?_) fun _ _ => id)
    rw [htables, last] at hends
    exact hends.2
  | step here rest ih =>
    obtain ⟨next, hnext, hthere⟩ := exists_next hread hat here
    refine (publicRecords_hop hslug hat).bind fun response w' hends => ?_
    obtain ⟨hkept, hresponse⟩ := hends
    rw [htables, here] at hresponse
    obtain ⟨permanent, rfl⟩ := hresponse
    simp only [hnext]
    exact ih hthere (hkept.trans htables)

/-- A client that has no slug settles at once. -/
theorem settles_of_no_slug (h : lookup? "slug" request.params = none) : Settles env scope config read n request w := by
  refine settles_of_items ((publicRecords_ends w).mono (fun response w' hends => ?_) fun _ _ => id)
  obtain ⟨-, -, records, -, rfl⟩ := hends
  unfold emptyResponse
  rw [h]
  split
  · exact ⟨[], rfl⟩
  · exact ⟨records, rfl⟩

/-- A slug that leads to another is redirected to it, where reads are not refused. -/
theorem redirect_of_hop {toSlug : String} (hslug : lookup? "slug" request.params ≠ none)
    (hread : ReadsBack config read rows request)
    (hanswers : NeverRefused env scope (config.redirecting rows) request tables) (hat : request.At slug other)
    (htables : w.store.tables = tables)
    (here : hop env scope config rows request.modelName request.params tables slug = some toSlug) :
    ∃ permanent location w' next, publicRecords env scope (config.redirecting rows) other.modelName other.params w =
        .ok (.redirect permanent location) w' ∧
      read location = some next ∧ request.At toSlug next ∧ w'.store.tables = tables := by
  obtain ⟨next, hnext, hthere⟩ := exists_next hread hat here
  obtain ⟨response, w', hrun⟩ := hanswers slug other.params w hat.2 htables
  rw [← hat.1] at hrun
  obtain ⟨hkept, hresponse⟩ := (publicRecords_hop hslug hat).ok hrun
  rw [htables, here] at hresponse
  obtain ⟨permanent, rfl⟩ := hresponse
  exact ⟨permanent, _, w', next, hrun, hnext, hthere, hkept.trans htables⟩

/-- A client that is answered is still redirected after any number of hops in a cycle. -/
theorem redirected_of_trapped (hslug : lookup? "slug" request.params ≠ none) (hread : ReadsBack config read rows request)
    (hanswers : NeverRefused env scope (config.redirecting rows) request tables)
    (h : Walk.Trapped (hop env scope config rows request.modelName request.params tables) slug)
    (hat : request.At slug other) (htables : w.store.tables = tables) :
    ∃ permanent location w', follow env scope (config.redirecting rows) read n other w =
      .ok (.redirect permanent location) w' := by
  induction n generalizing slug other w with
  | zero =>
    obtain ⟨toSlug, here, -⟩ := h.exists_step
    obtain ⟨permanent, location, w', -, hrun, -⟩ := redirect_of_hop hslug hread hanswers hat htables here
    exact ⟨permanent, location, w', hrun⟩
  | succ n ih =>
    obtain ⟨toSlug, here, htrapped⟩ := h.exists_step
    obtain ⟨_, _, w', next, hrun, hnext, hthere, hkept⟩ := redirect_of_hop hslug hread hanswers hat htables here
    rw [follow_redirect hrun hnext]
    exact ih htrapped hthere hkept

/-- A request with a slug is at it. -/
theorem at_self (h : lookup? "slug" request.params = some slug) : request.At slug request :=
  ⟨rfl, by rw [withSlug_self request.distinct h]⟩

/-- Only the slugs of the model's redirects lead to others. -/
theorem mem_of_hop (h : hop env scope config rows modelName params tables slug ≠ none) :
    slug ∈ (rows.filter fun row => row.model = modelName).map (·.fromSlug) := by
  unfold hop at h
  split at h
  · exact absurd rfl h
  · cases hlookup : RedirectStore.lookup rows modelName slug with
    | none =>
      rw [hlookup] at h
      exact absurd rfl h
    | some row =>
      obtain ⟨hrow, hmodel, hslug⟩ := RedirectStore.of_lookup hlookup
      exact List.mem_map.2 ⟨row, List.mem_filter.2 ⟨hrow, decide_eq_true hmodel⟩, hslug⟩

theorem settles_of_not_circular (hread : ReadsBack config read rows request)
    (h : ¬Circular env scope config rows request w.store.tables) :
    Settles env scope (config.redirecting rows) read (rows.countP fun row => row.model = request.modelName) request w := by
  cases hslug : lookup? "slug" request.params with
  | none => exact settles_of_no_slug hslug
  | some slug =>
    have hhalts := Walk.halts_of_not_trapped (a := slug) (fun other _ => mem_of_hop)
      fun htrapped => h ⟨slug, hslug, htrapped⟩
    rw [List.length_map, ← List.countP_eq_length_filter] at hhalts
    exact settles_of_halts (by simp [hslug]) hread hhalts (at_self hslug) rfl

theorem not_settles_of_circular (hread : ReadsBack config read rows request)
    (hanswers : NeverRefused env scope (config.redirecting rows) request w.store.tables)
    (h : Circular env scope config rows request w.store.tables) :
    ¬Settles env scope (config.redirecting rows) read n request w := by
  intro hsettles
  obtain ⟨slug, hslug, htrapped⟩ := h
  obtain ⟨permanent, location, w', hrun⟩ :=
    redirected_of_trapped (by simp [hslug]) hread hanswers htrapped (at_self hslug) rfl
  obtain ⟨records, hitems⟩ := hsettles.ok hrun
  cases hitems

/-- Whatever redirects have been put in and removed and whatever records there are, who follows the redirects from a
request comes to a response that is not one after as many hops as the model has redirects, unless the slugs lead the
request into a cycle; and then never, as long as no read is refused. -/
theorem follow_settles (env : Env) (scope : Scope) (config : PublicReads) (calls : List RedirectStore.Call)
    (read : String → Option Request) (request : Request) (w : World)
    (hread : ReadsBack config read (RedirectStore.after calls) request) :
    (¬Circular env scope config (RedirectStore.after calls) request w.store.tables →
      Settles env scope (config.redirecting (RedirectStore.after calls)) read
        ((RedirectStore.after calls).countP fun row => row.model = request.modelName) request w) ∧
    (Circular env scope config (RedirectStore.after calls) request w.store.tables →
      NeverRefused env scope (config.redirecting (RedirectStore.after calls)) request w.store.tables →
      ∀ n, ¬Settles env scope (config.redirecting (RedirectStore.after calls)) read n request w) :=
  ⟨settles_of_not_circular hread, fun hcircular hanswers _ => not_settles_of_circular hread hanswers hcircular⟩

/-! ## Two slugs -/

/-- The request for a slug. -/
def slugRequest (slug : String) : Request where
  modelName := "Note"
  params := [("slug", slug)]
  distinct := List.nodup_singleton _

/-- What is at the two `Location`s. -/
def readSlug (location : String) : Option Request :=
  if location = "/public/records/Note?slug=old" then some (slugRequest "old")
  else if location = "/public/records/Note?slug=new" then some (slugRequest "new")
  else none

theorem slug_clauses (slug : String) : publicClauses (publicReads "" "slug") "Note" [("slug", slug)] =
    [⟨"slug", .equals, .string slug⟩, Query.SqlBuilder.notDeleted] := by
  rfl

/-- No notes, and a slug for each. -/
def noNotes : World :=
  blankWorld [⟨"slug", .equals, .string ""⟩, Query.SqlBuilder.notDeleted]

theorem readSlug_location {slug : String} (h : slug = "old" ∨ slug = "new") :
    readSlug (location (publicReads "" "slug") "Note" [("slug", slug)]) = some (slugRequest slug) := by
  cases h with
  | inl hold =>
    subst hold
    rfl
  | inr hnew =>
    subst hnew
    rfl

theorem readSlug_readsBack {calls : List RedirectStore.Call} {slug : String}
    (h : ∀ row ∈ RedirectStore.after calls, row.toSlug = "old" ∨ row.toSlug = "new") :
    ReadsBack (publicReads "" "slug") readSlug (RedirectStore.after calls) (slugRequest slug) := by
  intro row hrow _ target htarget
  have htarget : target = [("slug", row.toSlug)] := List.perm_singleton.1 htarget
  subst htarget
  exact ⟨slugRequest row.toSlug, readSlug_location (h row hrow), rfl, .refl _⟩

theorem noNotes_never_refused {rows : List RedirectRow} {slug : String} :
    NeverRefused (.bare publicSchema) {} ((publicReads "" "slug").redirecting rows) (slugRequest slug)
      noNotes.store.tables := by
  intro slug' target w htarget htables
  have htarget : target = [("slug", slug')] := List.perm_singleton.1 htarget
  subst htarget
  have hlisted : "Note" ∈ parsePublicReadFields ((publicReads "" "slug").redirecting rows).models := by
    show "Note" ∈ parsePublicReadFields "Note"
    decide
  have hclauses : publicClauses ((publicReads "" "slug").redirecting rows) "Note" [("slug", slug')] =
      [⟨"slug", .equals, .string slug'⟩, Query.SqlBuilder.notDeleted] := slug_clauses slug'
  obtain ⟨w', hrun⟩ := answered hlisted (htables.trans (by rw [hclauses]; rfl))
  exact ⟨_, w', hrun⟩

/-- Of a slug that is renamed, the new one is not redirected. -/
theorem follow_settles_renamed :
    Settles (.bare publicSchema) {} ((publicReads "" "slug").redirecting
      (RedirectStore.after [.upsert "Note" "old" "new" true])) readSlug 1 (slugRequest "old") noNotes := by
  have hread : ReadsBack (publicReads "" "slug") readSlug (RedirectStore.after [.upsert "Note" "old" "new" true])
      (slugRequest "old") :=
    readSlug_readsBack fun row hrow => .inr (List.mem_singleton.1 hrow ▸ rfl)
  have hhalts : Walk.Halts (hop (.bare publicSchema) {} (publicReads "" "slug")
      (RedirectStore.after [.upsert "Note" "old" "new" true]) "Note" [("slug", "old")] noNotes.store.tables) 1 "old" :=
    .step (b := "new") rfl (.stop rfl)
  refine (follow_settles _ _ _ _ _ _ noNotes hread).1 ?_
  rintro ⟨slug, hslug, htrapped⟩
  cases hslug
  exact hhalts.not_trapped htrapped

/-- The notes are renamed and renamed back. -/
def thereAndBack : List RedirectStore.Call :=
  [.upsert "Note" "old" "new" true, .upsert "Note" "new" "old" true]

/-- With no note of either slug, each slug is redirected to the other. -/
theorem renamed_back : ¬∀ (env : Env) (scope : Scope) (config : PublicReads) (calls : List RedirectStore.Call)
    (read : String → Option Request) (request : Request) (w : World),
    ReadsBack config read (RedirectStore.after calls) request →
      ∃ n, Settles env scope (config.redirecting (RedirectStore.after calls)) read n request w := by
  intro h
  have hrows : RedirectStore.after thereAndBack = [⟨"Note", "old", "new", true⟩, ⟨"Note", "new", "old", true⟩] := rfl
  have hread : ReadsBack (publicReads "" "slug") readSlug (RedirectStore.after thereAndBack) (slugRequest "old") := by
    refine readSlug_readsBack fun row hrow => ?_
    rw [hrows] at hrow
    cases hrow with
    | head => exact .inr rfl
    | tail _ hrow => exact .inl (List.mem_singleton.1 hrow ▸ rfl)
  have hcircular : Circular (.bare publicSchema) {} (publicReads "" "slug") (RedirectStore.after thereAndBack)
      (slugRequest "old") noNotes.store.tables :=
    ⟨"old", rfl, "old", .refl, .tail (.single (b := "new") rfl) rfl⟩
  obtain ⟨n, hsettles⟩ := h _ _ _ thereAndBack _ _ noNotes hread
  exact not_settles_of_circular hread noNotes_never_refused hcircular hsettles

end Atomo.GraphQL

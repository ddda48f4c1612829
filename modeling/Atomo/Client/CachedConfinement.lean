import Atomo.Cache.Freshness
import Atomo.Client.CachedReads
import Atomo.Client.Confinement

/-!
# Confinement behind the cache

Every entry of the read cache has a key that ends in the text of the tenant that it was read for, and no two
tenants have one text. So what a call of a tenant is answered from the cache was shown to the same tenant by
the database, and with row-level security on no call is answered with a row of another tenant
(`call_confined`).
-/

namespace Atomo.Client.Cached

open Schema (lookup?)
open Query (WhereClause OrderDirection)
open Db (Tables Spares isOwn)

variable (env : CachedEnv)

/-! ## Calls -/

/-- The reads and writes of `AtomoClient`. -/
inductive Request where
  | findMany (modelName : String) (clauses : List WhereClause) (orderBy : List (String × OrderDirection))
      (limit offset : Option Nat) (includes : List String)
  | findDeleted (modelName : String) (clauses : List WhereClause) (orderBy : List (String × OrderDirection))
      (limit offset : Option Nat)
  | findUnique (modelName : String) (clauses : List WhereClause) (includes : List String)
  | count (modelName : String) (clauses : List WhereClause)
  | countDeleted (modelName : String) (clauses : List WhereClause)
  | write (modelName : String) (actor : Option String) (write : Write)
  | createChecked (role : Option String) (modelName : String) (data : Record) (actor : Option String)
  | updateManyChecked (role : Option String) (modelName : String) (clauses : List WhereClause) (data : Record)
      (actor : Option String)
  | deleteManyChecked (role : Option String) (modelName : String) (clauses : List WhereClause) (actor : Option String)

inductive Answer where
  | records (records : List Record)
  | record (record : Option Record)
  | number (n : Int64)
  | reply (reply : Reply)

def Request.run (scope : Scope) : Request → CachedProgram Answer
  | findMany modelName clauses orderBy limit offset includes => do
    return .records (← Cached.findMany env scope modelName clauses orderBy limit offset includes)
  | findDeleted modelName clauses orderBy limit offset => do
    return .records (← Cached.findDeleted env scope modelName clauses orderBy limit offset)
  | findUnique modelName clauses includes => do
    return .record (← Cached.findUnique env scope modelName clauses includes)
  | count modelName clauses => do
    return .number (← Cached.count env scope modelName clauses)
  | countDeleted modelName clauses => do
    return .number (← Cached.countDeleted env scope modelName clauses)
  | write modelName actor what => do
    return .reply (← onClient env (what.run env.client scope modelName actor))
  | createChecked role modelName data actor => do
    return .reply (.record (← onClient env (Client.createChecked env.client scope role modelName data actor)))
  | updateManyChecked role modelName clauses data actor => do
    return .reply (.records (← onClient env (Client.updateManyChecked env.client scope role modelName clauses data actor)))
  | deleteManyChecked role modelName clauses actor => do
    return .reply (.count (← onClient env (Client.deleteManyChecked env.client scope role modelName clauses actor)))

/-- What happens to a client: a call for a tenant or for none, a change of the store that it has no part in, or
the upkeep of its cache. -/
inductive Happening where
  | call (scope : Scope) (request : Request)
  | outside (store : Store)
  | maintain

def step (cw : CachedWorld) : Happening → CachedWorld
  | .call scope request =>
    match request.run env scope cw with
    | .ok _ cw' | .error _ cw' => cw'
  | .outside store => { cw with world := { cw.world with store } }
  | .maintain => { cw with cache := cw.cache.reclaim env.cache (env.instant cw.asked), asked := cw.asked + 1 }

def runAll (cw : CachedWorld) (happenings : List Happening) : CachedWorld :=
  happenings.foldl (step env) cw

/-- The tables that there are in the course of a run. -/
def tablesAlong (cw : CachedWorld) : List Happening → List Tables
  | [] => [cw.world.store.tables]
  | happening :: happenings => cw.world.store.tables :: tablesAlong (step env cw happening) happenings

/-! ## What a tenant is shown -/

/-- The value of an include: records of the tenant. -/
def Included (tenant : String) (seen : List Tables) (value : Json) : Prop :=
  (∃ record, value = .object record ∧ Stored env.client.pg tenant seen record) ∨
    ∃ records, value = encodeRecords records ∧ ∀ record ∈ records, Stored env.client.pg tenant seen record

/-- A record of the tenant, with included ones in some of its fields. -/
def Shown (tenant : String) (seen : List Tables) (record : Record) : Prop :=
  ∃ base, Stored env.client.pg tenant seen base ∧ ∀ field value, lookup? field record = some value →
    lookup? field base = some value ∨ Included env tenant seen value

def Answer.Shows (tenant : String) (seen : List Tables) : Answer → Prop
  | .records found | .reply (.records found) => ∀ r ∈ found, Shown env tenant seen r
  | .record found => ∀ r, found = some r → Shown env tenant seen r
  | .number n => Counted tenant seen n
  | .reply (.record r) => Shown env tenant seen r
  | .reply (.count _) => True

/-- A cached value that a tenant may be answered with. -/
def Genuine (tenant : String) (seen : List Tables) (data : Json) : Prop :=
  (∃ records, data = encodeRecords records ∧ ∀ record ∈ records, Stored env.client.pg tenant seen record) ∨
  (∃ found, data = encodeRecord found ∧ ∀ record, found = some record → Stored env.client.pg tenant seen record) ∨
  ∃ n, data = encodeCount n ∧ Counted tenant seen n

/-- The entries of the cache were read for the tenants that their keys end in. -/
structure Sound (seen : List Tables) (cw : CachedWorld) : Prop where
  now : cw.world.store.tables ∈ seen
  entries : ∀ key entry, cw.cache.entries.lookup key = some entry →
    ∃ (before : String) (owner : Option String), key = before ++ Debug.option (Debug.string env.printed) owner ∧
      ∀ tenant, owner = some tenant → Genuine env tenant seen entry.data

variable {env} {scope : Scope} {tenant : String} {seen seen' : List Tables} {cw cw' : CachedWorld}

theorem Stored.shown {record : Record} (h : Stored env.client.pg tenant seen record) : Shown env tenant seen record :=
  ⟨record, h, fun _ _ hvalue => .inl hvalue⟩

theorem Genuine.mono {data : Json} (h : Genuine env tenant seen data) (hseen : seen ⊆ seen') :
    Genuine env tenant seen' data := by
  rcases h with ⟨records, hdata, hrecords⟩ | ⟨found, hdata, hfound⟩ | ⟨n, hdata, hn⟩
  · exact .inl ⟨records, hdata, fun record hrecord => (hrecords record hrecord).mono hseen⟩
  · exact .inr (.inl ⟨found, hdata, fun record hrecord => (hfound record hrecord).mono hseen⟩)
  · exact .inr (.inr ⟨n, hdata, hn.mono hseen⟩)

theorem decodeRecords_encodeRecords (records : List Record) : decodeRecords (encodeRecords records) = some records := by
  show (records.map Json.object).mapM asObject? = some records
  rw [List.mapM_map]
  exact (List.mapM_eq_some_map (g := id) fun _ _ => rfl).trans (congrArg some (List.map_id records))

theorem Genuine.decodeRecords {data : Json} (h : Genuine env tenant seen data) {records : List Record}
    (hdata : Cached.decodeRecords data = some records) : ∀ record ∈ records, Stored env.client.pg tenant seen record := by
  rcases h with ⟨records', rfl, hrecords⟩ | ⟨found, rfl, -⟩ | ⟨n, rfl, -⟩
  · rw [decodeRecords_encodeRecords] at hdata
    cases hdata
    exact hrecords
  · cases found <;> cases hdata
  · cases hdata

theorem Genuine.decodeRecord {data : Json} (h : Genuine env tenant seen data) {found : Option Record}
    (hdata : Cached.decodeRecord data = some found) :
    ∀ record, found = some record → Stored env.client.pg tenant seen record := by
  rcases h with ⟨records', rfl, -⟩ | ⟨found', rfl, hfound⟩ | ⟨n, rfl, -⟩
  · cases hdata
  · cases found' with
    | none =>
      cases hdata
      exact hfound
    | some record =>
      cases hdata
      exact hfound
  · cases hdata

theorem Genuine.decodeCount {data : Json} (h : Genuine env tenant seen data) {n : Int64}
    (hdata : Cached.decodeCount data = some n) : Counted tenant seen n := by
  rcases h with ⟨records', rfl, -⟩ | ⟨found, rfl, -⟩ | ⟨n', rfl, hn⟩
  · cases hdata
  · cases found <;> cases hdata
  · have hdecoded : Cached.decodeCount (encodeCount n') = some n' := asI64?_ofInt n'
    rw [hdecoded] at hdata
    cases hdata
    exact hn

/-! ## The cache stays sound -/

theorem Sound.mono (h : Sound env seen cw) (hseen : seen ⊆ seen') : Sound env seen' cw where
  now := hseen h.now
  entries key entry hentry := by
    obtain ⟨before, owner, hkey, hgenuine⟩ := h.entries key entry hentry
    exact ⟨before, owner, hkey, fun tenant howner => (hgenuine tenant howner).mono hseen⟩

theorem Sound.kept (h : Sound env seen cw) (hworld : cw'.world.store.tables ∈ seen) (hkeeps : Cache.Keeps cw.cache cw'.cache) :
    Sound env seen cw' where
  now := hworld
  entries key entry hentry := by
    obtain ⟨entry', hentry', -, hdata⟩ := hkeeps key entry hentry
    rw [hdata]
    exact h.entries key entry' hentry'

theorem reach_spec (env : CachedEnv) (cw : CachedWorld) (w : World) :
    (cw.reach env w).world = w ∧ Cache.Keeps cw.cache (cw.reach env w).cache := by
  unfold CachedWorld.reach
  have hfold : ∀ (acts : List Act) (cw : CachedWorld),
      (acts.foldl (fun cw _ => cw.invalidate env) cw).world = cw.world ∧
        Cache.Keeps cw.cache (acts.foldl (fun cw _ => cw.invalidate env) cw).cache := by
    intro acts
    induction acts with
    | nil => exact fun cw => ⟨rfl, .refl _⟩
    | cons act acts ih =>
      intro cw
      obtain ⟨hworld, hkeeps⟩ := ih (cw.invalidate env)
      exact ⟨hworld, (Cache.keeps_invalidateModel env.cache cw.cache).trans hkeeps⟩
  exact hfold _ { cw with world := w }

theorem Sound.reach (h : Sound env seen cw) {w : World} (hw : w.store.tables ∈ seen) : Sound env seen (cw.reach env w) := by
  obtain ⟨hworld, hkeeps⟩ := reach_spec env cw w
  apply h.kept _ hkeeps
  rw [hworld]
  exact hw

/-- The cache is sound, and the store is a certain one. -/
def At (env : CachedEnv) (seen : List Tables) (store : Store) (cw : CachedWorld) : Prop :=
  Sound env seen cw ∧ cw.world.store = store

variable {store : Store} {α : Type}

theorem At.now (h : At env seen store cw) : store.tables ∈ seen := by
  rw [← h.2]
  exact h.1.now

/-- A read behind the cache. -/
theorem onClient_ends {x : Program α} {P : α → Prop} (h : At env seen store cw)
    (hx : ∀ w, w.store = store → Ends x w (fun a w' => w'.store = w.store ∧ P a) (Kept w)) :
    Ends (onClient env x) cw (fun a cw' => At env seen store cw' ∧ P a) (fun _ cw' => At env seen store cw') := by
  have hreached : ∀ w, w.store = cw.world.store → At env seen store (cw.reach env w) := by
    intro w hw
    refine ⟨h.1.reach ?_, ?_⟩
    · rw [hw]
      exact h.1.now
    · rw [(reach_spec env cw w).1, hw]
      exact h.2
  have hends := hx cw.world h.2
  apply Ends.of_result
  unfold onClient
  cases hrun : x cw.world with
  | ok a w => exact ⟨hreached w (hends.ok hrun).1, (hends.ok hrun).2⟩
  | error e w => exact hreached w (hends.error hrun)

theorem check_reads (result : Except String Unit) (w : World) :
    Ends (check result) w (fun _ w' => w'.store = w.store ∧ True) (Kept w) :=
  (check_kept result w).mono (fun _ _ h => ⟨congrArg World.store h, trivial⟩) fun _ _ h => h

/-- A fill under a key of the tenant's. -/
theorem setIfGeneration_ends {key : String} {value : Json} (hkey : ∃ before, key = before ++ debugTenant env scope)
    (hvalue : ∀ tenant, scope.tenant = some tenant → Genuine env tenant seen value) (generation : UInt64)
    (h : At env seen store cw) :
    Ends (setIfGeneration env key value generation) cw (fun _ cw' => At env seen store cw')
      (fun _ cw' => At env seen store cw') := by
  apply Ends.of_result
  unfold setIfGeneration
  by_cases hgeneration : generation = cw.generation
  · simp only [hgeneration, if_true]
    refine ⟨⟨h.1.now, fun k entry hentry => ?_⟩, h.2⟩
    by_cases hrefuses : Cache.State.refuses env.cache key (Cache.State.entryBytes env.cache key value) = true
    · have hsame : (cw.cache.fill env.cache key value cw.generation (env.instant cw.asked)
          (env.instant (cw.asked + 1))).entries = cw.cache.entries := Cache.fill_entries_of_refuses hrefuses
      apply h.1.entries k entry
      rw [← hsame]
      exact hentry
    · rcases Cache.lookup_fill (Bool.not_eq_true _ ▸ hrefuses) hentry with ⟨rfl, -, hdata⟩ | ⟨-, e, he, -, hdata⟩
      · rw [hdata]
        obtain ⟨before, hkey⟩ := hkey
        exact ⟨before, scope.tenant, hkey, hvalue⟩
      · rw [hdata]
        exact h.1.entries k e he
  · simp only [hgeneration, if_false]
    exact ⟨h.1.kept h.1.now (.refl _), h.2⟩

/-- What is read for a tenant, or found under a key that ends in its text, is for the tenant. -/
theorem throughCache_ends {key : String} {decode : Json → Option α} {encode : α → Json} {read : Program α}
    {P : String → α → Prop} (hkey : ∃ before, key = before ++ debugTenant env scope)
    (hdecode : ∀ tenant data a, Genuine env tenant seen data → decode data = some a → P tenant a)
    (hencode : ∀ tenant a, P tenant a → Genuine env tenant seen (encode a))
    (hread : ∀ w, w.store = store → Ends read w
      (fun a w' => w'.store = w.store ∧ ∀ tenant, scope.tenant = some tenant → P tenant a) (Kept w))
    (h : At env seen store cw) :
    Ends (throughCache env key decode encode read) cw
      (fun a cw' => At env seen store cw' ∧ ∀ tenant, scope.tenant = some tenant → P tenant a)
      (fun _ cw' => At env seen store cw') := by
  unfold throughCache
  have hload : Ends loadGeneration cw (fun _ cw' => cw' = cw) (fun _ cw' => At env seen store cw') := Ends.of_result rfl
  refine hload.bind ?_
  rintro generation cw rfl
  have hget : Ends (cacheGet env key) cw (fun found cw' => At env seen store cw' ∧
      ∀ data, found = some data → ∀ tenant, scope.tenant = some tenant → Genuine env tenant seen data)
      (fun _ cw' => At env seen store cw') := by
    apply Ends.of_result
    refine ⟨⟨h.1.kept h.1.now (Cache.keeps_get env.cache _ _ _ _), h.2⟩, fun data hdata tenant hscope => ?_⟩
    obtain ⟨entry, hentry, rfl⟩ := Cache.get_data hdata
    obtain ⟨before', owner, hkey', hgenuine⟩ := h.1.entries key entry hentry
    obtain ⟨before, hkey⟩ := hkey
    have howner : owner = scope.tenant := Debug.option_of_suffix (hkey'.symm.trans hkey)
    exact hgenuine tenant (howner.trans hscope)
  refine hget.bind ?_
  rintro found cw1 ⟨hat, hfound⟩
  cases hdecoded : found.bind decode with
  | some a =>
    obtain ⟨data, rfl, hdata⟩ := Option.bind_eq_some_iff.1 hdecoded
    exact Ends.pure ⟨hat, fun tenant hscope => hdecode tenant data a (hfound data rfl tenant hscope) hdata⟩
  | none =>
    refine (onClient_ends hat hread).bind ?_
    rintro a cw2 ⟨hat2, ha⟩
    have hset := setIfGeneration_ends hkey (fun tenant hscope => hencode tenant a (ha tenant hscope)) generation hat2
    refine hset.bind ?_
    rintro _ cw3 hat3
    exact Ends.pure ⟨hat3, ha⟩

/-! ## The reads -/

variable {modelName : String} {clauses : List WhereClause} {orderBy : List (String × OrderDirection)}
  {limit offset : Option Nat}

theorem At.subset (h : At env seen store cw) {w : World} (hw : w.store = store) : [w.store.tables] ⊆ seen := by
  rw [hw, List.cons_subset]
  exact ⟨h.now, List.nil_subset _⟩

/-- The records of a read past the cache. -/
theorem select_reads (henv : Installed env.client) (h : At env seen store cw) {deletion : WhereClause} (w : World)
    (hw : w.store = store) {x : Program (List Record)}
    (hx : Ends x w (fun records w' => w'.store = w.store ∧
      Returns env.client scope modelName (clauses ++ [deletion]) orderBy limit offset w.store.tables records) (Kept w)) :
    Ends x w (fun records w' => w'.store = w.store ∧ ∀ tenant, scope.tenant = some tenant →
      ∀ record ∈ records, Stored env.client.pg tenant seen record) (Kept w) := by
  refine hx.mono ?_ fun _ _ h => h
  rintro records w' ⟨hstore, hreturns⟩
  refine ⟨hstore, fun tenant hscope record hrecord => ?_⟩
  exact (hreturns.stored henv hscope record hrecord).mono (h.subset hw)

theorem unique_reads (henv : Installed env.client) (h : At env seen store cw) (w : World) (hw : w.store = store) :
    Ends (Client.findUnique env.client scope modelName clauses) w (fun found w' => w'.store = w.store ∧
      ∀ tenant, scope.tenant = some tenant → ∀ record, found = some record → Stored env.client.pg tenant seen record)
      (Kept w) := by
  refine (findUnique_ends w).mono ?_ fun _ _ h => h
  rintro found w' ⟨hstore, records, rfl, hreturns⟩
  refine ⟨hstore, fun tenant hscope record hrecord => ?_⟩
  exact (hreturns.stored henv hscope record (List.mem_of_mem_head? hrecord)).mono (h.subset hw)

theorem count_reads (h : At env seen store cw) (w : World)
    (hw : w.store = store) {x : Program Int64}
    (hx : Ends x w (fun n w' => w'.store = w.store ∧
      ∀ tenant, scope.tenant = some tenant → Counted tenant [w.store.tables] n) (Kept w)) :
    Ends x w (fun n w' => w'.store = w.store ∧ ∀ tenant, scope.tenant = some tenant → Counted tenant seen n) (Kept w) := by
  refine hx.mono ?_ fun _ _ h => h
  rintro n w' ⟨hstore, hcounted⟩
  exact ⟨hstore, fun tenant hscope => (hcounted tenant hscope).mono (h.subset hw)⟩

/-- The keys end in the text of the tenant. -/
theorem key_ends (model query : String) :
    ∃ before, cacheKey model (query ++ debugTenant env scope) = before ++ debugTenant env scope :=
  ⟨_, String.append_assoc.symm⟩

theorem findManyPlain_ends (henv : Installed env.client) (h : At env seen store cw) :
    Ends (findManyPlain env scope modelName clauses orderBy limit offset) cw
      (fun records cw' => At env seen store cw' ∧ ∀ tenant, scope.tenant = some tenant →
        ∀ record ∈ records, Stored env.client.pg tenant seen record)
      (fun _ cw' => At env seen store cw') := by
  refine (onClient_ends h fun w _ => check_reads _ w).bind ?_
  rintro _ cw1 ⟨hat, -⟩
  refine throughCache_ends (key_ends _ _) (fun _ _ _ hgenuine hdata => hgenuine.decodeRecords hdata)
    (fun _ records hstored => .inl ⟨records, rfl, hstored⟩)
    (fun w hw => select_reads henv hat w hw (findMany_ends w)) hat

theorem findUniquePlain_ends (henv : Installed env.client) (h : At env seen store cw) :
    Ends (findUniquePlain env scope modelName clauses) cw
      (fun found cw' => At env seen store cw' ∧ ∀ tenant, scope.tenant = some tenant →
        ∀ record, found = some record → Stored env.client.pg tenant seen record)
      (fun _ cw' => At env seen store cw') := by
  refine (onClient_ends h fun w _ => check_reads _ w).bind ?_
  rintro _ cw1 ⟨hat, -⟩
  refine throughCache_ends (key_ends _ _) (fun _ _ _ hgenuine hdata => hgenuine.decodeRecord hdata)
    (fun _ found hstored => .inr (.inl ⟨found, rfl, hstored⟩)) (fun w hw => unique_reads henv hat w hw) hat

theorem count_ends (henv : Installed env.client) (h : At env seen store cw) :
    Ends (Cached.count env scope modelName clauses) cw
      (fun n cw' => At env seen store cw' ∧ ∀ tenant, scope.tenant = some tenant → Counted tenant seen n)
      (fun _ cw' => At env seen store cw') := by
  refine (onClient_ends h fun w _ => check_reads _ w).bind ?_
  rintro _ cw1 ⟨hat, -⟩
  refine throughCache_ends (key_ends _ _) (fun _ _ _ hgenuine hdata => hgenuine.decodeCount hdata)
    (fun _ n hcounted => .inr (.inr ⟨n, rfl, hcounted⟩))
    (fun w hw => count_reads hat w hw (countRead_ends henv w)) hat

/-! ## Includes -/

theorem lookup?_setField {field other : String} {value found : Json} {record : Record}
    (h : lookup? other (setField field value record) = some found) : found = value ∨ lookup? other record = some found := by
  unfold setField at h
  split at h
  · unfold lookup? at *
    rw [List.find?_map, Option.map_map] at h
    obtain ⟨entry, hentry, rfl⟩ := Option.map_eq_some_iff.1 h
    by_cases hfield : entry.1 = field
    · left
      simp [hfield]
    · right
      have hsame : (fun e : String × Json => decide (e.1 = other)) ∘
          (fun e => if e.1 = field then (field, value) else e) = fun e => decide (e.1 = other) := by
        funext e
        dsimp only [Function.comp]
        split
        · rename_i he
          rw [he]
        · rfl
      rw [hsame] at hentry
      rw [hentry]
      simp [hfield]
  · unfold lookup? at *
    rw [List.find?_append] at h
    cases hfind : record.find? (·.1 = other) with
    | some entry =>
      rw [hfind] at h
      exact .inr h
    | none =>
      rw [hfind, Option.none_or] at h
      obtain ⟨entry, hentry, rfl⟩ := Option.map_eq_some_iff.1 h
      have hin := List.mem_of_find?_eq_some hentry
      left
      rw [List.mem_singleton.1 hin]

theorem Shown.setField {record : Record} (h : Shown env tenant seen record) (field : String) {value : Json}
    (hvalue : Included env tenant seen value) : Shown env tenant seen (Cached.setField field value record) := by
  obtain ⟨base, hbase, hfields⟩ := h
  refine ⟨base, hbase, fun other found hfound => ?_⟩
  rcases lookup?_setField hfound with rfl | hold
  · exact .inr hvalue
  · exact hfields other found hold

theorem attempt_ends {x : CachedProgram α} {Q : CachedWorld → Prop} {P : α → Prop}
    (h : Ends x cw (fun a cw' => Q cw' ∧ P a) (fun _ cw' => Q cw')) :
    Ends (attempt x) cw (fun found cw' => Q cw' ∧ ∀ a, found = some a → P a) (fun _ cw' => Q cw') := by
  apply Ends.of_result
  unfold attempt
  cases hx : x cw with
  | ok a cw' =>
    refine ⟨(h.ok hx).1, fun b hb => ?_⟩
    cases hb
    exact (h.ok hx).2
  | error e cw' =>
    refine ⟨h.error hx, fun b hb => ?_⟩
    cases hb

/-- A record that may be shown to the tenant of the call. -/
def May (env : CachedEnv) (scope : Scope) (seen : List Tables) (record : Record) : Prop :=
  ∀ tenant, scope.tenant = some tenant → Shown env tenant seen record

section Includes

variable {record : Record} {id rel : String}

theorem includeOne_ends (henv : Installed env.client) (model : String) (h : At env seen store cw)
    (hrecord : May env scope seen record) :
    Ends (includeOne env scope model id rel record) cw (fun r cw' => At env seen store cw' ∧ May env scope seen r)
      (fun _ cw' => At env seen store cw') := by
  refine (attempt_ends (findUniquePlain_ends henv h)).bind ?_
  rintro found cw1 ⟨hat, hfound⟩
  match found with
  | some (some related) =>
    refine Ends.pure ⟨hat, fun tenant hscope => ?_⟩
    apply (hrecord tenant hscope).setField
    exact .inl ⟨related, rfl, hfound _ rfl tenant hscope related rfl⟩
  | some none | none => exact Ends.pure ⟨hat, hrecord⟩

theorem includeMany_ends (henv : Installed env.client) (model foreignKey : String) (h : At env seen store cw)
    (hrecord : May env scope seen record) :
    Ends (includeMany env scope model foreignKey id rel record) cw
      (fun r cw' => At env seen store cw' ∧ May env scope seen r) (fun _ cw' => At env seen store cw') := by
  refine (attempt_ends (findManyPlain_ends henv h)).bind ?_
  rintro found cw1 ⟨hat, hfound⟩
  match found with
  | some related =>
    refine Ends.pure ⟨hat, fun tenant hscope => ?_⟩
    apply (hrecord tenant hscope).setField
    exact .inr ⟨related, rfl, hfound _ rfl tenant hscope⟩
  | none => exact Ends.pure ⟨hat, hrecord⟩

theorem includeRelation_ends (henv : Installed env.client) (h : At env seen store cw)
    (hrecord : May env scope seen record) :
    Ends (includeRelation env scope modelName record rel) cw
      (fun r cw' => At env seen store cw' ∧ May env scope seen r) (fun _ cw' => At env seen store cw') := by
  unfold includeRelation
  split
  · unfold includeDeclared
    split
    · split
      · exact includeOne_ends henv _ h hrecord
      · exact Ends.pure ⟨h, hrecord⟩
    · split
      · exact includeMany_ends henv _ _ h hrecord
      · exact Ends.pure ⟨h, hrecord⟩
  · unfold includeByName
    split
    · exact includeOne_ends henv _ h hrecord
    · exact Ends.pure ⟨h, hrecord⟩
    · split
      · exact includeMany_ends henv _ _ h hrecord
      · exact Ends.pure ⟨h, hrecord⟩

theorem resolveIncludes_ends (henv : Installed env.client) (includes : List String) (h : At env seen store cw)
    (hrecord : May env scope seen record) :
    Ends (resolveIncludes env scope modelName includes record) cw
      (fun r cw' => At env seen store cw' ∧ May env scope seen r) (fun _ cw' => At env seen store cw') := by
  unfold resolveIncludes
  split
  · refine Ends.foldlM (I := fun r cw' => At env seen store cw' ∧ May env scope seen r) ?_ ⟨h, hrecord⟩
    rintro r rel cw' - ⟨hat, hr⟩
    exact includeRelation_ends henv hat hr
  · exact Ends.pure ⟨h, hrecord⟩

end Includes

theorem recordRelationalBypass_ends (h : At env seen store cw) :
    Ends recordRelationalBypass cw (fun _ cw' => At env seen store cw') (fun _ cw' => At env seen store cw') :=
  Ends.of_result ⟨⟨h.1.now, h.1.entries⟩, h.2⟩

theorem findMany_ends (henv : Installed env.client) (includes : List String) (h : At env seen store cw) :
    Ends (Cached.findMany env scope modelName clauses orderBy limit offset includes) cw
      (fun records cw' => At env seen store cw' ∧ ∀ record ∈ records, May env scope seen record)
      (fun _ cw' => At env seen store cw') := by
  unfold Cached.findMany
  split
  · refine (findManyPlain_ends henv h).mono ?_ fun _ _ h => h
    rintro records cw' ⟨hat, hstored⟩
    exact ⟨hat, fun record hrecord tenant hscope => Stored.shown (hstored tenant hscope record hrecord)⟩
  · refine (onClient_ends h fun w _ => check_reads _ w).bind ?_
    rintro _ cw1 ⟨hat1, -⟩
    refine (recordRelationalBypass_ends hat1).bind ?_
    rintro _ cw2 hat2
    refine (onClient_ends hat2 fun w hw => select_reads henv hat2 w hw (Client.findMany_ends w)).bind ?_
    rintro records cw3 ⟨hat3, hstored⟩
    refine Ends.mapM (fun record cw' hrecord hat => resolveIncludes_ends henv includes hat ?_) hat3
    exact fun tenant hscope => Stored.shown (hstored tenant hscope record hrecord)

theorem findUnique_ends (henv : Installed env.client) (includes : List String) (h : At env seen store cw) :
    Ends (Cached.findUnique env scope modelName clauses includes) cw
      (fun found cw' => At env seen store cw' ∧ ∀ record, found = some record → May env scope seen record)
      (fun _ cw' => At env seen store cw') := by
  unfold Cached.findUnique
  split
  · refine (findUniquePlain_ends henv h).mono ?_ fun _ _ h => h
    rintro found cw' ⟨hat, hstored⟩
    exact ⟨hat, fun record hrecord tenant hscope => Stored.shown (hstored tenant hscope record hrecord)⟩
  · refine (onClient_ends h fun w _ => check_reads _ w).bind ?_
    rintro _ cw1 ⟨hat1, -⟩
    refine (recordRelationalBypass_ends hat1).bind ?_
    rintro _ cw2 hat2
    refine (onClient_ends hat2 fun w hw => unique_reads henv hat2 w hw).bind ?_
    rintro found cw3 ⟨hat3, hstored⟩
    cases found with
    | none => exact Ends.pure ⟨hat3, fun record hrecord => by cases hrecord⟩
    | some record =>
      have hmay : May env scope seen record := fun tenant hscope => Stored.shown (hstored tenant hscope record rfl)
      refine (resolveIncludes_ends henv includes hat3 hmay).bind ?_
      rintro r cw4 ⟨hat4, hr⟩
      refine Ends.pure ⟨hat4, fun record hrecord => ?_⟩
      cases hrecord
      exact hr

/-! ## The writes -/

/-- What is written for a tenant is the tenant's own, and so is what is returned of it. -/
theorem Done.shows (henv : Installed env.client) (hscope : scope.tenant = some tenant) {actor : Option String}
    {write : Write} {reply : Reply} {w w' : World}
    (h : Write.Done env.client scope modelName actor write w reply w') (hseen : w'.store.tables ∈ seen) :
    (Answer.reply reply).Shows env tenant seen ∧ Spares tenant w.store.tables w'.store.tables := by
  obtain ⟨model, built, records, hmodel, hbuilds, hreplies, hexecuted⟩ := h.executed
  rw [henv.bound hscope] at hexecuted
  have hconfines := henv.confines hmodel
  have hshown (hreturning : write.Returning) : ∀ record ∈ records, Shown env tenant seen record := by
    intro record hrecord
    have hstored := hbuilds.stored hreturning hconfines hexecuted record hrecord
    exact Stored.shown (hstored.mono (List.cons_subset.2 ⟨hseen, List.nil_subset _⟩))
  constructor
  · cases write with
    | create data =>
      obtain ⟨record, rfl, rfl⟩ := hreplies
      exact hshown trivial record List.mem_cons_self
    | createMany data | updateMany clauses data =>
      cases hreplies
      exact hshown trivial
    | deleteMany clauses | restoreMany clauses | hardDeleteMany clauses =>
      cases hreplies
      trivial
  · apply hexecuted.spares
    intro b hb
    rw [hbuilds.table b hb]
    exact hconfines

/-- A call is answered: the cache is sound, and a tenant that it is for is shown its own rows and spares those of
the others. -/
def Answered (env : CachedEnv) (scope : Scope) (seen : List Tables) (cw : CachedWorld) (answer : Answer) (cw' : CachedWorld) :
    Prop :=
  Sound env (seen ++ [cw'.world.store.tables]) cw' ∧ ∀ tenant, scope.tenant = some tenant →
    answer.Shows env tenant (seen ++ [cw'.world.store.tables]) ∧
    Spares tenant cw.world.store.tables cw'.world.store.tables

/-- A read is answered. -/
theorem At.answered {answer : Answer} (h : At env seen cw.world.store cw')
    (hshows : ∀ tenant, scope.tenant = some tenant → answer.Shows env tenant seen) : Answered env scope seen cw answer cw' := by
  have hseen : seen ++ [cw'.world.store.tables] ⊆ seen :=
    List.append_subset.2 ⟨List.Subset.refl seen, List.cons_subset.2 ⟨h.1.now, List.nil_subset _⟩⟩
  refine ⟨h.1.mono (List.subset_append_left _ _), fun tenant hscope => ⟨?_, ?_⟩⟩
  · have hsub := List.subset_append_left seen [cw'.world.store.tables]
    have hshown : ∀ record, Shown env tenant seen record → Shown env tenant (seen ++ [cw'.world.store.tables]) record := by
      rintro record ⟨base, hbase, hfields⟩
      refine ⟨base, hbase.mono hsub, fun field value hvalue => (hfields field value hvalue).imp_right ?_⟩
      rintro (⟨r, hr, hstored⟩ | ⟨rs, hrs, hstored⟩)
      · exact .inl ⟨r, hr, hstored.mono hsub⟩
      · exact .inr ⟨rs, hrs, fun record hrecord => (hstored record hrecord).mono hsub⟩
    have hanswer := hshows tenant hscope
    match answer with
    | .records found | .reply (.records found) => exact fun r hr => hshown r (hanswer r hr)
    | .record found => exact fun r hr => hshown r (hanswer r hr)
    | .number n => exact Counted.mono hanswer hsub
    | .reply (.record r) => exact hshown r hanswer
    | .reply (.count n) => trivial
  · rw [h.2]
    exact .refl tenant _

/-- The call of a write, which is done, or else leaves the store as it is. -/
theorem write_ends (henv : Installed env.client) {actor : Option String} {write : Write} {x : Program α}
    (reply : α → Reply) (h : Sound env seen cw)
    (hx : Ends x cw.world (fun a w' => Write.Done env.client scope modelName actor write cw.world (reply a) w' ∨
      Write.Nothing write cw.world (reply a) w') (Undone cw.world)) :
    Ends (onClient env x) cw (fun a cw' => Answered env scope seen cw (.reply (reply a)) cw')
      (fun _ cw' => At env seen cw.world.store cw') := by
  apply Ends.of_result
  unfold onClient
  cases hrun : x cw.world with
  | ok a w =>
    have hworld := (reach_spec env cw w).1
    rcases hx.ok hrun with hdone | hnothing
    · dsimp only
      unfold Answered
      rw [hworld]
      have hin : w.store.tables ∈ seen ++ [w.store.tables] := List.mem_append_right _ List.mem_cons_self
      refine ⟨(h.mono (List.subset_append_left _ _)).reach hin, fun tenant hscope => ?_⟩
      exact Done.shows henv hscope hdone hin
    · obtain ⟨-, hreply, rfl⟩ := hnothing
      apply At.answered ⟨h.reach h.now, congrArg World.store hworld⟩
      intro tenant hscope
      rw [hreply]
      exact fun record hrecord => absurd hrecord List.not_mem_nil
  | error e w =>
    have hundone := (hx.error hrun).store
    refine ⟨h.reach ?_, ?_⟩
    · rw [hundone]
      exact h.now
    · rw [(reach_spec env cw w).1]
      exact hundone

theorem done_ends (henv : Installed env.client) {actor : Option String} {write : Write} {x : Program α}
    (reply : α → Reply) (h : Sound env seen cw)
    (hx : Ends x cw.world (fun a w' => Write.Done env.client scope modelName actor write cw.world (reply a) w')
      (Undone cw.world)) :
    Ends (onClient env x) cw (fun a cw' => Answered env scope seen cw (.reply (reply a)) cw')
      (fun _ cw' => At env seen cw.world.store cw') :=
  write_ends henv reply h (hx.mono (fun _ _ hdone => .inl hdone) fun _ _ hundone => hundone)

/-! ## Every call -/

/-- A call for any tenant, or for none. -/
theorem request_ends (henv : Installed env.client) (request : Request) (h : Sound env seen cw) :
    Ends (request.run env scope) cw (Answered env scope seen cw) (fun _ cw' => At env seen cw.world.store cw') := by
  have hat : At env seen cw.world.store cw := ⟨h, rfl⟩
  cases request with
  | findMany modelName clauses orderBy limit offset includes =>
    refine (findMany_ends henv includes hat).bind ?_
    rintro records cw' ⟨hat', hmay⟩
    exact Ends.pure (hat'.answered fun tenant hscope record hrecord => hmay record hrecord tenant hscope)
  | findDeleted modelName clauses orderBy limit offset =>
    refine (onClient_ends hat fun w hw => select_reads henv hat w hw (findDeleted_ends w)).bind ?_
    rintro records cw' ⟨hat', hstored⟩
    exact Ends.pure (hat'.answered fun tenant hscope record hrecord => Stored.shown (hstored tenant hscope record hrecord))
  | findUnique modelName clauses includes =>
    refine (findUnique_ends henv includes hat).bind ?_
    rintro found cw' ⟨hat', hmay⟩
    exact Ends.pure (hat'.answered fun tenant hscope record hrecord => hmay record hrecord tenant hscope)
  | count modelName clauses =>
    refine (count_ends henv hat).bind ?_
    rintro n cw' ⟨hat', hcounted⟩
    exact Ends.pure (hat'.answered fun tenant hscope => hcounted tenant hscope)
  | countDeleted modelName clauses =>
    refine (onClient_ends hat fun w hw => count_reads hat w hw (countRead_ends henv w)).bind ?_
    rintro n cw' ⟨hat', hcounted⟩
    exact Ends.pure (hat'.answered fun tenant hscope => hcounted tenant hscope)
  | write modelName actor what =>
    have hruns := Write.run_ends env.client scope modelName actor what cw.world
    refine (write_ends henv id h hruns).bind ?_
    intro reply cw' hanswered
    exact Ends.pure hanswered
  | createChecked role modelName data actor =>
    have hruns := Write.createChecked_ends env.client scope role modelName data actor cw.world
    exact (done_ends henv .record h hruns).bind fun _ _ hanswered => Ends.pure hanswered
  | updateManyChecked role modelName clauses data actor =>
    have hruns := Write.updateManyChecked_ends env.client scope role modelName clauses data actor cw.world
    exact (done_ends henv .records h hruns).bind fun _ _ hanswered => Ends.pure hanswered
  | deleteManyChecked role modelName clauses actor =>
    have hruns := Write.deleteManyChecked_ends env.client scope role modelName clauses actor cw.world
    exact (done_ends henv .count h hruns).bind fun _ _ hanswered => Ends.pure hanswered

theorem step_sound (henv : Installed env.client) (h : Sound env seen cw) (happening : Happening) :
    Sound env (seen ++ [(step env cw happening).world.store.tables]) (step env cw happening) := by
  cases happening with
  | call scope request =>
    have hends : Ends (request.run env scope) cw (Answered env scope seen cw)
        (fun _ cw' => At env seen cw.world.store cw') := request_ends henv request h
    cases hrun : request.run env scope cw with
    | ok answer cw' =>
      have hstep : step env cw (.call scope request) = cw' := by simp only [step, hrun]
      rw [hstep]
      exact (hends.ok hrun).1
    | error e cw' =>
      have hstep : step env cw (.call scope request) = cw' := by simp only [step, hrun]
      rw [hstep]
      exact (hends.error hrun).1.mono (List.subset_append_left _ _)
  | outside store =>
    refine ⟨List.mem_append_right _ List.mem_cons_self, ?_⟩
    exact (h.mono (List.subset_append_left _ _)).entries
  | maintain =>
    exact (h.mono (List.subset_append_left _ _)).kept (List.mem_append_right _ List.mem_cons_self)
      (Cache.keeps_reclaim env.cache cw.cache _)

theorem runAll_sound (henv : Installed env.client) (happenings : List Happening) :
    ∀ (prior : List Tables) (cw : CachedWorld), Sound env (prior ++ [cw.world.store.tables]) cw →
      Sound env (prior ++ tablesAlong env cw happenings) (runAll env cw happenings) := by
  induction happenings with
  | nil => exact fun _ _ h => h
  | cons happening happenings ih =>
    intro prior cw h
    have hrest := ih (prior ++ [cw.world.store.tables]) (step env cw happening) (step_sound henv h happening)
    rw [List.append_assoc] at hrest
    exact hrest

theorem start_sound (env : CachedEnv) (w : World) : Sound env [w.store.tables] (.start w) :=
  ⟨List.mem_cons_self, fun key entry hentry => by cases hentry⟩

/-- Whatever was called before, a call for a tenant shows and counts no row of another one, and leaves those rows
as they are. -/
theorem call_confined (env : CachedEnv) (henv : Installed env.client) (w : World) (happenings : List Happening)
    (tenant : String) (scope : Scope) (hscope : scope.tenant = some tenant) (request : Request) :
    let cw := runAll env (.start w) happenings
    Ends (request.run env scope) cw
      (fun answer cw' =>
        answer.Shows env tenant (tablesAlong env (.start w) happenings ++ [cw'.world.store.tables]) ∧
        Spares tenant cw.world.store.tables cw'.world.store.tables)
      (fun _ cw' => cw'.world.store = cw.world.store) := by
  intro cw
  have hsound : Sound env (tablesAlong env (.start w) happenings) cw :=
    runAll_sound henv happenings [] (.start w) (start_sound env w)
  refine (request_ends henv request hsound).mono ?_ fun _ _ hat => hat.2
  rintro answer cw' ⟨-, hanswered⟩
  exact hanswered tenant hscope

/-! ## A client of two tenants -/

/-- Row-level security for the notes. -/
def noteSecurity : Db.Security :=
  (Db.ensureRlsPolicies ["notes"] true fun _ => {}).getD fun _ => {}

theorem perm_id (l : List (Sigma fun _ : String => Cache.CacheEntry)) : (id l).Perm l :=
  .refl l

def noteClient : CachedEnv where
  client := { Env.bare noteSchema with
    rlsEnabled := true
    pg := Db.Postgres.bare.secured noteSecurity ⟨false, true⟩ }
  cache := { config := {}, jsonBytes := fun _ => some 0, iterate := id, iterate_perm := perm_id }
  instant n := n
  printed c := 32 ≤ c.toNat && c.toNat < 127
  debugValue _ := ""

theorem noteClient_installed : Installed noteClient.client where
  rls := rfl
  policies := by
    refine ⟨.bare, fun _ => {}, noteSecurity, ⟨false, true⟩, ["notes"], rfl, rfl, rfl, ?_, ?_⟩
    · intro table _ policy hpolicy
      cases hpolicy
    · intro name model hmodel
      have hnote : model = { name := "Note", fields := [("title", { name := "title", fieldType := .string, optional := true })] } := by
        unfold Schema.model? lookup? at hmodel
        obtain ⟨entry, hentry, rfl⟩ := Option.map_eq_some_iff.1 hmodel
        rw [List.mem_singleton.1 (List.mem_of_find?_eq_some hentry)]
      rw [hnote]
      decide

/-- A tenant reads the notes without a clause after another one did. -/
theorem call_confined_notes :
    let w := noteWorld [noteRow "n1" "first" "A", noteRow "n2" "second" "B"]
    let reads (tenant : String) : Happening := .call { tenant := some tenant } (.findMany "Note" [] [] none none [])
    let cw := runAll noteClient (.start w) [reads "B"]
    Ends ((Request.findMany "Note" [] [] none none []).run noteClient { tenant := some "A" }) cw
      (fun answer cw' =>
        answer.Shows noteClient "A" (tablesAlong noteClient (.start w) [reads "B"] ++ [cw'.world.store.tables]) ∧
        Spares "A" cw.world.store.tables cw'.world.store.tables)
      (fun _ cw' => cw'.world.store = cw.world.store) :=
  call_confined noteClient noteClient_installed _ _ "A" _ rfl _

example : endsOk ((Request.findMany "Note" [] [] none none []).run noteClient { tenant := some "A" })
    (runAll noteClient (.start (noteWorld [noteRow "n1" "first" "A", noteRow "n2" "second" "B"]))
      [.call { tenant := some "B" } (.findMany "Note" [] [] none none [])])
    (fun answer _ =>
      match answer with
      | .records [record] => lookup? "id" record = some (.string "n1")
      | _ => false) = true := by
  decide

end Atomo.Client.Cached

import Atomo.Client.Commits
import Atomo.Client.Tenants
import Atomo.GraphQL.Context

/-!
# Subscriptions

`model_changes` passes on the events of its model whose data name the tenant of the subscriber. The data
of an event are what the statement of the write returns, and a delete, a restore and a hard delete return
the id alone (`delivered_iff`).
-/

namespace Atomo.GraphQL

open Schema (Model lookup?)
open Client (Env World Act Call Commit Commits performAll exists_commits Record Write)
open Db (Row Tables)
open Query (tableName)

/-- An open stream of `model_changes`. -/
structure Subscription where
  model : String
  tenant : Option String

namespace Subscription

/-- `Subscription::model_changes` up to its stream. -/
def modelChanges (schema : Atomo.Schema) (ctx : Ctx) (model : String) : Except Error Subscription :=
  match (schema.model? model).bind (·.access) with
  | none => .ok { model, tenant := ctx.tenant }
  | some access =>
    match access.decide "read" ctx.userRole with
    | .allow => .ok { model, tenant := ctx.tenant }
    | .forbidden => .error (.forbidden ("Subscription denied: read access to '" ++ model ++ "'"))
    | .needsAuth => .error (.unauthorized "Authentication required to subscribe")

variable (sub : Subscription)

/-- The filter of the stream. -/
def passes (event : StampedEvent) : Bool :=
  event.modelName = sub.model &&
    match sub.tenant with
    | some tenant => (lookup? "tenant_id" event.data).bind Json.asStr? = some tenant
    | none => true

/-- An event as the subscriber sees it. -/
def shown (cc : CharCase) (event : StampedEvent) : StampedEvent :=
  { event with data := camelKeys cc event.data, previousData := event.previousData.map (camelKeys cc) }

/-- What the stream makes of something that is sent. -/
def next (cc : CharCase) : Act → Option StampedEvent
  | .send event => if sub.passes event then some (shown cc event) else none
  | _ => none

/-- What a stream that was opened in one world, and does not lag, has delivered in another. -/
def delivered (cc : CharCase) (w w' : World) : List StampedEvent :=
  (w'.sent.drop w.sent.length).filterMap (sub.next cc)

end Subscription

/-! ## What is due -/

/-- A row belongs to a tenant: its tenant column reads as the tenant. -/
def owned (env : Env) (tenant : String) (row : Row) : Bool :=
  Db.decode env.pg (row.get "tenant_id") = .string tenant

/-- The pairs of a row and its event that the commits of a run have. -/
def about (commits : List Commit) : List (Row × StampedEvent) :=
  commits.flatMap fun c => c.rows.zip c.events

/-- The events of the rows of a tenant, as the subscriber should see them. -/
def due (env : Env) (model tenant : String) (commits : List Commit) : List StampedEvent :=
  ((about commits).filter fun p => p.2.modelName = model && owned env tenant p.1).map
    fun p => Subscription.shown env.casing p.2

/-- A write whose events carry the id of the row alone. -/
def Tells : Write → Bool
  | .create _ | .createMany _ | .updateMany _ _ => true
  | .deleteMany _ | .restoreMany _ | .hardDeleteMany _ => false

/-- A model with a tenant column. -/
def TenantScoped (env : Env) (model : String) (tables : Tables) : Prop :=
  ∀ m, env.schema.model? model = some m → "tenant_id" ∈ (tables (tableName env.casing m)).columnNames

section

variable {env : Env} {sub : Subscription} {tenant : String} {w w' : World} {c : Commit}

theorem TenantScoped.of_columns {model : String} {tables tables' : Tables} (h : TenantScoped env model tables)
    (hcolumns : ∀ name, (tables' name).columns = (tables name).columns) : TenantScoped env model tables' := by
  intro m hm
  have hmem := h m hm
  unfold Db.Table.columnNames at *
  rwa [hcolumns]

/-- The events of a commit are those of its rows. -/
theorem zip_events (h : c.Valid env w w') {row : Row} {event : StampedEvent} (hmem : (row, event) ∈ c.rows.zip c.events) :
    event.modelName = c.call.modelName ∧
      event.data = c.handed.payload (c.handed.record env c.model w.store.tables row) := by
  obtain ⟨i, hi, hget⟩ := List.getElem_of_mem hmem
  rw [List.getElem_zip] at hget
  have hevents := congrArg (fun l => l[i]?) h.events
  simp only [List.getElem?_map] at hevents
  rw [List.length_zip] at hi
  rw [List.getElem?_eq_getElem (by omega), List.getElem?_eq_getElem (by omega)] at hevents
  cases hget
  simp only [Option.map_some, Option.some.injEq, Prod.mk.injEq] at hevents
  exact hevents.2

theorem lookup?_idOnly (record : Record) : lookup? "tenant_id" (Client.idOnly record) = none := by
  unfold Client.idOnly
  cases lookup? "id" record <;> rfl

/-- The tenant that the data of an event name, for the event of a row. -/
theorem tenant_of_payload {handed : Write} {model : Model} {tables : Tables} (row : Row)
    (hcolumn : "tenant_id" ∈ (tables (tableName env.casing model)).columnNames) :
    (lookup? "tenant_id" (handed.payload (handed.record env model tables row))).bind Json.asStr? = some tenant ↔
      owned env tenant row = true ∧ Tells handed = true := by
  have hread := Db.lookup?_rowToMap env.pg row hcolumn
  have hwhole : (lookup? "tenant_id" (Db.rowToMap env.pg (tables (tableName env.casing model)).columnNames row)).bind
      Json.asStr? = some tenant ↔ owned env tenant row = true := by
    rw [hread, Option.bind_some]
    unfold owned
    rw [decide_eq_true_eq]
    cases Db.decode env.pg (row.get "tenant_id") <;> simp [Json.asStr?]
  have hid : ∀ record : Record, (lookup? "tenant_id" (Client.idOnly record)).bind Json.asStr? ≠ some tenant := by
    intro record
    rw [lookup?_idOnly]
    exact nofun
  cases handed with
  | create | createMany | updateMany => exact hwhole.trans (and_iff_left rfl).symm
  | deleteMany | hardDeleteMany =>
    exact iff_of_false (hid (Db.rowToMap env.pg ["id"] row)) fun h => nomatch h.2
  | restoreMany =>
    refine iff_of_false (fun h => ?_) fun h => nomatch h.2
    have hnone : lookup? "tenant_id" (Db.rowToMap env.pg ["id"] row) = none := rfl
    have h : (lookup? "tenant_id" (Db.rowToMap env.pg ["id"] row)).bind Json.asStr? = some tenant := h
    rw [hnone] at h
    cases h

/-- The stream passes on the event of a row just when the row belongs to the tenant and the write tells it. -/
theorem passes_iff (h : c.Valid env w w') (hscoped : TenantScoped env sub.model w.store.tables)
    (htenant : sub.tenant = some tenant) {row : Row} {event : StampedEvent} (hmem : (row, event) ∈ c.rows.zip c.events) :
    sub.passes event = true ↔
      (event.modelName = sub.model ∧ owned env tenant row = true) ∧ Tells c.handed = true := by
  obtain ⟨hname, hdata⟩ := zip_events h hmem
  unfold Subscription.passes
  rw [htenant, Bool.and_eq_true, decide_eq_true_eq, decide_eq_true_eq, hdata, and_assoc]
  refine and_congr_right fun hmodel => tenant_of_payload row (hscoped c.model ?_)
  rw [← hmodel, hname]
  exact h.model

theorem zip_length (h : c.Valid env w w') : c.rows.length = c.events.length := by
  have hlength := congrArg List.length h.events
  rw [List.length_map, List.length_map] at hlength
  exact hlength.symm

/-- The events of a run are sent in order. -/
theorem sent_commits {calls : List Call} {commits : List Commit} (h : Commits env w calls commits w') :
    w'.sent = w.sent ++ (about commits).map fun p => .send p.2 := by
  induction h with
  | nil w => simp [about]
  | silent hstore hsent _ ih => rw [ih, hsent]
  | commit c hvalid _ ih =>
    have hevents : (c.rows.zip c.events).map (fun p => Act.send p.2) = c.events.map .send := by
      have hsnd := List.map_snd_zip (zip_length hvalid).ge
      conv_rhs => rw [← hsnd, List.map_map]
      rfl
    rw [ih, hvalid.sent, List.append_assoc]
    unfold about
    rw [List.flatMap_cons, List.map_append, hevents]

/-- What each event of a run is about. -/
theorem passes_of_commits {calls : List Call} {commits : List Commit} (h : Commits env w calls commits w')
    (hscoped : TenantScoped env sub.model w.store.tables) (htenant : sub.tenant = some tenant) (hc : c ∈ commits) :
    c.rows.length = c.events.length ∧ ∀ p ∈ c.rows.zip c.events,
      p.2.modelName = c.call.modelName ∧ (sub.passes p.2 = true ↔
        (p.2.modelName = sub.model ∧ owned env tenant p.1 = true) ∧ Tells c.handed = true) := by
  induction h with
  | nil w => cases hc
  | silent hstore hsent _ ih =>
    rw [← hstore] at hscoped
    exact ih hscoped hc
  | commit d hvalid _ ih =>
    rcases List.mem_cons.1 hc with rfl | hc
    · exact ⟨zip_length hvalid, fun p hp => ⟨(zip_events hvalid hp).1, passes_iff hvalid hscoped htenant hp⟩⟩
    · exact ih (hscoped.of_columns hvalid.columns) hc

end

/-- A subscriber of a tenant is delivered what is due, exactly if no delete, restore or hard delete of the
run is about a row of the tenant. -/
theorem delivered_iff (env : Env) (ctx : Ctx) (model tenant : String) (sub : Subscription) (calls : List Call) (w : World)
    (hopened : Subscription.modelChanges env.schema ctx model = .ok sub) (htenant : ctx.tenant = some tenant)
    (hscoped : TenantScoped env model w.store.tables) :
    (∃ commits, Commits env w calls commits (performAll env calls w)) ∧
      ∀ commits, Commits env w calls commits (performAll env calls w) →
        (sub.delivered env.casing w (performAll env calls w) = due env model tenant commits ↔
          ∀ c ∈ commits, c.call.modelName = model → Tells c.handed = false →
            ∀ row ∈ c.rows, owned env tenant row = false) := by
  refine ⟨exists_commits env calls w, fun commits hcommits => ?_⟩
  obtain ⟨hmodel, hsub⟩ : sub.model = model ∧ sub.tenant = some tenant := by
    unfold Subscription.modelChanges at hopened
    split at hopened
    · cases hopened
      exact ⟨rfl, htenant⟩
    · split at hopened <;> cases hopened
      exact ⟨rfl, htenant⟩
  subst hmodel
  have hpasses := fun c (hc : c ∈ commits) => passes_of_commits hcommits hscoped hsub hc
  have hdelivered : sub.delivered env.casing w (performAll env calls w) =
      ((about commits).filter fun p => sub.passes p.2).map fun p => Subscription.shown env.casing p.2 := by
    unfold Subscription.delivered
    rw [sent_commits hcommits, List.drop_left]
    induction about commits with
    | nil => rfl
    | cons p pairs ih =>
      rw [List.map_cons, List.filterMap_cons, List.filter_cons]
      cases hp : sub.passes p.2 <;> simp [Subscription.next, hp, ih]
  have hle : ∀ p ∈ about commits, sub.passes p.2 = true →
      (decide (p.2.modelName = sub.model) && owned env tenant p.1) = true := by
    intro p hp hpass
    obtain ⟨c, hc, hmem⟩ := List.mem_flatMap.1 hp
    rw [Bool.and_eq_true, decide_eq_true_eq]
    exact (((hpasses c hc).2 p hmem).2.1 hpass).1
  rw [hdelivered]
  refine (List.map_filter_eq_map_filter_iff hle).trans
    ⟨fun hall c hc hname htells row hrow => ?_, fun hnone p hp hdue => ?_⟩
  · -- an event that the write does not tell is not delivered, so its row is not one of the tenant
    obtain ⟨hlength, hzip⟩ := hpasses c hc
    rw [← List.map_fst_zip hlength.le] at hrow
    obtain ⟨p, hmem, rfl⟩ := List.mem_map.1 hrow
    obtain ⟨hmodel, hiff⟩ := hzip p hmem
    rw [Bool.eq_false_iff]
    intro howned
    have hpass := hall p (List.mem_flatMap.2 ⟨c, hc, hmem⟩) (by rw [hmodel, hname, howned]; simp)
    rw [(hiff.1 hpass).2] at htells
    cases htells
  · obtain ⟨c, hc, hmem⟩ := List.mem_flatMap.1 hp
    obtain ⟨hname, hiff⟩ := (hpasses c hc).2 p hmem
    rw [Bool.and_eq_true, decide_eq_true_eq] at hdue
    refine hiff.2 ⟨hdue, ?_⟩
    by_contra htells
    have howned := hnone c hc (hname.symm.trans hdue.1) (Bool.eq_false_iff.2 htells) p.1 (List.of_mem_zip hmem).1
    rw [howned] at hdue
    exact nomatch hdue.2

/-- The note of a tenant is deleted. -/
def deleteNotes : Call :=
  { scope := {}, modelName := "Note", actor := none, write := .deleteMany [] }

theorem delivered_iff_deleted :
    (∃ commits, Commits (.bare Client.noteSchema) (Client.noteWorld [Client.noteRow "a" "x" "t"]) [deleteNotes] commits
      (performAll (.bare Client.noteSchema) [deleteNotes] (Client.noteWorld [Client.noteRow "a" "x" "t"]))) ∧
      ∀ commits, Commits (.bare Client.noteSchema) (Client.noteWorld [Client.noteRow "a" "x" "t"]) [deleteNotes] commits
          (performAll (.bare Client.noteSchema) [deleteNotes] (Client.noteWorld [Client.noteRow "a" "x" "t"])) →
        (Subscription.delivered ⟨"Note", some "t"⟩ .ascii (Client.noteWorld [Client.noteRow "a" "x" "t"])
            (performAll (.bare Client.noteSchema) [deleteNotes] (Client.noteWorld [Client.noteRow "a" "x" "t"])) =
          due (.bare Client.noteSchema) "Note" "t" commits ↔
          ∀ c ∈ commits, c.call.modelName = "Note" → Tells c.handed = false →
            ∀ row ∈ c.rows, owned (.bare Client.noteSchema) "t" row = false) :=
  delivered_iff (.bare Client.noteSchema) { tenant := some "t" } "Note" "t" ⟨"Note", some "t"⟩ [deleteNotes]
    (Client.noteWorld [Client.noteRow "a" "x" "t"]) rfl rfl fun _ _ =>
    show "tenant_id" ∈ Client.noteColumns.map Prod.fst by decide

/-- The subscriber does not hear of that. -/
theorem deleted_undelivered :
    ¬∀ (env : Env) (ctx : Ctx) (model tenant : String) (sub : Subscription) (calls : List Call) (w : World)
      (commits : List Commit), Subscription.modelChanges env.schema ctx model = .ok sub → ctx.tenant = some tenant →
      TenantScoped env model w.store.tables → Commits env w calls commits (performAll env calls w) →
      sub.delivered env.casing w (performAll env calls w) = due env model tenant commits := by
  intro h
  let env : Env := .bare Client.noteSchema
  let w := Client.noteWorld [Client.noteRow "a" "x" "t"]
  obtain ⟨commits, hcommits⟩ := exists_commits env [deleteNotes] w
  have hdue := h env { tenant := some "t" } "Note" "t" ⟨"Note", some "t"⟩ [deleteNotes] w commits rfl rfl
    (fun _ _ => show "tenant_id" ∈ Client.noteColumns.map Prod.fst by decide) hcommits
  have hdelivered : Subscription.delivered ⟨"Note", some "t"⟩ env.casing w (performAll env [deleteNotes] w) = [] := by
    decide +kernel
  have hsent : (deleteNotes.perform env w).sent ≠ w.sent := by decide +kernel
  rw [hdelivered] at hdue
  rcases hcommits.single with ⟨hsilent, -⟩ | ⟨c, hcall, rfl, hvalid⟩
  · exact hsent hsilent
  · let row : Row := [("id", .text "a"), ("title", .text "x"), ("tenant_id", .text "t")]
    have hhanded := hvalid.handedOn
    have hdoes := hvalid.does
    rw [hcall] at hhanded hdoes
    have hhanded : c.handed = .deleteMany [] := hhanded
    rw [hhanded] at hdoes
    obtain ⟨now, hrows, -⟩ := hdoes
    have hrows : c.rows = [row ++ [("deleted_at", .timestamptz now)]] := hrows
    obtain ⟨event, hevents⟩ : ∃ event, c.events = [event] := by
      apply List.length_eq_one_iff.1
      rw [← zip_length hvalid, hrows]
      rfl
    have hmem : (row ++ [("deleted_at", .timestamptz now)], event) ∈ c.rows.zip c.events := by
      rw [hrows, hevents]
      exact List.mem_singleton_self _
    have hname : event.modelName = "Note" := by
      rw [(zip_events hvalid hmem).1, hcall]
      rfl
    have howned : owned env "t" (row ++ [("deleted_at", .timestamptz now)]) = true := rfl
    have hpair : (row ++ [("deleted_at", .timestamptz now)], event) ∈ about [c] :=
      List.mem_flatMap.2 ⟨c, List.mem_singleton_self c, hmem⟩
    have hshown : Subscription.shown env.casing event ∈ due env "Note" "t" [c] := by
      refine List.mem_map.2 ⟨_, List.mem_filter.2 ⟨hpair, ?_⟩, rfl⟩
      show (decide (event.modelName = "Note") && owned env "t" _) = true
      rw [hname, howned]
      rfl
    rw [← hdue] at hshown
    cases hshown

end Atomo.GraphQL

import Atomo.Client.Tenants
import Atomo.GraphQL.Mutations

/-!
# Mutations and tenants

What the mutations of a request with a tenant do to the rows of the others (`Mutation.confined_iff`).
-/

namespace Atomo.GraphQL

open Query (scopeByTenant parseWhere)
open Client (Env Scope World Record Write Step Performed Undone)
open Db (Spreads Confined)

variable (env : Env) (scope : Scope) (ctx : Ctx) (modelName : String)

/-- The context of a request of a tenant. -/
def Ctx.within (ctx : Ctx) (tenant : String) : Ctx :=
  { ctx with tenant := some tenant }

/-- A request to `ServiceMutation`. -/
inductive Mutation where
  | create (data : Record)
  | update (id : Option String) (where_ : Option Json) (data : Record)
  | updateMany (updates : List BulkUpdateInput)
  | delete (id : Option String) (where_ : Option Json)
  | restore (id : Option String) (where_ : Option Json)
  | hardDelete (id : Option String) (where_ : Option Json)

namespace Mutation

def run : Mutation → Resolver Unit
  | create data => do
    let _ ← ServiceMutation.create env scope ctx modelName data
  | update id where_ data => do
    let _ ← ServiceMutation.update env scope ctx modelName id where_ data
  | updateMany updates => do
    let _ ← ServiceMutation.updateMany env scope ctx modelName updates
  | delete id where_ => do
    let _ ← ServiceMutation.delete env scope ctx modelName id where_
  | restore id where_ => do
    let _ ← ServiceMutation.restore env scope ctx modelName id where_
  | hardDelete id where_ => do
    let _ ← ServiceMutation.hardDelete env scope ctx modelName id where_

/-- The writes on the rows that an `id` or a `where` selects. -/
def selecting (id : Option String) (where_ : Option Json) (write : List Query.WhereClause → Write) : List Write :=
  match Query.resolveWhere id where_ with
  | .ok value => [write (scopeByTenant (parseWhere value) ctx.tenant)]
  | .error _ => []

/-- The write of an entry of `updateMany`, if it has any. -/
def entryWrite (entry : BulkUpdateInput) : Option Write :=
  match entry.data with
  | .object map => some (.updateMany (ServiceMutation.entryWhere ctx entry)
      (normalizeInputKeys env.casing env.schema modelName (collect map)))
  | _ => none

/-- The writes that a mutation asks the client for. -/
def writes : Mutation → List Write
  | create data => [.create (ServiceMutation.createData env ctx modelName data)]
  | update id where_ data =>
    selecting ctx id where_ fun clauses =>
      .updateMany clauses (normalizeInputKeys env.casing env.schema modelName data)
  | updateMany updates => updates.filterMap (entryWrite env ctx modelName)
  | delete id where_ => selecting ctx id where_ .deleteMany
  | restore id where_ => selecting ctx id where_ .restoreMany
  | hardDelete id where_ => selecting ctx id where_ .hardDeleteMany

variable {env scope ctx modelName} {w w' : World}

/-- These writes were performed. -/
def Performs (env : Env) (scope : Scope) (modelName : String) (writes : List Write) (w w' : World) : Prop :=
  ∃ steps, Performed env scope modelName w.store.tables writes steps w'.store.tables

/-- Some of these writes were performed, from the first on. -/
def Stops (env : Env) (scope : Scope) (modelName : String) (writes : List Write) (w : World) (_ : Error)
    (w' : World) : Prop :=
  ∃ done, done <+: writes ∧ Performs env scope modelName done w w'

theorem performs_done {actor : Option String} {write : Write} {reply : Client.Reply}
    (h : Write.Done env scope modelName actor write w reply w') : Performs env scope modelName [write] w w' := by
  obtain ⟨step, hperformed⟩ := h.performed
  exact ⟨_, hperformed⟩

theorem Performs.nil (h : w'.store.tables = w.store.tables) : Performs env scope modelName [] w w' := by
  refine ⟨[], ?_⟩
  rw [h]
  exact .nil _

theorem stops_refused {writes : List Write} {e : Error} (h : ServiceMutation.Refused w e w') :
    Stops env scope modelName writes w e w' := by
  obtain ⟨e', hundone⟩ := h
  exact ⟨[], List.nil_prefix, .nil (by rw [hundone.store])⟩

/-- A resolver that performs one write. -/
theorem performs_single {α : Type} {resolver : Resolver α} {writes : List Write} {w : World} {Q : World → Prop}
    (h : Ends resolver w (fun _ w' => Q w') (ServiceMutation.Refused w))
    (hdone : ∀ w', Q w' → ∃ actor write reply, writes = [write] ∧
      Write.Done env scope modelName actor write w reply w') :
    Ends (do let _ ← resolver) w (fun _ w' => Performs env scope modelName writes w w')
      (Stops env scope modelName writes w) := by
  have hresolver : Ends resolver w (fun _ w' => Performs env scope modelName writes w w')
      (Stops env scope modelName writes w) := by
    refine h.mono (fun _ w' hq => ?_) fun _ _ => stops_refused
    obtain ⟨actor, write, reply, rfl, hwrite⟩ := hdone w' hq
    exact performs_done hwrite
  exact hresolver.bind fun _ w' hperforms => Ends.pure hperforms

theorem selecting_ok {id : Option String} {where_ : Option Json} {value : Json}
    (h : Query.resolveWhere id where_ = .ok value) (write : List Query.WhereClause → Write) :
    selecting ctx id where_ write = [write (scopeByTenant (parseWhere value) ctx.tenant)] := by
  unfold selecting
  rw [h]

theorem Performs.append {done more : List Write} {w1 : World} (h : Performs env scope modelName done w w1)
    (h' : Performs env scope modelName more w1 w') : Performs env scope modelName (done ++ more) w w' := by
  obtain ⟨steps, hperformed⟩ := h
  obtain ⟨steps', hperformed'⟩ := h'
  exact ⟨_, hperformed.append hperformed'⟩

theorem updateEntries_performs (updates : List BulkUpdateInput) (w : World) :
    Ends (ServiceMutation.updateEntries env scope ctx modelName updates) w
      (fun _ w' => Performs env scope modelName (updates.filterMap (entryWrite env ctx modelName)) w w')
      (Stops env scope modelName (updates.filterMap (entryWrite env ctx modelName)) w) := by
  induction updates generalizing w with
  | nil => exact Ends.pure (.nil rfl)
  | cons entry updates ih =>
    have hentry : Ends (ServiceMutation.updateEntry env scope ctx modelName entry) w
        (fun _ w' => ∃ write, entryWrite env ctx modelName entry = some write ∧
          Performs env scope modelName [write] w w')
        (Stops env scope modelName ((entry :: updates).filterMap (entryWrite env ctx modelName)) w) := by
      refine (ServiceMutation.updateEntry_ends entry).mono ?_ fun _ _ => stops_refused
      rintro _ w' ⟨map, reply, hmap, hdone⟩
      refine ⟨_, ?_, performs_done hdone⟩
      unfold entryWrite
      rw [hmap]
    refine hentry.bind ?_
    rintro row w1 ⟨write, hwrite, hfirst⟩
    rw [List.filterMap_cons_some hwrite]
    refine ((ih w1).mono (R := fun _ w' => Performs env scope modelName
      (write :: updates.filterMap (entryWrite env ctx modelName)) w w') (fun _ w' hrest => ?_) ?_).bind ?_
    · exact hfirst.append hrest
    · rintro _ w' ⟨done, hdone, hrest⟩
      exact ⟨write :: done, (List.prefix_cons_inj write).2 hdone, hfirst.append hrest⟩
    · exact fun _ w' hperforms => Ends.pure hperforms

/-- A mutation performs the writes that it asks for, or stops on the way. -/
theorem run_performs (mutation : Mutation) (w : World) :
    Ends (mutation.run env scope ctx modelName) w
      (fun _ w' => Performs env scope modelName (mutation.writes env ctx modelName) w w')
      (Stops env scope modelName (mutation.writes env ctx modelName) w) := by
  cases mutation with
  | create data =>
    refine performs_single (ServiceMutation.create_ends data) ?_
    rintro w' ⟨reply, hdone⟩
    exact ⟨_, _, reply, rfl, hdone⟩
  | update id where_ data =>
    refine performs_single (ServiceMutation.update_ends id where_ data) ?_
    rintro w' ⟨value, reply, hvalue, hdone⟩
    exact ⟨_, _, reply, selecting_ok hvalue fun clauses => .updateMany clauses _, hdone⟩
  | updateMany updates =>
    have haccess : Ends (checkAccess env.schema modelName "update" ctx) w (fun _ w' => w' = w)
        (Stops env scope modelName ((updateMany updates).writes env ctx modelName) w) :=
      (ServiceMutation.checkAccess_refused ctx env.schema modelName "update" w).mono (fun _ _ h => h)
        fun _ _ => stops_refused
    have hentries : Ends (ServiceMutation.updateMany env scope ctx modelName updates) w
        (fun _ w' => Performs env scope modelName ((updateMany updates).writes env ctx modelName) w w')
        (Stops env scope modelName ((updateMany updates).writes env ctx modelName) w) := by
      refine haccess.bind ?_
      rintro _ w rfl
      exact updateEntries_performs updates w
    exact hentries.bind fun _ w' hperforms => Ends.pure hperforms
  | delete id where_ =>
    refine performs_single (ServiceMutation.delete_ends id where_) ?_
    rintro w' ⟨value, reply, hvalue, hdone⟩
    exact ⟨_, _, reply, selecting_ok hvalue _, hdone⟩
  | restore id where_ =>
    refine performs_single (ServiceMutation.restore_ends id where_) ?_
    rintro w' ⟨value, reply, hvalue, hdone⟩
    exact ⟨_, _, reply, selecting_ok hvalue _, hdone⟩
  | hardDelete id where_ =>
    refine performs_single (ServiceMutation.hardDelete_ends id where_) ?_
    rintro w' ⟨value, reply, hvalue, hdone⟩
    exact ⟨_, _, reply, selecting_ok hvalue _, hdone⟩

/-- The writes of a mutation of a tenant are about one row, or about the rows of the tenant. -/
theorem writes_scoped (env : Env) (ctx : Ctx) (tenant modelName : String) (mutation : Mutation) :
    ∀ write ∈ mutation.writes env (ctx.within tenant) modelName, write.Scoped tenant := by
  have hselecting : ∀ id where_ (make : List Query.WhereClause → Write),
      (∀ own, (make (scopeByTenant own (some tenant))).Scoped tenant) →
      ∀ write ∈ selecting (ctx.within tenant) id where_ make, write.Scoped tenant := by
    intro id where_ make hmake write hwrite
    unfold selecting at hwrite
    split at hwrite
    · rw [List.mem_singleton.1 hwrite]
      exact hmake _
    · cases hwrite
  cases mutation with
  | create data =>
    intro write hwrite
    rw [List.mem_singleton.1 hwrite]
    trivial
  | updateMany updates =>
    intro write hwrite
    obtain ⟨entry, -, hentry⟩ := List.mem_filterMap.1 hwrite
    unfold entryWrite at hentry
    split at hentry
    · cases hentry
      exact ⟨_, rfl⟩
    · cases hentry
  | update id where_ data => exact hselecting id where_ (fun clauses => .updateMany clauses _) fun own => ⟨own, rfl⟩
  | delete id where_ | restore id where_ | hardDelete id where_ => exact hselecting id where_ _ fun own => ⟨own, rfl⟩

/-- Whatever a mutation of a tenant ends with, the rows of other tenants are as they were, and no other row is
among them exactly when every write that was performed keeps to the tenant. -/
theorem confined_iff (env : Env) (scope : Scope) (ctx : Ctx) (tenant modelName : String) (mutation : Mutation)
    (w : World) :
    Ends (mutation.run env scope (ctx.within tenant) modelName) w
      (fun _ w' => ∃ steps,
        Performed env scope modelName w.store.tables (mutation.writes env (ctx.within tenant) modelName) steps
          w'.store.tables ∧
        Spreads env.pg tenant w.store.tables w'.store.tables ∧
        (Confined env.pg tenant w.store.tables w'.store.tables ↔ ∀ step ∈ steps, step.Keeps env scope tenant))
      (fun _ w' => ∃ done steps, done <+: mutation.writes env (ctx.within tenant) modelName ∧
        Performed env scope modelName w.store.tables done steps w'.store.tables ∧
        Spreads env.pg tenant w.store.tables w'.store.tables ∧
        (Confined env.pg tenant w.store.tables w'.store.tables ↔ ∀ step ∈ steps, step.Keeps env scope tenant)) := by
  have hscoped := writes_scoped env ctx tenant modelName mutation
  refine (run_performs mutation w).mono ?_ ?_
  · rintro _ w' ⟨steps, hperformed⟩
    exact ⟨steps, hperformed, hperformed.confined hscoped⟩
  · rintro _ w' ⟨done, hdone, steps, hperformed⟩
    exact ⟨done, steps, hdone, hperformed, hperformed.confined fun write hwrite =>
      hscoped write (hdone.subset hwrite)⟩

/-- An update gives a note to another tenant. -/
theorem update_moves : ∃ w',
    (Mutation.update (some "1") none [("tenantId", .string "u")]).run (.bare Client.noteSchema) {}
      (Ctx.within {} "t") "Note" (Client.noteWorld [Client.noteRow "1" "a" "t"]) = .ok () w' ∧
    (w'.store.tables "notes").rows = [Client.noteRow "1" "a" "u"] ∧
    ¬Confined .bare "t" (Client.noteTables [Client.noteRow "1" "a" "t"]) w'.store.tables := by
  have hends : endsOk ((Mutation.update (some "1") none [("tenantId", .string "u")]).run (.bare Client.noteSchema) {}
      (Ctx.within {} "t") "Note") (Client.noteWorld [Client.noteRow "1" "a" "t"])
      (fun _ w' => (w'.store.tables "notes").rows = [Client.noteRow "1" "a" "u"]) = true := by
    decide +kernel
  obtain ⟨_, w', hrun, htest⟩ := exists_of_endsOk hends
  have hrows := of_decide_eq_true htest
  refine ⟨w', hrun, hrows, fun hconfined => ?_⟩
  have hnotes := hconfined "notes"
  unfold Db.foreign at hnotes
  rw [hrows] at hnotes
  revert hnotes
  decide

end Mutation

end Atomo.GraphQL

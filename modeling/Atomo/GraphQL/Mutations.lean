import Atomo.GraphQL.Context

/-!
# The mutations of a service

The resolvers of `ServiceMutation`.
-/

namespace Atomo.GraphQL

open Schema (Model)
open Client (Env Scope World Record Write Reply Undone)
open Client.Write (Done)
open Query (WhereClause parseWhere scopeByTenant)

variable (env : Env) (scope : Scope) (ctx : Ctx)

structure BulkUpdateInput where
  id : String
  data : Json

namespace ServiceMutation

/-- The rules that `create` checks: those of the model, or else that no field is missing. -/
def createRules (model : Model) : List (String × String) :=
  if model.validation ≠ [] then model.validation
  else
    (model.fields.filter fun field =>
      !field.2.optional && field.2.name ≠ "id" && field.2.name ≠ "createdAt" && field.2.name ≠ "updatedAt").map
        fun field => (field.1, "required")

/-- The validation of `create`. -/
def validateCreate (modelName : String) (data : Record) : Resolver Unit :=
  match env.schema.model? modelName with
  | none => pure ()
  | some model =>
    match Schema.validate data (createRules model) with
    | [] => pure ()
    | errors => throw (.validationFailed errors)

/-- The data of `create`, which belongs to the tenant of the request. -/
def createData (modelName : String) (data : Record) : Record :=
  let data := normalizeInputKeys env.casing env.schema modelName data
  match ctx.tenant with
  | some tenant => insertKey "tenant_id" (.string tenant) data
  | none => data

/-- `Mutation::create`. -/
def create (modelName : String) (data : Record) : Resolver Record := do
  checkAccess env.schema modelName "create" ctx
  let data := createData env ctx modelName data
  validateCreate env modelName data
  let result ← call (Client.createChecked env scope ctx.userRole modelName data ctx.userId)
  return camelKeys env.casing result

/-- `Mutation::update`. -/
def update (modelName : String) (id : Option String) (where_ : Option Json) (data : Record) :
    Resolver (Option Record) := do
  checkAccess env.schema modelName "update" ctx
  let data := normalizeInputKeys env.casing env.schema modelName data
  let whereValue ← resolveWhere id where_
  let results ← call (Client.updateManyChecked env scope ctx.userRole modelName
    (scopeByTenant (parseWhere whereValue) ctx.tenant) data ctx.userId)
  return results.head?.map (camelKeys env.casing)

/-- The data of an entry, which must be an object. -/
def entryData (entry : BulkUpdateInput) : Resolver Record :=
  match entry.data with
  | .object map => pure (collect map)
  | _ => throw (.message "Each update's \x60data\x60 must be a JSON object")

/-- One round of the loop of `update_many`. -/
def updateEntry (modelName : String) (entry : BulkUpdateInput) : Resolver (Option Record) := do
  let data ← entryData entry
  let results ← call (Client.updateManyChecked env scope ctx.userRole modelName
    (scopeByTenant (parseWhere (.object [("id", .string entry.id)])) ctx.tenant)
    (normalizeInputKeys env.casing env.schema modelName data) ctx.userId)
  return results.head?.map (camelKeys env.casing)

def updateEntries (modelName : String) : List BulkUpdateInput → Resolver (List Record)
  | [] => return []
  | entry :: entries => do
    let row ← updateEntry env scope ctx modelName entry
    let rows ← updateEntries modelName entries
    return row.toList ++ rows

/-- `Mutation::update_many`. -/
def updateMany (modelName : String) (updates : List BulkUpdateInput) : Resolver (List Record) := do
  checkAccess env.schema modelName "update" ctx
  updateEntries env scope ctx modelName updates

/-- `Mutation::delete`. -/
def delete (modelName : String) (id : Option String) (where_ : Option Json) : Resolver Int32 := do
  checkAccess env.schema modelName "delete" ctx
  let whereValue ← resolveWhere id where_
  let count ← call (Client.deleteManyChecked env scope ctx.userRole modelName
    (scopeByTenant (parseWhere whereValue) ctx.tenant) ctx.userId)
  return .ofNat count

/-- `Mutation::restore`. -/
def restore (modelName : String) (id : Option String) (where_ : Option Json) : Resolver Int32 := do
  checkAccess env.schema modelName "delete" ctx
  let whereValue ← resolveWhere id where_
  let count ← call (Client.restoreMany env scope modelName
    (scopeByTenant (parseWhere whereValue) ctx.tenant) ctx.userId)
  return .ofNat count

/-- `Mutation::hard_delete`. -/
def hardDelete (modelName : String) (id : Option String) (where_ : Option Json) : Resolver Int32 := do
  checkAccess env.schema modelName "delete" ctx
  let whereValue ← resolveWhere id where_
  let count ← call (Client.hardDeleteMany env scope modelName
    (scopeByTenant (parseWhere whereValue) ctx.tenant) ctx.userId)
  return .ofNat count

/-! ## What they do -/

/-- Nothing came of a request. -/
def Refused (w : World) (_ : Error) (w' : World) : Prop :=
  ∃ e, Undone w e w'

variable {modelName : String} {w : World}

theorem checkAccess_refused (schema : Atomo.Schema) (modelName action : String) (w : World) :
    Ends (checkAccess schema modelName action ctx) w (fun _ w' => w' = w) (Refused w) :=
  checkAccess_ends fun _ => ⟨.database, .refl w _⟩

theorem resolveWhere_refused (id : Option String) (where_ : Option Json) (w : World) :
    Ends (resolveWhere id where_) w (fun value w' => Query.resolveWhere id where_ = .ok value ∧ w' = w)
      (Refused w) :=
  resolveWhere_ends fun _ => ⟨.database, .refl w _⟩

theorem call_refused {α : Type} {program : Client.Program α} {Q : α → World → Prop}
    (h : Ends program w Q (Undone w)) : Ends (call program) w Q (Refused w) :=
  call_ends h fun e _ hundone => ⟨e, hundone⟩

variable {env scope ctx}

theorem validateCreate_refused (modelName : String) (data : Record) (w : World) :
    Ends (validateCreate env modelName data) w (fun _ w' => w' = w) (Refused w) := by
  unfold validateCreate
  split
  · exact Ends.pure rfl
  · split
    · exact Ends.pure rfl
    · exact Ends.throw ⟨.database, .refl w _⟩

theorem create_ends (data : Record) :
    Ends (create env scope ctx modelName data) w
      (fun _ w' => ∃ reply,
        Done env scope modelName ctx.userId (.create (createData env ctx modelName data)) w reply w')
      (Refused w) := by
  refine (checkAccess_refused ctx env.schema modelName "create" w).bind ?_
  rintro _ w rfl
  refine (validateCreate_refused modelName _ w).bind ?_
  rintro _ w rfl
  refine (call_refused (Client.Write.createChecked_ends env scope _ modelName _ _ w)).bind ?_
  exact fun record w' hdone => Ends.pure ⟨_, hdone⟩

theorem update_ends (id : Option String) (where_ : Option Json) (data : Record) :
    Ends (update env scope ctx modelName id where_ data) w
      (fun _ w' => ∃ value reply, Query.resolveWhere id where_ = .ok value ∧
        Done env scope modelName ctx.userId (.updateMany (scopeByTenant (parseWhere value) ctx.tenant)
          (normalizeInputKeys env.casing env.schema modelName data)) w reply w')
      (Refused w) := by
  refine (checkAccess_refused ctx env.schema modelName "update" w).bind ?_
  rintro _ w rfl
  refine (resolveWhere_refused id where_ w).bind ?_
  rintro value w ⟨hvalue, rfl⟩
  refine (call_refused (Client.Write.updateManyChecked_ends env scope _ modelName _ _ _ w)).bind ?_
  exact fun results w' hdone => Ends.pure ⟨value, _, hvalue, hdone⟩

/-- The clauses of an entry of `update_many`. -/
def entryWhere (ctx : Ctx) (entry : BulkUpdateInput) : List WhereClause :=
  scopeByTenant (parseWhere (.object [("id", .string entry.id)])) ctx.tenant

theorem updateEntry_ends (entry : BulkUpdateInput) :
    Ends (updateEntry env scope ctx modelName entry) w
      (fun _ w' => ∃ map reply, entry.data = .object map ∧
        Done env scope modelName ctx.userId (.updateMany (entryWhere ctx entry)
          (normalizeInputKeys env.casing env.schema modelName (collect map))) w reply w')
      (Refused w) := by
  have hdata : Ends (entryData entry) w
      (fun data w' => (∃ map, entry.data = .object map ∧ data = collect map) ∧ w' = w) (Refused w) := by
    unfold entryData
    split
    · rename_i map hmap
      exact Ends.pure ⟨⟨map, hmap, rfl⟩, rfl⟩
    · exact Ends.throw ⟨.database, .refl w _⟩
  refine hdata.bind ?_
  rintro data w ⟨⟨map, hmap, rfl⟩, rfl⟩
  refine (call_refused (Client.Write.updateManyChecked_ends env scope _ modelName _ _ _ w)).bind ?_
  exact fun results w' hdone => Ends.pure ⟨map, _, hmap, hdone⟩

/-- The course of the mutations that return a count. -/
theorem counted_ends {program : List WhereClause → Client.Program Nat} {write : List WhereClause → Write}
    (hprogram : ∀ clauses w, Ends (program clauses) w
      (fun n w' => Done env scope modelName ctx.userId (write clauses) w (.count n) w') (Undone w))
    (id : Option String) (where_ : Option Json) :
    Ends (do
      checkAccess env.schema modelName "delete" ctx
      let whereValue ← resolveWhere id where_
      let count ← call (program (scopeByTenant (parseWhere whereValue) ctx.tenant))
      return Int32.ofNat count) w
      (fun _ w' => ∃ value reply, Query.resolveWhere id where_ = .ok value ∧
        Done env scope modelName ctx.userId (write (scopeByTenant (parseWhere value) ctx.tenant)) w reply w')
      (Refused w) := by
  refine (checkAccess_refused ctx env.schema modelName "delete" w).bind ?_
  rintro _ w rfl
  refine (resolveWhere_refused id where_ w).bind ?_
  rintro value w ⟨hvalue, rfl⟩
  refine (call_refused (hprogram _ w)).bind ?_
  exact fun n w' hdone => Ends.pure ⟨value, _, hvalue, hdone⟩

theorem delete_ends (id : Option String) (where_ : Option Json) :
    Ends (delete env scope ctx modelName id where_) w
      (fun _ w' => ∃ value reply, Query.resolveWhere id where_ = .ok value ∧
        Done env scope modelName ctx.userId (.deleteMany (scopeByTenant (parseWhere value) ctx.tenant)) w reply w')
      (Refused w) :=
  counted_ends (fun clauses w => Client.Write.deleteManyChecked_ends env scope _ modelName clauses _ w) id where_

theorem restore_ends (id : Option String) (where_ : Option Json) :
    Ends (restore env scope ctx modelName id where_) w
      (fun _ w' => ∃ value reply, Query.resolveWhere id where_ = .ok value ∧
        Done env scope modelName ctx.userId (.restoreMany (scopeByTenant (parseWhere value) ctx.tenant)) w reply w')
      (Refused w) :=
  counted_ends (fun clauses w => Client.Write.restoreMany_ends env scope modelName clauses _ w) id where_

theorem hardDelete_ends (id : Option String) (where_ : Option Json) :
    Ends (hardDelete env scope ctx modelName id where_) w
      (fun _ w' => ∃ value reply, Query.resolveWhere id where_ = .ok value ∧
        Done env scope modelName ctx.userId (.hardDeleteMany (scopeByTenant (parseWhere value) ctx.tenant)) w reply
          w')
      (Refused w) :=
  counted_ends (fun clauses w => Client.Write.hardDeleteMany_ends env scope modelName clauses _ w) id where_

end ServiceMutation

end Atomo.GraphQL

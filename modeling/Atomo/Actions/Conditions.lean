import Atomo.Actions.Dispatcher
import Atomo.Client.Commits
import Atomo.GraphQL.FieldNames

/-!
# What a binding sees of a row

The conditions of the bindings and the inputs of the actions name the fields of a model as these are declared; an
event carries the row as `row_to_map` returns it, under the names of its columns, and not the row that was there
before. So a `changedAny` is met by each event of an update (`bound_of_updated`), and a field whose column is spelled
otherwise is not found (`sees_iff`).
-/

namespace Atomo.Actions

open Schema (Model EventActionBinding ActionCondition ActionInputDef lookup?)
open Query (WhereClause SqlBuilder.update tableName)
open Db (Row Table SqlValue rowToMap decode)
open Client (Env Scope World Act Record Committed Undone boundTenant selection selection_eq executed_update stamped Write)

variable (env : Env)

/-- The value of a field of a row: that of its column. -/
def fieldValue (table : Table) (row : Row) (field : String) : Option Json :=
  lookup? (toSnakeCase env.casing field) (rowToMap env.pg table.columnNames row)

theorem lookup?_rowToMap_eq {pg : Db.Postgres} (columns : List String) (column : String) (row : Row) :
    lookup? column (rowToMap pg columns row) = if column ∈ columns then some (decode pg (row.get column)) else none := by
  split
  · rename_i h
    exact Db.lookup?_rowToMap pg row h
  · rename_i h
    have hnone : (rowToMap pg columns row).find? (·.1 = column) = none := by
      rw [List.find?_eq_none]
      rintro entry hentry
      obtain ⟨other, hother, rfl⟩ := List.mem_map.1 hentry
      rw [decide_eq_true_eq]
      rintro rfl
      exact h hother
    unfold lookup?
    rw [hnone, Option.map_none]

/-! ## Changes -/

/-- The rows of a model that clauses select, before a write and after it. -/
def changes (scope : Scope) (model : Model) (clauses : List WhereClause) (w w' : World) : List (Row × Row) :=
  let name := tableName env.casing model
  ((w.store.tables name).rows.zip (w'.store.tables name).rows).filter fun change =>
    Db.matching env.pg env.casing (boundTenant env scope) name clauses change.1

/-- One of the fields has another value. -/
def Differs (table : Table) (fields : List String) (before after : Row) : Prop :=
  ∃ f ∈ fields, fieldValue env table before f ≠ fieldValue env table after f

/-- A write has the action of a binding enqueued for the rows in which one of the fields was changed, and for no
others: the events that it sends are those of the rows, and the dispatcher enqueues the actions of `bindings`. -/
def FiresOnChange (scope : Scope) (model : Model) (clauses : List WhereClause) (binding : EventActionBinding)
    (fields : List String) (w w' : World) : Prop :=
  ∃ events, w'.sent = w.sent ++ events.map Act.send ∧
    List.Forall₂ (fun change event => binding ∈ bindings env.schema event ↔
        Differs env (w.store.tables (tableName env.casing model)) fields change.1 change.2)
      (changes env scope model clauses w w') events

/-- What an update sets the columns to: the data that its hook hands on. -/
def assigned (modelName : String) (model : Model) (data : Record) (w : World) : Option (List (String × SqlValue)) :=
  match env.beforeHook w.tick { modelName, operation := "update", data } with
  | .proceed data' => Db.dataValues env.pg env.casing model (w.store.tables (tableName env.casing model)) data'
  | _ => none

/-- These assignments give a field another value than it has in the row. -/
def Alters (table : Table) (sets : List (String × SqlValue)) (row : Row) (field : String) : Prop :=
  let column := toSnakeCase env.casing field
  column ∈ table.columnNames ∧ (lookup? column row).isSome = true ∧
    ∃ value, lookup? column sets = some value ∧ decode env.pg value ≠ decode env.pg (row.get column)

/-- An update alters one of the fields in every row that it selects. -/
def AltersEach (scope : Scope) (modelName : String) (model : Model) (clauses : List WhereClause) (data : Record)
    (fields : List String) (w : World) : Prop :=
  ∀ sets, assigned env modelName model data w = some sets →
    ∀ row ∈ selection env scope modelName clauses w,
      ∃ f ∈ fields, Alters env (w.store.tables (tableName env.casing model)) sets row f

variable {env} {scope : Scope} {modelName : String} {model : Model} {clauses : List WhereClause} {data : Record}
  {actor : Option String} {w w' : World} {records : List Record} {table : Table} {fields : List String}
  {binding : EventActionBinding}

theorem get_update_of_none {row : Row} {sets : List (String × SqlValue)} {column : String}
    (h : (lookup? column row).isSome = false) : (row.update sets).get column = row.get column := by
  have hnone : row.find? (·.1 = column) = none := by
    unfold lookup? at h
    simpa using h
  unfold Row.update
  rw [Row.get_map, hnone]
  unfold Row.get lookup?
  rw [hnone]
  rfl

theorem differs_update_iff (row : Row) (sets : List (String × SqlValue)) :
    Differs env table fields row (row.update sets) ↔ ∃ f ∈ fields, Alters env table sets row f := by
  unfold Differs
  refine exists_congr fun f => and_congr_right fun _ => ?_
  unfold fieldValue Alters
  rw [lookup?_rowToMap_eq, lookup?_rowToMap_eq]
  dsimp only
  by_cases hcolumn : toSnakeCase env.casing f ∈ table.columnNames
  · rw [if_pos hcolumn, if_pos hcolumn, ne_eq, Option.some_inj]
    cases hrow : (lookup? (toSnakeCase env.casing f) row).isSome with
    | false => simp [get_update_of_none hrow]
    | true =>
      rw [Row.get_update row sets hrow]
      cases lookup? (toSnakeCase env.casing f) sets with
      | none => simp
      | some value => simp [hcolumn, eq_comm]
  · rw [if_neg hcolumn, if_neg hcolumn]
    simp [hcolumn]

/-- The statement of an update, with the data that its hook hands on. -/
theorem updateMany_commits (hrun : Client.updateMany env scope modelName clauses data actor w = .ok records w') :
    ∃ model data' events, env.schema.model? modelName = some model ∧
      env.beforeHook w.tick { modelName, operation := "update", data } = .proceed data' ∧
      Committed env scope modelName .updated id actor [SqlBuilder.update env.casing model clauses data'] w records
        events w' := by
  have hbefore : Ends (Client.runBefore env "update" modelName data) w
      (fun data' w1 => env.beforeHook w.tick { modelName, operation := "update", data } = .proceed data' ∧
        Client.Untouched w w1) (Undone w) := by
    refine Ends.of_result ?_
    have hends := Client.runBefore_ends env "update" modelName data w
    cases hbefore : Client.runBefore env "update" modelName data w with
    | ok data' w1 =>
      refine ⟨?_, (hends.ok hbefore).2⟩
      unfold Client.runBefore at hbefore
      cases hhook : env.beforeHook w.tick { modelName, operation := "update", data } with
      | proceed handed =>
        rw [hhook] at hbefore
        cases hbefore
        rfl
      | abort message | error message =>
        rw [hhook] at hbefore
        cases hbefore
    | error e w1 => exact hends.error hbefore
  refine Ends.ok (Q := fun records w' => ∃ model data' events, env.schema.model? modelName = some model ∧
      env.beforeHook w.tick { modelName, operation := "update", data } = .proceed data' ∧
      Committed env scope modelName .updated id actor [SqlBuilder.update env.casing model clauses data'] w records
        events w') (E := Undone w) ?_ hrun
  refine (Client.check_ends _ w).bind ?_
  rintro _ _ rfl
  refine (Client.findModel_ends env modelName _).bind ?_
  rintro model w ⟨hmodel, rfl⟩
  refine hbefore.bind ?_
  rintro data' w' ⟨hhook, hasked⟩
  refine hasked.after ((Client.checkRules_ends model _ w').bind ?_)
  rintro _ w1 rfl
  refine (Client.writeMany_ends env scope (Client.execute_ends env _)).bind ?_
  rintro out w2 ⟨events, hcommitted⟩
  refine (Client.perform_ends (.afterHook "after_update") w2).bind ?_
  rintro _ _ rfl
  exact Ends.pure ⟨model, data', events, hmodel, hhook,
    (hcommitted.of_untouched env scope hasked).afterHooks env scope (by simp)⟩

/-- What the events of a write have in common. -/
theorem stamped_spec {type : EventType} {tick : Nat} {ev : StampedEvent}
    (h : ev ∈ stamped env scope type modelName actor tick records) :
    ev.eventType = type ∧ ev.modelName = modelName ∧ ev.previousData = none ∧ ev.origin = scope.origin := by
  induction records generalizing tick with
  | nil => cases h
  | cons data records ih =>
    rw [stamped, List.mem_cons] at h
    rcases h with rfl | h
    · exact ⟨rfl, rfl, rfl, rfl⟩
    · exact ih h

theorem length_stamped (type : EventType) (tick : Nat) (records : List Record) :
    (stamped env scope type modelName actor tick records).length = records.length := by
  have hdata := congrArg List.length (Client.stamped_data env scope type modelName actor tick records)
  rwa [List.length_map, List.length_map] at hdata

/-- The event of an update has no data from before, so it meets every `changedAny`. -/
theorem bound_of_updated {schema : Schema} {ev : StampedEvent} (htype : ev.eventType = .updated)
    (hprevious : ev.previousData = none) (hmodel : schema.model? ev.modelName = some model)
    (hbinding : binding ∈ model.events.updated) (hcondition : binding.condition = some (.changedAny fields))
    (horigin : ev.origin ≠ some binding.action) : binding ∈ bindings schema ev := by
  unfold bindings matchingBindings
  rw [hmodel, htype]
  simp [hbinding, hcondition, horigin, hprevious, ActionCondition.holds]

/-- The rows that an update selects, with what it makes of them. -/
theorem changes_of_sets {sets : List (String × SqlValue)} {rows : List Row}
    (h : Client.Sets env.pg env.casing (boundTenant env scope) (tableName env.casing model) clauses sets w.store.tables
      w'.store.tables rows) (hmodel : env.schema.model? modelName = some model) :
    changes env scope model clauses w w' =
      (selection env scope modelName clauses w).map fun row => (row, row.update sets) := by
  obtain ⟨-, htables, -⟩ := h
  rw [selection_eq hmodel]
  unfold changes
  dsimp only
  rw [htables, Function.update_self]
  generalize (w.store.tables (tableName env.casing model)).rows = l
  induction l with
  | nil => rfl
  | cons row l ih =>
    dsimp only at ih ⊢
    rw [List.map_cons, List.zip_cons_cons, List.filter_cons, List.filter_cons, ih]
    split
    · rfl
    · rfl

theorem forall₂_iff_of_right {α β : Type} {P : α → Prop} {Q : β → Prop} {l : List α} {l' : List β}
    (hlength : l.length = l'.length) (hall : ∀ b ∈ l', Q b) :
    List.Forall₂ (fun a b => Q b ↔ P a) l l' ↔ ∀ a ∈ l, P a := by
  induction l generalizing l' with
  | nil =>
    cases l' with
    | nil => simp
    | cons b l' => cases hlength
  | cons a l ih =>
    cases l' with
    | nil => cases hlength
    | cons b l' =>
      rw [List.forall_mem_cons] at hall
      rw [List.forall₂_cons, List.forall_mem_cons, ih (Nat.succ.inj hlength) hall.2]
      simp [hall.1]

/-- What an update changes, and where the bindings of a `changedAny` fire: in all of it. -/
theorem updateMany_spec (hrun : Client.updateMany env scope modelName clauses data actor w = .ok records w')
    (hmodel : env.schema.model? modelName = some model) :
    ∃ sets, assigned env modelName model data w = some sets ∧
      changes env scope model clauses w w' =
        (selection env scope modelName clauses w).map (fun row => (row, row.update sets)) ∧
      ∀ binding ∈ model.events.updated, ∀ fields, binding.condition = some (.changedAny fields) →
        scope.origin ≠ some binding.action →
        (FiresOnChange env scope model clauses binding fields w w' ↔
          ∀ change ∈ changes env scope model clauses w w',
            Differs env (w.store.tables (tableName env.casing model)) fields change.1 change.2) := by
  obtain ⟨model', data', events, hmodel', hhook, hcommitted⟩ := updateMany_commits hrun
  obtain rfl : model' = model := Option.some.inj (hmodel'.symm.trans hmodel)
  have hsent := hcommitted.sent
  obtain ⟨⟨tick, -, -, hevents⟩, ⟨tables, now, hexecuted, hstore⟩, -⟩ := hcommitted
  have htables : w'.store.tables = tables := by rw [hstore, Write.recorded_tables]
  rw [← htables] at hexecuted
  obtain ⟨sets, rows, hsets, hset, hrecords⟩ := executed_update hexecuted
  have hchanges := changes_of_sets hset hmodel
  refine ⟨sets, ?_, hchanges, fun binding hbinding fields hcondition horigin => ?_⟩
  · unfold assigned
    rw [hhook]
    exact hsets
  · have hbound : ∀ ev ∈ events, binding ∈ bindings env.schema ev := by
      rw [hevents]
      intro ev hev
      obtain ⟨htype, hname, hprevious, hsame⟩ := stamped_spec hev
      refine bound_of_updated htype hprevious ?_ hbinding hcondition ?_
      · rw [hname]
        exact hmodel
      · rw [hsame]
        exact horigin
    have hlength : (changes env scope model' clauses w w').length = events.length := by
      rw [hchanges, hevents, length_stamped, List.length_map, List.length_map, hrecords, List.length_map, hset.1,
        List.length_map, selection_eq hmodel]
    rw [← forall₂_iff_of_right hlength hbound]
    constructor
    · rintro ⟨events', hsent', hfires⟩
      rw [hsent] at hsent'
      have hsame := List.map_injective_iff.2 (fun _ _ h => Act.send.inj h) (List.append_cancel_left hsent')
      rwa [hsame]
    · exact fun hfires => ⟨events, hsent, hfires⟩

/-- A `changedAny` is met by an update in exactly the rows that it changes if the update alters one of the listed
fields in each row that it selects. -/
theorem fires_on_change_iff (hrun : Client.updateMany env scope modelName clauses data actor w = .ok records w')
    (hmodel : env.schema.model? modelName = some model) (hbinding : binding ∈ model.events.updated)
    (hcondition : binding.condition = some (.changedAny fields)) (horigin : scope.origin ≠ some binding.action) :
    FiresOnChange env scope model clauses binding fields w w' ↔
      AltersEach env scope modelName model clauses data fields w := by
  obtain ⟨sets, hassigned, hchanges, hfires⟩ := updateMany_spec hrun hmodel
  calc
    FiresOnChange env scope model clauses binding fields w w'
    _ ↔ ∀ change ∈ changes env scope model clauses w w',
          Differs env (w.store.tables (tableName env.casing model)) fields change.1 change.2 :=
      hfires binding hbinding fields hcondition horigin
    _ ↔ ∀ row ∈ selection env scope modelName clauses w,
          ∃ f ∈ fields, Alters env (w.store.tables (tableName env.casing model)) sets row f := by
      rw [hchanges, List.forall_mem_map]
      exact forall₂_congr fun row _ => differs_update_iff row sets
    _ ↔ AltersEach env scope modelName model clauses data fields w := by
      unfold AltersEach
      rw [hassigned]
      exact ⟨fun h sets' heq => Option.some.inj heq ▸ h, fun h => h sets rfl⟩

/-- The bindings of a lead: a score when its company has changed, a welcome when its address has. -/
def leadModel : Model where
  name := "Lead"
  fields := [("id", { name := "id", fieldType := .entityId, optional := false }),
    ("email", { name := "email", fieldType := .string, optional := false }),
    ("companyId", { name := "companyId", fieldType := .string, optional := true })]
  events :=
    { updated := [{ action := "scoreLead", condition := some (.changedAny ["companyId"]) },
        { action := "sendWelcomeEmail", condition := some (.changedAny ["email"]) }] }

def leadSchema : Atomo.Schema where
  models := [("Lead", leadModel)]
  actions := [("scoreLead", { name := "scoreLead", input := .pickFields "Lead" ["id", "companyId"] })]

def leadRow (email : String) : Row :=
  [("id", .text "l1"), ("email", .text email), ("company_id", .text "c1")]

def leadWorld : World where
  store :=
    { tables := fun _ =>
        { columns := [("id", .text), ("email", .text), ("company_id", .text)]
          primaryKey := some "id"
          rows := [leadRow "old@lead"] }
      eventLog := []
      coverage := fun _ => none }
  tick := 0
  trace := []

/-- An update of the address. -/
theorem lead_run : ∃ records w',
    Client.updateMany (.bare leadSchema) {} "Lead" [] [("email", .string "new@lead")] none leadWorld =
      .ok records w' ∧ w'.sent.length = 1 ∧ (w'.store.tables "leads").rows = [leadRow "new@lead"] := by
  have hends : endsOk (Client.updateMany (.bare leadSchema) {} "Lead" [] [("email", .string "new@lead")] none) leadWorld
      (fun _ w' => w'.sent.length = 1 ∧ (w'.store.tables "leads").rows = [leadRow "new@lead"]) = true := by
    decide
  obtain ⟨records, w', hrun, htest⟩ := exists_of_endsOk hends
  exact ⟨records, w', hrun, of_decide_eq_true htest⟩

/-- The values that the update sets. -/
theorem lead_assigned :
    assigned (.bare leadSchema) "Lead" leadModel [("email", .string "new@lead")] leadWorld =
      some [("email", .text "new@lead")] := by
  decide

theorem lead_selection : selection (.bare leadSchema) {} "Lead" [] leadWorld = [leadRow "old@lead"] := by
  decide

theorem fires_on_change_welcome : ∃ records w',
    Client.updateMany (.bare leadSchema) {} "Lead" [] [("email", .string "new@lead")] none leadWorld =
      .ok records w' ∧
    FiresOnChange (.bare leadSchema) {} leadModel []
      { action := "sendWelcomeEmail", condition := some (.changedAny ["email"]) } ["email"] leadWorld w' := by
  obtain ⟨records, w', hrun, -⟩ := lead_run
  refine ⟨records, w', hrun, (fires_on_change_iff hrun rfl (by simp [leadModel]) rfl nofun).2 ?_⟩
  intro sets hsets row hrow
  rw [lead_assigned] at hsets
  rw [lead_selection] at hrow
  cases hsets
  rw [List.mem_singleton.1 hrow]
  exact ⟨"email", List.mem_singleton_self _, by decide, by decide, .text "new@lead", by decide, by decide⟩

/-- A lead is scored when its address has changed. -/
theorem fires_unchanged :
    ¬∀ (clauses : List WhereClause) (data : Record) (records : List Record) (w' : World),
      Client.updateMany (.bare leadSchema) {} "Lead" clauses data none leadWorld = .ok records w' →
      ∀ binding ∈ leadModel.events.updated, ∀ fields, binding.condition = some (.changedAny fields) →
        FiresOnChange (.bare leadSchema) {} leadModel clauses binding fields leadWorld w' := by
  intro h
  obtain ⟨records, w', hrun, -⟩ := lead_run
  have hscore : { action := "scoreLead", condition := some (.changedAny ["companyId"]) } ∈ leadModel.events.updated := by
    simp [leadModel]
  have hmodel : (Env.bare leadSchema).schema.model? "Lead" = some leadModel := rfl
  obtain ⟨sets, hassigned, hchanges, hfires⟩ := updateMany_spec hrun hmodel
  have hdiffers := (hfires _ hscore _ rfl nofun).1 (h _ _ _ _ hrun _ hscore _ rfl)
  rw [lead_assigned] at hassigned
  cases hassigned
  rw [hchanges, lead_selection] at hdiffers
  obtain ⟨field, hfield, hne⟩ := hdiffers _ (List.mem_singleton_self _)
  rw [List.mem_singleton.1 hfield] at hne
  exact hne (by decide)

/-! ## Names -/

/-- The action of a binding gets the fields that it picks, as far as the row has values for them, and its condition
compares the field of the row, fields being named as they are declared. -/
structure Sees (env : Env) (table : Table) (row : Row) (ev : StampedEvent) (binding : EventActionBinding) : Prop where
  input : ∀ action picked fields, lookup? binding.action env.schema.actions = some action →
    action.input = .pickFields picked fields → ∀ f ∈ fields, ∀ value, fieldValue env table row f = some value →
      lookup? f (input env.schema ev binding.action) = some value
  condition : ∀ field value, binding.condition = some (.fieldEquals field value) →
    ((ActionCondition.fieldEquals field value).holds ev.data ev.previousData = true ↔
      fieldValue env table row field = some value)

/-- A field is spelled as its column is, or as another column that holds the same in the row. -/
def Spelled (env : Env) (table : Table) (row : Row) (field : String) : Prop :=
  let column := toSnakeCase env.casing field
  column = field ∨
    field ∈ table.columnNames ∧ column ∈ table.columnNames ∧ decode env.pg (row.get field) = decode env.pg (row.get column)

/-- The picked fields with a column are spelled as it is; that of a condition is as well, unless neither its column nor
one that is spelled as the field holds the value. -/
structure NamedAsStored (env : Env) (table : Table) (row : Row) (binding : EventActionBinding) : Prop where
  input : ∀ action picked fields, lookup? binding.action env.schema.actions = some action →
    action.input = .pickFields picked fields → ∀ f ∈ fields, toSnakeCase env.casing f ∈ table.columnNames →
      Spelled env table row f
  condition : ∀ field value, binding.condition = some (.fieldEquals field value) →
    Spelled env table row field ∨ ∀ column ∈ table.columnNames,
      column = field ∨ column = toSnakeCase env.casing field → decode env.pg (row.get column) ≠ value

/-- The events that a write sends carry rows of the table of its model, and this is so of each row and its event. -/
def EachRow (env : Env) (model : Model) (w w' : World) (P : Row → StampedEvent → Prop) : Prop :=
  let name := tableName env.casing model
  ∃ rows events, w'.sent = w.sent ++ events.map Act.send ∧
    (∀ row ∈ rows, row ∈ (w'.store.tables name).rows) ∧
    List.Forall₂ (fun row ev => ev.data = rowToMap env.pg (w.store.tables name).columnNames row ∧ P row ev) rows events

theorem lookup?_filterMap (fields : List String) (field : String) (doc : List (String × Json)) :
    lookup? field (fields.filterMap fun f => (lookup? f doc).map fun v => (f, v)) =
      if field ∈ fields then lookup? field doc else none := by
  induction fields with
  | nil => rfl
  | cons first fields ih =>
    rw [List.filterMap_cons]
    by_cases hfirst : first = field
    · subst hfirst
      cases hdoc : lookup? first doc with
      | none => simp [ih, hdoc]
      | some value => simp [lookup?]
    · have hrest : lookup? field (fields.filterMap fun f => (lookup? f doc).map fun v => (f, v)) =
          if field ∈ first :: fields then lookup? field doc else none := by
        simp [ih, Ne.symm hfirst]
      cases lookup? first doc with
      | none => exact hrest
      | some value =>
        rw [← hrest]
        simp [lookup?, hfirst]

/-- A picked field is looked up under its own name. -/
theorem lookup?_input {ev : StampedEvent} {action : String} {definition : Schema.ActionDef} {picked : String}
    (haction : lookup? action env.schema.actions = some definition) (hinput : definition.input = .pickFields picked fields)
    {f : String} (hf : f ∈ fields) : lookup? f (input env.schema ev action) = lookup? f ev.data := by
  unfold input
  rw [haction]
  dsimp only
  unfold Schema.ActionDef.buildInput
  rw [hinput]
  dsimp only
  rw [lookup?_filterMap, if_pos (List.mem_dedup.2 hf)]

theorem fieldValue_eq_some_iff {row : Row} {field : String} {value : Json} :
    fieldValue env table row field = some value ↔ toSnakeCase env.casing field ∈ table.columnNames ∧
      decode env.pg (row.get (toSnakeCase env.casing field)) = value := by
  unfold fieldValue
  rw [lookup?_rowToMap_eq]
  simp

/-- What an action and a condition see of a row in its event. -/
theorem sees_row_iff {row : Row} {ev : StampedEvent} (hdata : ev.data = rowToMap env.pg table.columnNames row) :
    Sees env table row ev binding ↔ NamedAsStored env table row binding := by
  have hlookup : ∀ name value, lookup? name ev.data = some value ↔
      name ∈ table.columnNames ∧ decode env.pg (row.get name) = value := by
    intro name value
    rw [hdata, lookup?_rowToMap_eq]
    simp
  constructor
  · rintro ⟨hinput, hcondition⟩
    refine ⟨?_, ?_⟩
    · intro action picked fields haction hpick f hf hcolumn
      have hfound := hinput action picked fields haction hpick f hf _ (fieldValue_eq_some_iff.2 ⟨hcolumn, rfl⟩)
      rw [lookup?_input haction hpick hf, hlookup] at hfound
      exact .inr ⟨hfound.1, hcolumn, hfound.2⟩
    · intro field value hbinding
      have hholds := hcondition field value hbinding
      unfold ActionCondition.holds at hholds
      rw [decide_eq_true_iff, hlookup, fieldValue_eq_some_iff] at hholds
      by_cases hfield : field ∈ table.columnNames ∧ decode env.pg (row.get field) = value
      · obtain ⟨hcolumn, hvalue⟩ := hholds.1 hfield
        exact .inl (.inr ⟨hfield.1, hcolumn, hfield.2.trans hvalue.symm⟩)
      · right
        rintro column hcolumn (rfl | rfl) hvalue
        · exact hfield ⟨hcolumn, hvalue⟩
        · exact hfield (hholds.2 ⟨hcolumn, hvalue⟩)
  · rintro ⟨hinput, hcondition⟩
    refine ⟨?_, ?_⟩
    · intro action picked fields haction hpick f hf value hvalue
      obtain ⟨hcolumn, hvalue⟩ := fieldValue_eq_some_iff.1 hvalue
      rw [lookup?_input haction hpick hf, hlookup]
      rcases hinput action picked fields haction hpick f hf hcolumn with hsame | ⟨hname, -, hsame⟩
      · rw [hsame] at hcolumn hvalue
        exact ⟨hcolumn, hvalue⟩
      · exact ⟨hname, hsame.trans hvalue⟩
    · intro field value hbinding
      unfold ActionCondition.holds
      rw [decide_eq_true_iff, hlookup, fieldValue_eq_some_iff]
      rcases hcondition field value hbinding with (hsame | ⟨hname, hcolumn, hsame⟩) | hother
      · rw [hsame]
      · rw [hsame]
        simp [hname, hcolumn]
      · constructor
        · rintro ⟨hname, hvalue⟩
          exact absurd hvalue (hother field hname (.inl rfl))
        · rintro ⟨hcolumn, hvalue⟩
          exact absurd hvalue (hother _ hcolumn (.inr rfl))

/-- The rows that are created or updated are in the table then. -/
theorem mem_of_does {tick : Nat} {write : Write} {rows : List Row}
    (h : write.Does env scope model tick w.store.tables rows w'.store.tables)
    (hwrite : write.eventType = .created ∨ write.eventType = .updated) {row : Row} (hrow : row ∈ rows) :
    row ∈ (w'.store.tables (tableName env.casing model)).rows := by
  have happended (happends : Client.Appends env.pg (tableName env.casing model) w.store.tables w'.store.tables rows) :
      row ∈ (w'.store.tables (tableName env.casing model)).rows := by
    rw [happends.2.1, Function.update_self]
    exact List.mem_append_right _ hrow
  unfold Write.Does at h
  cases write with
  | create data =>
    obtain ⟨values, -, -, happends⟩ := h
    exact happended happends
  | createMany data => exact happended h
  | updateMany clauses data =>
    obtain ⟨sets, -, rfl, htables, -⟩ := h
    obtain ⟨before, hbefore, rfl⟩ := List.mem_map.1 hrow
    rw [List.mem_filter] at hbefore
    rw [htables, Function.update_self]
    exact List.mem_map.2 ⟨before, hbefore.1, if_pos hbefore.2⟩
  | deleteMany | restoreMany | hardDeleteMany => simp [Write.eventType] at hwrite

/-- The event of a row that is created or updated carries all of its columns. -/
theorem payload_record {write : Write} (hwrite : write.eventType = .created ∨ write.eventType = .updated)
    (tables : Db.Tables) (row : Row) :
    write.payload (write.record env model tables row) =
      rowToMap env.pg (tables (tableName env.casing model)).columnNames row := by
  cases write with
  | create | createMany | updateMany => rfl
  | deleteMany | restoreMany | hardDeleteMany => simp [Write.eventType] at hwrite

/-- In the event of a row that is created or updated a binding sees the row as far as the fields that it names are
spelled as they are stored. -/
theorem sees_iff {write : Write} {reply : Client.Reply}
    (hrun : write.run env scope modelName actor w = .ok reply w') (hmodel : env.schema.model? modelName = some model)
    (hwrite : write.eventType = .created ∨ write.eventType = .updated) :
    EachRow env model w w' fun row ev =>
      ∀ binding, Sees env (w.store.tables (tableName env.casing model)) row ev binding ↔
        NamedAsStored env (w.store.tables (tableName env.casing model)) row binding := by
  rcases (Write.run_ends env scope modelName actor write w).ok hrun with hdone | ⟨-, -, rfl⟩
  · obtain ⟨model', handed, tick, rows, events, now, hmodel', hhanded, hdoes, hevents, -, -, hsent⟩ := hdone.effects
    obtain rfl : model' = model := Option.some.inj (hmodel'.symm.trans hmodel)
    have htype := hhanded.eventType.1
    rw [← htype] at hwrite
    refine ⟨rows, events, hsent, fun row hrow => mem_of_does hdoes hwrite hrow, ?_⟩
    rw [htype] at hwrite
    have heach : List.Forall₂ (· = ·)
        (rows.map fun row => (write.eventType, modelName, write.payload (write.record env model' w.store.tables row)))
        (events.map fun ev => (ev.eventType, ev.modelName, ev.data)) := by
      rw [List.forall₂_eq_eq_eq]
      exact hevents.symm
    rw [List.forall₂_map_left_iff, List.forall₂_map_right_iff] at heach
    refine heach.imp fun row ev heq => ?_
    have hdata := (congrArg (fun entry => entry.2.2) heq).symm
    dsimp only at hdata
    rw [payload_record hwrite] at hdata
    exact ⟨hdata, fun binding => sees_row_iff hdata⟩
  · exact ⟨[], [], by simp, fun row hrow => absurd hrow List.not_mem_nil, .nil⟩

theorem sees_lead : ∃ reply w',
    (Write.updateMany [] [("email", .string "new@lead")]).run (.bare leadSchema) {} "Lead" none leadWorld =
      .ok reply w' ∧
    EachRow (.bare leadSchema) leadModel leadWorld w' fun row ev =>
      ∀ binding, Sees (.bare leadSchema) (leadWorld.store.tables (tableName .ascii leadModel)) row ev binding ↔
        NamedAsStored (.bare leadSchema) (leadWorld.store.tables (tableName .ascii leadModel)) row binding := by
  obtain ⟨records, w', hrun, -⟩ := lead_run
  have hwrite : (Write.updateMany [] [("email", .string "new@lead")]).run (.bare leadSchema) {} "Lead" none leadWorld =
      .ok (.records records) w' := bind_of_ok hrun
  exact ⟨_, w', hwrite, sees_iff hwrite rfl (.inr rfl)⟩

/-- The action that scores a lead does not get its company. -/
theorem company_unseen :
    ¬∀ (write : Write) (reply : Client.Reply) (w' : World),
      write.run (.bare leadSchema) {} "Lead" none leadWorld = .ok reply w' →
      write.eventType = .created ∨ write.eventType = .updated →
      EachRow (.bare leadSchema) leadModel leadWorld w' fun row ev =>
        ∀ binding ∈ leadModel.events.created ++ leadModel.events.updated,
          Sees (.bare leadSchema) (leadWorld.store.tables (tableName .ascii leadModel)) row ev binding := by
  intro h
  obtain ⟨records, w', hrun, hlength, hrows⟩ := lead_run
  obtain ⟨rows, events, hsent, hmem, heach⟩ :=
    h (.updateMany [] [("email", .string "new@lead")]) _ w' (bind_of_ok hrun) (.inr rfl)
  cases heach with
  | nil =>
    rw [hsent] at hlength
    cases hlength
  | @cons row ev rows events hfirst hrest =>
    obtain ⟨hdata, hsees⟩ := hfirst
    have hrow : row = leadRow "new@lead" := by
      have hname : tableName (Env.bare leadSchema).casing leadModel = "leads" := by decide
      have hin := hmem row List.mem_cons_self
      rw [hname, hrows] at hin
      exact List.mem_singleton.1 hin
    have hscore : { action := "scoreLead", condition := some (.changedAny ["companyId"]) } ∈
        leadModel.events.created ++ leadModel.events.updated := by
      simp [leadModel]
    have hnamed := (sees_row_iff hdata).1 (hsees _ hscore)
    have hspelled := hnamed.input _ _ _ rfl rfl "companyId" (by simp) (by decide)
    rcases hspelled with hsame | ⟨hcolumn, -, -⟩
    · exact absurd hsame (by decide)
    · exact absurd hcolumn (by decide)

end Atomo.Actions

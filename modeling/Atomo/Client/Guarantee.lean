import Atomo.Client.Atomicity

/-!
# The guarantee of a write

The six writes as one type, with the statements that each of them consists of and the events that it
records. Whatever fails, a write is all or nothing (`Write.atomic`).
-/

namespace Atomo.Client

open Schema (Model)
open Query (Statement WhereClause)

variable (env : Env) (scope : Scope)

inductive Write where
  | create (data : Record)
  | createMany (records : List Record)
  | updateMany (clauses : List WhereClause) (data : Record)
  | deleteMany (clauses : List WhereClause)
  | restoreMany (clauses : List WhereClause)
  | hardDeleteMany (clauses : List WhereClause)

/-- What a write returns. -/
inductive Reply where
  | record (record : Record)
  | records (records : List Record)
  | count (n : Nat)

namespace Write

/-- A write on a model, called by an actor. -/
def run (modelName : String) (actor : Option String) : Write → Program Reply
  | create data => do return .record (← Client.create env scope modelName data actor)
  | createMany records => do return .records (← Client.createMany env scope modelName records actor)
  | updateMany clauses data => do return .records (← Client.updateMany env scope modelName clauses data actor)
  | deleteMany clauses => do return .count (← Client.deleteMany env scope modelName clauses actor)
  | restoreMany clauses => do return .count (← Client.restoreMany env scope modelName clauses actor)
  | hardDeleteMany clauses => do return .count (← Client.hardDeleteMany env scope modelName clauses actor)

def eventType : Write → EventType
  | create _ | createMany _ => .created
  | updateMany _ _ => .updated
  | deleteMany _ => .deleted
  | restoreMany _ => .restored
  | hardDeleteMany _ => .hardDeleted

/-- The data of the event of a returned row. -/
def payload : Write → Record → Record
  | deleteMany _ | hardDeleteMany _ => idOnly
  | _ => id

/-- What is returned for the rows that the statements return. -/
def replies : Write → List Record → Reply → Prop
  | create _, records, reply => ∃ record, records = [record] ∧ reply = .record record
  | createMany _, records, reply | updateMany _ _, records, reply => reply = .records records
  | _, records, reply => reply = .count records.length

/-- The statements that insert a batch. -/
def batch (model : Model) (records : List Record) : List (Statement × List Json) :=
  match Query.SqlBuilder.insertMany env.casing model records with
  | some built => [built]
  | none => records.map (Query.SqlBuilder.insert env.casing model)

/-- The statements that the write consists of. -/
def Builds (modelName : String) (model : Model) : Write → List (Statement × List Json) → Prop
  | create data, built => ∃ data', Handed env "create" modelName data data' ∧
      built = [Query.SqlBuilder.insert env.casing model data']
  | createMany records, built => ∃ prepared, List.Forall₂ (Handed env "create" modelName) records prepared ∧
      built = batch env model prepared
  | updateMany clauses data, built => ∃ data', Handed env "update" modelName data data' ∧
      built = [Query.SqlBuilder.update env.casing model clauses data']
  | deleteMany clauses, built => built = [Query.SqlBuilder.softDelete env.casing model clauses]
  | restoreMany clauses, built => built = [Query.SqlBuilder.restore env.casing model clauses]
  | hardDeleteMany clauses, built => built = [Query.SqlBuilder.delete env.casing model clauses]

/-- The write was committed: all of its statements, with what they return and the events of that. -/
def Done (modelName : String) (actor : Option String) (write : Write) (w : World) (reply : Reply) (w' : World) :
    Prop :=
  ∃ model built records events, env.schema.model? modelName = some model ∧
    write.Builds env modelName model built ∧ write.replies records reply ∧
    Committed env scope modelName write.eventType write.payload actor built w records events w'

/-- A batch of nothing is no write at all. -/
def Nothing (write : Write) (w : World) (reply : Reply) (w' : World) : Prop :=
  write = createMany [] ∧ reply = .records [] ∧ w' = w

theorem insertAll_ends (model : Model) (records : List Record) (tx : Tx) :
    Ends (insertAll env model records) tx (fun out tx' => tx.Executes env (batch env model records) out tx')
      (Failed tx) := by
  cases h : Query.SqlBuilder.insertMany env.casing model records with
  | some built =>
    simp only [insertAll, batch, h]
    exact execute_ends env built tx
  | none =>
    simp only [insertAll, batch, h]
    exact insertEach_ends env model records tx

theorem create_ends (modelName : String) (data : Record) (actor : Option String) (w : World) :
    Ends (Client.create env scope modelName data actor) w
      (fun record w' => Done env scope modelName actor (.create data) w (.record record) w') (Undone w) := by
  refine (findModel_ends env modelName w).bind ?_
  rintro model _ ⟨hmodel, rfl⟩
  refine (runBefore_ends env "create" modelName data _).bind ?_
  rintro data' w' ⟨hhanded, hhook⟩
  refine hhook.after ((checkRules_ends model _ w').bind ?_)
  rintro _ w1 rfl
  refine (createOne_ends env scope model data' actor w1).bind ?_
  rintro ⟨record, event⟩ w2 ⟨n, tables, tick, hle, hlt, hevent, hexecuted, hstore, htrace⟩
  refine (perform_ends (.invalidate modelName) w2).bind ?_
  rintro _ _ rfl
  refine (perform_ends (.send event) _).bind ?_
  rintro _ _ rfl
  refine (perform_ends (.afterHook "after_create") _).bind ?_
  rintro _ _ rfl
  refine Ends.pure ⟨model, _, [record], [event], hmodel, ⟨data', hhanded, rfl⟩, ⟨record, rfl, rfl⟩, ?_⟩
  have hcommitted : Committed env scope modelName .created id actor
      [Query.SqlBuilder.insert env.casing model data'] w1 [record] [event]
      { w2 with trace := w2.trace ++ [.invalidate modelName] ++ [.send event] ++ [.afterHook "after_create"] } := by
    refine ⟨⟨tick, hle, hlt, hevent⟩, ⟨tables, _, hexecuted, hstore⟩, n, [.afterHook "after_create"], ?_, ?_⟩
    · simp only [htrace, List.append_assoc, List.map_cons, List.map_nil, List.cons_append, List.nil_append]
    · exact fun act hact => ⟨_, List.mem_singleton.1 hact⟩
  exact hcommitted.of_untouched env scope hhook

theorem createMany_ends (modelName : String) (records : List Record) (actor : Option String) (w : World) :
    Ends (Client.createMany env scope modelName records actor) w
      (fun out w' => Done env scope modelName actor (.createMany records) w (.records out) w' ∨
        Nothing (.createMany records) w (.records out) w') (Undone w) := by
  refine (findModel_ends env modelName w).bind ?_
  rintro model _ ⟨hmodel, rfl⟩
  cases records with
  | nil => exact Ends.pure (.inr ⟨rfl, rfl, rfl⟩)
  | cons data records =>
    refine (prepare_ends env modelName model (data :: records) _).bind ?_
    rintro prepared w' ⟨hprepared, hhook⟩
    refine hhook.after ((writeMany_ends env scope (insertAll_ends env model prepared)).bind ?_)
    rintro out w2 ⟨events, hcommitted⟩
    refine (forM_perform_ends (fun _ => .afterHook "after_create") out w2).bind ?_
    rintro _ _ rfl
    refine Ends.pure (.inl ⟨model, _, out, events, hmodel, ⟨prepared, hprepared, rfl⟩, rfl, ?_⟩)
    exact (hcommitted.of_untouched env scope hhook).afterHooks env scope (by simp)

theorem updateMany_ends (modelName : String) (clauses : List WhereClause) (data : Record) (actor : Option String)
    (w : World) :
    Ends (Client.updateMany env scope modelName clauses data actor) w
      (fun out w' => Done env scope modelName actor (.updateMany clauses data) w (.records out) w')
      (Undone w) := by
  refine (check_ends _ w).bind ?_
  rintro _ _ rfl
  refine (findModel_ends env modelName _).bind ?_
  rintro model w ⟨hmodel, rfl⟩
  refine (runBefore_ends env "update" modelName data _).bind ?_
  rintro data' w' ⟨hhanded, hhook⟩
  refine hhook.after ((checkRules_ends model _ w').bind ?_)
  rintro _ w1 rfl
  refine (writeMany_ends env scope (execute_ends env _)).bind ?_
  rintro out w2 ⟨events, hcommitted⟩
  refine (perform_ends (.afterHook "after_update") w2).bind ?_
  rintro _ _ rfl
  refine Ends.pure ⟨model, _, out, events, hmodel, ⟨data', hhanded, rfl⟩, rfl, ?_⟩
  exact (hcommitted.of_untouched env scope hhook).afterHooks env scope (by simp)

theorem deleteMany_ends (modelName : String) (clauses : List WhereClause) (actor : Option String) (w : World) :
    Ends (Client.deleteMany env scope modelName clauses actor) w
      (fun n w' => Done env scope modelName actor (.deleteMany clauses) w (.count n) w') (Undone w) := by
  refine (check_ends _ w).bind ?_
  rintro _ _ rfl
  refine (findModel_ends env modelName _).bind ?_
  rintro model w ⟨hmodel, rfl⟩
  refine (runBefore_ends env "delete" modelName [] _).bind ?_
  rintro _ w' ⟨-, hhook⟩
  refine hhook.after ((writeMany_ends env scope (execute_ends env _)).bind ?_)
  rintro out w2 ⟨events, hcommitted⟩
  refine (perform_ends (.afterHook "after_delete") w2).bind ?_
  rintro _ _ rfl
  refine Ends.pure ⟨model, _, out, events, hmodel, rfl, rfl, ?_⟩
  exact (hcommitted.of_untouched env scope hhook).afterHooks env scope (by simp)

/-- The course of the writes without hooks. -/
theorem hookless_ends {modelName : String} {clauses : List WhereClause} {type : EventType}
    {payload : Record → Record} {actor : Option String} {build : Model → Statement × List Json} {w : World}
    {Q : Nat → World → Prop}
    (hQ : ∀ model records events w', env.schema.model? modelName = some model →
      Committed env scope modelName type payload actor [build model] w records events w' → Q records.length w') :
    Ends (do
      check (Query.validateWhereClauses clauses)
      let model ← findModel env modelName
      let records ← writeMany env scope modelName type (execute env (build model)) payload actor
      return records.length) w Q (Undone w) := by
  refine (check_ends _ w).bind ?_
  rintro _ _ rfl
  refine (findModel_ends env modelName _).bind ?_
  rintro model w ⟨hmodel, rfl⟩
  refine (writeMany_ends env scope (execute_ends env _)).bind ?_
  rintro out w2 ⟨events, hcommitted⟩
  exact Ends.pure (hQ model out events w2 hmodel hcommitted)

theorem restoreMany_ends (modelName : String) (clauses : List WhereClause) (actor : Option String) (w : World) :
    Ends (Client.restoreMany env scope modelName clauses actor) w
      (fun n w' => Done env scope modelName actor (.restoreMany clauses) w (.count n) w') (Undone w) :=
  hookless_ends env scope fun model _ events _ hmodel hcommitted =>
    ⟨model, _, _, events, hmodel, rfl, rfl, hcommitted⟩

theorem hardDeleteMany_ends (modelName : String) (clauses : List WhereClause) (actor : Option String) (w : World) :
    Ends (Client.hardDeleteMany env scope modelName clauses actor) w
      (fun n w' => Done env scope modelName actor (.hardDeleteMany clauses) w (.count n) w') (Undone w) :=
  hookless_ends env scope fun model _ events _ hmodel hcommitted =>
    ⟨model, _, _, events, hmodel, rfl, rfl, hcommitted⟩

/-- A write is done, is no write at all, or is undone. -/
theorem run_ends (modelName : String) (actor : Option String) (write : Write) (w : World) :
    Ends (write.run env scope modelName actor) w
      (fun reply w' => Done env scope modelName actor write w reply w' ∨ Nothing write w reply w') (Undone w) := by
  cases write with
  | create data =>
    exact (create_ends env scope modelName data actor w).bind fun _ _ h => Ends.pure (.inl h)
  | createMany records =>
    exact (createMany_ends env scope modelName records actor w).bind fun _ _ h => Ends.pure h
  | updateMany clauses data =>
    exact (updateMany_ends env scope modelName clauses data actor w).bind fun _ _ h => Ends.pure (.inl h)
  | deleteMany clauses =>
    exact (deleteMany_ends env scope modelName clauses actor w).bind fun _ _ h => Ends.pure (.inl h)
  | restoreMany clauses =>
    exact (restoreMany_ends env scope modelName clauses actor w).bind fun _ _ h => Ends.pure (.inl h)
  | hardDeleteMany clauses =>
    exact (hardDeleteMany_ends env scope modelName clauses actor w).bind fun _ _ h => Ends.pure (.inl h)

/-! ## The checked writes -/

theorem enforceAccess_ends (modelName action : String) (role : Option String) (w : World) :
    Ends (enforceAccess env modelName action role) w (fun _ w' => w' = w) (Undone w) := by
  unfold enforceAccess
  split
  · exact Ends.pure rfl
  · split
    · exact Ends.pure rfl
    · exact Ends.throw (.refl w _)
    · exact Ends.throw (.refl w _)

theorem createChecked_ends (role : Option String) (modelName : String) (data : Record) (actor : Option String)
    (w : World) :
    Ends (createChecked env scope role modelName data actor) w
      (fun record w' => Done env scope modelName actor (.create data) w (.record record) w') (Undone w) := by
  refine (enforceAccess_ends env modelName "create" role w).bind ?_
  rintro _ _ rfl
  exact create_ends env scope modelName data actor _

theorem updateManyChecked_ends (role : Option String) (modelName : String) (clauses : List WhereClause)
    (data : Record) (actor : Option String) (w : World) :
    Ends (updateManyChecked env scope role modelName clauses data actor) w
      (fun out w' => Done env scope modelName actor (.updateMany clauses data) w (.records out) w')
      (Undone w) := by
  refine (check_ends _ w).bind ?_
  rintro _ _ rfl
  refine (enforceAccess_ends env modelName "update" role _).bind ?_
  rintro _ _ rfl
  exact updateMany_ends env scope modelName clauses data actor _

theorem deleteManyChecked_ends (role : Option String) (modelName : String) (clauses : List WhereClause)
    (actor : Option String) (w : World) :
    Ends (deleteManyChecked env scope role modelName clauses actor) w
      (fun n w' => Done env scope modelName actor (.deleteMany clauses) w (.count n) w') (Undone w) := by
  refine (check_ends _ w).bind ?_
  rintro _ _ rfl
  refine (enforceAccess_ends env modelName "delete" role _).bind ?_
  rintro _ _ rfl
  exact deleteMany_ends env scope modelName clauses actor _

/-! ## The guarantee -/

/-- Ids drawn from now on are new, and each is drawn once. -/
structure FreshIds (w : World) : Prop where
  distinct : ∀ i j, w.tick ≤ i → w.tick ≤ j → env.uuid i = env.uuid j → i = j
  unused : ∀ i, w.tick ≤ i → ∀ entry ∈ w.store.eventLog, entry.eventId ≠ env.uuid i

/-- The events are recorded beside the changed tables: each is stored once, or the gap of the model is
marked. -/
structure Recorded (model : String) (now : Int) (events : List StampedEvent) (w w' : World) : Prop where
  stored : (env.history.policy model).mode ≠ .off →
    w'.store.eventLog = w.store.eventLog ++ events.map (StampedEvent.entry now) ∧
      w'.store.coverage = w.store.coverage
  skipped : (env.history.policy model).mode = .off →
    w'.store.eventLog = w.store.eventLog ∧
      w'.store.coverage = if events.isEmpty then w.store.coverage
        else Function.update w.store.coverage model (some (Store.gapped now (w.store.coverage model)))

/-- All of a write: the statements are executed on the tables, the rows that they return have an event each,
in order, these are recorded, and after the one commit the cache is invalidated and the events are sent,
each once. -/
def Whole (modelName : String) (write : Write) (w : World) (reply : Reply) (w' : World) : Prop :=
  ∃ model built records events now n hooks, env.schema.model? modelName = some model ∧
    write.Builds env modelName model built ∧ write.replies records reply ∧
    Executed env.pg (boundTenant env scope) w.store.tables built w'.store.tables records ∧
    events.map (fun event => (event.eventType, event.modelName, event.data)) =
      records.map (fun record => (write.eventType, modelName, write.payload record)) ∧
    Recorded env modelName now events w w' ∧
    w'.trace = w.trace ++ [.begin] ++ List.replicate n .statement ++ [.commit, .invalidate modelName] ++
      events.map .send ++ hooks ∧ ∀ act ∈ hooks, ∃ name, act = .afterHook name

theorem recorded_tables (config : HistoryConfig) (model : String) (now : Int) (events : List StampedEvent)
    (store : Store) : (recorded config model now events store).tables = store.tables := by
  unfold recorded
  split
  · split <;> rfl
  · exact store.logEntries_tables _

/-- The statements of a committed write are executed on the tables. -/
theorem Done.executed {modelName : String} {actor : Option String} {write : Write} {w w' : World} {reply : Reply}
    (h : Done env scope modelName actor write w reply w') :
    ∃ model built records, env.schema.model? modelName = some model ∧ write.Builds env modelName model built ∧
      write.replies records reply ∧ Executed env.pg (boundTenant env scope) w.store.tables built w'.store.tables records := by
  obtain ⟨model, built, records, events, hmodel, hbuilds, hreplies, -, ⟨tables, now, hexecuted, hstore⟩, -⟩ := h
  refine ⟨model, built, records, hmodel, hbuilds, hreplies, ?_⟩
  rw [hstore, recorded_tables]
  exact hexecuted

/-- Events that are stamped with fresh ids are all recorded. -/
theorem recorded_stamped {modelName : String} {type : EventType} {actor : Option String} {tick : Nat}
    {data : List Record} {now : Int} {tables : Db.Tables} {w w' : World} (hfresh : FreshIds env w)
    (hle : w.tick ≤ tick)
    (hstore : w'.store = recorded env.history modelName now (stamped env scope type modelName actor tick data)
      { w.store with tables }) :
    Recorded env modelName now (stamped env scope type modelName actor tick data) w w' := by
  constructor
  · intro hmode
    have hids : ((stamped env scope type modelName actor tick data).map (StampedEvent.entry now)).map (·.eventId) =
        (List.range' tick data.length).map env.uuid := by
      rw [← stamped_ids env scope type modelName actor, List.map_map]
      rfl
    rw [hstore, recorded, if_neg hmode]
    refine ⟨Store.logEntries_eventLog ?_ ?_, Store.logEntries_coverage _ _⟩
    · rw [hids]
      refine List.Nodup.map_on (fun i hi j hj heq => ?_) List.nodup_range'
      exact hfresh.distinct i j (Nat.le_trans hle (List.left_le_of_mem_range' hi))
        (Nat.le_trans hle (List.left_le_of_mem_range' hj)) heq
    · intro entry hentry stored hstored heq
      have hid : entry.eventId ∈ (List.range' tick data.length).map env.uuid := by
        rw [← hids]
        exact List.mem_map_of_mem hentry
      obtain ⟨i, hi, hentryId⟩ := List.mem_map.1 hid
      exact hfresh.unused i (Nat.le_trans hle (List.left_le_of_mem_range' hi)) stored hstored
        (heq.trans hentryId.symm)
  · intro hmode
    rw [hstore, recorded, if_pos hmode]
    split
    · exact ⟨rfl, rfl⟩
    · exact ⟨rfl, rfl⟩

theorem Done.whole {modelName : String} {actor : Option String} {write : Write} {w w' : World} {reply : Reply}
    (hfresh : FreshIds env w) (h : Done env scope modelName actor write w reply w') :
    Whole env scope modelName write w reply w' := by
  obtain ⟨model, built, records, events, hmodel, hbuilds, hreplies, ⟨tick, hle, -, rfl⟩,
    ⟨tables, now, hexecuted, hstore⟩, n, hooks, htrace, hhooks⟩ := h
  have htables : w'.store.tables = tables := by rw [hstore, recorded_tables]
  refine ⟨model, built, records, _, now, n, hooks, hmodel, hbuilds, hreplies, ?_, ?_,
    recorded_stamped env scope hfresh hle hstore, htrace, hhooks⟩
  · rw [htables]
    exact hexecuted
  · rw [stamped_data, List.map_map]
    rfl

/-- A write is all or nothing: when it succeeds everything is committed together and announced after that;
when it fails the store is as it was and nothing was announced. -/
theorem atomic (modelName : String) (actor : Option String) (write : Write) (w : World)
    (hfresh : FreshIds env w) :
    Ends (write.run env scope modelName actor) w
      (fun reply w' => Whole env scope modelName write w reply w' ∨ Nothing write w reply w') (Undone w) :=
  (run_ends env scope modelName actor write w).mono
    (fun _ _ h => h.imp (fun hdone => hdone.whole env scope hfresh) id) fun _ _ h => h

theorem atomic_two_notes :
    FreshIds (.bare noteSchema) (noteWorld []) ∧
    Ends ((createMany [[("title", .string "a")], [("title", .string "b")]]).run (.bare noteSchema) {} "Note" none)
      (noteWorld [])
      (fun reply w' =>
        Whole (.bare noteSchema) {} "Note" (createMany [[("title", .string "a")], [("title", .string "b")]])
          (noteWorld []) reply w' ∨
        Nothing (createMany [[("title", .string "a")], [("title", .string "b")]]) (noteWorld []) reply w')
      (Undone (noteWorld [])) := by
  have hfresh : FreshIds (.bare noteSchema) (noteWorld []) :=
    ⟨fun _ _ _ _ h => Db.ticket_injective h, fun _ _ _ h => absurd h List.not_mem_nil⟩
  constructor
  · exact hfresh
  · apply atomic
    exact hfresh

/-- Two records created at once are sent as two events, but the cache is invalidated once. -/
theorem invalidated_once : ∃ reply w',
    (createMany [[("title", .string "a")], [("title", .string "b")]]).run (.bare noteSchema) {} "Note" none
      (noteWorld []) = .ok reply w' ∧
    (w'.trace.filter Act.isSend).length = 2 ∧ w'.trace.count (.invalidate "Note") = 1 := by
  have hends : endsOk
      ((createMany [[("title", .string "a")], [("title", .string "b")]]).run (.bare noteSchema) {} "Note" none)
      (noteWorld []) (fun _ w' => (w'.trace.filter Act.isSend).length = 2 && w'.trace.count (.invalidate "Note") = 1) =
        true := by
    decide +kernel
  obtain ⟨reply, w', hrun, htest⟩ := exists_of_endsOk hends
  exact ⟨reply, w', hrun, by simpa using htest⟩

end Write

end Atomo.Client

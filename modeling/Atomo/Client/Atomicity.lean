import Atomo.Client.Writes

/-!
# Writes are atomic

A write ends in one of two ways. Either every statement of it is executed, each row that they return has
its event, and all of it is committed at once, the announcements coming after; or it fails and the store is
as it was.
-/

namespace Atomo.Client

open Schema (Model lookup?)
open Query (Statement WhereClause)
open Db (Tables)

variable (env : Env) (scope : Scope)

/-! ## What a transaction does on its way -/

/-- Statements were sent, and time passed. -/
structure Tx.Ran (tx tx' : Tx) : Prop where
  now : tx'.now = tx.now
  tick : tx.tick ≤ tx'.tick
  trace : ∃ n, tx'.trace = tx.trace ++ List.replicate n .statement

theorem Tx.Ran.refl (tx : Tx) : tx.Ran tx :=
  ⟨rfl, Nat.le_refl _, 0, (List.append_nil _).symm⟩

theorem Tx.Ran.trans {tx tx' tx'' : Tx} (h : tx.Ran tx') (h' : tx'.Ran tx'') : tx.Ran tx'' := by
  obtain ⟨n, hn⟩ := h.trace
  obtain ⟨m, hm⟩ := h'.trace
  refine ⟨h'.now.trans h.now, Nat.le_trans h.tick h'.tick, n + m, ?_⟩
  rw [hm, hn, List.append_assoc, List.replicate_add]

/-- A failing body has sent statements only. -/
def Failed (tx : Tx) (_ : Error) (tx' : Tx) : Prop :=
  tx.Ran tx'

theorem Failed.mono {tx tx' : Tx} (h : tx.Ran tx') {α : Type} {x : TxProgram α} {Q : α → Tx → Prop}
    (hx : Ends x tx' Q (Failed tx')) : Ends x tx' Q (Failed tx) :=
  hx.mono (fun _ _ hq => hq) fun _ _ hfailed => h.trans hfailed

theorem statement_ends {α : Type} {effect : Nat → Tx → Option (α × Tx)} {tx : Tx} {Q : α → Tx → Prop}
    (hQ : ∀ a tx', effect tx.tick { tx with tick := tx.tick + 1, trace := tx.trace ++ [.statement] } =
      some (a, tx') → Q a tx') : Ends (statement env effect) tx Q (Failed tx) := by
  have hran : tx.Ran { tx with tick := tx.tick + 1, trace := tx.trace ++ [.statement] } :=
    ⟨rfl, Nat.le_succ _, 1, rfl⟩
  apply Ends.of_result
  unfold statement
  by_cases hfails : env.fails tx.tick = true
  · simp only [hfails, if_true]
    exact hran
  · simp only [hfails]
    cases heffect : effect tx.tick { tx with tick := tx.tick + 1, trace := tx.trace ++ [.statement] } with
    | none => exact hran
    | some done => exact hQ done.1 done.2 heffect

/-- The working copy is that of `work`, by statements. -/
structure Tx.Works (tx : Tx) (work : Store) (tx' : Tx) : Prop extends tx.Ran tx' where
  work : tx'.work = work

/-- The tenant that the statements of a request are bound to. -/
def boundTenant : Option String :=
  match env.rlsEnabled, scope.tenant with
  | true, some tenant => some tenant
  | _, _ => none

theorem boundTenant_some {tenant : String} (hrls : env.rlsEnabled = true) (hscope : scope.tenant = some tenant) :
    boundTenant env scope = some tenant := by
  unfold boundTenant
  rw [hrls, hscope]

theorem boundTenant_none (h : ∀ tenant, env.rlsEnabled = true → scope.tenant = some tenant → False) :
    boundTenant env scope = none := by
  unfold boundTenant
  split
  · rename_i tenant hrls hscope
    exact (h tenant hrls hscope).elim
  · rfl

/-- Nothing is changed, and a tenant is bound. -/
structure Tx.Binds (tx : Tx) (tenant : Option String) (tx' : Tx) : Prop extends tx.Works tx.work tx' where
  tenant : tx'.tenant = tenant

theorem lockShared_ends (tx : Tx) :
    Ends (lockShared env) tx (fun _ tx' => tx.Binds tx.tenant tx') (Failed tx) := by
  refine statement_ends env fun a tx' h => ?_
  cases h
  exact ⟨⟨⟨rfl, Nat.le_succ _, 1, rfl⟩, rfl⟩, rfl⟩

theorem bindTenantLocal_ends (tenant : String) (tx : Tx) :
    Ends (bindTenantLocal env tenant) tx (fun _ tx' => tx.Binds (some tenant) tx') (Failed tx) := by
  refine statement_ends env fun a tx' h => ?_
  cases h
  exact ⟨⟨⟨rfl, Nat.le_succ _, 1, rfl⟩, rfl⟩, rfl⟩

theorem openWrite_ends {tx : Tx} (htenant : tx.tenant = none) :
    Ends (openWrite env scope) tx (fun _ tx' => tx.Binds (boundTenant env scope) tx') (Failed tx) := by
  refine (lockShared_ends env tx).bind fun _ tx' hlock => ?_
  split
  · rename_i tenant hrls hscope
    have hbound := boundTenant_some env scope hrls hscope
    refine Failed.mono hlock.toRan ((bindTenantLocal_ends env _ tx').mono ?_ fun _ _ h => h)
    exact fun _ tx'' h => ⟨⟨hlock.toRan.trans h.toRan, h.work.trans hlock.work⟩, h.tenant.trans hbound.symm⟩
  · rename_i hnone
    have hbound := boundTenant_none env scope hnone
    exact Ends.pure ⟨hlock.toWorks, hlock.tenant.trans (htenant.trans hbound.symm)⟩

/-! ## Statements on the tables -/

/-- The statements are executed for a tenant one after the other, with what they return. -/
inductive Executed (pg : Db.Postgres) (tenant : Option String) :
    Tables → List (Statement × List Json) → Tables → List Record → Prop
  | nil (tables : Tables) : Executed pg tenant tables [] tables []
  | cons {tick now tables tables' tables'' built rows rest records}
      (hrun : Db.run pg tick now tenant built.2 tables built.1 = some (tables', rows))
      (hrest : Executed pg tenant tables' rest tables'' records) :
      Executed pg tenant tables (built :: rest) tables''
        (rows.map (Db.rowToMap pg (built.1.returned tables)) ++ records)

/-- The tables of the working copy are those after the statements. -/
structure Tx.Executes (tx : Tx) (built : List (Statement × List Json)) (records : List Record) (tx' : Tx) : Prop
    extends tx.Ran tx' where
  tenant : tx'.tenant = tx.tenant
  work : ∃ tables, tx'.work = { tx.work with tables } ∧ Executed env.pg tx.tenant tx.work.tables built tables records

theorem execute_ends (built : Statement × List Json) (tx : Tx) :
    Ends (execute env built) tx (fun records tx' => tx.Executes env [built] records tx') (Failed tx) := by
  refine statement_ends env fun records tx' h => ?_
  obtain ⟨⟨tables, rows⟩, hrun, hdone⟩ := Option.map_eq_some_iff.1 h
  cases hdone
  refine ⟨⟨rfl, Nat.le_succ _, 1, rfl⟩, rfl, tables, rfl, ?_⟩
  have hexecuted := Executed.cons hrun (.nil tables)
  rwa [List.append_nil] at hexecuted

theorem Executed.append {pg : Db.Postgres} {tenant : Option String} {tables tables' tables'' : Tables}
    {built built' : List (Statement × List Json)} {records records' : List Record}
    (h : Executed pg tenant tables built tables' records)
    (h' : Executed pg tenant tables' built' tables'' records') :
    Executed pg tenant tables (built ++ built') tables'' (records ++ records') := by
  induction h with
  | nil => exact h'
  | cons hrun _ ih =>
    have hcons := Executed.cons hrun (ih h')
    rwa [List.append_assoc]

theorem Tx.Executes.append {tx tx' tx'' : Tx} {built built' : List (Statement × List Json)}
    {records records' : List Record} (h : tx.Executes env built records tx')
    (h' : tx'.Executes env built' records' tx'') :
    tx.Executes env (built ++ built') (records ++ records') tx'' := by
  obtain ⟨tables, hwork, hexecuted⟩ := h.work
  obtain ⟨tables', hwork', hexecuted'⟩ := h'.work
  refine ⟨h.toRan.trans h'.toRan, h'.tenant.trans h.tenant, tables', ?_, ?_⟩
  · rw [hwork', hwork]
  · rw [hwork, h.tenant] at hexecuted'
    exact hexecuted.append hexecuted'

/-- The insertion of one record returns one row. -/
theorem insertOne_ends (model : Model) (data : Record) (tx : Tx) :
    Ends (insertOne env model data) tx
      (fun record tx' => tx.Executes env [Query.SqlBuilder.insert env.casing model data] [record] tx')
      (Failed tx) := by
  refine (execute_ends env _ tx).bind fun rows tx' hrows => ?_
  have hlength : rows.length = 1 := by
    obtain ⟨tables, -, hexecuted⟩ := hrows.work
    cases hexecuted with
    | cons hrun hrest =>
      cases hrest
      rw [List.append_nil, List.length_map, (Db.run_insert env.pg hrun).1]
      rfl
  match rows, hlength, hrows with
  | [record], _, hrows => exact Ends.pure hrows

theorem insertEach_ends (model : Model) (records : List Record) (tx : Tx) :
    Ends (insertEach env model records) tx
      (fun out tx' => tx.Executes env (records.map (Query.SqlBuilder.insert env.casing model)) out tx')
      (Failed tx) := by
  induction records generalizing tx with
  | nil => exact Ends.pure ⟨.refl tx, rfl, tx.work.tables, rfl, .nil _⟩
  | cons data records ih =>
    refine (insertOne_ends env model data tx).bind fun record tx' hrecord => ?_
    refine Failed.mono hrecord.toRan ((ih tx').bind fun rest tx'' hrest => ?_)
    exact Ends.pure (hrecord.append env hrest)

/-! ## Events -/

/-- The events of some records, stamped one after the other from a tick on. -/
def stamped (type : EventType) (model : String) (actor : Option String) : Nat → List Record → List StampedEvent
  | _, [] => []
  | tick, data :: records =>
    { eventType := type, modelName := model, data, actor, origin := scope.origin
      eventId := env.uuid tick, timestamp := env.utcNow tick } :: stamped type model actor (tick + 1) records

theorem stampAll_eq (type : EventType) (model : String) (actor : Option String) (records : List Record) (tx : Tx) :
    stampAll env scope type model actor records tx =
      .ok (stamped env scope type model actor tx.tick records) { tx with tick := tx.tick + records.length } := by
  induction records generalizing tx with
  | nil => rfl
  | cons data records ih =>
    have hrest := ih { tx with tick := tx.tick + 1 }
    show EStateM.bind (stampAll env scope type model actor records) _ { tx with tick := tx.tick + 1 } = _
    rw [EStateM.bind, hrest]
    show EStateM.Result.ok _ _ = _
    rw [Nat.add_assoc, Nat.add_comm 1]
    rfl

theorem stamped_data (type : EventType) (model : String) (actor : Option String) (tick : Nat)
    (records : List Record) :
    (stamped env scope type model actor tick records).map (fun event => (event.eventType, event.modelName, event.data)) =
      records.map fun data => (type, model, data) := by
  induction records generalizing tick with
  | nil => rfl
  | cons data records ih => rw [stamped, List.map_cons, ih, List.map_cons]

theorem stamped_ids (type : EventType) (model : String) (actor : Option String) (tick : Nat)
    (records : List Record) :
    (stamped env scope type model actor tick records).map (·.eventId) =
      (List.range' tick records.length).map env.uuid := by
  induction records generalizing tick with
  | nil => rfl
  | cons data records ih => rw [stamped, List.map_cons, ih, List.length_cons, List.range'_succ, List.map_cons]

theorem stamped_model {type : EventType} {model : String} {actor : Option String} {tick : Nat}
    {records : List Record} {event : StampedEvent} (h : event ∈ stamped env scope type model actor tick records) :
    event.modelName = model := by
  have hdata := List.mem_map_of_mem (f := fun e : StampedEvent => (e.eventType, e.modelName, e.data)) h
  rw [stamped_data] at hdata
  obtain ⟨data, -, heq⟩ := List.mem_map.1 hdata
  exact (congrArg (fun p => p.2.1) heq).symm

/-! ## Recording -/

/-- The store with the events of a model recorded: stored, or their gap marked once. -/
def recorded (config : HistoryConfig) (model : String) (now : Int) (events : List StampedEvent) (store : Store) :
    Store :=
  if (config.policy model).mode = .off then
    if events.isEmpty then store else store.markGap model now
  else store.logEntries (events.map (StampedEvent.entry now))

theorem insertEvents_ends (events : List StampedEvent) (tx : Tx) :
    Ends (insertEvents env events) tx
      (fun _ tx' => tx.Works (tx.work.logEntries (events.map (StampedEvent.entry tx.now))) tx') (Failed tx) := by
  refine statement_ends env fun a tx' h => ?_
  cases h
  exact ⟨⟨rfl, Nat.le_succ _, 1, rfl⟩, rfl⟩

theorem persistIn_ends (event : StampedEvent) (tx : Tx) :
    Ends (persistIn env event) tx
      (fun _ tx' => tx.Works (recorded env.history event.modelName tx.now [event] tx.work) tx') (Failed tx) := by
  unfold persistIn recorded
  by_cases hoff : (env.history.policy event.modelName).mode = .off
  · simp only [hoff, if_true]
    refine statement_ends env fun a tx' h => ?_
    cases h
    exact ⟨⟨rfl, Nat.le_succ _, 1, rfl⟩, rfl⟩
  · simp only [hoff, if_false]
    exact insertEvents_ends env [event] tx

/-- The events of a model whose history is stored are left to be stored. -/
theorem skipUnstored_stored {model : String} (hmode : (env.history.policy model).mode ≠ .off)
    {events : List StampedEvent} (hmodel : ∀ event ∈ events, event.modelName = model) (skipped : List String)
    (tx : Tx) : skipUnstored env skipped events tx = .ok events tx := by
  induction events with
  | nil => rfl
  | cons event events ih =>
    have hevent := hmodel event List.mem_cons_self
    have hrest := ih fun e he => hmodel e (List.mem_cons_of_mem event he)
    rw [skipUnstored, hevent, if_neg hmode]
    show EStateM.bind (skipUnstored env skipped events) _ tx = _
    rw [EStateM.bind, hrest]
    rfl

/-- Those of a model whose history is off and whose gap is marked are passed over. -/
theorem skipUnstored_skipped {model : String} (hmode : (env.history.policy model).mode = .off)
    {events : List StampedEvent} (hmodel : ∀ event ∈ events, event.modelName = model) {skipped : List String}
    (hskipped : model ∈ skipped) (tx : Tx) : skipUnstored env skipped events tx = .ok [] tx := by
  induction events with
  | nil => rfl
  | cons event events ih =>
    rw [skipUnstored, hmodel event List.mem_cons_self, if_pos hmode, if_pos hskipped]
    exact ih fun e he => hmodel e (List.mem_cons_of_mem event he)

theorem flatten_chunks {size : Nat} (hsize : 0 < size) (fuel : Nat) (events : List StampedEvent)
    (hfuel : events.length ≤ fuel) : (chunks size fuel events).flatten = events := by
  induction fuel generalizing events with
  | zero => rw [List.length_eq_zero_iff.1 (Nat.le_zero.1 hfuel)]; rfl
  | succ fuel ih =>
    cases events with
    | nil => rfl
    | cons event events =>
      have hdrop : ((event :: events).drop size).length ≤ fuel := by
        rw [List.length_drop]
        omega
      rw [chunks]
      simp only [List.isEmpty_cons, Bool.false_eq_true, if_false, List.flatten_cons]
      rw [ih _ hdrop, List.take_append_drop]

theorem insertChunks_ends (parts : List (List StampedEvent)) (tx : Tx) :
    Ends (insertChunks env parts) tx
      (fun _ tx' => tx.Works (tx.work.logEntries (parts.flatten.map (StampedEvent.entry tx.now))) tx')
      (Failed tx) := by
  induction parts generalizing tx with
  | nil => exact Ends.pure ⟨.refl tx, rfl⟩
  | cons part parts ih =>
    refine (insertEvents_ends env part tx).bind fun _ tx' hpart => ?_
    refine Failed.mono hpart.toRan ((ih tx').mono (fun _ tx'' hrest => ?_) fun _ _ h => h)
    refine ⟨hpart.toRan.trans hrest.toRan, ?_⟩
    rw [hrest.work, hpart.work, hpart.now, List.flatten_cons, List.map_append, Store.logEntries_append]

/-- The gap of a model is marked with its first event. -/
theorem skipUnstored_off {model : String} (hmode : (env.history.policy model).mode = .off)
    {events : List StampedEvent} (hmodel : ∀ event ∈ events, event.modelName = model) (tx : Tx) :
    Ends (skipUnstored env [] events) tx
      (fun stored tx' => stored = [] ∧ tx.Works (recorded env.history model tx.now events tx.work) tx')
      (Failed tx) := by
  cases events with
  | nil =>
    refine Ends.pure ⟨rfl, .refl tx, ?_⟩
    rw [recorded, if_pos hmode]
    rfl
  | cons event events =>
    have hevent := hmodel event List.mem_cons_self
    rw [skipUnstored, hevent, if_pos hmode, if_neg List.not_mem_nil]
    refine (persistIn_ends env event tx).bind fun _ tx' hmark => ?_
    have hskipped := skipUnstored_skipped env hmode
      (fun e he => hmodel e (List.mem_cons_of_mem event he)) (List.mem_singleton_self model) tx'
    apply Ends.of_result
    rw [hskipped]
    refine ⟨rfl, hmark.toRan, ?_⟩
    rw [hmark.work, hevent, recorded, recorded, if_pos hmode, if_pos hmode]
    rfl

theorem persistManyIn_ends {model : String} {events : List StampedEvent}
    (hmodel : ∀ event ∈ events, event.modelName = model) (tx : Tx) :
    Ends (persistManyIn env events) tx
      (fun _ tx' => tx.Works (recorded env.history model tx.now events tx.work) tx') (Failed tx) := by
  refine (lockShared_ends env tx).bind fun _ tx' hlock => ?_
  by_cases hmode : (env.history.policy model).mode = .off
  · refine Failed.mono hlock.toRan ((skipUnstored_off env hmode hmodel tx').bind ?_)
    rintro stored tx'' ⟨rfl, hmarked⟩
    refine Ends.pure ⟨hlock.toRan.trans hmarked.toRan, ?_⟩
    rw [hmarked.work, hlock.work, hlock.now]
  · have hskip : Ends (skipUnstored env [] events) tx' (fun stored tx'' => stored = events ∧ tx'' = tx')
        (Failed tx) := by
      apply Ends.of_result
      rw [skipUnstored_stored env hmode hmodel]
      exact ⟨rfl, rfl⟩
    refine hskip.bind ?_
    rintro stored tx'' ⟨rfl, rfl⟩
    refine Failed.mono hlock.toRan ((insertChunks_ends env _ tx'').mono (fun _ tx3 h => ?_) fun _ _ h => h)
    rw [flatten_chunks (by omega) _ _ (Nat.le_refl _), hlock.work, hlock.now] at h
    refine ⟨hlock.toRan.trans h.toRan, ?_⟩
    rw [h.work, recorded, if_neg hmode]

/-! ## Transactions -/

/-- Nothing came of it: the store is as it was, and nothing was announced. -/
structure Undone (w : World) (_ : Error) (w' : World) : Prop where
  store : w'.store = w.store
  tick : w.tick ≤ w'.tick
  trace : ∃ acts, w'.trace = w.trace ++ acts ∧ ∀ act ∈ acts, act = .begin ∨ act = .statement ∨ act = .rollback

theorem Undone.refl (w : World) (e : Error) : Undone w e w :=
  ⟨rfl, Nat.le_refl _, [], (List.append_nil _).symm, fun _ h => absurd h List.not_mem_nil⟩

theorem Undone.trans {w w' w'' : World} {e e' : Error} (h : Undone w e w') (h' : Undone w' e' w'') :
    Undone w e' w'' := by
  obtain ⟨acts, hacts, hall⟩ := h.trace
  obtain ⟨acts', hacts', hall'⟩ := h'.trace
  refine ⟨h'.store.trans h.store, Nat.le_trans h.tick h'.tick, acts ++ acts', ?_, fun act hact => ?_⟩
  · rw [hacts', hacts, List.append_assoc]
  · exact (List.mem_append.1 hact).elim (hall act) (hall' act)

theorem undone_of_ran {w : World} {tx : Tx} (h : (w.begin env).Ran tx) (e : Error) {tick : Nat}
    (htick : tx.tick ≤ tick) : Undone w e { w with tick, trace := tx.trace ++ [.rollback] } := by
  obtain ⟨n, hn⟩ := h.trace
  refine ⟨rfl, Nat.le_trans (Nat.le_succ w.tick) (Nat.le_trans h.tick htick),
    [.begin] ++ List.replicate n .statement ++ [.rollback], ?_, fun act hact => ?_⟩
  · show tx.trace ++ [.rollback] = _
    rw [hn]
    simp only [World.begin, List.append_assoc]
  · simp only [List.mem_append, List.mem_singleton, List.mem_replicate] at hact
    rcases hact with (hact | ⟨-, hact⟩) | hact
    · exact .inl hact
    · exact .inr (.inl hact)
    · exact .inr (.inr hact)

/-- What a committed body has done is in place. -/
theorem transaction_ends {α : Type} {body : TxProgram α} {w : World} {Q : α → Tx → Prop}
    (hbody : Ends body (w.begin env) Q (Failed (w.begin env)))
    (hran : ∀ a tx, Q a tx → (w.begin env).Ran tx) :
    Ends (transaction env body) w
      (fun a w' => ∃ tx, Q a tx ∧
        w' = { store := tx.work, tick := tx.tick + 1, trace := tx.trace ++ [.commit] })
      (Undone w) := by
  apply Ends.of_result
  unfold transaction
  by_cases hbegin : env.fails w.tick = true
  · simp only [hbegin, if_true]
    exact ⟨rfl, Nat.le_succ _, [], (List.append_nil _).symm, fun _ h => absurd h List.not_mem_nil⟩
  · simp only [hbegin]
    cases hrun : body (w.begin env) with
    | error e tx => exact undone_of_ran env (hbody.error hrun) e (Nat.le_refl _)
    | ok a tx =>
      have hq := hbody.ok hrun
      by_cases hcommit : env.fails tx.tick = true
      · simp only [hcommit, if_true]
        exact undone_of_ran env (hran a tx hq) _ (Nat.le_succ _)
      · simp only [hcommit]
        exact ⟨tx, hq, rfl⟩

/-! ## Writes -/

theorem perform_ends (act : Act) (w : World) {E : Error → World → Prop} :
    Ends (perform act) w (fun _ w' => w' = { w with trace := w.trace ++ [act] }) E :=
  Ends.of_result rfl

theorem forM_perform_ends {α : Type} (act : α → Act) (xs : List α) (w : World) {E : Error → World → Prop} :
    Ends (xs.forM fun x => perform (act x)) w (fun _ w' => w' = { w with trace := w.trace ++ xs.map act }) E := by
  induction xs generalizing w with
  | nil =>
    refine Ends.pure ?_
    rw [List.map_nil, List.append_nil]
  | cons x xs ih =>
    refine (perform_ends (act x) w).bind ?_
    rintro _ _ rfl
    refine (ih { w with trace := w.trace ++ [act x] }).mono (fun _ w' h => ?_) fun _ _ h => h
    rw [h, List.map_cons, List.append_assoc, List.singleton_append]

/-- A committed write on a model: the statements are executed on the store, an event is recorded for each
row that they return, and the announcements come after the commit. -/
structure Committed (model : String) (type : EventType) (payload : Record → Record) (actor : Option String)
    (built : List (Statement × List Json)) (w : World) (records : List Record) (events : List StampedEvent)
    (w' : World) : Prop where
  stamped : ∃ tick, w.tick ≤ tick ∧ tick + records.length ≤ w'.tick ∧
    events = stamped env scope type model actor tick (records.map payload)
  store : ∃ tables now, Executed env.pg (boundTenant env scope) w.store.tables built tables records ∧
    w'.store = recorded env.history model now events { w.store with tables }
  trace : ∃ n hooks, w'.trace = w.trace ++ [.begin] ++ List.replicate n .statement ++ [.commit, .invalidate model] ++
    events.map .send ++ hooks ∧ ∀ act ∈ hooks, ∃ name, act = .afterHook name

theorem writeMany_ends {model : String} {type : EventType} {rows : TxProgram (List Record)}
    {payload : Record → Record} {actor : Option String} {w : World} {built : List (Statement × List Json)}
    (hrows : ∀ tx, Ends rows tx (fun records tx' => tx.Executes env built records tx') (Failed tx)) :
    Ends (writeMany env scope model type rows payload actor) w
      (fun records w' => ∃ events, Committed env scope model type payload actor built w records events w')
      (Undone w) := by
  have hbody : Ends (do
      openWrite env scope
      let records ← rows
      let events ← stampAll env scope type model actor (records.map payload)
      persistManyIn env events
      return (records, events)) (w.begin env)
      (fun done tx => (w.begin env).Ran tx ∧ ∃ tick tables, w.tick ≤ tick ∧
        tick + done.1.length ≤ tx.tick ∧ done.2 = stamped env scope type model actor tick (done.1.map payload) ∧
        Executed env.pg (boundTenant env scope) w.store.tables built tables done.1 ∧
        tx.work = recorded env.history model (env.pg.now w.tick) done.2 { w.store with tables })
      (Failed (w.begin env)) := by
    refine (openWrite_ends env scope rfl).bind fun _ tx hopen => ?_
    refine Failed.mono hopen.toRan ((hrows tx).bind fun records tx' hexecutes => ?_)
    have hran := hopen.toRan.trans hexecutes.toRan
    have hstamp : Ends (stampAll env scope type model actor (records.map payload)) tx'
        (fun events tx'' => events = stamped env scope type model actor tx'.tick (records.map payload) ∧
          tx'' = { tx' with tick := tx'.tick + records.length }) (Failed tx) := by
      apply Ends.of_result
      rw [stampAll_eq, List.length_map]
      exact ⟨rfl, rfl⟩
    refine hstamp.bind ?_
    rintro events tx'' ⟨rfl, rfl⟩
    have htick : tx'.Ran { tx' with tick := tx'.tick + records.length } :=
      ⟨rfl, Nat.le_add_right _ _, 0, (List.append_nil _).symm⟩
    have hmodel : ∀ event ∈ stamped env scope type model actor tx'.tick (records.map payload),
        event.modelName = model :=
      fun event => stamped_model env scope
    refine Failed.mono (hexecutes.toRan.trans htick) ((persistManyIn_ends env hmodel _).bind fun _ tx3 hpersist => ?_)
    obtain ⟨tables, hwork, hexecuted⟩ := hexecutes.work
    rw [hopen.work, hopen.tenant] at hexecuted
    rw [hopen.work] at hwork
    refine Ends.pure ⟨(hran.trans htick).trans hpersist.toRan, tx'.tick, tables, ?_, ?_, rfl, hexecuted, ?_⟩
    · exact Nat.le_trans (Nat.le_succ _) hran.tick
    · exact hpersist.toRan.tick
    · have hnow : tx'.now = env.pg.now w.tick := hran.now
      rw [hpersist.work]
      show recorded env.history model tx'.now _ tx'.work = _
      rw [hnow, hwork]
      rfl
  refine (transaction_ends env hbody fun _ tx h => h.1).bind ?_
  rintro ⟨records, events⟩ w' ⟨tx, ⟨hran, tick, tables, hle, hlt, hevents, hexecuted, hwork⟩, rfl⟩
  obtain ⟨n, hn⟩ := hran.trace
  refine (perform_ends (.invalidate model) _).bind ?_
  rintro _ _ rfl
  refine (forM_perform_ends Act.send events _).bind ?_
  rintro _ _ rfl
  refine Ends.pure ⟨events, ⟨tick, hle, Nat.le_succ_of_le hlt, hevents⟩,
    ⟨tables, env.pg.now w.tick, hexecuted, hwork⟩, n, [], ?_, fun _ h => absurd h List.not_mem_nil⟩
  show tx.trace ++ [.commit] ++ [.invalidate model] ++ events.map .send = _
  rw [hn]
  simp only [World.begin, List.append_assoc, List.append_nil, List.singleton_append]

/-- The transaction of `create`. -/
theorem createOne_ends {modelName : String} (model : Model) (data : Record) (actor : Option String) (w : World) :
    Ends (transaction env do
      openWrite env scope
      let record ← insertOne env model data
      let event ← stamp env scope .created modelName actor record
      persistIn env event
      return (record, event)) w
      (fun done w' => ∃ n tables tick, w.tick ≤ tick ∧ tick + 1 ≤ w'.tick ∧
        [done.2] = stamped env scope .created modelName actor tick [done.1] ∧
        Executed env.pg (boundTenant env scope) w.store.tables [Query.SqlBuilder.insert env.casing model data]
          tables [done.1] ∧
        w'.store = recorded env.history modelName (env.pg.now w.tick) [done.2] { w.store with tables } ∧
        w'.trace = w.trace ++ [.begin] ++ List.replicate n .statement ++ [.commit])
      (Undone w) := by
  have hbody : Ends (do
      openWrite env scope
      let record ← insertOne env model data
      let event ← stamp env scope .created modelName actor record
      persistIn env event
      return (record, event)) (w.begin env)
      (fun done tx => (w.begin env).Ran tx ∧ ∃ tables tick, w.tick ≤ tick ∧ tick + 1 ≤ tx.tick ∧
        [done.2] = stamped env scope .created modelName actor tick [done.1] ∧
        Executed env.pg (boundTenant env scope) w.store.tables [Query.SqlBuilder.insert env.casing model data]
          tables [done.1] ∧
        tx.work = recorded env.history modelName (env.pg.now w.tick) [done.2] { w.store with tables })
      (Failed (w.begin env)) := by
    refine (openWrite_ends env scope rfl).bind fun _ tx hopen => ?_
    refine Failed.mono hopen.toRan ((insertOne_ends env model data tx).bind fun record tx' hexecutes => ?_)
    have hran := hopen.toRan.trans hexecutes.toRan
    have htick : tx'.Ran { tx' with tick := tx'.tick + 1 } :=
      ⟨rfl, Nat.le_succ _, 0, (List.append_nil _).symm⟩
    have hstamp : Ends (stamp env scope .created modelName actor record) tx'
        (fun event tx'' => [event] = stamped env scope .created modelName actor tx'.tick [record] ∧
          event.modelName = modelName ∧ tx'' = { tx' with tick := tx'.tick + 1 }) (Failed tx) :=
      Ends.of_result ⟨rfl, rfl, rfl⟩
    refine hstamp.bind ?_
    rintro event tx'' ⟨hevent, hname, rfl⟩
    refine Failed.mono (hexecutes.toRan.trans htick) ((persistIn_ends env event _).bind fun _ tx3 hpersist => ?_)
    obtain ⟨tables, hwork, hexecuted⟩ := hexecutes.work
    rw [hopen.work, hopen.tenant] at hexecuted
    rw [hopen.work] at hwork
    refine Ends.pure ⟨(hran.trans htick).trans hpersist.toRan, tables, tx'.tick, ?_, ?_, hevent, hexecuted, ?_⟩
    · exact Nat.le_trans (Nat.le_succ _) hran.tick
    · exact hpersist.toRan.tick
    · have hnow : tx'.now = env.pg.now w.tick := hran.now
      rw [hpersist.work, hname]
      show recorded env.history modelName tx'.now _ tx'.work = _
      rw [hnow, hwork]
      rfl
  refine (transaction_ends env hbody fun _ tx h => h.1).mono ?_ fun _ _ h => h
  rintro done w' ⟨tx, ⟨hran, tables, tick, hle, hlt, hevent, hexecuted, hwork⟩, rfl⟩
  obtain ⟨n, hn⟩ := hran.trace
  refine ⟨n, tables, tick, hle, Nat.le_succ_of_le hlt, hevent, hexecuted, hwork, ?_⟩
  show tx.trace ++ [.commit] = _
  rw [hn]
  rfl

/-! ## Before the transaction -/

/-- Nothing but hooks was called. -/
structure Untouched (w w' : World) : Prop where
  store : w'.store = w.store
  tick : w.tick ≤ w'.tick
  trace : w'.trace = w.trace

theorem Untouched.refl (w : World) : Untouched w w :=
  ⟨rfl, Nat.le_refl _, rfl⟩

theorem Untouched.trans {w w' w'' : World} (h : Untouched w w') (h' : Untouched w' w'') : Untouched w w'' :=
  ⟨h'.store.trans h.store, Nat.le_trans h.tick h'.tick, h'.trace.trans h.trace⟩

theorem Untouched.undone {w w' : World} (h : Untouched w w') (e : Error) : Undone w e w' :=
  ⟨h.store, h.tick, [], by rw [h.trace, List.append_nil], fun _ hact => absurd hact List.not_mem_nil⟩

theorem Untouched.after {w w' : World} (h : Untouched w w') {α : Type} {x : Program α} {Q : α → World → Prop}
    (hx : Ends x w' Q (Undone w')) : Ends x w' Q (Undone w) :=
  hx.mono (fun _ _ hq => hq) fun e _ hundone => (h.undone e).trans hundone

theorem findModel_ends (name : String) (w : World) :
    Ends (findModel env name) w (fun model w' => env.schema.model? name = some model ∧ w' = w) (Undone w) := by
  unfold findModel
  split
  · rename_i model hmodel
    exact Ends.pure ⟨hmodel, rfl⟩
  · exact Ends.throw (.refl w _)

theorem check_ends (result : Except String Unit) (w : World) :
    Ends (check result) w (fun _ w' => w' = w) (Undone w) := by
  unfold check
  split
  · exact Ends.pure rfl
  · exact Ends.throw (.refl w _)

/-- What a before-hook makes of the data of an operation. -/
def Handed (operation model : String) (data data' : Record) : Prop :=
  ∃ tick, env.beforeHook tick { modelName := model, operation, data } = .proceed data'

theorem runBefore_ends (operation model : String) (data : Record) (w : World) :
    Ends (runBefore env operation model data) w
      (fun data' w' => Handed env operation model data data' ∧ Untouched w w') (Undone w) := by
  apply Ends.of_result
  unfold runBefore
  have hasked : Untouched w { w with tick := w.tick + 1 } := ⟨rfl, Nat.le_succ _, rfl⟩
  cases hhook : env.beforeHook w.tick { modelName := model, operation, data } with
  | proceed data' => exact ⟨⟨w.tick, hhook⟩, hasked⟩
  | abort message => exact hasked.undone _
  | error message => exact hasked.undone _

theorem checkRules_ends (model : Model) (errors : List Schema.ValidationError) (w : World) :
    Ends (checkRules model errors) w (fun _ w' => w' = w) (Undone w) := by
  unfold checkRules
  split
  · exact Ends.pure rfl
  · cases errors with
    | nil => exact Ends.pure rfl
    | cons e errors => exact Ends.throw (.refl w _)

theorem prepare_ends (modelName : String) (model : Model) (records : List Record) (w : World) :
    Ends (prepare env modelName model records) w
      (fun prepared w' => List.Forall₂ (Handed env "create" modelName) records prepared ∧ Untouched w w')
      (Undone w) := by
  induction records generalizing w with
  | nil => exact Ends.pure ⟨.nil, .refl w⟩
  | cons data records ih =>
    refine (runBefore_ends env "create" modelName data w).bind ?_
    rintro data' w' ⟨hhanded, hhook⟩
    refine hhook.after ((checkRules_ends model _ w').bind ?_)
    rintro _ w1 rfl
    refine (ih w1).bind ?_
    rintro rest w'' ⟨hrest, hafter⟩
    exact Ends.pure ⟨.cons hhanded hrest, hhook.trans hafter⟩

theorem Committed.of_untouched {model : String} {type : EventType} {payload : Record → Record}
    {actor : Option String} {built : List (Statement × List Json)} {w w' w'' : World} {records : List Record}
    {events : List StampedEvent} (h : Untouched w w')
    (hcommitted : Committed env scope model type payload actor built w' records events w'') :
    Committed env scope model type payload actor built w records events w'' := by
  obtain ⟨⟨tick, hle, hlt, hevents⟩, ⟨tables, now, hexecuted, hstore⟩, n, hooks, htrace, hhooks⟩ := hcommitted
  rw [h.store] at hexecuted hstore
  rw [h.trace] at htrace
  exact ⟨⟨tick, Nat.le_trans h.tick hle, hlt, hevents⟩, ⟨tables, now, hexecuted, hstore⟩, n, hooks, htrace, hhooks⟩

/-- The hooks after a write are told. -/
theorem Committed.afterHooks {model : String} {type : EventType} {payload : Record → Record}
    {actor : Option String} {built : List (Statement × List Json)} {w w' : World} {records : List Record}
    {events : List StampedEvent} {acts : List Act}
    (hcommitted : Committed env scope model type payload actor built w records events w')
    (hacts : ∀ act ∈ acts, ∃ name, act = .afterHook name) :
    Committed env scope model type payload actor built w records events
      { w' with trace := w'.trace ++ acts } := by
  obtain ⟨hstamped, hstore, n, hooks, htrace, hhooks⟩ := hcommitted
  refine ⟨hstamped, hstore, n, hooks ++ acts, ?_, ?_⟩
  · rw [htrace, List.append_assoc _ hooks]
  · exact fun act hact => (List.mem_append.1 hact).elim (hhooks act) (hacts act)

end Atomo.Client

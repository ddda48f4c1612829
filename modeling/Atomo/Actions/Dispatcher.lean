import Atomo.Client.Store
import Atomo.Jobs.Fencing

/-!
# The action dispatcher

`action_dispatcher.rs`: for each event of the broadcast channel one job for each action that a binding of
the schema names for it. The loop is `while let Ok(ev) = rx.recv().await`, so it goes on exactly as long as
its receiver does not lag behind (`dispatches_iff`): the listeners of `audit.rs` and `projector_manager.rs`
report a `Lagged` and continue, this one stops. In the meantime others call the job store.
-/

namespace Atomo

/-! ## Bindings -/

namespace Schema

/-- `ActionCondition::matches`. -/
def ActionCondition.holds (current : List (String × Json)) (previous : Option (List (String × Json))) :
    ActionCondition → Bool
  | .changedAny fields =>
    match previous with
    | some prev => fields.any fun f => lookup? f current ≠ lookup? f prev
    | none => true
  | .fieldEquals field value => lookup? field current = some value

/-- `ActionDef::build_input`. -/
def ActionDef.buildInput (action : ActionDef) (doc : List (String × Json)) : List (String × Json) :=
  match action.input with
  | .pickFields _ fields => fields.dedup.filterMap fun f => (lookup? f doc).map fun v => (f, v)
  | .object _ => doc

end Schema

namespace Actions

open Schema (EventActionBinding lookup?)
open Jobs (NewJob Job)

/-- `matching_bindings`. -/
def matchingBindings (schema : Schema) (ev : StampedEvent) : Option (List EventActionBinding) := do
  let model ← schema.model? ev.modelName
  let candidates ←
    match ev.eventType with
    | .created => some model.events.created
    | .updated => some model.events.updated
    | .deleted | .hardDeleted => some model.events.deleted
    | .restored | .custom => none
  return candidates.filter fun binding =>
    ev.origin ≠ some binding.action && binding.condition.all (·.holds ev.data ev.previousData)

/-- The bindings that an event meets. -/
def bindings (schema : Schema) (ev : StampedEvent) : List EventActionBinding :=
  (matchingBindings schema ev).getD []

/-! ## Jobs -/

/-- `ACTION_QUEUE`. -/
def actionQueue : String := "actions"

def optional (text : Option String) : Json :=
  (text.map Json.string).getD .null

/-- The input of an action: what its definition picks of the data of the event, all of it where it has none. -/
def input (schema : Schema) (ev : StampedEvent) (action : String) : List (String × Json) :=
  match lookup? action schema.actions with
  | some definition => definition.buildInput ev.data
  | none => ev.data

/-- `build_job_payload`. -/
def buildJobPayload (ev : StampedEvent) (actionName : String) (input : List (String × Json)) : Json :=
  .object
    [("action", .string actionName),
      ("model", .string ev.modelName),
      ("event", .string (.ofList (ev.eventType.debug.toList.map Char.toLower))),
      ("eventId", .string ev.eventId),
      ("input", .object input),
      ("actor", optional ev.actor),
      ("timestamp", .string ev.timestamp),
      ("origin", optional ev.origin)]

def idempotencyKey (ev : StampedEvent) (action : String) : String :=
  ev.eventId ++ ":" ++ action

/-- `ev.data.get("tenant_id").and_then(|v| v.as_str())`. -/
def tenantId (ev : StampedEvent) : Option String :=
  match lookup? "tenant_id" ev.data with
  | some (.string tenant) => some tenant
  | _ => none

/-- The arguments that `enqueue` is called with, and the id that it draws. -/
def actionJob (schema : Schema) (ev : StampedEvent) (action newId : String) : NewJob where
  newId
  queue := actionQueue
  kind := action
  payload := buildJobPayload ev action (input schema ev action)
  idempotencyKey := some (idempotencyKey ev action)
  maxAttempts := 5
  priority := 0
  tenantId := tenantId ev

/-! ## The loop -/

/-- `RecvError`. -/
inductive RecvError where
  | lagged (count : Nat)
  | closed
  deriving DecidableEq

/-- The `tracing::warn!` of a failed `enqueue`. -/
structure Warning where
  action : String
  model : String
  eventId : String
  deriving DecidableEq

/-- What becomes of a call of `enqueue`: it fails on its way, or its statements run, with the id that it draws. -/
abbrev EnqueueOutcome := Option String

/-- What happens: the receiver yields, or someone else calls the job store. -/
inductive Happening where
  | received (ev : StampedEvent)
  | lagged (count : Nat)
  | other (call : Jobs.Call)

/-- The task with the table that it fills; `calls` counts the calls of `enqueue`, and `ended` is the error
that the loop has ended with. -/
structure Dispatcher where
  jobs : Jobs.Store
  calls : Nat := 0
  warnings : List Warning := []
  ended : Option RecvError := none

namespace Dispatcher

variable (u : Jobs.Uuids) (schema : Schema) (outcome : Nat → EnqueueOutcome)

def warn (d : Dispatcher) (ev : StampedEvent) (action : String) : Dispatcher :=
  { d with calls := d.calls + 1, warnings := d.warnings ++ [⟨action, ev.modelName, ev.eventId⟩] }

/-- The body of the inner loop. -/
def enqueue (ev : StampedEvent) (d : Dispatcher) (binding : EventActionBinding) : Dispatcher :=
  match outcome d.calls with
  | none => d.warn ev binding.action
  | some newId =>
    let done := Jobs.enqueue d.jobs (actionJob schema ev binding.action newId)
    if done.reply = .dbError then d.warn ev binding.action
    else { d with jobs := done.store, calls := d.calls + 1 }

/-- A round of the loop in which an event is received. -/
def dispatch (d : Dispatcher) (ev : StampedEvent) : Dispatcher :=
  match matchingBindings schema ev with
  | some bindings => bindings.foldl (enqueue schema outcome ev) d
  | none => d

def step (d : Dispatcher) : Happening → Dispatcher
  | .other call => { d with jobs := (Jobs.run u d.jobs call).store }
  | .received ev => if d.ended.isSome then d else d.dispatch schema outcome ev
  | .lagged count => if d.ended.isSome then d else { d with ended := some (.lagged count) }

/-- The last result of the receiver, once the channel is closed. -/
def close (closed : Bool) (d : Dispatcher) : Dispatcher :=
  if closed && d.ended.isNone then { d with ended := some .closed } else d

/-- `spawn_action_dispatcher`, on what happens until it is looked at. -/
def run (happenings : List Happening) (closed : Bool) (jobs : Jobs.Store) : Dispatcher :=
  (happenings.foldl (step u schema outcome) { jobs }).close closed

end Dispatcher

/-! ## The jobs of an event -/

/-- The arguments that a row was inserted with. -/
def request (j : Job) : NewJob where
  newId := j.id
  queue := j.queue
  kind := j.kind
  payload := j.payload
  idempotencyKey := j.idempotencyKey
  maxAttempts := j.maxAttempts
  priority := j.priority
  tenantId := j.tenantId

def requests (jobs : Jobs.Store) : List NewJob :=
  jobs.rows.map request

/-- The jobs with the key of an action for an event, as they were asked for. -/
def jobsFor (ev : StampedEvent) (action : String) (jobs : Jobs.Store) : List NewJob :=
  (requests jobs).filter fun a => a.queue = actionQueue ∧ a.idempotencyKey = some (idempotencyKey ev action)

/-- The action has its one job, or else the failure of its `enqueue` was reported. -/
def Served (schema : Schema) (ev : StampedEvent) (action : String) (d : Dispatcher) : Prop :=
  (∃ newId, jobsFor ev action d.jobs = [actionJob schema ev action newId]) ∨
    jobsFor ev action d.jobs = [] ∧ ∃ w ∈ d.warnings, w.eventId = ev.eventId ∧ w.action = action

/-- The jobs of an event are those of the actions that its bindings name. -/
structure Dispatched (schema : Schema) (ev : StampedEvent) (d : Dispatcher) : Prop where
  bound : ∀ binding ∈ bindings schema ev, Served schema ev binding.action d
  unbound : ∀ action, action ∉ (bindings schema ev).map (·.action) → jobsFor ev action d.jobs = []

/-- The length of the text of a UUID. -/
def uuidLength : Nat := 36

/-- Events with ids of their own, for which there are no jobs yet. -/
structure Issued (jobs : Jobs.Store) (events : List StampedEvent) : Prop where
  nodup : (events.map (·.eventId)).Nodup
  uuid : ∀ ev ∈ events, ev.eventId.length = uuidLength
  unused : ∀ ev ∈ events, ∀ action, jobsFor ev action jobs = []

/-- A call that puts nothing into the queue of the actions. -/
def Elsewhere : Jobs.Call → Prop
  | .enqueue a | .enqueueTx a => a.queue ≠ actionQueue
  | _ => True

def Happening.event? : Happening → Option StampedEvent
  | .received ev => some ev
  | _ => none

/-- The dispatcher has served the events that it received, and is still at work unless the channel is closed. -/
structure KeepsDispatching (schema : Schema) (happenings : List Happening) (d : Dispatcher) : Prop where
  dispatched : ∀ ev, .received ev ∈ happenings → Dispatched schema ev d
  ended : ∀ error, d.ended = some error → error = .closed

variable {u : Jobs.Uuids} {schema : Schema} {outcome : Nat → EnqueueOutcome} {ev ev' : StampedEvent} {action action' : String}
  {d d' d'' : Dispatcher} {ids ids' : List String}

theorem idempotencyKey_inj (h : ev.eventId.length = uuidLength) (h' : ev'.eventId.length = uuidLength)
    (hkey : idempotencyKey ev action = idempotencyKey ev' action') : ev.eventId = ev'.eventId ∧ action = action' := by
  have hlists : ev.eventId.toList ++ ([':'] ++ action.toList) = ev'.eventId.toList ++ ([':'] ++ action'.toList) := by
    have htext := congrArg String.toList hkey
    unfold idempotencyKey at htext
    rw [String.toList_append, String.toList_append, String.toList_append, String.toList_append, List.append_assoc,
      List.append_assoc] at htext
    exact htext
  have hlength : ev.eventId.toList.length = ev'.eventId.toList.length := by
    rw [String.length_toList, String.length_toList, h, h']
  obtain ⟨hid, haction⟩ := List.append_inj hlists hlength
  exact ⟨String.toList_injective hid, String.toList_injective (List.append_cancel_left haction)⟩

theorem jobsFor_append {jobs jobs' : Jobs.Store} {new : List NewJob} (h : requests jobs' = requests jobs ++ new) :
    jobsFor ev action jobs' = jobsFor ev action jobs ++
      new.filter fun a => a.queue = actionQueue ∧ a.idempotencyKey = some (idempotencyKey ev action) := by
  unfold jobsFor
  rw [h, List.filter_append]

theorem jobsFor_eq_nil_iff {jobs : Jobs.Store} :
    jobsFor ev action jobs = [] ↔ jobs.rows.find? (Jobs.sameKey actionQueue (some (idempotencyKey ev action))) = none := by
  unfold jobsFor requests
  rw [List.filter_eq_nil_iff, List.find?_eq_none, List.forall_mem_map]
  apply forall₂_congr
  intro j _
  unfold Jobs.sameKey
  rw [decide_eq_true_iff, decide_eq_true_iff]
  simp [request]

/-! ## One call -/

/-- What `enqueue` does to the rows. -/
theorem enqueue_rows (s : Jobs.Store) (a : NewJob) :
    ((Jobs.enqueue s a).reply = .dbError ∧ (Jobs.enqueue s a).store = s) ∨
    ((Jobs.enqueue s a).reply ≠ .dbError ∧ (Jobs.enqueue s a).store = s ∧
      s.rows.find? (Jobs.sameKey a.queue a.idempotencyKey) ≠ none) ∨
    ((Jobs.enqueue s a).reply ≠ .dbError ∧ requests (Jobs.enqueue s a).store = requests s ++ [a] ∧
      s.rows.find? (Jobs.sameKey a.queue a.idempotencyKey) = none) := by
  obtain ⟨hstore, hreply⟩ := Jobs.enqueue_store_reply s a
  rw [hstore, hreply]
  unfold Jobs.enqueueTx
  cases hfind : s.rows.find? (Jobs.sameKey a.queue a.idempotencyKey) with
  | some existing => exact .inr (.inl ⟨by simp, rfl, Option.some_ne_none existing⟩)
  | none =>
    dsimp only
    split
    · refine .inr (.inr ⟨by simp, ?_, rfl⟩)
      unfold requests Jobs.Store.insert
      rw [List.map_append]
      rfl
    · exact .inl ⟨rfl, rfl⟩

theorem enqueue_served (h : jobsFor ev action d.jobs = [] ∨ Served schema ev action d) {binding : EventActionBinding}
    (haction : binding.action = action) : Served schema ev action (d.enqueue schema outcome ev binding) := by
  subst haction
  have hwarned : Served schema ev binding.action (d.warn ev binding.action) := by
    have hwarning : ∃ w ∈ (d.warn ev binding.action).warnings, w.eventId = ev.eventId ∧ w.action = binding.action :=
      ⟨_, List.mem_append_right _ (List.mem_singleton_self _), rfl, rfl⟩
    rcases h with hnone | ⟨newId, hone⟩ | ⟨hnone, -⟩
    · exact .inr ⟨hnone, hwarning⟩
    · exact .inl ⟨newId, hone⟩
    · exact .inr ⟨hnone, hwarning⟩
  unfold Dispatcher.enqueue
  split
  · exact hwarned
  · rename_i newId _
    dsimp only
    rcases enqueue_rows d.jobs (actionJob schema ev binding.action newId) with
      ⟨hreply, -⟩ | ⟨hreply, hstore, hfound⟩ | ⟨hreply, hrows, hfree⟩
    · rw [if_pos hreply]
      exact hwarned
    · rw [if_neg hreply]
      have hsome : jobsFor ev binding.action d.jobs ≠ [] := fun hnone => hfound (jobsFor_eq_nil_iff.1 hnone)
      rcases h with hnone | ⟨newId, hone⟩ | ⟨hnone, -⟩
      · exact absurd hnone hsome
      · refine .inl ⟨newId, ?_⟩
        dsimp only
        rw [hstore]
        exact hone
      · exact absurd hnone hsome
    · rw [if_neg hreply]
      refine .inl ⟨newId, ?_⟩
      dsimp only
      rw [jobsFor_append hrows, jobsFor_eq_nil_iff.2 hfree]
      simp [actionJob]

/-- What the tasks do to the jobs and the warnings, as far as it does not concern an event with one of these ids. -/
structure Extends (ids : List String) (d d' : Dispatcher) : Prop where
  kept : ∀ ev action, ev.eventId.length = uuidLength → ev.eventId ∉ ids →
    jobsFor ev action d'.jobs = jobsFor ev action d.jobs
  warnings : d.warnings ⊆ d'.warnings

theorem Extends.refl (ids : List String) (d : Dispatcher) : Extends ids d d :=
  ⟨fun _ _ _ _ => rfl, List.Subset.refl _⟩

theorem Extends.trans {all : List String} (h : Extends ids d d') (h' : Extends ids' d' d'') (hids : ids ⊆ all)
    (hids' : ids' ⊆ all) : Extends all d d'' where
  kept ev action huuid hnot :=
    (h'.kept ev action huuid fun hin => hnot (hids' hin)).trans (h.kept ev action huuid fun hin => hnot (hids hin))
  warnings := List.Subset.trans h.warnings h'.warnings

theorem Extends.served (h : Extends ids d d') (huuid : ev.eventId.length = uuidLength) (hnot : ev.eventId ∉ ids)
    (hserved : Served schema ev action d) : Served schema ev action d' := by
  unfold Served
  rw [h.kept ev action huuid hnot]
  refine hserved.imp_right ?_
  rintro ⟨hnone, w, hw, hsame⟩
  exact ⟨hnone, w, h.warnings hw, hsame⟩

theorem Extends.dispatched (h : Extends ids d d') (huuid : ev.eventId.length = uuidLength) (hnot : ev.eventId ∉ ids)
    (hdispatched : Dispatched schema ev d) : Dispatched schema ev d' where
  bound binding hbinding := h.served huuid hnot (hdispatched.bound binding hbinding)
  unbound action haction := (h.kept ev action huuid hnot).trans (hdispatched.unbound action haction)

theorem enqueue_other (huuid : ev.eventId.length = uuidLength) (huuid' : ev'.eventId.length = uuidLength)
    {binding : EventActionBinding} (hother : ev'.eventId ≠ ev.eventId ∨ action ≠ binding.action) :
    jobsFor ev' action (d.enqueue schema outcome ev binding).jobs = jobsFor ev' action d.jobs := by
  unfold Dispatcher.enqueue
  split
  · rfl
  · rename_i newId _
    dsimp only
    rcases enqueue_rows d.jobs (actionJob schema ev binding.action newId) with
      ⟨hreply, -⟩ | ⟨hreply, hstore, -⟩ | ⟨hreply, hrows, -⟩
    · rw [if_pos hreply]
      rfl
    · rw [if_neg hreply]
      dsimp only
      rw [hstore]
    · rw [if_neg hreply]
      dsimp only
      rw [jobsFor_append hrows, List.filter_cons_of_neg, List.filter_nil, List.append_nil]
      rw [decide_eq_true_iff]
      rintro ⟨-, hkey⟩
      obtain ⟨hid, haction⟩ := idempotencyKey_inj huuid huuid' (Option.some.inj hkey)
      rcases hother with hne | hne
      · exact hne hid.symm
      · exact hne haction.symm

theorem enqueue_warnings (ev : StampedEvent) (d : Dispatcher) (binding : EventActionBinding) :
    d.warnings ⊆ (d.enqueue schema outcome ev binding).warnings := by
  unfold Dispatcher.enqueue
  split
  · exact List.subset_append_left _ _
  · dsimp only
    split
    · exact List.subset_append_left _ _
    · exact List.Subset.refl _

theorem enqueue_ended (ev : StampedEvent) (d : Dispatcher) (binding : EventActionBinding) :
    (d.enqueue schema outcome ev binding).ended = d.ended := by
  unfold Dispatcher.enqueue
  split
  · rfl
  · dsimp only
    split <;> rfl

theorem enqueue_extends (huuid : ev.eventId.length = uuidLength) (d : Dispatcher) (binding : EventActionBinding) :
    Extends [ev.eventId] d (d.enqueue schema outcome ev binding) where
  kept _ _ huuid' hnot := enqueue_other huuid huuid' (.inl (List.ne_of_not_mem_cons hnot))
  warnings := enqueue_warnings ev d binding

/-! ## One event -/

/-- The inner loop. -/
theorem enqueues_extends (huuid : ev.eventId.length = uuidLength) (bindings : List EventActionBinding) (d : Dispatcher) :
    Extends [ev.eventId] d (bindings.foldl (Dispatcher.enqueue schema outcome ev) d) := by
  induction bindings generalizing d with
  | nil => exact .refl _ d
  | cons binding bindings ih =>
    exact (enqueue_extends huuid d binding).trans (ih _) (List.Subset.refl _) (List.Subset.refl _)

theorem enqueues_unbound (huuid : ev.eventId.length = uuidLength) {bindings : List EventActionBinding}
    (hnot : action ∉ bindings.map (·.action)) (d : Dispatcher) :
    jobsFor ev action (bindings.foldl (Dispatcher.enqueue schema outcome ev) d).jobs = jobsFor ev action d.jobs := by
  induction bindings generalizing d with
  | nil => rfl
  | cons binding bindings ih =>
    rw [List.map_cons, List.mem_cons, not_or] at hnot
    exact (ih hnot.2 _).trans (enqueue_other huuid huuid (.inr hnot.1))

theorem enqueues_bound (huuid : ev.eventId.length = uuidLength) {bindings : List EventActionBinding} (d : Dispatcher)
    (h : action ∈ bindings.map (·.action) ∧ jobsFor ev action d.jobs = [] ∨ Served schema ev action d) :
    Served schema ev action (bindings.foldl (Dispatcher.enqueue schema outcome ev) d) := by
  induction bindings generalizing d with
  | nil =>
    rcases h with ⟨hmem, -⟩ | hserved
    · exact absurd hmem List.not_mem_nil
    · exact hserved
  | cons binding bindings ih =>
    apply ih
    by_cases haction : binding.action = action
    · exact .inr (enqueue_served (h.imp_left And.right) haction)
    · have hsame : jobsFor ev action (d.enqueue schema outcome ev binding).jobs = jobsFor ev action d.jobs :=
        enqueue_other huuid huuid (.inr (Ne.symm haction))
      rcases h with ⟨hmem, hnone⟩ | hserved
      · rw [List.map_cons, List.mem_cons] at hmem
        exact .inl ⟨hmem.resolve_left (Ne.symm haction), hsame.trans hnone⟩
      · right
        unfold Served
        rw [hsame]
        refine hserved.imp_right ?_
        rintro ⟨hnone, w, hw, hwarned⟩
        exact ⟨hnone, w, enqueue_warnings ev d binding hw, hwarned⟩

theorem enqueues_ended (ev : StampedEvent) (bindings : List EventActionBinding) (d : Dispatcher) :
    (bindings.foldl (Dispatcher.enqueue schema outcome ev) d).ended = d.ended := by
  induction bindings generalizing d with
  | nil => rfl
  | cons binding bindings ih => exact (ih _).trans (enqueue_ended ev d binding)

/-- A round of the loop is the inner loop over the bindings that the event meets. -/
theorem dispatch_eq (d : Dispatcher) (ev : StampedEvent) :
    d.dispatch schema outcome ev = (bindings schema ev).foldl (Dispatcher.enqueue schema outcome ev) d := by
  unfold Dispatcher.dispatch bindings
  cases matchingBindings schema ev with
  | none => rfl
  | some found => rfl

theorem dispatch_dispatched (huuid : ev.eventId.length = uuidLength) (hunused : ∀ action, jobsFor ev action d.jobs = []) :
    Dispatched schema ev (d.dispatch schema outcome ev) := by
  rw [dispatch_eq]
  refine ⟨fun binding hbinding => ?_, fun action hnot => ?_⟩
  · exact enqueues_bound huuid d (.inl ⟨List.mem_map_of_mem hbinding, hunused _⟩)
  · exact (enqueues_unbound huuid hnot d).trans (hunused action)

/-! ## The calls of others -/

theorem enqueue_elsewhere (s : Jobs.Store) {a : NewJob} (h : a.queue ≠ actionQueue) :
    jobsFor ev action (Jobs.enqueue s a).store = jobsFor ev action s := by
  rcases enqueue_rows s a with ⟨-, hstore⟩ | ⟨-, hstore, -⟩ | ⟨-, hrows, -⟩
  · rw [hstore]
  · rw [hstore]
  · rw [jobsFor_append hrows, List.filter_cons_of_neg, List.filter_nil, List.append_nil]
    rw [decide_eq_true_iff]
    exact fun hqueue => h hqueue.1

theorem lease_requests (s : Jobs.Store) (scan queues : List String) (capacity visibilitySecs : Int) :
    requests (Jobs.lease u s scan queues capacity visibilitySecs).store = requests s := by
  unfold Jobs.lease
  split
  · rfl
  · dsimp only
    split
    · rfl
    · rfl
    · split
      · rfl
      · refine Table.map_update fun j => ?_
        unfold Jobs.leaseRow
        split <;> rfl

theorem fail_requests (s : Jobs.Store) (id leaseId error : String) (retryable : Bool) :
    requests (Jobs.fail s id leaseId error retryable).store = requests s := by
  unfold Jobs.fail
  split
  · rfl
  · dsimp only
    split
    · split
      · rfl
      · exact Table.map_update fun _ => rfl
    · exact Table.map_update fun _ => rfl

theorem heartbeat_requests (s : Jobs.Store) (id leaseId : String) (visibilitySecs : Int) :
    requests (Jobs.heartbeat s id leaseId visibilitySecs).store = requests s := by
  unfold Jobs.heartbeat
  split
  · rfl
  · rfl
  · exact Table.map_update fun _ => rfl

theorem complete_requests (s : Jobs.Store) (id leaseId : String) (result : Json) :
    requests (Jobs.complete s id leaseId result).store = requests s := by
  unfold Jobs.complete
  dsimp only
  split
  · exact Table.map_update fun _ => rfl
  · exact Table.map_update fun _ => rfl

/-- Others leave the jobs of the events as they were asked for. -/
theorem run_jobsFor (s : Jobs.Store) {call : Jobs.Call} (h : Elsewhere call) :
    jobsFor ev action (Jobs.run u s call).store = jobsFor ev action s := by
  have hkept (hrequests : requests (Jobs.run u s call).store = requests s) :
      jobsFor ev action (Jobs.run u s call).store = jobsFor ev action s := by
    unfold jobsFor
    rw [hrequests]
  cases call with
  | enqueue a => exact enqueue_elsewhere s h
  | enqueueTx a =>
    have hstore := (Jobs.enqueue_store_reply s a).1
    unfold Jobs.run
    rw [← hstore]
    exact enqueue_elsewhere s h
  | emitEnqueued id queue kind => rfl
  | lease scan queues capacity visibilitySecs => exact hkept (lease_requests s scan queues capacity visibilitySecs)
  | heartbeat id leaseId visibilitySecs => exact hkept (heartbeat_requests s id leaseId visibilitySecs)
  | complete id leaseId result => exact hkept (complete_requests s id leaseId result)
  | fail id leaseId error retryable => exact hkept (fail_requests s id leaseId error retryable)
  | reclaimExpired => exact hkept (Table.map_update fun _ => rfl)
  | tick micros => rfl

/-! ## The whole loop -/

variable (u schema outcome)

/-- The ids of the events that are received. -/
def receivedIds (happenings : List Happening) : List String :=
  (happenings.filterMap Happening.event?).map (·.eventId)

theorem step_extends {happening : Happening} (huuid : ∀ ev, happening = .received ev → ev.eventId.length = uuidLength)
    (hother : ∀ call, happening = .other call → Elsewhere call) (d : Dispatcher) :
    Extends (receivedIds [happening]) d (d.step u schema outcome happening) := by
  unfold Dispatcher.step
  cases happening with
  | other call => exact ⟨fun ev action _ _ => run_jobsFor d.jobs (hother call rfl), List.Subset.refl _⟩
  | received ev =>
    dsimp only
    split
    · exact .refl _ d
    · rw [dispatch_eq]
      exact enqueues_extends (huuid ev rfl) _ d
  | lagged count =>
    dsimp only
    split
    · exact .refl _ d
    · exact ⟨fun _ _ _ _ => rfl, List.Subset.refl _⟩

theorem step_ended {happening : Happening} (hlagged : ∀ count, happening ≠ .lagged count) (d : Dispatcher) :
    (d.step u schema outcome happening).ended = d.ended := by
  unfold Dispatcher.step
  cases happening with
  | other call => rfl
  | received ev =>
    dsimp only
    split
    · rfl
    · rw [dispatch_eq, enqueues_ended]
  | lagged count => exact absurd rfl (hlagged count)

theorem receivedIds_cons (happening : Happening) (happenings : List Happening) :
    receivedIds (happening :: happenings) = receivedIds [happening] ++ receivedIds happenings := by
  unfold receivedIds
  rw [← List.map_append, ← List.filterMap_append, List.singleton_append]

theorem mem_receivedIds {happenings : List Happening} (h : .received ev ∈ happenings) : ev.eventId ∈ receivedIds happenings :=
  List.mem_map_of_mem (List.mem_filterMap.2 ⟨_, h, rfl⟩)

/-- As long as the receiver does not lag, every event that it yields is served, and stays so. -/
theorem steps_dispatched {happenings : List Happening} (hlagged : ∀ count, .lagged count ∉ happenings)
    (hother : ∀ call, .other call ∈ happenings → Elsewhere call) (hnodup : (receivedIds happenings).Nodup)
    (huuid : ∀ ev, .received ev ∈ happenings → ev.eventId.length = uuidLength) (d : Dispatcher) (hended : d.ended = none)
    (hunused : ∀ ev, .received ev ∈ happenings → ∀ action, jobsFor ev action d.jobs = []) :
    (∀ ev, .received ev ∈ happenings → Dispatched schema ev (happenings.foldl (Dispatcher.step u schema outcome) d)) ∧
      Extends (receivedIds happenings) d (happenings.foldl (Dispatcher.step u schema outcome) d) ∧
      (happenings.foldl (Dispatcher.step u schema outcome) d).ended = none := by
  induction happenings generalizing d with
  | nil => exact ⟨fun ev h => absurd h List.not_mem_nil, .refl _ d, hended⟩
  | cons happening happenings ih =>
    rw [receivedIds_cons, List.nodup_append] at hnodup
    obtain ⟨-, hnodup, hapart⟩ := hnodup
    have hextends := step_extends u schema outcome (fun ev heq => huuid ev (heq ▸ List.mem_cons_self))
      (fun call heq => hother call (heq ▸ List.mem_cons_self)) d
    have hended' : (d.step u schema outcome happening).ended = none :=
      (step_ended u schema outcome (fun count heq => hlagged count (heq ▸ List.mem_cons_self)) d).trans hended
    have hrest : ∀ ev, .received ev ∈ happenings → ev.eventId ∉ receivedIds [happening] :=
      fun ev hev hin => hapart _ hin _ (mem_receivedIds hev) rfl
    obtain ⟨hdispatched, hextends', hended''⟩ := ih (fun count hin => hlagged count (List.mem_cons_of_mem _ hin))
      (fun call hin => hother call (List.mem_cons_of_mem _ hin)) hnodup
      (fun ev hin => huuid ev (List.mem_cons_of_mem _ hin)) _ hended' fun ev hin action =>
        (hextends.kept ev action (huuid ev (List.mem_cons_of_mem _ hin)) (hrest ev hin)).trans
          (hunused ev (List.mem_cons_of_mem _ hin) action)
    refine ⟨fun ev hev => ?_, ?_, hended''⟩
    · rcases List.mem_cons.1 hev with rfl | hin
      · have huuid' := huuid ev List.mem_cons_self
        have hfirst : Dispatched schema ev (d.step u schema outcome (.received ev)) := by
          unfold Dispatcher.step
          simp only [hended, Option.isSome_none, Bool.false_eq_true, if_false]
          exact dispatch_dispatched huuid' (hunused ev List.mem_cons_self)
        refine hextends'.dispatched huuid' (fun hagain => ?_) hfirst
        exact hapart _ (mem_receivedIds (List.mem_singleton_self _)) _ hagain rfl
      · exact hdispatched ev hin
    · rw [receivedIds_cons]
      exact hextends.trans hextends' (List.subset_append_left _ _) (List.subset_append_right _ _)

/-- The loop ends with the first result that is not an event. -/
theorem steps_lagged (happenings : List Happening) (d : Dispatcher)
    (h : (∃ count, d.ended = some (.lagged count)) ∨ d.ended = none ∧ ∃ count, .lagged count ∈ happenings) :
    ∃ count, (happenings.foldl (Dispatcher.step u schema outcome) d).ended = some (.lagged count) := by
  induction happenings generalizing d with
  | nil =>
    rcases h with h | ⟨-, count, hin⟩
    · exact h
    · exact absurd hin List.not_mem_nil
  | cons happening happenings ih =>
    apply ih
    by_cases hlagged : ∃ count, happening = .lagged count
    · obtain ⟨count, rfl⟩ := hlagged
      left
      unfold Dispatcher.step
      rcases h with ⟨count', hended⟩ | ⟨hended, -⟩
      · simp only [hended, Option.isSome_some, if_true]
        exact ⟨count', rfl⟩
      · simp only [hended, Option.isSome_none, Bool.false_eq_true, if_false]
        exact ⟨count, rfl⟩
    · rw [step_ended u schema outcome fun count heq => hlagged ⟨count, heq⟩]
      refine h.imp_right (And.imp_right ?_)
      rintro ⟨count, hin⟩
      exact ⟨count, (List.mem_cons.1 hin).resolve_left fun heq => hlagged ⟨count, heq.symm⟩⟩

/-- The dispatcher keeps dispatching exactly when its receiver never lags behind. -/
theorem dispatches_iff (happenings : List Happening) (closed : Bool) (jobs : Jobs.Store) (hissued : Issued jobs (happenings.filterMap Happening.event?))
    (hother : ∀ call, .other call ∈ happenings → Elsewhere call) :
    KeepsDispatching schema happenings (Dispatcher.run u schema outcome happenings closed jobs) ↔
      ∀ count, .lagged count ∉ happenings := by
  have hevent : ∀ ev, .received ev ∈ happenings → ev ∈ happenings.filterMap Happening.event? :=
    fun ev hev => List.mem_filterMap.2 ⟨_, hev, rfl⟩
  constructor
  · intro hkeeps count hlagged
    obtain ⟨count, hended⟩ := steps_lagged u schema outcome happenings { jobs } (.inr ⟨rfl, count, hlagged⟩)
    have hclosed := hkeeps.ended (.lagged count) (by
      unfold Dispatcher.run Dispatcher.close
      simp [hended])
    cases hclosed
  · intro hlagged
    obtain ⟨hdispatched, -, hended⟩ := steps_dispatched u schema outcome hlagged hother hissued.nodup
      (fun ev hev => hissued.uuid ev (hevent ev hev)) { jobs } rfl fun ev hev => hissued.unused ev (hevent ev hev)
    unfold Dispatcher.run Dispatcher.close
    split
    · exact ⟨fun ev hev => ⟨(hdispatched ev hev).bound, (hdispatched ev hev).unbound⟩,
        fun error herror => (Option.some.inj herror).symm⟩
    · refine ⟨hdispatched, fun error herror => ?_⟩
      rw [hended] at herror
      cases herror

/-! ## A dispatcher that lags behind -/

/-- A schema whose notes are processed when they are created. -/
def noteActions : Schema where
  models := [("Note", { name := "Note", events := { created := [{ action := "processNote" }] } })]

def noteCreated : StampedEvent where
  eventType := .created
  modelName := "Note"
  data := [("id", .string "n1"), ("title", .string "first")]
  eventId := "00000000-0000-4000-8000-000000000001"
  timestamp := "2026-01-01T00:00:00Z"

theorem issued_noteCreated : Issued (Jobs.emptyStore 0) [noteCreated] where
  nodup := List.nodup_singleton _
  uuid ev hev := by
    rw [List.mem_singleton.1 hev]
    decide
  unused _ _ _ := rfl

theorem dispatches_noteCreated :
    KeepsDispatching noteActions [.received noteCreated]
      (Dispatcher.run default noteActions (fun _ => some "job") [.received noteCreated] false (Jobs.emptyStore 0)) := by
  refine (dispatches_iff default noteActions (fun _ => some "job") [.received noteCreated] false (Jobs.emptyStore 0)
    issued_noteCreated ?_).2 ?_
  · intro call hcall
    cases List.mem_singleton.1 hcall
  · intro count hcount
    cases List.mem_singleton.1 hcount

/-- After a burst of events that it misses the dispatcher serves no other. -/
theorem lagged_undispatched :
    ¬∀ (happenings : List Happening) (closed : Bool) (jobs : Jobs.Store),
      Issued jobs (happenings.filterMap Happening.event?) →
      (∀ call, .other call ∈ happenings → Elsewhere call) →
      KeepsDispatching noteActions happenings
        (Dispatcher.run default noteActions (fun _ => some "job") happenings closed jobs) := by
  intro h
  have hkeeps := h [.lagged 1, .received noteCreated] false (Jobs.emptyStore 0) issued_noteCreated fun call hcall => by
    simp at hcall
  have hserved := (hkeeps.dispatched noteCreated (by simp)).bound { action := "processNote" } List.mem_cons_self
  rcases hserved with ⟨newId, hone⟩ | ⟨-, w, hw, -⟩
  · cases hone
  · cases hw

end Actions

end Atomo

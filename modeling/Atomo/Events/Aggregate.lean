import Atomo.Events.Appenders

/-!
# Event-sourced aggregates

`AggregateBase` of the server crate, over any implementation of `Aggregate` and of `DomainEvent`, and `save` of
its repository. A function behind `&mut` gives back what it has made of its argument also when it fails. A version
is an `i64` whose sums wrap: the profiles of the workspace leave `overflow-checks` off.
-/

namespace Atomo.Events

open LabelledSystem

/-- `AtomoError` of the core crate. -/
inductive AtomoError where
  | validation (message : String)
  | notFound (entity id : String)
  | conflict (message : String)
  | unauthorized (message : String)
  | forbidden (message : String)
  | internal (message : String)
  | database (message : String)
  | concurrencyConflict (expected actual : Int64)
  | domain (message : String)
  | eventStore (message : String)
  | serialization (message : String)
  | authenticationFailed (message : String)
  | sessionExpired
  | rateLimitExceeded (message : String)

/-- An implementation of the trait `DomainEvent`. -/
structure DomainEventImpl (Event : Type) where
  streamId : Event → StreamId
  eventType : Event → EventType
  metadata : Event → EventMetadata
  payload : Event → Json
  aggregateVersion : Event → Int64

/-- An implementation of the trait `Aggregate`. -/
structure AggregateImpl (T Event : Type) where
  apply : T → Event → T × Except AtomoError Unit
  setVersion : T → Int64 → T
  isValid : T → Bool := fun _ => true

structure AggregateBase (T Event : Type) where
  data : T
  version : Int64
  uncommittedEvents : List Event
  streamId : StreamId
  deriving DecidableEq

/-- `EventEnvelope::from_domain_event`, with the id and the time that it draws. -/
def EventEnvelope.fromDomainEvent {Event : Type} (domainEvent : DomainEventImpl Event) (new : EntityId) (now : Timestamp)
    (event : Event) (streamVersion globalSequence : Int64) : EventEnvelope where
  eventId := new
  streamId := domainEvent.streamId event
  streamVersion := streamVersion.toInt
  globalSequence := globalSequence.toInt
  eventType := domainEvent.eventType event
  metadata := domainEvent.metadata event
  payload := domainEvent.payload event
  recordedAt := now

variable {T Event Command : Type} (impl : AggregateImpl T Event) (domainEvent : DomainEventImpl Event)
  (new : Nat → EntityId) (now : Nat → Timestamp)

namespace AggregateBase

/-- `AggregateBase::new`. -/
def fresh (data : T) (streamId : StreamId) : AggregateBase T Event where
  data := data
  version := 0
  uncommittedEvents := []
  streamId := streamId

/-- `apply_event`. -/
def applyEvent (aggregate : AggregateBase T Event) (event : Event) : AggregateBase T Event × Except AtomoError Unit :=
  match impl.apply aggregate.data event with
  | (data, .error error) => ({ aggregate with data := data }, .error error)
  | (data, .ok ()) =>
    let version := domainEvent.aggregateVersion event
    ({ aggregate with data := impl.setVersion data version, version := version }, .ok ())

/-- `mark_events_as_committed`. -/
def markEventsAsCommitted (aggregate : AggregateBase T Event) : AggregateBase T Event :=
  { aggregate with uncommittedEvents := [] }

/-- The loop of `from_events`, whose aggregate is dropped with the first failure. -/
def replay (aggregate : AggregateBase T Event) : List Event → Except AtomoError (AggregateBase T Event)
  | [] => .ok aggregate
  | event :: rest =>
    match aggregate.applyEvent impl domainEvent event with
    | (_, .error error) => .error error
    | (aggregate, .ok ()) => replay aggregate rest

/-- `AggregateBase::from_events`. -/
def fromEvents (initialState : T) (streamId : StreamId) (events : List Event) :
    Except AtomoError (AggregateBase T Event) :=
  (replay impl domainEvent (fresh initialState streamId) events).map markEventsAsCommitted

/-- The aggregate with an event that has been applied to its data. -/
def record (aggregate : AggregateBase T Event) (data : T) (event : Event) : AggregateBase T Event :=
  { aggregate with
    data := impl.setVersion data (aggregate.version + 1)
    version := aggregate.version + 1
    uncommittedEvents := aggregate.uncommittedEvents ++ [event] }

/-- The loop of `apply_command`, which a failure leaves. -/
def applyEvents (aggregate : AggregateBase T Event) : List Event → AggregateBase T Event × Except AtomoError Unit
  | [] => (aggregate, .ok ())
  | event :: rest =>
    match impl.apply aggregate.data event with
    | (data, .error error) => ({ aggregate with data := data }, .error error)
    | (data, .ok ()) => applyEvents (aggregate.record impl data event) rest

/-- `apply_command`. -/
def applyCommand (aggregate : AggregateBase T Event) (handler : T → Command → T × Except AtomoError (List Event))
    (command : Command) : AggregateBase T Event × Except AtomoError Unit :=
  if !impl.isValid aggregate.data then (aggregate, .error (.domain "Aggregate is in invalid state"))
  else
    match handler aggregate.data command with
    | (data, .error error) => ({ aggregate with data := data }, .error error)
    | (data, .ok events) => applyEvents impl { aggregate with data := data } events

/-- `uncommitted_envelopes`. -/
def uncommittedEnvelopes (aggregate : AggregateBase T Event) : List EventEnvelope :=
  aggregate.uncommittedEvents.mapIdx fun i event =>
    .fromDomainEvent domainEvent (new i) (now i) event
      (aggregate.version - .ofNat aggregate.uncommittedEvents.length + .ofNat i + 1) 0

/-- What `save` asks of the event store, if anything. -/
def saveCall (aggregate : AggregateBase T Event) : Option Append :=
  if aggregate.uncommittedEvents.isEmpty then none
  else
    let envelopes := aggregate.uncommittedEnvelopes domainEvent new now
    some
      { streamId := aggregate.streamId
        expectedVersion := some (aggregate.version - .ofNat envelopes.length).toInt
        events := envelopes }

/-- `AggregateRepository::save`, over an event store that takes a call or refuses it. -/
def save (appendEvents : Append → Except AtomoError Unit) (aggregate : AggregateBase T Event) :
    AggregateBase T Event × Except AtomoError Unit :=
  match aggregate.saveCall domainEvent new now with
  | none => (aggregate, .ok ())
  | some call =>
    match appendEvents call with
    | .error error => (aggregate, .error error)
    | .ok () => (aggregate.markEventsAsCommitted, .ok ())

end AggregateBase

/-! ## A failing command -/

namespace AggregateImpl

/-- The events all apply to some data, each setting the version that follows. -/
def AllApply (data : T) (version : Int64) : List Event → Prop
  | [] => True
  | event :: rest =>
    (impl.apply data event).2 = .ok () ∧
      AllApply (impl.setVersion (impl.apply data event).1 (version + 1)) (version + 1) rest

/-- The first of some events fails on `data` and leaves `original`. -/
def FailsAtOnce (original data : T) : List Event → Prop
  | [] => False
  | event :: _ => (impl.apply data event).2 ≠ .ok () ∧ (impl.apply data event).1 = original

/-- The aggregate is invalid, or the handler rejects the command and leaves the data as it was, or of the events that
it produces all apply, or the first one fails and leaves the data as it was. -/
def Spares (data : T) (version : Int64) (handler : T → Command → T × Except AtomoError (List Event))
    (command : Command) : Prop :=
  impl.isValid data = true →
    match handler data command with
    | (changed, .error _) => changed = data
    | (changed, .ok events) => impl.AllApply changed version events ∨ impl.FailsAtOnce data changed events

end AggregateImpl

namespace AggregateBase

/-- A command that fails leaves the aggregate as it was. -/
def Untouched (aggregate : AggregateBase T Event) (handler : T → Command → T × Except AtomoError (List Event))
    (command : Command) : Prop :=
  ∀ error, (aggregate.applyCommand impl handler command).2 = .error error →
    (aggregate.applyCommand impl handler command).1 = aggregate

@[simp] theorem record_data (aggregate : AggregateBase T Event) (data : T) (event : Event) :
    (aggregate.record impl data event).data = impl.setVersion data (aggregate.version + 1) := rfl

@[simp] theorem record_version (aggregate : AggregateBase T Event) (data : T) (event : Event) :
    (aggregate.record impl data event).version = aggregate.version + 1 := rfl

@[simp] theorem record_uncommittedEvents (aggregate : AggregateBase T Event) (data : T) (event : Event) :
    (aggregate.record impl data event).uncommittedEvents = aggregate.uncommittedEvents ++ [event] := rfl

/-- What a command has applied is not taken back. -/
theorem applyEvents_length (aggregate : AggregateBase T Event) (events : List Event) :
    aggregate.uncommittedEvents.length ≤ (aggregate.applyEvents impl events).1.uncommittedEvents.length := by
  fun_induction applyEvents impl aggregate events with
  | case1 => exact le_rfl
  | case2 => exact le_rfl
  | case3 aggregate event rest data happly ih =>
    rw [record_uncommittedEvents, List.length_append] at ih
    exact le_trans (Nat.le_add_right _ _) ih

theorem applyEvents_ok_iff (aggregate : AggregateBase T Event) (events : List Event) :
    (aggregate.applyEvents impl events).2 = .ok () ↔ impl.AllApply aggregate.data aggregate.version events := by
  fun_induction applyEvents impl aggregate events with
  | case1 => simp [AggregateImpl.AllApply]
  | case2 aggregate event rest data error happly => simp [AggregateImpl.AllApply, happly]
  | case3 aggregate event rest data happly ih =>
    rw [ih, AggregateImpl.AllApply, happly]
    simp

/-- A failing list of events leaves the aggregate as it was before the handler exactly when its first event fails. -/
theorem applyEvents_eq_iff (aggregate : AggregateBase T Event) (changed : T) {events : List Event}
    (hfails : ¬ impl.AllApply changed aggregate.version events) :
    (applyEvents impl { aggregate with data := changed } events).1 = aggregate ↔
      impl.FailsAtOnce aggregate.data changed events := by
  cases events with
  | nil => exact absurd trivial hfails
  | cons event rest =>
    rcases happly : impl.apply changed event with ⟨data, answer⟩
    simp only [applyEvents, happly, AggregateImpl.FailsAtOnce]
    cases answer with
    | error error =>
      constructor
      · intro hsame
        exact ⟨by simp, congrArg AggregateBase.data hsame⟩
      · rintro ⟨-, hdata⟩
        exact hdata ▸ rfl
    | ok =>
      constructor
      · intro hsame
        have hgrown := applyEvents_length impl (record impl { aggregate with data := changed } data event) rest
        rw [hsame, record_uncommittedEvents, List.length_append] at hgrown
        exact absurd hgrown (by simp)
      · rintro ⟨hfail, -⟩
        exact absurd rfl hfail

theorem untouched_iff (aggregate : AggregateBase T Event)
    (handler : T → Command → T × Except AtomoError (List Event)) (command : Command) :
    aggregate.Untouched impl handler command ↔ impl.Spares aggregate.data aggregate.version handler command := by
  unfold Untouched applyCommand AggregateImpl.Spares
  cases hvalid : impl.isValid aggregate.data with
  | false => simp
  | true =>
    rcases hhandler : handler aggregate.data command with ⟨changed, answer⟩
    cases answer with
    | error error =>
      simp only [Bool.not_true, Bool.false_eq_true, if_false, forall_true_left]
      constructor
      · intro h
        exact congrArg data (h error rfl)
      · rintro rfl error -
        rfl
    | ok events =>
      simp only [Bool.not_true, Bool.false_eq_true, if_false, forall_true_left]
      have hok := applyEvents_ok_iff impl { aggregate with data := changed } events
      rw [or_iff_not_imp_left]
      constructor
      · intro h hfails
        rw [← applyEvents_eq_iff impl aggregate changed hfails]
        cases hanswer : (applyEvents impl { aggregate with data := changed } events).2 with
        | ok => exact absurd (hok.1 hanswer) hfails
        | error error => exact h error hanswer
      · intro h error herror
        have hfails : ¬ impl.AllApply changed aggregate.version events := by
          intro hall
          rw [hok.2 hall] at herror
          cases herror
        exact (applyEvents_eq_iff impl aggregate changed hfails).2 (h hfails)

end AggregateBase

/-! ## The versions along a run -/

/-- An aggregate, with the version that is committed of it: the one that it was replayed up to, or had when its events
were last committed. -/
structure Tracked (T Event : Type) where
  aggregate : AggregateBase T Event
  committed : Int64

/-- What the owner of an aggregate does with it. -/
inductive Use (T Event : Type) where
  | applyCommand {Command : Type} (handler : T → Command → T × Except AtomoError (List Event)) (command : Command)
  | applyEvent (event : Event)
  | markEventsAsCommitted
  | save (appendEvents : Append → Except AtomoError Unit)
  | setData (data : T)

namespace Tracked

open AggregateBase

/-- The aggregate after a use, whose answer decides on what is committed. -/
def settle (s : Tracked T Event) (after : AggregateBase T Event × Except AtomoError Unit) (committed : Int64) :
    Tracked T Event :=
  match after with
  | (aggregate, .error _) => { s with aggregate := aggregate }
  | (aggregate, .ok ()) => ⟨aggregate, committed⟩

def use (s : Tracked T Event) : Use T Event → Tracked T Event
  | .applyCommand handler command => { s with aggregate := (s.aggregate.applyCommand impl handler command).1 }
  | .applyEvent event => s.settle (s.aggregate.applyEvent impl domainEvent event) (domainEvent.aggregateVersion event)
  | .markEventsAsCommitted => ⟨s.aggregate.markEventsAsCommitted, s.aggregate.version⟩
  | .save appendEvents => s.settle (s.aggregate.save domainEvent new now appendEvents) s.aggregate.version
  | .setData data => { s with aggregate := { s.aggregate with data := data } }

end Tracked

/-- The life of an aggregate that is built from its first data. -/
def aggregateSystem : LabelledSystem (Tracked T Event) (Use T Event) where
  init s := ∃ data streamId, s = ⟨.fresh data streamId, 0⟩
  step s action t := t = s.use impl domainEvent new now action

/-- An event is replayed on an aggregate without uncommitted events. -/
def Replays (s : Tracked T Event) : Use T Event → Prop
  | .applyEvent _ => s.aggregate.uncommittedEvents = []
  | _ => True

/-- The version is as many after the committed one as there are uncommitted events. -/
def InStep (s : Tracked T Event) : Prop :=
  s.aggregate.version = s.committed + .ofNat s.aggregate.uncommittedEvents.length

/-- The versions add up: that of the aggregate, those of the envelopes, and the one that `save` expects. -/
structure AddsUp (s : Tracked T Event) : Prop where
  inStep : InStep s
  contiguous : (s.aggregate.uncommittedEnvelopes domainEvent new now).map (·.streamVersion) =
    (List.range s.aggregate.uncommittedEvents.length).map fun i : Nat => (s.committed + .ofNat (i + 1)).toInt
  expected : ∀ call, s.aggregate.saveCall domainEvent new now = some call →
    call.expectedVersion = some s.committed.toInt ∧
      call.events = s.aggregate.uncommittedEnvelopes domainEvent new now

namespace InStep

variable {s : Tracked T Event}

theorem fresh (data : T) (streamId : StreamId) : InStep (⟨.fresh data streamId, 0⟩ : Tracked T Event) := by
  rfl

/-- Each event that is applied adds one on both sides, also where a later one fails. -/
theorem applyEvents {aggregate : AggregateBase T Event} {committed : Int64} (h : InStep ⟨aggregate, committed⟩)
    (events : List Event) : InStep ⟨(aggregate.applyEvents impl events).1, committed⟩ := by
  fun_induction AggregateBase.applyEvents impl aggregate events with
  | case1 => exact h
  | case2 => exact h
  | case3 aggregate event rest data happly ih =>
    apply ih
    unfold InStep at h ⊢
    simp only [AggregateBase.record_version, AggregateBase.record_uncommittedEvents, List.length_append,
      List.length_singleton] at h ⊢
    rw [h, Int64.ofNat_add]
    grind

theorem applyCommand (h : InStep s) (handler : T → Command → T × Except AtomoError (List Event)) (command : Command) :
    InStep ⟨(s.aggregate.applyCommand impl handler command).1, s.committed⟩ := by
  unfold AggregateBase.applyCommand
  split
  · exact h
  · rcases handler s.aggregate.data command with ⟨data, error | events⟩
    · exact h
    · have hhandled : InStep ⟨{ s.aggregate with data := data }, s.committed⟩ := h
      exact hhandled.applyEvents impl events

theorem applyEvent (h : InStep s) (hclean : s.aggregate.uncommittedEvents = []) (event : Event) :
    InStep (s.settle (s.aggregate.applyEvent impl domainEvent event) (domainEvent.aggregateVersion event)) := by
  unfold AggregateBase.applyEvent
  rcases impl.apply s.aggregate.data event with ⟨data, error | _⟩
  · exact h
  · simp [Tracked.settle, InStep, hclean]

theorem marked (s : Tracked T Event) : InStep ⟨s.aggregate.markEventsAsCommitted, s.aggregate.version⟩ := by
  simp [InStep, AggregateBase.markEventsAsCommitted]

theorem save (h : InStep s) (appendEvents : Append → Except AtomoError Unit) :
    InStep (s.settle (s.aggregate.save domainEvent new now appendEvents) s.aggregate.version) := by
  unfold AggregateBase.save
  cases hcall : s.aggregate.saveCall domainEvent new now with
  | none =>
    have hempty : s.aggregate.uncommittedEvents = [] := by
      simpa [AggregateBase.saveCall] using hcall
    simp [Tracked.settle, InStep, hempty]
  | some call =>
    cases happend : appendEvents call with
    | error error => simpa only [happend, Tracked.settle] using h
    | ok => simpa only [happend, Tracked.settle] using marked s

theorem use (h : InStep s) {action : Use T Event} (hreplays : Replays s action) :
    InStep (s.use impl domainEvent new now action) := by
  cases action with
  | applyCommand handler command => exact h.applyCommand impl handler command
  | applyEvent event => exact h.applyEvent impl domainEvent hreplays event
  | markEventsAsCommitted => exact marked s
  | save appendEvents => exact h.save domainEvent new now appendEvents
  | setData data => exact h

/-- What `save` and `uncommitted_envelopes` subtract leads back to the committed version. -/
theorem sub_eq (h : InStep s) : s.aggregate.version - .ofNat s.aggregate.uncommittedEvents.length = s.committed := by
  rw [h]
  grind

theorem addsUp (h : InStep s) : AddsUp domainEvent new now s where
  inStep := h
  contiguous := by
    apply List.ext_getElem
    · simp [AggregateBase.uncommittedEnvelopes]
    · intro i hi hi'
      simp only [AggregateBase.uncommittedEnvelopes, List.getElem_map, List.getElem_mapIdx, List.getElem_range,
        EventEnvelope.fromDomainEvent, h.sub_eq, Int64.ofNat_add]
      congr 1
      grind
  expected := by
    intro call hcall
    unfold AggregateBase.saveCall at hcall
    split at hcall
    · cases hcall
    · cases hcall
      simp only [AggregateBase.uncommittedEnvelopes, List.length_mapIdx, h.sub_eq, and_self]

end InStep

/-- Without a replay over uncommitted events the versions add up along a run, whatever commands fail. -/
theorem inStep_inductive :
    ((aggregateSystem impl domainEvent new now).restrict Replays).Inductive InStep where
  init := by
    rintro _ ⟨data, streamId, rfl⟩
    exact InStep.fresh data streamId
  step := by
    rintro s action _ h ⟨rfl, hreplays⟩
    exact h.use impl domainEvent new now hreplays

theorem applyEvent_uncommittedEvents (aggregate : AggregateBase T Event) (event : Event) :
    (aggregate.applyEvent impl domainEvent event).1.uncommittedEvents = aggregate.uncommittedEvents := by
  unfold AggregateBase.applyEvent
  rcases impl.apply aggregate.data event with ⟨data, error | _⟩ <;> rfl

/-- A command that fails leaves the aggregate untouched exactly when `Spares` holds of it, and the versions add up in
every run without a replay over uncommitted events. -/
theorem failed_command_untouched_iff {T Event : Type} (impl : AggregateImpl T Event)
    (domainEvent : DomainEventImpl Event) (new : Nat → EntityId) (now : Nat → Timestamp) :
    (∀ {Command : Type} (aggregate : AggregateBase T Event)
      (handler : T → Command → T × Except AtomoError (List Event)) (command : Command),
      aggregate.Untouched impl handler command ↔ impl.Spares aggregate.data aggregate.version handler command) ∧
    ∀ s, ((aggregateSystem impl domainEvent new now).restrict Replays).Reachable s → AddsUp domainEvent new now s := by
  constructor
  · intro Command aggregate handler command
    exact aggregate.untouched_iff impl handler command
  · intro s hs
    have hstep := (inStep_inductive impl domainEvent new now).reachable hs
    exact hstep.addsUp domainEvent new now

/-- An account that must not be overdrawn; a transfer is two events. -/
def account : AggregateImpl Int Int where
  apply balance change :=
    if balance + change < 0 then (balance, .error (.domain "overdrawn")) else (balance + change, .ok ())
  setVersion balance _ := balance

/-- The deposit stays, with its version, though the command that made it has failed. -/
theorem deposit_kept :
    let answer := (AggregateBase.fresh 0 7).applyCommand account
      (fun balance (changes : List Int) => (balance, .ok changes)) [5, -10]
    answer.2 = .error (.domain "overdrawn") ∧ answer.1 = ⟨5, 1, [5], 7⟩ ∧ answer.1 ≠ .fresh 0 7 := by
  refine ⟨rfl, rfl, ?_⟩
  decide

end Atomo.Events

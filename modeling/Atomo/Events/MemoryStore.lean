import Atomo.Events.Envelope
import Mathlib.Logic.Function.Basic

/-!
# The event store in memory

`InMemoryEventStore`: the envelopes of all streams in one vector, and indices into it by stream and by
aggregate. The vector is never cut, so what an index leads to stays what it was.
-/

namespace Atomo.Events

/-- Indices into the vector, by a key. -/
abbrev Index (K : Type) := K → Option (List Nat)

namespace Index

variable {K : Type} [DecidableEq K]

/-- `entry(key).or_default().push(index)`. -/
def push (index : Index K) (key : K) (i : Nat) : Index K :=
  Function.update index key (some ((index key).getD [] ++ [i]))

/-- The envelopes that the indices under a key lead to. -/
def select (index : Index K) (events : List EventEnvelope) (key : K) : List EventEnvelope :=
  ((index key).getD []).filterMap fun i => events[i]?

end Index

structure InMemoryEventStore where
  events : List EventEnvelope := []
  streamVersions : StreamId → Option Int := fun _ => none
  streamEvents : Index StreamId := fun _ => none
  aggregateEvents : Index EntityId := fun _ => none
  globalSequence : Int := 0

def usizeMax : Nat := 2 ^ 64 - 1

namespace InMemoryEventStore

/-- The loop that assigns versions and sequence numbers. -/
def assign (nextStreamVersion globalSequence : Int) : List EventEnvelope → List EventEnvelope
  | [] => []
  | event :: rest =>
    { event with streamVersion := nextStreamVersion, globalSequence := globalSequence + 1 } ::
      assign (nextStreamVersion + 1) (globalSequence + 1) rest

/-- The loop that indexes the envelopes. `new` gives what `EntityId::new` draws for the one at an index. -/
def indexEvents (new : Nat → EntityId) (streamId : StreamId) (i : Nat) :
    List EventEnvelope → InMemoryEventStore → InMemoryEventStore
  | [], store => store
  | event :: rest, store =>
    indexEvents new streamId (i + 1) rest
      { store with
        streamEvents := store.streamEvents.push streamId i
        aggregateEvents := store.aggregateEvents.push (event.metadata.userId.getD (new i)) i }

/-- `append_events`; none is a concurrency conflict. -/
def appendEvents (new : Nat → EntityId) (store : InMemoryEventStore) (streamId : StreamId) (expectedVersion : Option Int)
    (events : List EventEnvelope) : Option InMemoryEventStore :=
  let current := (store.streamVersions streamId).getD 0
  if expectedVersion.any (current ≠ ·) then none
  else
    let events := assign (current + 1) store.globalSequence events
    let indexed := indexEvents new streamId store.events.length events store
    some
      { indexed with
        streamVersions := Function.update store.streamVersions streamId (some (current + events.length))
        events := store.events ++ events
        globalSequence := store.globalSequence + events.length }

/-- The envelopes that `read_stream` takes from. -/
def ofStream (store : InMemoryEventStore) (streamId : StreamId) (fromVersion : Option Int) : List EventEnvelope :=
  (store.streamEvents.select store.events streamId).filter (fromVersion.getD 1 ≤ ·.streamVersion)

def readStream (store : InMemoryEventStore) (streamId : StreamId) (fromVersion : Option Int) (maxCount : Option Nat) :
    List EventEnvelope :=
  (store.ofStream streamId fromVersion).take (maxCount.getD usizeMax)

/-- The envelopes that `read_events_by_type` takes from. -/
def ofType (store : InMemoryEventStore) (eventType : EventType) (fromTimestamp : Option Timestamp) :
    List EventEnvelope :=
  store.events.filter fun event => event.eventType = eventType ∧ fromTimestamp.getD 0 ≤ event.recordedAt

def readEventsByType (store : InMemoryEventStore) (eventType : EventType) (fromTimestamp : Option Timestamp)
    (maxCount : Option Nat) : List EventEnvelope :=
  (store.ofType eventType fromTimestamp).take (maxCount.getD usizeMax)

def readAggregateEvents (store : InMemoryEventStore) (aggregateId : EntityId) (fromVersion : Option Int) :
    List EventEnvelope :=
  (store.aggregateEvents.select store.events aggregateId).filter (fromVersion.getD 1 ≤ ·.streamVersion)

/-- The envelopes that `read_events_from_sequence` takes from. -/
def fromSequence (store : InMemoryEventStore) (sequence : Int) : List EventEnvelope :=
  store.events.filter (sequence ≤ ·.globalSequence)

def readEventsFromSequence (store : InMemoryEventStore) (sequence : Int) (maxCount : Option Nat) : List EventEnvelope :=
  (store.fromSequence sequence).take (maxCount.getD usizeMax)

def deleteStream (store : InMemoryEventStore) (streamId : StreamId) : InMemoryEventStore :=
  { store with
    streamVersions := Function.update store.streamVersions streamId none
    streamEvents := Function.update store.streamEvents streamId none }

end InMemoryEventStore

/-! ## Indices -/

namespace Index

variable {K : Type} [DecidableEq K] {index : Index K} {events more : List EventEnvelope}

/-- The indices lead into the first `n` places. -/
def Bounded (index : Index K) (n : Nat) : Prop :=
  ∀ key, ∀ i ∈ (index key).getD [], i < n

theorem Bounded.push {n : Nat} (h : index.Bounded n) (key : K) : (index.push key n).Bounded (n + 1) := by
  intro other i hi
  unfold Index.push at hi
  by_cases hkey : other = key
  · subst hkey
    rw [Function.update_self] at hi
    rcases List.mem_append.1 hi with hold | hnew
    · have := h other i hold
      omega
    · rw [List.mem_singleton.1 hnew]
      omega
  · rw [Function.update_of_ne hkey] at hi
    have := h other i hi
    omega

theorem select_push (index : Index K) (events : List EventEnvelope) (key other : K) (i : Nat) :
    (index.push key i).select events other = index.select events other ++ if other = key then events[i]?.toList else [] := by
  unfold select push
  by_cases hkey : other = key
  · subst hkey
    rw [Function.update_self, if_pos rfl, Option.getD_some, List.filterMap_append]
    congr 1
  · rw [Function.update_of_ne hkey, if_neg hkey, List.append_nil]

omit [DecidableEq K] in
/-- What stands further behind is not led to. -/
theorem Bounded.select_append (h : index.Bounded events.length) (key : K) :
    index.select (events ++ more) key = index.select events key := by
  unfold select
  apply List.filterMap_congr
  intro i hi
  exact List.getElem?_append_left (h key i hi)

end Index

namespace InMemoryEventStore

variable {new : Nat → EntityId} {streamId : StreamId} {events all : List EventEnvelope}

@[simp] theorem length_assign (next sequence : Int) (events : List EventEnvelope) :
    (assign next sequence events).length = events.length := by
  induction events generalizing next sequence with
  | nil => rfl
  | cons event rest ih => simp [assign, ih]

/-- The numbers that are assigned follow the sequence. -/
theorem assign_sequences (next sequence : Int) (events : List EventEnvelope) :
    (∀ event ∈ assign next sequence events,
      sequence < event.globalSequence ∧ event.globalSequence ≤ sequence + events.length) ∧
    (assign next sequence events).Pairwise fun a b => a.globalSequence < b.globalSequence := by
  induction events generalizing next sequence with
  | nil => exact ⟨fun _ hevent => absurd hevent List.not_mem_nil, List.Pairwise.nil⟩
  | cons event rest ih =>
    obtain ⟨hbounds, hpairwise⟩ := ih (next + 1) (sequence + 1)
    rw [List.length_cons]
    push_cast
    constructor
    · intro other hother
      rcases List.mem_cons.1 hother with rfl | hrest
      · show sequence < sequence + 1 ∧ sequence + 1 ≤ _
        omega
      · have := hbounds other hrest
        omega
    · refine List.pairwise_cons.2 ⟨fun other hother => ?_, hpairwise⟩
      exact (hbounds other hother).1

theorem indexEvents_bounded (store : InMemoryEventStore) (i : Nat) (hstream : store.streamEvents.Bounded i)
    (haggregate : store.aggregateEvents.Bounded i) :
    (indexEvents new streamId i events store).streamEvents.Bounded (i + events.length) ∧
      (indexEvents new streamId i events store).aggregateEvents.Bounded (i + events.length) := by
  induction events generalizing store i with
  | nil => exact ⟨hstream, haggregate⟩
  | cons event rest ih =>
    have hrest := ih
      { store with
        streamEvents := store.streamEvents.push streamId i
        aggregateEvents := store.aggregateEvents.push (event.metadata.userId.getD (new i)) i }
      (i + 1) (hstream.push _) (haggregate.push _)
    rwa [List.length_cons, Nat.add_comm rest.length, ← Nat.add_assoc]

theorem at_of_drop {i : Nat} {event : EventEnvelope} {rest : List EventEnvelope} (h : all.drop i = event :: rest) :
    all[i]? = some event ∧ all.drop (i + 1) = rest := by
  have hhead := congrArg (·[0]?) h
  have htail := congrArg List.tail h
  rw [List.tail_drop] at htail
  exact ⟨by simpa using hhead, htail⟩

/-- The loop adds the envelopes to those of their stream. -/
theorem select_indexEvents (store : InMemoryEventStore) (i : Nat) (hall : all.drop i = events) (stream : StreamId) :
    (indexEvents new streamId i events store).streamEvents.select all stream =
      store.streamEvents.select all stream ++ if stream = streamId then events else [] := by
  induction events generalizing store i with
  | nil => simp [indexEvents]
  | cons event rest ih =>
    obtain ⟨hget, hrest⟩ := at_of_drop hall
    unfold indexEvents
    rw [ih _ (i + 1) hrest, Index.select_push, hget]
    split <;> simp

/-- The aggregate that an envelope is indexed under. -/
def owner (new : Nat → EntityId) (entry : EventEnvelope × Nat) : EntityId :=
  entry.1.metadata.userId.getD (new entry.2)

/-- The loop adds the envelopes to those of their aggregates. -/
theorem select_aggregate (store : InMemoryEventStore) (i : Nat) (hall : all.drop i = events) (aggregate : EntityId) :
    (indexEvents new streamId i events store).aggregateEvents.select all aggregate =
      store.aggregateEvents.select all aggregate ++
        ((events.zipIdx i).filter (owner new · = aggregate)).map (·.1) := by
  induction events generalizing store i with
  | nil => simp [indexEvents]
  | cons event rest ih =>
    obtain ⟨hget, hrest⟩ := at_of_drop hall
    unfold indexEvents
    rw [ih _ (i + 1) hrest, Index.select_push, hget, List.zipIdx_cons, List.filter_cons]
    by_cases howner : aggregate = event.metadata.userId.getD (new i)
    · subst howner
      simp [owner]
    · have hother : ¬owner new (event, i) = aggregate := fun heq => howner heq.symm
      simp [howner, hother]

theorem deleteStream_versions (store : InMemoryEventStore) (streamId stream : StreamId) :
    (store.deleteStream streamId).streamVersions stream = if stream = streamId then none else store.streamVersions stream := by
  unfold deleteStream
  split
  · next heq => simp [heq]
  · next hne => simp [hne]

theorem deleteStream_streams (store : InMemoryEventStore) (streamId stream : StreamId) :
    (store.deleteStream streamId).streamEvents stream = if stream = streamId then none else store.streamEvents stream := by
  unfold deleteStream
  split
  · next heq => simp [heq]
  · next hne => simp [hne]

end InMemoryEventStore

end Atomo.Events

import Atomo.Events.Envelope

/-!
# The event store in PostgreSQL

`PostgresEventStore` with statements that run one after the other. What the server holds of a value in a column,
and in which order it returns rows that were recorded at one time, is its own decision.
-/

namespace Atomo.Events

/-- What the columns of `events` hold of a value, none where it is refused, and the order of `ORDER BY
recorded_at ASC`. -/
structure EventServer where
  jsonb : Json → Option Json
  metadata : EventMetadata → Option EventMetadata
  timestamptz : Timestamp → Option Timestamp
  byRecordedAt : List EventEnvelope → List EventEnvelope
  byRecordedAt_perm : ∀ events, (byRecordedAt events).Perm events
  byRecordedAt_sorted : ∀ events, (byRecordedAt events).Pairwise fun a b => a.recordedAt ≤ b.recordedAt

structure PostgresEventStore where
  rows : List EventEnvelope := []
  lastSequence : Int := 0

namespace PostgresEventStore

variable (server : EventServer)

/-- The envelope that is read of a row that one was bound to. -/
def held (event : EventEnvelope) : Option EventEnvelope := do
  let metadata ← server.metadata event.metadata
  let payload ← server.jsonb event.payload
  let recordedAt ← server.timestamptz event.recordedAt
  some { event with metadata, payload, recordedAt }

/-- The loop of insertions, and whether all went well. -/
def insertEvents : List EventEnvelope → PostgresEventStore → PostgresEventStore × Bool
  | [], store => (store, true)
  | event :: rest, store =>
    match held server event with
    | none => (store, false)
    | some event =>
      let event := { event with globalSequence := store.lastSequence + 1 }
      let store := { store with lastSequence := store.lastSequence + 1 }
      if store.rows.any (·.clashes event) then (store, false)
      else insertEvents rest { store with rows := store.rows ++ [event] }

/-- `append_events`, and whether it went well. A rollback leaves the sequence where it is. -/
def appendEvents (store : PostgresEventStore) (streamId : StreamId) (expectedVersion : Option Int)
    (events : List EventEnvelope) : PostgresEventStore × Bool :=
  if events.isEmpty then (store, true)
  else
    let current := (streamVersion store.rows streamId).getD 0
    if expectedVersion.any (current ≠ ·) then (store, false)
    else
      match insertEvents server events store with
      | (inserted, true) => (inserted, true)
      | (inserted, false) => ({ store with lastSequence := inserted.lastSequence }, false)

def readStream (store : PostgresEventStore) (streamId : StreamId) (fromVersion : Option Int) (maxCount : Option Nat) :
    Option (List EventEnvelope) :=
  (sqlLimit maxCount).map fun limit =>
    ((store.rows.filter fun event => event.streamId = streamId ∧ fromVersion.getD 1 ≤ event.streamVersion).insertionSort
      fun a b => a.streamVersion ≤ b.streamVersion).take limit

def readEventsByType (store : PostgresEventStore) (eventType : EventType) (fromTimestamp : Option Timestamp)
    (maxCount : Option Nat) : Option (List EventEnvelope) := do
  let fromTime ← server.timestamptz (fromTimestamp.getD 0)
  let limit ← sqlLimit maxCount
  some ((server.byRecordedAt
    (store.rows.filter fun event => event.eventType = eventType ∧ fromTime ≤ event.recordedAt)).take limit)

def readAggregateEvents (store : PostgresEventStore) (aggregateId : EntityId) (fromVersion : Option Int) :
    List EventEnvelope :=
  server.byRecordedAt
    (store.rows.filter fun event => event.metadata.userId = some aggregateId ∧ fromVersion.getD 1 ≤ event.streamVersion)

def deleteStream (store : PostgresEventStore) (streamId : StreamId) : PostgresEventStore :=
  { store with rows := store.rows.filter (·.streamId ≠ streamId) }

variable {server}

theorem held_eventId {event row : EventEnvelope} (h : held server event = some row) : row.eventId = event.eventId := by
  unfold held at h
  obtain ⟨metadata, -, h⟩ := Option.bind_eq_some_iff.1 h
  obtain ⟨payload, -, h⟩ := Option.bind_eq_some_iff.1 h
  obtain ⟨recordedAt, -, h⟩ := Option.bind_eq_some_iff.1 h
  rw [← Option.some.inj h]

/-- The ids that are stored are old ones or of the envelopes. -/
theorem insertEvents_ids (server : EventServer) (events : List EventEnvelope) (store : PostgresEventStore) :
    ((insertEvents server events store).1.rows.map (·.eventId)).Sublist
      (store.rows.map (·.eventId) ++ events.map (·.eventId)) := by
  induction events generalizing store with
  | nil => exact List.sublist_append_left _ _
  | cons event rest ih =>
    unfold insertEvents
    cases hheld : held server event with
    | none => exact List.sublist_append_left _ _
    | some row =>
      dsimp only
      split
      · exact List.sublist_append_left _ _
      · have hrest := ih
          { lastSequence := store.lastSequence + 1
            rows := store.rows ++ [{ row with globalSequence := store.lastSequence + 1 }] }
        simpa [held_eventId hheld] using hrest

theorem appendEvents_ids (server : EventServer) (store : PostgresEventStore) (streamId : StreamId) (expectedVersion : Option Int)
    (events : List EventEnvelope) :
    ((appendEvents server store streamId expectedVersion events).1.rows.map (·.eventId)).Sublist
      (store.rows.map (·.eventId) ++ events.map (·.eventId)) := by
  have hids := insertEvents_ids server events store
  have hkept := List.sublist_append_left (store.rows.map (·.eventId)) (events.map (·.eventId))
  unfold appendEvents
  dsimp only
  split
  · exact hkept
  · split
    · exact hkept
    · split
      · next hinserted =>
        rw [hinserted] at hids
        exact hids
      · exact hkept

/-- Envelopes with the numbers that are drawn for them. -/
def sequenced (lastSequence : Int) : List EventEnvelope → List EventEnvelope
  | [] => []
  | event :: rest => { event with globalSequence := lastSequence + 1 } :: sequenced (lastSequence + 1) rest

/-- Envelopes that the columns hold and that clash with no row and not with one another are all inserted. -/
theorem insertEvents_eq {events : List EventEnvelope} {store : PostgresEventStore}
    (hheld : ∀ event ∈ events, held server event = some event)
    (hfree : ∀ event ∈ events, ∀ row ∈ store.rows, row.clashes event = false)
    (hapart : events.Pairwise fun a b => a.clashes b = false) :
    insertEvents server events store =
      (⟨store.rows ++ sequenced store.lastSequence events, store.lastSequence + events.length⟩, true) := by
  induction events generalizing store with
  | nil => simp [insertEvents, sequenced]
  | cons event rest ih =>
    obtain ⟨hbehind, hapart⟩ := List.pairwise_cons.1 hapart
    have hnone : store.rows.any (·.clashes { event with globalSequence := store.lastSequence + 1 }) = false := by
      apply List.any_eq_false.2
      intro row hrow hclash
      have hfalse := hfree event List.mem_cons_self row hrow
      exact absurd (hclash.symm.trans hfalse) (by simp)
    unfold insertEvents
    rw [hheld event List.mem_cons_self]
    simp only [hnone, Bool.false_eq_true, if_false]
    rw [ih (fun other hother => hheld other (List.mem_cons_of_mem event hother)) ?_ hapart]
    · have hlength : store.lastSequence + 1 + (rest.length : Int) = store.lastSequence + ((rest.length + 1 : Nat) : Int) := by
        push_cast
        omega
      simp only [List.append_assoc, List.singleton_append, List.length_cons, hlength, sequenced]
    · intro other hother row hrow
      rcases List.mem_append.1 hrow with hold | hnew
      · exact hfree other (List.mem_cons_of_mem event hother) row hold
      · rw [List.mem_singleton.1 hnew]
        exact hbehind other hother

end PostgresEventStore

end Atomo.Events

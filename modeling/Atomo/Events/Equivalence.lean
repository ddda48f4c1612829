import Atomo.Events.MemoryStore
import Atomo.Events.PostgresStore
import Atomo.Lib.Selection

/-!
# Two event stores

What a caller of the trait `EventStore` is answered by the store in memory and by the one in PostgreSQL. They
agree as long as envelopes come numbered as the store in memory would number them, and as nothing shows where the
two differ: empty appends, deleted streams, limits, the order of rows, envelopes that name no user.
-/

namespace Atomo.Events

/-- A call of an event store. -/
inductive Call where
  | appendEvents (streamId : StreamId) (expectedVersion : Option Int) (events : List EventEnvelope)
  | readStream (streamId : StreamId) (fromVersion : Option Int) (maxCount : Option Nat)
  | readEventsByType (eventType : EventType) (fromTimestamp : Option Timestamp) (maxCount : Option Nat)
  | readAggregateEvents (aggregateId : EntityId) (fromVersion : Option Int)
  | readEventsFromSequence (fromSequence : Int) (maxCount : Option Nat)
  | getStreamVersion (streamId : StreamId)
  | streamExists (streamId : StreamId)
  | deleteStream (streamId : StreamId)

inductive Answer where
  | done
  | events (list : List EventEnvelope)
  | version (version : Option Int)
  | existence (found : Bool)
  deriving DecidableEq

/-- An answer but for the numbers of its events. -/
def Answer.unnumbered : Answer → Answer
  | events list => events (list.map fun event => { event with globalSequence := 0 })
  | answer => answer

/-- A call of the store in memory; no answer is an error. -/
def InMemoryEventStore.serve (new : Nat → EntityId) (store : InMemoryEventStore) :
    Call → InMemoryEventStore × Option Answer
  | .appendEvents streamId expectedVersion events =>
    match store.appendEvents new streamId expectedVersion events with
    | some store => (store, some .done)
    | none => (store, none)
  | .readStream streamId fromVersion maxCount => (store, some (.events (store.readStream streamId fromVersion maxCount)))
  | .readEventsByType eventType fromTimestamp maxCount =>
    (store, some (.events (store.readEventsByType eventType fromTimestamp maxCount)))
  | .readAggregateEvents aggregateId fromVersion =>
    (store, some (.events (store.readAggregateEvents aggregateId fromVersion)))
  | .readEventsFromSequence fromSequence maxCount =>
    (store, some (.events (store.readEventsFromSequence fromSequence maxCount)))
  | .getStreamVersion streamId => (store, some (.version (store.streamVersions streamId)))
  | .streamExists streamId => (store, some (.existence (store.streamVersions streamId).isSome))
  | .deleteStream streamId => (store.deleteStream streamId, some .done)

/-- A call of the store in PostgreSQL. -/
def PostgresEventStore.serve (server : EventServer) (store : PostgresEventStore) :
    Call → PostgresEventStore × Option Answer
  | .appendEvents streamId expectedVersion events =>
    match store.appendEvents server streamId expectedVersion events with
    | (store, true) => (store, some .done)
    | (store, false) => (store, none)
  | .readStream streamId fromVersion maxCount => (store, (store.readStream streamId fromVersion maxCount).map .events)
  | .readEventsByType eventType fromTimestamp maxCount =>
    (store, (store.readEventsByType server eventType fromTimestamp maxCount).map .events)
  | .readAggregateEvents aggregateId fromVersion =>
    (store, some (.events (store.readAggregateEvents server aggregateId fromVersion)))
  | .readEventsFromSequence fromSequence maxCount =>
    (store, (selectFromSequence store.rows fromSequence maxCount).map .events)
  | .getStreamVersion streamId => (store, some (.version (streamVersion store.rows streamId)))
  | .streamExists streamId => (store, some (.existence (store.rows.any (·.streamId = streamId))))
  | .deleteStream streamId => (store.deleteStream streamId, some .done)

/-- What a list of calls is answered. -/
def answers {Store : Type} (serve : Store → Call → Store × Option Answer) : Store → List Call → List (Option Answer)
  | _, [] => []
  | store, call :: rest => (serve store call).2 :: answers serve (serve store call).1 rest

/-- The envelopes of an append are of its stream. -/
def Call.Proper : Call → Prop
  | .appendEvents streamId _ events => ∀ event ∈ events, event.streamId = streamId
  | _ => True

def Call.eventIds : Call → List EntityId
  | .appendEvents _ _ events => events.map (·.eventId)
  | _ => []

/-! ## Where the stores do not differ -/

/-- A limit that both stores keep to alike, where so many envelopes qualify. -/
def Within (maxCount : Option Nat) (qualifying : Nat) : Prop :=
  match maxCount with
  | some max => max < 2 ^ 63
  | none => qualifying ≤ 1000

/-- The versions of some envelopes follow a version. -/
def Follow (current : Int) (events : List EventEnvelope) : Prop :=
  events.map (·.streamVersion) = (List.range events.length).map fun k : Nat => current + k + 1

/-- Where the store in memory stands at `m` and the one in PostgreSQL at `p`. An envelope of a stream that was deleted is
in `m.events` and not in `p.rows`. -/
def AlikeFor (server : EventServer) (m : InMemoryEventStore) (p : PostgresEventStore) : Call → Prop
  | .appendEvents streamId expectedVersion events =>
    let current := (m.streamVersions streamId).getD 0
    if events = [] then (m.streamVersions streamId).isSome ∧ ∀ expected, expectedVersion = some expected → current = expected
    else
      (∃ expected, expectedVersion = some expected ∧ current ≠ expected) ∨
        Follow current events ∧ ∀ event ∈ events, PostgresEventStore.held server event = some event
  | .readStream streamId fromVersion maxCount => Within maxCount (m.ofStream streamId fromVersion).length
  | .readEventsByType eventType fromTimestamp maxCount =>
    let qualifying := m.ofType eventType fromTimestamp
    Within maxCount qualifying.length ∧
      (∃ fromTime, server.timestamptz (fromTimestamp.getD 0) = some fromTime ∧
        ∀ row ∈ p.rows, row.eventType = eventType →
          (fromTime ≤ row.recordedAt ↔ fromTimestamp.getD 0 ≤ row.recordedAt)) ∧
      (∀ event ∈ qualifying.take (maxCount.getD 1000), event ∈ p.rows) ∧
      (qualifying.filter (· ∈ p.rows)).FirstPrecede (·.recordedAt) (maxCount.getD 1000)
  | .readAggregateEvents aggregateId fromVersion =>
    let qualifying := m.readAggregateEvents aggregateId fromVersion
    (∀ event ∈ qualifying, event ∈ p.rows ∧ event.metadata.userId = some aggregateId) ∧
      qualifying.Pairwise fun a b => a.recordedAt < b.recordedAt
  | .readEventsFromSequence fromSequence maxCount =>
    Within maxCount (m.fromSequence fromSequence).length ∧
      ∀ event ∈ (m.fromSequence fromSequence).take (maxCount.getD 1000), event ∈ p.rows
  | .getStreamVersion _ => True
  | .streamExists _ => True
  | .deleteStream _ => True

/-- Each call of a list is served where the stores do not differ. -/
def AlikeAll (server : EventServer) (new : Nat → EntityId) (m : InMemoryEventStore) (p : PostgresEventStore) :
    List Call → Prop
  | [] => True
  | call :: rest =>
    AlikeFor server m p call ∧ AlikeAll server new (m.serve new call).1 (p.serve server call).1 rest

/-- The versions of a stream are numbered through. -/
def Through (rows : List EventEnvelope) (stream : StreamId) : Prop :=
  Follow 0 (rows.filter (·.streamId = stream))

/-- What the two stores have in common. -/
structure Agree (new : Nat → EntityId) (m : InMemoryEventStore) (p : PostgresEventStore) : Prop where
  sequence : m.globalSequence = p.lastSequence
  numbered : m.events.Pairwise fun a b => a.globalSequence < b.globalSequence
  below : ∀ event ∈ m.events, event.globalSequence ≤ m.globalSequence
  rows : p.rows.Sublist m.events
  through : ∀ stream, Through p.rows stream
  versions : ∀ stream, m.streamVersions stream = streamVersion p.rows stream
  streams : ∀ stream, m.streamEvents.select m.events stream = p.rows.filter (·.streamId = stream)
  aggregates : ∀ aggregate, m.aggregateEvents.select m.events aggregate =
    (m.events.zipIdx.filter (InMemoryEventStore.owner new · = aggregate)).map (·.1)
  streamsBounded : m.streamEvents.Bounded m.events.length
  aggregatesBounded : m.aggregateEvents.Bounded m.events.length

variable {server : EventServer} {new : Nat → EntityId} {m : InMemoryEventStore} {p : PostgresEventStore}
  {rows events : List EventEnvelope} {streamId : StreamId} {current : Int}

/-! ## Versions -/

theorem Follow.mem (h : Follow current events) {event : EventEnvelope} (hevent : event ∈ events) :
    current + 1 ≤ event.streamVersion ∧ event.streamVersion ≤ current + events.length := by
  have hin := List.mem_map_of_mem (f := (·.streamVersion)) hevent
  rw [h, List.mem_map] at hin
  obtain ⟨k, hk, heq⟩ := hin
  have := List.mem_range.1 hk
  omega

theorem Follow.increasing (h : Follow current events) : events.Pairwise fun a b => a.streamVersion < b.streamVersion := by
  have hpairwise : (events.map (·.streamVersion)).Pairwise (· < ·) := by
    rw [h, List.pairwise_map]
    apply List.pairwise_lt_range.imp
    intro a b hlt
    omega
  exact List.pairwise_map.1 hpairwise

theorem Follow.append {more : List EventEnvelope} (h : Follow current events) (hmore : Follow (current + events.length) more) :
    Follow current (events ++ more) := by
  unfold Follow at *
  rw [List.map_append, h, hmore, List.length_append, List.range_add, List.map_append, List.map_map]
  congr 1
  apply List.map_congr_left
  intro k _
  simp only [Function.comp_apply]
  push_cast
  omega

/-- The last version of a stream that is numbered through. -/
theorem Through.streamVersion (h : Through rows streamId) :
    streamVersion rows streamId =
      if (rows.filter (·.streamId = streamId)).length = 0 then none
      else some ((rows.filter (·.streamId = streamId)).length : Int) := by
  unfold Events.streamVersion
  split
  · next hzero =>
    rw [List.length_eq_zero_iff.1 hzero]
    rfl
  · next hne =>
    rw [List.max?_eq_some_iff]
    constructor
    · rw [h, List.mem_map]
      exact ⟨(rows.filter (·.streamId = streamId)).length - 1, List.mem_range.2 (by omega), by omega⟩
    · intro v hv
      obtain ⟨event, hevent, rfl⟩ := List.mem_map.1 hv
      have := Follow.mem h hevent
      omega

theorem Through.streamVersion_getD (h : Through rows streamId) :
    (Events.streamVersion rows streamId).getD 0 = (rows.filter (·.streamId = streamId)).length := by
  rw [h.streamVersion]
  split
  · next hzero => rw [hzero]; rfl
  · rfl

/-! ## Appending -/

/-- What is numbered already gets sequence numbers only. -/
theorem assign_eq_sequenced (h : Follow current events) (lastSequence : Int) :
    InMemoryEventStore.assign (current + 1) lastSequence events = PostgresEventStore.sequenced lastSequence events := by
  induction events generalizing current lastSequence with
  | nil => rfl
  | cons event rest ih =>
    unfold Follow at h
    rw [List.map_cons, List.length_cons, List.range_succ_eq_map, List.map_cons, List.map_map] at h
    obtain ⟨hversion, hrest⟩ := List.cons.inj h
    have hversion' : event.streamVersion = current + 1 := by
      rw [hversion]
      simp
    have hfollow : Follow (current + 1) rest := by
      unfold Follow
      rw [hrest]
      apply List.map_congr_left
      intro k _
      simp only [Function.comp_apply]
      push_cast
      omega
    unfold InMemoryEventStore.assign PostgresEventStore.sequenced
    rw [ih hfollow, ← hversion']

theorem map_sequenced {β : Type} (f : EventEnvelope → β) (hf : ∀ (event : EventEnvelope) (n : Int), f { event with globalSequence := n } = f event)
    (lastSequence : Int) (events : List EventEnvelope) :
    (PostgresEventStore.sequenced lastSequence events).map f = events.map f := by
  induction events generalizing lastSequence with
  | nil => rfl
  | cons event rest ih =>
    unfold PostgresEventStore.sequenced
    rw [List.map_cons, List.map_cons, hf, ih]

theorem sequenced_stream (h : ∀ event ∈ events, event.streamId = streamId) (lastSequence : Int) :
    ∀ event ∈ PostgresEventStore.sequenced lastSequence events, event.streamId = streamId := by
  intro event hevent
  have hin := List.mem_map_of_mem (f := (·.streamId)) hevent
  rw [map_sequenced _ (fun _ _ => rfl)] at hin
  obtain ⟨other, hother, heq⟩ := List.mem_map.1 hin
  rw [← heq]
  exact h other hother

/-- Rows of another stream do not matter to one. -/
theorem filter_append_stream (hstream : ∀ event ∈ events, event.streamId = streamId) (rows : List EventEnvelope)
    (stream : StreamId) :
    (rows ++ events).filter (·.streamId = stream) =
      rows.filter (·.streamId = stream) ++ if stream = streamId then events else [] := by
  rw [List.filter_append]
  congr 1
  split
  · next heq =>
    subst heq
    exact List.filter_eq_self.2 fun event hevent => decide_eq_true (hstream event hevent)
  · next hne =>
    apply List.filter_eq_nil_iff.2
    intro event hevent heq
    exact hne ((of_decide_eq_true heq).symm.trans (hstream event hevent))

/-- The store in memory behind an append of envelopes that have got their numbers. -/
def InMemoryEventStore.extended (new : Nat → EntityId) (m : InMemoryEventStore) (streamId : StreamId)
    (events : List EventEnvelope) : InMemoryEventStore :=
  { indexEvents new streamId m.events.length events m with
    streamVersions := Function.update m.streamVersions streamId (some ((m.streamVersions streamId).getD 0 + events.length))
    events := m.events ++ events
    globalSequence := m.globalSequence + events.length }

theorem Agree.last (h : Agree new m p) (streamId : StreamId) :
    (m.streamVersions streamId).getD 0 = (p.rows.filter (·.streamId = streamId)).length := by
  rw [h.versions, (h.through streamId).streamVersion_getD]

/-- Both stores take the envelopes in. -/
theorem Agree.extended (h : Agree new m p) (hne : events ≠ []) (hstream : ∀ event ∈ events, event.streamId = streamId)
    (hfollow : Follow ((m.streamVersions streamId).getD 0) events)
    (hbounds : ∀ event ∈ events, m.globalSequence < event.globalSequence ∧
      event.globalSequence ≤ m.globalSequence + events.length)
    (hincreasing : events.Pairwise fun a b => a.globalSequence < b.globalSequence) :
    Agree new (m.extended new streamId events) ⟨p.rows ++ events, p.lastSequence + events.length⟩ := by
  have hdrop : (m.events ++ events).drop m.events.length = events := List.drop_left
  have hthrough : ∀ stream, Through (p.rows ++ events) stream := by
    intro stream
    unfold Through
    rw [filter_append_stream hstream]
    split
    · next heq =>
      subst heq
      apply (h.through stream).append
      rw [Int.zero_add, ← h.last]
      exact hfollow
    · rw [List.append_nil]
      exact h.through stream
  have hbounded : (InMemoryEventStore.indexEvents new streamId m.events.length events m).streamEvents.Bounded _ ∧
      (InMemoryEventStore.indexEvents new streamId m.events.length events m).aggregateEvents.Bounded _ :=
    InMemoryEventStore.indexEvents_bounded m m.events.length h.streamsBounded h.aggregatesBounded
  refine
    { sequence := ?_, numbered := ?_, below := ?_, rows := h.rows.append_right events, through := hthrough, versions := ?_,
      streams := ?_, aggregates := ?_, streamsBounded := ?_, aggregatesBounded := ?_ }
  · show m.globalSequence + _ = _
    rw [h.sequence]
  · refine List.pairwise_append.2 ⟨h.numbered, hincreasing, fun a ha b hb => ?_⟩
    have hle := h.below a ha
    have hlt := (hbounds b hb).1
    omega
  · intro event hevent
    show event.globalSequence ≤ m.globalSequence + events.length
    rcases List.mem_append.1 hevent with hold | hnew
    · have := h.below event hold
      omega
    · exact (hbounds event hnew).2
  · intro stream
    rw [(hthrough stream).streamVersion, filter_append_stream hstream]
    show Function.update m.streamVersions streamId _ stream = _
    by_cases heq : stream = streamId
    · subst heq
      have hpos := List.length_pos_iff.2 hne
      rw [Function.update_self, if_pos rfl, h.last, List.length_append, if_neg (by omega)]
      push_cast
      rfl
    · rw [Function.update_of_ne heq, if_neg heq, List.append_nil, h.versions, (h.through stream).streamVersion]
  · intro stream
    show (InMemoryEventStore.indexEvents new streamId _ events m).streamEvents.select (m.events ++ events) stream = _
    rw [InMemoryEventStore.select_indexEvents m _ hdrop, h.streamsBounded.select_append, h.streams,
      filter_append_stream hstream]
  · intro aggregate
    show (InMemoryEventStore.indexEvents new streamId _ events m).aggregateEvents.select (m.events ++ events) aggregate = _
    rw [InMemoryEventStore.select_aggregate m _ hdrop, h.aggregatesBounded.select_append, h.aggregates]
    show _ = ((m.events ++ events).zipIdx.filter _).map _
    rw [List.zipIdx_append, List.filter_append, List.map_append, Nat.zero_add]
  · show (InMemoryEventStore.indexEvents new streamId _ events m).streamEvents.Bounded (m.events ++ events).length
    rw [List.length_append]
    exact hbounded.1
  · show (InMemoryEventStore.indexEvents new streamId _ events m).aggregateEvents.Bounded (m.events ++ events).length
    rw [List.length_append]
    exact hbounded.2

/-! ## Deleting -/

theorem filter_other_stream {stream : StreamId} (hne : stream ≠ streamId) :
    (rows.filter (·.streamId ≠ streamId)).filter (·.streamId = stream) = rows.filter (·.streamId = stream) := by
  rw [List.filter_filter]
  apply List.filter_congr
  intro event _
  by_cases heq : event.streamId = stream
  · simp [heq, hne]
  · simp [heq]

theorem filter_deleted_stream : (rows.filter (·.streamId ≠ streamId)).filter (·.streamId = streamId) = [] := by
  rw [List.filter_filter]
  apply List.filter_eq_nil_iff.2
  intro event _
  simp

theorem Agree.delete (h : Agree new m p) (streamId : StreamId) : Agree new (m.deleteStream streamId) (p.deleteStream streamId) where
  sequence := h.sequence
  numbered := h.numbered
  below := h.below
  rows := List.filter_sublist.trans h.rows
  through stream := by
    unfold Through PostgresEventStore.deleteStream
    by_cases heq : stream = streamId
    · subst heq
      rw [filter_deleted_stream]
      rfl
    · rw [filter_other_stream heq]
      exact h.through stream
  versions stream := by
    rw [InMemoryEventStore.deleteStream_versions]
    unfold PostgresEventStore.deleteStream streamVersion
    split
    · next heq =>
      subst heq
      rw [filter_deleted_stream]
      rfl
    · next hne =>
      rw [filter_other_stream hne]
      exact h.versions stream
  streams stream := by
    unfold Index.select PostgresEventStore.deleteStream
    rw [InMemoryEventStore.deleteStream_streams]
    split
    · next heq =>
      subst heq
      rw [filter_deleted_stream]
      rfl
    · next hne =>
      rw [filter_other_stream hne]
      exact h.streams stream
  aggregates := h.aggregates
  streamsBounded stream i hi := by
    rw [InMemoryEventStore.deleteStream_streams] at hi
    split at hi
    · cases hi
    · exact h.streamsBounded stream i hi
  aggregatesBounded := h.aggregatesBounded

/-! ## Reading -/

theorem Within.limit {maxCount : Option Nat} (h : Within maxCount events.length) :
    sqlLimit maxCount = some (maxCount.getD 1000) ∧ events.take (maxCount.getD usizeMax) = events.take (maxCount.getD 1000) := by
  unfold Within at h
  cases maxCount with
  | none =>
    have hle : events.length ≤ 1000 := h
    refine ⟨rfl, ?_⟩
    rw [List.take_of_length_le (by unfold usizeMax; simp; omega), List.take_of_length_le (by simpa using hle)]
  | some max => exact ⟨if_pos h, rfl⟩

theorem Agree.nodup (h : Agree new m p) : m.events.Nodup := by
  apply h.numbered.imp
  intro a b hlt heq
  rw [heq] at hlt
  omega

/-- What a filter leaves of the rows. -/
theorem Agree.rows_filter (h : Agree new m p) (q : EventEnvelope → Bool) :
    p.rows.filter q = (m.events.filter q).filter (· ∈ p.rows) := by
  conv_lhs => rw [← h.rows.filter_mem_eq h.nodup]
  rw [List.filter_filter, List.filter_filter]
  simp only [Bool.and_comm]

theorem Agree.readStream (h : Agree new m p) {fromVersion : Option Int} {maxCount : Option Nat}
    (hwithin : Within maxCount (m.ofStream streamId fromVersion).length) :
    p.readStream streamId fromVersion maxCount = some (m.readStream streamId fromVersion maxCount) := by
  obtain ⟨hlimit, htake⟩ := hwithin.limit
  unfold PostgresEventStore.readStream InMemoryEventStore.readStream
  rw [hlimit, htake, Option.map_some]
  congr 2
  have hsame : p.rows.filter (fun event => event.streamId = streamId ∧ fromVersion.getD 1 ≤ event.streamVersion) =
      m.ofStream streamId fromVersion := by
    unfold InMemoryEventStore.ofStream
    rw [h.streams, List.filter_filter]
    apply List.filter_congr
    intro event _
    simp [Bool.and_comm]
  rw [hsame]
  apply List.Pairwise.insertionSort_eq
  unfold InMemoryEventStore.ofStream
  rw [h.streams]
  apply ((Follow.increasing (h.through streamId)).filter _).imp
  intro a b hlt
  omega

theorem Agree.readEventsFromSequence (h : Agree new m p) {sequence : Int} {maxCount : Option Nat}
    (hwithin : Within maxCount (m.fromSequence sequence).length)
    (hkept : ∀ event ∈ (m.fromSequence sequence).take (maxCount.getD 1000), event ∈ p.rows) :
    selectFromSequence p.rows sequence maxCount = some (m.readEventsFromSequence sequence maxCount) := by
  obtain ⟨hlimit, htake⟩ := hwithin.limit
  unfold selectFromSequence InMemoryEventStore.readEventsFromSequence
  rw [hlimit, htake, Option.map_some]
  congr 1
  have hsorted : bySequence (p.rows.filter (sequence ≤ ·.globalSequence)) = p.rows.filter (sequence ≤ ·.globalSequence) := by
    apply List.Pairwise.insertionSort_eq
    apply ((h.numbered.sublist h.rows).filter _).imp
    intro a b hlt
    omega
  rw [hsorted, h.rows_filter]
  exact List.take_filter_of_forall fun event hevent => decide_eq_true (hkept event hevent)

theorem Agree.readEventsByType (h : Agree new m p) {eventType : EventType} {fromTimestamp : Option Timestamp}
    {maxCount : Option Nat} (halike : AlikeFor server m p (.readEventsByType eventType fromTimestamp maxCount)) :
    p.readEventsByType server eventType fromTimestamp maxCount =
      some (m.readEventsByType eventType fromTimestamp maxCount) := by
  obtain ⟨hwithin, ⟨fromTime, htime, hbound⟩, hkept, hprecede⟩ := halike
  obtain ⟨hlimit, htake⟩ := hwithin.limit
  have hrows : p.rows.filter (fun event => event.eventType = eventType ∧ fromTime ≤ event.recordedAt) =
      (m.ofType eventType fromTimestamp).filter (· ∈ p.rows) := by
    unfold InMemoryEventStore.ofType
    rw [← h.rows_filter]
    apply List.filter_congr
    intro row hrow
    by_cases htype : row.eventType = eventType
    · simp [htype, hbound row hrow htype]
    · simp [htype]
  unfold PostgresEventStore.readEventsByType InMemoryEventStore.readEventsByType
  rw [htime, hlimit, htake]
  show some _ = some _
  rw [hrows, hprecede.take_eq (server.byRecordedAt_perm _) (server.byRecordedAt_sorted _)]
  congr 1
  exact List.take_filter_of_forall fun event hevent => decide_eq_true (hkept event hevent)

theorem Agree.readAggregateEvents (h : Agree new m p) {aggregateId : EntityId} {fromVersion : Option Int}
    (halike : AlikeFor server m p (.readAggregateEvents aggregateId fromVersion)) :
    p.readAggregateEvents server aggregateId fromVersion = m.readAggregateEvents aggregateId fromVersion := by
  obtain ⟨hkept, hincreasing⟩ := halike
  have hsub : (m.readAggregateEvents aggregateId fromVersion).Sublist m.events := by
    unfold InMemoryEventStore.readAggregateEvents
    rw [h.aggregates]
    refine List.filter_sublist.trans ?_
    have hall := (List.filter_sublist (l := m.events.zipIdx)
      (p := fun entry => InMemoryEventStore.owner new entry = aggregateId)).map (·.1)
    rwa [List.zipIdx_map_fst] at hall
  have hrows : p.rows.filter (fun event => event.metadata.userId = some aggregateId ∧ fromVersion.getD 1 ≤ event.streamVersion) =
      m.readAggregateEvents aggregateId fromVersion := by
    apply (List.filter_sublist.trans h.rows).eq_of_mem_iff hsub h.nodup
    intro event
    constructor
    · intro hevent
      obtain ⟨hrow, hqualifies⟩ := List.mem_filter.1 hevent
      obtain ⟨huser, hversion⟩ := of_decide_eq_true hqualifies
      unfold InMemoryEventStore.readAggregateEvents
      rw [h.aggregates]
      refine List.mem_filter.2 ⟨?_, decide_eq_true hversion⟩
      obtain ⟨i, hi, rfl⟩ := List.getElem_of_mem (h.rows.subset hrow)
      refine List.mem_map.2 ⟨(m.events[i], i), List.mem_filter.2 ⟨?_, ?_⟩, rfl⟩
      · rw [List.mk_mem_zipIdx_iff_getElem?]
        exact List.getElem?_eq_getElem hi
      · simp [InMemoryEventStore.owner, huser]
    · intro hevent
      obtain ⟨hrow, huser⟩ := hkept event hevent
      have hversion := (List.mem_filter.1 hevent).2
      exact List.mem_filter.2 ⟨hrow, decide_eq_true ⟨huser, of_decide_eq_true hversion⟩⟩
  unfold PostgresEventStore.readAggregateEvents
  rw [hrows]
  exact List.eq_of_perm_of_pairwise hincreasing (server.byRecordedAt_perm _) (server.byRecordedAt_sorted _)

/-- A stream exists when it has a version. -/
theorem Agree.streamExists (h : Agree new m p) (streamId : StreamId) :
    p.rows.any (·.streamId = streamId) = (m.streamVersions streamId).isSome := by
  rw [h.versions, (h.through streamId).streamVersion]
  split
  · next hzero =>
    have hnil := List.filter_eq_nil_iff.1 (List.length_eq_zero_iff.1 hzero)
    exact List.any_eq_false.2 hnil
  · next hne =>
    obtain ⟨event, hevent⟩ := List.exists_mem_of_length_pos (Nat.pos_of_ne_zero hne)
    obtain ⟨hrow, hstream⟩ := List.mem_filter.1 hevent
    exact List.any_eq_true.2 ⟨event, hrow, hstream⟩

/-! ## A call after the other -/

/-- Envelopes that follow the rows of their stream, with ids of their own, clash with none. -/
theorem Agree.free (h : Agree new m p) (hstream : ∀ event ∈ events, event.streamId = streamId)
    (hfollow : Follow ((m.streamVersions streamId).getD 0) events)
    (hids : (p.rows.map (·.eventId) ++ events.map (·.eventId)).Nodup) :
    (∀ event ∈ events, ∀ row ∈ p.rows, row.clashes event = false) ∧ events.Pairwise fun a b => a.clashes b = false := by
  obtain ⟨-, hown, hapart⟩ := List.nodup_append.1 hids
  constructor
  · intro event hevent row hrow
    have hid : row.eventId ≠ event.eventId := hapart _ (List.mem_map_of_mem hrow) _ (List.mem_map_of_mem hevent)
    have hplace : row.place ≠ event.place := by
      intro hplace
      obtain ⟨hsame, hversion⟩ := Prod.mk.inj hplace
      rw [hstream event hevent] at hsame
      have hle := (Follow.mem (h.through streamId) (List.mem_filter.2 ⟨hrow, decide_eq_true hsame⟩)).2
      have hlt := (hfollow.mem hevent).1
      rw [h.last] at hlt
      omega
    simp [EventEnvelope.clashes, hid, hplace]
  · have hpairwise := (List.pairwise_map.1 hown).and hfollow.increasing
    apply hpairwise.imp
    intro a b hboth
    have hplace : a.place ≠ b.place := by
      intro hplace
      have hversion := (Prod.mk.inj hplace).2
      have hlt := hboth.2
      omega
    simp [EventEnvelope.clashes, hboth.1, hplace]

theorem Agree.append (h : Agree new m p) {expectedVersion : Option Int}
    (halike : AlikeFor server m p (.appendEvents streamId expectedVersion events))
    (hstream : ∀ event ∈ events, event.streamId = streamId)
    (hids : (p.rows.map (·.eventId) ++ events.map (·.eventId)).Nodup) :
    (m.serve new (.appendEvents streamId expectedVersion events)).2 =
        (p.serve server (.appendEvents streamId expectedVersion events)).2 ∧
      Agree new (m.serve new (.appendEvents streamId expectedVersion events)).1
        (p.serve server (.appendEvents streamId expectedVersion events)).1 := by
  have hcurrent : (streamVersion p.rows streamId).getD 0 = (m.streamVersions streamId).getD 0 := by rw [h.versions]
  unfold InMemoryEventStore.serve PostgresEventStore.serve InMemoryEventStore.appendEvents PostgresEventStore.appendEvents
  unfold AlikeFor at halike
  dsimp only at halike ⊢
  by_cases hempty : events = []
  · subst hempty
    rw [if_pos rfl] at halike
    obtain ⟨hsome, hexpected⟩ := halike
    obtain ⟨version, hversion⟩ := Option.isSome_iff_exists.1 hsome
    have hagrees : expectedVersion.any ((m.streamVersions streamId).getD 0 ≠ ·) = false := by
      cases expectedVersion with
      | none => rfl
      | some expected => simp [hexpected expected rfl]
    have hsame : Function.update m.streamVersions streamId (some version) = m.streamVersions := by
      rw [← hversion]
      exact Function.update_eq_self streamId m.streamVersions
    rw [hagrees]
    simpa [InMemoryEventStore.assign, InMemoryEventStore.indexEvents, hversion, hsame] using h
  · rw [if_neg hempty] at halike
    have hnonempty : events.isEmpty = false := by simpa using hempty
    rw [hcurrent, hnonempty]
    cases hconflict : expectedVersion.any ((m.streamVersions streamId).getD 0 ≠ ·) with
    | true => exact ⟨rfl, h⟩
    | false =>
      rcases halike with ⟨expected, hexpects, hdiffers⟩ | ⟨hfollow, hheld⟩
      · rw [hexpects] at hconflict
        simp [hdiffers] at hconflict
      · obtain ⟨hfree, hapart⟩ := h.free hstream hfollow hids
        rw [PostgresEventStore.insertEvents_eq hheld hfree hapart, ← h.sequence, ← assign_eq_sequenced hfollow]
        refine ⟨rfl, ?_⟩
        obtain ⟨hbounds, hincreasing⟩ := InMemoryEventStore.assign_sequences
          ((m.streamVersions streamId).getD 0 + 1) m.globalSequence events
        have hlength := InMemoryEventStore.length_assign ((m.streamVersions streamId).getD 0 + 1) m.globalSequence events
        rw [assign_eq_sequenced hfollow] at hbounds hincreasing hlength ⊢
        have hextended : Agree new (m.extended new streamId (PostgresEventStore.sequenced m.globalSequence events))
            ⟨p.rows ++ PostgresEventStore.sequenced m.globalSequence events, p.lastSequence +
              (PostgresEventStore.sequenced m.globalSequence events).length⟩ := by
          apply h.extended
          · intro hnil
            rw [hnil] at hlength
            exact hempty (List.length_eq_zero_iff.1 hlength.symm)
          · exact sequenced_stream hstream _
          · unfold Follow
            rw [hlength, map_sequenced _ (fun _ _ => rfl)]
            exact hfollow
          · rw [hlength]
            exact hbounds
          · exact hincreasing
        rw [← h.sequence, hlength] at hextended
        exact hextended

/-- A call that is served where the stores do not differ. -/
theorem Agree.serve (h : Agree new m p) {call : Call} (halike : AlikeFor server m p call) (hproper : call.Proper)
    (hids : (p.rows.map (·.eventId) ++ call.eventIds).Nodup) :
    (m.serve new call).2 = (p.serve server call).2 ∧ Agree new (m.serve new call).1 (p.serve server call).1 := by
  cases call with
  | appendEvents streamId expectedVersion events => exact h.append halike hproper hids
  | readStream streamId fromVersion maxCount =>
    refine ⟨?_, h⟩
    unfold InMemoryEventStore.serve PostgresEventStore.serve
    dsimp only
    rw [h.readStream halike, Option.map_some]
  | readEventsByType eventType fromTimestamp maxCount =>
    refine ⟨?_, h⟩
    unfold InMemoryEventStore.serve PostgresEventStore.serve
    dsimp only
    rw [h.readEventsByType halike, Option.map_some]
  | readAggregateEvents aggregateId fromVersion =>
    refine ⟨?_, h⟩
    unfold InMemoryEventStore.serve PostgresEventStore.serve
    dsimp only
    rw [h.readAggregateEvents halike]
  | readEventsFromSequence fromSequence maxCount =>
    refine ⟨?_, h⟩
    unfold InMemoryEventStore.serve PostgresEventStore.serve
    dsimp only
    rw [h.readEventsFromSequence halike.1 halike.2, Option.map_some]
  | getStreamVersion streamId =>
    refine ⟨?_, h⟩
    unfold InMemoryEventStore.serve PostgresEventStore.serve
    dsimp only
    rw [h.versions]
  | streamExists streamId =>
    refine ⟨?_, h⟩
    unfold InMemoryEventStore.serve PostgresEventStore.serve
    dsimp only
    rw [h.streamExists]
  | deleteStream streamId => exact ⟨rfl, h.delete streamId⟩

/-- The ids of the rows behind a call are those before it and its own. -/
theorem serve_ids (server : EventServer) (p : PostgresEventStore) (call : Call) :
    ((p.serve server call).1.rows.map (·.eventId)).Sublist (p.rows.map (·.eventId) ++ call.eventIds) := by
  cases call with
  | appendEvents streamId expectedVersion events =>
    have hids := PostgresEventStore.appendEvents_ids server p streamId expectedVersion events
    unfold PostgresEventStore.serve
    dsimp only
    split
    · next happended =>
      rw [happended] at hids
      exact hids
    · next happended =>
      rw [happended] at hids
      exact hids
  | deleteStream streamId => exact (List.filter_sublist.map _).trans (List.sublist_append_left _ _)
  | _ => exact List.sublist_append_left _ _

/-- Calls that are served where the stores do not differ are answered alike. -/
theorem answers_eq (calls : List Call) (h : Agree new m p) (halike : AlikeAll server new m p calls)
    (hproper : ∀ call ∈ calls, call.Proper) (hids : (p.rows.map (·.eventId) ++ calls.flatMap Call.eventIds).Nodup) :
    answers (InMemoryEventStore.serve new) m calls = answers (PostgresEventStore.serve server) p calls := by
  induction calls generalizing m p with
  | nil => rfl
  | cons call rest ih =>
    obtain ⟨hcall, hrest⟩ := halike
    rw [List.flatMap_cons, ← List.append_assoc] at hids
    obtain ⟨hanswer, hagree⟩ := h.serve hcall (hproper call List.mem_cons_self) (List.nodup_append.1 hids).1
    unfold answers
    rw [hanswer, ih hagree hrest (fun other hother => hproper other (List.mem_cons_of_mem call hother))
      (hids.sublist ((serve_ids server p call).append_right _))]

theorem agree_new (new : Nat → EntityId) : Agree new {} {} where
  sequence := rfl
  numbered := List.Pairwise.nil
  below event hevent := by cases hevent
  rows := List.Sublist.refl []
  through _ := rfl
  versions _ := rfl
  streams _ := rfl
  aggregates _ := rfl
  streamsBounded _ _ hi := by cases hi
  aggregatesBounded _ _ hi := by cases hi

/-- The two stores answer every list of calls alike but for the sequence numbers, when each call is served where they
do not differ. -/
theorem answered_alike (server : EventServer) (new : Nat → EntityId) (calls : List Call)
    (hproper : ∀ call ∈ calls, call.Proper) (hids : (calls.flatMap Call.eventIds).Nodup)
    (halike : AlikeAll server new {} {} calls) :
    (answers (InMemoryEventStore.serve new) {} calls).map (Option.map Answer.unnumbered) =
      (answers (PostgresEventStore.serve server) {} calls).map (Option.map Answer.unnumbered) := by
  rw [answers_eq calls (agree_new new) halike hproper hids]

/-! ## Two lists of calls -/

/-- A server that holds each value as it is. -/
def plainServer : EventServer where
  jsonb := some
  metadata := some
  timestamptz := some
  byRecordedAt events := events.insertionSort fun a b => a.recordedAt ≤ b.recordedAt
  byRecordedAt_perm := List.perm_insertionSort _
  byRecordedAt_sorted events := by
    have : Std.Total fun a b : EventEnvelope => a.recordedAt ≤ b.recordedAt :=
      ⟨fun a b => Int.le_total a.recordedAt b.recordedAt⟩
    have : IsTrans EventEnvelope fun a b => a.recordedAt ≤ b.recordedAt := ⟨fun _ _ _ => Int.le_trans⟩
    exact List.pairwise_insertionSort _ events

/-- The first event of a stream. -/
def openingEvent : EventEnvelope where
  eventId := 1
  streamId := 7
  streamVersion := 1
  globalSequence := 0
  eventType := .created
  metadata := {}
  payload := .null
  recordedAt := 0

/-- An event is appended and read. -/
def kept : List Call :=
  [.appendEvents 7 (some 0) [openingEvent], .readStream 7 none none, .streamExists 7]

theorem answered_alike_kept :
    (answers (InMemoryEventStore.serve fun _ => 0) {} kept).map (Option.map Answer.unnumbered) =
      (answers (PostgresEventStore.serve plainServer) {} kept).map (Option.map Answer.unnumbered) := by
  apply answered_alike plainServer (fun _ => 0) kept
  · intro call hcall
    simp only [kept, List.mem_cons, List.not_mem_nil, or_false] at hcall
    rcases hcall with rfl | rfl | rfl
    · intro event hevent
      rw [List.mem_singleton.1 hevent]
      rfl
    · trivial
    · trivial
  · decide
  · refine ⟨?_, ?_, trivial, trivial⟩
    · unfold AlikeFor
      dsimp only
      rw [if_neg (by simp)]
      refine .inr ⟨rfl, fun event hevent => ?_⟩
      rw [List.mem_singleton.1 hevent]
      rfl
    · show List.length _ ≤ 1000
      decide

/-- A stream is deleted, and the events of all streams are read. -/
def forgotten : List Call :=
  [.appendEvents 7 (some 0) [openingEvent], .deleteStream 7, .readEventsFromSequence 1 none]

theorem forgotten_answers :
    (∀ call ∈ forgotten, call.Proper) ∧ (forgotten.flatMap Call.eventIds).Nodup ∧
      (answers (InMemoryEventStore.serve fun _ => 0) {} forgotten).map (Option.map Answer.unnumbered) ≠
        (answers (PostgresEventStore.serve plainServer) {} forgotten).map (Option.map Answer.unnumbered) := by
  refine ⟨fun call hcall => ?_, by decide, by decide⟩
  simp only [forgotten, List.mem_cons, List.not_mem_nil, or_false] at hcall
  rcases hcall with rfl | rfl | rfl
  · intro event hevent
    rw [List.mem_singleton.1 hevent]
    rfl
  · trivial
  · trivial

end Atomo.Events

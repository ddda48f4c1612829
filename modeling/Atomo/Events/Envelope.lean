import Atomo.Data.Json
import Mathlib.Data.List.Sort

/-!
# Event envelopes

`EventEnvelope` of the core crate with its metadata, and what the queries on the table `events` select of
some envelopes. An id is held as its number; the text of a `TEXT` column names one id.
-/

namespace Atomo.Events

/-- A ULID. -/
abbrev EntityId := Fin (2 ^ 128)

/-- A UUID. -/
abbrev StreamId := Fin (2 ^ 128)

instance neZero_ids : NeZero (2 ^ 128) :=
  ⟨by decide⟩

/-- Nanoseconds since the epoch. -/
abbrev Timestamp := Int

inductive EventType where
  | created
  | updated
  | deleted
  | restored
  | hardDeleted
  | stateChanged
  | integration
  | custom (name : String)
  deriving DecidableEq

structure EventMetadata where
  userId : Option EntityId := none
  ipAddress : Option String := none
  userAgent : Option String := none
  correlationId : Option String := none
  causationId : Option String := none
  context : List (String × Json) := []
  deriving DecidableEq

structure EventEnvelope where
  eventId : EntityId
  streamId : StreamId
  streamVersion : Int
  globalSequence : Int
  eventType : EventType
  metadata : EventMetadata
  payload : Json
  recordedAt : Timestamp
  deriving DecidableEq

namespace EventEnvelope

/-- `UNIQUE(stream_id, stream_version)`. -/
def place (event : EventEnvelope) : StreamId × Int :=
  (event.streamId, event.streamVersion)

/-- Two rows that the unique indexes of `events` do not let in together. -/
def clashes (a b : EventEnvelope) : Bool :=
  a.eventId = b.eventId || a.place = b.place

end EventEnvelope

/-- `SELECT stream_version … ORDER BY stream_version DESC LIMIT 1`. -/
def streamVersion (events : List EventEnvelope) (stream : StreamId) : Option Int :=
  ((events.filter (·.streamId = stream)).map (·.streamVersion)).max?

/-- `max_count.unwrap_or(1000) as i64` as a `LIMIT`, which must not be negative. -/
def sqlLimit (maxCount : Option Nat) : Option Nat :=
  let n := maxCount.getD 1000
  if n < 2 ^ 63 then some n else none

/-- The envelopes in the order of their sequence numbers. -/
def bySequence (events : List EventEnvelope) : List EventEnvelope :=
  events.insertionSort fun a b => a.globalSequence ≤ b.globalSequence

/-- `SELECT … WHERE global_sequence >= $1 ORDER BY global_sequence ASC LIMIT $2`. -/
def selectFromSequence (events : List EventEnvelope) (fromSequence : Int) (maxCount : Option Nat) :
    Option (List EventEnvelope) :=
  (sqlLimit maxCount).map fun limit => (bySequence (events.filter (fromSequence ≤ ·.globalSequence))).take limit

theorem mem_bySequence {events : List EventEnvelope} {event : EventEnvelope} :
    event ∈ bySequence events ↔ event ∈ events :=
  (List.perm_insertionSort _ events).mem_iff

theorem bySequence_sorted (events : List EventEnvelope) :
    (bySequence events).Pairwise fun a b => a.globalSequence ≤ b.globalSequence := by
  have : Std.Total fun a b : EventEnvelope => a.globalSequence ≤ b.globalSequence :=
    ⟨fun a b => Int.le_total a.globalSequence b.globalSequence⟩
  have : IsTrans EventEnvelope fun a b => a.globalSequence ≤ b.globalSequence := ⟨fun _ _ _ => Int.le_trans⟩
  exact List.pairwise_insertionSort _ events

/-- What a read selects is in the table, from the number on. -/
theorem mem_of_select {events page : List EventEnvelope} {fromSequence : Int} {maxCount : Option Nat}
    (h : selectFromSequence events fromSequence maxCount = some page) {event : EventEnvelope} (hevent : event ∈ page) :
    event ∈ events ∧ fromSequence ≤ event.globalSequence := by
  obtain ⟨limit, -, rfl⟩ := Option.map_eq_some_iff.1 h
  have hin := List.mem_filter.1 (mem_bySequence.1 (List.mem_of_mem_take hevent))
  exact ⟨hin.1, of_decide_eq_true hin.2⟩

theorem select_sorted {events page : List EventEnvelope} {fromSequence : Int} {maxCount : Option Nat}
    (h : selectFromSequence events fromSequence maxCount = some page) :
    page.Pairwise fun a b => a.globalSequence ≤ b.globalSequence := by
  obtain ⟨limit, -, rfl⟩ := Option.map_eq_some_iff.1 h
  exact (bySequence_sorted _).sublist (List.take_sublist _ _)

theorem select_nodup {events page : List EventEnvelope} {fromSequence : Int} {maxCount : Option Nat}
    (h : selectFromSequence events fromSequence maxCount = some page) (hevents : events.Nodup) : page.Nodup := by
  obtain ⟨limit, -, rfl⟩ := Option.map_eq_some_iff.1 h
  have hall := (List.perm_insertionSort (fun a b : EventEnvelope => a.globalSequence ≤ b.globalSequence)
    (events.filter (fromSequence ≤ ·.globalSequence))).nodup_iff.2 (hevents.filter _)
  exact hall.sublist (List.take_sublist _ _)

/-- A read leaves out none below one that it selects. -/
theorem mem_select_of_le {events page : List EventEnvelope} {fromSequence : Int} {maxCount : Option Nat}
    (h : selectFromSequence events fromSequence maxCount = some page) (hdistinct : (events.map (·.globalSequence)).Nodup)
    {event other : EventEnvelope} (hevent : event ∈ events) (hfrom : fromSequence ≤ event.globalSequence)
    (hother : other ∈ page) (hle : event.globalSequence ≤ other.globalSequence) : event ∈ page := by
  have hin := (mem_of_select h hother).1
  obtain ⟨limit, -, rfl⟩ := Option.map_eq_some_iff.1 h
  have hall : event ∈ bySequence (events.filter (fromSequence ≤ ·.globalSequence)) :=
    mem_bySequence.2 (List.mem_filter.2 ⟨hevent, decide_eq_true hfrom⟩)
  have hsorted := bySequence_sorted (events.filter (fromSequence ≤ ·.globalSequence))
  rw [← List.take_append_drop limit (bySequence _)] at hall hsorted
  rcases List.mem_append.1 hall with htake | hdrop
  · exact htake
  · have hge := (List.pairwise_append.1 hsorted).2.2 other hother event hdrop
    have hsame := List.inj_on_of_nodup_map hdistinct hevent hin (Int.le_antisymm hle hge)
    rw [hsame]
    exact hother

/-- A read that may return something does, where there is something. -/
theorem select_ne_nil {events page : List EventEnvelope} {fromSequence : Int} {maxCount : Option Nat}
    (h : selectFromSequence events fromSequence maxCount = some page) (hcount : maxCount ≠ some 0) {event : EventEnvelope}
    (hevent : event ∈ events) (hfrom : fromSequence ≤ event.globalSequence) : page ≠ [] := by
  obtain ⟨limit, hlimit, rfl⟩ := Option.map_eq_some_iff.1 h
  have hall : event ∈ bySequence (events.filter (fromSequence ≤ ·.globalSequence)) :=
    mem_bySequence.2 (List.mem_filter.2 ⟨hevent, decide_eq_true hfrom⟩)
  have hpos : limit ≠ 0 := by
    intro hzero
    unfold sqlLimit at hlimit
    cases maxCount with
    | none => simp [hzero] at hlimit
    | some n =>
      simp only [Option.getD_some, Option.ite_none_right_eq_some, Option.some.injEq] at hlimit
      exact hcount (by rw [hlimit.2, hzero])
  intro hnil
  rcases List.take_eq_nil_iff.1 hnil with hzero | hempty
  · exact hpos hzero
  · rw [hempty] at hall
    cases hall

theorem streamVersion_getD {events : List EventEnvelope} {stream : StreamId} {n : Int} (hn : 0 ≤ n)
    (h : ∀ v, (∃ event ∈ events, event.streamId = stream ∧ event.streamVersion = v) ↔ 1 ≤ v ∧ v ≤ n) :
    (streamVersion events stream).getD 0 = n := by
  unfold streamVersion
  have hmem : ∀ v, v ∈ (events.filter (·.streamId = stream)).map (·.streamVersion) ↔ 1 ≤ v ∧ v ≤ n := by
    intro v
    rw [← h v, List.mem_map]
    constructor
    · rintro ⟨event, hevent, rfl⟩
      obtain ⟨hin, hstream⟩ := List.mem_filter.1 hevent
      exact ⟨event, hin, of_decide_eq_true hstream, rfl⟩
    · rintro ⟨event, hin, hstream, rfl⟩
      exact ⟨event, List.mem_filter.2 ⟨hin, decide_eq_true hstream⟩, rfl⟩
  cases hmax : ((events.filter (·.streamId = stream)).map (·.streamVersion)).max? with
  | none =>
    have hnil := List.max?_eq_none_iff.1 hmax
    have hnot := hmem n
    rw [hnil] at hnot
    have : ¬(1 ≤ n ∧ n ≤ n) := fun hle => absurd (hnot.2 hle) List.not_mem_nil
    show (0 : Int) = n
    omega
  | some v =>
    obtain ⟨hin, hall⟩ := List.max?_eq_some_iff.1 hmax
    have hle := (hmem v).1 hin
    have hn' := hall n ((hmem n).2 ⟨by omega, Int.le_refl n⟩)
    show v = n
    omega

end Atomo.Events

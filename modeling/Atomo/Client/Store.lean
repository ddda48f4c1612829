import Atomo.Data.Event
import Atomo.Db.Statement

/-!
# The store

The tables of the models with the event log and the coverage table of the model history, and what the
statements of `EventStore` do to these two.
-/

namespace Atomo

open Schema (lookup?)
open Db (Tables)

/-! ## History policies -/

inductive HistoryMode where
  | full
  | off
  | retained
  deriving DecidableEq

structure HistoryPolicy where
  mode : HistoryMode := .full
  maxAgeSecs : Option Nat := none
  maxBytes : Option Nat := none

structure HistoryConfig where
  default : HistoryPolicy := {}
  models : List (String × HistoryPolicy) := []
  maintenanceIntervalSecs : Nat := 60
  batchSize : Nat := 1000

namespace HistoryConfig

/-- `HistoryConfig::policy`. -/
def policy (config : HistoryConfig) (model : String) : HistoryPolicy :=
  (lookup? model config.models).getD config.default

/-- `validate_limits`. -/
def limitsValid (policy : HistoryPolicy) : Bool :=
  policy.maxAgeSecs.all (fun n => 0 < n ∧ n < 2 ^ 63) && policy.maxBytes.all (fun n => 0 < n ∧ n < 2 ^ 63)

/-- The limits of a policy go with its mode. -/
def policyValid (policy : HistoryPolicy) : Bool :=
  limitsValid policy &&
    if policy.mode = .retained then policy.maxAgeSecs.isSome || policy.maxBytes.isSome
    else policy.maxAgeSecs.isNone && policy.maxBytes.isNone

/-- `HistoryConfig::validate`. -/
def valid (config : HistoryConfig) : Bool :=
  0 < config.maintenanceIntervalSecs && config.maintenanceIntervalSecs ≤ 86400 && 0 < config.batchSize &&
    config.batchSize ≤ 10000 && policyValid config.default && config.models.all fun entry => policyValid entry.2

end HistoryConfig

/-! ## Events -/

/-- `ModelEvent`, with the id and the time that it is stamped with. -/
structure StampedEvent extends ModelEvent where
  eventId : String
  timestamp : String
  deriving DecidableEq

/-- The `Debug` text of an event type. -/
def EventType.debug : EventType → String
  | .created => "Created"
  | .updated => "Updated"
  | .deleted => "Deleted"
  | .restored => "Restored"
  | .hardDeleted => "HardDeleted"
  | .custom => "Custom"

/-- A row of `event_log`. -/
structure LogEntry where
  eventId : String
  eventType : String
  modelName : String
  data : List (String × Json)
  previousData : Option (List (String × Json))
  actor : Option String
  timestamp : String
  createdAt : Int
  deriving DecidableEq

/-- The row that an event is stored as. -/
def StampedEvent.entry (now : Int) (event : StampedEvent) : LogEntry where
  eventId := event.eventId
  eventType := event.eventType.debug
  modelName := event.modelName
  data := event.data
  previousData := event.previousData
  actor := event.actor
  timestamp := event.timestamp
  createdAt := now

/-- A row of `model_history_coverage`. -/
structure Coverage where
  mode : HistoryMode
  complete : Bool := true
  firstGapAt : Option Int := none
  retainedAfter : Option Int := none
  removedEvents : Int := 0
  deriving DecidableEq

/-! ## The store -/

structure Store where
  tables : Tables
  eventLog : List LogEntry
  coverage : String → Option Coverage

namespace Store

/-- `INSERT INTO event_log … ON CONFLICT (event_id) DO NOTHING` of one row. -/
def logEntry (store : Store) (entry : LogEntry) : Store :=
  if ∃ stored ∈ store.eventLog, stored.eventId = entry.eventId then store
  else { store with eventLog := store.eventLog ++ [entry] }

def logEntries (store : Store) (entries : List LogEntry) : Store :=
  entries.foldl logEntry store

/-- The coverage of a model after an event of it was skipped. -/
def gapped (now : Int) : Option Coverage → Coverage
  | none => { mode := .off, complete := false, firstGapAt := some now }
  | some c =>
    if c.complete || c.firstGapAt = none then
      { c with complete := false, firstGapAt := c.firstGapAt.or (some now) }
    else c

/-- The statement of `persist_in` for a model whose history is off. -/
def markGap (store : Store) (model : String) (now : Int) : Store :=
  { store with coverage := Function.update store.coverage model (some (gapped now (store.coverage model))) }

@[simp] theorem logEntry_tables (store : Store) (entry : LogEntry) :
    (store.logEntry entry).tables = store.tables := by
  unfold logEntry
  split <;> rfl

@[simp] theorem logEntry_coverage (store : Store) (entry : LogEntry) :
    (store.logEntry entry).coverage = store.coverage := by
  unfold logEntry
  split <;> rfl

@[simp] theorem markGap_tables (store : Store) (model : String) (now : Int) :
    (store.markGap model now).tables = store.tables :=
  rfl

@[simp] theorem markGap_eventLog (store : Store) (model : String) (now : Int) :
    (store.markGap model now).eventLog = store.eventLog :=
  rfl

@[simp] theorem logEntries_tables (store : Store) (entries : List LogEntry) :
    (store.logEntries entries).tables = store.tables := by
  induction entries generalizing store with
  | nil => rfl
  | cons entry entries ih => exact (ih _).trans (store.logEntry_tables entry)

@[simp] theorem logEntries_coverage (store : Store) (entries : List LogEntry) :
    (store.logEntries entries).coverage = store.coverage := by
  induction entries generalizing store with
  | nil => rfl
  | cons entry entries ih => exact (ih _).trans (store.logEntry_coverage entry)

theorem logEntries_append (store : Store) (xs ys : List LogEntry) :
    store.logEntries (xs ++ ys) = (store.logEntries xs).logEntries ys :=
  List.foldl_append

/-- Entries with ids of their own are all stored. -/
theorem logEntries_eventLog {store : Store} {entries : List LogEntry}
    (hnodup : (entries.map (·.eventId)).Nodup)
    (hfresh : ∀ entry ∈ entries, ∀ stored ∈ store.eventLog, stored.eventId ≠ entry.eventId) :
    (store.logEntries entries).eventLog = store.eventLog ++ entries := by
  induction entries generalizing store with
  | nil => rw [List.append_nil]; rfl
  | cons entry entries ih =>
    rw [List.map_cons, List.nodup_cons] at hnodup
    obtain ⟨hentry, hentries⟩ := hnodup
    have hnot : ¬∃ stored ∈ store.eventLog, stored.eventId = entry.eventId := by
      rintro ⟨stored, hstored, heq⟩
      exact hfresh entry List.mem_cons_self stored hstored heq
    have hlogged : store.logEntry entry = { store with eventLog := store.eventLog ++ [entry] } := if_neg hnot
    show ((store.logEntry entry).logEntries entries).eventLog = _
    rw [hlogged, ih hentries, List.append_assoc, List.singleton_append]
    intro e he stored hstored
    rcases List.mem_append.1 hstored with hold | hnew
    · exact hfresh e (List.mem_cons_of_mem entry he) stored hold
    · rw [List.mem_singleton.1 hnew]
      rintro heq
      exact hentry (List.mem_map.2 ⟨e, he, heq.symm⟩)

theorem mem_logEntries {store : Store} {entries : List LogEntry} {entry : LogEntry}
    (h : entry ∈ (store.logEntries entries).eventLog) : entry ∈ store.eventLog ∨ entry ∈ entries := by
  induction entries generalizing store with
  | nil => exact .inl h
  | cons first rest ih =>
    rcases ih h with hstored | hrest
    · unfold logEntry at hstored
      split at hstored
      · exact .inl hstored
      · rcases List.mem_append.1 hstored with hold | hnew
        · exact .inl hold
        · exact .inr (List.mem_cons.2 (.inl (List.mem_singleton.1 hnew)))
    · exact .inr (List.mem_cons_of_mem first hrest)

end Store

end Atomo

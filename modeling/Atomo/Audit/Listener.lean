import Atomo.Client.Store
import Atomo.Events.Envelope
import Atomo.Lib.Filter
import Atomo.Lib.Numerals
import Mathlib.Data.List.Sort

/-!
# The audit listener

`spawn_model_audit_listener` of `audit.rs` with the statements of `HttpAuditService` that it leads to. The
id of a row goes through `EntityId`, a ULID, and where it is none a fresh one takes its place: the entry
names the row exactly when the id is the text of a ULID (`names_iff`).
-/

namespace Atomo.Audit

open Schema (lookup?)

/-! ## Ids -/

/-- What is used of the crate `ulid`: `from_string`, `to_string` and, for each time that it is called,
`new`. A ULID is read back from its text. -/
structure UlidCrate (Ulid : Type) where
  fromString : String → Option Ulid
  toText : Ulid → String
  new : Nat → Ulid
  fromString_toText : ∀ x, fromString (toText x) = some x

/-! ## Configuration -/

inductive AuditMode where
  | full
  | metadata
  | off
  deriving DecidableEq

/-- The modes of `AuditConfig`. -/
structure AuditConfig where
  default : AuditMode := .full
  models : List (String × AuditMode) := []

/-- `AuditConfig::policy`. -/
def AuditConfig.policy (config : AuditConfig) (model : String) : AuditMode :=
  (lookup? model config.models).getD config.default

/-! ## Entries -/

inductive AuditOperation where
  | create
  | update
  | delete
  | read
  deriving DecidableEq

/-- The number that an operation is stored as. -/
def AuditOperation.code : AuditOperation → Int
  | .create => 0
  | .update => 1
  | .delete => 2
  | .read => 3

/-- The operation of a stored number. -/
def AuditOperation.ofCode (code : Int) : Option AuditOperation :=
  if code = 0 then some .create
  else if code = 1 then some .update
  else if code = 2 then some .delete
  else if code = 3 then some .read
  else none

/-- The operation that an event is recorded as. -/
def AuditOperation.ofEvent : EventType → AuditOperation
  | .created => .create
  | .updated | .restored => .update
  | .deleted | .hardDeleted => .delete
  | .custom => .read

/-- `AuditLogEntry`; the details are the JSON that their text stands for. -/
structure AuditLogEntry (Ulid : Type) where
  id : String
  entityType : String
  entityId : Ulid
  operation : AuditOperation
  operationDetails : Json
  userId : Option String
  ipAddress : Option String
  userAgent : Option String
  createdAt : Int

/-- A row of `audit_log`. -/
structure AuditRow where
  id : String
  entityType : String
  entityId : String
  operation : Int
  operationDetails : Json
  userId : Option String
  ipAddress : Option String
  userAgent : Option String
  createdAt : Int

/-! ## The service -/

variable {Ulid : Type} (crate : UlidCrate Ulid) (config : AuditConfig)

/-- The row that `log_audit_entry` inserts, if it does. -/
def rowOf (entry : AuditLogEntry Ulid) : Option AuditRow :=
  let row : AuditRow :=
    { id := entry.id, entityType := entry.entityType, entityId := crate.toText entry.entityId
      operation := entry.operation.code, operationDetails := entry.operationDetails, userId := entry.userId
      ipAddress := entry.ipAddress, userAgent := entry.userAgent, createdAt := entry.createdAt }
  match config.policy entry.entityType with
  | .off => none
  | .metadata => some { row with operationDetails := .object [], ipAddress := none, userAgent := none }
  | .full => some row

/-- An entry from its row; a row of no operation is passed over. -/
def entryOf (row : AuditRow) : Option (Option (AuditLogEntry Ulid)) :=
  match AuditOperation.ofCode row.operation with
  | none => some none
  | some operation =>
    (crate.fromString row.entityId).map fun entityId => some
      { id := row.id, entityType := row.entityType, entityId, operation
        operationDetails := row.operationDetails, userId := row.userId, ipAddress := row.ipAddress
        userAgent := row.userAgent, createdAt := row.createdAt }

/-- `ORDER BY created_at DESC`. -/
def newestFirst (row row' : AuditRow) : Prop :=
  row'.createdAt ≤ row.createdAt

instance : DecidableRel newestFirst := fun row row' => inferInstanceAs (Decidable (row'.createdAt ≤ row.createdAt))

/-- `get_audit_logs_for_entity`; none is an error. -/
def getAuditLogsForEntity (rows : List AuditRow) (entityType : String) (entityId : Ulid) :
    Option (List (AuditLogEntry Ulid)) :=
  let found := rows.filter fun row => row.entityType = entityType ∧ row.entityId = crate.toText entityId
  ((found.insertionSort newestFirst).mapM (entryOf crate)).map (·.filterMap id)

/-! ## The listener -/

/-- The table, and how many ids were made and statements sent. -/
structure Listener where
  rows : List AuditRow
  tick : Nat

/-- What the server and the clock answer: whether an insertion fails, and the time. -/
structure Surroundings where
  fails : Nat → Bool
  now : Nat → Int

variable (env : Surroundings)

/-- The id of the row that an event is about. -/
def rowId (ev : StampedEvent) : Option String :=
  match lookup? "id" ev.data with
  | some (.string id) => some id
  | _ => none

/-- `EntityId::from_string(s).ok()`, or else `EntityId::new`. -/
def entityId (tick : Nat) (ev : StampedEvent) : Ulid :=
  ((rowId ev).bind crate.fromString).getD (crate.new tick)

/-- `AuditLogEntry::new` of an event. -/
def entry (tick : Nat) (ev : StampedEvent) : AuditLogEntry Ulid where
  id := crate.toText (crate.new (tick + 1))
  entityType := ev.modelName
  entityId := entityId crate tick ev
  operation := .ofEvent ev.eventType
  operationDetails := .object ev.data
  userId := ev.actor
  ipAddress := none
  userAgent := none
  createdAt := env.now tick

/-- A round of the loop in which an event is received. -/
def Listener.listen (l : Listener) (ev : StampedEvent) : Listener :=
  let row := if env.fails l.tick then none else rowOf crate config (entry crate env l.tick ev)
  { rows := l.rows ++ row.toList, tick := l.tick + 2 }

/-- What the receiver yields until the channel is closed. -/
inductive Received where
  | event (ev : StampedEvent)
  | lagged (count : Nat)

/-- The loop goes on after a lag. -/
def Listener.step (l : Listener) : Received → Listener
  | .event ev => l.listen crate config env ev
  | .lagged _ => l

def Listener.run (l : Listener) (received : List Received) : Listener :=
  received.foldl (Listener.step crate config env) l

/-! ## The trail of a row -/

/-- The audit log of a row, looked up by its id. -/
def trail (rows : List AuditRow) (model id : String) : Option (List (AuditLogEntry Ulid)) :=
  (crate.fromString id).bind (getAuditLogsForEntity crate rows model)

/-- An event is written as one row that names the row that it is about, and from then on its operation is
found in the audit log of this row. -/
structure Named (l : Listener) (ev : StampedEvent) (id : String) : Prop where
  written : ∃ row, (l.listen crate config env ev).rows = l.rows ++ [row] ∧ row.entityType = ev.modelName ∧
    row.entityId = id
  found : ∀ later, ∃ entries, trail crate ((l.listen crate config env ev).run crate config env later).rows ev.modelName id =
    some entries ∧ ∃ found ∈ entries, found.operation = .ofEvent ev.eventType ∧ found.createdAt = env.now l.tick ∧
      found.userId = ev.actor

variable {l : Listener} {ev : StampedEvent} {id : String}

theorem rowOf_eq {e : AuditLogEntry Ulid} (h : config.policy e.entityType ≠ .off) :
    ∃ row, rowOf crate config e = some row ∧ row.entityType = e.entityType ∧ row.entityId = crate.toText e.entityId ∧
      row.operation = e.operation.code ∧ row.createdAt = e.createdAt ∧ row.userId = e.userId := by
  unfold rowOf
  cases hmode : config.policy e.entityType with
  | off => exact absurd hmode h
  | full | metadata => exact ⟨_, rfl, rfl, rfl, rfl, rfl, rfl⟩

/-- The one row of an event. -/
theorem listen_rows (hmode : config.policy ev.modelName ≠ .off) (hinsert : env.fails l.tick = false) :
    ∃ row, (l.listen crate config env ev).rows = l.rows ++ [row] ∧ row.entityType = ev.modelName ∧
      row.entityId = crate.toText (entityId crate l.tick ev) ∧ row.operation = (AuditOperation.ofEvent ev.eventType).code ∧
      row.createdAt = env.now l.tick ∧ row.userId = ev.actor := by
  obtain ⟨row, hrow, hfields⟩ := rowOf_eq crate config (e := entry crate env l.tick ev) hmode
  refine ⟨row, ?_, hfields⟩
  unfold Listener.listen
  rw [hrow, hinsert]
  rfl

/-- Rows stay in the table. -/
theorem run_subset (received : List Received) (l : Listener) : l.rows ⊆ (l.run crate config env received).rows := by
  induction received generalizing l with
  | nil => exact List.Subset.refl _
  | cons first received ih =>
    refine List.Subset.trans ?_ (ih _)
    cases first with
    | event ev => exact List.subset_append_left _ _
    | lagged count => exact List.Subset.refl _

@[simp] theorem ofCode_code (operation : AuditOperation) : AuditOperation.ofCode operation.code = some operation := by
  cases operation <;> rfl

/-- The entry of a row whose id is the text of a ULID. -/
def entryAt (x : Ulid) (row : AuditRow) : Option (AuditLogEntry Ulid) :=
  (AuditOperation.ofCode row.operation).map fun operation =>
    { id := row.id, entityType := row.entityType, entityId := x, operation, operationDetails := row.operationDetails
      userId := row.userId, ipAddress := row.ipAddress, userAgent := row.userAgent, createdAt := row.createdAt }

theorem entryOf_eq {x : Ulid} {row : AuditRow} (h : row.entityId = crate.toText x) :
    entryOf crate row = some (entryAt x row) := by
  unfold entryOf entryAt
  rw [h, crate.fromString_toText]
  cases AuditOperation.ofCode row.operation with
  | none => rfl
  | some operation => rfl

/-- The log of an entity has an entry for each row of it. -/
theorem getAuditLogsForEntity_eq (rows : List AuditRow) (model : String) (x : Ulid) :
    ∃ entries, getAuditLogsForEntity crate rows model x = some entries ∧
      ∀ row ∈ rows, row.entityType = model → row.entityId = crate.toText x → ∀ e, entryAt x row = some e → e ∈ entries := by
  unfold getAuditLogsForEntity
  dsimp only
  rw [List.mapM_eq_some_map (g := entryAt x), Option.map_some]
  · refine ⟨_, rfl, fun row hrow htype hid e he => ?_⟩
    have hfound : row ∈ rows.filter fun row => row.entityType = model ∧ row.entityId = crate.toText x := by
      rw [List.mem_filter]
      exact ⟨hrow, decide_eq_true ⟨htype, hid⟩⟩
    rw [List.mem_filterMap]
    exact ⟨some e, List.mem_map.2 ⟨row, (List.mem_insertionSort _).2 hfound, he⟩, rfl⟩
  · intro row hrow
    have hfound := (List.mem_filter.1 ((List.mem_insertionSort _).1 hrow)).2
    exact entryOf_eq crate (of_decide_eq_true hfound).2

theorem Named.text (hmode : config.policy ev.modelName ≠ .off) (hinsert : env.fails l.tick = false)
    (h : Named crate config env l ev id) : ∃ x, crate.toText x = id := by
  obtain ⟨row, hrows, -, hentity, -⟩ := listen_rows crate config env hmode hinsert
  obtain ⟨row', hrows', -, hid⟩ := h.written
  have hsame : row' = row := by
    rw [hrows, List.append_cancel_left_eq] at hrows'
    exact (List.singleton_inj.1 hrows').symm
  rw [hsame, hentity] at hid
  exact ⟨_, hid⟩

/-- An event names its row exactly when the id of the row is the text of a ULID. -/
theorem names_iff (l : Listener) (ev : StampedEvent) (id : String) (hid : rowId ev = some id) (hmode : config.policy ev.modelName ≠ .off)
    (hinsert : env.fails l.tick = false) : Named crate config env l ev id ↔ ∃ x, crate.toText x = id := by
  obtain ⟨row, hrows, htype, hentity, hoperation, hcreated, huser⟩ := listen_rows crate config env hmode hinsert
  constructor
  · exact Named.text crate config env hmode hinsert
  · rintro ⟨x, rfl⟩
    have hx : entityId crate l.tick ev = x := by
      unfold entityId
      rw [hid, Option.bind_some, crate.fromString_toText, Option.getD_some]
    rw [hx] at hentity
    refine ⟨⟨row, hrows, htype, hentity⟩, fun later => ?_⟩
    have hkept := run_subset crate config env later (l.listen crate config env ev)
    have hrow : row ∈ ((l.listen crate config env ev).run crate config env later).rows := by
      apply hkept
      rw [hrows]
      exact List.mem_append_right _ (List.mem_singleton_self _)
    obtain ⟨entries, hlog, hentries⟩ := getAuditLogsForEntity_eq crate
      ((l.listen crate config env ev).run crate config env later).rows ev.modelName x
    refine ⟨entries, ?_, ?_⟩
    · unfold trail
      rw [crate.fromString_toText]
      exact hlog
    · have hentry : entryAt x row = some
          { id := row.id, entityType := row.entityType, entityId := x, operation := .ofEvent ev.eventType
            operationDetails := row.operationDetails, userId := row.userId, ipAddress := row.ipAddress
            userAgent := row.userAgent, createdAt := row.createdAt } := by
        unfold entryAt
        rw [hoperation, ofCode_code]
        rfl
      exact ⟨_, hentries row hrow htype hentity _ hentry, rfl, hcreated, huser⟩

/-! ## The ids that the database draws -/

/-- Crockford's alphabet. -/
def alphabet : List Char :=
  "0123456789ABCDEFGHJKMNPQRSTVWXYZ".toList

def base32Digit (d : Nat) : Char :=
  alphabet.getD d '0'

def base32Value (c : Char) : Option Nat :=
  alphabet.idxOf? c.toUpper

/-- ULIDs as numbers of 128 bits, in 26 digits. -/
def UlidCrate.base32 : UlidCrate (Fin (2 ^ 128)) where
  fromString s := if s.length = 26 then (Numerals.read 32 base32Value s.toList).map (Fin.ofNat (2 ^ 128)) else none
  toText x := .ofList (Numerals.write 32 base32Digit 26 x)
  new tick := Fin.ofNat (2 ^ 128) tick
  fromString_toText x := by
    have hx : x.val < 32 ^ 26 := lt_of_lt_of_le x.isLt (by decide)
    have hlength : (String.ofList (Numerals.write 32 base32Digit 26 x)).length = 26 := by
      rw [String.length_ofList]
      exact Numerals.length_write (by decide) hx
    rw [if_pos hlength, String.toList_ofList, Numerals.read_write (by decide) (by decide), Option.map_some, Fin.ofNat_val_eq_self]

def calm : Surroundings where
  fails _ := false
  now tick := tick

/-- The creation of a note with an id. -/
def createdNote (id : String) : StampedEvent where
  eventType := .created
  modelName := "Note"
  data := [("id", .string id), ("title", .string "first")]
  eventId := "e1"
  timestamp := "2026-01-01T00:00:00Z"

theorem names_note : Named .base32 {} calm ⟨[], 0⟩ (createdNote (UlidCrate.base32.toText 1)) (UlidCrate.base32.toText 1) :=
  (names_iff .base32 {} calm ⟨[], 0⟩ (createdNote (UlidCrate.base32.toText 1)) (UlidCrate.base32.toText 1) rfl (by decide) rfl).2
    ⟨1, rfl⟩

/-- A row with the id that `gen_random_uuid()` gives it has no trail. -/
theorem uuid_unnamed :
    ¬∀ (l : Listener) (ev : StampedEvent) (id : String), rowId ev = some id → AuditConfig.policy {} ev.modelName ≠ .off →
      calm.fails l.tick = false → Named .base32 {} calm l ev id := by
  intro h
  have hnamed := h ⟨[], 0⟩ (createdNote "3f0e9d2c-5d0a-4f5e-9b61-2a7c1f0e8d34") _ rfl (by decide) rfl
  obtain ⟨x, hx⟩ := hnamed.text .base32 {} calm (by decide) rfl
  have hlength := congrArg String.length hx
  have hwrite : (UlidCrate.base32.toText x).length = 26 := by
    show (String.ofList (Numerals.write 32 base32Digit 26 x)).length = 26
    rw [String.length_ofList]
    exact Numerals.length_write (by decide) (lt_of_lt_of_le x.isLt (by decide))
  rw [hwrite] at hlength
  exact absurd hlength (by decide)

end Atomo.Audit

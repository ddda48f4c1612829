import Atomo.Events.Envelope
import Atomo.Lib.LabelledSystem
import Mathlib.Data.List.Nodup

/-!
# Concurrent appends

`PostgresEventStore::append_events`, called any number of times at once, one statement a step. The sequence of
`global_sequence` is drawn from before the row is checked against the unique indexes, and is not rolled back. An
insertion waits for the transaction of a row that it clashes with, and fails when that is committed. A commit
that fails is a rollback.
-/

namespace Atomo.Events

open LabelledSystem

/-- The arguments of a call of `append_events`. -/
structure Append where
  streamId : StreamId
  expectedVersion : Option Int
  events : List EventEnvelope

/-- Where a call stands. -/
inductive Phase where
  | ready
  | opened
  | inserting (rest : List EventEnvelope)
  | drawn (sequence : Int) (event : EventEnvelope) (rest : List EventEnvelope)
  | committed
  | skipped
  | failed
  deriving DecidableEq

/-- A transaction is under way. -/
def Phase.isOpen : Phase → Bool
  | opened | inserting _ | drawn _ _ _ => true
  | _ => false

/-- A row of `events`, with the call that inserted it. -/
structure EventRow where
  event : EventEnvelope
  insertedBy : Nat
  deriving DecidableEq

/-- The table `events` with its sequence, and the calls. -/
structure Appends where
  rows : List EventRow
  lastSequence : Int
  phases : Nat → Phase

namespace Appends

def set (s : Appends) (i : Nat) (phase : Phase) : Appends :=
  { s with phases := Function.update s.phases i phase }

/-- The transaction of a call is rolled back. -/
def abort (s : Appends) (i : Nat) : Appends :=
  { s with
    rows := s.rows.filter (·.insertedBy ≠ i)
    phases := Function.update s.phases i .failed }

/-- A number is drawn for an envelope. -/
def draw (s : Appends) (i : Nat) (event : EventEnvelope) (rest : List EventEnvelope) : Appends :=
  { s with lastSequence := s.lastSequence + 1 }.set i (.drawn (s.lastSequence + 1) event rest)

/-- The row of an envelope is inserted. -/
def store (s : Appends) (i : Nat) (sequence : Int) (event : EventEnvelope) (rest : List EventEnvelope) : Appends :=
  { s with
    rows := s.rows ++ [⟨{ event with globalSequence := sequence }, i⟩]
    phases := Function.update s.phases i (.inserting rest) }

def isCommitted (s : Appends) (row : EventRow) : Bool :=
  s.phases row.insertedBy = .committed

/-- What a statement outside of the transactions sees. -/
def visible (s : Appends) : List EventEnvelope :=
  (s.rows.filter s.isCommitted).map (·.event)

/-- The version that a call reads. -/
def currentVersion (s : Appends) (stream : StreamId) : Int :=
  (streamVersion s.visible stream).getD 0

end Appends

/-- What a call does next, or what befalls it. -/
inductive Move where
  | begin (i : Nat)
  | check (i : Nat)
  | draw (i : Nat)
  | insert (i : Nat)
  | commit (i : Nat)
  | fault (i : Nat)

/-- One statement of one call. -/
inductive AppendStep (calls : Nat → Append) : Appends → Move → Appends → Prop
  | skip {s} (i : Nat) (at_ready : s.phases i = .ready) (empty : (calls i).events = []) :
      AppendStep calls s (.begin i) (s.set i .skipped)
  | begin {s} (i : Nat) (at_ready : s.phases i = .ready) (nonempty : (calls i).events ≠ []) :
      AppendStep calls s (.begin i) (s.set i .opened)
  | conflict {s} (i : Nat) (expected : Int) (at_opened : s.phases i = .opened)
      (expects : (calls i).expectedVersion = some expected)
      (differs : s.currentVersion (calls i).streamId ≠ expected) :
      AppendStep calls s (.check i) (s.abort i)
  | check {s} (i : Nat) (at_opened : s.phases i = .opened)
      (agrees : ∀ expected, (calls i).expectedVersion = some expected → s.currentVersion (calls i).streamId = expected) :
      AppendStep calls s (.check i) (s.set i (.inserting (calls i).events))
  | draw {s} (i : Nat) (event : EventEnvelope) (rest : List EventEnvelope)
      (at_inserting : s.phases i = .inserting (event :: rest)) :
      AppendStep calls s (.draw i) (s.draw i event rest)
  | insert {s} (i : Nat) (sequence : Int) (event : EventEnvelope) (rest : List EventEnvelope)
      (at_drawn : s.phases i = .drawn sequence event rest)
      (free : ∀ row ∈ s.rows, row.event.clashes event = false) :
      AppendStep calls s (.insert i) (s.store i sequence event rest)
  | violate {s} (i : Nat) (sequence : Int) (event : EventEnvelope) (rest : List EventEnvelope) (row : EventRow)
      (at_drawn : s.phases i = .drawn sequence event rest) (stored : row ∈ s.rows)
      (settled : s.isCommitted row = true ∨ row.insertedBy = i) (clashes : row.event.clashes event = true) :
      AppendStep calls s (.insert i) (s.abort i)
  | commit {s} (i : Nat) (at_end : s.phases i = .inserting []) :
      AppendStep calls s (.commit i) (s.set i .committed)
  | fault {s} (i : Nat) (under_way : (s.phases i).isOpen = true) : AppendStep calls s (.fault i) (s.abort i)

/-- The calls on a table that starts empty. -/
def appendSystem (calls : Nat → Append) : LabelledSystem Appends Move where
  init s := s.rows = [] ∧ s.lastSequence = 0 ∧ ∀ i, s.phases i = .ready
  step := AppendStep calls

/-! ## Saving an aggregate -/

/-- What `save` reads of an `AggregateBase`: its events are of its stream. -/
structure Aggregate where
  streamId : StreamId
  version : Int
  uncommitted : List EventEnvelope
  own : ∀ event ∈ uncommitted, event.streamId = streamId

namespace Aggregate

/-- `AggregateBase::uncommitted_envelopes`, of events that are envelopes but for their numbers. -/
def uncommittedEnvelopes (aggregate : Aggregate) : List EventEnvelope :=
  aggregate.uncommitted.mapIdx fun i event =>
    { event with streamVersion := aggregate.version - aggregate.uncommitted.length + i + 1, globalSequence := 0 }

/-- The call of `AggregateRepository::save`. -/
def save (aggregate : Aggregate) : Append where
  streamId := aggregate.streamId
  expectedVersion := some (aggregate.version - aggregate.uncommittedEnvelopes.length)
  events := aggregate.uncommittedEnvelopes

end Aggregate

/-- The envelopes of a call are of its stream and numbered from the version that it expects. -/
def Append.Saved (call : Append) : Prop :=
  ∃ expected, call.expectedVersion = some expected ∧
    call.events.map EventEnvelope.place = (List.range call.events.length).map fun k : Nat => (call.streamId, expected + k + 1)

/-- That is how `save` calls. -/
theorem Aggregate.save_saved (aggregate : Aggregate) : aggregate.save.Saved := by
  have hlength : aggregate.uncommittedEnvelopes.length = aggregate.uncommitted.length := List.length_mapIdx
  refine ⟨_, rfl, ?_⟩
  apply List.ext_getElem
  · simp
  · intro i hi hi'
    have hown := aggregate.own
    simp only [List.length_map, List.length_range] at hi'
    have hi'' : i < aggregate.uncommitted.length := by
      rw [← hlength]
      exact hi'
    simp [Aggregate.save, Aggregate.uncommittedEnvelopes, EventEnvelope.place, hown _ (List.getElem_mem hi'')]

/-! ## What holds of the calls -/

/-- A version of a stream that is committed. -/
def Committed (s : Appends) (place : StreamId × Int) : Prop :=
  ∃ row ∈ s.rows, s.phases row.insertedBy = .committed ∧ row.event.place = place

/-- The places of the rows that a call has inserted. -/
def inserted (s : Appends) (i : Nat) : List (StreamId × Int) :=
  (s.rows.filter (·.insertedBy = i)).map (·.event.place)

/-- The envelopes that a call has still to insert. -/
def Phase.rest : Phase → List EventEnvelope
  | inserting rest => rest
  | drawn _ event rest => event :: rest
  | _ => []

/-- The version check of a call has passed. -/
def Phase.checked : Phase → Bool
  | inserting _ | drawn _ _ _ | committed => true
  | _ => false

/-- A call as it stands: it has inserted the first of its envelopes, the other calls none of its own. -/
structure CallSound (calls : Nat → Append) (s : Appends) (i : Nat) : Prop where
  nonempty : (s.phases i).isOpen = true ∨ s.phases i = .committed → (calls i).events ≠ []
  progress : (s.phases i).checked = true →
    inserted s i ++ (s.phases i).rest.map EventEnvelope.place = (calls i).events.map EventEnvelope.place
  untouched : (s.phases i).checked = false → inserted s i = []
  base : (s.phases i).checked = true → ∀ expected, (calls i).expectedVersion = some expected → 0 ≤ expected ∧
    ∀ v, 1 ≤ v → v ≤ expected → Committed s ((calls i).streamId, v)

structure Sound (calls : Nat → Append) (s : Appends) : Prop where
  distinct : (s.rows.map (·.event.place)).Nodup
  call : ∀ i, CallSound calls s i
  contiguous : ∀ stream, ∃ n : Nat, ∀ v : Int, Committed s (stream, v) ↔ 1 ≤ v ∧ v ≤ n

variable {calls : Nat → Append} {s s' : Appends} {i : Nat}

theorem mem_visible {stream : StreamId} {v : Int} :
    (∃ event ∈ s.visible, event.streamId = stream ∧ event.streamVersion = v) ↔ Committed s (stream, v) := by
  constructor
  · rintro ⟨event, hevent, rfl, rfl⟩
    obtain ⟨row, hrow, rfl⟩ := List.mem_map.1 hevent
    obtain ⟨hin, hcommitted⟩ := List.mem_filter.1 hrow
    exact ⟨row, hin, of_decide_eq_true hcommitted, rfl⟩
  · rintro ⟨row, hin, hcommitted, hplace⟩
    obtain ⟨rfl, rfl⟩ := Prod.mk.inj hplace
    exact ⟨row.event, List.mem_map_of_mem (List.mem_filter.2 ⟨hin, decide_eq_true hcommitted⟩), rfl, rfl⟩

/-- The version that a call reads is the number of the committed ones. -/
theorem currentVersion_eq {stream : StreamId} {n : Nat} (h : ∀ v : Int, Committed s (stream, v) ↔ 1 ≤ v ∧ v ≤ n) :
    s.currentVersion stream = n :=
  streamVersion_getD (Int.natCast_nonneg n) fun v => mem_visible.trans (h v)

/-- A row is that of its call. -/
theorem row_unique (h : (s.rows.map (·.event.place)).Nodup) {a b : EventRow} (ha : a ∈ s.rows) (hb : b ∈ s.rows)
    (hplace : a.event.place = b.event.place) : a = b :=
  List.inj_on_of_nodup_map h ha hb hplace

theorem mem_inserted {place : StreamId × Int} :
    place ∈ inserted s i ↔ ∃ row ∈ s.rows, row.insertedBy = i ∧ row.event.place = place := by
  unfold inserted
  simp only [List.mem_map, List.mem_filter, decide_eq_true_eq, and_assoc]

/-- The first version that a call has to insert. -/
theorem first_mem {call : Append} {expected : Int} (hexpected : call.expectedVersion = some expected)
    (hsaved : call.Saved) (hne : call.events ≠ []) :
    (call.streamId, expected + 1) ∈ call.events.map EventEnvelope.place := by
  obtain ⟨expected', hexpected', hplaces⟩ := hsaved
  rw [hexpected] at hexpected'
  cases hexpected'
  rw [hplaces, List.mem_map]
  exact ⟨0, List.mem_range.2 (List.length_pos_iff.2 hne), by simp⟩

/-- A call has committed: no other one that expects the same version has. -/
theorem committed_unique (hsound : Sound calls s) (hsaved : ∀ i, (calls i).Saved) {i j : Nat}
    (hi : s.phases i = .committed) (hj : s.phases j = .committed) (hstream : (calls i).streamId = (calls j).streamId)
    (hexpected : (calls i).expectedVersion = (calls j).expectedVersion) : i = j := by
  obtain ⟨expected, hexpects, -⟩ := hsaved i
  have hrow : ∀ k, s.phases k = .committed → (calls k).expectedVersion = some expected →
      ∃ row ∈ s.rows, row.insertedBy = k ∧ row.event.place = ((calls k).streamId, expected + 1) := by
    intro k hk hexpects
    have hprogress := (hsound.call k).progress (by rw [hk]; rfl)
    rw [hk] at hprogress
    simp only [Phase.rest, List.map_nil, List.append_nil] at hprogress
    apply mem_inserted.1
    rw [hprogress]
    exact first_mem hexpects (hsaved k) ((hsound.call k).nonempty (.inr hk))
  obtain ⟨a, ha, rfl, haplace⟩ := hrow i hi hexpects
  obtain ⟨b, hb, rfl, hbplace⟩ := hrow j hj (hexpected ▸ hexpects)
  have hsame := row_unique hsound.distinct ha hb (by rw [haplace, hbplace, hstream])
  rw [hsame]

/-! ## What a step leaves -/

theorem committed_congr (h : ∀ row, (row ∈ s'.rows ∧ s'.phases row.insertedBy = .committed) ↔
    row ∈ s.rows ∧ s.phases row.insertedBy = .committed) (place : StreamId × Int) : Committed s' place ↔ Committed s place := by
  constructor
  · rintro ⟨row, hin, hcommitted, hplace⟩
    obtain ⟨hin, hcommitted⟩ := (h row).1 ⟨hin, hcommitted⟩
    exact ⟨row, hin, hcommitted, hplace⟩
  · rintro ⟨row, hin, hcommitted, hplace⟩
    obtain ⟨hin, hcommitted⟩ := (h row).2 ⟨hin, hcommitted⟩
    exact ⟨row, hin, hcommitted, hplace⟩

/-- A call that a step is not about. -/
theorem CallSound.left {j : Nat} (h : CallSound calls s j) (hphase : s'.phases j = s.phases j)
    (hinserted : inserted s' j = inserted s j) (hcommitted : ∀ place, Committed s place → Committed s' place) :
    CallSound calls s' j where
  nonempty hopen := by
    rw [hphase] at hopen
    exact h.nonempty hopen
  progress hchecked := by
    rw [hphase] at hchecked ⊢
    rw [hinserted]
    exact h.progress hchecked
  untouched hchecked := by
    rw [hphase] at hchecked
    rw [hinserted]
    exact h.untouched hchecked
  base hchecked expected hexpects := by
    rw [hphase] at hchecked
    obtain ⟨hle, hall⟩ := h.base hchecked expected hexpects
    exact ⟨hle, fun v hv hv' => hcommitted _ (hall v hv hv')⟩

@[simp] theorem set_rows (s : Appends) (i : Nat) (phase : Phase) : (s.set i phase).rows = s.rows :=
  rfl

@[simp] theorem set_self (s : Appends) (i : Nat) (phase : Phase) : (s.set i phase).phases i = phase := by
  simp [Appends.set]

theorem set_other (s : Appends) {i j : Nat} (phase : Phase) (h : j ≠ i) : (s.set i phase).phases j = s.phases j := by
  simp [Appends.set, h]

@[simp] theorem abort_self (s : Appends) (i : Nat) : (s.abort i).phases i = .failed := by
  simp [Appends.abort]

theorem abort_other (s : Appends) {i j : Nat} (h : j ≠ i) : (s.abort i).phases j = s.phases j := by
  simp [Appends.abort, h]

@[simp] theorem store_self (s : Appends) (i : Nat) (sequence : Int) (event : EventEnvelope) (rest : List EventEnvelope) :
    (s.store i sequence event rest).phases i = .inserting rest := by
  simp [Appends.store]

theorem store_other (s : Appends) {i j : Nat} (sequence : Int) (event : EventEnvelope) (rest : List EventEnvelope)
    (h : j ≠ i) : (s.store i sequence event rest).phases j = s.phases j := by
  simp [Appends.store, h]

theorem inserted_store_self (s : Appends) (i : Nat) (sequence : Int) (event : EventEnvelope) (rest : List EventEnvelope) :
    inserted (s.store i sequence event rest) i = inserted s i ++ [event.place] := by
  unfold inserted Appends.store
  simp only [List.filter_append, List.map_append]
  simp [EventEnvelope.place]

theorem inserted_store_other (s : Appends) {i j : Nat} (sequence : Int) (event : EventEnvelope)
    (rest : List EventEnvelope) (h : j ≠ i) : inserted (s.store i sequence event rest) j = inserted s j := by
  unfold inserted Appends.store
  have hne : ¬i = j := fun heq => h heq.symm
  simp [List.filter_append, hne]

theorem inserted_abort_self (s : Appends) (i : Nat) : inserted (s.abort i) i = [] := by
  rw [List.eq_nil_iff_forall_not_mem]
  intro place hplace
  obtain ⟨row, hrow, hby, -⟩ := mem_inserted.1 hplace
  have hne := (List.mem_filter.1 hrow).2
  exact of_decide_eq_true hne hby

theorem inserted_abort_other (s : Appends) {i j : Nat} (h : j ≠ i) : inserted (s.abort i) j = inserted s j := by
  unfold inserted Appends.abort
  congr 1
  rw [List.filter_filter]
  apply List.filter_congr
  intro row _
  by_cases hby : row.insertedBy = j
  · simp [hby, h]
  · simp [hby]

/-- A call moves on without touching a row, and does not commit. -/
theorem Sound.set (h : Sound calls s) {phase : Phase} (hold : s.phases i ≠ .committed) (hnew : phase ≠ .committed)
    (hcall : (∀ place, Committed s place ↔ Committed (s.set i phase) place) → CallSound calls (s.set i phase) i) :
    Sound calls (s.set i phase) := by
  have hcommitted : ∀ place, Committed (s.set i phase) place ↔ Committed s place := by
    apply committed_congr
    intro row
    refine and_congr_right fun _ => ?_
    by_cases hby : row.insertedBy = i
    · rw [hby, set_self]
      exact ⟨fun heq => absurd heq hnew, fun heq => absurd heq hold⟩
    · rw [set_other s phase hby]
  refine ⟨h.distinct, fun j => ?_, fun stream => ?_⟩
  · by_cases hj : j = i
    · rw [hj]
      exact hcall fun place => (hcommitted place).symm
    · exact (h.call j).left (set_other s phase hj) rfl fun place => (hcommitted place).2
  · obtain ⟨n, hn⟩ := h.contiguous stream
    exact ⟨n, fun v => (hcommitted _).trans (hn v)⟩

/-- A call fails, and leaves no row behind. -/
theorem Sound.abort (h : Sound calls s) (hold : s.phases i ≠ .committed) : Sound calls (s.abort i) := by
  have hcommitted : ∀ place, Committed (s.abort i) place ↔ Committed s place := by
    apply committed_congr
    intro row
    by_cases hby : row.insertedBy = i
    · rw [hby, abort_self]
      exact ⟨fun hin => absurd hin.2 (by decide), fun hin => absurd hin.2 hold⟩
    · rw [abort_other s hby]
      refine and_congr_left fun _ => ?_
      unfold Appends.abort
      rw [List.mem_filter]
      exact ⟨fun hin => hin.1, fun hin => ⟨hin, decide_eq_true hby⟩⟩
  refine ⟨?_, fun j => ?_, fun stream => ?_⟩
  · exact h.distinct.sublist (List.filter_sublist.map _)
  · by_cases hj : j = i
    · rw [hj]
      refine ⟨?_, ?_, fun _ => inserted_abort_self s i, ?_⟩
      · rw [abort_self]
        rintro (hopen | hcommits)
        · cases hopen
        · cases hcommits
      · rw [abort_self]
        intro hchecked
        cases hchecked
      · rw [abort_self]
        intro hchecked
        cases hchecked
    · exact (h.call j).left (abort_other s hj) (inserted_abort_other s hj) fun place => (hcommitted place).2
  · obtain ⟨n, hn⟩ := h.contiguous stream
    exact ⟨n, fun v => (hcommitted _).trans (hn v)⟩

/-- A row goes in beside the others. -/
theorem Sound.store (h : Sound calls s) {sequence : Int} {event : EventEnvelope} {rest : List EventEnvelope}
    (hphase : s.phases i = .drawn sequence event rest) (hfree : ∀ row ∈ s.rows, row.event.clashes event = false) :
    Sound calls (s.store i sequence event rest) := by
  have hcommitted : ∀ place, Committed (s.store i sequence event rest) place ↔ Committed s place := by
    apply committed_congr
    intro row
    by_cases hby : row.insertedBy = i
    · rw [hby, store_self, hphase]
      exact ⟨fun hin => absurd hin.2 (by simp), fun hin => absurd hin.2 (by simp)⟩
    · rw [store_other s _ _ _ hby]
      refine and_congr_left fun _ => ?_
      unfold Appends.store
      rw [List.mem_append, List.mem_singleton]
      refine ⟨fun hin => hin.resolve_right ?_, .inl⟩
      rintro rfl
      exact hby rfl
  have hcall := h.call i
  have hchecked : (s.phases i).checked = true := by rw [hphase]; rfl
  refine ⟨?_, fun j => ?_, fun stream => ?_⟩
  · unfold Appends.store
    rw [List.map_append, List.nodup_append]
    refine ⟨h.distinct, List.nodup_singleton _, fun a ha b hb heq => ?_⟩
    obtain ⟨row, hrow, rfl⟩ := List.mem_map.1 ha
    have hplace : row.event.place = event.place := heq.trans (List.mem_singleton.1 hb)
    have hclash := hfree row hrow
    simp [EventEnvelope.clashes, hplace] at hclash
  · by_cases hj : j = i
    · subst hj
      have hprogress := hcall.progress hchecked
      rw [hphase] at hprogress
      refine ⟨fun _ => hcall.nonempty (by rw [hphase]; exact .inl rfl), fun _ => ?_, ?_, fun _ expected hexpects => ?_⟩
      · rw [store_self, inserted_store_self, ← hprogress, List.append_assoc]
        rfl
      · rw [store_self]
        intro hnot
        cases hnot
      · obtain ⟨hle, hall⟩ := hcall.base hchecked expected hexpects
        exact ⟨hle, fun v hv hv' => (hcommitted _).2 (hall v hv hv')⟩
    · exact (h.call j).left (store_other s _ _ _ hj) (inserted_store_other s _ _ _ hj) fun place => (hcommitted place).2
  · obtain ⟨n, hn⟩ := h.contiguous stream
    exact ⟨n, fun v => (hcommitted _).trans (hn v)⟩

/-- A call commits: its versions follow the committed ones of its stream. -/
theorem Sound.commit (h : Sound calls s) (hsaved : (calls i).Saved) (hphase : s.phases i = .inserting []) :
    Sound calls (s.set i .committed) := by
  have hcommitted : ∀ place, Committed (s.set i .committed) place ↔ Committed s place ∨ place ∈ inserted s i := by
    intro place
    rw [mem_inserted]
    constructor
    · rintro ⟨row, hin, hcommits, hplace⟩
      by_cases hby : row.insertedBy = i
      · exact .inr ⟨row, hin, hby, hplace⟩
      · rw [set_other s _ hby] at hcommits
        exact .inl ⟨row, hin, hcommits, hplace⟩
    · rintro (⟨row, hin, hcommits, hplace⟩ | ⟨row, hin, hby, hplace⟩)
      · refine ⟨row, hin, ?_, hplace⟩
        by_cases hby : row.insertedBy = i
        · rw [hby, set_self]
        · rw [set_other s _ hby]
          exact hcommits
      · refine ⟨row, hin, ?_, hplace⟩
        rw [hby, set_self]
  have hcall := h.call i
  have hchecked : (s.phases i).checked = true := by rw [hphase]; rfl
  have hne := hcall.nonempty (by rw [hphase]; exact .inl rfl)
  have hprogress : inserted s i = (calls i).events.map EventEnvelope.place := by
    have hall := hcall.progress hchecked
    rw [hphase] at hall
    simpa [Phase.rest] using hall
  refine ⟨h.distinct, fun j => ?_, fun stream => ?_⟩
  · by_cases hj : j = i
    · subst hj
      refine ⟨fun _ => hne, fun _ => ?_, ?_, fun _ expected hexpects => ?_⟩
      · rw [set_self]
        show inserted s j ++ [] = _
        rw [List.append_nil, hprogress]
      · rw [set_self]
        intro hnot
        cases hnot
      · obtain ⟨hle, hall⟩ := hcall.base hchecked expected hexpects
        exact ⟨hle, fun v hv hv' => (hcommitted _).2 (.inl (hall v hv hv'))⟩
    · exact (h.call j).left (set_other s _ hj) rfl fun place hplace => (hcommitted place).2 (.inl hplace)
  · obtain ⟨n, hn⟩ := h.contiguous stream
    obtain ⟨expected, hexpects, hplaces⟩ := hsaved
    obtain ⟨hle, hbase⟩ := hcall.base hchecked expected hexpects
    have hmem : ∀ v : Int, (stream, v) ∈ inserted s i ↔
        stream = (calls i).streamId ∧ expected + 1 ≤ v ∧ v ≤ expected + (calls i).events.length := by
      intro v
      rw [hprogress, hplaces]
      simp only [List.mem_map, List.mem_range, Prod.mk.injEq]
      constructor
      · rintro ⟨k, hk, rfl, rfl⟩
        exact ⟨rfl, by omega, by omega⟩
      · rintro ⟨rfl, hlow, hhigh⟩
        exact ⟨(v - expected - 1).toNat, by omega, rfl, by omega⟩
    by_cases hstream : stream = (calls i).streamId
    · subst hstream
      -- no other call has committed the first of its versions, since its own row stands there
      have hfirst : ¬Committed s ((calls i).streamId, expected + 1) := by
        rintro ⟨row, hin, hcommits, hplace⟩
        have hown := (hmem (expected + 1)).2 ⟨rfl, by omega, by
          have := List.length_pos_iff.2 hne
          omega⟩
        obtain ⟨own, hstored, rfl, hownPlace⟩ := mem_inserted.1 hown
        have hsame := row_unique h.distinct hin hstored (hplace.trans hownPlace.symm)
        rw [hsame, hphase] at hcommits
        cases hcommits
      have hn' : (n : Int) = expected := by
        have hlt := mt (hn (expected + 1)).2 hfirst
        have hge : expected = 0 ∨ 1 ≤ expected ∧ expected ≤ n := by
          by_cases hpos : 1 ≤ expected
          · exact .inr ((hn expected).1 (hbase expected hpos (Int.le_refl _)))
          · exact .inl (by omega)
        omega
      refine ⟨n + (calls i).events.length, fun v => ?_⟩
      rw [hcommitted, hn v, hmem v]
      push_cast
      simp only [true_and]
      omega
    · refine ⟨n, fun v => ?_⟩
      rw [hcommitted, hmem v, hn v]
      simp [hstream]

/-- A number drawn changes nothing else. -/
theorem Sound.sequence (h : Sound calls s) (n : Int) : Sound calls { s with lastSequence := n } where
  distinct := h.distinct
  call i := ⟨(h.call i).nonempty, (h.call i).progress, (h.call i).untouched, (h.call i).base⟩
  contiguous := h.contiguous

theorem not_committed_of_open (h : (s.phases i).isOpen = true) : s.phases i ≠ .committed := by
  intro heq
  rw [heq] at h
  cases h

/-- A call moves on before its version check. -/
theorem Sound.moved (h : Sound calls s) (hready : s.phases i = .ready) {phase : Phase} (hnew : phase ≠ .committed)
    (hchecked : phase.checked = false) (hnonempty : phase.isOpen = true → (calls i).events ≠ []) :
    Sound calls (s.set i phase) := by
  refine h.set (by rw [hready]; decide) hnew fun _ => ?_
  have hnone : inserted (s.set i phase) i = [] := (h.call i).untouched (by rw [hready]; rfl)
  refine ⟨?_, ?_, fun _ => hnone, ?_⟩
  · rw [set_self]
    exact fun hopen => hnonempty (hopen.resolve_right hnew)
  · rw [set_self, hchecked]
    intro hnot
    cases hnot
  · rw [set_self, hchecked]
    intro hnot
    cases hnot

/-- The version check passes: the versions up to the expected one are committed. -/
theorem Sound.check (h : Sound calls s) (hopened : s.phases i = .opened)
    (hagrees : ∀ expected, (calls i).expectedVersion = some expected → s.currentVersion (calls i).streamId = expected) :
    Sound calls (s.set i (.inserting (calls i).events)) := by
  refine h.set (by rw [hopened]; decide) (by simp) fun hcommitted => ?_
  have hnone : inserted (s.set i (.inserting (calls i).events)) i = [] := (h.call i).untouched (by rw [hopened]; rfl)
  refine ⟨fun _ => (h.call i).nonempty (by rw [hopened]; exact .inl rfl), fun _ => ?_, ?_, fun _ expected hexpects => ?_⟩
  · rw [hnone, set_self]
    rfl
  · rw [set_self]
    intro hnot
    cases hnot
  · obtain ⟨n, hn⟩ := h.contiguous (calls i).streamId
    have hcurrent := hagrees expected hexpects
    rw [currentVersion_eq hn] at hcurrent
    refine ⟨by omega, fun v hv hv' => (hcommitted _).1 ((hn v).2 ⟨hv, by omega⟩)⟩

theorem Sound.draw (h : Sound calls s) {event : EventEnvelope} {rest : List EventEnvelope}
    (hphase : s.phases i = .inserting (event :: rest)) : Sound calls (s.draw i event rest) := by
  refine (h.sequence (s.lastSequence + 1)).set ?_ (by simp) fun hcommitted => ?_
  · show s.phases i ≠ .committed
    rw [hphase]
    simp
  · have hcall := h.call i
    have hchecked : (s.phases i).checked = true := by rw [hphase]; rfl
    have hprogress := hcall.progress hchecked
    rw [hphase] at hprogress
    refine ⟨fun _ => hcall.nonempty (by rw [hphase]; exact .inl rfl), fun _ => ?_, ?_, fun _ expected hexpects => ?_⟩
    · rw [set_self]
      exact hprogress
    · rw [set_self]
      intro hnot
      cases hnot
    · obtain ⟨hle, hall⟩ := hcall.base hchecked expected hexpects
      exact ⟨hle, fun v hv hv' => (hcommitted _).1 (hall v hv hv')⟩

theorem AppendStep.sound (hsaved : ∀ i, (calls i).Saved) {move : Move} (hstep : AppendStep calls s move s')
    (h : Sound calls s) : Sound calls s' := by
  cases hstep with
  | skip i hready hempty => exact h.moved hready (by decide) rfl fun hopen => by cases hopen
  | begin i hready hnonempty => exact h.moved hready (by decide) rfl fun _ => hnonempty
  | conflict i expected hopened hexpects hdiffers =>
    apply h.abort
    rw [hopened]
    decide
  | check i hopened hagrees => exact h.check hopened hagrees
  | draw i event rest hphase => exact h.draw hphase
  | insert i sequence event rest hphase hfree => exact h.store hphase hfree
  | violate i sequence event rest row hphase hin hsettled hclashes =>
    apply h.abort
    rw [hphase]
    simp
  | commit i hphase => exact h.commit (hsaved i) hphase
  | fault i hopen => exact h.abort (not_committed_of_open hopen)

theorem sound_inductive (hsaved : ∀ i, (calls i).Saved) : (appendSystem calls).Inductive (Sound calls) where
  init s hs := by
    obtain ⟨hrows, -, hready⟩ := hs
    have hnone : ∀ place, ¬Committed s place := by
      rintro place ⟨row, hin, -⟩
      rw [hrows] at hin
      cases hin
    refine ⟨?_, fun i => ⟨?_, ?_, fun _ => ?_, ?_⟩, fun stream => ⟨0, fun v => ?_⟩⟩
    · rw [hrows]
      exact List.nodup_nil
    · rw [hready]
      rintro (hopen | hcommits)
      · cases hopen
      · cases hcommits
    · rw [hready]
      intro hchecked
      cases hchecked
    · unfold inserted
      rw [hrows]
      rfl
    · rw [hready]
      intro hchecked
      cases hchecked
    · refine ⟨fun hcommitted => absurd hcommitted (hnone _), fun hle => ?_⟩
      omega
  step _ _ _ h hstep := hstep.sound hsaved h

/-! ## Optimistic concurrency -/

/-- The committed versions of a stream, in the order of the table. -/
def committedVersions (s : Appends) (stream : StreamId) : List Int :=
  (s.visible.filter (·.streamId = stream)).map (·.streamVersion)

/-- The versions of each stream are numbered through, one call of those that expect the same version commits at
the most, and a failed one leaves nothing. -/
structure Orderly (calls : Nat → Append) (s : Appends) : Prop where
  versions : ∀ stream, ∃ n : Nat, (committedVersions s stream).Perm ((List.range n).map fun k : Nat => (k : Int) + 1)
  once : ∀ i j, s.phases i = .committed → s.phases j = .committed → (calls i).streamId = (calls j).streamId →
    (calls i).expectedVersion = (calls j).expectedVersion → i = j
  nothing : ∀ i, s.phases i = .failed → ∀ row ∈ s.rows, row.insertedBy ≠ i

theorem committedVersions_nodup (h : (s.rows.map (·.event.place)).Nodup) (stream : StreamId) :
    (committedVersions s stream).Nodup := by
  unfold committedVersions Appends.visible
  have hsub : ((s.rows.filter s.isCommitted).map (·.event)).Sublist (s.rows.map (·.event)) := List.filter_sublist.map _
  have hplaces : (((s.rows.filter s.isCommitted).map (·.event)).map EventEnvelope.place).Nodup := by
    refine List.Nodup.sublist (hsub.map _) ?_
    rw [List.map_map]
    exact h
  apply List.Nodup.map_on
  · intro a ha b hb heq
    obtain ⟨hina, hastream⟩ := List.mem_filter.1 ha
    obtain ⟨hinb, hbstream⟩ := List.mem_filter.1 hb
    apply List.inj_on_of_nodup_map hplaces hina hinb
    exact Prod.ext ((of_decide_eq_true hastream).trans (of_decide_eq_true hbstream).symm) heq
  · exact (List.Nodup.of_map _ hplaces).filter _

theorem Sound.orderly (h : Sound calls s) (hsaved : ∀ i, (calls i).Saved) : Orderly calls s where
  versions stream := by
    obtain ⟨n, hn⟩ := h.contiguous stream
    refine ⟨n, (List.perm_ext_iff_of_nodup (committedVersions_nodup h.distinct stream) ?_).2 fun v => ?_⟩
    · refine List.Nodup.map_on (fun a _ b _ heq => ?_) List.nodup_range
      omega
    · have hmem : v ∈ committedVersions s stream ↔ Committed s (stream, v) := by
        rw [← mem_visible]
        unfold committedVersions
        simp only [List.mem_map, List.mem_filter, decide_eq_true_eq, and_assoc]
      rw [hmem, hn v, List.mem_map]
      simp only [List.mem_range]
      constructor
      · rintro ⟨hlow, hhigh⟩
        exact ⟨(v - 1).toNat, by omega, by omega⟩
      · rintro ⟨k, hk, rfl⟩
        omega
  once i j hi hj hstream hexpected := committed_unique h hsaved hi hj hstream hexpected
  nothing i hfailed row hin hby := by
    have hnone := (h.call i).untouched (by rw [hfailed]; rfl)
    have hplace := mem_inserted.2 ⟨row, hin, hby, rfl⟩
    rw [hnone] at hplace
    cases hplace

/-- However the statements of the calls interleave. -/
theorem appended_in_order (calls : Nat → Append) (hsaved : ∀ i, (calls i).Saved) (s : Appends)
    (h : (appendSystem calls).Reachable s) : Orderly calls s :=
  ((sound_inductive hsaved).reachable h).orderly hsaved

/-! ## A race for the first version -/

def firstEvent (i : Nat) : EventEnvelope where
  eventId := Fin.ofNat _ i
  streamId := 7
  streamVersion := 1
  globalSequence := 0
  eventType := .created
  metadata := {}
  payload := .null
  recordedAt := 0

/-- Each call saves a new aggregate with one event on the same stream. -/
def race (i : Nat) : Append :=
  Aggregate.save
    { streamId := 7
      version := 1
      uncommitted := [firstEvent i]
      own := fun _ hevent => by rw [List.mem_singleton.1 hevent]; rfl }

/-- Both calls have passed their check, and both have drawn a number. -/
def racing : Appends :=
  ((((⟨[], 0, fun _ => .ready⟩ : Appends).set 0 .opened |>.set 1 .opened).set 0 (.inserting [firstEvent 0])).set 1
    (.inserting [firstEvent 1])).draw 0 (firstEvent 0) [] |>.draw 1 (firstEvent 1) []

/-- The first call has committed, the second one has failed. -/
def raced : Appends :=
  ((racing.store 0 1 (firstEvent 0) []).set 0 .committed).abort 1

theorem raced_reachable : (appendSystem race).Reachable raced := by
  have hagrees : ∀ (s : Appends) (i : Nat), s.rows = [] → ∀ expected, (race i).expectedVersion = some expected →
      s.currentVersion (race i).streamId = expected := by
    intro s i hrows expected hexpected
    cases hexpected
    unfold Appends.currentVersion Appends.visible
    rw [hrows]
    rfl
  refine ⟨⟨[], 0, fun _ => .ready⟩, [.begin 0, .begin 1, .check 0, .check 1, .draw 0, .draw 1, .insert 0, .commit 0,
    .insert 1], ⟨rfl, rfl, fun _ => rfl⟩, ?_⟩
  refine .cons (.begin 0 rfl (by simp [race, Aggregate.save, Aggregate.uncommittedEnvelopes])) ?_
  refine .cons (.begin 1 rfl (by simp [race, Aggregate.save, Aggregate.uncommittedEnvelopes])) ?_
  refine .cons (.check 0 rfl (hagrees _ 0 rfl)) ?_
  refine .cons (.check 1 rfl (hagrees _ 1 rfl)) ?_
  refine .cons (.draw 0 (firstEvent 0) [] rfl) ?_
  refine .cons (.draw 1 (firstEvent 1) [] rfl) ?_
  refine .cons (.insert 0 1 (firstEvent 0) [] rfl fun row hrow => by cases hrow) ?_
  refine .cons (.commit 0 rfl) ?_
  refine .cons (.violate 1 2 (firstEvent 1) [] ⟨{ firstEvent 0 with globalSequence := 1 }, 0⟩ rfl List.mem_cons_self
    (.inl rfl) rfl) ?_
  exact .nil _

theorem appended_in_order_race :
    (appendSystem race).Reachable raced ∧ raced.phases 0 = .committed ∧ raced.phases 1 = .failed ∧ Orderly race raced :=
  ⟨raced_reachable, rfl, rfl, appended_in_order race (fun _ => Aggregate.save_saved _) raced raced_reachable⟩

end Atomo.Events

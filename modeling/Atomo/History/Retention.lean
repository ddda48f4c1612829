import Atomo.History.EventStore
import Mathlib.Algebra.Order.BigOperators.Group.List
import Mathlib.Algebra.Order.Group.Nat
import Mathlib.Data.List.Dedup
import Mathlib.Data.List.Rotate

/-!
# A maintenance pass

`EventStore::maintain` as one call: from a cursor on it goes through the models of the log, and each transaction takes
from one budget what it deletes. Between two transactions others may do what they like to the tables, and a
transaction may fail. A pass deletes what is over its limits, the oldest first, and no more than its batch
(`Sweep.Sound`); passes that nobody else interferes with leave nothing that was over its limits when they began
(`maintained`).
-/

namespace Atomo.History

/-! ## Definitions -/

/-- The committed rows of `event_log`, with the `id` of each. -/
structure EventLog where
  rows : List LogEntry
  id : LogEntry → Nat
  unique : (rows.map (·.eventId)).Nodup
  keyed : (rows.map id).Nodup

namespace EventLog

/-- `ORDER BY created_at,id`. -/
def Older (log : EventLog) (a b : LogEntry) : Prop :=
  a.createdAt < b.createdAt ∨ a.createdAt = b.createdAt ∧ log.id a < log.id b

instance (log : EventLog) (a b : LogEntry) : Decidable (log.Older a b) :=
  inferInstanceAs (Decidable (_ ∨ _))

/-- The rows of a model, in the order of its window. -/
def newestFirst (log : EventLog) (model : String) : List LogEntry :=
  (log.rows.filter fun row => row.modelName = model).mergeSort fun a b => !decide (log.Older a b)

/-- `DELETE FROM event_log`. -/
def delete (log : EventLog) (deleted : List LogEntry) : EventLog where
  rows := log.rows.filter fun row => row.eventId ∉ deleted.map (·.eventId)
  id := log.id
  unique := log.unique.sublist (List.filter_sublist.map _)
  keyed := log.keyed.sublist (List.filter_sublist.map _)

/-- The bytes of a row and of the rows of its model that are not older. -/
def keptBytes (server : Server) (log : EventLog) (row : LogEntry) : Nat :=
  ((log.rows.filter fun r => r.modelName = row.modelName ∧ ¬log.Older r row).map server.columnSize).sum

end EventLog

/-- The tables that a pass works on. -/
structure Tables where
  log : EventLog
  coverage : String → Option Coverage

/-- The statements of a batch. -/
def Tables.sweep (t : Tables) (model : String) (now : Int) (deleted : List LogEntry) : Tables where
  log := t.log.delete deleted
  coverage :=
    if deleted = [] then t.coverage
    else Function.update t.coverage model (some (pruned now deleted (t.coverage model)))

/-- `EventStore`, with its cursor. `with_config` refuses a configuration that is not valid. -/
structure EventStore where
  config : HistoryConfig
  validated : config.valid = true
  maintenanceCursor : Nat

/-- What a commit comes to: it may be lost, and it may go through although the connection fails. -/
inductive Commit where
  | done
  | lost
  | unacknowledged
  deriving DecidableEq

/-- What the transactions of a pass meet, by their number. -/
structure Surroundings where
  now : Nat → Int
  others : Nat → Tables → Tables
  commit : Nat → Commit

/-- A batch that was deleted: the log before it, and what was left of the budget. -/
structure Sweep where
  model : String
  now : Int
  remaining : Nat
  before : EventLog
  deleted : List LogEntry

/-- How a pass ends. -/
inductive PassEnd where
  | returned (removed : Nat)
  | failed
  | overflow
  deriving DecidableEq

structure Maintained where
  sweeps : List Sweep
  tables : Tables
  ended : PassEnd

/-- The loop over the models, from the transaction with number `k` on. -/
def sweepModels (server : Server) (config : HistoryConfig) (env : Surroundings) :
    Nat → List String → Nat → Nat → Tables → Maintained
  | _, [], _, removed, t => ⟨[], t, .returned removed⟩
  | k, model :: models, remaining, removed, t =>
    if remaining = 0 then ⟨[], t, .returned removed⟩
    else if (config.policy model).mode ≠ .retained then sweepModels server config env k models remaining removed t
    else
      let t := env.others k t
      let now := env.now k
      let deleted := victims server (config.policy model) now remaining (t.log.newestFirst model)
      let sweep : Sweep := ⟨model, now, remaining, t.log, deleted⟩
      match env.commit k with
      | .lost => ⟨[], t, .failed⟩
      | .unacknowledged => ⟨[sweep], t.sweep model now deleted, .failed⟩
      | .done =>
        -- `remaining -= deleted.len() as u32`
        if deleted.length % 2 ^ 32 ≤ remaining then
          let rest := sweepModels server config env (k + 1) models (remaining - deleted.length % 2 ^ 32)
            (removed + deleted.length) (t.sweep model now deleted)
          { rest with sweeps := sweep :: rest.sweeps }
        else ⟨[sweep], t.sweep model now deleted, .overflow⟩

/-- `SELECT DISTINCT model_name … ORDER BY model_name`. -/
def Tables.models (server : Server) (t : Tables) : List String :=
  ((t.log.rows.map (·.modelName)).dedup).mergeSort server.textLe

/-- `EventStore::maintain`. -/
def maintain (server : Server) (store : EventStore) (env : Surroundings) (t : Tables) : Maintained × EventStore :=
  if !(store.config.default :: store.config.models.map (·.2)).any (·.mode = .retained) then
    (⟨[], t, .returned 0⟩, store)
  else
    let models := t.models server
    if models = [] then (⟨[], t, .returned 0⟩, store)
    else
      (sweepModels server store.config env 0 (models.rotate (store.maintenanceCursor % models.length))
        store.config.batchSize 0 t,
        { store with maintenanceCursor := (store.maintenanceCursor + 1) % 2 ^ 64 })

/-! ## What is claimed of it -/

/-- The row is beyond a limit of the policy. -/
def Exceeds (server : Server) (log : EventLog) (policy : HistoryPolicy) (now : Int) (row : LogEntry) : Prop :=
  (∃ secs, policy.maxAgeSecs = some secs ∧ (secs : Int) * 1000000 < now - row.createdAt) ∨
    ∃ bytes, policy.maxBytes = some bytes ∧ bytes < log.keptBytes server row

/-- A batch deletes rows of a model with retention that are beyond its limits, the oldest first, so that what it leaves
of the model is newer. -/
structure Sweep.Sound (server : Server) (config : HistoryConfig) (s : Sweep) : Prop where
  retained : (config.policy s.model).mode = .retained
  within : s.deleted.length ≤ s.remaining
  rows : ∀ row ∈ s.deleted, row ∈ s.before.rows ∧ row.modelName = s.model
  exceeds : ∀ row ∈ s.deleted, Exceeds server s.before (config.policy s.model) s.now row
  oldestFirst : s.deleted.Pairwise s.before.Older
  leaves : ∀ row ∈ s.before.rows, row ∈ (s.before.delete s.deleted).rows ↔ row ∉ s.deleted
  newer : ∀ row ∈ s.before.rows, row.modelName = s.model → row ∉ s.deleted → ∀ gone ∈ s.deleted, s.before.Older gone row

/-- What a pass does to the tables are its batches, and what others do. -/
inductive Swept (env : Surroundings) : Nat → Tables → List Sweep → Tables → Prop
  | done (k : Nat) (t : Tables) : Swept env k t [] t
  | lost (k : Nat) (t : Tables) : Swept env k t [] (env.others k t)
  | sweep {k : Nat} {t t' : Tables} {s : Sweep} {sweeps : List Sweep} (hbefore : s.before = (env.others k t).log)
    (hrest : Swept env (k + 1) ((env.others k t).sweep s.model s.now s.deleted) sweeps t') :
    Swept env k t (s :: sweeps) t'

/-- The surroundings of a pass that nobody interferes with. -/
def quiet (now : Nat → Int) : Surroundings where
  now := now
  others _ t := t
  commit _ := .done

/-- The tables after some passes, with the store; `now i k` is the time of transaction `k` of pass `i`. -/
def passes (server : Server) (now : Nat → Nat → Int) (store : EventStore) (t : Tables) : Nat → Tables × EventStore
  | 0 => (t, store)
  | n + 1 =>
    let (t, store) := passes server now store t n
    let (m, store) := maintain server store (quiet (now n)) t
    (m.tables, store)

/-! ## The order of a log -/

namespace EventLog

variable {log : EventLog} {a b c : LogEntry} {model : String}

theorem not_older_trans (hab : ¬log.Older a b) (hbc : ¬log.Older b c) : ¬log.Older a c := by
  unfold Older at *
  omega

theorem older_asymm (h : log.Older a b) : ¬log.Older b a := by
  unfold Older at *
  omega

theorem createdAt_le (h : ¬log.Older a b) : b.createdAt ≤ a.createdAt := by
  unfold Older at h
  omega

/-- Of two rows of a log one is older. -/
theorem eq_of_not_older (ha : a ∈ log.rows) (hb : b ∈ log.rows) (hab : ¬log.Older a b) (hba : ¬log.Older b a) :
    a = b := by
  refine List.inj_on_of_nodup_map log.keyed ha hb ?_
  unfold Older at *
  omega

theorem nodup_rows (log : EventLog) : log.rows.Nodup :=
  List.Nodup.of_map _ log.keyed

theorem mem_newestFirst : a ∈ log.newestFirst model ↔ a ∈ log.rows ∧ a.modelName = model := by
  unfold newestFirst
  rw [(List.mergeSort_perm _ _).mem_iff, List.mem_filter, decide_eq_true_eq]

theorem nodup_newestFirst : (log.newestFirst model).Nodup :=
  (List.mergeSort_perm _ _).nodup_iff.2 (log.nodup_rows.filter _)

/-- The newest row comes first. -/
theorem pairwise_newestFirst (log : EventLog) (model : String) :
    (log.newestFirst model).Pairwise fun a b => log.Older b a := by
  have hsorted : (log.newestFirst model).Pairwise fun a b => (!decide (log.Older a b)) = true := by
    refine List.pairwise_mergeSort ?_ ?_ _
    · intro a b c hab hbc
      simp only [Bool.not_eq_true', decide_eq_false_iff_not] at hab hbc ⊢
      exact not_older_trans hab hbc
    · intro a b
      simp only [Bool.or_eq_true, Bool.not_eq_true', decide_eq_false_iff_not]
      exact or_iff_not_imp_left.2 fun h => older_asymm (not_not.1 h)
  refine (hsorted.and nodup_newestFirst).imp_of_mem ?_
  rintro a b ha hb ⟨hle, hne⟩
  have hnot : ¬log.Older a b := by simpa using hle
  by_contra hba
  exact hne (eq_of_not_older (mem_newestFirst.1 ha).1 (mem_newestFirst.1 hb).1 hnot hba)

theorem mem_delete {deleted : List LogEntry} (hdeleted : ∀ row ∈ deleted, row ∈ log.rows) (ha : a ∈ log.rows) :
    a ∈ (log.delete deleted).rows ↔ a ∉ deleted := by
  unfold delete
  rw [List.mem_filter, and_iff_right ha, decide_eq_true_eq, not_iff_not, List.mem_map]
  constructor
  · rintro ⟨b, hb, heq⟩
    exact List.inj_on_of_nodup_map log.unique (hdeleted b hb) ha heq ▸ hb
  · exact fun h => ⟨a, h, rfl⟩

end EventLog

/-! ## The rows that are over a limit -/

section

variable {server : Server} {policy : HistoryPolicy} {now : Int} {limit : Nat} {ranked : List LogEntry}

theorem keptBytes_fst (server : Server) (kept : Nat) (rows : List LogEntry) :
    (keptBytes server kept rows).map (·.1) = rows := by
  induction rows generalizing kept with
  | nil => rfl
  | cons row rows ih => rw [keptBytes, List.map_cons, ih]

/-- The bytes at a row are those of the rows up to it. -/
theorem mem_keptBytes {kept : Nat} {row : LogEntry} {bytes : Nat} (h : (row, bytes) ∈ keptBytes server kept ranked) :
    ∃ newer older, ranked = newer ++ row :: older ∧
      bytes = kept + ((newer ++ [row]).map server.columnSize).sum := by
  induction ranked generalizing kept with
  | nil => cases h
  | cons first rest ih =>
    rcases List.mem_cons.1 h with heq | h
    · cases heq
      exact ⟨[], rest, rfl, by simp⟩
    · obtain ⟨newer, older, rfl, rfl⟩ := ih h
      refine ⟨first :: newer, older, rfl, ?_⟩
      simp only [List.map_append, List.map_cons, List.map_nil, List.sum_append, List.sum_cons, List.cons_append]
      omega

theorem keptBytes_pairwise (server : Server) (kept : Nat) (hsorted : ranked.Pairwise fun a b => b.createdAt ≤ a.createdAt) :
    (keptBytes server kept ranked).Pairwise fun a b => b.1.createdAt ≤ a.1.createdAt ∧ a.2 ≤ b.2 := by
  induction ranked generalizing kept with
  | nil => exact .nil
  | cons row rows ih =>
    rw [List.pairwise_cons] at hsorted
    refine List.pairwise_cons.2 ⟨?_, ih _ hsorted.2⟩
    rintro ⟨row', bytes⟩ hmem
    obtain ⟨newer, older, rfl, rfl⟩ := mem_keptBytes hmem
    exact ⟨hsorted.1 row' (by simp), by simp⟩

theorem expired_mono {a b : LogEntry × Nat} (h : b.1.createdAt ≤ a.1.createdAt ∧ a.2 ≤ b.2)
    (ha : expired policy now a = true) : expired policy now b = true := by
  unfold expired at ha ⊢
  rw [Bool.or_eq_true, Option.any_eq_true, Option.any_eq_true] at ha ⊢
  rcases ha with ⟨secs, hsecs, hage⟩ | ⟨bytes, hbytes, hsize⟩
  · refine .inl ⟨secs, hsecs, ?_⟩
    rw [decide_eq_true_eq] at hage ⊢
    omega
  · refine .inr ⟨bytes, hbytes, ?_⟩
    rw [decide_eq_true_eq] at hsize ⊢
    omega

/-- What has a property that goes on along a list is the rest of it. -/
theorem exists_append_filter {α : Type} {l : List α} {p : α → Bool} (h : l.Pairwise fun a b => p a = true → p b = true) :
    ∃ kept, l = kept ++ l.filter p ∧ ∀ a ∈ kept, p a = false := by
  induction l with
  | nil => exact ⟨[], rfl, nofun⟩
  | cons a l ih =>
    rw [List.pairwise_cons] at h
    cases hp : p a with
    | true =>
      have hall : l.filter p = l := List.filter_eq_self.2 fun b hb => h.1 b hb hp
      exact ⟨[], by rw [List.filter_cons_of_pos hp, hall, List.nil_append], nofun⟩
    | false =>
      obtain ⟨kept, hkept, hnot⟩ := ih h.2
      refine ⟨a :: kept, ?_, List.forall_mem_cons.2 ⟨hp, hnot⟩⟩
      rw [List.filter_cons_of_neg (by simp [hp]), List.cons_append, ← hkept]

/-- What a batch deletes is over a limit, and is what comes last; if the batch is not full, nothing else is over one. -/
theorem victims_spec (server : Server) (policy : HistoryPolicy) (now : Int) (limit : Nat)
    (hsorted : ranked.Pairwise fun a b => b.createdAt ≤ a.createdAt) (hnodup : ranked.Nodup) :
    ∃ kept, ranked = kept ++ (victims server policy now limit ranked).reverse ∧
      (victims server policy now limit ranked).length ≤ limit ∧
      (∀ row ∈ victims server policy now limit ranked,
        ∃ bytes, (row, bytes) ∈ keptBytes server 0 ranked ∧ expired policy now (row, bytes) = true) ∧
      ((victims server policy now limit ranked).length < limit → ∀ row ∈ kept, ∀ bytes,
        (row, bytes) ∈ keptBytes server 0 ranked → expired policy now (row, bytes) = false) := by
  obtain ⟨spared, hsplit, hspared⟩ := exists_append_filter (p := expired policy now)
    ((keptBytes_pairwise server 0 hsorted).imp fun h => expired_mono h)
  set excess := ((keptBytes server 0 ranked).filter (expired policy now)).map (·.1) with hexcess
  have hranked : ranked = spared.map (·.1) ++ excess := by
    rw [hexcess, ← List.map_append, ← hsplit, keptBytes_fst]
  have hvictims : victims server policy now limit ranked = (excess.drop (excess.length - limit)).reverse := List.take_reverse
  rw [hvictims]
  refine ⟨spared.map (·.1) ++ excess.take (excess.length - limit), ?_, ?_, fun row hrow => ?_,
    fun hlength row hrow bytes hmem => ?_⟩
  · rw [List.reverse_reverse, List.append_assoc, List.take_append_drop]
    exact hranked
  · rw [List.length_reverse, List.length_drop]
    omega
  · obtain ⟨⟨row', bytes⟩, hpair, rfl⟩ := List.mem_map.1 (List.mem_of_mem_drop (List.mem_reverse.1 hrow))
    exact ⟨bytes, List.mem_filter.1 hpair⟩
  · rw [List.length_reverse, List.length_drop] at hlength
    have htake : excess.take (excess.length - limit) = [] := by
      rw [show excess.length - limit = 0 by omega, List.take_zero]
    rw [htake, List.append_nil] at hrow
    cases hexpired : expired policy now (row, bytes) with
    | false => rfl
    | true =>
      have hmem' : row ∈ excess := List.mem_map.2 ⟨_, List.mem_filter.2 ⟨hmem, hexpired⟩, rfl⟩
      rw [hranked] at hnodup
      exact absurd hmem' (List.disjoint_of_nodup_append hnodup hrow)

end

section

variable {server : Server} {log : EventLog} {policy : HistoryPolicy} {now : Int}

/-- The window of a row is what is not older. -/
theorem window_eq {model : String} {row : LogEntry} {bytes : Nat}
    (h : (row, bytes) ∈ keptBytes server 0 (log.newestFirst model)) : bytes = log.keptBytes server row := by
  obtain ⟨newer, older, hranked, rfl⟩ := mem_keptBytes h
  have hmem : row ∈ log.newestFirst model := hranked ▸ List.mem_append_right _ List.mem_cons_self
  obtain ⟨hrow, rfl⟩ := EventLog.mem_newestFirst.1 hmem
  have hsorted := EventLog.pairwise_newestFirst log row.modelName
  have hnewer : (newer ++ [row]).filter (fun r => ¬log.Older r row) = newer ++ [row] := by
    refine List.filter_eq_self.2 fun r hr => ?_
    rw [decide_eq_true_eq]
    rcases List.mem_append.1 hr with hr | hr
    · rw [hranked, List.pairwise_append] at hsorted
      exact EventLog.older_asymm (hsorted.2.2 r hr row List.mem_cons_self)
    · rw [List.mem_singleton.1 hr]
      exact fun h => EventLog.older_asymm h h
  have holder : older.filter (fun r => ¬log.Older r row) = [] := by
    refine List.filter_eq_nil_iff.2 fun r hr => ?_
    rw [decide_eq_true_eq, not_not]
    rw [hranked, List.pairwise_append, List.pairwise_cons] at hsorted
    exact hsorted.2.1.1 r hr
  have hfilter : (log.newestFirst row.modelName).filter (fun r => ¬log.Older r row) = newer ++ [row] := by
    rw [hranked, List.append_cons, List.filter_append, hnewer, holder, List.append_nil]
  have hperm : (log.newestFirst row.modelName).Perm (log.rows.filter fun r => r.modelName = row.modelName) :=
    List.mergeSort_perm _ _
  have hsum := ((hperm.filter fun r => ¬log.Older r row).map server.columnSize).sum_nat
  rw [hfilter, List.filter_filter] at hsum
  unfold EventLog.keptBytes
  rw [Nat.zero_add, hsum]
  simp only [Bool.decide_and, Bool.and_comm]

/-- The condition of the statement is that a limit is exceeded. -/
theorem expired_iff {model : String} {row : LogEntry} {bytes : Nat}
    (h : (row, bytes) ∈ keptBytes server 0 (log.newestFirst model)) :
    expired policy now (row, bytes) = true ↔ Exceeds server log policy now row := by
  unfold expired Exceeds
  rw [← window_eq h, Bool.or_eq_true, Option.any_eq_true, Option.any_eq_true]
  cases policy.maxAgeSecs <;> simp

theorem exists_window (server : Server) {model : String} {row : LogEntry} (h : row ∈ log.newestFirst model) :
    ∃ bytes, (row, bytes) ∈ keptBytes server 0 (log.newestFirst model) := by
  rw [← keptBytes_fst server 0 (log.newestFirst model)] at h
  obtain ⟨⟨row', bytes⟩, hpair, rfl⟩ := List.mem_map.1 h
  exact ⟨bytes, hpair⟩

/-- A batch keeps to the policy of its model. -/
theorem sound_victims (server : Server) {config : HistoryConfig} {model : String} (now : Int) (remaining : Nat)
    (log : EventLog) (hmode : (config.policy model).mode = .retained) :
    Sweep.Sound server config
      ⟨model, now, remaining, log, victims server (config.policy model) now remaining (log.newestFirst model)⟩ := by
  have hsorted := EventLog.pairwise_newestFirst log model
  obtain ⟨kept, hranked, hlength, hexpired, -⟩ := victims_spec server (config.policy model) now remaining
    (hsorted.imp fun h => EventLog.createdAt_le (EventLog.older_asymm h)) EventLog.nodup_newestFirst
  have hrows : ∀ row ∈ victims server (config.policy model) now remaining (log.newestFirst model),
      row ∈ log.rows ∧ row.modelName = model :=
    fun row hrow => EventLog.mem_newestFirst.1 (hranked ▸ List.mem_append_right kept (List.mem_reverse.2 hrow))
  have hsplit := hsorted
  rw [hranked, List.pairwise_append] at hsplit
  refine ⟨hmode, hlength, hrows, fun row hrow => ?_, ?_, fun row hrow => ?_, fun row hrow hmodel hnot gone hgone => ?_⟩
  · obtain ⟨bytes, hpair, hover⟩ := hexpired row hrow
    exact (expired_iff hpair).1 hover
  · exact List.pairwise_reverse.1 hsplit.2.1
  · exact EventLog.mem_delete (fun r hr => (hrows r hr).1) hrow
  · have hmem : row ∈ log.newestFirst model := EventLog.mem_newestFirst.2 ⟨hrow, hmodel⟩
    rw [hranked] at hmem
    rcases List.mem_append.1 hmem with hkept | hdeleted
    · exact hsplit.2.2 row hkept gone (List.mem_reverse.2 hgone)
    · exact absurd (List.mem_reverse.1 hdeleted) hnot

/-- A batch that is not full leaves nothing of its model that is over a limit. -/
theorem not_exceeds_of_room (server : Server) (policy : HistoryPolicy) (now : Int) (log : EventLog) (model : String)
    (remaining : Nat)
    (hroom : (victims server policy now remaining (log.newestFirst model)).length < remaining) {row : LogEntry}
    (hrow : row ∈ log.rows) (hmodel : row.modelName = model)
    (hnot : row ∉ victims server policy now remaining (log.newestFirst model)) : ¬Exceeds server log policy now row := by
  have hsorted := EventLog.pairwise_newestFirst log model
  obtain ⟨kept, hranked, -, -, hleft⟩ := victims_spec server policy now remaining
    (hsorted.imp fun h => EventLog.createdAt_le (EventLog.older_asymm h)) EventLog.nodup_newestFirst
  have hmem : row ∈ log.newestFirst model := EventLog.mem_newestFirst.2 ⟨hrow, hmodel⟩
  obtain ⟨bytes, hpair⟩ := exists_window server hmem
  rw [hranked] at hmem
  rcases List.mem_append.1 hmem with hkept | hdeleted
  · rw [← expired_iff hpair, hleft hroom row hkept bytes hpair]
    exact Bool.false_ne_true
  · exact absurd (List.mem_reverse.1 hdeleted) hnot

end

/-! ## One pass -/

section

variable {config : HistoryConfig}

/-- What the loop over the models does. -/
theorem sweepModels_spec (server : Server) (env : Surroundings) (hbatch : config.batchSize < 2 ^ 32) (k : Nat) (models : List String) (remaining removed : Nat)
    (t : Tables) (hremaining : remaining ≤ config.batchSize) :
    let m := sweepModels server config env k models remaining removed t
    m.ended ≠ .overflow ∧ (m.sweeps.map (·.deleted.length)).sum ≤ remaining ∧
      (∀ s ∈ m.sweeps, s.Sound server config) ∧ Swept env k t m.sweeps m.tables := by
  induction models generalizing k remaining removed t with
  | nil => exact ⟨nofun, Nat.zero_le _, nofun, .done k t⟩
  | cons model models ih =>
    unfold sweepModels
    split
    · exact ⟨nofun, Nat.zero_le _, nofun, .done k t⟩
    split
    · exact ih k remaining removed t hremaining
    rename_i hmode
    have hsound := sound_victims server (env.now k) remaining (env.others k t).log (not_not.1 hmode)
    have hwithin := hsound.within
    dsimp only at hwithin ⊢
    split
    · exact ⟨nofun, Nat.zero_le _, nofun, .lost k t⟩
    · exact ⟨nofun, by simpa using hwithin, by simpa using hsound, .sweep rfl (.done _ _)⟩
    · rw [Nat.mod_eq_of_lt (by omega), if_pos hwithin]
      obtain ⟨hended, hsum, hsounds, hswept⟩ := ih (k + 1) (remaining - _) (removed + _) _ (by omega)
      refine ⟨hended, ?_, List.forall_mem_cons.2 ⟨hsound, hsounds⟩, .sweep rfl hswept⟩
      simp only [List.map_cons, List.sum_cons]
      omega

end

/-! ## Pass after pass -/

/-- A log that rows have been deleted from. -/
structure EventLog.Shrinks (log log' : EventLog) : Prop where
  id : log'.id = log.id
  rows : log'.rows.Sublist log.rows

section

variable {server : Server} {config : HistoryConfig} {log log' log'' : EventLog} {now : Nat → Int} {since : Int}

theorem EventLog.Shrinks.refl (log : EventLog) : log.Shrinks log :=
  ⟨rfl, List.Sublist.refl _⟩

theorem EventLog.Shrinks.trans (h : log.Shrinks log') (h' : log'.Shrinks log'') : log.Shrinks log'' :=
  ⟨h'.id.trans h.id, h'.rows.trans h.rows⟩

theorem EventLog.shrinks_delete (log : EventLog) (deleted : List LogEntry) : log.Shrinks (log.delete deleted) :=
  ⟨rfl, List.filter_sublist⟩

/-- With fewer rows there are fewer bytes that are not older. -/
theorem EventLog.Shrinks.keptBytes_le (h : log.Shrinks log') (server : Server) (row : LogEntry) :
    log'.keptBytes server row ≤ log.keptBytes server row := by
  obtain ⟨rows', id', unique', keyed'⟩ := log'
  obtain rfl : id' = log.id := h.id
  exact ((h.rows.filter _).map server.columnSize).sum_le_sum fun _ _ => Nat.zero_le _

/-- A row that is within its limits stays so while rows are deleted. -/
theorem EventLog.Shrinks.exceeds (h : log.Shrinks log') {policy : HistoryPolicy} {row : LogEntry}
    (hexceeds : Exceeds server log' policy since row) : Exceeds server log policy since row :=
  hexceeds.imp_right fun ⟨bytes, hbytes, hsize⟩ =>
    ⟨bytes, hbytes, Nat.lt_of_lt_of_le hsize (h.keptBytes_le server row)⟩

/-- What is over a limit stays so as time goes on. -/
theorem Exceeds.later {policy : HistoryPolicy} {row : LogEntry} {until' : Int} (hle : since ≤ until')
    (h : Exceeds server log policy since row) : Exceeds server log policy until' row := by
  refine h.imp_left fun ⟨secs, hsecs, hage⟩ => ⟨secs, hsecs, ?_⟩
  omega

theorem Tables.sweep_nil (t : Tables) (model : String) (now : Int) : t.sweep model now [] = t := by
  have hrows : (t.log.rows.filter fun row => row.eventId ∉ ([] : List LogEntry).map (·.eventId)) = t.log.rows :=
    List.filter_eq_self.2 fun row _ => by simp
  unfold Tables.sweep EventLog.delete
  simp only [hrows, if_true]

@[simp] theorem quiet_now (k : Nat) : (quiet now).now k = now k := rfl

@[simp] theorem quiet_others (k : Nat) (t : Tables) : (quiet now).others k t = t := rfl

@[simp] theorem quiet_commit (k : Nat) : (quiet now).commit k = .done := rfl

theorem Swept.shrinks {k : Nat} {t t' : Tables} {sweeps : List Sweep} (h : Swept (quiet now) k t sweeps t') :
    t.log.Shrinks t'.log := by
  induction h with
  | done => exact .refl _
  | lost => exact .refl _
  | sweep _ _ ih => exact (EventLog.shrinks_delete _ _).trans ih

/-- A pass over some models that nobody interferes with deletes something, or nothing of them is over a limit. -/
theorem sweepModels_quiet (hbatch : config.batchSize < 2 ^ 32) (hsince : ∀ k, since ≤ now k) (k : Nat)
    (models : List String) (remaining removed : Nat) (t : Tables) (hpos : 0 < remaining)
    (hremaining : remaining ≤ config.batchSize) :
    (sweepModels server config (quiet now) k models remaining removed t).tables.log.rows.length < t.log.rows.length ∨
    (sweepModels server config (quiet now) k models remaining removed t).tables = t ∧
      ∀ model ∈ models, (config.policy model).mode = .retained → ∀ row ∈ t.log.rows, row.modelName = model →
        ¬Exceeds server t.log (config.policy model) since row := by
  induction models generalizing k removed t with
  | nil => exact .inr ⟨rfl, nofun⟩
  | cons model models ih =>
    by_cases hmode : (config.policy model).mode = .retained
    · have hroom := not_exceeds_of_room server (config.policy model) (now k) t.log model remaining
      have hsound := sound_victims server (now k) remaining t.log hmode
      cases hvictims : victims server (config.policy model) (now k) remaining (t.log.newestFirst model) with
      | nil =>
        have heq : sweepModels server config (quiet now) k (model :: models) remaining removed t =
            { sweepModels server config (quiet now) (k + 1) models remaining removed t with
              sweeps := ⟨model, now k, remaining, t.log, []⟩ ::
                (sweepModels server config (quiet now) (k + 1) models remaining removed t).sweeps } := by
          rw [sweepModels, if_neg (by omega), if_neg (by simpa using hmode)]
          simp [hvictims, Tables.sweep_nil]
        rw [heq]
        rw [hvictims] at hroom
        refine (ih (k + 1) removed t).imp_right fun ⟨htables, hrest⟩ => ⟨htables, ?_⟩
        refine List.forall_mem_cons.2 ⟨fun _ row hrow hmodel hexceeds => ?_, hrest⟩
        exact hroom hpos hrow hmodel List.not_mem_nil (hexceeds.later (hsince k))
      | cons gone deleted =>
        left
        rw [hvictims] at hsound
        have hwithin := hsound.within
        dsimp only at hwithin
        obtain ⟨hgone, -⟩ := hsound.rows gone List.mem_cons_self
        have hfewer : (t.log.delete (gone :: deleted)).rows.length < t.log.rows.length := by
          unfold EventLog.delete
          rw [List.length_filter_lt_length_iff_exists]
          exact ⟨gone, hgone, by simp⟩
        have hrest : (t.log.delete (gone :: deleted)).Shrinks
            (sweepModels server config (quiet now) k (model :: models) remaining removed t).tables.log := by
          rw [sweepModels, if_neg (by omega), if_neg (by simpa using hmode)]
          simp only [quiet_now, quiet_others, quiet_commit, hvictims]
          rw [Nat.mod_eq_of_lt (by omega), if_pos hwithin]
          have hspec := sweepModels_spec server (quiet now) hbatch (k + 1) models
            (remaining - (gone :: deleted).length) (removed + (gone :: deleted).length)
            (t.sweep model (now k) (gone :: deleted)) (by omega)
          exact hspec.2.2.2.shrinks
        exact Nat.lt_of_le_of_lt hrest.rows.length_le hfewer
    · have heq : sweepModels server config (quiet now) k (model :: models) remaining removed t =
          sweepModels server config (quiet now) k models remaining removed t := by
        rw [sweepModels, if_neg (by omega), if_pos hmode]
      rw [heq]
      refine (ih k removed t).imp_right fun ⟨htables, hrest⟩ => ⟨htables, ?_⟩
      exact List.forall_mem_cons.2 ⟨fun h => absurd h hmode, hrest⟩

theorem policy_mem (config : HistoryConfig) (model : String) :
    config.policy model ∈ config.default :: config.models.map (·.2) := by
  unfold HistoryConfig.policy Schema.lookup?
  cases hfind : config.models.find? (·.1 = model) with
  | none => exact List.mem_cons_self
  | some entry => exact List.mem_cons_of_mem _ (List.mem_map_of_mem (List.mem_of_find?_eq_some hfind))

/-- A policy without retention has no limit. -/
theorem policy_limits (hvalid : config.valid = true) {model : String} (hmode : (config.policy model).mode ≠ .retained) :
    (config.policy model).maxAgeSecs = none ∧ (config.policy model).maxBytes = none := by
  unfold HistoryConfig.valid at hvalid
  simp only [Bool.and_eq_true, List.all_eq_true] at hvalid
  have hpolicy : HistoryConfig.policyValid (config.policy model) = true := by
    rcases List.mem_cons.1 (policy_mem config model) with heq | hmem
    · exact heq ▸ hvalid.1.2
    · obtain ⟨entry, hentry, heq⟩ := List.mem_map.1 hmem
      exact heq ▸ hvalid.2 entry hentry
  unfold HistoryConfig.policyValid at hpolicy
  simpa [hmode] using (Bool.and_eq_true_iff.1 hpolicy).2

theorem not_exceeds_of_mode (hvalid : config.valid = true) {row : LogEntry} {model : String}
    (hmode : (config.policy model).mode ≠ .retained) : ¬Exceeds server log (config.policy model) since row := by
  obtain ⟨hage, hbytes⟩ := policy_limits hvalid hmode
  unfold Exceeds
  simp [hage, hbytes]

end

section

variable {server : Server} {store : EventStore} {t : Tables} {now : Nat → Int} {since : Int}

/-- No row is over a limit. -/
def Within (server : Server) (config : HistoryConfig) (log : EventLog) (since : Int) : Prop :=
  ∀ row ∈ log.rows, ¬Exceeds server log (config.policy row.modelName) since row

theorem EventStore.batchSize_bounds (store : EventStore) : 0 < store.config.batchSize ∧ store.config.batchSize < 2 ^ 32 := by
  have hvalid := store.validated
  unfold HistoryConfig.valid at hvalid
  simp only [Bool.and_eq_true, decide_eq_true_eq] at hvalid
  omega

theorem maintain_config (server : Server) (store : EventStore) (env : Surroundings) (t : Tables) :
    (maintain server store env t).2.config = store.config := by
  unfold maintain
  split
  · rfl
  · dsimp only
    split <;> rfl

/-- What a pass does. -/
theorem maintain_spec (server : Server) (store : EventStore) (env : Surroundings) (t : Tables) :
    let m := (maintain server store env t).1
    m.ended ≠ .overflow ∧ (m.sweeps.map (·.deleted.length)).sum ≤ store.config.batchSize ∧
      (∀ s ∈ m.sweeps, s.Sound server store.config) ∧ Swept env 0 t m.sweeps m.tables := by
  unfold maintain
  split
  · exact ⟨nofun, Nat.zero_le _, nofun, .done 0 t⟩
  · dsimp only
    split
    · exact ⟨nofun, Nat.zero_le _, nofun, .done 0 t⟩
    · exact sweepModels_spec server env store.batchSize_bounds.2 0 _ _ _ _ (Nat.le_refl _)

theorem mem_models {model : String} : model ∈ t.models server ↔ ∃ row ∈ t.log.rows, row.modelName = model := by
  unfold Tables.models
  rw [(List.mergeSort_perm _ _).mem_iff, List.mem_dedup, List.mem_map]

/-- A pass that nobody interferes with deletes something, or no row is over a limit. -/
theorem maintain_quiet (hsince : ∀ k, since ≤ now k) :
    (maintain server store (quiet now) t).1.tables.log.rows.length < t.log.rows.length ∨
      Within server store.config (maintain server store (quiet now) t).1.tables.log since := by
  unfold maintain
  split
  next hnone =>
    right
    intro row _
    refine not_exceeds_of_mode store.validated fun hmode => ?_
    rw [Bool.not_eq_true', List.any_eq_false] at hnone
    exact hnone _ (policy_mem store.config row.modelName) (decide_eq_true hmode)
  next =>
    dsimp only
    split
    next hempty =>
      right
      intro row hrow
      have hmem : row.modelName ∈ t.models server := mem_models.2 ⟨row, hrow, rfl⟩
      rw [hempty] at hmem
      cases hmem
    next =>
      refine (sweepModels_quiet store.batchSize_bounds.2 hsince 0 _ _ 0 t store.batchSize_bounds.1
        (Nat.le_refl _)).imp_right fun ⟨htables, hwithin⟩ => ?_
      intro row hrow
      rw [htables] at hrow ⊢
      by_cases hmode : (store.config.policy row.modelName).mode = .retained
      · exact hwithin _ (List.mem_rotate.2 (mem_models.2 ⟨row, hrow, rfl⟩)) hmode row hrow rfl
      · exact not_exceeds_of_mode store.validated hmode

/-- Each pass brings the end nearer. -/
theorem passes_spec (server : Server) (store : EventStore) (t : Tables) (now : Nat → Nat → Int) (hsince : ∀ n k, since ≤ now n k) (n : Nat) :
    (passes server now store t n).2.config = store.config ∧
      ((passes server now store t n).1.log.rows.length + n ≤ t.log.rows.length ∨
        Within server store.config (passes server now store t n).1.log since) := by
  induction n with
  | zero => exact ⟨rfl, .inl (Nat.le_refl _)⟩
  | succ n ih =>
    obtain ⟨hconfig, hor⟩ := ih
    have hpasses : passes server now store t (n + 1) =
        ((maintain server (passes server now store t n).2 (quiet (now n)) (passes server now store t n).1).1.tables,
          (maintain server (passes server now store t n).2 (quiet (now n)) (passes server now store t n).1).2) := rfl
    rw [hpasses]
    refine ⟨(maintain_config _ _ _ _).trans hconfig, ?_⟩
    rcases hor with hlength | hwithin
    · refine (maintain_quiet (hsince n)).imp (fun hfewer => ?_) fun hwithin => hconfig ▸ hwithin
      dsimp only
      omega
    · right
      have hshrinks := (maintain_spec server (passes server now store t n).2 (quiet (now n))
        (passes server now store t n).1).2.2.2.shrinks
      exact fun row hrow hexceeds => hwithin row (hshrinks.rows.subset hrow) (hshrinks.exceeds hexceeds)

/-- Whatever others do meanwhile, a pass deletes no more than its batch, of models with retention, of each the oldest
rows and only what is over a limit, and its budget does not underflow. Passes that nobody interferes with come to
leave no row that was over a limit when they began, after as many passes as there are rows. -/
theorem maintained (server : Server) (store : EventStore) (t : Tables) :
    (∀ env, let m := (maintain server store env t).1
      m.ended ≠ .overflow ∧ (m.sweeps.map (·.deleted.length)).sum ≤ store.config.batchSize ∧
        (∀ s ∈ m.sweeps, s.Sound server store.config) ∧ Swept env 0 t m.sweeps m.tables) ∧
    ∀ (now : Nat → Nat → Int) (since : Int), (∀ n k, since ≤ now n k) → ∀ n, t.log.rows.length ≤ n →
      Within server store.config (passes server now store t n).1.log since := by
  refine ⟨fun env => maintain_spec server store env t, fun now since hsince n hn => ?_⟩
  rcases (passes_spec server store t now hsince n).2 with hlength | hwithin
  · intro row hrow
    have hnone : (passes server now store t n).1.log.rows.length = 0 := by omega
    rw [List.length_eq_zero_iff.1 hnone] at hrow
    cases hrow
  · exact hwithin

theorem maintained_one :
    let config : HistoryConfig := { default := { mode := .retained, maxAgeSecs := some 1 } }
    let row : LogEntry := ⟨"e1", "Created", "Post", [], none, none, "", 0⟩
    Within ⟨fun _ => 100, fun a b => a ≤ b⟩ config
      (passes ⟨fun _ => 100, fun a b => a ≤ b⟩ (fun _ _ => 2000000) ⟨config, by decide, 0⟩
        ⟨⟨[row], fun _ => 0, by simp, by simp⟩, fun _ => none⟩ 1).1.log 2000000 :=
  (maintained _ _ _).2 _ _ (fun _ _ => Int.le_refl _) 1 (Nat.le_refl _)

end

end Atomo.History

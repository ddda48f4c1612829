import Atomo.Jobs.Fencing

/-!
# Bounded attempts

`lease` counts an attempt and `decide_on_fail` stops at `max_attempts`. `reclaim_expired` does not
look at the limit, so a job whose workers keep dying is handed out without end. The bound holds on
every run whose reclaims meet no expired job that has used up its attempts.
-/

namespace Atomo.Jobs

variable {u : Uuids} {s t : Store} {a : Label}

/-- The steps at which a reclaim finds no expired job at its limit. -/
def ReclaimsWithinLimit (s : Store) (a : Label) : Prop :=
  a.call = .reclaimExpired →
    ∀ j ∈ s.rows, j.expired s.now = true → 1 ≤ j.maxAttempts → j.attempts < j.maxAttempts

instance (s : Store) (a : Label) : Decidable (ReclaimsWithinLimit s a) :=
  inferInstanceAs (Decidable (_ → _))

/-- A job within its limit; a queued one still has an attempt left. -/
structure Job.WithinLimit (j : Job) : Prop where
  attempts_le : j.attempts ≤ j.maxAttempts
  of_queued : j.status = .queued → j.attempts < j.maxAttempts

/-- The policy retries only below the limit. -/
theorem lt_of_decideOnFail_retry {attempts maxAttempts base cap delay : Nat} {retryable : Bool}
    (h : decideOnFail attempts maxAttempts retryable base cap = .retry delay) :
    attempts < maxAttempts := by
  unfold decideOnFail at h
  split at h
  · cases h
  · next hno =>
    simp only [Bool.or_eq_true, decide_eq_true_eq, not_or, not_le] at hno
    exact hno.2

theorem Move.maxAttempts_eq {j j' : Job} (h : Move u s t a j j') :
    j'.maxAttempts = j.maxAttempts := by
  cases h <;> rfl

/-- A step that meets the condition keeps a job within its limit. -/
theorem Move.withinLimit {j j' : Job} (h : Move u s t a j j') (hj : j ∈ s.rows)
    (hcond : ReclaimsWithinLimit s a) (hmax : 1 ≤ j.maxAttempts) (hlimit : j.WithinLimit) :
    j'.WithinLimit := by
  cases h with
  | keep => exact hlimit
  | lease _ _ _ queued =>
    have := hlimit.of_queued queued
    exact ⟨by simp only [Job.lease]; omega, by simp [Job.lease]⟩
  | heartbeat => exact ⟨hlimit.attempts_le, hlimit.of_queued⟩
  | complete => exact ⟨hlimit.attempts_le, by simp [Job.complete]⟩
  | retry _ _ _ _ _ _ _ _ policy =>
    have := lt_of_decideOnFail_retry policy
    exact ⟨hlimit.attempts_le, fun _ => by simp only [Job.retry]; omega⟩
  | deadLetter => exact ⟨hlimit.attempts_le, by simp [Job.deadLetter]⟩
  | reclaim call expired =>
    exact ⟨hlimit.attempts_le, fun _ => hcond call j hj expired hmax⟩

/-! ## Attempts count hand-outs -/

/-- How often the steps of a trace hand out job `id`. -/
def handouts (id : String) (as : List Label) : Nat :=
  as.countP fun a => id ∈ a.leased.map LeasedJob.id

/-- A step adds to `attempts` exactly when it hands the job out. -/
theorem Move.attempts_eq {j j' : Job} (h : Move u s t a j j') (spec : StepSpec u s t a)
    (hj : j ∈ s.rows) (hj' : j' ∈ t.rows) :
    j'.attempts = j.attempts + handouts j.id [a] := by
  have hone : handouts j.id [a] = if j.id ∈ a.leased.map LeasedJob.id then 1 else 0 := by
    simp only [handouts, List.countP_cons, List.countP_nil, decide_eq_true_eq,
      Nat.zero_add]
  by_cases hid : j.id ∈ a.leased.map LeasedJob.id
  · rw [hone, if_pos hid]
    obtain ⟨l, hl, hlid⟩ := List.mem_map.1 hid
    obtain ⟨i, hi, -, -, k, v, -, -, hrow, rfl⟩ := spec.leased l hl
    obtain rfl : i = j := Table.eq_of_key s.primaryKey hi hj hlid
    obtain rfl := Table.eq_of_key t.primaryKey hj' hrow h.id_eq
    rfl
  · rw [hone, if_neg hid]
    cases h with
    | lease k v _ _ _ handed => exact absurd (List.mem_map_of_mem (f := LeasedJob.id) handed) hid
    | _ => simp [Job.heartbeat, Job.complete, Job.retry, Job.deadLetter, Job.reclaim]

/-- A job that is not in the table is not handed out. -/
theorem handouts_eq_zero_of_not_mem {id : String} (spec : StepSpec u s t a)
    (h : id ∉ s.rows.map Job.id) : handouts id [a] = 0 := by
  simp only [handouts, List.countP_eq_zero, List.mem_singleton, decide_eq_true_eq, forall_eq]
  intro hmem
  obtain ⟨l, hl, rfl⟩ := List.mem_map.1 hmem
  obtain ⟨i, hi, -, -, k, v, -, -, -, rfl⟩ := spec.leased l hl
  exact h (List.mem_map.2 ⟨i, hi, rfl⟩)

/-- In a run from the empty table, `attempts` is the number of hand-outs, and no other job was
handed out. -/
theorem attempts_eq_handouts {as : List Label} (h : s.rows = []) (r : (system u).Run s as t) :
    (∀ j ∈ t.rows, j.attempts = handouts j.id as) ∧
      ∀ id, id ∉ t.rows.map Job.id → handouts id as = 0 := by
  refine r.history (P := fun (as : List Label) (t : Store) =>
    (∀ j ∈ t.rows, j.attempts = handouts j.id as) ∧
      ∀ id, id ∉ t.rows.map Job.id → handouts id as = 0) ?_ ?_
  · simp [h, handouts]
  · rintro as v a t - ⟨hrows, hother⟩ hstep
    have spec := stepSpec hstep
    have happend : ∀ id, handouts id (as ++ [a]) = handouts id as + handouts id [a] :=
      fun id => List.countP_append
    have hgone : ∀ id, id ∉ t.rows.map Job.id → id ∉ v.rows.map Job.id := by
      intro id hid hmem
      obtain ⟨j, hj, rfl⟩ := List.mem_map.1 hmem
      obtain ⟨j', hj', hmove⟩ := spec.exists_move hj
      exact hid (List.mem_map.2 ⟨j', hj', hmove.id_eq⟩)
    constructor
    · intro j' hj'
      rcases spec.cases_mem hj' with ⟨j, hj, hmove⟩ | ⟨n, rfl, hn⟩
      · rw [hmove.attempts_eq spec hj hj', hrows j hj, hmove.id_eq, happend]
        push_cast
        rfl
      · rw [happend, NewJob.row_id, hother _ hn, handouts_eq_zero_of_not_mem spec hn]
        rfl
    · intro id hid
      rw [happend, hother id (hgone id hid), handouts_eq_zero_of_not_mem spec (hgone id hid)]

/-! ## The bound -/

/-- The invariant of the runs that meet the condition. -/
theorem withinLimit_inductive (u : Uuids) :
    ((system u).restrict ReclaimsWithinLimit).Inductive fun s =>
      ∀ j ∈ s.rows, 1 ≤ j.maxAttempts → j.WithinLimit where
  init s hs := by
    have hs : s.rows = [] := hs
    simp [hs]
  step s a t hs hstep j' hj' hmax := by
    rcases (stepSpec hstep.1).cases_mem hj' with ⟨j, hj, hmove⟩ | ⟨n, rfl, -⟩
    · rw [hmove.maxAttempts_eq] at hmax
      exact hmove.withinLimit hj hstep.2 hmax (hs j hj hmax)
    · have hmax : 1 ≤ n.maxAttempts := hmax
      exact ⟨by simp only [NewJob.row]; omega, fun _ => by simp only [NewJob.row]; omega⟩

/-- **Bounded attempts.** On every run whose reclaims meet no expired job at its limit, a job
enqueued with a positive limit has at most that many attempts and as many hand-outs. -/
theorem attempts_bounded {as : List Label} (hs : (system u).init s)
    (r : ((system u).restrict ReclaimsWithinLimit).Run s as t) :
    ∀ j ∈ t.rows, 1 ≤ j.maxAttempts →
      j.attempts ≤ j.maxAttempts ∧ (handouts j.id as : Int) ≤ j.maxAttempts := by
  intro j hj hmax
  have hle := ((withinLimit_inductive u).reachable ⟨s, as, hs, r⟩ j hj hmax).attempts_le
  exact ⟨hle, (attempts_eq_handouts hs r.of_restrict).1 j hj ▸ hle⟩

/-- A job with two attempts, both leased, the first lost to an expired lease. -/
def crashedOnce : List Call :=
  [.enqueue ⟨"j", "q", "k", .null, none, 2, 0, none⟩, .lease ["j"] ["q"] 1 1, .tick 2000000,
    .reclaimExpired, .lease ["j"] ["q"] 1 1]

theorem attempts_bounded_crashedOnce :
    (runCalls default (emptyStore 0) crashedOnce).rows.map Job.attempts = [2] ∧
      ∀ j ∈ (runCalls default (emptyStore 0) crashedOnce).rows, 1 ≤ j.maxAttempts →
        j.attempts ≤ j.maxAttempts ∧
          (handouts j.id (trace default (emptyStore 0) crashedOnce) : Int) ≤ j.maxAttempts :=
  ⟨by decide, attempts_bounded (s := emptyStore 0) rfl (run_restrict (by decide))⟩

/-- The same worker crash with a single attempt allowed. -/
def crashedAtLimit : List Call :=
  [.enqueue ⟨"j", "q", "k", .null, none, 1, 0, none⟩, .lease ["j"] ["q"] 1 1, .tick 2000000,
    .reclaimExpired, .lease ["j"] ["q"] 1 1]

/-- A job enqueued with one attempt is handed out twice when its first worker dies. -/
theorem attempts_unbounded :
    ¬ ∀ s, (system default).Reachable s → ∀ j ∈ s.rows, 1 ≤ j.maxAttempts →
      j.attempts ≤ j.maxAttempts := by
  intro h
  have hreach := reachable_runCalls default 0 crashedAtLimit
  have hrow : ∃ j ∈ (runCalls default (emptyStore 0) crashedAtLimit).rows,
      1 ≤ j.maxAttempts ∧ ¬ j.attempts ≤ j.maxAttempts := by decide
  obtain ⟨j, hj, hmax, hover⟩ := hrow
  exact hover (h _ hreach j hj hmax)

end Atomo.Jobs

import Atomo.Jobs.Fencing

/-!
# Signs of life

A worker that holds a lease says that it is alive by a heartbeat or a progress report. Both set `visible_at` to so
many seconds from now, whatever it was before: the lease of a job ends later afterwards, or earlier
(`life_extends_iff`). In a run in which every sign of life reaches at least as far as the lease it is for, no job is
taken from its worker before the deadline that it was granted (`lease_held`).
-/

namespace Atomo.Jobs

/-! ## The routes -/

/-- `default_visibility`. -/
def defaultVisibility : Int64 := 30

/-- `HeartbeatReq`. -/
structure HeartbeatReq where
  leaseId : String
  visibilitySecs : Int64 := defaultVisibility

/-- `ProgressReq`. -/
structure ProgressReq where
  leaseId : String
  visibilitySecs : Int64 := defaultVisibility
  percent : Option ℚ := none
  message : Option String := none
  data : Json := .null

/-- `visibility_secs.clamp(1, 86_400)`. -/
def clampVisibility (secs : Int64) : Int :=
  max 1 (min secs.toInt 86400)

inductive Answer where
  | noContent
  | leaseLost
  | serverError
  deriving DecidableEq

/-- What a request of a worker leads to; `published` is what goes to a realtime channel. -/
structure Reaction where
  store : Store
  answer : Answer
  published : Option (String × Json) := none

/-- The answer to an outcome of `JobStore::heartbeat`. -/
def Reply.answer : Reply → Answer
  | .extended true => .noContent
  | .extended false => .leaseLost
  | _ => .serverError

/-- The route `heartbeat`. -/
def heartbeatRoute (s : Store) (id : String) (req : HeartbeatReq) : Reaction :=
  let done := heartbeat s id req.leaseId (clampVisibility req.visibilitySecs)
  ⟨done.store, done.reply.answer, none⟩

/-- `progress_channel`. -/
def progressChannel (id : String) : String :=
  "job:" ++ id

def ProgressReq.body (req : ProgressReq) (id : String) : Json :=
  .object [("jobId", .string id), ("percent", (req.percent.map fun q => .number (.float q)).getD .null),
    ("message", (req.message.map Json.string).getD .null), ("data", req.data)]

/-- The route `progress`. -/
def progressRoute (publisher : Bool) (s : Store) (id : String) (req : ProgressReq) : Reaction :=
  let done := heartbeat s id req.leaseId (clampVisibility req.visibilitySecs)
  ⟨done.store, done.reply.answer,
    if publisher ∧ done.reply = .extended true then some (progressChannel id, req.body id) else none⟩

/-- A request by which a worker says that it is alive. -/
inductive SignOfLife where
  | heartbeat (req : HeartbeatReq)
  | progress (publisher : Bool) (req : ProgressReq)

namespace SignOfLife

def leaseId : SignOfLife → String
  | heartbeat req => req.leaseId
  | progress _ req => req.leaseId

/-- The seconds that the request is granted. -/
def visibility : SignOfLife → Int
  | heartbeat req => clampVisibility req.visibilitySecs
  | progress _ req => clampVisibility req.visibilitySecs

def serve (s : Store) (id : String) : SignOfLife → Reaction
  | heartbeat req => heartbeatRoute s id req
  | progress publisher req => progressRoute publisher s id req

theorem serve_store (s : Store) (id : String) (sign : SignOfLife) :
    (sign.serve s id).store = (Jobs.heartbeat s id sign.leaseId sign.visibility).store := by
  cases sign <;> rfl

end SignOfLife

/-- The worker of the SDK reports progress without a visibility. -/
def sdkProgress (leaseId : String) (percent : Option ℚ) (message : Option String) (data : Json) : ProgressReq where
  leaseId
  percent
  message
  data

/-- And it sends the visibility that it leases with when it sends a heartbeat. -/
def sdkHeartbeat (leaseId : String) (visibilitySecs : Int64) : HeartbeatReq where
  leaseId
  visibilitySecs

/-! ## One sign of life -/

variable {u : Uuids} {s t : Store} {a : Label}

/-- So many seconds from now are not before the deadline of the job, or no timestamp at all. -/
def Reaches (s : Store) (secs : Int) (j : Job) : Prop :=
  j.visibleAt ≤ s.now + secs * 1000000 ∨ nowPlus s.now secs = none

theorem nowPlus_eq {now secs v : Int} (h : nowPlus now secs = some v) : v = now + secs * 1000000 := by
  unfold nowPlus at h
  dsimp only at h
  split at h
  · exact (Option.some.inj h).symm
  · cases h

/-- A heartbeat under the token of a job moves its deadline, or fails as a statement. -/
theorem heartbeat_held (secs : Int) {id leaseId : String} {j : Job} (hj : j ∈ s.rows) (hheld : j.heldBy id leaseId = true) :
    (nowPlus s.now secs = none ∧ (heartbeat s id leaseId secs).store = s) ∨
      ∃ v, nowPlus s.now secs = some v ∧ j.heartbeat v ∈ (heartbeat s id leaseId secs).store.rows := by
  cases hfind : s.rows.find? (Job.heldBy id leaseId) with
  | none =>
    have hnot := List.find?_eq_none.1 hfind j hj
    exact absurd hheld hnot
  | some held =>
    cases hnow : nowPlus s.now secs with
    | none =>
      left
      simp [heartbeat, hfind, hnow, dbError]
    | some v =>
      right
      refine ⟨v, rfl, ?_⟩
      simp only [heartbeat, hfind, hnow]
      exact Table.mem_update_of hj hheld

theorem later_iff {id leaseId : String} {secs : Int} {j : Job} (hj : j ∈ s.rows) (hheld : j.heldBy id leaseId = true) :
    (∃ j' ∈ (heartbeat s id leaseId secs).store.rows, j'.id = id ∧ j.visibleAt ≤ j'.visibleAt) ↔ Reaches s secs j := by
  obtain ⟨hid, -, -⟩ := heldBy_iff.1 hheld
  rcases heartbeat_held secs hj hheld with ⟨hnone, hstore⟩ | ⟨v, hnow, hmem⟩
  · rw [hstore]
    exact ⟨fun _ => .inr hnone, fun _ => ⟨j, hj, hid, le_rfl⟩⟩
  · have hv := nowPlus_eq hnow
    constructor
    · rintro ⟨j', hj', hid', hle⟩
      have hsame : j' = j.heartbeat v :=
        Table.eq_of_key (heartbeat s id leaseId secs).store.primaryKey hj' hmem (hid'.trans hid.symm)
      rw [hsame] at hle
      left
      rw [← hv]
      exact hle
    · rintro (hle | hnone)
      · refine ⟨j.heartbeat v, hmem, hid, ?_⟩
        show j.visibleAt ≤ v
        rw [hv]
        exact hle
      · rw [hnow] at hnone
        cases hnone

/-! ## Runs -/

theorem enqueueTx_now (s : Store) (n : NewJob) : (enqueueTx s n).store.now = s.now := by
  rcases enqueueTx_cases s n with ⟨id, h⟩ | h | ⟨hid, h⟩
  · rw [h]
  · rw [h]
    rfl
  · rw [h]
    rfl

theorem lease_now (u : Uuids) (s : Store) (scan queues : List String) (capacity secs : Int) :
    (lease u s scan queues capacity secs).store.now = s.now := by
  unfold lease
  split
  · rfl
  · dsimp only
    split
    · rfl
    · rfl
    · split
      · rfl
      · rfl

theorem heartbeat_now (s : Store) (id leaseId : String) (secs : Int) : (heartbeat s id leaseId secs).store.now = s.now := by
  unfold heartbeat
  split <;> rfl

theorem complete_now (s : Store) (id leaseId : String) (result : Json) :
    (complete s id leaseId result).store.now = s.now := by
  unfold complete
  dsimp only
  split <;> rfl

theorem fail_now (s : Store) (id leaseId error : String) (retryable : Bool) :
    (fail s id leaseId error retryable).store.now = s.now := by
  unfold fail
  split
  · rfl
  · dsimp only
    split
    · split <;> rfl
    · rfl

/-- Time does not go backwards. -/
theorem now_le_run (u : Uuids) (s : Store) (call : Call) : s.now ≤ (run u s call).store.now := by
  cases call with
  | enqueue n =>
    show s.now ≤ (enqueue s n).store.now
    rw [(enqueue_store_reply s n).1, enqueueTx_now]
  | enqueueTx n => exact (enqueueTx_now s n).ge
  | lease scan queues capacity secs => exact (lease_now u s scan queues capacity secs).ge
  | heartbeat id leaseId secs => exact (heartbeat_now s id leaseId secs).ge
  | complete id leaseId result => exact (complete_now s id leaseId result).ge
  | fail id leaseId error retryable => exact (fail_now s id leaseId error retryable).ge
  | emitEnqueued | reclaimExpired => exact le_rfl
  | tick micros =>
    show s.now ≤ s.now + (micros : Int)
    omega

theorem now_le_step (h : (system u).step s a t) : s.now ≤ t.now := by
  have hstore : (run u s a.call).store = t := congrArg Outcome.store h
  rw [← hstore]
  exact now_le_run u s a.call

/-- The heartbeats of a step reach at least as far as the leases that they are for. -/
def Extending (s : Store) (a : Label) : Prop :=
  ∀ id leaseId secs, a.call = .heartbeat id leaseId secs → ∀ j ∈ s.rows, j.heldBy id leaseId = true → Reaches s secs j

/-- The worker ends its work on the job. -/
def Label.ends (id leaseId : String) (a : Label) : Prop :=
  (∃ result, a.call = .complete id leaseId result) ∨ ∃ error retryable, a.call = .fail id leaseId error retryable

/-- The worker holds the job until a deadline, at least. -/
def Holds (s : Store) (id leaseId : String) (deadline : Int) : Prop :=
  ∃ j ∈ s.rows, j.heldBy id leaseId = true ∧ deadline ≤ j.visibleAt

theorem Holds.step {id leaseId : String} {deadline : Int} (h : Holds s id leaseId deadline)
    (hstep : (system u).step s a t) (hextends : Extending s a) (hends : ¬ a.ends id leaseId) (hnow : s.now ≤ deadline) :
    Holds t id leaseId deadline := by
  obtain ⟨j, hj, hheld, hdeadline⟩ := h
  obtain ⟨rfl, hlease, hstatus⟩ := heldBy_iff.1 hheld
  have hsame : ∀ {token : String}, j.heldBy j.id token = true → token = leaseId := by
    intro token htoken
    have hother := (heldBy_iff.1 htoken).2.1
    rw [hlease] at hother
    exact (Option.some.inj hother).symm
  obtain ⟨j', hj', hmove⟩ := (stepSpec hstep).exists_move hj
  cases hmove with
  | keep => exact ⟨j, hj', hheld, hdeadline⟩
  | lease k visibleAt fresh queued =>
    rw [hstatus] at queued
    cases queued
  | heartbeat token secs visibleAt call reply held =>
    obtain rfl := hsame held
    have hstore : (heartbeat s j.id token secs).store = t := by
      have hrun : run u s a.call = ⟨t, a.reply, a.events⟩ := hstep
      rw [call] at hrun
      exact congrArg Outcome.store hrun
    have hlater := (later_iff hj held).2 (hextends j.id token secs call j hj held)
    rw [hstore] at hlater
    obtain ⟨k, hk, hid, hle⟩ := hlater
    have heq : k = j.heartbeat visibleAt := Table.eq_of_key t.primaryKey hk hj' hid
    rw [heq] at hle
    exact ⟨j.heartbeat visibleAt, hj', held, hdeadline.trans hle⟩
  | complete token result call reply held =>
    obtain rfl := hsame held
    exact absurd (.inl ⟨result, call⟩) hends
  | retry token error retryable delay visibleAt call reply held =>
    obtain rfl := hsame held
    exact absurd (.inr ⟨error, retryable, call⟩) hends
  | deadLetter token error retryable call reply held =>
    obtain rfl := hsame held
    exact absurd (.inr ⟨error, retryable, call⟩) hends
  | reclaim call expired =>
    have hlate := (expired_iff.1 expired).2
    omega

theorem Holds.run {id leaseId : String} {deadline : Int} {as : List Label} (r : ((system u).restrict Extending).Run s as t)
    (hends : ∀ a ∈ as, ¬ a.ends id leaseId) (hnow : t.now ≤ deadline) (h : Holds s id leaseId deadline) :
    Holds t id leaseId deadline := by
  induction r with
  | nil => exact h
  | cons hstep rest ih =>
    have hlater : ∀ {s t : Store} {as : List Label}, ((system u).restrict Extending).Run s as t → s.now ≤ t.now := by
      intro s t as r
      induction r with
      | nil => exact le_rfl
      | cons hstep _ ih => exact (now_le_step hstep.1).trans ih
    have hearly := (now_le_step hstep.1).trans ((hlater rest).trans hnow)
    exact ih (fun a ha => hends a (List.mem_cons_of_mem _ ha)) hnow
      (h.step hstep.1 hstep.2 (hends _ List.mem_cons_self) hearly)

/-- A sign of life leaves the deadline of a leased job where it was or later if and only if the seconds that it is
granted reach that far. Where all signs of life of a run do, a worker holds its job until the deadline that it was
granted, unless it ends its work on it. -/
theorem life_extends_iff (u : Uuids) :
    (∀ (s : Store) (id : String) (sign : SignOfLife) (j : Job), j ∈ s.rows → j.heldBy id sign.leaseId = true →
      ((∃ j' ∈ (sign.serve s id).store.rows, j'.id = id ∧ j.visibleAt ≤ j'.visibleAt) ↔ Reaches s sign.visibility j)) ∧
    ∀ (s t : Store) (as : List Label) (j : Job) (leaseId : String), ((system u).restrict Extending).Run s as t →
      j ∈ s.rows → j.heldBy j.id leaseId = true → (∀ a ∈ as, ¬ a.ends j.id leaseId) → t.now ≤ j.visibleAt →
      ∃ j' ∈ t.rows, j'.heldBy j.id leaseId = true ∧ j.visibleAt ≤ j'.visibleAt := by
  refine ⟨fun s id sign j hj hheld => ?_, fun s t as j leaseId r hj hheld hends hnow => ?_⟩
  · rw [sign.serve_store]
    exact later_iff hj hheld
  · exact Holds.run r hends hnow ⟨j, hj, hheld, le_rfl⟩

/-! ## A progress report under a long lease -/

/-- A job leased for ten minutes. -/
def longLease : Store :=
  runCalls default (emptyStore 0) [.enqueue ⟨"j", "q", "k", .null, none, 3, 0, none⟩, .lease ["j"] ["q"] 1 600]

def longToken : String :=
  (default : Uuids).draw 0

/-- A report within the first half minute. -/
def reported : Store :=
  ((SignOfLife.progress true (sdkProgress longToken none none .null)).serve longLease "j").store

def longJob : Job :=
  { (⟨"j", "q", "k", .null, none, 3, 0, none⟩ : NewJob).row 0 with
    status := .leased, leaseId := some longToken, attempts := 1, visibleAt := 600000000 }

/-- A heartbeat reaches further, and without a sign of life the job is held for ten minutes. -/
theorem life_extends_longLease :
    ((∃ j' ∈ ((SignOfLife.heartbeat (sdkHeartbeat longToken 600)).serve longLease "j").store.rows,
      j'.id = "j" ∧ longJob.visibleAt ≤ j'.visibleAt) ↔ Reaches longLease 600 longJob) ∧
    ∃ j' ∈ (runCalls default longLease [.tick 600000000, .reclaimExpired]).rows,
      j'.heldBy "j" longToken = true ∧ longJob.visibleAt ≤ j'.visibleAt := by
  have hmem : longJob ∈ longLease.rows := by decide
  have hrun : CallsMeet default Extending longLease [.tick 600000000, .reclaimExpired] :=
    ⟨fun _ _ _ hcall => (by cases hcall), fun _ _ _ hcall => (by cases hcall), trivial⟩
  refine ⟨(life_extends_iff default).1 longLease "j" (.heartbeat (sdkHeartbeat longToken 600)) longJob hmem
    (by decide), ?_⟩
  refine (life_extends_iff default).2 longLease _ _ longJob longToken (run_restrict hrun) hmem (by decide) ?_
    (by decide)
  rintro a ha (⟨result, hcall⟩ | ⟨error, retryable, hcall⟩)
  · simp only [trace, List.mem_cons, List.not_mem_nil, or_false] at ha
    rcases ha with rfl | rfl <;> cases hcall
  · simp only [trace, List.mem_cons, List.not_mem_nil, or_false] at ha
    rcases ha with rfl | rfl <;> cases hcall

/-- The worker has the job for ten minutes, reports progress, and half a minute later the job is taken from it. -/
theorem progress_shortens_lease :
    longJob ∈ longLease.rows ∧ longJob.heldBy "j" longToken = true ∧
    (¬ ∃ j' ∈ reported.rows, j'.id = "j" ∧ longJob.visibleAt ≤ j'.visibleAt) ∧
    (runCalls default reported [.tick 31000000, .reclaimExpired]).rows.map (fun j => (j.status, j.leaseId)) =
      [(.queued, none)] := by
  decide

end Atomo.Jobs

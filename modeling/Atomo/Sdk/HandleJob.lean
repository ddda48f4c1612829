import Atomo.Data.Json
import Atomo.Lib.LabelledSystem
import Atomo.Sdk.Worker

/-!
# One job of a worker

`handleJob` of the worker SDK: it runs the handler of a leased job while a timer beats, then calls `complete` with the
result, or `fail` with what was thrown. A run is an order of what the environment does: the handler ends, the timer
ticks, the handler beats or reports its progress, the server replies. The handler and the call of `complete` share one
`try`, and the call of `fail` is awaited in its `catch`: where `complete` rejects, the job is failed as well although
its handler succeeded, and where `fail` rejects, so does `handleJob`. A run in which neither happens, and in which what
is thrown has a text, keeps its promise, and no other does (`handled_iff`).
-/

namespace Atomo.Sdk

/-! ## Values and the client -/

/-- A value that is thrown: whether it is a `NonRetryableError`, and the text that the `catch` makes of it, unless
that throws in turn. -/
structure Thrown where
  nonRetryable : Bool
  message : Option String
  deriving DecidableEq

/-- `new Error(message)`. -/
def Thrown.error (message : String) : Thrown where
  nonRetryable := false
  message := some message

/-- What a handler returns. There are values that `JSON.stringify` throws at. -/
inductive JsValue where
  | undefined
  | json (j : Json)
  | unserializable (err : Thrown)

/-- `value ?? null`. -/
def JsValue.orNull : JsValue → JsValue
  | .undefined => .json .null
  | v => v

/-- The value has a JSON. -/
def JsValue.Serializable (v : JsValue) : Prop :=
  ∀ err, v ≠ .unserializable err

namespace JobsClient

/-- What a request comes to: the transport throws, or there is a response with a status. -/
inductive Reply where
  | rejects (err : Thrown)
  | response (status : Nat)
  deriving DecidableEq

/-- `res.ok`. -/
def ok (status : Nat) : Bool :=
  200 ≤ status && status < 300

/-- The reply to a call that says how the job ended. -/
def settles (what : String) : Reply → Except Thrown Unit
  | .rejects err => .error err
  | .response status =>
    -- 409 = lease already lost; nothing to do
    if !ok status && status != 409 then .error (.error (what ++ " failed: " ++ toString status)) else .ok ()

def complete : Reply → Except Thrown Unit := settles "complete"

def fail : Reply → Except Thrown Unit := settles "fail"

/-- The reply to a call that is made while the handler runs: `false` if the lease was lost. -/
def isAlive (what : String) : Reply → Except Thrown Bool
  | .rejects err => .error err
  | .response status =>
    if status = 409 then .ok false
    else if !ok status then .error (.error (what ++ " failed: " ++ toString status))
    else .ok true

def heartbeat : Reply → Except Thrown Bool := isAlive "heartbeat"

def progress : Reply → Except Thrown Bool := isAlive "progress"

end JobsClient

/-! ## The code -/

structure Job extends LeasedJob where
  leaseId : String

/-- The calls of the client. -/
inductive Call where
  | heartbeat (id leaseId : String)
  | progress (id leaseId : String)
  | complete (id leaseId : String) (result : JsValue)
  | fail (id leaseId error : String) (retryable : Bool)

/-- The call says how the job ended. -/
def Call.isOutcome : Call → Bool
  | .complete _ _ _ => true
  | .fail _ _ _ _ => true
  | _ => false

/-- Where `handleJob` awaits, or how its promise is settled. -/
inductive Await where
  | handler
  | complete
  | fail
  | resolved
  | rejected
  deriving DecidableEq

/-- What has become of the handler. -/
inductive Handler where
  | missing
  | running
  | returned (result : JsValue)
  | threw (err : Thrown)

/-- A call of `handleJob`: its timer and its `AbortController`, the heartbeats and the reports that await a reply, and
the calls of the client. The code does not keep `handler` and `calls`. -/
structure JobRun where
  job : Job
  await : Await
  handler : Handler
  timer : Bool
  aborted : Bool := false
  beats : Nat := 0
  reports : Nat := 0
  calls : List Call := []

namespace JobRun

def call (s : JobRun) (c : Call) : JobRun :=
  { s with calls := s.calls ++ [c] }

def fail (s : JobRun) (error : String) (retryable : Bool) : JobRun :=
  { s.call (.fail s.job.id s.job.leaseId error retryable) with await := .fail }

/-- `handleJob`, up to its first `await`. -/
def handleJob (job : Job) (hasHandler : Bool) : JobRun :=
  if hasHandler then { job, await := .handler, handler := .running, timer := true }
  else { job, await := .fail, handler := .missing, timer := false : JobRun }.fail
    ("no handler for kind '" ++ job.kind ++ "'") false

/-- `finally`. -/
def settle (s : JobRun) (await : Await) : JobRun :=
  { s with await, timer := false }

/-- `catch`. -/
def catchError (s : JobRun) (err : Thrown) : JobRun :=
  match err.message with
  | some message => s.fail message (!err.nonRetryable)
  | none => s.settle .rejected

/-- The call of `complete`, which throws at a result that has no JSON. -/
def complete (s : JobRun) (result : JsValue) : JobRun :=
  let s := { s.call (.complete s.job.id s.job.leaseId result) with await := .complete }
  match result with
  | .unserializable err => s.catchError err
  | _ => s

def returns (s : JobRun) (result : JsValue) : JobRun :=
  { s with handler := .returned result }.complete result.orNull

def throws (s : JobRun) (err : Thrown) : JobRun :=
  { s with handler := .threw err }.catchError err

/-- The promise of `complete` is settled. -/
def completed (s : JobRun) : Except Thrown Unit → JobRun
  | .ok () => s.settle .resolved
  | .error err => s.catchError err

/-- The promise of `fail` is settled. -/
def failed (s : JobRun) : Except Thrown Unit → JobRun
  | .ok () => s.settle .resolved
  | .error _ => s.settle .rejected

/-- `beat`, of the timer and of the handler. -/
def beat (s : JobRun) : JobRun :=
  { s.call (.heartbeat s.job.id s.job.leaseId) with beats := s.beats + 1 }

def progress (s : JobRun) : JobRun :=
  { s.call (.progress s.job.id s.job.leaseId) with reports := s.reports + 1 }

/-- A reply that says that the lease is lost aborts; one that is an error does not. -/
def abortUnless (s : JobRun) : Except Thrown Bool → JobRun
  | .ok alive => { s with aborted := s.aborted || !alive }
  | .error _ => s

/-- What the environment does. -/
inductive Act where
  | returns (result : JsValue)
  | throws (err : Thrown)
  | tick
  | heartbeat
  | progress
  | heartbeatReply (reply : JobsClient.Reply)
  | progressReply (reply : JobsClient.Reply)
  | completeReply (reply : JobsClient.Reply)
  | failReply (reply : JobsClient.Reply)

/-- What an act needs. A handler may keep the context that it was given. -/
def Enabled (s : JobRun) : Act → Prop
  | .returns _ => s.await = .handler
  | .throws _ => s.await = .handler
  | .tick => s.timer = true
  | .heartbeat => s.handler ≠ .missing
  | .progress => s.handler ≠ .missing
  | .heartbeatReply _ => 0 < s.beats
  | .progressReply _ => 0 < s.reports
  | .completeReply _ => s.await = .complete
  | .failReply _ => s.await = .fail

def next (s : JobRun) : Act → JobRun
  | .returns result => s.returns result
  | .throws err => s.throws err
  | .tick => s.beat
  | .heartbeat => s.beat
  | .progress => s.progress
  | .heartbeatReply reply => { s with beats := s.beats - 1 }.abortUnless (JobsClient.heartbeat reply)
  | .progressReply reply => { s with reports := s.reports - 1 }.abortUnless (JobsClient.progress reply)
  | .completeReply reply => s.completed (JobsClient.complete reply)
  | .failReply reply => s.failed (JobsClient.fail reply)

def system : LabelledSystem JobRun Act where
  init s := ∃ job hasHandler, s = handleJob job hasHandler
  step s a s' := s.Enabled a ∧ s' = s.next a

/-! ## What is claimed of it -/

/-- The calls that say how the job ended. -/
def outcomes (s : JobRun) : List Call :=
  s.calls.filter Call.isOutcome

/-- The promise of `handleJob`. -/
structure Faithful (s : JobRun) : Prop where
  neverRejects : s.await ≠ .rejected
  failed : ∀ id leaseId error retryable, .fail id leaseId error retryable ∈ s.calls →
    s.handler = .missing ∨ ∃ err, s.handler = .threw err
  completed : ∀ id leaseId result, .complete id leaseId result ∈ s.calls →
    ∃ v, s.handler = .returned v ∧ result = v.orNull
  once : s.outcomes.length ≤ 1
  reported : s.await = .resolved → s.outcomes ≠ []
  cleared : s.await = .resolved ∨ s.await = .rejected → s.timer = false

/-- What the handler returns has a JSON and what it throws has a text, and the calls of `complete` and `fail` do not
reject. -/
def Harmless : Act → Prop
  | .returns result => result.Serializable
  | .throws err => err.message ≠ none
  | .completeReply reply => JobsClient.complete reply = .ok ()
  | .failReply reply => JobsClient.fail reply = .ok ()
  | _ => True

/-! ## The invariant -/

/-- The handler succeeded, and that is all that has been said. -/
def Completes (s : JobRun) : Prop :=
  ∃ v id leaseId, s.handler = .returned v ∧ s.outcomes = [.complete id leaseId v.orNull]

/-- The handler failed, or there is none, and that is all that has been said. -/
def Fails (s : JobRun) : Prop :=
  (s.handler = .missing ∨ ∃ err, s.handler = .threw err) ∧
    ∃ id leaseId error retryable, s.outcomes = [.fail id leaseId error retryable]

/-- What has been said of the job, by where it awaits. -/
def Honest (s : JobRun) : Prop :=
  match s.await with
  | .handler => s.handler = .running ∧ s.outcomes = []
  | .complete => s.Completes
  | .fail => s.Fails
  | .resolved => s.timer = false ∧ (s.Completes ∨ s.Fails)
  | .rejected => False

section

variable {s t : JobRun}

@[simp] theorem outcomes_call (s : JobRun) (c : Call) :
    (s.call c).outcomes = s.outcomes ++ [c].filter Call.isOutcome := by
  unfold outcomes call
  rw [List.filter_append]

theorem mem_outcomes {c : Call} (hc : c.isOutcome = true) : c ∈ s.calls ↔ c ∈ s.outcomes := by
  unfold outcomes
  rw [List.mem_filter, and_iff_left hc]

theorem Completes.faithful (h : s.Completes) (hrejects : s.await ≠ .rejected)
    (hcleared : s.await = .resolved → s.timer = false) : s.Faithful := by
  obtain ⟨v, id, leaseId, hhandler, houtcomes⟩ := h
  refine ⟨hrejects, fun id' leaseId' error retryable hmem => ?_, fun id' leaseId' result hmem => ?_, ?_, ?_, ?_⟩
  · rw [mem_outcomes rfl, houtcomes] at hmem
    simp at hmem
  · rw [mem_outcomes rfl, houtcomes] at hmem
    obtain ⟨-, -, rfl⟩ : id' = id ∧ leaseId' = leaseId ∧ result = v.orNull := by simpa using hmem
    exact ⟨v, hhandler, rfl⟩
  · simp [houtcomes]
  · simp [houtcomes]
  · rintro (hres | hrej)
    · exact hcleared hres
    · exact absurd hrej hrejects

theorem Fails.faithful (h : s.Fails) (hrejects : s.await ≠ .rejected)
    (hcleared : s.await = .resolved → s.timer = false) : s.Faithful := by
  obtain ⟨hhandler, id, leaseId, error, retryable, houtcomes⟩ := h
  refine ⟨hrejects, fun _ _ _ _ _ => hhandler, fun id' leaseId' result hmem => ?_, ?_, ?_, ?_⟩
  · rw [mem_outcomes rfl, houtcomes] at hmem
    simp at hmem
  · simp [houtcomes]
  · simp [houtcomes]
  · rintro (hres | hrej)
    · exact hcleared hres
    · exact absurd hrej hrejects

theorem Honest.faithful (h : s.Honest) : s.Faithful := by
  unfold Honest at h
  cases hawait : s.await with
  | handler =>
    rw [hawait] at h
    have hnone : ∀ c ∈ s.calls, c.isOutcome = false := by simpa [outcomes] using h.2
    refine ⟨by simp [hawait], fun id leaseId error retryable hmem => ?_, fun id leaseId result hmem => ?_, ?_, ?_, ?_⟩
    · cases hnone _ hmem
    · cases hnone _ hmem
    · simp [h.2]
    · simp [hawait]
    · simp [hawait]
  | complete =>
    rw [hawait] at h
    exact h.faithful (by simp [hawait]) (by simp [hawait])
  | fail =>
    rw [hawait] at h
    exact h.faithful (by simp [hawait]) (by simp [hawait])
  | resolved =>
    rw [hawait] at h
    obtain ⟨htimer, hcompletes | hfails⟩ := h
    · exact hcompletes.faithful (by simp [hawait]) fun _ => htimer
    · exact hfails.faithful (by simp [hawait]) fun _ => htimer
  | rejected =>
    rw [hawait] at h
    exact h.elim

/-- The runs start as the promise has it. -/
theorem honest_handleJob (job : Job) (hasHandler : Bool) : (handleJob job hasHandler).Honest := by
  cases hasHandler with
  | true => exact ⟨rfl, rfl⟩
  | false => exact ⟨.inl rfl, _, _, _, _, rfl⟩

/-- Where nothing has been said yet, what is caught is said if it has a text. -/
theorem honest_catchError {err : Thrown} (hnone : s.outcomes = [])
    (hhandler : s.handler = .missing ∨ ∃ err, s.handler = .threw err) (hmessage : err.message ≠ none) :
    (s.catchError err).Honest := by
  obtain ⟨message, hsome⟩ := Option.ne_none_iff_exists'.1 hmessage
  unfold catchError
  rw [hsome]
  refine ⟨hhandler, s.job.id, s.job.leaseId, message, !err.nonRetryable, ?_⟩
  have hcall : (s.fail message (!err.nonRetryable)).outcomes =
      s.outcomes ++ [Call.fail s.job.id s.job.leaseId message (!err.nonRetryable)] := outcomes_call _ _
  rw [hcall, hnone, List.nil_append]

/-- What is caught otherwise breaks the promise: it is said of a job that has been completed, or `handleJob` rejects. -/
theorem not_faithful_catchError {err : Thrown} (h : s.Completes) : ¬(s.catchError err).Faithful := by
  obtain ⟨v, id, leaseId, -, houtcomes⟩ := h
  intro hfaithful
  unfold catchError at hfaithful
  split at hfaithful
  next message _ =>
    have hcall : (s.fail message (!err.nonRetryable)).outcomes =
        s.outcomes ++ [Call.fail s.job.id s.job.leaseId message (!err.nonRetryable)] := outcomes_call _ _
    have honce := hfaithful.once
    rw [hcall, houtcomes] at honce
    simp at honce
  next => exact hfaithful.neverRejects rfl

theorem honest_of_same (hawait : t.await = s.await) (hhandler : t.handler = s.handler) (htimer : t.timer = s.timer)
    (houtcomes : t.outcomes = s.outcomes) (h : s.Honest) : t.Honest := by
  unfold Honest Completes Fails at h ⊢
  rw [hawait, hhandler, htimer, houtcomes]
  exact h

theorem honest_settle (h : s.Completes ∨ s.Fails) : (s.settle .resolved).Honest :=
  ⟨rfl, h⟩

theorem abortUnless_eq (s : JobRun) (r : Except Thrown Bool) :
    ∃ aborted, s.abortUnless r = { s with aborted } := by
  cases r with
  | error err => exact ⟨s.aborted, rfl⟩
  | ok alive => exact ⟨_, rfl⟩

/-- The outcomes after the call of `complete`, where there were none. -/
theorem outcomes_complete (hnone : s.outcomes = []) (result : JsValue) :
    (s.call (.complete s.job.id s.job.leaseId result)).outcomes = [.complete s.job.id s.job.leaseId result] := by
  rw [outcomes_call, hnone]
  rfl

theorem honest_returns {result : JsValue} (hnone : s.outcomes = []) (hserializable : result.Serializable) :
    (s.returns result).Honest := by
  cases result with
  | undefined => exact ⟨.undefined, s.job.id, s.job.leaseId, rfl, outcomes_complete hnone _⟩
  | json j => exact ⟨.json j, s.job.id, s.job.leaseId, rfl, outcomes_complete hnone _⟩
  | unserializable err => exact absurd rfl (hserializable err)

theorem honest_call {c : Call} (hc : c.isOutcome = false) (h : s.Honest) {beats reports : Nat} :
    { s.call c with beats, reports : JobRun }.Honest := by
  refine honest_of_same (s := s) rfl rfl rfl ?_ h
  have hcall : { s.call c with beats, reports : JobRun }.outcomes = s.outcomes ++ [c].filter Call.isOutcome :=
    outcomes_call s c
  rw [hcall]
  simp [hc]

theorem honest_abort (r : Except Thrown Bool) (h : s.Honest) {beats reports : Nat} :
    ({ s with beats, reports : JobRun }.abortUnless r).Honest := by
  obtain ⟨aborted, heq⟩ := abortUnless_eq { s with beats, reports : JobRun } r
  rw [heq]
  exact honest_of_same rfl rfl rfl rfl h

/-- An act that does no harm keeps to the promise. -/
theorem honest_next {a : Act} (h : s.Honest) (henabled : s.Enabled a) (hharmless : Harmless a) : (s.next a).Honest := by
  cases a with
  | returns result =>
    have hawait : s.await = .handler := henabled
    unfold Honest at h
    rw [hawait] at h
    exact honest_returns h.2 hharmless
  | throws err =>
    have hawait : s.await = .handler := henabled
    unfold Honest at h
    rw [hawait] at h
    exact honest_catchError (s := { s with handler := .threw err }) h.2 (.inr ⟨err, rfl⟩) hharmless
  | tick => exact honest_call rfl h
  | heartbeat => exact honest_call rfl h
  | progress => exact honest_call rfl h
  | heartbeatReply reply => exact honest_abort _ h
  | progressReply reply => exact honest_abort _ h
  | completeReply reply =>
    have hawait : s.await = .complete := henabled
    unfold Honest at h
    rw [hawait] at h
    change (s.completed (JobsClient.complete reply)).Honest
    rw [show JobsClient.complete reply = .ok () from hharmless]
    exact honest_settle (.inl h)
  | failReply reply =>
    have hawait : s.await = .fail := henabled
    unfold Honest at h
    rw [hawait] at h
    change (s.failed (JobsClient.fail reply)).Honest
    rw [show JobsClient.fail reply = .ok () from hharmless]
    exact honest_settle (.inr h)

/-- An act that does harm breaks the promise. -/
theorem not_faithful_next {a : Act} (h : s.Honest) (henabled : s.Enabled a) (hharmless : ¬Harmless a) :
    ¬(s.next a).Faithful := by
  cases a with
  | returns result =>
    have hawait : s.await = .handler := henabled
    unfold Honest at h
    rw [hawait] at h
    cases result with
    | undefined => exact absurd nofun hharmless
    | json j => exact absurd nofun hharmless
    | unserializable err =>
      -- `complete` throws before it asks for anything
      have hcompletes : { s.call (.complete s.job.id s.job.leaseId (.unserializable err)) with
          handler := .returned (.unserializable err), await := .complete : JobRun }.Completes :=
        ⟨.unserializable err, s.job.id, s.job.leaseId, rfl, outcomes_complete h.2 _⟩
      exact not_faithful_catchError hcompletes
  | throws err =>
    have hmessage : err.message = none := not_not.1 hharmless
    intro hfaithful
    change (catchError { s with handler := .threw err } err).Faithful at hfaithful
    unfold catchError at hfaithful
    rw [hmessage] at hfaithful
    exact hfaithful.neverRejects rfl
  | completeReply reply =>
    have hawait : s.await = .complete := henabled
    unfold Honest at h
    rw [hawait] at h
    change ¬(s.completed (JobsClient.complete reply)).Faithful
    cases hreply : JobsClient.complete reply with
    | ok u => exact absurd hreply hharmless
    | error err => exact not_faithful_catchError h
  | failReply reply =>
    change ¬(s.failed (JobsClient.fail reply)).Faithful
    cases hreply : JobsClient.fail reply with
    | ok u => exact absurd hreply hharmless
    | error err => exact fun hfaithful => hfaithful.neverRejects rfl
  | _ => exact absurd trivial hharmless

end

/-! ## Runs -/

theorem step_unique {s t t' : JobRun} {a : Act} (h : system.step s a t) (h' : system.step s a t') : t = t' :=
  h.2.trans h'.2.symm

/-- A call of `handleJob` keeps its promise throughout exactly when what its handler returns has a JSON and what it
throws a text, and neither `complete` nor `fail` rejects. -/
theorem handled_iff (job : Job) (hasHandler : Bool) (acts : List Act) (t : JobRun)
    (r : system.Run (handleJob job hasHandler) acts t) :
    system.Always Faithful (handleJob job hasHandler) acts ↔
      (system.restrict fun _ a => Harmless a).Run (handleJob job hasHandler) acts t := by
  have hhonest := honest_handleJob job hasHandler
  rw [LabelledSystem.always_iff, and_iff_right hhonest.faithful]
  refine r.allSteps_iff (I := Honest) (step_unique) ?_ ?_ hhonest
  · rintro s a _ hs ⟨henabled, rfl⟩
    exact ⟨fun hfaithful => by_contra fun hharmless => not_faithful_next hs henabled hharmless hfaithful,
      fun hharmless => (honest_next hs henabled hharmless).faithful⟩
  · rintro s a _ hs ⟨henabled, rfl⟩ hharmless
    exact honest_next hs henabled hharmless

theorem handled_iff_made :
    system.Always Faithful (handleJob ⟨⟨"j1", "make"⟩, "L1"⟩ true)
      [.tick, .returns (.json (.bool true)), .heartbeatReply (.response 500), .completeReply (.response 200)] := by
  have r : (system.restrict fun _ a => Harmless a).Run (handleJob ⟨⟨"j1", "make"⟩, "L1"⟩ true)
      [.tick, .returns (.json (.bool true)), .heartbeatReply (.response 500), .completeReply (.response 200)] _ :=
    .cons ⟨⟨rfl, rfl⟩, trivial⟩ (.cons ⟨⟨rfl, rfl⟩, nofun⟩ (.cons ⟨⟨Nat.one_pos, rfl⟩, trivial⟩
      (.cons ⟨⟨rfl, rfl⟩, rfl⟩ (.nil _))))
  exact (handled_iff _ _ _ _ r.of_restrict).2 r

/-- The server fails once, and the job that its handler has done is completed and failed. -/
theorem completed_and_failed :
    ¬∀ job hasHandler acts t, system.Run (handleJob job hasHandler) acts t →
      system.Always Faithful (handleJob job hasHandler) acts := by
  intro hall
  have r : system.Run (handleJob ⟨⟨"j1", "make"⟩, "L1"⟩ true)
      [.returns (.json (.bool true)), .completeReply (.response 500)] _ :=
    .cons ⟨rfl, rfl⟩ (.cons ⟨rfl, rfl⟩ (.nil _))
  have hfaithful := hall _ _ _ _ r _ [] _ (List.append_nil _).symm r
  exact absurd hfaithful.once (by decide)

end JobRun

end Atomo.Sdk

import Atomo.Lib.LabelledSystem

/-!
# The job worker

`createWorker` of the worker SDK: `start` begins a loop that leases jobs up to the capacity left and hands each to
`handleJob`, `stop` awaits the loop and then what is in flight. A loop computes its capacity before it awaits the
lease, and `stop` awaits the newest loop only, so both the bound on the handlers and the drain rest on there being one
loop at a time. `start` asks whether the worker is running, not whether its last loop has ended: after a `stop` that
nobody awaited, two loops lease at once. While no loop is begun beside another, every run keeps what is claimed
(`drained_and_bounded`).
-/

namespace Atomo.Sdk

/-! ## The code -/

structure LeasedJob where
  id : String
  kind : String
  deriving DecidableEq

/-- Where a loop awaits: the reply to a lease it has asked for, or its timer. -/
inductive Phase where
  | leasing (capacity : Nat)
  | sleeping
  deriving DecidableEq

/-- A call of `loop` that has not ended. -/
structure Loop where
  id : Nat
  phase : Phase
  deriving DecidableEq

/-- A promise of `active`: a call of `handleJob`, and whether it is running a handler. -/
structure Handling where
  id : Nat
  job : LeasedJob
  running : Bool
  deriving DecidableEq

/-- Where a call of `stop` awaits: the loop that was the newest when it was made, the promises that were active when
that had ended, or nothing any more. -/
inductive Stage where
  | joining (loop : Option Nat)
  | draining (handlings : List Nat)
  | resolved
  deriving DecidableEq

/-- A call of `stop`. It is `last` while `start` has not been called since; the code keeps no such mark. -/
structure StopCall where
  stage : Stage
  last : Bool
  deriving DecidableEq

/-- The variables of `createWorker`, with the calls of `loop` and `stop` that are under way. `leased` lists the jobs of
all replies and `handed` those that `handleJob` has been called for; the code keeps neither. -/
structure Worker where
  concurrency : Nat
  handlers : List String
  running : Bool
  inFlight : Nat
  active : List Handling
  loopDone : Option Nat
  loops : List Loop
  stops : List StopCall
  nextLoop : Nat
  nextHandling : Nat
  leased : List LeasedJob
  handed : List LeasedJob
  deriving DecidableEq

namespace Worker

/-- `createWorker`, with `opts.concurrency`. -/
def create (concurrency : Option Nat) : Worker where
  concurrency := max 1 (concurrency.getD 1)
  handlers := []
  running := false
  inFlight := 0
  active := []
  loopDone := none
  loops := []
  stops := []
  nextLoop := 0
  nextHandling := 0
  leased := []
  handed := []

def endLoop (s : Worker) (loop : Nat) : Worker :=
  { s with loops := s.loops.filter (·.id ≠ loop) }

def setPhase (s : Worker) (loop : Nat) (phase : Phase) : Worker :=
  { s with loops := ⟨loop, phase⟩ :: s.loops.filter (·.id ≠ loop) }

/-- A loop at its `while`, up to its next await or its end. -/
def turn (s : Worker) (loop : Nat) : Worker :=
  if s.running then
    if s.concurrency ≤ s.inFlight then s.setPhase loop .sleeping
    else s.setPhase loop (.leasing (s.concurrency - s.inFlight))
  else s.endLoop loop

/-- The body of the `for` over the jobs of a reply. Without a handler for its kind, the job is failed. -/
def hand (s : Worker) (job : LeasedJob) : Worker :=
  { s with
    inFlight := s.inFlight + 1
    active := s.active ++ [⟨s.nextHandling, job, job.kind ∈ s.handlers⟩]
    nextHandling := s.nextHandling + 1
    handed := s.handed ++ [job] }

/-- The reply of `client.lease` arrives. -/
def receive (s : Worker) (loop : Nat) (jobs : List LeasedJob) : Worker :=
  let s := { s with leased := s.leased ++ jobs }
  match jobs with
  | [] => s.setPhase loop .sleeping
  | _ => (jobs.foldl hand s).turn loop

/-- `client.lease` throws; if `onError` throws as well, the loop rejects. -/
def leaseFails (s : Worker) (loop : Nat) (rejects : Bool) : Worker :=
  if rejects then s.endLoop loop else s.setPhase loop .sleeping

/-- `on`. -/
def on (s : Worker) (kind : String) : Worker :=
  { s with handlers := s.handlers.insert kind }

/-- A call of `stop` once `start` has been called after it. -/
def superseded (call : StopCall) : StopCall :=
  { call with last := false }

/-- `start`. -/
def start (s : Worker) : Worker :=
  if s.running then s
  else
    let s := { s with
      running := true
      loopDone := some s.nextLoop
      nextLoop := s.nextLoop + 1
      stops := s.stops.map superseded }
    s.turn (s.nextLoop - 1)

/-- `stop`, up to its first await. -/
def stop (s : Worker) : Worker :=
  { s with running := false, stops := s.stops ++ [⟨.joining s.loopDone, true⟩] }

/-- A handler returns or throws, and `handleJob` reports it. -/
def handlerEnds (s : Worker) (handling : Nat) : Worker :=
  { s with active := s.active.map fun h => if h.id = handling then { h with running := false } else h }

/-- The callback of `finally`. -/
def settle (s : Worker) (handling : Nat) : Worker :=
  { s with inFlight := s.inFlight - 1, active := s.active.eraseP (·.id = handling) }

/-! ## Runs -/

/-- What happens: calls of `on`, `start` and `stop`, and the awaits of loops, of calls of `handleJob` and of calls of
`stop` that come to an end. -/
inductive Act where
  | on (kind : String)
  | start
  | stop
  | reply (loop : Nat) (jobs : List LeasedJob)
  | leaseFails (loop : Nat) (rejects : Bool)
  | wake (loop : Nat)
  | handlerEnds (handling : Nat)
  | settles (handling : Nat)
  | joins (call : Nat)
  | resolves (call : Nat)

/-- What an act needs. A reply has at most as many jobs as have been asked for. -/
def Enabled (s : Worker) : Act → Prop
  | .reply loop jobs => ∃ capacity, ⟨loop, .leasing capacity⟩ ∈ s.loops ∧ jobs.length ≤ capacity
  | .leaseFails loop _ => ∃ capacity, ⟨loop, .leasing capacity⟩ ∈ s.loops
  | .wake loop => ⟨loop, .sleeping⟩ ∈ s.loops
  | .handlerEnds handling => ∃ h ∈ s.active, h.id = handling
  | .settles handling => ∃ h ∈ s.active, h.id = handling ∧ h.running = false
  | .joins call => ∃ loop last, s.stops[call]? = some ⟨.joining loop, last⟩ ∧ ∀ l ∈ s.loops, loop ≠ some l.id
  | .resolves call =>
    ∃ handlings last, s.stops[call]? = some ⟨.draining handlings, last⟩ ∧ ∀ h ∈ s.active, h.id ∉ handlings
  | _ => True

/-- A call of `stop` goes on to its next await, or resolves. -/
def moveStop (s : Worker) (call : Nat) (stage : Stage) : Worker :=
  { s with stops := s.stops.modify call fun stop => { stop with stage } }

def next (s : Worker) : Act → Worker
  | .on kind => s.on kind
  | .start => s.start
  | .stop => s.stop
  | .reply loop jobs => s.receive loop jobs
  | .leaseFails loop rejects => s.leaseFails loop rejects
  | .wake loop => s.turn loop
  | .handlerEnds handling => s.handlerEnds handling
  | .settles handling => s.settle handling
  | .joins call => s.moveStop call (.draining (s.active.map (·.id)))
  | .resolves call => s.moveStop call .resolved

/-- A worker from its creation on. -/
def system : LabelledSystem Worker Act where
  init s := ∃ concurrency, s = create concurrency
  step s a s' := s.Enabled a ∧ s' = s.next a

/-! ## What is claimed of it -/

/-- No more handlers run than the worker is configured for. -/
def Bounded (s : Worker) : Prop :=
  s.active.countP (·.running) ≤ s.concurrency

/-- Once a call of `stop` after which `start` has not been called has resolved, no handler runs, and there is no loop
that could begin one. -/
def Drained (s : Worker) : Prop :=
  ∀ call ∈ s.stops, call.stage = .resolved → call.last = true →
    s.loops = [] ∧ ∀ h ∈ s.active, h.running = false

/-- `start` is not called while an earlier loop of the stopped worker is under way. -/
def Alone (s : Worker) : Act → Prop
  | .start => s.running = false → s.loops = []
  | _ => True

/-! ## The invariant -/

/-- A call of `stop` that may be the last one: it waits for the only loop, if there is one, or for all that is in
flight, or for nothing. -/
def Awaits (s : Worker) : Stage → Prop
  | .joining loop => loop = s.loopDone
  | .draining handlings => s.loops = [] ∧ ∀ h ∈ s.active, h.id ∈ handlings
  | .resolved => s.loops = [] ∧ s.active = []

/-- There is one loop at most, the newest, and the lease it awaits leaves room. -/
structure Tended (s : Worker) : Prop where
  counted : s.inFlight = s.active.length
  newest : ∀ l ∈ s.loops, s.loops = [l] ∧ s.loopDone = some l.id
  bound : s.inFlight ≤ s.concurrency
  room : ∀ loop capacity, ⟨loop, .leasing capacity⟩ ∈ s.loops → s.inFlight + capacity ≤ s.concurrency
  stopped : ∀ call ∈ s.stops, call.last = true → s.running = false ∧ s.Awaits call.stage

/-- What holds while a loop is being run. -/
structure Attended (s : Worker) (loop : Nat) : Prop where
  counted : s.inFlight = s.active.length
  alone : s.loops.filter (·.id ≠ loop) = []
  newest : s.loopDone = some loop
  bound : s.inFlight ≤ s.concurrency
  stopped : ∀ call ∈ s.stops, call.last = true → s.running = false ∧ call.stage = .joining (some loop)

section

variable {s : Worker} {loop : Nat} {phase : Phase}

theorem Tended.attended (h : s.Tended) (hl : ⟨loop, phase⟩ ∈ s.loops) : s.Attended loop := by
  obtain ⟨hloops, hnewest⟩ := h.newest _ hl
  refine ⟨h.counted, ?_, hnewest, h.bound, fun call hcall hlast => ?_⟩
  · rw [hloops]
    simp
  · obtain ⟨hrunning, hawaits⟩ := h.stopped call hcall hlast
    refine ⟨hrunning, ?_⟩
    rw [← hnewest]
    cases hstage : call.stage with
    | joining l =>
      rw [hstage] at hawaits
      rw [show l = s.loopDone from hawaits]
    | draining handlings =>
      rw [hstage] at hawaits
      rw [hawaits.1] at hl
      cases hl
    | resolved =>
      rw [hstage] at hawaits
      rw [hawaits.1] at hl
      cases hl

theorem Attended.setPhase (h : s.Attended loop)
    (hroom : ∀ capacity, phase = .leasing capacity → s.inFlight + capacity ≤ s.concurrency) :
    (s.setPhase loop phase).Tended := by
  have hloops : (s.setPhase loop phase).loops = [⟨loop, phase⟩] := congrArg _ h.alone
  refine ⟨h.counted, fun l hl => ?_, h.bound, fun loop' capacity hl => ?_, fun call hcall hlast => ?_⟩
  · rw [hloops] at hl ⊢
    obtain rfl := List.mem_singleton.1 hl
    exact ⟨rfl, h.newest⟩
  · rw [hloops] at hl
    injection List.mem_singleton.1 hl with _ hphase
    exact hroom capacity hphase.symm
  · obtain ⟨hrunning, hstage⟩ := h.stopped call hcall hlast
    rw [hstage]
    exact ⟨hrunning, h.newest.symm⟩

theorem Attended.endLoop (h : s.Attended loop) : (s.endLoop loop).Tended := by
  have hloops : (s.endLoop loop).loops = [] := h.alone
  refine ⟨h.counted, fun l hl => ?_, h.bound, fun loop' capacity hl => ?_, fun call hcall hlast => ?_⟩
  · rw [hloops] at hl
    cases hl
  · rw [hloops] at hl
    cases hl
  · obtain ⟨hrunning, hstage⟩ := h.stopped call hcall hlast
    rw [hstage]
    exact ⟨hrunning, h.newest.symm⟩

/-- The capacity is what is left. -/
theorem Attended.turn (h : s.Attended loop) : (s.turn loop).Tended := by
  unfold Worker.turn
  split
  · split
    · exact h.setPhase nofun
    · refine h.setPhase fun capacity hcapacity => ?_
      injection hcapacity with hcapacity
      omega
  · exact h.endLoop

theorem Attended.hand (h : s.Attended loop) (hroom : s.inFlight + 1 ≤ s.concurrency) (job : LeasedJob) :
    (s.hand job).Attended loop where
  counted := by
    unfold Worker.hand
    dsimp only
    rw [List.length_append, h.counted]
    rfl
  alone := h.alone
  newest := h.newest
  bound := hroom
  stopped := h.stopped

theorem Attended.handAll {jobs : List LeasedJob} (h : s.Attended loop)
    (hroom : s.inFlight + jobs.length ≤ s.concurrency) : (jobs.foldl Worker.hand s).Attended loop := by
  induction jobs generalizing s with
  | nil => exact h
  | cons job jobs ih =>
    rw [List.length_cons] at hroom
    refine ih (h.hand (by omega) job) ?_
    unfold Worker.hand
    dsimp only
    omega

theorem Tended.receive (h : s.Tended) {capacity : Nat} {jobs : List LeasedJob}
    (hl : ⟨loop, .leasing capacity⟩ ∈ s.loops) (hjobs : jobs.length ≤ capacity) : (s.receive loop jobs).Tended := by
  have hroom := h.room loop capacity hl
  have hs : Attended { s with leased := s.leased ++ jobs } loop :=
    ⟨(h.attended hl).counted, (h.attended hl).alone, (h.attended hl).newest, (h.attended hl).bound,
      (h.attended hl).stopped⟩
  unfold Worker.receive
  dsimp only
  split
  · exact hs.setPhase nofun
  · exact (hs.handAll (by dsimp only; omega)).turn

/-- A loop that is begun where there is none. -/
theorem Tended.start (h : s.Tended) (halone : s.Alone .start) : s.start.Tended := by
  unfold Worker.start
  split
  · exact h
  · next hrunning =>
    refine Attended.turn ⟨h.counted, ?_, rfl, h.bound, fun call hcall hlast => ?_⟩
    · dsimp only
      rw [halone (by simpa using hrunning)]
      rfl
    · obtain ⟨call', -, rfl⟩ := List.mem_map.1 hcall
      cases hlast

theorem Tended.stop (h : s.Tended) : s.stop.Tended where
  counted := h.counted
  newest := h.newest
  bound := h.bound
  room := h.room
  stopped call hcall hlast := by
    rcases List.mem_append.1 hcall with hcall | hcall
    · exact ⟨rfl, (h.stopped call hcall hlast).2⟩
    · obtain rfl := List.mem_singleton.1 hcall
      exact ⟨rfl, rfl⟩

/-- What is in flight changes, or gets less, and so does what a call of `stop` awaits. -/
theorem Tended.lessen (h : s.Tended) {inFlight : Nat} {active : List Handling} (hcounted : inFlight = active.length)
    (hle : inFlight ≤ s.inFlight) (hids : ∀ a ∈ active, ∃ a' ∈ s.active, a'.id = a.id) :
    Tended { s with inFlight, active } where
  counted := hcounted
  newest := h.newest
  bound := Nat.le_trans hle h.bound
  room loop capacity hl := by
    have hroom := h.room loop capacity hl
    dsimp only
    omega
  stopped call hcall hlast := by
    obtain ⟨hrunning, hawaits⟩ := h.stopped call hcall hlast
    refine ⟨hrunning, ?_⟩
    cases hstage : call.stage with
    | joining l =>
      rw [hstage] at hawaits
      exact hawaits
    | draining handlings =>
      rw [hstage] at hawaits
      refine ⟨hawaits.1, fun a ha => ?_⟩
      obtain ⟨a', ha', hid⟩ := hids a ha
      exact hid ▸ hawaits.2 a' ha'
    | resolved =>
      rw [hstage] at hawaits
      refine ⟨hawaits.1, List.eq_nil_iff_forall_not_mem.2 fun a ha => ?_⟩
      obtain ⟨a', ha', -⟩ := hids a ha
      rw [hawaits.2] at ha'
      cases ha'

theorem mem_moveStop {k : Nat} {stage : Stage} {call : StopCall} (h : call ∈ (s.moveStop k stage).stops) :
    call ∈ s.stops ∨ ∃ call', s.stops[k]? = some call' ∧ call = { call' with stage } := by
  obtain ⟨i, hi⟩ := List.mem_iff_getElem?.1 h
  unfold moveStop at hi
  dsimp only at hi
  rw [List.getElem?_modify] at hi
  obtain ⟨call', hcall', heq⟩ := Option.map_eq_some_iff.1 hi
  split at heq
  · next hki =>
    subst hki
    exact .inr ⟨call', hcall', heq.symm⟩
  · exact .inl (heq ▸ List.mem_of_getElem? hcall')

/-- A call of `stop` moves on to what it has to await next. -/
theorem Tended.moveStop (h : s.Tended) {k : Nat} {stage : Stage}
    (hstage : ∀ call, s.stops[k]? = some call → s.Awaits call.stage → s.Awaits stage) :
    (s.moveStop k stage).Tended where
  counted := h.counted
  newest := h.newest
  bound := h.bound
  room := h.room
  stopped call hcall hlast := by
    rcases mem_moveStop hcall with hcall | ⟨call', hk, rfl⟩
    · exact h.stopped call hcall hlast
    · obtain ⟨hrunning, hawaits⟩ := h.stopped call' (List.mem_of_getElem? hk) hlast
      exact ⟨hrunning, hstage call' hk hawaits⟩

/-! ## Runs without a second loop -/

theorem Tended.step (h : s.Tended) {a : Act} (henabled : s.Enabled a) (halone : s.Alone a) : (s.next a).Tended := by
  cases a with
  | on kind => exact ⟨h.counted, h.newest, h.bound, h.room, h.stopped⟩
  | start => exact h.start halone
  | stop => exact h.stop
  | reply loop jobs =>
    obtain ⟨capacity, hl, hjobs⟩ := henabled
    exact h.receive hl hjobs
  | leaseFails loop rejects =>
    obtain ⟨capacity, hl⟩ := henabled
    unfold next Worker.leaseFails
    dsimp only
    split
    · exact (h.attended hl).endLoop
    · exact (h.attended hl).setPhase nofun
  | wake loop => exact (h.attended henabled).turn
  | handlerEnds handling =>
    refine h.lessen (h.counted.trans (List.length_map _).symm) (Nat.le_refl _) fun a ha => ?_
    obtain ⟨a', ha', rfl⟩ := List.mem_map.1 ha
    refine ⟨a', ha', ?_⟩
    split <;> rfl
  | settles handling =>
    obtain ⟨a, ha, hid, -⟩ := henabled
    have hlength : (s.active.eraseP (·.id = handling)).length = s.active.length - 1 :=
      List.length_eraseP_of_mem ha (by simpa using hid)
    refine h.lessen ?_ (Nat.sub_le _ _) fun a ha => ⟨a, List.eraseP_subset ha, rfl⟩
    rw [hlength, h.counted]
  | joins call =>
    obtain ⟨loop, last, hcall, hended⟩ := henabled
    refine h.moveStop fun call' hcall' hawaits => ?_
    obtain rfl := Option.some.inj (hcall.symm.trans hcall')
    refine ⟨List.eq_nil_iff_forall_not_mem.2 fun l hl => ?_, fun a ha => List.mem_map_of_mem ha⟩
    exact hended l hl (hawaits.trans (h.newest l hl).2)
  | resolves call =>
    obtain ⟨handlings, last, hcall, hsettled⟩ := henabled
    refine h.moveStop fun call' hcall' hawaits => ?_
    obtain rfl := Option.some.inj (hcall.symm.trans hcall')
    exact ⟨hawaits.1, List.eq_nil_iff_forall_not_mem.2 fun a ha => hsettled a ha (hawaits.2 a ha)⟩

theorem tended_inductive : (system.restrict Alone).Inductive Tended where
  init s hs := by
    obtain ⟨concurrency, rfl⟩ := hs
    exact ⟨rfl, nofun, Nat.zero_le _, nofun, nofun⟩
  step s a s' h hstep := by
    obtain ⟨⟨henabled, rfl⟩, halone⟩ := hstep
    exact h.step henabled halone

theorem Tended.bounded (h : s.Tended) : s.Bounded := by
  have hle : s.active.countP (·.running) ≤ s.active.length := List.countP_le_length
  have hcounted := h.counted
  have hbound := h.bound
  unfold Bounded
  omega

theorem Tended.drained (h : s.Tended) : s.Drained := by
  intro call hcall hresolved hlast
  have hawaits := (h.stopped call hcall hlast).2
  rw [hresolved] at hawaits
  refine ⟨hawaits.1, fun a ha => ?_⟩
  rw [hawaits.2] at ha
  cases ha

/-! ## Every job is handed on once -/

theorem handAll_handed (jobs : List LeasedJob) (s : Worker) :
    (jobs.foldl hand s).handed = s.handed ++ jobs ∧ (jobs.foldl hand s).leased = s.leased := by
  induction jobs generalizing s with
  | nil => exact ⟨(List.append_nil _).symm, rfl⟩
  | cons job jobs ih =>
    obtain ⟨hhanded, hleased⟩ := ih (s.hand job)
    refine ⟨hhanded.trans ?_, hleased⟩
    rw [hand, List.append_assoc]
    rfl

@[simp] theorem handed_turn : (s.turn loop).handed = s.handed := by
  unfold turn
  split
  · split <;> rfl
  · rfl

@[simp] theorem leased_turn : (s.turn loop).leased = s.leased := by
  unfold turn
  split
  · split <;> rfl
  · rfl

/-- The jobs that have been handed on are those of the replies, each as often as it has come. -/
theorem handed_inductive : system.Inductive fun s => s.handed = s.leased where
  init s hs := by
    obtain ⟨concurrency, rfl⟩ := hs
    rfl
  step s a s' h hstep := by
    obtain ⟨-, rfl⟩ := hstep
    cases a with
    | start =>
      unfold next start
      dsimp only
      split
      · exact h
      · simpa using h
    | reply loop jobs =>
      unfold next receive
      dsimp only
      split
      · exact h.trans (List.append_nil _).symm
      · obtain ⟨hhanded, hleased⟩ := handAll_handed jobs { s with leased := s.leased ++ jobs }
        rw [handed_turn, leased_turn, hhanded, hleased]
        exact congrArg (· ++ jobs) h
    | leaseFails loop rejects =>
      unfold next Worker.leaseFails
      dsimp only
      split <;> exact h
    | wake loop => simpa [next] using h
    | _ => exact h

/-- While no loop is begun beside another, no more handlers run than configured, every leased job is handed on once,
and after a call of `stop` has resolved nothing runs until the next `start`. -/
theorem drained_and_bounded (s : Worker) (h : (system.restrict Alone).Reachable s) :
    s.Bounded ∧ s.handed = s.leased ∧ s.Drained := by
  have htended := tended_inductive.reachable h
  exact ⟨htended.bounded, handed_inductive.reachable h.of_restrict, htended.drained⟩

end

/-! ## A worker that is stopped and started again -/

def resize (id : String) : LeasedJob :=
  { id, kind := "resize" }

/-- Two jobs are leased and begun, the worker is stopped, both end, and the call resolves. -/
theorem drained_and_bounded_stopped : ∃ s : Worker, s.Bounded ∧ s.Drained ∧
    s.handed = [resize "j1", resize "j2"] ∧ s.stops = [⟨.resolved, true⟩] := by
  have r : (system.restrict Alone).Run (create (some 2))
      [.on "resize", .start, .reply 0 [resize "j1", resize "j2"], .stop, .wake 0, .joins 0, .handlerEnds 0,
        .handlerEnds 1, .settles 1, .settles 0, .resolves 0] _ :=
    .cons ⟨⟨trivial, rfl⟩, trivial⟩ <| .cons ⟨⟨trivial, rfl⟩, fun _ => rfl⟩ <|
    .cons ⟨⟨⟨2, by decide, by decide⟩, rfl⟩, trivial⟩ <| .cons ⟨⟨trivial, rfl⟩, trivial⟩ <|
    .cons ⟨⟨show _ ∈ _ by decide, rfl⟩, trivial⟩ <| .cons ⟨⟨⟨some 0, true, rfl, by decide⟩, rfl⟩, trivial⟩ <|
    .cons ⟨⟨⟨_, List.mem_cons_self .., rfl⟩, rfl⟩, trivial⟩ <|
    .cons ⟨⟨⟨_, List.mem_cons_of_mem _ (List.mem_cons_self ..), rfl⟩, rfl⟩, trivial⟩ <|
    .cons ⟨⟨⟨_, List.mem_cons_of_mem _ (List.mem_cons_self ..), rfl, rfl⟩, rfl⟩, trivial⟩ <|
    .cons ⟨⟨⟨_, List.mem_cons_self .., rfl, rfl⟩, rfl⟩, trivial⟩ <|
    .single ⟨⟨⟨[0, 1], true, rfl, by decide⟩, rfl⟩, trivial⟩
  obtain ⟨hbounded, -, hdrained⟩ := drained_and_bounded _ ⟨_, _, ⟨some 2, rfl⟩, r⟩
  exact ⟨_, hbounded, hdrained, rfl, rfl⟩

/-- A worker for one job at a time is stopped and started again while it awaits a lease, and runs two. -/
theorem two_at_once : ¬ ∀ s : Worker, system.Reachable s → s.Bounded ∧ s.handed = s.leased ∧ s.Drained := by
  intro h
  have r : system.Run (create none)
      [.on "resize", .start, .stop, .start, .reply 0 [resize "j1"], .reply 1 [resize "j2"]] _ :=
    .cons ⟨trivial, rfl⟩ <| .cons ⟨trivial, rfl⟩ <| .cons ⟨trivial, rfl⟩ <| .cons ⟨trivial, rfl⟩ <|
    .cons ⟨⟨1, by decide, by decide⟩, rfl⟩ <| .single ⟨⟨1, by decide, by decide⟩, rfl⟩
  have hbounded := (h _ ⟨_, _, ⟨none, rfl⟩, r⟩).1
  exact absurd hbounded (by unfold Bounded; decide)

end Worker

end Atomo.Sdk

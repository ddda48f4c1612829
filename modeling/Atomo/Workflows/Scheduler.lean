import Atomo.Workflows.Engine
import Mathlib.Order.Monotone.Basic

/-!
# The scheduler of workflows

`start_scheduler` of `workflow.rs`: at each tick the registered workflows that have a schedule are executed if they
have an occurrence in the window between the last tick and this one. The schedules are those of the `cron` crate: sets
of instants, of which it finds the first after a given one. A tick may take any time, and workflows may be registered
and removed while it does. Windows tile the time after the start (`window_iff`), and a workflow is executed once for
each window with an occurrence (`scheduled_once`).
-/

namespace Atomo.Workflows

/-! ## Definitions -/

section

variable {T : Type} [LinearOrder T]

/-- `cron::Schedule`, with the iteration of its occurrences after an instant. -/
structure Schedule (T : Type) [LinearOrder T] where
  occurrences : Set T
  next : T → Option T
  next_some : ∀ t o, next t = some o → o ∈ occurrences ∧ t < o ∧ ∀ x ∈ occurrences, t < x → o ≤ x
  next_none : ∀ t, next t = none → ∀ x ∈ occurrences, ¬t < x

/-- `cron_should_fire`. -/
def cronShouldFire (parse : String → Except String (Schedule T)) (cronExpr : String) (lastTick now : T) :
    Except String Bool := do
  let schedule ← parse cronExpr
  match schedule.next lastTick with
  | some next => pure (decide (next ≤ now))
  | none => pure false

/-- What an execution finds when its turn comes. -/
structure Turn where
  env : Env
  registry : Registry

/-- A tick: its time, the workflows that are registered then, in the order in which the map yields them, and what
the executions that it makes find. -/
structure Tick (T : Type) where
  now : T
  registry : Registry
  values : List Workflow
  perm : values.Perm (registry.workflows.entries.map Sigma.snd)
  turn : Nat → Turn

/-- What a tick does: it executes a workflow, or it logs an expression that is not valid. -/
inductive Event where
  | executed (name : String) (result : Except String Progress)
  | invalid (name error : String)

def scheduleOf (w : Workflow) : Option (String × String) :=
  match w.trigger with
  | .schedule cron => some (w.name, cron)
  | _ => none

/-- The loop over the scheduled workflows. -/
def fire (parse : String → Except String (Schedule T)) (lastTick now : T) (turn : Nat → Turn) :
    Nat → List (String × String) → List Event
  | _, [] => []
  | k, (name, cronExpr) :: scheduled =>
    match cronShouldFire parse cronExpr lastTick now with
    | .ok true =>
      .executed name ((turn k).registry.execute (turn k).env name ∅) :: fire parse lastTick now turn (k + 1) scheduled
    | .ok false => fire parse lastTick now turn (k + 1) scheduled
    | .error e => .invalid name e :: fire parse lastTick now turn (k + 1) scheduled

/-- What a tick does after the last one. -/
def Tick.events (parse : String → Except String (Schedule T)) (lastTick : T) (t : Tick T) : List Event :=
  fire parse lastTick t.now t.turn 0 (t.values.filterMap scheduleOf)

/-- `last_tick`, at tick `i`. -/
def lastTick (start : T) (ticks : Nat → Tick T) : Nat → T
  | 0 => start
  | i + 1 => (ticks i).now

/-- What the scheduler does at tick `i`. -/
def eventsAt (parse : String → Except String (Schedule T)) (start : T) (ticks : Nat → Tick T) (i : Nat) : List Event :=
  (ticks i).events parse (lastTick start ticks i)

def Event.isExecuted (name : String) : Event → Bool
  | .executed other _ => other = name
  | .invalid _ _ => false

/-- The executions of a workflow at tick `i`. -/
def executions (parse : String → Except String (Schedule T)) (start : T) (ticks : Nat → Tick T) (i : Nat)
    (name : String) : Nat :=
  (eventsAt parse start ticks i).countP (Event.isExecuted name)

/-- The window of tick `i`. -/
def InWindow (start : T) (ticks : Nat → Tick T) (i : Nat) (o : T) : Prop :=
  lastTick start ticks i < o ∧ o ≤ (ticks i).now

/-- The workflow that is registered under the name at tick `i` has this schedule. -/
def Scheduled (parse : String → Except String (Schedule T)) (t : Tick T) (name : String) (schedule : Schedule T) : Prop :=
  ∃ w cronExpr, t.registry.workflows.lookup name = some w ∧ w.trigger = .schedule cronExpr ∧
    parse cronExpr = .ok schedule

/-! ## Windows -/

variable {start : T} {ticks : Nat → Tick T}

theorem lastTick_le (hstart : start ≤ (ticks 0).now) (hticks : Monotone fun i => (ticks i).now) (i : Nat) :
    start ≤ lastTick start ticks i := by
  cases i with
  | zero => exact le_refl _
  | succ i => exact le_trans hstart (hticks (Nat.zero_le i))

/-- The windows of two ticks have no instant in common. -/
theorem window_unique (hticks : Monotone fun i => (ticks i).now) {i j : Nat} {o : T} (hi : InWindow start ticks i o)
    (hj : InWindow start ticks j o) : i = j := by
  have hle : ∀ {i j : Nat}, InWindow start ticks i o → InWindow start ticks j o → ¬i < j := by
    intro i j hi hj hlt
    obtain ⟨k, rfl⟩ : ∃ k, j = k + 1 := ⟨j - 1, by omega⟩
    have hnow : (ticks i).now ≤ (ticks k).now := hticks (by omega)
    exact absurd (lt_of_lt_of_le hj.1 (le_trans hi.2 hnow)) (lt_irrefl _)
  have hij := hle hi hj
  have hji := hle hj hi
  omega

/-- The windows are all of the time after the start that some tick reaches. -/
theorem window_iff (hstart : start ≤ (ticks 0).now) (hticks : Monotone fun i => (ticks i).now) (o : T) :
    (∃ i, InWindow start ticks i o) ↔ start < o ∧ ∃ n, o ≤ (ticks n).now := by
  constructor
  · rintro ⟨i, hafter, hupto⟩
    exact ⟨lt_of_le_of_lt (lastTick_le hstart hticks i) hafter, i, hupto⟩
  · rintro ⟨hafter, n, hn⟩
    -- the first tick that is not before the instant
    induction n with
    | zero => exact ⟨0, hafter, hn⟩
    | succ n ih =>
      by_cases hearlier : o ≤ (ticks n).now
      · exact ih hearlier
      · exact ⟨n + 1, lt_of_not_ge hearlier, hn⟩

/-! ## One tick -/

variable {parse : String → Except String (Schedule T)}

/-- The expression is valid and its schedule has an occurrence in the window. -/
theorem cronShouldFire_iff {cronExpr : String} {last now : T} :
    cronShouldFire parse cronExpr last now = .ok true ↔
      ∃ schedule, parse cronExpr = .ok schedule ∧ ∃ o ∈ schedule.occurrences, last < o ∧ o ≤ now := by
  unfold cronShouldFire
  cases hparse : parse cronExpr with
  | error e => simp [bind, Except.bind]
  | ok schedule =>
    simp only [bind, Except.bind]
    cases hnext : schedule.next last with
    | none =>
      have hnone := schedule.next_none last hnext
      simp only [pure, Except.pure, Except.ok.injEq, Bool.false_eq_true, exists_eq_left', false_iff]
      rintro ⟨o, ho, hafter, -⟩
      exact hnone o ho hafter
    | some next =>
      obtain ⟨hmem, hafter, hleast⟩ := schedule.next_some last next hnext
      simp only [pure, Except.pure, Except.ok.injEq, decide_eq_true_eq, exists_eq_left']
      constructor
      · intro hnow
        exact ⟨next, hmem, hafter, hnow⟩
      · rintro ⟨o, ho, hlast, hnow⟩
        exact le_trans (hleast o ho hlast) hnow

/-- The workflow has a schedule that has an occurrence in the window. -/
def fires (parse : String → Except String (Schedule T)) (last now : T) (cronExpr : String) : Bool :=
  (cronShouldFire parse cronExpr last now).toOption.getD false

theorem fires_iff {cronExpr : String} {last now : T} :
    fires parse last now cronExpr = true ↔ cronShouldFire parse cronExpr last now = .ok true := by
  unfold fires
  cases cronShouldFire parse cronExpr last now <;> simp [Except.toOption]

/-- The loop executes those that fire, each once. -/
theorem countP_fire (last now : T) (turn : Nat → Turn) (name : String) (k : Nat) (scheduled : List (String × String)) :
    (fire parse last now turn k scheduled).countP (Event.isExecuted name) =
      scheduled.countP fun s => decide (s.1 = name) && fires parse last now s.2 := by
  induction scheduled generalizing k with
  | nil => rfl
  | cons s scheduled ih =>
    obtain ⟨other, cronExpr⟩ := s
    rw [fire, List.countP_cons]
    cases hfire : cronShouldFire parse cronExpr last now with
    | error e =>
      simp only [List.countP_cons, ih, fires, hfire, Event.isExecuted, Except.toOption]
      simp
    | ok due =>
      cases due
      · simp only [ih, fires, hfire, Except.toOption]
        simp
      · simp only [List.countP_cons, ih, fires, hfire, Event.isExecuted, Except.toOption]
        simp

/-- Each execution is that of the workflow which is registered when its turn comes. -/
theorem executed_of_fire {last now : T} {turn : Nat → Turn} {name : String} {result : Except String Progress} {k : Nat}
    {scheduled : List (String × String)} (h : .executed name result ∈ fire parse last now turn k scheduled) :
    ∃ k, result = (turn k).registry.execute (turn k).env name ∅ := by
  induction scheduled generalizing k with
  | nil => cases h
  | cons s scheduled ih =>
    obtain ⟨other, cronExpr⟩ := s
    rw [fire] at h
    cases hfire : cronShouldFire parse cronExpr last now with
    | error e =>
      rw [hfire] at h
      rcases List.mem_cons.1 h with heq | h
      · cases heq
      · exact ih h
    | ok due =>
      cases due
      · rw [hfire] at h
        exact ih h
      · rw [hfire] at h
        rcases List.mem_cons.1 h with heq | h
        · cases heq
          exact ⟨k, rfl⟩
        · exact ih h

/-- Of workflows with names of their own, one at most has a given name. -/
theorem countP_named {ws : List Workflow} (hnodup : (ws.map Workflow.name).Nodup) (name : String)
    (q : Workflow → Bool) :
    (ws.countP fun w => decide (w.name = name) && q w) ≤ 1 := by
  induction ws with
  | nil => simp
  | cons w ws ih =>
    rw [List.map_cons, List.nodup_cons] at hnodup
    rw [List.countP_cons]
    by_cases hw : w.name = name
    · have hnone : (ws.countP fun w => decide (w.name = name) && q w) = 0 := by
        rw [List.countP_eq_zero]
        intro w' hw' hand
        rw [Bool.and_eq_true, decide_eq_true_eq] at hand
        exact hnodup.1 (hw ▸ hand.1 ▸ List.mem_map_of_mem hw')
      rw [hnone]
      split <;> omega
    · simpa [hw] using ih hnodup.2

namespace Tick

variable (t : Tick T)

omit [LinearOrder T] in
theorem mem_values {w : Workflow} : w ∈ t.values ↔ t.registry.workflows.lookup w.name = some w := by
  rw [t.perm.mem_iff, List.mem_map]
  constructor
  · rintro ⟨⟨name, w'⟩, hmem, rfl⟩
    have hlookup : t.registry.workflows.lookup name = some w' := AList.mem_lookup_iff.2 hmem
    rw [t.registry.named name w' hlookup]
    exact hlookup
  · intro hlookup
    exact ⟨⟨w.name, w⟩, AList.mem_lookup_iff.1 hlookup, rfl⟩

omit [LinearOrder T] in
theorem nodup_names : (t.values.map Workflow.name).Nodup := by
  rw [(t.perm.map Workflow.name).nodup_iff, List.map_map]
  have hkeys : t.registry.workflows.entries.map (Workflow.name ∘ Sigma.snd) = t.registry.workflows.keys := by
    refine List.map_congr_left fun e he => ?_
    exact t.registry.named e.1 e.2 (AList.mem_lookup_iff.2 he)
  rw [hkeys]
  exact t.registry.workflows.keys_nodup

variable (parse) in
/-- A tick executes a workflow once if its schedule has an occurrence in the window. -/
theorem countP_events (last : T) (name : String) :
    (t.events parse last).countP (Event.isExecuted name) ≤ 1 ∧
    (0 < (t.events parse last).countP (Event.isExecuted name) ↔
      ∃ schedule, Scheduled parse t name schedule ∧ ∃ o ∈ schedule.occurrences, last < o ∧ o ≤ t.now) := by
  have hcount : (t.events parse last).countP (Event.isExecuted name) =
      t.values.countP fun w => decide (w.name = name) &&
        (scheduleOf w).any fun s => fires parse last t.now s.2 := by
    unfold Tick.events
    rw [countP_fire, List.countP_filterMap]
    refine List.countP_congr fun w _ => ?_
    unfold scheduleOf
    split <;> simp
  rw [hcount]
  refine ⟨countP_named t.nodup_names name _, ?_⟩
  rw [List.countP_pos_iff]
  constructor
  · rintro ⟨w, hmem, hand⟩
    rw [Bool.and_eq_true, decide_eq_true_eq] at hand
    obtain ⟨rfl, hfires⟩ := hand
    unfold scheduleOf at hfires
    split at hfires
    next cron htrigger =>
      obtain ⟨schedule, hparse, hdue⟩ := cronShouldFire_iff.1 (fires_iff.1 hfires)
      exact ⟨schedule, ⟨w, cron, t.mem_values.1 hmem, htrigger, hparse⟩, hdue⟩
    next => cases hfires
  · rintro ⟨schedule, ⟨w, cron, hlookup, htrigger, hparse⟩, hdue⟩
    obtain rfl := t.registry.named name w hlookup
    refine ⟨w, t.mem_values.2 hlookup, ?_⟩
    have hfires : fires parse last t.now cron = true := fires_iff.2 (cronShouldFire_iff.2 ⟨schedule, hparse, hdue⟩)
    simp [scheduleOf, htrigger, hfires]

end Tick

/-! ## All ticks -/

/-- At each tick a workflow is executed once or not at all, once if the schedule that it is registered with has an
occurrence in the window. An instant after the start that a tick reaches is in the window of one tick. What is executed
is what the name stands for when its turn comes. -/
theorem scheduled_once (parse : String → Except String (Schedule T)) (start : T) (ticks : Nat → Tick T)
    (hstart : start ≤ (ticks 0).now) (hticks : Monotone fun i => (ticks i).now) :
    (∀ i name, executions parse start ticks i name ≤ 1 ∧
      (executions parse start ticks i name = 1 ↔
        ∃ schedule, Scheduled parse (ticks i) name schedule ∧ ∃ o ∈ schedule.occurrences, InWindow start ticks i o)) ∧
    (∀ o, (∃! i, InWindow start ticks i o) ↔ start < o ∧ ∃ n, o ≤ (ticks n).now) ∧
    (∀ o i j, InWindow start ticks i o → InWindow start ticks j o → i = j) ∧
    ∀ i name result, .executed name result ∈ eventsAt parse start ticks i →
      ∃ k, result = ((ticks i).turn k).registry.execute ((ticks i).turn k).env name ∅ := by
  refine ⟨fun i name => ?_, fun o => ?_, fun o i j => window_unique hticks, fun i name result h => executed_of_fire h⟩
  · obtain ⟨hle, hpos⟩ := (ticks i).countP_events parse (lastTick start ticks i) name
    refine ⟨hle, ?_⟩
    unfold executions eventsAt InWindow
    rw [← hpos]
    omega
  · rw [← window_iff hstart hticks]
    exact ⟨ExistsUnique.exists, fun ⟨i, hi⟩ => ⟨i, hi, fun j hj => window_unique hticks hj hi⟩⟩

/-- Each full minute, in seconds. -/
def everyMinute : Schedule Nat where
  occurrences := fun t => t % 60 = 0
  next t := some (60 * (t / 60 + 1))
  next_some t o h := by
    obtain rfl : 60 * (t / 60 + 1) = o := by simpa using h
    refine ⟨Nat.mul_mod_right _ _, by omega, fun x hx hlt => ?_⟩
    have hmod : x % 60 = 0 := hx
    omega
  next_none := nofun

theorem scheduled_once_digest :
    let registry := Registry.empty.register ⟨"digest", .schedule "0 * * * * *", []⟩
    let env : Env := ⟨none, none, String.toUpper, some, fun _ _ _ _ => .error "unreachable", fun _ => ""⟩
    executions (fun _ => .ok everyMinute) 5 (fun i => ⟨31 * i + 10, registry, _, .refl _, fun _ => ⟨env, registry⟩⟩) 2
      "digest" = 1 := by
  refine ((scheduled_once _ 5 _ (by decide) fun i j hij => ?_).1 2 "digest").2.2 ⟨everyMinute, ?_, 60, rfl, ?_⟩
  · simpa using hij
  · exact ⟨_, _, AList.lookup_insert _, rfl, rfl⟩
  · unfold InWindow lastTick
    decide

end

end Atomo.Workflows

import Atomo.Data.Json
import Mathlib.Algebra.Order.Field.Rat
import Mathlib.Data.List.AList
import Mathlib.Data.List.Infix

/-!
# The workflow engine

`WorkflowEngine::execute` of `workflow.rs`: a loop over the steps with a loop over the retries of one that fails. What
the calls of the steps come to is the environment's, which is asked at a tick for each attempt. A run records its
visits, one for each step that the loop comes to; the code keeps no such record. The outcome can be read off them: they
are those of all steps and each passes, or the last one does not (`execute_faithful`).
-/

namespace Atomo.Workflows

/-! ## Definitions -/

/-- `HashMap<String, Value>`. -/
abbrev Context := AList fun _ : String => Json

inductive WorkflowTrigger where
  | onEvent (model eventType : String)
  | manual
  | schedule (cron : String)

inductive StepAction where
  | mutation (query : String) (vars : Context)
  | job (queue kind : String) (payload : Json) (idempotencyKey : Option String)
  | http (method url : String) (body : Option Json)
  | delay (seconds : Nat)
  | setVariable (key : String) (value : Json)

/-- `Condition`. -/
structure StepCondition where
  field : String
  operator : String
  value : Json

inductive FailurePolicy where
  | stop
  | continue
  | retry (maxAttempts : Nat)
  deriving DecidableEq

structure WorkflowStep where
  name : String
  action : StepAction
  condition : Option StepCondition
  onFailure : FailurePolicy

structure Workflow where
  name : String
  trigger : WorkflowTrigger
  steps : List WorkflowStep

inductive ExecutionStatus where
  | running
  | completed
  | failed
  | paused
  deriving DecidableEq

structure WorkflowExecution where
  workflowName : String
  status : ExecutionStatus
  currentStep : Nat
  context : Context
  errors : List String

/-- What the calls of steps come to: those of the executors that were injected, if they were, and the status of a
response, with the text of that status. The methods that `reqwest` knows are its own. -/
structure Env where
  mutation : Option (Nat → String → Context → Except String Unit)
  job : Option (Nat → String → String → Json → Option String → Except String String)
  toUppercase : String → String
  parseMethod : String → Option String
  http : Nat → String → String → Option Json → Except String Nat
  statusText : Nat → String

/-! ## Conditions -/

/-- `Value::as_f64` with its default. -/
def asF64OrZero : Json → ℚ
  | .number n => n.asF64
  | _ => 0

/-- `evaluate_condition`. -/
def evaluateCondition (cond : StepCondition) (context : Context) : Bool :=
  let val := (context.lookup cond.field).getD .null
  if cond.operator = "eq" then val = cond.value
  else if cond.operator = "neq" then val ≠ cond.value
  else if cond.operator = "gt" then asF64OrZero cond.value < asF64OrZero val
  else if cond.operator = "lt" then asF64OrZero val < asF64OrZero cond.value
  else if cond.operator = "contains" then
    decide ((cond.value.asStr?.getD "").toList <:+: (val.asStr?.getD "").toList)
  else true

/-- A step without a condition is run. -/
def WorkflowStep.runs (step : WorkflowStep) (context : Context) : Bool :=
  step.condition.all (evaluateCondition · context)

/-! ## Steps -/

/-- `execute_step`. -/
def executeStep (env : Env) (tick : Nat) (action : StepAction) (context : Context) : Except String Unit × Context :=
  match action with
  | .delay _ => (.ok (), context)
  | .setVariable key value => (.ok (), context.insert key value)
  | .http method url body =>
    match env.http tick ((env.parseMethod (env.toUppercase method)).getD "POST") url body with
    | .error e => (.error e, context)
    | .ok status =>
      let context := context.insert "http_status" (.number (.ofInt status))
      if 200 ≤ status ∧ status < 300 then (.ok (), context)
      else (.error ("HTTP step to " ++ url ++ " failed with status " ++ env.statusText status), context)
  | .mutation query vars =>
    match env.mutation with
    | some exec => (exec tick query vars, context)
    | none => (.error "workflow Mutation step: no executor configured (server must inject one)", context)
  | .job queue kind payload idempotencyKey =>
    match env.job with
    | some exec =>
      match exec tick queue kind payload idempotencyKey with
      | .ok id => (.ok (), context.insert "job_id" (.string id))
      | .error e => (.error e, context)
    | none => (.error "workflow Job step: no executor configured (server must inject one)", context)

/-- A step that the loop came to: the context that it found and left, the tick of its first attempt and the results of
its attempts. -/
structure Visit where
  step : WorkflowStep
  tick : Nat
  before : Context
  results : List (Except String Unit)
  after : Context

/-- An execution under way, with the tick of its next attempt and its visits. -/
structure Progress where
  execution : WorkflowExecution
  tick : Nat := 0
  visits : List Visit := []

namespace Progress

def start (workflowName : String) (initialContext : Context) : Progress where
  execution := { workflowName, status := .running, currentStep := 0, context := initialContext, errors := [] }

def setContext (p : Progress) (context : Context) : Progress :=
  { p with execution := { p.execution with context }, tick := p.tick + 1 }

def pushError (p : Progress) (error : String) : Progress :=
  { p with execution := { p.execution with errors := p.execution.errors ++ [error] } }

def setStatus (p : Progress) (status : ExecutionStatus) : Progress :=
  { p with execution := { p.execution with status } }

def setStep (p : Progress) (i : Nat) : Progress :=
  { p with execution := { p.execution with currentStep := i } }

def visit (p : Progress) (v : Visit) : Progress :=
  { p with visits := p.visits ++ [v] }

/-- A call of `execute_step`. -/
def attempt (env : Env) (action : StepAction) (p : Progress) : Except String Unit × Progress :=
  let (result, context) := executeStep env p.tick action p.execution.context
  (result, p.setContext context)

/-- The loop over the retries, up to the first that succeeds, with their results. -/
def retries (env : Env) (action : StepAction) : Nat → Progress → List (Except String Unit) × Progress
  | 0, p => ([], p)
  | n + 1, p =>
    match p.attempt env action with
    | (.ok u, p) => ([.ok u], p)
    | (.error e, p) =>
      let (results, p) := retries env action n p
      (.error e :: results, p)

end Progress

/-- Some attempt succeeded. -/
def anyOk (results : List (Except String Unit)) : Bool :=
  results.any Except.isOk

/-- The loop over the steps, from position `i` on. -/
def runSteps (env : Env) : Nat → List WorkflowStep → Progress → Progress
  | _, [], p => p.setStatus .completed
  | i, step :: steps, p =>
    let p := p.setStep i
    let tick := p.tick
    let context := p.execution.context
    if step.runs context then
      match p.attempt env step.action with
      | (.ok u, p) => runSteps env (i + 1) steps (p.visit ⟨step, tick, context, [.ok u], p.execution.context⟩)
      | (.error e, p) =>
        let p := p.pushError ("Step '" ++ step.name ++ "': " ++ e)
        match step.onFailure with
        | .stop => (p.visit ⟨step, tick, context, [.error e], p.execution.context⟩).setStatus .failed
        | .continue => runSteps env (i + 1) steps (p.visit ⟨step, tick, context, [.error e], p.execution.context⟩)
        | .retry maxAttempts =>
          let (results, p) := p.retries env step.action maxAttempts
          let p := p.visit ⟨step, tick, context, .error e :: results, p.execution.context⟩
          if anyOk results then runSteps env (i + 1) steps p else p.setStatus .failed
    else runSteps env (i + 1) steps (p.visit ⟨step, tick, context, [], context⟩)

/-! ## The registry -/

/-- The registered workflows, each under its name. -/
structure Registry where
  workflows : AList fun _ : String => Workflow
  named : ∀ name workflow, workflows.lookup name = some workflow → workflow.name = name

namespace Registry

def empty : Registry where
  workflows := ∅
  named _ _ h := by cases h

/-- `register`. -/
def register (r : Registry) (workflow : Workflow) : Registry where
  workflows := r.workflows.insert workflow.name workflow
  named name found h := by
    by_cases heq : name = workflow.name
    · subst heq
      rw [AList.lookup_insert] at h
      cases h
      rfl
    · rw [AList.lookup_insert_ne heq] at h
      exact r.named name found h

/-- `remove`. -/
def remove (r : Registry) (name : String) : Registry where
  workflows := r.workflows.erase name
  named other found h := by
    by_cases heq : other = name
    · subst heq
      rw [AList.lookup_erase] at h
      cases h
    · rw [AList.lookup_erase_ne heq] at h
      exact r.named other found h

/-- `WorkflowEngine::execute`. -/
def execute (env : Env) (r : Registry) (name : String) (initialContext : Context) : Except String Progress :=
  match r.workflows.lookup name with
  | none => .error ("Workflow '" ++ name ++ "' not found")
  | some workflow =>
    .ok (runSteps env 0 workflow.steps (.start name initialContext))

end Registry

/-! ## What a run is -/

/-- `max_attempts`, where there are retries. -/
def FailurePolicy.maxAttempts : FailurePolicy → Nat
  | .retry maxAttempts => maxAttempts
  | _ => 0

/-- Attempts of an action one after the other, each on the context that the last one left. -/
inductive Attempts (env : Env) (action : StepAction) : Nat → Context → List (Except String Unit) → Context → Prop
  | nil (tick : Nat) (context : Context) : Attempts env action tick context [] context
  | cons {tick : Nat} {before between after : Context} {result : Except String Unit} {results : List (Except String Unit)}
    (hstep : executeStep env tick action before = (result, between))
    (hrest : Attempts env action (tick + 1) between results after) :
    Attempts env action tick before (result :: results) after

/-- The visits of a run, from a tick and a context on. -/
inductive Chained (env : Env) : Nat → Context → List Visit → Context → Prop
  | nil (tick : Nat) (context : Context) : Chained env tick context [] context
  | cons {v : Visit} {visits : List Visit} {after : Context}
    (hattempts : Attempts env v.step.action v.tick v.before v.results v.after)
    (hrest : Chained env (v.tick + v.results.length) v.after visits after) : Chained env v.tick v.before (v :: visits) after

/-- The step was skipped, it succeeded, at once or in a retry, or its failure is passed over. -/
def Visit.Passes (v : Visit) : Prop :=
  v.results = [] ∨ anyOk v.results = true ∨ v.step.onFailure = .continue

/-- A step is skipped where its condition is false; else it is attempted until it succeeds, as often as its policy
has it. -/
structure Visit.Faithful (v : Visit) : Prop where
  skipped : v.results = [] ↔ v.step.runs v.before = false
  bounded : v.results.length ≤ 1 + v.step.onFailure.maxAttempts
  failures : ∀ r ∈ v.results.dropLast, r.isOk = false
  exhausted : v.results ≠ [] → anyOk v.results = false → v.results.length = 1 + v.step.onFailure.maxAttempts

/-- The run of some steps from one state of an execution to another, by these visits. -/
structure Outcome (env : Env) (steps : List WorkflowStep) (p p' : Progress) (visits : List Visit) : Prop where
  recorded : p'.visits = p.visits ++ visits
  order : visits.map Visit.step <+: steps
  chained : Chained env p.tick p.execution.context visits p'.execution.context
  attempted : p'.tick = p.tick + (visits.map (·.results.length)).sum
  faithful : ∀ v ∈ visits, v.Faithful
  ends : p'.execution.status = .completed ∨ p'.execution.status = .failed
  completed : p'.execution.status = .completed ↔ visits.map Visit.step = steps ∧ ∀ v ∈ visits, v.Passes
  stops : ∀ before v after, visits = before ++ v :: after → ¬v.Passes → after = []

section

variable {env : Env} {step : WorkflowStep} {steps : List WorkflowStep} {p p₁ p' : Progress} {v : Visit}
  {visits : List Visit}

theorem dropLast_failures {r : Except String Unit} {results : List (Except String Unit)} (hr : r.isOk = false)
    (h : ∀ r ∈ results.dropLast, r.isOk = false) : ∀ r' ∈ (r :: results).dropLast, r'.isOk = false := by
  cases results with
  | nil => nofun
  | cons r' results => exact List.forall_mem_cons.2 ⟨hr, h⟩

/-- A step that passes, and the rest of the run. -/
theorem Outcome.cons (h : Outcome env steps p₁ p' visits) (hstep : v.step = step) (htick : v.tick = p.tick)
    (hbefore : v.before = p.execution.context) (hvisits : p₁.visits = p.visits ++ [v])
    (htick' : p₁.tick = v.tick + v.results.length) (hafter : p₁.execution.context = v.after)
    (hattempts : Attempts env v.step.action v.tick v.before v.results v.after) (hv : v.Faithful) (hpasses : v.Passes) :
    Outcome env (step :: steps) p p' (v :: visits) where
  recorded := by rw [h.recorded, hvisits, List.append_assoc, List.singleton_append]
  order := by
    rw [List.map_cons, hstep]
    exact (List.prefix_cons_inj step).2 h.order
  chained := by
    rw [← htick, ← hbefore]
    refine .cons hattempts ?_
    rw [← htick', ← hafter]
    exact h.chained
  attempted := by
    rw [h.attempted, htick', htick, List.map_cons, List.sum_cons]
    omega
  faithful := List.forall_mem_cons.2 ⟨hv, h.faithful⟩
  ends := h.ends
  completed := by
    rw [h.completed, List.map_cons, hstep, List.forall_mem_cons, List.cons.injEq]
    simp [hpasses]
  stops before w after heq hnot := by
    cases before with
    | nil =>
      injection heq with hw
      exact absurd (hw ▸ hpasses) hnot
    | cons u before =>
      injection heq with _ heq
      exact h.stops before w after heq hnot

/-- A step that ends the run. -/
theorem Outcome.last (hstep : v.step = step) (htick : v.tick = p.tick) (hbefore : v.before = p.execution.context)
    (hvisits : p'.visits = p.visits ++ [v]) (htick' : p'.tick = v.tick + v.results.length)
    (hafter : p'.execution.context = v.after)
    (hattempts : Attempts env v.step.action v.tick v.before v.results v.after) (hv : v.Faithful) (hpasses : ¬v.Passes)
    (hstatus : p'.execution.status = .failed) : Outcome env (step :: steps) p p' [v] where
  recorded := hvisits
  order := by
    rw [List.map_singleton, hstep]
    exact List.prefix_append [step] steps
  chained := by
    rw [← htick, ← hbefore, hafter]
    exact .cons hattempts (.nil _ _)
  attempted := by simpa [htick] using htick'
  faithful := by simpa using hv
  ends := .inr hstatus
  completed := by
    rw [hstatus]
    simp [hpasses]
  stops before w after heq _ := by
    cases before with
    | nil =>
      injection heq with _ hafter
      exact hafter.symm
    | cons u before =>
      injection heq with _ hafter
      cases before <;> cases hafter

/-- The run of no steps. -/
theorem Outcome.done : Outcome env [] p (p.setStatus .completed) [] where
  recorded := (List.append_nil _).symm
  order := List.nil_prefix
  chained := .nil _ _
  attempted := rfl
  faithful := nofun
  ends := .inl rfl
  completed := by simp [Progress.setStatus]
  stops before w after heq _ := by simp at heq

theorem Visit.faithful_skipped (hresults : v.results = []) (hruns : v.step.runs v.before = false) : v.Faithful where
  skipped := by simp [hresults, hruns]
  bounded := by simp [hresults]
  failures := by simp [hresults]
  exhausted h := absurd hresults h

theorem Visit.faithful_ok {u : Unit} (hresults : v.results = [.ok u]) (hruns : v.step.runs v.before = true) :
    v.Faithful where
  skipped := by simp [hresults, hruns]
  bounded := by simp [hresults]
  failures := by simp [hresults]
  exhausted _ h := by simp [hresults, anyOk, Except.isOk, Except.toBool] at h

/-- A step whose first attempt failed, by what holds of its retries. -/
theorem Visit.faithful_error {e : String} {results : List (Except String Unit)}
    (hresults : v.results = .error e :: results) (hruns : v.step.runs v.before = true)
    (hlength : results.length ≤ v.step.onFailure.maxAttempts) (hfailures : ∀ r ∈ results.dropLast, r.isOk = false)
    (hexhausted : anyOk results = false → results.length = v.step.onFailure.maxAttempts) : v.Faithful where
  skipped := by simp [hresults, hruns]
  bounded := by
    rw [hresults, List.length_cons]
    omega
  failures := by
    rw [hresults]
    exact dropLast_failures rfl hfailures
  exhausted _ h := by
    have hnone : anyOk results = false := by simpa [hresults, anyOk, Except.isOk, Except.toBool] using h
    rw [hresults, List.length_cons, hexhausted hnone, Nat.add_comm]

theorem attempt_eq {action : StepAction} {result : Except String Unit} {context : Context}
    (h : executeStep env p.tick action p.execution.context = (result, context)) :
    p.attempt env action = (result, p.setContext context) := by
  unfold Progress.attempt
  rw [h]

/-- What the retries are. -/
theorem retries_spec (env : Env) (action : StepAction) (n : Nat) (p : Progress) :
    Attempts env action p.tick p.execution.context (p.retries env action n).1
      (p.retries env action n).2.execution.context ∧
    (p.retries env action n).2.tick = p.tick + (p.retries env action n).1.length ∧
    (p.retries env action n).2.visits = p.visits ∧
    (p.retries env action n).1.length ≤ n ∧
    (∀ r ∈ (p.retries env action n).1.dropLast, r.isOk = false) ∧
    (anyOk (p.retries env action n).1 = false → (p.retries env action n).1.length = n) := by
  induction n generalizing p with
  | zero => exact ⟨.nil _ _, rfl, rfl, Nat.le_refl _, nofun, fun _ => rfl⟩
  | succ n ih =>
    rcases hexec : executeStep env p.tick action p.execution.context with ⟨result, context⟩
    cases result with
    | ok u =>
      have heq : p.retries env action (n + 1) = ([.ok u], p.setContext context) := by
        rw [Progress.retries, attempt_eq hexec]
      rw [heq]
      refine ⟨.cons hexec (.nil _ _), rfl, rfl, ?_, nofun, fun h => ?_⟩
      · simp
      · simp [anyOk, Except.isOk, Except.toBool] at h
    | error e =>
      have heq : p.retries env action (n + 1) =
          (.error e :: ((p.setContext context).retries env action n).1,
            ((p.setContext context).retries env action n).2) := by
        rw [Progress.retries, attempt_eq hexec]
      obtain ⟨hattempts, htick, hvisits, hlength, hfailures, hexhausted⟩ := ih (p.setContext context)
      rw [heq]
      refine ⟨.cons hexec hattempts, ?_, hvisits, by simpa using hlength, dropLast_failures rfl hfailures, fun h => ?_⟩
      · have hnext : (p.setContext context).tick = p.tick + 1 := rfl
        simp only [htick, hnext, List.length_cons]
        omega
      · have hnone : anyOk ((p.setContext context).retries env action n).1 = false := by
          simpa [anyOk, Except.isOk, Except.toBool] using h
        simpa using hexhausted hnone

/-- What the loop over the steps is. -/
theorem runSteps_outcome (env : Env) (i : Nat) (steps : List WorkflowStep) (p : Progress) :
    ∃ visits, Outcome env steps p (runSteps env i steps p) visits := by
  induction steps generalizing i p with
  | nil => exact ⟨[], .done⟩
  | cons step steps ih =>
    have hcontext : (p.setStep i).execution.context = p.execution.context := rfl
    cases hruns : step.runs p.execution.context with
    | false =>
      have heq : runSteps env i (step :: steps) p = runSteps env (i + 1) steps
          ((p.setStep i).visit ⟨step, p.tick, p.execution.context, [], p.execution.context⟩) := by
        simp only [runSteps, hcontext, hruns, Bool.false_eq_true, if_false]
        rfl
      obtain ⟨visits, hrest⟩ := ih (i + 1)
        ((p.setStep i).visit ⟨step, p.tick, p.execution.context, [], p.execution.context⟩)
      rw [heq]
      exact ⟨_, hrest.cons rfl rfl rfl rfl rfl rfl (.nil _ _) (Visit.faithful_skipped rfl hruns) (.inl rfl)⟩
    | true =>
      rcases hexec : executeStep env p.tick step.action p.execution.context with ⟨result, context⟩
      have hattempt : (p.setStep i).attempt env step.action = (result, (p.setStep i).setContext context) := attempt_eq hexec
      cases result with
      | ok u =>
        have heq : runSteps env i (step :: steps) p = runSteps env (i + 1) steps
            (((p.setStep i).setContext context).visit ⟨step, p.tick, p.execution.context, [.ok u], context⟩) := by
          simp only [runSteps, hcontext, hruns, hattempt, if_true]
          rfl
        obtain ⟨visits, hrest⟩ := ih (i + 1)
          (((p.setStep i).setContext context).visit ⟨step, p.tick, p.execution.context, [.ok u], context⟩)
        rw [heq]
        exact ⟨_, hrest.cons rfl rfl rfl rfl rfl rfl (.cons hexec (.nil _ _)) (Visit.faithful_ok rfl hruns)
          (.inr (.inl rfl))⟩
      | error e =>
        let q := ((p.setStep i).setContext context).pushError ("Step '" ++ step.name ++ "': " ++ e)
        cases hpolicy : step.onFailure with
        | stop =>
          have heq : runSteps env i (step :: steps) p =
              (q.visit ⟨step, p.tick, p.execution.context, [.error e], context⟩).setStatus .failed := by
            simp only [runSteps, hcontext, hruns, hattempt, hpolicy, if_true]
            rfl
          rw [heq]
          refine ⟨_, .last rfl rfl rfl rfl rfl rfl (.cons hexec (.nil _ _)) ?_ ?_ rfl⟩
          · exact Visit.faithful_error rfl hruns (Nat.zero_le _) nofun fun _ => by simp [hpolicy, FailurePolicy.maxAttempts]
          · simp [Visit.Passes, anyOk, Except.isOk, Except.toBool, hpolicy]
        | «continue» =>
          have heq : runSteps env i (step :: steps) p = runSteps env (i + 1) steps
              (q.visit ⟨step, p.tick, p.execution.context, [.error e], context⟩) := by
            simp only [runSteps, hcontext, hruns, hattempt, hpolicy, if_true]
            rfl
          obtain ⟨visits, hrest⟩ := ih (i + 1) (q.visit ⟨step, p.tick, p.execution.context, [.error e], context⟩)
          rw [heq]
          refine ⟨_, hrest.cons rfl rfl rfl rfl rfl rfl (.cons hexec (.nil _ _)) ?_ (.inr (.inr hpolicy))⟩
          exact Visit.faithful_error rfl hruns (Nat.zero_le _) nofun fun _ => by simp [hpolicy, FailurePolicy.maxAttempts]
        | retry maxAttempts =>
          obtain ⟨hattempts, htick, hvisits, hlength, hfailures, hexhausted⟩ := retries_spec env step.action maxAttempts q
          let v : Visit := ⟨step, p.tick, p.execution.context, .error e :: (q.retries env step.action maxAttempts).1,
            (q.retries env step.action maxAttempts).2.execution.context⟩
          have hv : v.Faithful := Visit.faithful_error rfl hruns
            (by simpa [v, hpolicy, FailurePolicy.maxAttempts] using hlength) hfailures (by simpa [v, hpolicy, FailurePolicy.maxAttempts] using hexhausted)
          have htick' : (q.retries env step.action maxAttempts).2.tick = v.tick + v.results.length := by
            have hnext : q.tick = p.tick + 1 := rfl
            simp only [v, htick, hnext, List.length_cons]
            omega
          have hrecorded : ((q.retries env step.action maxAttempts).2.visit v).visits = p.visits ++ [v] := by
            rw [Progress.visit, hvisits]
            rfl
          cases hany : anyOk (q.retries env step.action maxAttempts).1 with
          | true =>
            have heq : runSteps env i (step :: steps) p = runSteps env (i + 1) steps
                ((q.retries env step.action maxAttempts).2.visit v) := by
              simp only [q, runSteps, hcontext, hruns, hattempt, hpolicy, hany, if_true]
              rfl
            obtain ⟨visits, hrest⟩ := ih (i + 1) ((q.retries env step.action maxAttempts).2.visit v)
            rw [heq]
            refine ⟨_, hrest.cons rfl rfl rfl hrecorded htick' rfl (.cons hexec hattempts) hv (.inr (.inl ?_))⟩
            simpa [v, anyOk, Except.isOk, Except.toBool] using hany
          | false =>
            have heq : runSteps env i (step :: steps) p =
                ((q.retries env step.action maxAttempts).2.visit v).setStatus .failed := by
              simp only [q, runSteps, hcontext, hruns, hattempt, hpolicy, hany, if_true]
              rfl
            rw [heq]
            refine ⟨_, .last rfl rfl rfl hrecorded htick' rfl (.cons hexec hattempts) hv ?_ rfl⟩
            simpa [Visit.Passes, v, anyOk, Except.isOk, Except.toBool, hpolicy] using hany

/-- A registered workflow is run in the order of its steps, each that is not skipped until it succeeds or its attempts
are used up; it is completed if every one passes, and ends with the first that does not. -/
theorem execute_faithful (env : Env) (r : Registry) (name : String) (workflow : Workflow) (initialContext : Context)
    (h : r.workflows.lookup name = some workflow) :
    ∃ p, r.execute env name initialContext = .ok p ∧
      Outcome env workflow.steps (.start name initialContext) p p.visits := by
  obtain ⟨visits, houtcome⟩ := runSteps_outcome env 0 workflow.steps (.start name initialContext)
  have hvisits : (runSteps env 0 workflow.steps (.start name initialContext)).visits = visits := houtcome.recorded
  refine ⟨runSteps env 0 workflow.steps (.start name initialContext), ?_, hvisits ▸ houtcome⟩
  simp only [Registry.execute, h]

theorem execute_faithful_retry :
    ∃ p, (Registry.empty.register ⟨"notify", .manual, [⟨"post", .http "post" "/hook" none, none, .retry 2⟩,
        ⟨"mark", .setVariable "done" (.bool true), some ⟨"http_status", "eq", .null⟩, .stop⟩]⟩).execute
        ⟨none, none, String.toUpper, some, fun tick _ _ _ => .ok (if tick = 0 then 503 else 200), fun _ => "503"⟩
        "notify" ∅ = .ok p ∧
      Outcome ⟨none, none, String.toUpper, some, fun tick _ _ _ => .ok (if tick = 0 then 503 else 200), fun _ => "503"⟩
        [⟨"post", .http "post" "/hook" none, none, .retry 2⟩,
          ⟨"mark", .setVariable "done" (.bool true), some ⟨"http_status", "eq", .null⟩, .stop⟩]
        (.start "notify" ∅) p p.visits :=
  execute_faithful _ _ _ ⟨"notify", .manual, _⟩ _ (AList.lookup_insert _)

end

end Atomo.Workflows

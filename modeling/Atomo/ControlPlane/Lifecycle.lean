import Atomo.ControlPlane.Contracts
import Atomo.Lib.LabelledSystem

/-!
# Operators and the reconciler

Calls of the API and passes of the reconciler under way at once, each a program that advances one request at a time
over the registry. `start` and `stop` write the status of a project and leave its target alone, and nothing else
writes the target of a row that exists. So the reconciler keeps to an acknowledged stop, or start, where the target
agreed with it already and no pass under way has read otherwise (`stays_as_told`).
-/

namespace Atomo.ControlPlane

inductive ApiCall where
  | create (project : Project)
  | start (id : String)
  | stop (id : String)
  | schemaUpdate (id newSha : String)
  | delete (id : String) (dropDb : Bool)

def ApiCall.program (base : UInt16) : ApiCall → Op Unit
  | .create project => ControlPlane.create base project
  | .start id => ControlPlane.start id
  | .stop id => ControlPlane.stop id
  | .schemaUpdate id newSha => ControlPlane.schemaUpdate id newSha
  | .delete id dropDb => ControlPlane.delete id dropDb

/-- Whose program it is: that of a call, or a pass of the reconciler. -/
inductive Origin where
  | api (call : ApiCall)
  | reconciler

/-- A program under way, after the requests that have been answered. -/
structure Task where
  origin : Origin
  program : Op Unit

structure ControlState where
  rows : List Project
  tasks : Nat → Option Task

def ControlState.setTask (s : ControlState) (j : Nat) (task : Option Task) : ControlState :=
  { s with tasks := Function.update s.tasks j task }

/-! ## Replies -/

/-- The requests that the registry does not answer. -/
def Ask.isExternal : Ask → Bool
  | .adminExec _ | .materializeSchema _ | .resolveEnv _ | .recordEvent _ _ _ | .driverStart _ _ | .driverStop _
  | .driverRestart _ _ | .driverState _ | .gatewayApply _ | .tcpConnect _ => true
  | _ => false

/-- A statement that updates a row in place. -/
def Ask.updates? : Ask → Option (String × (Project → Project))
  | .updateStatus id status => some (id, fun p => { p with status })
  | .setDesiredState id desired => some (id, fun p => { p with desiredState := desired })
  | .setUpstream id upstream => some (id, fun p => { p with upstream })
  | .setSchemaVersion id version => some (id, fun p => { p with schemaVersion := some version })
  | .setLastHealth id health => some (id, fun p => { p with lastHealth := some health })
  | _ => none

/-- How a request can be answered over the rows of `projects`, and the rows after it. Anything can fail, and what is
outside answers as it likes. -/
inductive Serves (rows : List Project) : (i : Ask) → Except CpError (Reply i) → List Project → Prop
  | fail (i : Ask) (e : CpError) : Serves rows i (.error e) rows
  | outside {i : Ask} (h : i.isExternal = true) (a : Reply i) : Serves rows i (.ok a) rows
  | get {id : String} {p : Project} (h : Table.find Project.id id rows = some p) : Serves rows (.get id) (.ok p) rows
  | list {ps : List Project} (h : ps.Perm rows) (hsorted : ps.Pairwise (·.id ≤ ·.id)) : Serves rows .list (.ok ps) rows
  | create {p : Project} (h : p.id ∉ rows.map Project.id) : Serves rows (.create p) (.ok ()) (rows ++ [p])
  | delete (id : String) : Serves rows (.delete id) (.ok ()) (rows.filter (·.id ≠ id))
  | update {i : Ask} {id : String} {f : Project → Project} (h : i.updates? = some (id, f)) (a : Reply i) :
      Serves rows i (.ok a) (Table.update (·.id = id) f rows)

/-! ## Steps -/

inductive ControlAct where
  | call (j : Nat) (call : ApiCall)
  | tick (j : Nat)
  | answer (j : Nat) (origin : Origin) (i : Ask) (r : Except CpError (Reply i))
  | finish (j : Nat) (origin : Origin) (ok : Bool)

inductive ControlStep (base : UInt16) (s : ControlState) : ControlAct → ControlState → Prop
  | call {j : Nat} (c : ApiCall) (hj : s.tasks j = none) :
      ControlStep base s (.call j c) (s.setTask j (some ⟨.api c, c.program base⟩))
  | tick {j : Nat} (hj : s.tasks j = none) :
      ControlStep base s (.tick j) (s.setTask j (some ⟨.reconciler, ControlPlane.tick⟩))
  | answer {j : Nat} {origin : Origin} {i : Ask}
      {k : Except CpError (Reply i) → Resumption Ask (fun i => Except CpError (Reply i)) (Except CpError Unit)}
      {r : Except CpError (Reply i)} {rows : List Project} (hj : s.tasks j = some ⟨origin, ExceptT.mk (.ask i k)⟩)
      (hserve : Serves s.rows i r rows) :
      ControlStep base s (.answer j origin i r) { s.setTask j (some ⟨origin, ExceptT.mk (k r)⟩) with rows }
  | finish {j : Nat} {origin : Origin} {r : Except CpError Unit} (hj : s.tasks j = some ⟨origin, ExceptT.mk (.done r)⟩) :
      ControlStep base s (.finish j origin r.isOk) (s.setTask j none)

/-- Any calls and passes, over any registry. -/
def controlPlane (base : UInt16) : LabelledSystem ControlState ControlAct where
  init s := ∀ j, s.tasks j = none
  step := ControlStep base

/-! ## Laws of the programs under way -/

section

variable {base : UInt16} {s t : ControlState} {rely : (i : Ask) → Except CpError (Reply i) → Prop}
  {law : Origin → Ask → Prop}

/-- Every program under way keeps to the law of its origin as long as the replies satisfy `rely`. -/
def ControlState.Obey (s : ControlState) (rely : (i : Ask) → Except CpError (Reply i) → Prop)
    (law : Origin → Ask → Prop) : Prop :=
  ∀ j task, s.tasks j = some task → Attempt.Obeys rely (law task.origin) (fun _ => True) task.program

theorem setTask_tasks {j k : Nat} {task : Option Task} {task' : Task} (h : (s.setTask j task).tasks k = some task') :
    task = some task' ∨ s.tasks k = some task' := by
  unfold ControlState.setTask at h
  dsimp only at h
  by_cases hkj : k = j
  · subst hkj
    rw [Function.update_self] at h
    exact .inl h
  · rw [Function.update_of_ne hkj] at h
    exact .inr h

theorem ControlState.Obey.step (h : s.Obey rely law) {a : ControlAct} (hstep : ControlStep base s a t)
    (hcall : ∀ j c, a = .call j c → Attempt.Obeys rely (law (.api c)) (fun _ => True) (c.program base))
    (hpass : Attempt.Obeys rely (law .reconciler) (fun _ => True) ControlPlane.tick)
    (hreply : ∀ j origin i r rows, a = .answer j origin i r → law origin i → Serves s.rows i r rows → rely i r) :
    t.Obey rely law := by
  cases hstep with
  | call c hj =>
    intro k task hk
    cases setTask_tasks hk with
    | inl hnew =>
      cases hnew
      exact hcall _ c rfl
    | inr hold => exact h k task hold
  | tick hj =>
    intro k task hk
    cases setTask_tasks hk with
    | inl hnew =>
      cases hnew
      exact hpass
    | inr hold => exact h k task hold
  | answer hj hserve =>
    intro k task hk
    cases setTask_tasks (s := s) hk with
    | inl hnew =>
      cases hnew
      have hasked := h _ _ hj
      exact hasked.answer (hreply _ _ _ _ _ rfl hasked.1 hserve)
    | inr hold => exact h k task hold
  | finish hj =>
    intro k task hk
    cases setTask_tasks hk with
    | inl hnew => cases hnew
    | inr hold => exact h k task hold

end

/-! ## Acknowledged calls -/

/-- The instance that a request of the driver brings up. -/
def Ask.brings? : DesiredState → Ask → Option String
  | .running, .driverStart p _ => some p.id
  | .stopped, .driverStop p => some p.id
  | _, _ => none

/-- The other target. -/
def DesiredState.other : DesiredState → DesiredState
  | .running => .stopped
  | .stopped => .running

/-- The call that asks for a target. -/
def ApiCall.asksFor (id : String) : DesiredState → ApiCall
  | .running => .start id
  | .stopped => .stop id

/-- What ends the hold of an acknowledged call: the next call that asks for the other target, and where that is to
stop the project, a deletion, or where it is to start it, a creation. A creation and a deletion count when they are
called and when they take effect. -/
def ControlAct.releases (id : String) : DesiredState → ControlAct → Prop
  | .stopped, .call _ (.create p) | .stopped, .answer _ _ (.create p) (.ok _) => p.id = id
  | .stopped, .call _ (.start id') => id' = id
  | .running, .call _ (.stop id') | .running, .call _ (.delete id' _) | .running, .answer _ _ (.delete id') (.ok _) =>
    id' = id
  | _, _ => False

/-- Once a call for the target `d` of a project has been acknowledged, no pass of the reconciler has the driver bring
the project to the other target, until something releases it. -/
def HeldTo (d : DesiredState) (as : List ControlAct) : Prop :=
  ∀ id before j during k i r after,
    as = before ++ .finish j (.api (.asksFor id d)) true :: (during ++ .answer k .reconciler i r :: after) →
    i.brings? d.other = some id → ∃ b ∈ during, b.releases id d

/-! ## What the programs ask -/

/-- Replies name the project that was asked for. -/
def Keyed : (i : Ask) → Except CpError (Reply i) → Prop
  | .get id, .ok p => p.id = id
  | _, _ => True

/-- And the lists have the project `id` with the target `d`. -/
def Seen (id : String) (d : DesiredState) : (i : Ask) → Except CpError (Reply i) → Prop
  | .list, .ok ps => ∀ p ∈ ps, p.id = id → p.desiredState = d
  | i, r => Keyed i r

def Ask.isTarget : Ask → Bool
  | .setDesiredState _ _ => true
  | _ => false

/-- A request that neither writes a target nor has an instance started or stopped. -/
def Ask.isPlain : Ask → Bool
  | .setDesiredState _ _ | .driverStart _ _ | .driverStop _ => false
  | _ => true

section

variable {rely : (i : Ask) → Except CpError (Reply i) → Prop} {guar : Ask → Prop} {id : String} {d : DesiredState}

theorem isPlain_of_isRoutine {i : Ask} (h : i.isRoutine = true) : i.isPlain = true := by
  cases i <;> first | rfl | cases h

theorem brings?_of_isPlain {i : Ask} {e : DesiredState} (h : i.isPlain = true) : i.brings? e = none := by
  cases e <;> cases i <;> first | rfl | cases h

/-- A pass that lists a project with one target does not bring it to the other. -/
theorem obeys_tick (id : String) (d : DesiredState) :
    Attempt.Obeys (Seen id d) (fun i => i.brings? d.other ≠ some id) (fun _ => True) tick := by
  have hplain : ∀ i : Ask, i.isPlain = true → i.brings? d.other ≠ some id := by
    intro i hi
    rw [brings?_of_isPlain hi]
    exact nofun
  refine obeys_pass (fun i hi => hplain i (isPlain_of_isRoutine hi)) (fun ps hps q hq hrunning p env hp => ?_)
    (fun _ _ _ _ _ _ => hplain _ rfl) fun ps hps q hq hstopped p hp => ?_
  · cases d with
    | running => exact nofun
    | stopped =>
      intro hbrings
      have hid : q.id = id := hp ▸ Option.some.inj hbrings
      rw [hps q hq hid] at hrunning
      cases hrunning
  · cases d with
    | stopped => exact nofun
    | running =>
      intro hbrings
      have hid : q.id = id := hp ▸ Option.some.inj hbrings
      rw [hps q hq hid] at hstopped
      cases hstopped

/-! ### No program writes a target -/

theorem not_isTarget_of_isRoutine {i : Ask} (h : i.isRoutine = true) : i.isTarget = false := by
  cases i <;> first | rfl | cases h

theorem untargeted_program (base : UInt16) (c : ApiCall) :
    Attempt.Obeys Keyed (fun i => i.isTarget = false) (fun _ => True) (c.program base) := by
  have hroutine : ∀ i : Ask, i.isRoutine = true → i.isTarget = false := fun _ => not_isTarget_of_isRoutine
  cases c with
  | create project => exact obeys_create hroutine rfl rfl rfl (fun _ => rfl) fun _ _ _ => rfl
  | start id => exact obeys_start hroutine (fun _ _ _ => rfl) fun _ _ _ _ _ => rfl
  | stop id => exact obeys_stop hroutine fun _ _ => rfl
  | schemaUpdate id newSha => exact obeys_schemaUpdate hroutine fun _ _ _ _ _ _ _ => rfl
  | delete id dropDb => exact obeys_delete hroutine (fun _ _ => rfl) (fun _ _ => ⟨rfl, rfl⟩) fun _ _ => rfl

theorem untargeted_pass : Attempt.Obeys Keyed (fun i => i.isTarget = false) (fun _ => True) tick :=
  obeys_pass (fun _ => not_isTarget_of_isRoutine) (fun _ _ _ _ _ _ _ _ => rfl) (fun _ _ _ _ _ _ => rfl)
    fun _ _ _ _ _ _ _ => rfl

/-! ## Acknowledged calls hold -/

/-- No program under way writes a target. -/
def ControlState.Untargeted (s : ControlState) : Prop :=
  ∀ j task, s.tasks j = some task → Attempt.Obeys Keyed (fun i => i.isTarget = false) (fun _ => True) task.program

/-- The registry has the target `d` for the project, which it still has if that is to run, and no pass under way that
has listed the project otherwise has its instance yet to start, or to stop. -/
structure Agreed (s : ControlState) (id : String) (d : DesiredState) : Prop where
  rows : ∀ p ∈ s.rows, p.id = id → p.desiredState = d
  present : d = .running → id ∈ s.rows.map Project.id
  passes : ∀ j program, s.tasks j = some ⟨.reconciler, program⟩ →
    Attempt.Obeys (Seen id d) (fun i => i.brings? d.other ≠ some id) (fun _ => True) program

/-- A call for a target is acknowledged only where the target was that one before. -/
def Agrees (s : ControlState) : ControlAct → Prop
  | .finish _ (.api (.start id)) true => Agreed s id .running
  | .finish _ (.api (.stop id)) true => Agreed s id .stopped
  | _ => True

variable {base : UInt16} {s t : ControlState} {rows rows' : List Project} {i : Ask} {r : Except CpError (Reply i)}

theorem Serves.keyed (h : Serves rows i r rows') : Keyed i r := by
  cases h with
  | fail e => cases i <;> exact trivial
  | outside h a => cases i <;> first | exact trivial | cases h
  | get h => exact Table.key_of_find h
  | list => exact trivial
  | create => exact trivial
  | delete => exact trivial
  | update h a => cases i <;> first | exact trivial | cases h

theorem Serves.seen (h : Serves rows i r rows') (hrows : ∀ p ∈ rows, p.id = id → p.desiredState = d) : Seen id d i r := by
  cases h with
  | fail e => cases i <;> exact trivial
  | outside h a => cases i <;> first | exact trivial | cases h
  | get h => exact Table.key_of_find h
  | list hperm hsorted => exact fun p hp => hrows p (hperm.subset hp)
  | create => exact trivial
  | delete => exact trivial
  | update h a => cases i <;> first | exact trivial | cases h

theorem updates?_id {id' : String} {f : Project → Project} (h : i.updates? = some (id', f)) (p : Project) :
    (f p).id = p.id := by
  cases i <;> cases h <;> rfl

theorem updates?_desiredState {id' : String} {f : Project → Project} (h : i.updates? = some (id', f))
    (htarget : i.isTarget = false) (p : Project) : (f p).desiredState = p.desiredState := by
  cases i <;> cases h <;> first | rfl | cases htarget

/-- The rows of a project keep their target, and are there, unless the answer releases it. -/
theorem Serves.agreed (h : Serves rows i r rows') (htarget : i.isTarget = false) {j : Nat} {origin : Origin}
    (hheld : ¬(ControlAct.answer j origin i r).releases id d) (hrows : ∀ p ∈ rows, p.id = id → p.desiredState = d)
    (hpresent : d = .running → id ∈ rows.map Project.id) :
    (∀ p ∈ rows', p.id = id → p.desiredState = d) ∧ (d = .running → id ∈ rows'.map Project.id) := by
  cases h with
  | fail e => exact ⟨hrows, hpresent⟩
  | outside h a => exact ⟨hrows, hpresent⟩
  | get h => exact ⟨hrows, hpresent⟩
  | list hperm hsorted => exact ⟨hrows, hpresent⟩
  | create hnew =>
    rename_i q
    have hne : q.id ≠ id := by
      cases d with
      | stopped => exact hheld
      | running => exact fun hid => hnew (hid ▸ hpresent rfl)
    refine ⟨fun p hp hid => ?_, fun hd => ?_⟩
    · cases List.mem_append.1 hp with
      | inl hold => exact hrows p hold hid
      | inr hadded =>
        rw [List.mem_singleton.1 hadded] at hid
        exact absurd hid hne
    · rw [List.map_append]
      exact List.mem_append_left _ (hpresent hd)
  | delete id' =>
    refine ⟨fun p hp hid => hrows p (List.mem_filter.1 hp).1 hid, fun hd => ?_⟩
    subst hd
    have hne : id' ≠ id := hheld
    obtain ⟨p, hp, hid⟩ := List.mem_map.1 (hpresent rfl)
    refine List.mem_map.2 ⟨p, List.mem_filter.2 ⟨hp, decide_eq_true ?_⟩, hid⟩
    rw [hid]
    exact hne.symm
  | update h a =>
    refine ⟨fun p hp hid => ?_, fun hd => ?_⟩
    · cases Table.mem_update_cases hp with
      | inl hmissed => exact hrows p hmissed.1 hid
      | inr hhit =>
        obtain ⟨p₀, h₀, -, rfl⟩ := hhit
        rw [updates?_id h] at hid
        rw [updates?_desiredState h htarget]
        exact hrows p₀ h₀ hid
    · rw [Table.map_update (updates?_id h)]
      exact hpresent hd

theorem ControlState.Untargeted.step (h : s.Untargeted) {a : ControlAct} (hstep : ControlStep base s a t) :
    t.Untargeted := by
  have hobey : s.Obey Keyed fun _ i => i.isTarget = false := h
  exact hobey.step hstep (fun _ c _ => untargeted_program base c) untargeted_pass
    fun _ _ _ _ _ _ _ hserve => hserve.keyed

/-- An agreement is kept until it is released. -/
theorem Agreed.step (hs : s.Untargeted) (h : Agreed s id d) {a : ControlAct} (hstep : ControlStep base s a t)
    (hheld : ¬a.releases id d) : Agreed t id d := by
  cases hstep with
  | call c hj =>
    refine ⟨h.rows, h.present, fun k program hk => ?_⟩
    cases setTask_tasks hk with
    | inl hnew => cases hnew
    | inr hold => exact h.passes k program hold
  | tick hj =>
    refine ⟨h.rows, h.present, fun k program hk => ?_⟩
    cases setTask_tasks hk with
    | inl hnew =>
      cases hnew
      exact obeys_tick id d
    | inr hold => exact h.passes k program hold
  | answer hj hserve =>
    have htarget := (hs _ _ hj).1
    have hkept := hserve.agreed htarget hheld h.rows h.present
    refine ⟨hkept.1, hkept.2, fun k program hk => ?_⟩
    cases setTask_tasks (s := s) hk with
    | inl hnew =>
      cases hnew
      exact Attempt.Obeys.answer (h.passes _ _ hj) (hserve.seen h.rows)
    | inr hold => exact h.passes k program hold
  | finish hj =>
    refine ⟨h.rows, h.present, fun k program hk => ?_⟩
    cases setTask_tasks hk with
    | inl hnew => cases hnew
    | inr hold => exact h.passes k program hold

theorem Agreed.run (hs : s.Untargeted) (h : Agreed s id d) {as : List ControlAct} (r : (controlPlane base).Run s as t)
    (hheld : ∀ a ∈ as, ¬a.releases id d) : t.Untargeted ∧ Agreed t id d := by
  induction r with
  | nil => exact ⟨hs, h⟩
  | cons hstep _ ih =>
    exact ih (hs.step hstep) (h.step hs hstep (hheld _ (List.mem_cons_self ..)))
      fun a ha => hheld a (List.mem_cons_of_mem _ ha)

theorem untargeted_controlPlane (base : UInt16) : (controlPlane base).Inductive ControlState.Untargeted := by
  refine ⟨fun s hs j task hj => ?_, fun s a t h hstep => h.step hstep⟩
  rw [hs j] at hj
  cases hj

theorem heldTo (d : DesiredState) {s₀ : ControlState} {as : List ControlAct} (h₀ : (controlPlane base).init s₀)
    (r : ((controlPlane base).restrict Agrees).Run s₀ as s) : HeldTo d as := by
  intro id before j during k i r' after has hbrings
  by_contra hnone
  have hheld : ∀ b ∈ during, ¬b.releases id d := fun b hb hreleases => hnone ⟨b, hb, hreleases⟩
  rw [has] at r
  obtain ⟨u, rbefore, rest⟩ := LabelledSystem.run_append_iff.1 r
  obtain ⟨v, ⟨hfinish, hagrees⟩, rest⟩ := LabelledSystem.run_cons_iff.1 rest
  obtain ⟨w, rduring, rest⟩ := LabelledSystem.run_append_iff.1 rest
  obtain ⟨x, ⟨hanswer, -⟩, -⟩ := LabelledSystem.run_cons_iff.1 rest
  have hu : u.Untargeted := (untargeted_controlPlane base).reachable ⟨s₀, before, h₀, rbefore.of_restrict⟩
  have hagreed : Agreed u id d := by
    cases d with
    | running => exact hagrees
    | stopped => exact hagrees
  have hv : Agreed v id d := by
    refine hagreed.step hu hfinish ?_
    cases d <;> exact not_false
  have hw := Agreed.run (hu.step hfinish) hv rduring.of_restrict hheld
  cases hanswer with
  | answer hj hserve => exact (hw.2.passes _ _ hj).1 hbrings

/-- In a run in which calls to stop and to start a project are acknowledged only where its target agrees, and no pass
under way has read otherwise, the reconciler starts no project that was stopped and stops none that was started. -/
theorem stays_as_told (base : UInt16) (s₀ s : ControlState) (as : List ControlAct) (h₀ : (controlPlane base).init s₀)
    (r : ((controlPlane base).restrict Agrees).Run s₀ as s) : HeldTo .stopped as ∧ HeldTo .running as :=
  ⟨heldTo .stopped h₀ r, heldTo .running h₀ r⟩

end

/-- A project with its schema on a volume, up or down, and the target of its row. -/
def shop (status : ProjectStatus) (desired : DesiredState) : Project where
  id := "shop"
  hostname := none
  aliases := []
  databaseUrlRef := "/atomo/shop/DATABASE_URL"
  schemaRef := .volume "/schemas/shop"
  schemaVersion := none
  upstream := none
  env := .object []
  status
  desiredState := desired
  lastHealth := none

/-- A project that is meant to be down, stopped, and the pass after that. -/
def stoppedShop : List ControlAct :=
  [.call 0 (.stop "shop"),
    .answer 0 (.api (.stop "shop")) (.get "shop") (.ok (shop .running .stopped)),
    .answer 0 (.api (.stop "shop")) (.driverStop (shop .running .stopped)) (.ok ()),
    .answer 0 (.api (.stop "shop")) (.updateStatus "shop" .stopped) (.ok ()),
    .answer 0 (.api (.stop "shop")) (.recordEvent "shop" "stop" []) (.ok ()),
    .answer 0 (.api (.stop "shop")) .list (.ok [shop .stopped .stopped]),
    .answer 0 (.api (.stop "shop")) (.gatewayApply []) (.ok ()),
    .finish 0 (.api (.stop "shop")) true,
    .tick 0,
    .answer 0 .reconciler .list (.ok [shop .stopped .stopped]),
    .answer 0 .reconciler (.driverState (shop .stopped .stopped)) (.ok InstanceState.stopped)]

theorem stays_as_told_shop : HeldTo .stopped stoppedShop ∧ HeldTo .running stoppedShop := by
  have hagreed : ∀ s : ControlState, s.rows = [shop .stopped .stopped] → (∀ j, j ≠ 0 → s.tasks j = none) →
      (∀ program, s.tasks 0 ≠ some ⟨.reconciler, program⟩) → Agreed s "shop" .stopped := by
    intro s hrows hothers hpass
    refine ⟨fun p hp _ => ?_, nofun, fun j program hj => ?_⟩
    · rw [hrows, List.mem_singleton] at hp
      rw [hp]
      rfl
    · have hzero : j = 0 := by
        by_contra hne
        rw [hothers j hne] at hj
        cases hj
      subst hzero
      exact absurd hj (hpass program)
  obtain ⟨s, r⟩ : ∃ s, ((controlPlane 20000).restrict Agrees).Run ⟨[shop .running .stopped], fun _ => none⟩
      stoppedShop s :=
    ⟨_, .cons ⟨.call (j := 0) (.stop "shop") rfl, trivial⟩ <|
      .cons ⟨.answer rfl (.get rfl), trivial⟩ <|
      .cons ⟨.answer rfl (.outside (i := .driverStop _) rfl _), trivial⟩ <|
      .cons ⟨.answer rfl (.update (i := .updateStatus _ _) rfl _), trivial⟩ <|
      .cons ⟨.answer rfl (.outside (i := .recordEvent _ _ _) rfl _), trivial⟩ <|
      .cons ⟨.answer rfl (.list (.refl _) (List.pairwise_singleton ..)), trivial⟩ <|
      .cons ⟨.answer rfl (.outside (i := .gatewayApply _) rfl _), trivial⟩ <|
      .cons ⟨.finish (r := .ok ()) rfl, hagreed _ rfl
        (fun j hne => by simp [ControlState.setTask, Function.update_of_ne hne]) nofun⟩ <|
      .cons ⟨.tick (j := 0) rfl, trivial⟩ <|
      .cons ⟨.answer rfl (.list (.refl _) (List.pairwise_singleton ..)), trivial⟩ <|
      .cons ⟨.answer rfl (.outside (i := .driverState _) rfl _), trivial⟩ (.nil _)⟩
  exact stays_as_told 20000 _ s stoppedShop (fun _ => rfl) r

/-! ### A project that does not stay stopped -/

/-- The row of a new project wants it to run, whatever `stop` has reported since. -/
theorem stop_undone : ¬∀ (base : UInt16) (s₀ s : ControlState) (as : List ControlAct), (controlPlane base).init s₀ →
    (controlPlane base).Run s₀ as s → HeldTo .stopped as ∧ HeldTo .running as := by
  intro h
  have hfirst := h 20000 ⟨[shop .running .running], fun _ => none⟩ _ _ (fun _ => rfl)
    (.cons (.call (j := 0) (.stop "shop") rfl) <|
      .cons (.answer (j := 0) rfl (.get (p := shop .running .running) rfl)) <|
      .cons (.answer (j := 0) rfl (.outside rfl ())) <|
      .cons (.answer (j := 0) rfl (.update rfl ())) <|
      .cons (.answer (j := 0) rfl (.outside rfl ())) <|
      .cons (.answer (j := 0) rfl (.list (.refl _) (List.pairwise_singleton ..))) <|
      .cons (.answer (j := 0) rfl (.outside rfl ())) <|
      .cons (.finish (j := 0) (r := .ok ()) rfl) <|
      .cons (.tick (j := 0) rfl) <|
      .cons (.answer (j := 0) rfl (.list (.refl _) (List.pairwise_singleton ..))) <|
      .cons (.answer (j := 0) rfl (.outside rfl InstanceState.stopped)) <|
      .cons (.answer (j := 0) rfl (.get (p := shop .stopped .running) rfl)) <|
      .cons (.answer (j := 0) rfl (.outside rfl ([] : List (String × String)))) <|
      .cons (.answer (j := 0) rfl (.outside rfl (Handle.mk "127.0.0.1:20001"))) (.nil _))
  obtain ⟨b, hb, hreleases⟩ := hfirst.1 "shop" [_, _, _, _, _, _, _] 0 [_, _, _, _, _] 0 _ _ [] rfl rfl
  simp only [List.mem_cons, List.not_mem_nil, or_false] at hb
  obtain rfl | rfl | rfl | rfl | rfl := hb <;> exact hreleases

end Atomo.ControlPlane

import Atomo.ControlPlane.Claims
import Atomo.ControlPlane.Environment

/-!
# The upstreams of the projects

`create` places a project at a port that is the sum of the bytes of its id, modulo 1000, and no one looks whether
another project has that port; an instance that is started for a row without an upstream gets the port of its
environment. Where neither is an upstream that another project has, or is about to have, no two projects that run have
one upstream (`distinct_upstreams`).
-/

namespace Atomo.ControlPlane

/-! ## The Docker driver -/

/-- `resolve_port`. -/
def resolvePort (project : Project) (env : List (String × String)) : UInt16 :=
  (project.upstream.bind upstreamPort).getD (((env.lookup "PORT").bind fun port => parsePort port.toList).getD 3000)

/-- The upstream of the instance that the driver starts, or finds running. -/
def dockerUpstream (project : Project) (env : List (String × String)) : String :=
  project.upstream.getD ("127.0.0.1:" ++ toString (resolvePort project env))

def DockerReply : (i : Ask) → Except CpError (Reply i) → Prop
  | .driverStart p env, .ok handle | .driverRestart p env, .ok handle => handle.upstream = dockerUpstream p env
  | _, _ => True

/-- The driver is that of Docker, and projects are sent without an upstream. -/
def OnDocker : ControlAct → Prop
  | .answer _ _ i r => DockerReply i r
  | .call _ (.create p) => p.upstream = none
  | _ => True

def dockerFleet (base : UInt16) : LabelledSystem ControlState ControlAct :=
  (controlPlane base).restrict fun _ a => OnDocker a

/-! ## Distinct upstreams -/

def ControlState.Distinct (s : ControlState) : Prop :=
  ∀ p ∈ s.rows, ∀ q ∈ s.rows, p.id ≠ q.id → p.status = .running → q.status = .running →
    ∀ upstream, p.upstream = some upstream → q.upstream ≠ some upstream

/-- The claim of `id` on an upstream: its row has it, or a program other than a creation is about to write it there. -/
def listener (id upstream : String) : Claim where
  row p := p.id = id ∧ p.upstream = some upstream
  rely
    | .get id', .ok p => p.id = id' ∧ (p.id = id → p.upstream ≠ some upstream)
    | .driverStart p env, .ok handle | .driverRestart p env, .ok handle =>
      handle.upstream = dockerUpstream p env ∧ (p.upstream = none → p.id = id → dockerUpstream p env ≠ upstream)
    | _, _ => True
  free
    | .api (.create _), _ => True
    | _, .setUpstream id' (some upstream') => id' = id → upstream' ≠ upstream
    | _, _ => True

/-- The project that a step places, and where: a creation at its own port, or the driver at that of the environment of
a row without an upstream. -/
def ControlAct.places? (base : UInt16) : ControlAct → Option (String × String)
  | .answer _ (.api (.create p)) (.setUpstream _ _) (.ok _) => some (p.id, portOf base p.id)
  | .answer _ _ (.driverStart p env) (.ok _) | .answer _ _ (.driverRestart p env) (.ok _) =>
    if p.upstream = none then some (p.id, dockerUpstream p env) else none
  | _ => none

/-- A project is placed only where no other project has a claim. -/
def OwnPort (base : UInt16) (s : ControlState) (a : ControlAct) : Prop :=
  ∀ id upstream, a.places? base = some (id, upstream) → ∀ id', id' ≠ id → ¬s.Claimed (listener id' upstream)

/-- No two projects have a claim on one upstream. -/
def Placed (s : ControlState) : Prop :=
  ∀ id id' upstream, id ≠ id' → s.Claimed (listener id upstream) → ¬s.Claimed (listener id' upstream)

/-! ## What creations write -/

/-- Rows are made by creations, without an upstream, and a creation places its own project at its own port. -/
def placesOwn (base : UInt16) : Origin → Ask → Prop
  | .api (.create _), .create q => q.upstream = none
  | .api (.create p), .setUpstream id upstream => id = p.id ∧ upstream = some (portOf base p.id)
  | _, .create _ => False
  | _, _ => True

variable {base : UInt16} {s t : ControlState} {id id' upstream : String}

theorem dockerUpstream_eq {p : Project} (h : p.upstream = some upstream) (env : List (String × String)) :
    dockerUpstream p env = upstream := by
  unfold dockerUpstream
  rw [h, Option.getD_some]

theorem placesOwn_program (c : ApiCall) (hcall : OnDocker (.call 0 c)) :
    Attempt.Obeys DockerReply (placesOwn base (.api c)) (fun _ => True) (c.program base) := by
  have hroutine : ∀ i : Ask, i.isRoutine = true → placesOwn base (.api c) i := by
    intro i hi
    cases c <;> cases i <;> first | exact trivial | cases hi
  cases c with
  | create p =>
    have hport : assignedUpstream base p = portOf base p.id := by
      unfold assignedUpstream portOf
      rw [show p.upstream = none from hcall, Option.getD_none]
    refine obeys_create hroutine trivial hcall ⟨rfl, congrArg some hport⟩ (fun _ => trivial) fun env handle hhandle => ?_
    have hhandle : handle.upstream = assignedUpstream base p := hhandle.trans (dockerUpstream_eq rfl env)
    exact ⟨rfl, congrArg some (hhandle.trans hport)⟩
  | start id => exact obeys_start hroutine (fun _ _ _ => trivial) fun _ _ _ _ _ => trivial
  | stop id => exact obeys_stop hroutine fun _ _ => trivial
  | schemaUpdate id newSha => exact obeys_schemaUpdate hroutine fun _ _ _ _ _ _ _ => trivial
  | delete id dropDb => exact obeys_delete hroutine (fun _ _ => trivial) (fun _ _ => ⟨trivial, trivial⟩) fun _ _ => trivial

theorem placesOwn_pass : Attempt.Obeys DockerReply (placesOwn base .reconciler) (fun _ => True) tick := by
  refine obeys_pass (fun i hi => ?_) (fun _ _ _ _ _ _ _ _ => trivial) (fun _ _ _ _ _ _ => trivial)
    fun _ _ _ _ _ _ _ => trivial
  cases i <;> first | exact trivial | cases hi

theorem placesOwn_dockerFleet (base : UInt16) :
    (dockerFleet base).Inductive fun s => s.Obey DockerReply (placesOwn base) := by
  refine ⟨fun s hs j task hj => ?_, fun s a t h hstep => ?_⟩
  · rw [hs j] at hj
    cases hj
  · obtain ⟨hstep, hdocker⟩ := hstep
    refine h.step hstep (fun j c ha => placesOwn_program c ?_) placesOwn_pass fun j origin i r rows ha _ _ => ?_
    · subst ha
      cases c <;> exact hdocker
    · subst ha
      exact hdocker

/-! ## What the others write -/

theorem listener_written {p : Project} {env : List (String × String)} {handle : Handle}
    (hrow : p.id = id' ∧ (p.id = id → p.upstream ≠ some upstream))
    (hhandle : handle.upstream = dockerUpstream p env ∧ (p.upstream = none → p.id = id → dockerUpstream p env ≠ upstream))
    (hid : id' = id) : handle.upstream ≠ upstream := by
  have hpid : p.id = id := hrow.1.trans hid
  rw [hhandle.1]
  cases hupstream : p.upstream with
  | none => exact hhandle.2 hupstream hpid
  | some own =>
    rw [dockerUpstream_eq hupstream]
    exact fun h => hrow.2 hpid (hupstream.trans (congrArg some h))

theorem listener_program (c : ApiCall) :
    Attempt.Obeys (listener id upstream).rely ((listener id upstream).free (.api c)) (fun _ => True)
      (c.program base) := by
  have hroutine : ∀ i : Ask, i.isRoutine = true → (listener id upstream).free (.api c) i := by
    intro i hi
    cases c <;> cases i <;> first | exact trivial | cases hi
  cases c with
  | create p => exact Attempt.obeys_of_free (fun _ => trivial) _
  | start id' =>
    exact obeys_start hroutine (fun _ _ _ => trivial) fun p env handle hp hhandle => listener_written hp hhandle
  | stop id' => exact obeys_stop hroutine fun _ _ => trivial
  | schemaUpdate id' newSha =>
    refine obeys_schemaUpdate hroutine fun p p' env handle hp hp' hhandle => ?_
    refine listener_written (p := p') ⟨hp'.1.trans hp.1, ?_⟩ hhandle
    rw [hp'.1, hp'.2]
    exact hp.2
  | delete id' dropDb =>
    exact obeys_delete hroutine (fun _ _ => trivial) (fun _ _ => ⟨trivial, trivial⟩) fun _ _ => trivial

theorem listener_pass :
    Attempt.Obeys (listener id upstream).rely ((listener id upstream).free .reconciler) (fun _ => True) tick := by
  refine obeys_pass (fun i hi => ?_) (fun _ _ _ _ _ _ _ _ => trivial)
    (fun id' p env handle hp hhandle => listener_written hp hhandle) fun _ _ _ _ _ _ _ => trivial
  cases i <;> first | exact trivial | cases hi

/-! ## Claims on upstreams -/

theorem updates?_upstream {i : Ask} {f : Project → Project} (h : i.updates? = some (id, f)) :
    (∃ own, i = .setUpstream id own ∧ ∀ p, (f p).upstream = own) ∨ ∀ p, (f p).upstream = p.upstream := by
  cases i with
  | setUpstream =>
    cases h
    exact .inl ⟨_, rfl, fun _ => rfl⟩
  | updateStatus | setDesiredState | setSchemaVersion | setLastHealth =>
    cases h
    exact .inr fun _ => rfl
  | _ => cases h

theorem places?_driver {j : Nat} {origin : Origin} {p : Project} {env : List (String × String)} {handle : Handle}
    (hnone : p.upstream = none) :
    (ControlAct.answer j origin (.driverStart p env) (.ok handle)).places? base = some (p.id, dockerUpstream p env) ∧
    (ControlAct.answer j origin (.driverRestart p env) (.ok handle)).places? base =
      some (p.id, dockerUpstream p env) := by
  cases origin with
  | api c => cases c <;> exact ⟨if_pos hnone, if_pos hnone⟩
  | reconciler => exact ⟨if_pos hnone, if_pos hnone⟩

theorem listener_reply {rows rows' : List Project} {j : Nat} {origin : Origin} {i : Ask} {r : Except CpError (Reply i)}
    (hserve : Serves rows i r rows') (hdocker : DockerReply i r)
    (hnew : (ControlAct.answer j origin i r).places? base ≠ some (id, upstream))
    (hrows : ∀ p ∈ rows, ¬(p.id = id ∧ p.upstream = some upstream)) : (listener id upstream).rely i r := by
  cases hserve with
  | get hget =>
    exact ⟨Table.key_of_find hget, fun hid hupstream => hrows _ (Table.mem_of_find hget) ⟨hid, hupstream⟩⟩
  | fail e => cases i <;> exact trivial
  | outside hext a =>
    cases i with
    | driverStart p env =>
      refine ⟨hdocker, fun hnone hid hplaced => hnew ?_⟩
      rw [(places?_driver hnone).1, hid, hplaced]
    | driverRestart p env =>
      refine ⟨hdocker, fun hnone hid hplaced => hnew ?_⟩
      rw [(places?_driver hnone).2, hid, hplaced]
    | get => cases hext
    | _ => exact trivial
  | update hupdate a => cases i <;> first | exact trivial | cases hupdate
  | list | create | delete => exact trivial

theorem listener_rows {rows rows' : List Project} {j : Nat} {origin : Origin} {i : Ask} {r : Except CpError (Reply i)}
    (hserve : Serves rows i r rows') (hlaw : placesOwn base origin i)
    (hfree : (listener id upstream).free origin i)
    (hnew : (ControlAct.answer j origin i r).places? base ≠ some (id, upstream))
    (hrows : ∀ p ∈ rows, ¬(p.id = id ∧ p.upstream = some upstream)) :
    ∀ p ∈ rows', ¬(p.id = id ∧ p.upstream = some upstream) := by
  cases hserve with
  | create hfresh =>
    rename_i q
    have hbare : q.upstream = none := by
      cases origin with
      | api c => cases c <;> first | exact hlaw | cases hlaw
      | reconciler => cases hlaw
    rintro p hp ⟨hid, hupstream⟩
    cases List.mem_append.1 hp with
    | inl hold => exact hrows p hold ⟨hid, hupstream⟩
    | inr hadded =>
      rw [List.mem_singleton.1 hadded, hbare] at hupstream
      cases hupstream
  | delete id' => exact fun p hp => hrows p (List.mem_filter.1 hp).1
  | update hupdate a =>
    rename_i id' f
    rintro p hp ⟨hid, hupstream⟩
    cases Table.mem_update_cases hp with
    | inl hmissed => exact hrows p hmissed.1 ⟨hid, hupstream⟩
    | inr hhit =>
      obtain ⟨p₀, h₀, hmatch, rfl⟩ := hhit
      rw [updates?_id hupdate] at hid
      obtain ⟨own, rfl, hown⟩ | hsame := updates?_upstream hupdate
      · rw [hown] at hupstream
        subst hupstream
        have hid' : id' = id := (of_decide_eq_true hmatch).symm.trans hid
        by_cases hcreation : ∃ p, origin = .api (.create p)
        · obtain ⟨p, rfl⟩ := hcreation
          obtain ⟨hown, hport⟩ : id' = p.id ∧ some upstream = some (portOf base p.id) := hlaw
          refine hnew (congrArg some (Prod.ext ?_ ?_))
          · exact hown.symm.trans hid'
          · exact (Option.some.inj hport).symm
        · have hfree : id' = id → upstream ≠ upstream := by
            cases origin with
            | api c => cases c <;> first | exact hfree | exact absurd ⟨_, rfl⟩ hcreation
            | reconciler => exact hfree
          exact hfree hid' rfl
      · rw [hsame] at hupstream
        exact hrows p₀ h₀ ⟨hid, hupstream⟩
  | fail | outside | get | list => exact hrows

theorem ControlState.Obey.asked {rely : (i : Ask) → Except CpError (Reply i) → Prop} {law : Origin → Ask → Prop}
    (h : s.Obey rely law) {j : Nat} {origin : Origin} {i : Ask} {r : Except CpError (Reply i)}
    (hstep : ControlStep base s (.answer j origin i r) t) : law origin i := by
  cases hstep with
  | answer hj hserve => exact (h _ _ hj).1

/-- A project has a claim on an upstream from the step on that places it there. -/
theorem claimed_listener_step (hlaw : s.Obey DockerReply (placesOwn base)) {a : ControlAct}
    (hstep : (dockerFleet base).step s a t) (h : t.Claimed (listener id upstream)) :
    s.Claimed (listener id upstream) ∨ a.places? base = some (id, upstream) := by
  obtain ⟨hstep, hdocker⟩ := hstep
  by_cases hnew : a.places? base = some (id, upstream)
  · exact .inr hnew
  · refine .inl (h.of_step hstep listener_program listener_pass ?_ ?_)
    · rintro j origin i r rows rfl hfree hserve hrows
      exact listener_reply hserve hdocker hnew hrows
    · rintro j origin i r rows rfl hfree hserve hrows
      exact listener_rows hserve (hlaw.asked hstep) hfree hnew hrows

theorem Placed.step (hlaw : s.Obey DockerReply (placesOwn base)) (h : Placed s) {a : ControlAct}
    (hstep : (dockerFleet base).step s a t) (hown : OwnPort base s a) : Placed t := by
  intro id id' upstream hne hid hid'
  obtain hold | hnew := claimed_listener_step hlaw hstep hid
  · obtain hold' | hnew' := claimed_listener_step hlaw hstep hid'
    · exact h id id' upstream hne hold hold'
    · exact hown id' upstream hnew' id hne hold
  · obtain hold' | hnew' := claimed_listener_step hlaw hstep hid'
    · exact hown id upstream hnew id' hne.symm hold'
    · rw [hnew] at hnew'
      cases hnew'
      exact hne rfl

/-- In a run in which no project is placed where another has a claim, no two projects that run have one upstream. -/
theorem distinct_upstreams (base : UInt16) (s₀ s : ControlState) (as : List ControlAct)
    (h₀ : (dockerFleet base).init s₀) (hempty : s₀.rows = [])
    (r : ((dockerFleet base).restrict (OwnPort base)).Run s₀ as s) : s.Distinct := by
  have hnone : ∀ id upstream, ¬s₀.Claimed (listener id upstream) := by
    intro id upstream
    refine not_claimed_iff.2 ⟨fun p hp => ?_, fun j task hj => ?_⟩
    · rw [hempty] at hp
      cases hp
    · rw [h₀ j] at hj
      cases hj
  have hinit : s₀.Obey DockerReply (placesOwn base) := (placesOwn_dockerFleet base).init s₀ h₀
  have hplaced : s.Obey DockerReply (placesOwn base) ∧ Placed s := by
    refine LabelledSystem.Run.preserves (P := fun s => s.Obey DockerReply (placesOwn base) ∧ Placed s)
      (fun s a t h hstep => ?_) r ⟨hinit, fun id _ upstream _ hid => absurd hid (hnone id upstream)⟩
    exact ⟨(placesOwn_dockerFleet base).step s a t h.1 hstep.1, h.2.step h.1 hstep.1 hstep.2⟩
  intro p hp q hq hne _ _ upstream hupstream hupstream'
  exact hplaced.2 p.id q.id upstream hne (claimed_of_row hp ⟨rfl, hupstream⟩) (claimed_of_row hq ⟨rfl, hupstream'⟩)

/-! ### Two projects and their ports -/

theorem onDocker_siteCreated {j : Nat} {r : Except CpError Unit} : ∀ a ∈ siteCreated base j id r, OnDocker a := by
  intro a ha
  simp only [siteCreated, List.mem_cons, List.not_mem_nil, or_false] at ha
  obtain rfl | rfl | rfl | rfl | rfl | rfl | rfl | rfl | rfl | rfl | rfl := ha <;> first | exact trivial | rfl

/-- A creation has a port of its own if its upstream is none of those of the rows. -/
theorem ownPort_siteCreated {j : Nat} {r : Except CpError Unit} {u : ControlState} (hu : Creating s u j id)
    (htasks : ∀ k task, s.tasks k = some task → ∃ p, task.origin = .api (.create p))
    (hrows : ∀ p ∈ s.rows, p.upstream ≠ some (portOf base id)) :
    ∀ a ∈ siteCreated base j id r, OwnPort base u a := by
  intro a ha id' upstream hplaces id'' hne hclaimed
  have hplaced : (id, portOf base id) = (id', upstream) := by
    simp only [siteCreated, List.mem_cons, List.not_mem_nil, or_false] at ha
    obtain rfl | rfl | rfl | rfl | rfl | rfl | rfl | rfl | rfl | rfl | rfl := ha <;>
      first | exact Option.some.inj hplaces | cases hplaces
  cases hplaced
  obtain ⟨p, hp, hrow⟩ := hu.claimed (k := listener id'' (portOf base id)) (fun _ _ => trivial) htasks
    (fun p hp => hp.1.trans_ne hne) hclaimed
  exact hrows p hp hrow.2

theorem distinct_pair : ∃ s as, ((dockerFleet 4000).restrict (OwnPort 4000)).Run ⟨[], fun _ => none⟩ as s ∧
    s.rows.map Project.id = ["shop", "blog"] ∧ s.Distinct := by
  have hidle : ∀ k task, (⟨[], fun _ => none⟩ : ControlState).tasks k = some task →
      ∃ p, task.origin = .api (.create p) := by
    intro k task hk
    cases hk
  obtain ⟨t, hrun, hrows, ht⟩ := run_siteCreated 4000 ⟨[], fun _ => none⟩ 0 "shop"
    (C := fun u a => OnDocker a ∧ OwnPort 4000 u a) rfl List.not_mem_nil (.inl rfl) fun u a ha hu =>
      ⟨onDocker_siteCreated a ha, ownPort_siteCreated hu hidle (fun _ hp => absurd hp List.not_mem_nil) a ha⟩
  have hother : ∀ p ∈ t.rows, p.upstream ≠ some (portOf 4000 "blog") := by
    rw [hrows]
    intro p hp
    rw [List.mem_singleton.1 hp]
    exact by decide
  obtain ⟨u, hrun', hrows', hu⟩ := run_siteCreated 4000 t 1 "blog" (C := fun u a => OnDocker a ∧ OwnPort 4000 u a)
    (ht.others 1 (by decide)) (by rw [hrows]; decide) (.inl rfl) fun u a ha hu =>
      ⟨onDocker_siteCreated a ha, ownPort_siteCreated hu (ht.tasks hidle) hother a ha⟩
  have hids : u.rows.map Project.id = ["shop", "blog"] := by
    rw [hrows', hrows]
    rfl
  exact ⟨u, _, (hrun.append hrun').restrict_and, hids,
    distinct_upstreams 4000 _ u _ (fun _ => rfl) rfl (hrun.append hrun').restrict_and⟩

/-- `ab` and `ba` have one port. -/
theorem port_shared : ¬∀ (base : UInt16) (s₀ s : ControlState) (as : List ControlAct), (dockerFleet base).init s₀ →
    s₀.rows = [] → (dockerFleet base).Run s₀ as s → s.Distinct := by
  intro h
  obtain ⟨t, hrun, hrows, ht⟩ := run_siteCreated 4000 ⟨[], fun _ => none⟩ 0 "ab" (C := fun _ a => OnDocker a) rfl
    List.not_mem_nil (.inl rfl) fun _ a ha _ => onDocker_siteCreated a ha
  obtain ⟨u, hrun', hrows', hu⟩ := run_siteCreated 4000 t 1 "ba" (C := fun _ a => OnDocker a) (ht.others 1 (by decide))
    (by rw [hrows]; decide) (.inl rfl) fun _ a ha _ => onDocker_siteCreated a ha
  rw [hrows] at hrows'
  have hdistinct := h 4000 _ u _ (fun _ => rfl) rfl (hrun.append hrun')
  refine hdistinct { site "ab" with status := .running, upstream := some (portOf 4000 "ab") } ?_
    { site "ba" with status := .running, upstream := some (portOf 4000 "ba") } ?_ (by decide) rfl rfl _ rfl
    (congrArg some (by decide))
  · rw [hrows']
    exact List.mem_cons_self ..
  · rw [hrows']
    exact List.mem_cons_of_mem _ (List.mem_singleton_self _)

end Atomo.ControlPlane

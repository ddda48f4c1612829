import Atomo.ControlPlane.Lifecycle

/-!
# Claims of projects on what they share

The name of a project's database and its port are worked out from its id alone. What a project has, and what a program
under way may yet get or take for it, is a claim: the rows that make it, and what a program must not ask so as to leave
it alone. A claim that no row and no program makes is made only by a step that goes past its law
(`Claimed.of_step`).
-/

namespace Atomo.ControlPlane

structure Claim where
  /-- The rows that make the claim. -/
  row : Project → Prop
  /-- The replies as long as no row makes it. -/
  rely : (i : Ask) → Except CpError (Reply i) → Prop
  /-- What a program may ask that leaves it alone. -/
  free : Origin → Ask → Prop

/-- A row makes the claim, or a program under way that may yet act on it. -/
def ControlState.Claimed (s : ControlState) (k : Claim) : Prop :=
  (∃ p ∈ s.rows, k.row p) ∨
    ∃ j task, s.tasks j = some task ∧ ¬Attempt.Obeys k.rely (k.free task.origin) (fun _ => True) task.program

variable {base : UInt16} {s t : ControlState} {k : Claim}

theorem not_claimed_iff : ¬s.Claimed k ↔ (∀ p ∈ s.rows, ¬k.row p) ∧ s.Obey k.rely k.free := by
  unfold ControlState.Claimed ControlState.Obey
  push Not
  rfl

theorem claimed_of_row {p : Project} (hp : p ∈ s.rows) (hrow : k.row p) : s.Claimed k :=
  .inl ⟨p, hp, hrow⟩

/-- A claim after a step was made before it, unless the step goes past the law of the claim. -/
theorem ControlState.Claimed.of_step (h : t.Claimed k) {a : ControlAct} (hstep : ControlStep base s a t)
    (hcall : ∀ c, Attempt.Obeys k.rely (k.free (.api c)) (fun _ => True) (c.program base))
    (hpass : Attempt.Obeys k.rely (k.free .reconciler) (fun _ => True) ControlPlane.tick)
    (hreply : ∀ j origin i r rows, a = .answer j origin i r → k.free origin i → Serves s.rows i r rows →
      (∀ p ∈ s.rows, ¬k.row p) → k.rely i r)
    (hrows : ∀ j origin i r rows, a = .answer j origin i r → k.free origin i → Serves s.rows i r rows →
      (∀ p ∈ s.rows, ¬k.row p) → ∀ p ∈ rows, ¬k.row p) : s.Claimed k := by
  by_contra hnot
  obtain ⟨hunclaimed, hobey⟩ := not_claimed_iff.1 hnot
  refine not_claimed_iff.2 ⟨?_, ?_⟩ h
  · cases hstep with
    | call c hj => exact hunclaimed
    | tick hj => exact hunclaimed
    | answer hj hserve => exact hrows _ _ _ _ _ rfl (hobey _ _ hj).1 hserve hunclaimed
    | finish hj => exact hunclaimed
  · exact hobey.step hstep (fun _ c _ => hcall c) hpass
      fun j origin i r rows ha hfree hserve => hreply j origin i r rows ha hfree hserve hunclaimed

/-! ## A project that is created -/

/-- `create` once its database is there. -/
def createRest (base : UInt16) (project : Project) : Op Unit := do
  ask (.materializeSchema project)
  register { project with status := .provisioning }
  ask (.recordEvent project.id "create" [("db", databaseName project.id)])
  let project ← assignUpstream base { project with status := .provisioning }
  let env ← ask (.resolveEnv project)
  let handle ← startOrFail project env
  ask (.setUpstream project.id (some handle.upstream))
  ask (.updateStatus project.id .running)
  refreshGateway

/-- `create` goes on alike where the database has been made and where it exists. -/
theorem create_asks (base : UInt16) (project : Project) :
    ∃ k : Except CpError Unit → Resumption Ask (fun i => Except CpError (Reply i)) (Except CpError Unit),
      create base project = ExceptT.mk (.ask (.adminExec (createStatement (databaseName project.id))) k) ∧
      k (.ok ()) = (createRest base project).run ∧
      ∀ text : String, "already exists".toList <:+: text.toList →
        k (.error (.database text)) = (createRest base project).run := by
  refine ⟨_, rfl, rfl, fun text h => ?_⟩
  dsimp only [Resumption.bind, ExceptT.bindCont, ExceptT.mk]
  split
  · rfl
  · rename_i hne
    exact absurd h (@of_decide_eq_false _ _ (eq_false_of_ne_true hne))

/-- A project as it is sent to `create`, without an upstream. -/
def site (id : String) : Project :=
  { shop .provisioning .running with id }

def portOf (base : UInt16) (id : String) : String :=
  "127.0.0.1:" ++ toString (defaultPort base id)

/-- What a creation asks until the project runs. -/
def siteCreated (base : UInt16) (j : Nat) (id : String) (r : Except CpError Unit) : List ControlAct :=
  let origin : Origin := .api (.create (site id))
  let placed : Project := { site id with upstream := some (portOf base id) }
  [.call j (.create (site id)),
    .answer j origin (.adminExec (createStatement (databaseName id))) r,
    .answer j origin (.materializeSchema (site id)) (.ok ()),
    .answer j origin (.get id) (.error (.notFound id)),
    .answer j origin (.create (site id)) (.ok ()),
    .answer j origin (.recordEvent id "create" [("db", databaseName id)]) (.ok ()),
    .answer j origin (.setUpstream id (some (portOf base id))) (.ok ()),
    .answer j origin (.resolveEnv placed) (.ok ([] : List (String × String))),
    .answer j origin (.driverStart placed []) (.ok (Handle.mk (portOf base id))),
    .answer j origin (.setUpstream id (some (portOf base id))) (.ok ()),
    .answer j origin (.updateStatus id .running) (.ok ())]

/-- The programs under way are the former ones and perhaps a creation of the site, which is the only new row. -/
structure Creating (s t : ControlState) (j : Nat) (id : String) : Prop where
  others : ∀ k, k ≠ j → t.tasks k = s.tasks k
  own : ∀ task, t.tasks j = some task → task.origin = .api (.create (site id))
  rows : t.rows = s.rows ∨ ∃ p, p.id = id ∧ t.rows = s.rows ++ [p]

theorem Creating.tasks {j : Nat} {id : String} (h : Creating s t j id)
    (hs : ∀ k task, s.tasks k = some task → ∃ p, task.origin = .api (.create p)) (k : Nat) (task : Task)
    (hk : t.tasks k = some task) : ∃ p, task.origin = .api (.create p) := by
  by_cases hkj : k = j
  · subst hkj
    exact ⟨_, h.own task hk⟩
  · rw [h.others k hkj] at hk
    exact hs k task hk

/-- While only creations are under way, a claim that these leave alone is that of a row. -/
theorem claimed_of_creations (hfree : ∀ p i, k.free (.api (.create p)) i)
    (htasks : ∀ j task, s.tasks j = some task → ∃ p, task.origin = .api (.create p)) (h : s.Claimed k) :
    ∃ p ∈ s.rows, k.row p := by
  obtain hrow | ⟨j, task, hj, hnot⟩ := h
  · exact hrow
  · obtain ⟨p, hp⟩ := htasks j task hj
    rw [hp] at hnot
    exact absurd (Attempt.obeys_of_free (hfree p) _) hnot

/-- Of another project than the one that is created it is that of a former row. -/
theorem Creating.claimed {j : Nat} {id : String} (h : Creating s t j id) (hfree : ∀ p i, k.free (.api (.create p)) i)
    (hs : ∀ k task, s.tasks k = some task → ∃ p, task.origin = .api (.create p)) (hother : ∀ p, k.row p → p.id ≠ id)
    (hclaimed : t.Claimed k) : ∃ p ∈ s.rows, k.row p := by
  obtain ⟨p, hp, hrow⟩ := claimed_of_creations hfree (h.tasks hs) hclaimed
  obtain hsame | ⟨q, hq, happended⟩ := h.rows
  · exact ⟨p, hsame ▸ hp, hrow⟩
  · rw [happended] at hp
    cases List.mem_append.1 hp with
    | inl hold => exact ⟨p, hold, hrow⟩
    | inr hadded => exact absurd (List.mem_singleton.1 hadded ▸ hq) (hother p hrow)

/-- The next answer to the creation. -/
theorem Creating.advance {C : ControlState → ControlAct → Prop} {as : List ControlAct} {u : ControlState} {j : Nat}
    {id : String} {i : Ask}
    {k : Except CpError (Reply i) → Resumption Ask (fun i => Except CpError (Reply i)) (Except CpError Unit)}
    {r : Except CpError (Reply i)} {rows : List Project} (hu : Creating s u j id)
    (hprogram : u.tasks j = some ⟨.api (.create (site id)), ExceptT.mk (.ask i k)⟩) (hserve : Serves u.rows i r rows)
    (hrows : rows = s.rows ∨ ∃ p, p.id = id ∧ rows = s.rows ++ [p])
    (hC : ∀ u, ∀ a ∈ as, Creating s u j id → C u a) (ha : .answer j (.api (.create (site id))) i r ∈ as) :
    ∃ v, ((controlPlane base).restrict C).step u (.answer j (.api (.create (site id))) i r) v ∧
      v.tasks j = some ⟨.api (.create (site id)), ExceptT.mk (k r)⟩ ∧ v.rows = rows ∧ Creating s v j id := by
  have hself : (u.setTask j (some ⟨.api (.create (site id)), ExceptT.mk (k r)⟩)).tasks j =
      some ⟨.api (.create (site id)), ExceptT.mk (k r)⟩ := Function.update_self ..
  refine ⟨_, ⟨.answer hprogram hserve, hC u _ ha hu⟩, hself, rfl, fun k hk => ?_, fun task htask => ?_, hrows⟩
  · exact (Function.update_of_ne hk ..).trans (hu.others k hk)
  · cases hself.symm.trans htask
    rfl

theorem run_siteCreated {C : ControlState → ControlAct → Prop} {r : Except CpError Unit} (base : UInt16)
    (s : ControlState) (j : Nat) (id : String) (hj : s.tasks j = none) (hfresh : id ∉ s.rows.map Project.id)
    (hr : r = .ok () ∨ ∃ text, r = .error (.database text) ∧ "already exists".toList <:+: text.toList)
    (hC : ∀ u, ∀ a ∈ siteCreated base j id r, Creating s u j id → C u a) :
    ∃ t, ((controlPlane base).restrict C).Run s (siteCreated base j id r) t ∧
      t.rows = s.rows ++ [{ site id with status := .running, upstream := some (portOf base id) }] ∧
      Creating s t j id := by
  obtain ⟨k, hprogram, hok, hexists⟩ := create_asks base (site id)
  have hrest : k r = (createRest base (site id)).run := by
    obtain rfl | ⟨text, rfl, htext⟩ := hr
    · exact hok
    · exact hexists text htext
  have h₀ : Creating s s j id := by
    refine ⟨fun _ _ => rfl, fun task htask => ?_, .inl rfl⟩
    rw [hj] at htask
    cases htask
  obtain ⟨u₁, hs₁, hp₁, hr₁, h₁⟩ : ∃ u, ((controlPlane base).restrict C).step s (.call j (.create (site id))) u ∧
      u.tasks j = some ⟨.api (.create (site id)), create base (site id)⟩ ∧ u.rows = s.rows ∧ Creating s u j id := by
    have hself : (s.setTask j (some ⟨.api (.create (site id)), create base (site id)⟩)).tasks j =
        some ⟨.api (.create (site id)), create base (site id)⟩ := Function.update_self ..
    refine ⟨_, ⟨.call _ hj, hC s _ (by simp [siteCreated]) h₀⟩, hself, rfl, fun k hk => ?_, fun task htask => ?_, .inl rfl⟩
    · exact Function.update_of_ne hk ..
    · cases hself.symm.trans htask
      rfl
  have happended : ∀ (f : Project → Project) (p : Project), p.id = id →
      Table.update (fun q : Project => Decidable.decide (q.id = id)) f (s.rows ++ [p]) = s.rows ++ [f p] := by
    intro f p hp
    rw [Table.update_append, Table.update_of_forall_not]
    · exact congrArg (s.rows ++ ·) (congrArg (fun q => [q]) (if_pos (decide_eq_true hp)))
    · exact fun q hq => decide_eq_false fun hid => hfresh (List.mem_map.2 ⟨q, hq, hid⟩)
  have hdatabase : Serves u₁.rows (.adminExec (createStatement (databaseName id))) r u₁.rows := by
    obtain rfl | ⟨text, rfl, -⟩ := hr
    · exact Serves.outside (i := .adminExec _) rfl ()
    · exact .fail _ _
  rw [hprogram] at hp₁
  obtain ⟨u₂, hs₂, hp₂, hr₂, h₂⟩ := h₁.advance (i := .adminExec (createStatement (databaseName id))) hp₁ hdatabase
    (.inl hr₁) hC (by simp [siteCreated])
  rw [hrest] at hp₂
  obtain ⟨u₃, hs₃, hp₃, hr₃, h₃⟩ := h₂.advance (i := .materializeSchema (site id)) hp₂ (.outside rfl ())
    (.inl (hr₂.trans hr₁)) hC (by simp [siteCreated])
  obtain ⟨u₄, hs₄, hp₄, hr₄, h₄⟩ := h₃.advance (i := .get id) hp₃ (.fail _ (.notFound id))
    (.inl (hr₃.trans (hr₂.trans hr₁))) hC (by simp [siteCreated])
  have hrows₄ : u₄.rows = s.rows := hr₄.trans (hr₃.trans (hr₂.trans hr₁))
  obtain ⟨u₅, hs₅, hp₅, hr₅, h₅⟩ := h₄.advance (i := .create (site id)) hp₄ (.create (by rwa [hrows₄]))
    (.inr ⟨site id, rfl, by rw [hrows₄]⟩) hC (by simp [siteCreated])
  rw [hrows₄] at hr₅
  obtain ⟨u₆, hs₆, hp₆, hr₆, h₆⟩ := h₅.advance (i := .recordEvent id "create" [("db", databaseName id)]) hp₅
    (.outside rfl ()) (.inr ⟨site id, rfl, hr₅⟩) hC (by simp [siteCreated])
  have hplaced := @Serves.update u₆.rows (.setUpstream id (some (portOf base id))) _ _ rfl ()
  rw [hr₆.trans hr₅, happended _ _ rfl] at hplaced
  obtain ⟨u₇, hs₇, hp₇, hr₇, h₇⟩ := h₆.advance (i := .setUpstream id (some (portOf base id))) hp₆
    (by rw [hr₆.trans hr₅]; exact hplaced) (.inr ⟨_, rfl, rfl⟩) hC (by simp [siteCreated])
  obtain ⟨u₈, hs₈, hp₈, hr₈, h₈⟩ := h₇.advance (i := .resolveEnv { site id with upstream := some (portOf base id) }) hp₇
    (.outside rfl ([] : List (String × String))) (.inr ⟨_, rfl, hr₇⟩) hC (by simp [siteCreated])
  obtain ⟨u₉, hs₉, hp₉, hr₉, h₉⟩ := h₈.advance
    (i := .driverStart { site id with upstream := some (portOf base id) } []) hp₈
    (.outside rfl (Handle.mk (portOf base id))) (.inr ⟨_, rfl, hr₈.trans hr₇⟩) hC (by simp [siteCreated])
  have hagain := @Serves.update u₉.rows (.setUpstream id (some (portOf base id))) _ _ rfl ()
  rw [hr₉.trans (hr₈.trans hr₇), happended _ _ rfl] at hagain
  obtain ⟨u₁₀, hs₁₀, hp₁₀, hr₁₀, h₁₀⟩ := h₉.advance (i := .setUpstream id (some (portOf base id))) hp₉
    (by rw [hr₉.trans (hr₈.trans hr₇)]; exact hagain) (.inr ⟨_, rfl, rfl⟩) hC (by simp [siteCreated])
  have hrunning := @Serves.update u₁₀.rows (.updateStatus id .running) _ _ rfl ()
  rw [hr₁₀, happended _ _ rfl] at hrunning
  obtain ⟨u₁₁, hs₁₁, hp₁₁, hr₁₁, h₁₁⟩ := h₁₀.advance (i := .updateStatus id .running) hp₁₀
    (by rw [hr₁₀]; exact hrunning) (.inr ⟨_, rfl, rfl⟩) hC (by simp [siteCreated])
  exact ⟨u₁₁, .cons hs₁ <| .cons hs₂ <| .cons hs₃ <| .cons hs₄ <| .cons hs₅ <| .cons hs₆ <| .cons hs₇ <| .cons hs₈ <|
    .cons hs₉ <| .cons hs₁₀ <| .cons hs₁₁ (.nil _), hr₁₁, h₁₁⟩

end Atomo.ControlPlane

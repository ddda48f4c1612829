import Atomo.ControlPlane.Claims
import Atomo.Migrations.Catalog

/-!
# The databases of the projects

`create` makes a database whose name is worked out from the id, taking one that exists for its own, and `delete` drops
the database of that name. Two ids can have one name: a dash is written as an underscore, and the server cuts a name to
63 bytes. The name goes into the statements as it is, so an id with a quote makes other statements of them.
Where no row is made for such an id, the projects keep to their own databases (`siloed`).
-/

namespace Atomo.ControlPlane

open Migrations (Name clip)

/-! ## The server -/

/-- What the server makes of a statement. -/
structure AdminServer where
  /-- The database that is there once the statement has been carried out, or refused because it exists. -/
  creates : String → Option Name
  /-- The databases that it drops, or whose clients it disconnects. -/
  reaches : String → Name → Prop

def isQuote (c : Char) : Bool :=
  c = '\'' || c = '"'

def Quoted (text : String) : Prop :=
  text.toList.any isQuote = true

def HasNul (text : String) : Prop :=
  Char.ofNat 0 ∈ text.toList

/-- A name in quotes is cut; a statement with a NUL cannot be sent. What is in a statement whose name ends the quotes is
the server's to say. -/
structure AdminServer.Documented (server : AdminServer) : Prop where
  create : ∀ db, ¬Quoted db → ¬HasNul db → server.creates (createStatement db) = some (clip db)
  terminate : ∀ db, ¬Quoted db → ∀ name, server.reaches (terminateStatement db) name → name = clip db
  drop : ∀ db, ¬Quoted db → ∀ name, server.reaches (dropStatement db) name → name = clip db
  nul : ∀ stmt, HasNul stmt → server.creates stmt = none ∧ ∀ name, ¬server.reaches stmt name

/-- The database of a project. -/
def AdminServer.dedicated (server : AdminServer) (id : String) : Option Name :=
  server.creates (createStatement (databaseName id))

/-! ## Isolation -/

/-- No two registered projects have one database. -/
def ControlState.Siloed (server : AdminServer) (s : ControlState) : Prop :=
  ∀ p ∈ s.rows, ∀ q ∈ s.rows, p.id ≠ q.id → ∀ name, server.dedicated p.id = some name →
    server.dedicated q.id ≠ some name

/-- A statement of a deletion, carried out or not, leaves alone the databases of the other registered projects. -/
def Spares (server : AdminServer) (s : ControlState) : ControlAct → Prop
  | .answer _ (.api (.delete id _)) (.adminExec stmt) _ =>
    ∀ p ∈ s.rows, p.id ≠ id → ∀ name, server.dedicated p.id = some name → ¬server.reaches stmt name
  | _ => True

/-! ## The condition -/

/-- Two ids whose databases have one name. -/
def SameDatabase (id id' : String) : Prop :=
  ¬HasNul id ∧ ¬HasNul id' ∧ clip (databaseName id) = clip (databaseName id')

/-- The claim on the database of `id`: a row has it, or a deletion has found one and may yet drop the database. -/
def silo (id : String) : Claim where
  row p := p.id = id
  rely
    | .get id', .ok _ => id' ≠ id
    | _, _ => True
  free
    | .api (.delete id' _), .adminExec _ => id' ≠ id
    | _, _ => True

/-- A row is made only for an id without quotes whose database has a name of its own. -/
def OwnDatabase (s : ControlState) : ControlAct → Prop
  | .answer _ _ (.create p) (.ok _) =>
    ¬Quoted p.id ∧ ∀ id, id ≠ p.id → s.Claimed (silo id) → ¬SameDatabase p.id id
  | _ => True

structure Apart (s : ControlState) : Prop where
  plain : ∀ id, s.Claimed (silo id) → ¬Quoted id
  own : ∀ id id', id ≠ id' → s.Claimed (silo id) → s.Claimed (silo id') → ¬SameDatabase id id'

/-! ## Names -/

variable {server : AdminServer} {base : UInt16} {s t : ControlState} {id id' : String}

theorem mem_databaseName {c : Char} (hdash : c ≠ '-') (hline : c ∉ "atomo_".toList) :
    c ∈ (databaseName id).toList ↔ c ∈ id.toList := by
  unfold databaseName
  rw [String.toList_append, List.mem_append, String.toList_map, List.mem_map]
  constructor
  · rintro (hstart | ⟨d, hd, heq⟩)
    · exact absurd hstart hline
    · split at heq
      · subst heq
        exact absurd (by decide) hline
      · exact heq ▸ hd
  · exact fun hc => .inr ⟨c, hc, if_neg hdash⟩

theorem quoted_databaseName : Quoted (databaseName id) ↔ Quoted id := by
  have hquote : ∀ c, isQuote c = true → c ≠ '-' ∧ c ∉ "atomo_".toList := by
    intro c hc
    rw [isQuote, Bool.or_eq_true, decide_eq_true_eq, decide_eq_true_eq] at hc
    obtain rfl | rfl := hc <;> decide
  unfold Quoted
  rw [List.any_eq_true, List.any_eq_true]
  constructor
  · rintro ⟨c, hc, hquoted⟩
    exact ⟨c, (mem_databaseName (hquote c hquoted).1 (hquote c hquoted).2).1 hc, hquoted⟩
  · rintro ⟨c, hc, hquoted⟩
    exact ⟨c, (mem_databaseName (hquote c hquoted).1 (hquote c hquoted).2).2 hc, hquoted⟩

theorem hasNul_databaseName : HasNul (databaseName id) ↔ HasNul id :=
  mem_databaseName (by decide) (by decide)

theorem hasNul_statement {before after : String} (h : HasNul id) : HasNul (before ++ databaseName id ++ after) := by
  unfold HasNul
  rw [String.toList_append, String.toList_append]
  exact List.mem_append_left _ (List.mem_append_right _ (hasNul_databaseName.2 h))

/-- The database of a project whose id has no quotes. -/
theorem AdminServer.Documented.dedicated (hserver : server.Documented) (hplain : ¬Quoted id) {name : Name}
    (h : server.dedicated id = some name) : ¬HasNul id ∧ name = clip (databaseName id) := by
  unfold AdminServer.dedicated at h
  by_cases hnul : HasNul id
  · have hstmt : HasNul (createStatement (databaseName id)) := hasNul_statement hnul
    rw [(hserver.nul _ hstmt).1] at h
    cases h
  · rw [hserver.create _ (mt quoted_databaseName.1 hplain) (mt hasNul_databaseName.1 hnul)] at h
    cases h
    exact ⟨hnul, rfl⟩

/-- What the statements of a deletion reach. -/
theorem AdminServer.Documented.reaches (hserver : server.Documented) (hplain : ¬Quoted id) {stmt : String}
    (hstmt : stmt = terminateStatement (databaseName id) ∨ stmt = dropStatement (databaseName id)) {name : Name}
    (h : server.reaches stmt name) : ¬HasNul id ∧ name = clip (databaseName id) := by
  have hquoted := mt quoted_databaseName.1 hplain
  obtain rfl | rfl := hstmt
  · exact ⟨fun hnul => (hserver.nul _ (hasNul_statement hnul)).2 name h, hserver.terminate _ hquoted name h⟩
  · exact ⟨fun hnul => (hserver.nul _ (hasNul_statement hnul)).2 name h, hserver.drop _ hquoted name h⟩

/-! ## Claims come with rows -/

theorem silo_program (c : ApiCall) :
    Attempt.Obeys (silo id).rely ((silo id).free (.api c)) (fun _ => True) (c.program base) := by
  cases c with
  | delete id' dropDb =>
    by_cases hid : id' = id
    · subst hid
      refine obeys_delete (fun i hi => ?_) (fun _ _ => trivial) (fun _ hget => absurd rfl hget)
        fun _ _ => trivial
      cases i <;> first | exact trivial | cases hi
    · refine Attempt.obeys_of_free (fun i => ?_) _
      cases i <;> first | exact trivial | exact hid
  | create | start | stop | schemaUpdate => exact Attempt.obeys_of_free (fun _ => trivial) _

/-- A database is claimed by the row that is made. -/
theorem claimed_silo_step (h : t.Claimed (silo id)) {a : ControlAct} (hstep : ControlStep base s a t) :
    s.Claimed (silo id) ∨ ∃ j origin p, a = .answer j origin (.create p) (.ok ()) ∧ p.id = id := by
  by_cases hnew : ∃ j origin p, a = .answer j origin (.create p) (.ok ()) ∧ p.id = id
  · exact .inr hnew
  · refine .inl (h.of_step hstep silo_program (Attempt.obeys_of_free (fun _ => trivial) _) ?_ ?_)
    · intro j origin i r rows ha hfree hserve hrows
      cases hserve with
      | get hget =>
        rintro rfl
        exact hrows _ (Table.mem_of_find hget) (Table.key_of_find hget)
      | fail e => cases i <;> exact trivial
      | outside hext a => cases i <;> first | exact trivial | cases hext
      | update hupdate a => cases i <;> first | exact trivial | cases hupdate
      | list | create | delete => exact trivial
    · intro j origin i r rows ha hfree hserve hrows
      cases hserve with
      | create hfresh =>
        intro p hp hid
        cases List.mem_append.1 hp with
        | inl hold => exact hrows p hold hid
        | inr hadded =>
          rw [List.mem_singleton.1 hadded] at hid
          exact hnew ⟨j, origin, _, ha, hid⟩
      | delete id' => exact fun p hp => hrows p (List.mem_filter.1 hp).1
      | update hupdate a =>
        intro p hp hid
        cases Table.mem_update_cases hp with
        | inl hmissed => exact hrows p hmissed.1 hid
        | inr hhit =>
          obtain ⟨p₀, h₀, -, rfl⟩ := hhit
          exact hrows p₀ h₀ ((updates?_id hupdate p₀).symm.trans hid)
      | fail | outside | get | list => exact hrows

theorem Apart.step (h : Apart s) {a : ControlAct} (hstep : ControlStep base s a t) (hown : OwnDatabase s a) :
    Apart t := by
  refine ⟨fun id hid => ?_, fun id id' hne hid hid' => ?_⟩
  · obtain hold | ⟨j, origin, p, rfl, rfl⟩ := claimed_silo_step hid hstep
    · exact h.plain id hold
    · exact hown.1
  · obtain hold | ⟨j, origin, p, rfl, rfl⟩ := claimed_silo_step hid hstep
    · obtain hold' | ⟨j, origin, p, rfl, rfl⟩ := claimed_silo_step hid' hstep
      · exact h.own id id' hne hold hold'
      · exact fun hsame => hown.2 id hne hold ⟨hsame.2.1, hsame.1, hsame.2.2.symm⟩
    · obtain hold' | ⟨j', origin', p', ha, rfl⟩ := claimed_silo_step hid' hstep
      · exact hown.2 id' hne.symm hold'
      · cases ha
        exact absurd rfl hne

/-! ## Deletions -/

/-- The statements of a deletion are about the database of its own project. -/
def dropsOwn : Origin → Ask → Prop
  | .api (.delete id _), .adminExec stmt =>
    stmt = terminateStatement (databaseName id) ∨ stmt = dropStatement (databaseName id)
  | _, _ => True

theorem dropsOwn_program (c : ApiCall) :
    Attempt.Obeys (fun _ _ => True) (dropsOwn (.api c)) (fun _ => True) (c.program base) := by
  cases c with
  | delete id dropDb =>
    refine obeys_delete (fun i hi => ?_) (fun _ _ => trivial) (fun _ _ => ⟨.inl rfl, .inr rfl⟩) fun _ _ => trivial
    cases i <;> first | exact trivial | cases hi
  | create | start | stop | schemaUpdate => exact Attempt.obeys_of_free (fun _ => trivial) _

theorem dropsOwn_controlPlane (base : UInt16) :
    (controlPlane base).Inductive fun s => s.Obey (fun _ _ => True) dropsOwn := by
  refine ⟨fun s hs j task hj => ?_, fun s a t h hstep => ?_⟩
  · rw [hs j] at hj
    cases hj
  · exact h.step hstep (fun _ c _ => dropsOwn_program c) (Attempt.obeys_of_free (fun _ => trivial) _)
      fun _ _ _ _ _ _ _ _ => trivial

/-- In a run in which rows are made only for ids without quotes, each with a database of its own name, no two
registered projects have one database and no deletion reaches that of another registered project. -/
theorem siloed (server : AdminServer) (hserver : server.Documented) (base : UInt16) (s₀ s : ControlState)
    (as : List ControlAct) (h₀ : (controlPlane base).init s₀) (hempty : s₀.rows = [])
    (r : ((controlPlane base).restrict OwnDatabase).Run s₀ as s) :
    s.Siloed server ∧ ∀ a t, ControlStep base s a t → Spares server s a := by
  have hnone : ∀ id, ¬s₀.Claimed (silo id) := by
    intro id
    refine not_claimed_iff.2 ⟨fun p hp => ?_, fun j task hj => ?_⟩
    · rw [hempty] at hp
      cases hp
    · rw [h₀ j] at hj
      cases hj
  have hapart : Apart s := by
    refine LabelledSystem.Run.preserves (fun s a t h hstep => ?_) r
      ⟨fun id hid => absurd hid (hnone id), fun id _ _ hid => absurd hid (hnone id)⟩
    exact Apart.step h hstep.1 hstep.2
  have hdrops := (dropsOwn_controlPlane base).reachable ⟨s₀, as, h₀, r.of_restrict⟩
  refine ⟨fun p hp q hq hne name hname hname' => ?_, fun a t hstep => ?_⟩
  · have hp := claimed_of_row (k := silo p.id) hp rfl
    have hq := claimed_of_row (k := silo q.id) hq rfl
    have hown := hserver.dedicated (hapart.plain _ hp) hname
    have hown' := hserver.dedicated (hapart.plain _ hq) hname'
    exact hapart.own _ _ hne hp hq ⟨hown.1, hown'.1, hown.2 ▸ hown'.2⟩
  · cases hstep with
    | call | tick | finish => exact trivial
    | @answer j origin i k r rows hj hserve =>
      unfold Spares
      split
      · rename_i _ id _ stmt _ heq
        cases heq
        intro p hp hne name hname hreached
        have hid : s.Claimed (silo id) := by
          refine .inr ⟨j, _, hj, fun hobeys => ?_⟩
          exact hobeys.1 rfl
        have hp := claimed_of_row (k := silo p.id) hp rfl
        have hown := hserver.dedicated (hapart.plain _ hp) hname
        have hown' := hserver.reaches (hapart.plain _ hid) (hdrops _ _ hj).1 hreached
        exact hapart.own _ _ hne hp hid ⟨hown.1, hown'.1, hown.2 ▸ hown'.2⟩
      · exact trivial

/-! ### Two projects of their own -/

/-- What stands between two texts. -/
def between (before after stmt : String) : String :=
  .ofList ((stmt.toList.drop before.toList.length).take
    (stmt.toList.length - before.toList.length - after.toList.length))

theorem between_append (before db after : String) : between before after (before ++ db ++ after) = db := by
  unfold between
  rw [String.toList_append, String.toList_append, List.append_assoc, List.drop_left, List.length_append,
    List.length_append, Nat.add_sub_cancel_left, Nat.add_sub_cancel, List.take_left, String.ofList_toList]

instance (text : String) : Decidable (Quoted text) :=
  inferInstanceAs (Decidable (text.toList.any isQuote = true))

instance (text : String) : Decidable (HasNul text) :=
  inferInstanceAs (Decidable (Char.ofNat 0 ∈ text.toList))

/-- The name that a statement creates, if it has no quotes. -/
def createdName (stmt : String) : Option Name :=
  if stmt = createStatement (between "CREATE DATABASE \"" "\"" stmt) ∧
      ¬Quoted (between "CREATE DATABASE \"" "\"" stmt) ∧ ¬HasNul stmt then
    some (clip (between "CREATE DATABASE \"" "\"" stmt))
  else none

/-- A server that takes no statements with other quotes. -/
def strictServer : AdminServer where
  creates := createdName
  reaches stmt name :=
    ¬HasNul stmt ∧ ∃ db, name = clip db ∧ (stmt = terminateStatement db ∨ stmt = dropStatement db)

theorem append_append_cancel {before after db db' : String} (h : before ++ db ++ after = before ++ db' ++ after) :
    db = db' := by
  rw [← between_append before db after, h, between_append]

theorem terminateStatement_ne_dropStatement (db db' : String) : terminateStatement db ≠ dropStatement db' := by
  intro h
  have hhead := congrArg (fun stmt => stmt.toList.head?) h
  unfold terminateStatement dropStatement at hhead
  simp only [String.toList_append] at hhead
  exact absurd hhead (by simp)

theorem documented_strictServer : strictServer.Documented where
  create db hplain hnul := by
    have hbetween : between "CREATE DATABASE \"" "\"" (createStatement db) = db := between_append _ _ _
    have hnul' : ¬HasNul (createStatement db) := by
      intro h
      unfold HasNul createStatement at h
      rw [String.toList_append, String.toList_append, List.mem_append, List.mem_append] at h
      obtain (h | h) | h := h
      · exact absurd h (by decide)
      · exact hnul h
      · exact absurd h (by decide)
    change createdName _ = _
    unfold createdName
    rw [hbetween, if_pos ⟨rfl, hplain, hnul'⟩]
  terminate db hplain name h := by
    obtain ⟨-, db', rfl, h | h⟩ := h
    · rw [append_append_cancel h]
    · exact absurd h (terminateStatement_ne_dropStatement _ _)
  drop db hplain name h := by
    obtain ⟨-, db', rfl, h | h⟩ := h
    · exact absurd h.symm (terminateStatement_ne_dropStatement _ _)
    · rw [append_append_cancel h]
  nul stmt h := by
    refine ⟨if_neg fun hstmt => hstmt.2.2 h, fun name hreaches => hreaches.1 h⟩

/-- A creation has a database of its own if its name is none of those of the rows. -/
theorem ownDatabase_siteCreated {j : Nat} {r : Except CpError Unit} (hplain : ¬Quoted id)
    (htasks : ∀ k task, s.tasks k = some task → ∃ p, task.origin = .api (.create p))
    (hrows : ∀ p ∈ s.rows, ¬SameDatabase id p.id) :
    ∀ u, ∀ a ∈ siteCreated base j id r, Creating s u j id → OwnDatabase u a := by
  intro u a ha hu
  simp only [siteCreated, List.mem_cons, List.not_mem_nil, or_false] at ha
  obtain rfl | rfl | rfl | rfl | rfl | rfl | rfl | rfl | rfl | rfl | rfl := ha
  case inr.inr.inr.inr.inl =>
    refine ⟨hplain, fun id' hne hclaimed => ?_⟩
    obtain ⟨p, hp, rfl⟩ := hu.claimed (k := silo id') (fun _ _ => trivial) htasks (fun p hp => hp.trans_ne hne) hclaimed
    exact hrows p hp
  all_goals exact trivial

theorem siloed_pair : ∃ s as, ((controlPlane 4000).restrict OwnDatabase).Run ⟨[], fun _ => none⟩ as s ∧
    s.rows.map Project.id = ["shop", "blog"] ∧
    s.Siloed strictServer ∧ ∀ a t, ControlStep 4000 s a t → Spares strictServer s a := by
  have hidle : ∀ k task, (⟨[], fun _ => none⟩ : ControlState).tasks k = some task →
      ∃ p, task.origin = .api (.create p) := by
    intro k task hk
    cases hk
  obtain ⟨t, hrun, hrows, ht⟩ := run_siteCreated 4000 ⟨[], fun _ => none⟩ 0 "shop" rfl List.not_mem_nil (.inl rfl)
    (ownDatabase_siteCreated (by decide) hidle fun _ hp => absurd hp List.not_mem_nil)
  have hother : ∀ p ∈ t.rows, ¬SameDatabase "blog" p.id := by
    rw [hrows]
    intro p hp hsame
    rw [List.mem_singleton.1 hp] at hsame
    exact absurd hsame.2.2 (by decide +kernel)
  obtain ⟨u, hrun', hrows', hu⟩ := run_siteCreated 4000 t 1 "blog" (ht.others 1 (by decide)) (by rw [hrows]; decide)
    (.inl rfl) (ownDatabase_siteCreated (by decide) (ht.tasks hidle) hother)
  have hids : u.rows.map Project.id = ["shop", "blog"] := by
    rw [hrows', hrows]
    rfl
  exact ⟨u, _, hrun.append hrun', hids, siloed strictServer documented_strictServer 4000 _ u _ (fun _ => rfl) rfl
    (hrun.append hrun')⟩

/-! ### Two projects with one database -/

/-- `a-b` and `a_b` have one database, and deleting one of them drops it. -/
theorem database_shared : ¬∀ server : AdminServer, server.Documented → ∀ (base : UInt16) (s₀ s : ControlState)
    (as : List ControlAct), (controlPlane base).init s₀ → s₀.rows = [] → (controlPlane base).Run s₀ as s →
    s.Siloed server ∧ ∀ a t, ControlStep base s a t → Spares server s a := by
  intro h
  obtain ⟨t, hrun, hrows, ht⟩ := run_siteCreated 4000 ⟨[], fun _ => none⟩ 0 "a-b" (C := fun _ _ => True) rfl
    List.not_mem_nil (.inl rfl) fun _ _ _ _ => trivial
  obtain ⟨u, hrun', hrows', hu⟩ := run_siteCreated 4000 t 1 "a_b" (C := fun _ _ => True) (ht.others 1 (by decide))
    (by rw [hrows]; decide) (.inr ⟨"database \"atomo_a_b\" already exists", rfl, by decide⟩) fun _ _ _ _ => trivial
  have hidle : u.tasks 2 = none := (hu.others 2 (by decide)).trans (ht.others 2 (by decide))
  rw [hrows] at hrows'
  have hfound : Table.find Project.id "a-b" u.rows =
      some { site "a-b" with status := .running, upstream := some (portOf 4000 "a-b") } := by
    rw [hrows']
    rfl
  have hspares := (h strictServer documented_strictServer 4000 ⟨[], fun _ => none⟩ _ _ (fun _ => rfl) rfl
    ((hrun.append hrun').of_restrict.append <|
      .cons (.call (j := 2) (.delete "a-b" true) hidle) <|
      .cons (.answer (j := 2) rfl (.get hfound)) <|
      .cons (.answer (j := 2) rfl (.outside rfl ())) <|
      .cons (.answer (j := 2) rfl (.outside rfl ())) (.nil _))).2 _ _
    (.answer (j := 2) rfl (.outside (i := .adminExec (dropStatement (databaseName "a-b"))) rfl ()))
  have hmem : { site "a_b" with status := .running, upstream := some (portOf 4000 "a_b") } ∈ u.rows := by
    rw [hrows']
    exact List.mem_cons_of_mem _ (List.mem_singleton_self _)
  have hname : strictServer.dedicated "a_b" = some (clip (databaseName "a_b")) :=
    documented_strictServer.create _ (mt quoted_databaseName.1 (by decide)) (mt hasNul_databaseName.1 (by decide))
  have hsame : databaseName "a-b" = databaseName "a_b" := by decide +kernel
  exact hspares _ hmem (by decide) _ hname ⟨by decide +kernel, _, rfl, .inr (congrArg dropStatement hsame)⟩

end Atomo.ControlPlane

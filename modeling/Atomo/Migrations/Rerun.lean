import Atomo.Migrations.Catalog

/-!
# The migrations of the next boot

Every statement looks first whether there is anything to do. What the first run of the statements made,
the second must find: an identifier is found under the name that it was cut to, a literal only if the
server cuts it too or it is short enough. So the second run does nothing exactly when no name that a guard
compares as a literal is longer than the server keeps (`rerun_iff`).
-/

namespace Atomo.Migrations

variable {δ : Type} {server : Server δ} {db db' : Database δ} {st : Ddl}

/-- The names that the guard of a statement compares as literals. -/
def Ddl.compared : Ddl → List String
  | .requireColumn table column => [table, column.name]
  | .addConstraint name _ _ => [name]
  | .createTable _ _ | .addColumn _ _ | .createIndex _ _ _ _ _ => []

def comparedNames (cc : CharCase) (schema : Schema) : List String :=
  (generateMigrations cc schema).flatMap Ddl.compared

/-- A literal of the name is found where the name is stored. -/
def Server.Recognises (server : Server δ) (name : String) : Prop :=
  server.cutsLiterals = true ∨ name.utf8ByteSize ≤ nameBytes

theorem Server.Recognises.literal {name : String} (h : server.Recognises name) :
    server.literal name = (clip name).text := by
  unfold Server.literal
  split
  · rfl
  · rename_i hcuts
    exact (clip_text (h.resolve_left hcuts)).symm

theorem Server.Recognises.finds {name : String} {names : List Name} (h : server.Recognises name)
    (hmem : clip name ∈ names) : server.finds name names = true := by
  unfold Server.finds
  rw [List.any_eq_true]
  exact ⟨clip name, hmem, by rw [h.literal]; exact decide_eq_true rfl⟩

/-- No stored name is that of a literal which is too long. -/
theorem literal_ne {name : String} (h : ¬server.Recognises name) (stored : Name) :
    stored.text ≠ server.literal name := by
  obtain ⟨hcuts, hlong⟩ := not_or.1 h
  unfold Server.literal
  rw [if_neg hcuts]
  intro heq
  apply hlong
  rw [← heq]
  exact stored.short

theorem finds_eq_false {name : String} (h : ¬server.Recognises name) (names : List Name) :
    server.finds name names = false := by
  unfold Server.finds
  rw [List.any_eq_false]
  intro stored _
  simpa using literal_ne h stored

/-! ## What is found stays -/

/-- The catalog has lost nothing. -/
structure Grows (db db' : Database δ) : Prop where
  tables : Widens db.tables db'.tables
  relations : db.names.relations ⊆ db'.names.relations
  constraintNames : db.names.constraints ⊆ db'.names.constraints
  constraints : db.constraints ⊆ db'.constraints

theorem Grows.refl (db : Database δ) : Grows db db where
  tables := .refl _
  relations := fun _ h => h
  constraintNames := fun _ h => h
  constraints := fun _ h => h

theorem Grows.trans {db'' : Database δ} (h : Grows db db') (k : Grows db' db'') : Grows db db'' where
  tables := h.tables.trans k.tables
  relations := fun _ hn => k.relations (h.relations hn)
  constraintNames := fun _ hn => k.constraintNames (h.constraintNames hn)
  constraints := fun _ hc => k.constraints (h.constraints hc)

theorem subset_namesAfter (server : Server δ) (names : Names) (st : Ddl) :
    names.relations ⊆ (server.namesAfter names st).relations ∧
      names.constraints ⊆ (server.namesAfter names st).constraints := by
  have hsame : names.relations ⊆ names.relations ∧ names.constraints ⊆ names.constraints :=
    ⟨fun _ h => h, fun _ h => h⟩
  cases st with
  | createTable table columns =>
    simp only [Server.namesAfter]
    split
    · exact hsame
    · exact ⟨List.subset_append_left _ _, List.subset_append_left _ _⟩
  | createIndex unique name table columns predicate =>
    simp only [Server.namesAfter]
    split
    · exact hsame
    · exact ⟨List.subset_append_left _ _, hsame.2⟩
  | addConstraint name table body =>
    simp only [Server.namesAfter]
    split
    · exact hsame
    · exact ⟨hsame.1, List.subset_append_left _ _⟩
  | addColumn table column => exact hsame
  | requireColumn table column => exact hsame

theorem Server.Does.grows (h : server.Does db st db') : Grows db db' where
  tables := h.widens
  relations := by
    rw [h.names]
    exact (subset_namesAfter server db.names st).1
  constraintNames := by
    rw [h.names]
    exact (subset_namesAfter server db.names st).2
  constraints := by
    rw [h.constraints]
    exact List.subset_append_left _ _

theorem finds_mono {name : String} {names more : List Name} (h : names ⊆ more)
    (hfinds : server.finds name names = true) : server.finds name more = true := by
  obtain ⟨n, hn, htext⟩ := List.any_eq_true.1 hfinds
  exact List.any_eq_true.2 ⟨n, h hn, htext⟩

theorem Server.Settled.grows (hsettled : server.Settled db st) (h : Grows db db') : server.Settled db' st := by
  cases st with
  | createTable table columns => exact h.relations hsettled
  | addColumn table column =>
    obtain ⟨columns, hcolumns, hmem⟩ := hsettled
    obtain ⟨more, hmore, hsub⟩ := h.tables _ _ hcolumns
    exact ⟨more, hmore, hsub hmem⟩
  | requireColumn table column =>
    obtain ⟨columns, hcolumns, hfinds⟩ := (Option.any_eq_true _ _).1 hsettled
    obtain ⟨more, hmore, hsub⟩ := h.tables _ _ hcolumns
    exact (Option.any_eq_true _ _).2 ⟨more, hmore, finds_mono hsub hfinds⟩
  | createIndex unique name table columns predicate =>
    obtain ⟨⟨held, hheld, hcolumns⟩, hname⟩ := hsettled
    obtain ⟨more, hmore, hsub⟩ := h.tables _ _ hheld
    exact ⟨⟨more, hmore, fun c hc => hsub (hcolumns c hc)⟩, h.relations hname⟩
  | addConstraint name table body => exact finds_mono h.constraintNames hsettled

/-! ## One statement -/

/-- A statement whose names are recognised has nothing more to do. -/
theorem settled_of_does (h : server.Does db st db') (hnames : ∀ name ∈ st.compared, server.Recognises name) :
    server.Settled db' st := by
  cases h with
  | nothing hsettled => exact hsettled
  | table hfresh =>
    simp only [Server.Settled, Server.after, Server.namesAfter, if_neg hfresh]
    exact List.mem_append_right _ List.mem_cons_self
  | @column st table column columns data hst hcolumns hfresh =>
    have hafter := columnsOf_withColumn_self (clip column.name) data hcolumns
    have hmem : clip column.name ∈ columns ++ [clip column.name] := List.mem_append_right _ (List.mem_singleton.2 rfl)
    rcases hst with rfl | rfl
    · exact ⟨_, hafter, hmem⟩
    · have htable : server.Recognises table := hnames _ List.mem_cons_self
      have hcolumn : server.Recognises column.name := hnames _ (List.mem_cons_of_mem _ List.mem_cons_self)
      refine (Option.any_eq_true _ _).2 ⟨_, ?_, hcolumn.finds hmem⟩
      rw [htable.literal]
      exact hafter
  | index hcolumns hheld hfresh =>
    refine ⟨⟨_, hcolumns, hheld⟩, ?_⟩
    simp only [Server.after, Server.namesAfter, if_neg hfresh]
    exact List.mem_append_right _ (List.mem_singleton.2 rfl)
  | @constraint name table body htable hfresh =>
    have hname : server.Recognises name := hnames _ List.mem_cons_self
    apply hname.finds
    simp only [Server.after, Server.namesAfter, hfresh]
    exact List.mem_append_right _ (List.mem_singleton.2 rfl)

/-- A literal that is too long is never found. -/
theorem guard_eq_false {table : String} {column : ColumnDef} {tables : List TableInfo}
    (h : ¬server.Recognises table ∨ ¬server.Recognises column.name) :
    (columnsOf tables (server.literal table)).any (server.finds column.name) = false := by
  rcases h with htable | hcolumn
  · have hnone : tables.find? (·.name.text = server.literal table) = none := by
      rw [List.find?_eq_none]
      intro t _
      simpa using literal_ne htable t.name
    unfold columnsOf
    rw [hnone]
    rfl
  · cases columnsOf tables (server.literal table) with
    | none => rfl
    | some columns => exact finds_eq_false hcolumn columns

/-- A statement with a name that is not recognised fails when it comes again, however the catalog has
grown. -/
theorem exec_eq_none (h : server.Does db st db') {name : String} (hname : name ∈ st.compared)
    (hlong : ¬server.Recognises name) {later : Database δ} (hlater : Grows db' later) :
    server.exec later st = none := by
  cases h with
  | nothing hsettled =>
    cases st with
    | createTable table columns => cases hname
    | addColumn table column => cases hname
    | createIndex unique name table columns predicate => cases hname
    | requireColumn table column =>
      have hguard : ¬server.Recognises table ∨ ¬server.Recognises column.name := by
        rcases List.mem_pair.1 hname with rfl | rfl
        · exact .inl hlong
        · exact .inr hlong
      have hfound : (columnsOf db.tables (server.literal table)).any (server.finds column.name) = true := hsettled
      rw [guard_eq_false hguard] at hfound
      cases hfound
    | addConstraint name table body =>
      cases List.mem_singleton.1 hname
      have hfound : server.finds _ db.names.constraints = true := hsettled
      rw [finds_eq_false hlong] at hfound
      cases hfound
  | table hfresh => cases hname
  | index hcolumns hheld hfresh => cases hname
  | @column st table column columns data hst hcolumns hfresh =>
    rcases hst with rfl | rfl
    · cases hname
    · have hguard : ¬server.Recognises table ∨ ¬server.Recognises column.name := by
        rcases List.mem_pair.1 hname with rfl | rfl
        · exact .inl hlong
        · exact .inr hlong
      obtain ⟨more, hmore, hsub⟩ := hlater.tables _ _ (columnsOf_withColumn_self _ _ hcolumns)
      have hmem : clip column.name ∈ more :=
        hsub (List.mem_append_right _ (List.mem_singleton.2 rfl))
      unfold Server.exec
      split
      · rfl
      · simp only [guard_eq_false hguard, hmore, hmem, or_true, if_true]
        rfl
  | @constraint name' table body htable hfresh =>
    cases List.mem_singleton.1 hname
    have hmade : (⟨clip name, clip table, body.requirement⟩ : ConstraintInfo) ∈ later.constraints := by
      apply hlater.constraints
      simp only [Server.after, Server.madeConstraints, hfresh]
      exact List.mem_append_right _ (List.mem_singleton.2 rfl)
    have hhas : later.hasConstraint (clip table) (clip name) = true := by
      unfold Database.hasConstraint
      rw [List.any_eq_true]
      exact ⟨_, hmade, by simp⟩
    unfold Server.exec
    split
    · rfl
    · simp only [finds_eq_false hlong, hhas, or_true, if_true]
      rfl

/-! ## All of them -/

section Run

variable {statements : List Ddl}

theorem run_cons_iff :
    server.run db (st :: statements) = some db' ↔
      ∃ mid, server.exec db st = some mid ∧ server.run mid statements = some db' := by
  unfold Server.run
  rw [List.foldlM_cons]
  exact Option.bind_eq_some_iff

theorem run_grows (h : server.run db statements = some db') : Grows db db' := by
  induction statements generalizing db with
  | nil =>
    cases h
    exact .refl _
  | cons st statements ih =>
    obtain ⟨mid, hexec, hrest⟩ := run_cons_iff.1 h
    exact (exec_does hexec).grows.trans (ih hrest)

/-- Each statement of a run was executed somewhere on the way. -/
theorem run_mem (h : server.run db statements = some db') (hst : st ∈ statements) :
    ∃ before after, server.exec before st = some after ∧ Grows db before ∧ Grows after db' := by
  induction statements generalizing db with
  | nil => cases hst
  | cons first statements ih =>
    obtain ⟨mid, hexec, hrest⟩ := run_cons_iff.1 h
    cases List.mem_cons.1 hst with
    | inl heq =>
      rw [← heq] at hexec
      exact ⟨db, mid, hexec, .refl db, run_grows hrest⟩
    | inr htail =>
      obtain ⟨before, after, hbefore, hfrom, hto⟩ := ih hrest htail
      exact ⟨before, after, hbefore, (exec_does hexec).grows.trans hfrom, hto⟩

/-- Statements that find everything do nothing. -/
theorem run_of_settled (hsound : ∀ st ∈ statements, server.sound db.tables st = true)
    (h : ∀ st ∈ statements, server.Settled db st) : server.run db statements = some db := by
  induction statements with
  | nil => rfl
  | cons st statements ih =>
    refine run_cons_iff.2 ⟨db, exec_of_settled (hsound st List.mem_cons_self) (h st List.mem_cons_self), ?_⟩
    exact ih (fun st hst => hsound st (List.mem_cons_of_mem _ hst)) fun st hst => h st (List.mem_cons_of_mem _ hst)

end Run

/-- Two lists of the same statements: a map of the schema is read in another order at every boot. -/
structure Reordered (first again : List Ddl) : Prop where
  all : ∀ st ∈ again, ∃ st' ∈ first, st'.Same st
  only : ∀ st ∈ first, ∃ st' ∈ again, st.Same st'

theorem Ddl.Same.settled {st st' : Ddl} (h : st.Same st') (hsettled : server.Settled db st) :
    server.Settled db st' := by
  cases h with
  | refl => exact hsettled
  | createTable hperm => exact hsettled

/-- A statement that compares a name is the same only as itself. -/
theorem Ddl.Same.eq {st st' : Ddl} (h : st.Same st') {name : String} (hname : name ∈ st.compared) : st' = st := by
  cases h with
  | refl => rfl
  | createTable hperm => cases hname

/-- Notes without an empty title, in a table of this name. -/
def notes (table : String) : Schema where
  models := [("Note", { name := "Note", tableName := some table, constraints := [.check "title <> ''"] })]

theorem Reordered.refl (statements : List Ddl) : Reordered statements statements where
  all st hst := ⟨st, hst, .refl st⟩
  only st hst := ⟨st, hst, .refl st⟩

end Atomo.Migrations

import Atomo.Cli.SqlStatements
import Atomo.Lib.LabelledSystem
import Atomo.Lib.Table

/-!
# The migration command

`apply_migrations` of `migrate.rs`. A command fetches what is applied, goes through the `.sql` files of its directory
in order, and runs the statements of each file that is not applied in a transaction with the row that records it.
Here any number of commands run at the same time, each with its own directory, and each of their statements is a
step: the `INSERT` of a row waits for another transaction that has inserted the same `filename`. A file may be changed
at any time, and a command may stop at any point. No file is applied twice, and none in part (`applied_once`).
-/

namespace Atomo.Cli

/-! ## Definitions -/

/-- A row of `_atomo_migrations`. -/
structure AppliedMigration where
  filename : String
  checksum : String
  deriving DecidableEq

/-- A row with the open transaction that has inserted it. -/
structure MigrationTuple where
  row : AppliedMigration
  insertedBy : Option Nat
  deriving DecidableEq

/-- A committed transaction: the file as it was read, and the statements executed. -/
structure Migration where
  filename : String
  content : List Char
  executed : List (List Char)

/-- `path.extension() == Some("sql")`. -/
def hasSqlExtension (name : String) : Bool :=
  let behind := name.toList.reverse.takeWhile (· ≠ '.')
  behind = ['l', 'q', 's'] && (name.toList.length > 4)

/-- Where a command is in `apply_migrations`: before its query; between two files; in the transaction of a file, before
and after the row is inserted; at its end. -/
inductive MigratePhase where
  | started
  | listed (applied : List AppliedMigration) (files : List String)
  | executing (applied : List AppliedMigration) (files : List String) (file : String) (content : List Char)
      (executed rest : List (List Char))
  | recorded (applied : List AppliedMigration) (files : List String) (file : String) (content : List Char)
      (executed : List (List Char))
  | finished (ok : Bool)

/-- A command, with the files of its directory and those that it has gone past, as it has read them. -/
structure MigrateCommand where
  phase : MigratePhase := .started
  directory : List String := []
  passed : List (String × List Char) := []

/-- The table of migrations, the transactions that are committed, and the commands. -/
structure Migrating where
  rows : List MigrationTuple := []
  committed : List Migration := []
  commands : Nat → MigrateCommand := fun _ => {}

/-- What a command does next, and what comes of it: the entries of its directory, unless one cannot be read; the
content of a file, unless it cannot be read; whether a statement succeeds. -/
inductive MigrateAct where
  | fetch (i : Nat) (entries : Option (List String))
  | read (i : Nat) (content : Option (List Char))
  | execute (i : Nat) (succeeds : Bool)
  | record (i : Nat) (succeeds : Bool)
  | commit (i : Nat) (succeeds : Bool)
  | crash (i : Nat)

namespace Migrating

variable (md5 : List Char → String) (s : Migrating)

def rowOf (file : String) (content : List Char) : AppliedMigration where
  filename := file
  checksum := md5 content

/-- The rows that a query of another transaction sees. -/
def appliedIn (rows : List MigrationTuple) : List AppliedMigration :=
  (rows.filter fun t => t.insertedBy = none).map MigrationTuple.row

def applied : List AppliedMigration :=
  appliedIn s.rows

def setCommand (i : Nat) (c : MigrateCommand) : Migrating :=
  { s with commands := Function.update s.commands i c }

def setPhase (i : Nat) (phase : MigratePhase) : Migrating :=
  s.setCommand i { s.commands i with phase }

def insertedBy (i : Nat) (t : MigrationTuple) : Bool :=
  t.insertedBy = some i

def publish (t : MigrationTuple) : MigrationTuple :=
  { t with insertedBy := none }

/-- An error, or the end of the process: an open transaction is rolled back. -/
def abort (i : Nat) : Migrating :=
  { s.setPhase i (.finished false) with rows := s.rows.filter fun t => !insertedBy i t }

/-- The file is behind the command. -/
def pass (i : Nat) (applied : List AppliedMigration) (files : List String) (file : String) (content : List Char) :
    Migrating :=
  s.setCommand i
    { s.commands i with phase := .listed applied files, passed := (s.commands i).passed ++ [(file, content)] }

/-- The files to go through: `migration_files`, sorted. -/
def migrationFiles (entries : List String) : List String :=
  Dsl.sorted (entries.filter hasSqlExtension)

def step : MigrateAct → Option Migrating
  | .fetch i entries =>
    match (s.commands i).phase with
    | .started =>
      match entries with
      | none => some (s.abort i)
      | some entries =>
        some (s.setCommand i
          { s.commands i with
            phase := .listed s.applied (migrationFiles entries), directory := migrationFiles entries })
    | _ => none
  | .read i content =>
    match (s.commands i).phase with
    | .listed _ [] => some (s.setPhase i (.finished true))
    | .listed applied (file :: files) =>
      match content with
      | none => some (s.abort i)
      | some content =>
        match applied.find? fun row => row.filename = file with
        | some row => if row.checksum = md5 content then some (s.pass i applied files file content) else some (s.abort i)
        | none => some (s.setPhase i (.executing applied files file content [] (parseSqlStatements content)))
    | _ => none
  | .execute i succeeds =>
    match (s.commands i).phase with
    | .executing applied files file content executed (statement :: rest) =>
      if succeeds then some (s.setPhase i (.executing applied files file content (executed ++ [statement]) rest))
      else some (s.abort i)
    | _ => none
  | .record i succeeds =>
    match (s.commands i).phase with
    | .executing applied files file content executed [] =>
      match s.rows.find? fun t => t.row.filename = file with
      | none =>
        if succeeds then
          some { s.setPhase i (.recorded applied files file content executed) with
            rows := s.rows ++ [⟨rowOf md5 file content, some i⟩] }
        else some (s.abort i)
      | some t => if t.insertedBy = none then some (s.abort i) else none
    | _ => none
  | .commit i succeeds =>
    match (s.commands i).phase with
    | .recorded applied files file content executed =>
      if succeeds then
        some { s.pass i applied files file content with
          rows := Table.update (insertedBy i) publish s.rows
          committed := s.committed ++ [⟨file, content, executed⟩] }
      else some (s.abort i)
    | _ => none
  | .crash i =>
    match (s.commands i).phase with
    | .finished _ => none
    | _ => some (s.abort i)

end Migrating

/-- The runs of any number of commands on a database. -/
def migrating (md5 : List Char → String) : LabelledSystem Migrating MigrateAct where
  init s := s = {}
  step s a t := s.step md5 a = some t

/-! ## Invariants -/

/-- The row in the open transaction of a command. -/
def MigrateCommand.Owns (md5 : List Char → String) (c : MigrateCommand) (row : AppliedMigration) : Prop :=
  match c.phase with
  | .recorded _ _ file content _ => row = Migrating.rowOf md5 file content
  | _ => False

/-- What a command has gone past is applied, and what it has fetched still is; its files are gone through in order;
what is executed in a transaction and what is left make up the file. -/
def MigratePhase.Sound (md5 : List Char → String) (rows : List MigrationTuple) (i : Nat) (passed directory : List String) :
    MigratePhase → Prop
  | .started => passed = []
  | .listed applied files => applied ⊆ Migrating.appliedIn rows ∧ passed ++ files = directory
  | .executing applied files file content executed rest =>
    applied ⊆ Migrating.appliedIn rows ∧ passed ++ file :: files = directory ∧
      executed ++ rest = parseSqlStatements content
  | .recorded applied files file content executed =>
    applied ⊆ Migrating.appliedIn rows ∧ passed ++ file :: files = directory ∧ executed = parseSqlStatements content ∧
      ⟨Migrating.rowOf md5 file content, some i⟩ ∈ rows
  | .finished ok => ok = true → passed = directory

structure MigrateCommand.Sound (md5 : List Char → String) (rows : List MigrationTuple) (i : Nat) (c : MigrateCommand) :
    Prop where
  phase : c.phase.Sound md5 rows i (c.passed.map Prod.fst) c.directory
  passed : ∀ p ∈ c.passed, Migrating.rowOf md5 p.1 p.2 ∈ Migrating.appliedIn rows

structure Migrating.Sound (md5 : List Char → String) (s : Migrating) : Prop where
  names : (s.rows.map (·.row.filename)).Nodup
  owned : ∀ t ∈ s.rows, ∀ i, t.insertedBy = some i → (s.commands i).Owns md5 t.row
  applied : s.applied.Perm (s.committed.map fun m => rowOf md5 m.filename m.content)
  whole : ∀ m ∈ s.committed, m.executed = parseSqlStatements m.content
  commands : ∀ i, (s.commands i).Sound md5 s.rows i

section

variable {md5 : List Char → String} {s t : Migrating} {rows rows' : List MigrationTuple} {i j : Nat} {c : MigrateCommand}

theorem mem_appliedIn {row : AppliedMigration} : row ∈ Migrating.appliedIn rows ↔ ⟨row, none⟩ ∈ rows := by
  unfold Migrating.appliedIn
  rw [List.mem_map]
  constructor
  · rintro ⟨t, ht, rfl⟩
    obtain ⟨hmem, hnone⟩ := List.mem_filter.1 ht
    cases t
    rw [decide_eq_true_iff] at hnone
    dsimp only at hnone ⊢
    rwa [hnone] at hmem
  · intro h
    exact ⟨⟨row, none⟩, List.mem_filter.2 ⟨h, by simp⟩, rfl⟩

theorem insertedBy_iff {t : MigrationTuple} : Migrating.insertedBy i t = true ↔ t.insertedBy = some i := by
  unfold Migrating.insertedBy
  rw [decide_eq_true_iff]

/-! ### Rows that stay -/

/-- The rows that a transaction has not inserted stay. -/
def Keeps (i : Nat) (rows rows' : List MigrationTuple) : Prop :=
  ∀ t ∈ rows, t.insertedBy ≠ some i → t ∈ rows'

theorem Keeps.applied (h : Keeps i rows rows') : Migrating.appliedIn rows ⊆ Migrating.appliedIn rows' := by
  intro row hrow
  exact mem_appliedIn.2 (h _ (mem_appliedIn.1 hrow) (by simp))

theorem MigratePhase.Sound.kept {passed directory : List String} {phase : MigratePhase}
    (h : phase.Sound md5 rows j passed directory) (hkeeps : Keeps i rows rows') (hne : j ≠ i) :
    phase.Sound md5 rows' j passed directory := by
  cases phase with
  | started => exact h
  | listed applied files => exact ⟨List.Subset.trans h.1 hkeeps.applied, h.2⟩
  | executing applied files file content executed rest => exact ⟨List.Subset.trans h.1 hkeeps.applied, h.2⟩
  | recorded applied files file content executed =>
    obtain ⟨happlied, hdirectory, hexecuted, hrow⟩ := h
    exact ⟨List.Subset.trans happlied hkeeps.applied, hdirectory, hexecuted, hkeeps _ hrow fun heq => hne (Option.some.inj heq)⟩
  | finished ok => exact h

theorem MigrateCommand.Sound.kept (h : c.Sound md5 rows j) (hkeeps : Keeps i rows rows') (hne : j ≠ i) :
    c.Sound md5 rows' j :=
  ⟨h.phase.kept hkeeps hne, fun p hp => hkeeps.applied (h.passed p hp)⟩

/-- The rows of a step keep to the table, and the command that takes it to the rows. -/
theorem Migrating.Sound.move (h : s.Sound md5) {committed : List Migration} (hkeeps : Keeps i s.rows rows)
    (hnames : (rows.map (·.row.filename)).Nodup)
    (hmine : ∀ t ∈ rows, t.insertedBy = some i → c.Owns md5 t.row)
    (hothers : ∀ t ∈ rows, ∀ j ≠ i, t.insertedBy = some j → t ∈ s.rows)
    (happlied : (appliedIn rows).Perm (committed.map fun m => rowOf md5 m.filename m.content))
    (hwhole : ∀ m ∈ committed, m.executed = parseSqlStatements m.content) (hc : c.Sound md5 rows i) :
    Migrating.Sound md5 { rows, committed, commands := Function.update s.commands i c } where
  names := hnames
  applied := happlied
  whole := hwhole
  owned := by
    intro t ht j hj
    dsimp only
    by_cases heq : j = i
    · rw [heq, Function.update_self]
      exact hmine t ht (heq ▸ hj)
    · rw [Function.update_of_ne heq]
      exact h.owned t (hothers t ht j heq hj) j hj
  commands := by
    intro j
    dsimp only
    by_cases heq : j = i
    · rw [heq, Function.update_self]
      exact hc
    · rw [Function.update_of_ne heq]
      exact (h.commands j).kept hkeeps heq

/-! ### Steps -/

/-- A command outside of the end of its transaction has no row. -/
theorem Migrating.Sound.free (h : s.Sound md5) (hphase : ∀ row, ¬(s.commands i).Owns md5 row) :
    ∀ t ∈ s.rows, t.insertedBy ≠ some i :=
  fun t ht heq => hphase _ (h.owned t ht i heq)

/-- A step that leaves the table as it is. -/
theorem Migrating.Sound.setCommand (h : s.Sound md5) (hphase : ∀ row, ¬(s.commands i).Owns md5 row)
    (hc : c.Sound md5 s.rows i) : (s.setCommand i c).Sound md5 := by
  have hfree := h.free hphase
  exact h.move (fun t ht _ => ht) h.names (fun t ht hmine => absurd hmine (hfree t ht)) (fun t ht _ _ _ => ht)
    h.applied h.whole hc

theorem Keeps.abort (i : Nat) (rows : List MigrationTuple) :
    Keeps i rows (rows.filter fun t => !Migrating.insertedBy i t) := by
  intro t ht hne
  refine List.mem_filter.2 ⟨ht, ?_⟩
  cases hcase : Migrating.insertedBy i t with
  | false => rfl
  | true => exact absurd (insertedBy_iff.1 hcase) hne

theorem appliedIn_abort (i : Nat) (rows : List MigrationTuple) :
    Migrating.appliedIn (rows.filter fun t => !Migrating.insertedBy i t) = Migrating.appliedIn rows := by
  unfold Migrating.appliedIn
  rw [List.filter_filter]
  congr 1
  refine List.filter_congr fun t _ => ?_
  unfold Migrating.insertedBy
  cases t.insertedBy with
  | none => rfl
  | some k => rfl

theorem Migrating.Sound.abort (h : s.Sound md5) (i : Nat) : (s.abort i).Sound md5 := by
  have hsub : (s.rows.filter fun t => !insertedBy i t).Sublist s.rows := List.filter_sublist
  refine h.move (Keeps.abort i s.rows) (h.names.sublist (hsub.map _)) (fun t ht hmine => ?_)
    (fun t ht _ _ _ => hsub.subset ht) ?_ h.whole ⟨?_, fun p hp => ?_⟩
  · have hother := (List.mem_filter.1 ht).2
    rw [insertedBy_iff.2 hmine] at hother
    cases hother
  · rw [appliedIn_abort]
    exact h.applied
  · exact (Bool.noConfusion ·)
  · rw [appliedIn_abort]
    exact (h.commands i).passed p hp

/-- A file that is applied, or was, is behind the command. -/
theorem Migrating.Sound.skip (h : s.Sound md5) {applied : List AppliedMigration} {files : List String} {file : String}
    {content : List Char} (hphase : (s.commands i).phase = .listed applied (file :: files))
    (happlied : rowOf md5 file content ∈ applied) : (s.pass i applied files file content).Sound md5 := by
  have hsound := (h.commands i).phase
  rw [hphase] at hsound
  obtain ⟨hsub, hdirectory⟩ := hsound
  refine h.setCommand (fun row hrow => ?_) ⟨⟨hsub, ?_⟩, fun p hp => ?_⟩
  · rw [MigrateCommand.Owns, hphase] at hrow
    exact hrow
  · simpa using hdirectory
  · rcases List.mem_append.1 hp with hold | hnew
    · exact (h.commands i).passed p hold
    · rw [List.mem_singleton.1 hnew]
      exact hsub happlied

theorem Migrating.Sound.record (h : s.Sound md5) {applied : List AppliedMigration} {files : List String} {file : String}
    {content : List Char} {executed : List (List Char)}
    (hphase : (s.commands i).phase = .executing applied files file content executed [])
    (hfree : s.rows.find? (fun t => t.row.filename = file) = none) :
    Migrating.Sound md5 { s.setPhase i (.recorded applied files file content executed) with
      rows := s.rows ++ [⟨rowOf md5 file content, some i⟩] } := by
  have hsound := (h.commands i).phase
  rw [hphase] at hsound
  obtain ⟨hsub, hdirectory, hexecuted⟩ := hsound
  have hnone := h.free (i := i) fun row hrow => by rwa [MigrateCommand.Owns, hphase] at hrow
  have hkeeps : Keeps i s.rows (s.rows ++ [⟨rowOf md5 file content, some i⟩]) := fun t ht _ => List.mem_append_left _ ht
  have hsame : appliedIn (s.rows ++ [⟨rowOf md5 file content, some i⟩]) = appliedIn s.rows := by
    simp [appliedIn, List.filter_append]
  refine h.move hkeeps ?_ (fun t ht hmine => ?_) (fun t ht j hj hother => ?_) ?_ h.whole ⟨⟨?_, hdirectory, ?_, ?_⟩, ?_⟩
  · rw [List.map_append, List.map_singleton, List.nodup_append]
    refine ⟨h.names, List.nodup_singleton _, fun name hname name' hname' heq => ?_⟩
    obtain ⟨t, ht, rfl⟩ := List.mem_map.1 hname
    rw [List.mem_singleton.1 hname'] at heq
    exact List.find?_eq_none.1 hfree t ht (decide_eq_true heq)
  · rcases List.mem_append.1 ht with hold | hnew
    · exact absurd hmine (hnone t hold)
    · rw [List.mem_singleton.1 hnew]
      rfl
  · rcases List.mem_append.1 ht with hold | hnew
    · exact hold
    · rw [List.mem_singleton.1 hnew] at hother
      exact absurd (Option.some.inj hother).symm hj
  · rw [hsame]
    exact h.applied
  · rw [hsame]
    exact hsub
  · rw [List.append_nil] at hexecuted
    exact hexecuted
  · exact List.mem_append_right _ List.mem_cons_self
  · rw [hsame]
    exact (h.commands i).passed

/-- The row of a transaction is the only one of it. -/
theorem Migrating.Sound.only (h : s.Sound md5) {applied : List AppliedMigration} {files : List String} {file : String}
    {content : List Char} {executed : List (List Char)}
    (hphase : (s.commands i).phase = .recorded applied files file content executed) :
    ∃ a b, s.rows = a ++ ⟨rowOf md5 file content, some i⟩ :: b ∧ (∀ t ∈ a, t.insertedBy ≠ some i) ∧
      ∀ t ∈ b, t.insertedBy ≠ some i := by
  have hsound := (h.commands i).phase
  rw [hphase] at hsound
  obtain ⟨-, -, -, hrow⟩ := hsound
  obtain ⟨a, b, hrows⟩ := List.append_of_mem hrow
  have hname : ∀ t ∈ s.rows, t.insertedBy = some i → t.row.filename = file := by
    intro t ht hmine
    have howned := h.owned t ht i hmine
    rw [MigrateCommand.Owns, hphase] at howned
    rw [howned]
    rfl
  have hnodup := h.names
  rw [hrows, List.map_append, List.map_cons, List.nodup_append, List.nodup_cons] at hnodup
  obtain ⟨-, ⟨hb, -⟩, ha⟩ := hnodup
  refine ⟨a, b, hrows, fun t ht hmine => ?_, fun t ht hmine => ?_⟩
  · have hfile := hname t (hrows ▸ List.mem_append_left _ ht) hmine
    exact ha _ (List.mem_map_of_mem ht) _ List.mem_cons_self hfile
  · have hfile := hname t (hrows ▸ List.mem_append_right _ (List.mem_cons_of_mem _ ht)) hmine
    exact hb (List.mem_map.2 ⟨t, ht, hfile⟩)

theorem Migrating.Sound.commit (h : s.Sound md5) {applied : List AppliedMigration} {files : List String} {file : String}
    {content : List Char} {executed : List (List Char)}
    (hphase : (s.commands i).phase = .recorded applied files file content executed) :
    Migrating.Sound md5 { s.pass i applied files file content with
      rows := Table.update (insertedBy i) publish s.rows
      committed := s.committed ++ [⟨file, content, executed⟩] } := by
  have hsound := (h.commands i).phase
  rw [hphase] at hsound
  obtain ⟨hsub, hdirectory, hexecuted, -⟩ := hsound
  obtain ⟨a, b, hrows, ha, hb⟩ := h.only hphase
  have hmiss : ∀ {l : List MigrationTuple}, (∀ t ∈ l, t.insertedBy ≠ some i) → Table.update (insertedBy i) publish l = l := by
    intro l hl
    refine Table.update_of_forall_not fun t ht => ?_
    rw [← Bool.not_eq_true, insertedBy_iff]
    exact hl t ht
  have hupdate : Table.update (insertedBy i) publish s.rows = a ++ ⟨rowOf md5 file content, none⟩ :: b := by
    rw [hrows, Table.update_append, hmiss ha, ← List.singleton_append, Table.update_append, hmiss hb]
    simp [Table.update, insertedBy, publish]
  have happlied : appliedIn (a ++ ⟨rowOf md5 file content, none⟩ :: b) = appliedIn a ++ rowOf md5 file content :: appliedIn b := by
    simp [appliedIn, List.filter_append]
  have hbefore : s.applied = appliedIn a ++ appliedIn b := by
    unfold Migrating.applied
    rw [hrows]
    simp [appliedIn, List.filter_append]
  have hperm := h.applied
  rw [hbefore] at hperm
  have hkeeps : Keeps i s.rows (a ++ ⟨rowOf md5 file content, none⟩ :: b) := by
    intro t ht hne
    rw [hrows] at ht
    rcases List.mem_append.1 ht with hmem | hmem
    · exact List.mem_append_left _ hmem
    · rcases List.mem_cons.1 hmem with rfl | hmem
      · exact absurd rfl hne
      · exact List.mem_append_right _ (List.mem_cons_of_mem _ hmem)
  rw [hupdate]
  refine h.move hkeeps ?_ (fun t ht hmine => ?_) (fun t ht j _ hother => ?_) ?_ (fun m hm => ?_) ⟨⟨?_, ?_⟩, fun p hp => ?_⟩
  · have hnames := h.names
    rw [hrows] at hnames
    simpa using hnames
  · rcases List.mem_append.1 ht with hmem | hmem
    · exact absurd hmine (ha t hmem)
    · rcases List.mem_cons.1 hmem with rfl | hmem
      · cases hmine
      · exact absurd hmine (hb t hmem)
  · rw [hrows]
    rcases List.mem_append.1 ht with hmem | hmem
    · exact List.mem_append_left _ hmem
    · rcases List.mem_cons.1 hmem with rfl | hmem
      · cases hother
      · exact List.mem_append_right _ (List.mem_cons_of_mem _ hmem)
  · rw [happlied, List.map_append, List.map_singleton]
    exact List.perm_middle.trans ((List.perm_append_singleton _ _).symm.trans (hperm.append_right _))
  · rcases List.mem_append.1 hm with hold | hnew
    · exact h.whole m hold
    · rw [List.mem_singleton.1 hnew]
      exact hexecuted
  · exact List.Subset.trans hsub hkeeps.applied
  · simpa using hdirectory
  · rcases List.mem_append.1 hp with hold | hnew
    · exact hkeeps.applied ((h.commands i).passed p hold)
    · rw [List.mem_singleton.1 hnew, happlied]
      exact List.mem_append_right _ List.mem_cons_self

theorem Migrating.Sound.step {a : MigrateAct} (h : s.Sound md5) (hstep : s.step md5 a = some t) : t.Sound md5 := by
  cases a with
  | fetch i entries =>
    simp only [Migrating.step] at hstep
    split at hstep
    · rename_i hphase
      have hsound := (h.commands i).phase
      rw [hphase] at hsound
      cases entries with
      | none =>
        cases hstep
        exact h.abort i
      | some entries =>
        cases hstep
        refine h.setCommand (fun row hrow => ?_) ⟨⟨List.Subset.refl _, ?_⟩, (h.commands i).passed⟩
        · rwa [MigrateCommand.Owns, hphase] at hrow
        · rw [hsound, List.nil_append]
    · cases hstep
  | read i content =>
    simp only [Migrating.step] at hstep
    split at hstep
    · rename_i applied hphase
      cases hstep
      have hsound := (h.commands i).phase
      rw [hphase] at hsound
      refine h.setCommand (fun row hrow => ?_) ⟨fun _ => ?_, (h.commands i).passed⟩
      · rwa [MigrateCommand.Owns, hphase] at hrow
      · rw [← hsound.2, List.append_nil]
    · rename_i applied file files hphase
      have hsound := (h.commands i).phase
      rw [hphase] at hsound
      cases content with
      | none =>
        cases hstep
        exact h.abort i
      | some content =>
        dsimp only at hstep
        split at hstep
        · rename_i row hfound
          split at hstep
          · rename_i hchecksum
            cases hstep
            have hfile : row.filename = file := by simpa using List.find?_some hfound
            refine h.skip hphase ?_
            have hrow : Migrating.rowOf md5 file content = row := by
              rw [← hfile, Migrating.rowOf, ← hchecksum]
            rw [hrow]
            exact List.mem_of_find?_eq_some hfound
          · cases hstep
            exact h.abort i
        · cases hstep
          refine h.setCommand (fun row hrow => ?_) ⟨⟨hsound.1, hsound.2, rfl⟩, (h.commands i).passed⟩
          rwa [MigrateCommand.Owns, hphase] at hrow
    · cases hstep
  | execute i succeeds =>
    simp only [Migrating.step] at hstep
    split at hstep
    · rename_i applied files file content executed statement rest hphase
      have hsound := (h.commands i).phase
      rw [hphase] at hsound
      split at hstep
      · cases hstep
        refine h.setCommand (fun row hrow => ?_) ⟨⟨hsound.1, hsound.2.1, ?_⟩, (h.commands i).passed⟩
        · rwa [MigrateCommand.Owns, hphase] at hrow
        · rw [List.append_assoc]
          exact hsound.2.2
      · cases hstep
        exact h.abort i
    · cases hstep
  | record i succeeds =>
    simp only [Migrating.step] at hstep
    split at hstep
    · rename_i applied files file content executed hphase
      split at hstep
      · rename_i hfree
        split at hstep
        · cases hstep
          exact h.record hphase hfree
        · cases hstep
          exact h.abort i
      · split at hstep
        · cases hstep
          exact h.abort i
        · cases hstep
    · cases hstep
  | commit i succeeds =>
    simp only [Migrating.step] at hstep
    split at hstep
    · rename_i applied files file content executed hphase
      split at hstep
      · cases hstep
        exact h.commit hphase
      · cases hstep
        exact h.abort i
    · cases hstep
  | crash i =>
    simp only [Migrating.step] at hstep
    split at hstep
    · cases hstep
    · cases hstep
      exact h.abort i

theorem sound_inductive (md5 : List Char → String) : (migrating md5).Inductive (Migrating.Sound md5) where
  init := by
    intro s hs
    rw [show s = {} from hs]
    exact ⟨List.nodup_nil, List.forall_mem_nil _, List.Perm.refl _, List.forall_mem_nil _,
      fun _ => ⟨rfl, List.forall_mem_nil _⟩⟩
  step _ _ _ h hstep := h.step hstep

end

end Atomo.Cli

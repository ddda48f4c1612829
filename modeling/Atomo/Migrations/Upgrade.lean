import Atomo.Migrations.Rerun

/-!
# An older database under a newer schema

The statements of a schema on a database that those of an older schema have made. A column that is there stays as it
was declared; a missing one is added as a new table would declare it. So a row that a new database takes is taken by
the older one, with the same values, as far as the two declare a column alike (`upgraded_serves`).
-/

namespace Atomo.Migrations

open Schema (Field Model)
open Query (tableName)

variable {δ : Type}

/-! ## Declared columns -/

/-- A database with the columns of each table as they were declared. -/
structure Declared (δ : Type) where
  db : Database δ
  defs : Name → List ColumnDef

namespace Declared

def empty (data : δ) : Declared δ where
  db := { names := { relations := [], constraints := [] }, tables := [], indexes := [], constraints := [], data }
  defs _ := []

/-- The table exists. -/
def Has (s : Declared δ) (t : Name) : Prop :=
  columnsOf s.db.tables t.text ≠ none

/-- A column of a table, by its name. -/
def column (s : Declared δ) (t c : Name) : Option ColumnDef :=
  (s.defs t).find? fun d => clip d.name = c

/-- The columns after a statement that succeeds. -/
def declaredBy (s : Declared δ) : Ddl → Name → List ColumnDef
  | .createTable table columns =>
    if clip table ∈ s.db.names.relations then s.defs else Function.update s.defs (clip table) columns
  | .addColumn table column | .requireColumn table column =>
    if (s.column (clip table) (clip column.name)).isSome then s.defs
    else Function.update s.defs (clip table) (s.defs (clip table) ++ [column])
  | .createIndex _ _ _ _ _ | .addConstraint _ _ _ => s.defs

end Declared

def Server.declare (server : Server δ) (s : Declared δ) (st : Ddl) : Option (Declared δ) :=
  (server.exec s.db st).map fun db => { db, defs := s.declaredBy st }

def Server.declareAll (server : Server δ) (s : Declared δ) (statements : List Ddl) : Option (Declared δ) :=
  statements.foldlM server.declare s

/-! ## Rows -/

/-- How the server reads the clauses of a column. -/
structure Reading where
  notNull : ColumnDef → Bool
  default : ColumnDef → Option String
  /-- The default is `NULL`. -/
  isNull : String → Bool

/-- The columns that an `INSERT` lists, with a value or `NULL` each. -/
abbrev Insert (V : Type) :=
  List (Name × Option V)

inductive Stored (V : Type) where
  | null
  | given (type : String) (v : V)
  | default (type expr : String)

variable {V : Type}

/-- What a column holds in the new row. -/
def Reading.stored (r : Reading) (ins : Insert V) (c : Name) (d : ColumnDef) : Stored V :=
  match ins.lookup c with
  | some (some v) => .given d.type v
  | some none => .null
  | none =>
    match r.default d with
    | some e => if r.isNull e then .null else .default d.type e
    | none => .null

/-- The columns exist, and no column that is `NOT NULL` holds `NULL`. -/
def Reading.Accepts (r : Reading) (columns : Name → Option ColumnDef) (ins : Insert V) : Prop :=
  (∀ c ∈ ins.map Prod.fst, columns c ≠ none) ∧ ∀ c d, columns c = some d → r.notNull d = true → r.stored ins c d ≠ .null

/-! ## What a statement declares -/

variable {server : Server δ} {s s' : Declared δ} {st : Ddl}

/-- A table takes its name, and only a table has columns. -/
structure Declared.Sound (s : Declared δ) : Prop where
  named : ∀ t ∈ s.db.tables, t.name ∈ s.db.names.relations
  none : ∀ t, ¬s.Has t → s.defs t = []

theorem declare_exec (h : server.declare s st = some s') : server.exec s.db st = some s'.db ∧ s'.defs = s.declaredBy st := by
  obtain ⟨db, hexec, rfl⟩ := Option.map_eq_some_iff.1 h
  exact ⟨hexec, rfl⟩

theorem name_eq {a b : Name} (h : a.text = b.text) : a = b := by
  cases a
  cases b
  cases h
  rfl

theorem mem_of_has {t : Name} (h : s.Has t) : ∃ info ∈ s.db.tables, info.name = t := by
  cases hfind : s.db.tables.find? (fun info => decide (info.name.text = t.text)) with
  | none => exact absurd (Option.map_eq_none_iff.2 hfind) h
  | some info =>
    have hname : info.name.text = t.text := by simpa using List.find?_some hfind
    exact ⟨info, List.mem_of_find?_eq_some hfind, name_eq hname⟩

theorem has_of_mem {info : TableInfo} (h : info ∈ s.db.tables) : s.Has info.name := by
  intro hnone
  have hfind := Option.map_eq_none_iff.1 hnone
  exact absurd (decide_eq_true rfl) (List.find?_eq_none.1 hfind info h)

theorem has_iff {t : Name} : s.Has t ↔ ∃ info ∈ s.db.tables, info.name = t := by
  constructor
  · exact mem_of_has
  · rintro ⟨info, hinfo, rfl⟩
    exact has_of_mem hinfo

theorem column_of_not_has (hsound : s.Sound) {t : Name} (h : ¬s.Has t) (c : Name) : s.column t c = none := by
  unfold Declared.column
  rw [hsound.none t h]
  rfl

/-- A literal that is found is what its identifier is cut to. -/
theorem literal_eq_clip {name : String} {stored : Name} (h : stored.text = server.literal name) : stored = clip name := by
  by_cases hrec : server.Recognises name
  · rw [hrec.literal] at h
    exact name_eq h
  · exact absurd h (literal_ne hrec stored)

/-- The table and the column that a statement adds, unless it is there. -/
def Ddl.added? : Ddl → Option (String × ColumnDef)
  | .addColumn table column | .requireColumn table column => some (table, column)
  | .createTable _ _ | .createIndex _ _ _ _ _ | .addConstraint _ _ _ => none

/-- What the statement adds as this column of this table. -/
def Ddl.addsTo (t c : Name) (st : Ddl) : Option ColumnDef :=
  st.added?.bind fun (table, column) => if clip table = t ∧ clip column.name = c then some column else none

theorem added?_cases {table : String} {column : ColumnDef} (h : st.added? = some (table, column)) :
    st = .addColumn table column ∨ st = .requireColumn table column := by
  cases st <;> cases h
  · exact .inl rfl
  · exact .inr rfl

theorem addsTo_of_added {table : String} {column : ColumnDef} (h : st.added? = some (table, column)) (t c : Name) :
    st.addsTo t c = if clip table = t ∧ clip column.name = c then some column else none := by
  unfold Ddl.addsTo
  rw [h]
  rfl

theorem addsTo_of_none (h : st.added? = none) (t c : Name) : st.addsTo t c = none := by
  unfold Ddl.addsTo
  rw [h]
  rfl

theorem has_withColumn (s : Declared δ) (table column : Name) (data : δ) (defs : Name → List ColumnDef) (t : Name) :
    Declared.Has ⟨s.db.withColumn table column data, defs⟩ t ↔ s.Has t := by
  have hcolumns : columnsOf (s.db.withColumn table column data).tables t.text = none ↔
      columnsOf s.db.tables t.text = none := by
    rw [columnsOf_withColumn, Option.map_eq_none_iff]
    exact Option.map_eq_none_iff.symm
  exact not_congr hcolumns

/-- What a statement other than `CREATE TABLE` leaves. -/
structure Adds (st : Ddl) (s s' : Declared δ) : Prop where
  has : ∀ t, s'.Has t ↔ s.Has t
  column : ∀ t c, s'.column t c = (s.column t c).or (st.addsTo t c)
  found : ∀ table column, st.added? = some (table, column) → s.Has (clip table)
  sound : s.Sound → s'.Sound

/-- The columns after a column was added. -/
theorem column_added {table : String} {column : ColumnDef} (hadded : st.added? = some (table, column))
    (hdefs : s'.defs = s.declaredBy st) (t c : Name) : s'.column t c = (s.column t c).or (st.addsTo t c) := by
  have hby : s.declaredBy st = if (s.column (clip table) (clip column.name)).isSome then s.defs
      else Function.update s.defs (clip table) (s.defs (clip table) ++ [column]) := by
    obtain rfl | rfl := added?_cases hadded <;> rfl
  rw [addsTo_of_added hadded]
  unfold Declared.column
  rw [hdefs, hby]
  by_cases htable : clip table = t
  · subst htable
    split
    · rename_i hthere
      by_cases hc : clip column.name = c
      · subst hc
        obtain ⟨d, hd⟩ := Option.isSome_iff_exists.1 hthere
        have hfound : (s.defs (clip table)).find? (fun d => decide (clip d.name = clip column.name)) = some d := hd
        rw [hfound, Option.some_or]
      · have hnone : (if clip table = clip table ∧ clip column.name = c then some column else none) = none :=
          if_neg fun h => hc h.2
        rw [hnone, Option.or_none]
    · rw [Function.update_self, List.find?_append, List.find?_singleton]
      by_cases hc : clip column.name = c
      · simp only [hc, and_self, decide_true, if_true]
      · simp only [hc, and_false, decide_false, if_false, Bool.false_eq_true]
  · have hnone : (if clip table = t ∧ clip column.name = c then some column else none) = none :=
      if_neg fun h => htable h.1
    rw [hnone, Option.or_none]
    split
    · rfl
    · rw [Function.update_of_ne (Ne.symm htable)]

/-- A statement that adds a column has found its table. -/
theorem adds_of_added {table : String} {column : ColumnDef} (hadded : st.added? = some (table, column))
    (h : server.declare s st = some s') : Adds st s s' := by
  obtain ⟨hexec, hdefs⟩ := declare_exec h
  have hcolumn := column_added hadded hdefs
  have hdoes := exec_does hexec
  have hnames : s'.db.names = s.db.names := by
    rw [hdoes.names]
    obtain rfl | rfl := added?_cases hadded <;> rfl
  have hkeeps : s.Has (clip table) ∧ ∀ t, s'.Has t ↔ s.Has t := by
    generalize hdb : s'.db = db' at hdoes
    cases hdoes with
    | nothing hsettled =>
      refine ⟨?_, fun t => ?_⟩
      · obtain rfl | rfl := added?_cases hadded
        · obtain ⟨columns, hcolumns, -⟩ := hsettled
          exact fun hnone => Option.some_ne_none _ (hcolumns.symm.trans hnone)
        · obtain ⟨columns, hcolumns, -⟩ := (Option.any_eq_true _ _).1 hsettled
          obtain ⟨info, hinfo, -⟩ := Option.map_eq_some_iff.1 hcolumns
          have htext : info.name.text = server.literal table := by simpa using List.find?_some hinfo
          rw [← literal_eq_clip htext]
          exact has_of_mem (List.mem_of_find?_eq_some hinfo)
      · unfold Declared.Has
        rw [hdb]
    | @column _ table' column' columns data hst hcolumns hfresh =>
      have hsame : table' = table ∧ column' = column := by
        obtain rfl | rfl := hst <;> cases hadded <;> exact ⟨rfl, rfl⟩
      obtain ⟨rfl, rfl⟩ := hsame
      refine ⟨fun hnone => Option.some_ne_none _ (hcolumns.symm.trans hnone), fun t => ?_⟩
      rw [← has_withColumn s (clip table') (clip column'.name) data s'.defs t]
      unfold Declared.Has
      rw [hdb]
    | table | index | constraint => cases hadded
  obtain ⟨hfound, hhas⟩ := hkeeps
  refine ⟨hhas, hcolumn, ?_, fun hsound => ⟨fun info hinfo => ?_, fun t hnot => ?_⟩⟩
  · intro table' column' hadded'
    cases hadded.symm.trans hadded'
    exact hfound
  · obtain ⟨old, hold, hname⟩ := mem_of_has ((hhas info.name).1 (has_of_mem hinfo))
    rw [hnames, ← hname]
    exact hsound.named old hold
  · have hold : ¬s.Has t := fun hyes => hnot ((hhas t).2 hyes)
    have htable : clip table ≠ t := by
      rintro rfl
      exact hold hfound
    have hby : s.declaredBy st t = s.defs t := by
      obtain rfl | rfl := added?_cases hadded <;> unfold Declared.declaredBy <;> dsimp only <;> split
      all_goals first
        | rfl
        | rw [Function.update_of_ne (Ne.symm htable)]
    rw [hdefs, hby]
    exact hsound.none t hold

/-- An index or a constraint leaves the tables. -/
theorem adds_of_none (hadded : st.added? = none) (hcreate : ∀ table columns, st ≠ .createTable table columns)
    (h : server.declare s st = some s') : Adds st s s' := by
  obtain ⟨hexec, hdefs⟩ := declare_exec h
  have hdoes := exec_does hexec
  have htables : s'.db.tables = s.db.tables := by
    generalize hdb : s'.db = db' at hdoes
    cases hdoes with
    | nothing | index | constraint => rfl
    | table => exact absurd rfl (hcreate _ _)
    | column hst hcolumns hfresh => obtain rfl | rfl := hst <;> cases hadded
  have hsame : s'.defs = s.defs := by
    rw [hdefs]
    cases st with
    | createTable table columns => exact absurd rfl (hcreate table columns)
    | addColumn | requireColumn => cases hadded
    | createIndex | addConstraint => rfl
  have hhas : ∀ t, s'.Has t ↔ s.Has t := by
    intro t
    unfold Declared.Has
    rw [htables]
  refine ⟨hhas, fun t c => ?_, fun table column h' => ?_, fun hsound => ⟨fun info hinfo => ?_, fun t hnot => ?_⟩⟩
  · unfold Declared.column
    rw [hsame, addsTo_of_none hadded, Option.or_none]
  · cases hadded.symm.trans h'
  · rw [htables] at hinfo
    rw [hdoes.names]
    exact (subset_namesAfter server s.db.names st).1 (hsound.named info hinfo)
  · rw [hsame]
    exact hsound.none t fun hyes => hnot ((hhas t).2 hyes)

theorem declare_adds (hcreate : ∀ table columns, st ≠ .createTable table columns) (h : server.declare s st = some s') :
    Adds st s s' := by
  cases hadded : st.added? with
  | none => exact adds_of_none hadded hcreate h
  | some added => exact adds_of_added hadded h

/-- What `CREATE TABLE IF NOT EXISTS` leaves where the table exists afterwards. -/
structure Creates (table : String) (columns : List ColumnDef) (s s' : Declared δ) : Prop where
  has : ∀ t, s'.Has t ↔ s.Has t ∨ t = clip table
  fresh : ¬s.Has (clip table) → ∀ c, s'.column (clip table) c = columns.find? fun d => clip d.name = c
  kept : ∀ t c, t ≠ clip table ∨ s.Has t → s'.column t c = s.column t c

theorem declare_creates {table : String} {columns : List ColumnDef} (hsound : s.Sound)
    (h : server.declare s (.createTable table columns) = some s') :
    s'.Sound ∧ (s'.Has (clip table) → Creates table columns s s') := by
  obtain ⟨hexec, hdefs⟩ := declare_exec h
  have hby : s.declaredBy (.createTable table columns) =
      if clip table ∈ s.db.names.relations then s.defs else Function.update s.defs (clip table) columns := rfl
  rw [hby] at hdefs
  have hdoes := exec_does hexec
  have hnames := hdoes.names
  obtain ⟨db, defs⟩ := s'
  cases hdoes with
  | nothing hsettled =>
    have hused : clip table ∈ s.db.names.relations := hsettled
    rw [if_pos hused] at hdefs
    dsimp only at hdefs
    subst hdefs
    refine ⟨hsound, fun hhas => ⟨fun t => ?_, fun hnot => absurd hhas hnot, fun t c _ => rfl⟩⟩
    constructor
    · exact .inl
    · rintro (ht | rfl)
      · exact ht
      · exact hhas
  | table hfresh =>
    rw [if_neg hfresh] at hdefs
    dsimp only at hdefs hnames
    subst hdefs
    have hnot : ¬s.Has (clip table) := by
      intro hyes
      obtain ⟨info, hinfo, hname⟩ := mem_of_has hyes
      apply hfresh
      rw [← hname]
      exact hsound.named info hinfo
    have hhas : ∀ (names : Names) (indexes : List IndexInfo) (constraints : List ConstraintInfo) (data : δ)
        (defs : Name → List ColumnDef) (t : Name),
        Declared.Has ⟨⟨names, s.db.tables ++ [⟨clip table, columns.map fun c => clip c.name⟩], indexes, constraints, data⟩,
          defs⟩ t ↔ s.Has t ∨ t = clip table := by
      intro names indexes constraints data defs t
      rw [has_iff, has_iff]
      simp only [List.mem_append, List.mem_singleton]
      constructor
      · rintro ⟨info, hinfo | rfl, rfl⟩
        · exact .inl ⟨info, hinfo, rfl⟩
        · exact .inr rfl
      · rintro (⟨info, hinfo, rfl⟩ | rfl)
        · exact ⟨info, .inl hinfo, rfl⟩
        · exact ⟨_, .inr rfl, rfl⟩
    refine ⟨⟨fun info hinfo => ?_, fun t ht => ?_⟩, fun _ => ⟨hhas _ _ _ _ _, fun _ c => ?_, fun t c ht => ?_⟩⟩
    · rw [hnames]
      rcases List.mem_append.1 hinfo with hold | hnew
      · exact (subset_namesAfter server s.db.names _).1 (hsound.named info hold)
      · cases List.mem_singleton.1 hnew
        simp only [Server.namesAfter, if_neg hfresh]
        exact List.mem_append_right _ List.mem_cons_self
    · have hne : t ≠ clip table := fun heq => ht ((hhas _ _ _ _ _ t).2 (.inr heq))
      have hold : ¬s.Has t := fun hyes => ht ((hhas _ _ _ _ _ t).2 (.inl hyes))
      dsimp only
      rw [Function.update_of_ne hne]
      exact hsound.none t hold
    · unfold Declared.column
      dsimp only
      rw [Function.update_self]
    · have hne : t ≠ clip table := by
        rintro rfl
        exact ht.elim (fun hne => hne rfl) hnot
      unfold Declared.column
      dsimp only
      rw [Function.update_of_ne hne]
  | column hst => rcases hst with hst | hst <;> cases hst

/-! ## Runs -/

/-- The first column that the statements add under this name. -/
def firstAdded (t c : Name) (statements : List Ddl) : Option ColumnDef :=
  statements.findSome? (Ddl.addsTo t c)

/-- The column is one that every table has. -/
def IsPlatform (c : Name) : Prop :=
  ∃ p ∈ platformColumns, c = clip p.name

/-- What a table declares and the statements after it add alike. -/
structure CoveredTable (table : String) (columns : List ColumnDef) (rest : List Ddl) : Prop where
  head : ∃ st after column, rest = st :: after ∧ st.added? = some (table, column)
  platform : ∀ c, IsPlatform c → ∃ d ∈ columns, clip d.name = c
  added : ∀ c d, columns.find? (fun d => decide (clip d.name = c)) = some d →
    d.primary = true ∨ IsPlatform c ∨ firstAdded (clip table) c rest = some d

def Covered : List Ddl → Prop
  | [] => True
  | .createTable table columns :: rest => CoveredTable table columns rest ∧ Covered rest
  | _ :: rest => Covered rest

variable {statements rest : List Ddl} {table : String} {columns : List ColumnDef}

theorem Covered.tail (h : Covered (st :: rest)) : Covered rest := by
  cases st with
  | createTable table columns => exact h.2
  | addColumn | requireColumn | createIndex | addConstraint => exact h

theorem declareAll_cons_iff {s'' : Declared δ} :
    server.declareAll s (st :: rest) = some s'' ↔
      ∃ s', server.declare s st = some s' ∧ server.declareAll s' rest = some s'' := by
  unfold Server.declareAll
  rw [List.foldlM_cons]
  exact Option.bind_eq_some_iff

/-- A table is there after its `CREATE TABLE`, since the statement that follows finds it. -/
theorem run_creates {s'' : Declared δ} (hsound : s.Sound) (hcovered : CoveredTable table columns rest)
    (h : server.declareAll s (.createTable table columns :: rest) = some s'') :
    ∃ s', Creates table columns s s' ∧ s'.Sound ∧ server.declareAll s' rest = some s'' := by
  obtain ⟨s', hdeclare, hrest⟩ := declareAll_cons_iff.1 h
  obtain ⟨hsound', hcreates⟩ := declare_creates hsound hdeclare
  obtain ⟨st, after, column, rfl, hadded⟩ := hcovered.head
  obtain ⟨next, hnext, -⟩ := declareAll_cons_iff.1 hrest
  exact ⟨s', hcreates ((adds_of_added hadded hnext).found table column hadded), hsound', hrest⟩

theorem run_adds {s'' : Declared δ} (hcreate : ∀ table columns, st ≠ .createTable table columns)
    (h : server.declareAll s (st :: rest) = some s'') :
    ∃ s', Adds st s s' ∧ server.declareAll s' rest = some s'' := by
  obtain ⟨s', hdeclare, hrest⟩ := declareAll_cons_iff.1 h
  exact ⟨s', declare_adds hcreate hdeclare, hrest⟩

/-- The tables are as the statements make them. -/
structure Declared.Regular (s : Declared δ) : Prop where
  sound : s.Sound
  platform : ∀ t c, s.Has t → IsPlatform c → s.column t c ≠ none

theorem Declared.Sound.has (h : s.Sound) {t c : Name} {d : ColumnDef} (hd : s.column t c = some d) : s.Has t := by
  by_contra hnot
  rw [column_of_not_has h hnot] at hd
  cases hd

theorem Creates.keeps (h : Creates table columns s s') (hsound : s.Sound) {t c : Name} {d : ColumnDef}
    (hd : s.column t c = some d) : s'.column t c = some d := by
  rw [h.kept t c (.inr (hsound.has hd)), hd]

theorem Adds.keeps (h : Adds st s s') {t c : Name} {d : ColumnDef} (hd : s.column t c = some d) :
    s'.column t c = some d := by
  rw [h.column, hd, Option.some_or]

theorem Creates.regular (h : Creates table columns s s') (hcovered : CoveredTable table columns rest)
    (hsound : s'.Sound) (hs : s.Regular) : s'.Regular := by
  refine ⟨hsound, fun t c ht hc => ?_⟩
  by_cases hold : s.Has t
  · rw [h.kept t c (.inr hold)]
    exact hs.platform t c hold hc
  · obtain rfl := ((h.has t).1 ht).resolve_left hold
    obtain ⟨d, hd, hname⟩ := hcovered.platform c hc
    rw [h.fresh hold]
    intro hnone
    exact List.find?_eq_none.1 hnone d hd (decide_eq_true hname)

theorem Adds.regular (h : Adds st s s') (hs : s.Regular) : s'.Regular := by
  refine ⟨h.sound hs.sound, fun t c ht hc => ?_⟩
  obtain ⟨d, hd⟩ := Option.ne_none_iff_exists'.1 (hs.platform t c ((h.has t).1 ht) hc)
  rw [h.keeps hd]
  exact Option.some_ne_none d

/-- What a run keeps. -/
theorem run_keeps {P : Declared δ → Prop} (hcovered : Covered statements) (hs : s.Regular) (h0 : P s)
    (hcreates : ∀ {table columns rest s s'}, CoveredTable table columns rest → s.Regular → Creates table columns s s' →
      P s → P s')
    (hadds : ∀ {st s s'}, s.Regular → Adds st s s' → P s → P s')
    (h : server.declareAll s statements = some s') : s'.Regular ∧ P s' := by
  induction statements generalizing s with
  | nil =>
    cases h
    exact ⟨hs, h0⟩
  | cons st rest ih =>
    by_cases hst : ∃ table columns, st = .createTable table columns
    · obtain ⟨table, columns, rfl⟩ := hst
      obtain ⟨mid, hmid, hsound, hrest⟩ := run_creates hs.sound hcovered.1 h
      exact ih hcovered.2 (hmid.regular hcovered.1 hsound hs) (hcreates hcovered.1 hs hmid h0) hrest
    · obtain ⟨mid, hmid, hrest⟩ := run_adds (fun table columns heq => hst ⟨table, columns, heq⟩) h
      exact ih hcovered.tail (hmid.regular hs) (hadds hs hmid h0) hrest

theorem run_regular (hcovered : Covered statements) (hs : s.Regular) (h : server.declareAll s statements = some s') :
    s'.Regular :=
  (run_keeps hcovered hs (P := fun _ => True) trivial (fun _ _ _ _ => trivial) (fun _ _ _ => trivial) h).1

/-- A column that is declared stays as it is. -/
theorem run_column (hcovered : Covered statements) (hs : s.Regular) (h : server.declareAll s statements = some s')
    {t c : Name} {d : ColumnDef} (hd : s.column t c = some d) : s'.column t c = some d :=
  (run_keeps hcovered hs (P := fun s => s.column t c = some d) hd
    (fun _ hregular hcreates hd => hcreates.keeps hregular.sound hd) (fun _ hadds hd => hadds.keeps hd) h).2

/-- A column that the statements add is there in the end. -/
theorem run_added (hcovered : Covered statements) (hs : s.Regular) (h : server.declareAll s statements = some s')
    (hst : st ∈ statements) {t c : Name} (hadds : st.addsTo t c ≠ none) : s'.column t c ≠ none := by
  induction statements generalizing s with
  | nil => cases hst
  | cons first rest ih =>
    by_cases hfirst : ∃ table columns, first = .createTable table columns
    · obtain ⟨table, columns, rfl⟩ := hfirst
      obtain ⟨mid, hmid, hsound, hrest⟩ := run_creates hs.sound hcovered.1 h
      rcases List.mem_cons.1 hst with rfl | htail
      · exact absurd rfl hadds
      · exact ih hcovered.2 (hmid.regular hcovered.1 hsound hs) hrest htail
    · obtain ⟨mid, hmid, hrest⟩ := run_adds (fun table columns heq => hfirst ⟨table, columns, heq⟩) h
      rcases List.mem_cons.1 hst with rfl | htail
      · obtain ⟨d, hd⟩ := Option.ne_none_iff_exists'.1 hadds
        have hsome : mid.column t c ≠ none := by
          rw [hmid.column, hd]
          simp
        obtain ⟨d', hd'⟩ := Option.ne_none_iff_exists'.1 hsome
        rw [run_column hcovered.tail (hmid.regular hs) hrest hd']
        exact Option.some_ne_none d'
      · exact ih hcovered.tail (hmid.regular hs) hrest htail

/-! ## The same statements on an older and on a new database -/

/-- What the upgraded database has, by the older one and the new one, while `rest` is to come. -/
structure Follows (older fresh upgraded : Declared δ) (rest : List Ddl) : Prop where
  tables : ∀ t, upgraded.Has t ↔ older.Has t ∨ fresh.Has t
  kept : ∀ {t c d}, older.column t c = some d → upgraded.column t c = some d
  origin : ∀ {t c d}, upgraded.column t c = some d → older.column t c = some d ∨ fresh.column t c = some d
  pending : ∀ {t c d}, fresh.column t c = some d →
    upgraded.column t c ≠ none ∨ IsPlatform c ∨ firstAdded t c rest = some d

/-- The keys of the tables of both are columns of the older ones. -/
def KeepsKeys (older fresh : Declared δ) : Prop :=
  ∀ t c d, fresh.column t c = some d → d.primary = true → older.Has t → older.column t c ≠ none

variable {older fresh fresh' upgraded upgraded' : Declared δ}

theorem Follows.creates (h : Follows older fresh upgraded (.createTable table columns :: rest))
    (hcovered : CoveredTable table columns rest) (hf : fresh.Regular) (hu : upgraded.Regular)
    (hfresh : Creates table columns fresh fresh') (hupgraded : Creates table columns upgraded upgraded')
    (hkeys : KeepsKeys older fresh') : Follows older fresh' upgraded' rest := by
  have hkept : ∀ {t c d}, older.column t c = some d → upgraded'.column t c = some d :=
    fun hd => hupgraded.keeps hu.sound (h.kept hd)
  refine ⟨fun t => ?_, hkept, fun {t c d} hd => ?_, fun {t c d} hd => ?_⟩
  · rw [hupgraded.has, hfresh.has, h.tables]
    tauto
  · by_cases hold : t ≠ clip table ∨ upgraded.Has t
    · rw [hupgraded.kept t c hold] at hd
      exact (h.origin hd).imp_right (hfresh.keeps hf.sound)
    · obtain ⟨rfl, hnot⟩ : t = clip table ∧ ¬upgraded.Has t := by tauto
      rw [hupgraded.fresh hnot] at hd
      right
      rw [hfresh.fresh fun hyes => hnot ((h.tables _).2 (.inr hyes)), hd]
  · by_cases hold : t ≠ clip table ∨ fresh.Has t
    · rw [hfresh.kept t c hold] at hd
      refine (h.pending hd).imp_left fun hthere => ?_
      obtain ⟨d', hd'⟩ := Option.ne_none_iff_exists'.1 hthere
      rw [hupgraded.keeps hu.sound hd']
      exact Option.some_ne_none d'
    · obtain ⟨rfl, hnot⟩ : t = clip table ∧ ¬fresh.Has t := by tauto
      have hfind := hd
      rw [hfresh.fresh hnot] at hfind
      by_cases hthere : upgraded.Has (clip table)
      · have holder : older.Has (clip table) := ((h.tables _).1 hthere).resolve_right hnot
        rcases hcovered.added c d hfind with hprimary | hadded
        · obtain ⟨d', hd'⟩ := Option.ne_none_iff_exists'.1 (hkeys _ _ _ hd hprimary holder)
          left
          rw [hkept hd']
          exact Option.some_ne_none d'
        · exact .inr hadded
      · left
        rw [hupgraded.fresh hthere, hfind]
        exact Option.some_ne_none d

theorem Follows.adds (h : Follows older fresh upgraded (st :: rest)) (hu : upgraded.Regular)
    (hfresh : Adds st fresh fresh') (hupgraded : Adds st upgraded upgraded') : Follows older fresh' upgraded' rest := by
  have hcons : ∀ t c, firstAdded t c (st :: rest) = (st.addsTo t c).or (firstAdded t c rest) := by
    intro t c
    unfold firstAdded
    rw [List.findSome?_cons]
    cases st.addsTo t c <;> rfl
  refine ⟨fun t => ?_, fun hd => hupgraded.keeps (h.kept hd), fun {t c d} hd => ?_, fun {t c d} hd => ?_⟩
  · rw [hupgraded.has, hfresh.has, h.tables]
  · rw [hupgraded.column] at hd
    cases hold : upgraded.column t c with
    | some d' =>
      rw [hold, Option.some_or] at hd
      cases hd
      exact (h.origin hold).imp_right hfresh.keeps
    | none =>
      rw [hold, Option.none_or] at hd
      right
      rw [hfresh.column, hd]
      cases hnew : fresh.column t c with
      | none => rfl
      | some d' =>
        -- the new database has the column already: it is the one that this statement adds
        rcases h.pending hnew with hthere | hplatform | hadded
        · exact absurd hold hthere
        · obtain ⟨table, column, hst⟩ : ∃ table column, st.added? = some (table, column) := by
            cases hst : st.added? with
            | some added => exact ⟨added.1, added.2, rfl⟩
            | none =>
              rw [addsTo_of_none hst] at hd
              cases hd
          rw [addsTo_of_added hst] at hd
          split at hd
          · rename_i hand
            have hhas := hupgraded.found table column hst
            rw [hand.1] at hhas
            exact absurd hold (hu.platform t c hhas hplatform)
          · cases hd
        · rw [hcons, hd, Option.some_or] at hadded
          cases hadded
          rfl
  · rw [hfresh.column] at hd
    rw [hupgraded.column]
    cases hadded : st.addsTo t c with
    | some d' =>
      left
      cases upgraded.column t c with
      | none => exact Option.some_ne_none d'
      | some old => exact Option.some_ne_none old
    | none =>
      rw [hadded, Option.or_none] at hd
      rw [Option.or_none]
      have hpending := h.pending hd
      rwa [hcons, hadded, Option.none_or] at hpending

/-- The run of the same statements on both. -/
theorem Follows.run {new done : Declared δ} (hcovered : Covered statements) (hf : fresh.Regular) (hu : upgraded.Regular)
    (h : Follows older fresh upgraded statements) (hnew : server.declareAll fresh statements = some new)
    (hdone : server.declareAll upgraded statements = some done) (hkeys : KeepsKeys older new) :
    Follows older new done [] := by
  induction statements generalizing fresh upgraded with
  | nil =>
    cases hnew
    cases hdone
    exact h
  | cons st rest ih =>
    by_cases hst : ∃ table columns, st = .createTable table columns
    · obtain ⟨table, columns, rfl⟩ := hst
      obtain ⟨fresh', hcreates, hsound, hrest⟩ := run_creates hf.sound hcovered.1 hnew
      obtain ⟨upgraded', hcreates', hsound', hrest'⟩ := run_creates hu.sound hcovered.1 hdone
      have hregular := hcreates.regular hcovered.1 hsound hf
      have hkeys' : KeepsKeys older fresh' :=
        fun t c d hd => hkeys t c d (run_column hcovered.2 hregular hrest hd)
      exact ih hcovered.2 hregular (hcreates'.regular hcovered.1 hsound' hu)
        (h.creates hcovered.1 hf hu hcreates hcreates' hkeys') hrest hrest'
    · have hno : ∀ table columns, st ≠ .createTable table columns := fun table columns heq => hst ⟨table, columns, heq⟩
      obtain ⟨fresh', hadds, hrest⟩ := run_adds hno hnew
      obtain ⟨upgraded', hadds', hrest'⟩ := run_adds hno hdone
      exact ih hcovered.tail (hadds.regular hf) (hadds'.regular hu) (h.adds hu hadds hadds') hrest hrest'

/-! ## The statements of a schema -/

theorem covered_append {l : List Ddl} (hl : ∀ st ∈ l, ∀ table columns, st ≠ .createTable table columns)
    (h : Covered rest) : Covered (l ++ rest) := by
  induction l with
  | nil => exact h
  | cons st l ih =>
    have htail := ih fun st hst => hl st (List.mem_cons_of_mem _ hst)
    cases st with
    | createTable table columns => exact absurd rfl (hl _ List.mem_cons_self table columns)
    | addColumn | requireColumn | createIndex | addConstraint => exact htail

variable {cc : CharCase}

theorem forwardField_added (cc : CharCase) (table : String) (field : Field) :
    (forwardField cc table field).added? = some (table, fieldColumn cc field) := by
  unfold forwardField
  split <;> rfl

theorem find?_column_cons (first : ColumnDef) (columns : List ColumnDef) (c : Name) :
    (first :: columns).find? (fun d => decide (clip d.name = c)) =
      if clip first.name = c then some first else columns.find? fun d => decide (clip d.name = c) := by
  rw [List.find?_cons]
  by_cases hname : clip first.name = c
  · rw [if_pos hname, decide_eq_true hname]
  · rw [if_neg hname, decide_eq_false hname]

/-- The columns of the fields are those that the statements after the table add, keys apart. -/
theorem firstAdded_fields (table : String) (fields : List (String × Field)) (more : List Ddl) {c : Name} {d : ColumnDef}
    (h : (fields.map fun (_, field) => declaredColumn cc field).find? (fun d => decide (clip d.name = c)) = some d) :
    d.primary = true ∨
      firstAdded (clip table) c
        (((fields.filter fun (_, field) => !isPrimary field).map fun (_, field) => forwardField cc table field) ++ more) =
        some d := by
  induction fields with
  | nil => cases h
  | cons entry fields ih =>
    obtain ⟨key, field⟩ := entry
    rw [List.map_cons] at h
    cases hprimary : isPrimary field with
    | true =>
      have hcolumn : (declaredColumn cc field).primary = true := by
        unfold declaredColumn
        rw [if_pos hprimary]
      rw [List.filter_cons_of_neg (by simpa using hprimary)]
      by_cases hname : clip (declaredColumn cc field).name = c
      · rw [find?_column_cons, if_pos hname] at h
        cases h
        exact .inl hcolumn
      · rw [find?_column_cons, if_neg hname] at h
        exact ih h
    | false =>
      have hcolumn : declaredColumn cc field = fieldColumn cc field := by
        unfold declaredColumn
        rw [if_neg (by simpa using hprimary)]
      rw [List.filter_cons_of_pos (by simpa using hprimary), List.map_cons, List.cons_append]
      unfold firstAdded
      rw [List.findSome?_cons, addsTo_of_added (forwardField_added cc table field), ← hcolumn]
      by_cases hname : clip (declaredColumn cc field).name = c
      · rw [find?_column_cons, if_pos hname] at h
        cases h
        rw [if_pos ⟨rfl, hname⟩]
        exact .inr rfl
      · rw [find?_column_cons, if_neg hname] at h
        rw [if_neg fun hand => hname hand.2]
        exact ih h

theorem coveredTable_model (model : Model) (rest : List Ddl) :
    CoveredTable (tableName cc model) (tableColumns cc model) ((modelStatements cc model).tail ++ rest) := by
  refine ⟨?_, fun c hc => ?_, fun c d hfind => ?_⟩
  · unfold modelStatements
    simp only [List.cons_append, List.tail_cons, List.append_assoc]
    cases model.fields.filter (fun (_, field) => !isPrimary field) with
    | nil => exact ⟨_, _, _, rfl, rfl⟩
    | cons entry fields => exact ⟨_, _, _, rfl, forwardField_added _ _ _⟩
  · obtain ⟨p, hp, rfl⟩ := hc
    unfold tableColumns
    by_cases hdeclared : p.name ∈ (model.fields.map fun (_, field) => declaredColumn cc field).map ColumnDef.name
    · obtain ⟨d, hd, hname⟩ := List.mem_map.1 hdeclared
      exact ⟨d, List.mem_append_left _ hd, by rw [hname]⟩
    · exact ⟨p, List.mem_append_right _ (List.mem_filter.2 ⟨hp, by simpa using hdeclared⟩), rfl⟩
  · unfold tableColumns at hfind
    rw [List.find?_append, Option.or_eq_some_iff] at hfind
    rcases hfind with hdeclared | ⟨-, hplatform⟩
    · unfold modelStatements
      simp only [List.cons_append, List.tail_cons, List.append_assoc]
      exact (firstAdded_fields (tableName cc model) model.fields _ hdeclared).imp_right .inr
    · have hmem := List.mem_filter.1 (List.mem_of_find?_eq_some hplatform)
      have hname : clip d.name = c := by simpa using List.find?_some hplatform
      exact .inr (.inl ⟨d, hmem.1, hname.symm⟩)

theorem ne_createTable_of_mem_tail {model : Model} (hst : st ∈ (modelStatements cc model).tail) (table : String)
    (columns : List ColumnDef) : st ≠ .createTable table columns := by
  rintro rfl
  unfold modelStatements at hst
  simp only [List.cons_append, List.tail_cons, List.mem_append, List.mem_map, List.mem_cons, List.not_mem_nil,
    List.mem_mapIdx] at hst
  obtain (((⟨⟨key, field⟩, -, hfield⟩ | hst | hst | hst) | ⟨col, -, hcol⟩) | ⟨col, -, hcol⟩) | ⟨n, hn, hconstraint⟩ := hst
  · have hadded := forwardField_added cc (tableName cc model) field
    dsimp only at hfield
    rw [hfield] at hadded
    cases hadded
  · cases hst
  · cases hst
  · cases hst
  · cases hcol
  · cases hcol
  · cases hat : model.constraints[n] <;> rw [hat] at hconstraint <;> cases hconstraint

theorem covered_model (model : Model) (h : Covered rest) : Covered (modelStatements cc model ++ rest) :=
  ⟨coveredTable_model model rest, covered_append (fun _ hst => ne_createTable_of_mem_tail hst) h⟩

theorem covered_models (models : List (String × Model)) (h : Covered rest) :
    Covered ((models.flatMap fun (_, model) => modelStatements cc model) ++ rest) := by
  induction models with
  | nil => exact h
  | cons entry models ih =>
    rw [List.flatMap_cons, List.append_assoc]
    exact covered_model entry.2 ih

/-- The constraints stand behind the tables. -/
theorem covered_constraints (cc : CharCase) (schema : Schema) :
    Covered ((schema.models.flatMap fun (_, model) => foreignKeyStatements cc schema model) ++
      (schema.models.flatMap fun (_, model) => validationStatements cc model)) := by
  rw [← List.append_nil (schema.models.flatMap fun (_, model) => validationStatements cc model)]
  refine covered_append ?_ (covered_append ?_ trivial)
  · intro st hst table columns heq
    subst heq
    obtain ⟨⟨key, model⟩, -, hst⟩ := List.mem_flatMap.1 hst
    obtain ⟨⟨relName, rel⟩, -, hst⟩ := List.mem_filterMap.1 hst
    obtain ⟨⟨fkCol, target⟩, -, hst⟩ := Option.map_eq_some_iff.1 hst
    cases hst
  · intro st hst table columns heq
    subst heq
    obtain ⟨⟨key, model⟩, -, hst⟩ := List.mem_flatMap.1 hst
    obtain ⟨⟨fieldName, rules⟩, -, hst⟩ := List.mem_flatMap.1 hst
    dsimp only at hst
    split at hst
    · cases hst
    · obtain ⟨c, -, hst⟩ := List.mem_map.1 hst
      cases hst

theorem covered_generateMigrations (cc : CharCase) (schema : Schema) : Covered (generateMigrations cc schema) := by
  unfold generateMigrations
  rw [List.append_assoc]
  exact covered_models schema.models (covered_constraints cc schema)

/-! ## Inserts -/

theorem lookup_ne_none {ins : Insert V} {c : Name} (h : c ∈ ins.map Prod.fst) : ins.lookup c ≠ none := by
  obtain ⟨entry, hentry, rfl⟩ := List.mem_map.1 h
  intro hnone
  have hne := List.lookup_eq_none_iff.1 hnone entry hentry
  simp at hne

variable {r : Reading} {ins : Insert V} {c : Name} {d d' : ColumnDef}

theorem stored_eq (htype : d.type = d'.type) (hdefault : r.default d ≠ r.default d' → c ∈ ins.map Prod.fst) :
    r.stored ins c d = r.stored ins c d' := by
  unfold Reading.stored
  rw [htype]
  cases hlookup : ins.lookup c with
  | some value => cases value <;> rfl
  | none =>
    have hsame : r.default d = r.default d' := by
      by_contra hne
      exact lookup_ne_none (hdefault hne) hlookup
    rw [hsame]

theorem stored_ne_null (h : r.stored ins c d' ≠ .null) (hdefault : r.default d ≠ r.default d' → c ∈ ins.map Prod.fst) :
    r.stored ins c d ≠ .null := by
  unfold Reading.stored at h ⊢
  cases hlookup : ins.lookup c with
  | some value =>
    rw [hlookup] at h
    cases value with
    | some v => nofun
    | none => exact h
  | none =>
    have hsame : r.default d = r.default d' := by
      by_contra hne
      exact lookup_ne_none (hdefault hne) hlookup
    rw [hlookup, ← hsame] at h
    cases hd : r.default d with
    | none =>
      rw [hd] at h
      exact absurd rfl h
    | some e =>
      rw [hd] at h
      dsimp only at h ⊢
      split
      · rename_i hnull
        rw [if_pos hnull] at h
        exact h
      · nofun

/-- Where the columns of the older table are in the way of a row that the new one takes, the `INSERT` is not of it. -/
structure Reading.Fits (r : Reading) (older fresh : Name → Option ColumnDef) (ins : Insert V) : Prop where
  /-- A column that was required has a value. -/
  required : ∀ c d d', older c = some d → fresh c = some d' → r.notNull d = true → r.notNull d' = false →
    ∃ v, ins.lookup c = some (some v)
  /-- A column with another default is listed. -/
  defaulted : ∀ c d d', older c = some d → fresh c = some d' → r.default d ≠ r.default d' → c ∈ ins.map Prod.fst
  /-- A column that the schema has no more can be left out. -/
  left : ∀ c d, older c = some d → fresh c = none → r.notNull d = true → ∃ e, r.default d = some e ∧ r.isNull e = false

theorem Reading.Fits.accepts {older fresh upgraded : Name → Option ColumnDef} (hfits : r.Fits older fresh ins)
    (hthere : ∀ c, fresh c ≠ none → upgraded c ≠ none)
    (horigin : ∀ c d, upgraded c = some d → older c = some d ∨ fresh c = some d) (h : r.Accepts fresh ins) :
    r.Accepts upgraded ins := by
  refine ⟨fun c hc => hthere c (h.1 c hc), fun c d hd hnotNull => ?_⟩
  rcases horigin c d hd with holder | hfresh
  · cases hnew : fresh c with
    | some d' =>
      cases hrequired : r.notNull d' with
      | true => exact stored_ne_null (h.2 c d' hnew hrequired) (hfits.defaulted c d d' holder hnew)
      | false =>
        obtain ⟨v, hv⟩ := hfits.required c d d' holder hnew hnotNull hrequired
        unfold Reading.stored
        rw [hv]
        nofun
    | none =>
      obtain ⟨e, he, hnull⟩ := hfits.left c d holder hnew hnotNull
      have hlookup : ins.lookup c = none := by
        rw [List.lookup_eq_none_iff]
        intro entry hentry
        have hne : c ≠ entry.1 := by
          rintro rfl
          exact h.1 entry.1 (List.mem_map_of_mem hentry) hnew
        simpa using hne
      unfold Reading.stored
      rw [hlookup, he]
      simp [hnull]
  · exact h.2 c d hfresh hnotNull

/-- The database after other rows were written. -/
def Declared.withData (s : Declared δ) (data : δ) : Declared δ :=
  { s with db := { s.db with data } }

theorem empty_regular (data : δ) : (Declared.empty data).Regular where
  sound := { named := fun _ ht => absurd ht List.not_mem_nil, none := fun _ _ => rfl }
  platform _ _ ht := absurd rfl ht

/-- An upgraded table takes what a new one takes and stores the same, where the two do not declare a column otherwise. -/
theorem upgraded_serves (cc : CharCase) (server : Server δ) (r : Reading) {schema next : Schema} {data data' data'' : δ}
    {older upgraded fresh : Declared δ}
    (holder : server.declareAll (.empty data) (generateMigrations cc schema) = some older)
    (hupgraded : server.declareAll (older.withData data') (generateMigrations cc next) = some upgraded)
    (hfresh : server.declareAll (.empty data'') (generateMigrations cc next) = some fresh)
    (hkeys : KeepsKeys older fresh) :
    (∀ name model key field, (name, model) ∈ next.models → (key, field) ∈ model.fields → isPrimary field = false →
      upgraded.column (clip (tableName cc model)) (clip (toSnakeCase cc field.name)) ≠ none) ∧
      ∀ t, (∀ c, fresh.column t c ≠ none → upgraded.column t c ≠ none) ∧
        ∀ ins : Insert V, r.Fits (older.column t) (fresh.column t) ins → r.Accepts (fresh.column t) ins →
          r.Accepts (upgraded.column t) ins ∧
            ∀ c d, fresh.column t c = some d → (∀ d', older.column t c = some d' → d'.type = d.type) →
              ∃ d', upgraded.column t c = some d' ∧ r.stored ins c d' = r.stored ins c d := by
  have hregular := run_regular (covered_generateMigrations cc schema) (empty_regular data) holder
  have hwritten : (older.withData data').Regular := ⟨⟨hregular.sound.named, hregular.sound.none⟩, hregular.platform⟩
  have hcovered := covered_generateMigrations cc next
  have hdone := run_regular hcovered hwritten hupgraded
  have hnew := run_regular hcovered (empty_regular data'') hfresh
  have hstart : Follows older (.empty data'') (older.withData data') (generateMigrations cc next) := by
    refine ⟨fun t => ⟨.inl, ?_⟩, fun hd => hd, .inl, fun hd => ?_⟩
    · rintro (ht | ht)
      · exact ht
      · exact absurd rfl ht
    · cases hd
  have hfollows := hstart.run hcovered (empty_regular data'') hwritten hfresh hupgraded hkeys
  have hthere : ∀ t c, fresh.column t c ≠ none → upgraded.column t c ≠ none := by
    intro t c hc
    obtain ⟨d, hd⟩ := Option.ne_none_iff_exists'.1 hc
    rcases hfollows.pending hd with hthere | hplatform | hadded
    · exact hthere
    · exact hdone.platform t c ((hfollows.tables t).2 (.inr (hnew.sound.has hd))) hplatform
    · cases hadded
  refine ⟨fun name model key field hmodel hfield hprimary => ?_, fun t => ⟨hthere t, fun ins hfits haccepts => ⟨?_, ?_⟩⟩⟩
  · have hst : forwardField cc (tableName cc model) field ∈ generateMigrations cc next := by
      unfold generateMigrations
      refine List.mem_append_left _ (List.mem_append_left _ (List.mem_flatMap.2 ⟨_, hmodel, ?_⟩))
      unfold modelStatements
      simp only [List.mem_append, List.mem_cons, List.mem_map, List.mem_filter]
      exact .inl (.inl (.inl (.inl (.inr ⟨_, ⟨hfield, by simpa using hprimary⟩, rfl⟩))))
    refine run_added hcovered hwritten hupgraded hst ?_
    have hsame : clip (tableName cc model) = clip (tableName cc model) ∧
        clip (fieldColumn cc field).name = clip (toSnakeCase cc field.name) := ⟨rfl, rfl⟩
    rw [addsTo_of_added (forwardField_added _ _ _), if_pos hsame]
    exact Option.some_ne_none _
  · exact hfits.accepts (hthere t) (fun c d hd => hfollows.origin hd) haccepts
  · intro c d hd htype
    obtain ⟨d', hd'⟩ := Option.ne_none_iff_exists'.1 (hthere t c (by rw [hd]; exact Option.some_ne_none d))
    refine ⟨d', hd', ?_⟩
    rcases hfollows.origin hd' with hold | hfresh'
    · exact stored_eq (htype d' hold) (hfits.defaulted c d' d hold hd)
    · cases hd.symm.trans hfresh'
      rfl

/-! ## A title that is no more -/

/-- The clauses of a column as the statements write them. -/
def Reading.ofClauses : Reading where
  notNull d := d.primary || " NOT NULL".toList.isPrefixOf d.clauses.toList || " NOT NULL".toList.isSuffixOf d.clauses.toList
  default d :=
    let start := if d.primary then " PRIMARY KEY" else " NOT NULL"
    let clauses := (d.clauses.toList.dropPrefix? start.toList).getD d.clauses.toList
    (clauses.dropPrefix? " DEFAULT ".toList).map fun expr => .ofList ((expr.dropSuffix? " NOT NULL".toList).getD expr)
  isNull e := e = "NULL"

def Stored.isNull : Stored V → Bool
  | .null => true
  | .given _ _ | .default _ _ => false

/-- `Accepts` by the list of the columns. -/
def Reading.takes (r : Reading) (columns : List ColumnDef) (ins : Insert V) : Bool :=
  (ins.all fun entry => columns.any fun d => clip d.name = entry.1) &&
    columns.all fun d => !r.notNull d || !(r.stored ins (clip d.name) d).isNull

theorem column_eq_some {t c : Name} {d : ColumnDef} (h : s.column t c = some d) : d ∈ s.defs t ∧ clip d.name = c :=
  ⟨List.mem_of_find?_eq_some h, by simpa using List.find?_some h⟩

theorem accepts_of_takes {t : Name} (h : r.takes (s.defs t) ins = true) : r.Accepts (s.column t) ins := by
  obtain ⟨hlisted, hrequired⟩ := Bool.and_eq_true_iff.1 h
  refine ⟨fun c hc hnone => ?_, fun c d hd hnotNull hnull => ?_⟩
  · obtain ⟨entry, hentry, rfl⟩ := List.mem_map.1 hc
    obtain ⟨d, hd, hname⟩ := List.any_eq_true.1 (List.all_eq_true.1 hlisted entry hentry)
    exact List.find?_eq_none.1 hnone d hd hname
  · obtain ⟨hmem, rfl⟩ := column_eq_some hd
    have hcolumn := List.all_eq_true.1 hrequired d hmem
    rw [hnotNull, hnull] at hcolumn
    cases hcolumn

/-- `Fits` by the lists of the columns. -/
def Reading.fitsLists (r : Reading) (older fresh : List ColumnDef) (ins : Insert V) : Bool :=
  older.all fun d =>
    (fresh.all fun d' =>
      clip d.name ≠ clip d'.name ||
        ((!r.notNull d || r.notNull d' || (ins.lookup (clip d.name)).any Option.isSome) &&
          (r.default d = r.default d' || (ins.lookup (clip d.name)).isSome))) &&
      ((fresh.any fun d' => clip d'.name = clip d.name) || !r.notNull d || (r.default d).any fun e => !r.isNull e)

theorem fits_of_fitsLists {t : Name} (h : r.fitsLists (older.defs t) (fresh.defs t) ins = true) :
    r.Fits (older.column t) (fresh.column t) ins := by
  have hcommon : ∀ {c d d'}, older.column t c = some d → fresh.column t c = some d' →
      (r.notNull d = true → r.notNull d' = false → ∃ v, ins.lookup c = some (some v)) ∧
        (r.default d = r.default d' ∨ (ins.lookup c).isSome) := by
    intro c d d' hd hd'
    obtain ⟨hmem, rfl⟩ := column_eq_some hd
    obtain ⟨hmem', hname⟩ := column_eq_some hd'
    have hpair := List.all_eq_true.1 (Bool.and_eq_true_iff.1 (List.all_eq_true.1 h d hmem)).1 d' hmem'
    simp only [hname, ne_eq, not_true_eq_false, decide_false, Bool.false_or, Bool.and_eq_true, Bool.or_eq_true,
      decide_eq_true_eq, Bool.not_eq_true'] at hpair
    refine ⟨fun hrequired hoptional => ?_, hpair.2⟩
    rw [hrequired, hoptional] at hpair
    obtain ⟨value, hvalue, hsome⟩ := (Option.any_eq_true _ _).1 (hpair.1.resolve_left (by simp))
    obtain ⟨v, rfl⟩ := Option.isSome_iff_exists.1 hsome
    exact ⟨v, hvalue⟩
  refine ⟨fun c d d' hd hd' => (hcommon hd hd').1, fun c d d' hd hd' hne => ?_, fun c d hd hnone hrequired => ?_⟩
  · obtain ⟨value, hvalue⟩ := Option.isSome_iff_exists.1 ((hcommon hd hd').2.resolve_left hne)
    obtain ⟨before, after, rfl, -⟩ := List.lookup_eq_some_iff.1 hvalue
    simp
  · obtain ⟨hmem, rfl⟩ := column_eq_some hd
    have hleft := (Bool.and_eq_true_iff.1 (List.all_eq_true.1 h d hmem)).2
    have hgone : ((fresh.defs t).any fun d' => clip d'.name = clip d.name) = false := by
      rw [List.any_eq_false]
      exact List.find?_eq_none.1 hnone
    rw [hgone, hrequired, Bool.not_true, Bool.or_false, Bool.false_or] at hleft
    obtain ⟨e, he, hnull⟩ := (Option.any_eq_true _ _).1 hleft
    exact ⟨e, he, by simpa using hnull⟩

/-- The keys as the tables of the new database list them. -/
def Declared.keepsKeys (older fresh : Declared δ) : Bool :=
  fresh.db.tables.all fun info =>
    (fresh.defs info.name).all fun d => !d.primary || (older.column info.name (clip d.name)).isSome

theorem keepsKeys_of_lists (hsound : fresh.Sound) (h : older.keepsKeys fresh = true) : KeepsKeys older fresh := by
  intro t c d hd hprimary _ hnone
  obtain ⟨info, hinfo, rfl⟩ := mem_of_has (hsound.has hd)
  obtain ⟨hmem, rfl⟩ := column_eq_some hd
  have hkept := List.all_eq_true.1 (List.all_eq_true.1 h info hinfo) d hmem
  rw [hprimary, hnone] at hkept
  cases hkept

/-- Notes with these fields, all strings. -/
def noteSchema (fields : List (String × Bool)) : Schema where
  models := [("Note", {
    name := "Note"
    tableName := some "notes"
    fields := fields.map fun (name, optional) => (name, { name, fieldType := .string, optional }) })]

/-- A body is added, and the title is required no more: a note with a title is still taken. -/
theorem upgraded_notes : ∃ older upgraded fresh : Declared Unit,
    Server.plain.declareAll (.empty ()) (generateMigrations .ascii (noteSchema [("id", false), ("title", false)])) =
        some older ∧
      Server.plain.declareAll (older.withData ())
        (generateMigrations .ascii (noteSchema [("id", false), ("title", true), ("body", true)])) = some upgraded ∧
      Server.plain.declareAll (.empty ())
        (generateMigrations .ascii (noteSchema [("id", false), ("title", true), ("body", true)])) = some fresh ∧
      upgraded.column (clip "notes") (clip "body") ≠ none ∧
      Reading.ofClauses.Accepts (upgraded.column (clip "notes")) [(clip "title", some "A title")] := by
  have hupgrades : ((Server.plain.declareAll (.empty ())
      (generateMigrations .ascii (noteSchema [("id", false), ("title", false)]))).bind fun older =>
        Server.plain.declareAll (older.withData ())
          (generateMigrations .ascii (noteSchema [("id", false), ("title", true), ("body", true)]))).isSome = true := by
    decide
  obtain ⟨upgraded, hupgrades⟩ := Option.isSome_iff_exists.1 hupgrades
  obtain ⟨older, holder, hupgraded⟩ := Option.bind_eq_some_iff.1 hupgrades
  have hchecks : (Server.plain.declareAll (.empty ())
      (generateMigrations .ascii (noteSchema [("id", false), ("title", true), ("body", true)]))).any (fun fresh =>
        (Server.plain.declareAll (.empty ())
          (generateMigrations .ascii (noteSchema [("id", false), ("title", false)]))).any fun older =>
            older.keepsKeys fresh &&
              Reading.ofClauses.takes (fresh.defs (clip "notes")) [(clip "title", some "A title")] &&
              Reading.ofClauses.fitsLists (older.defs (clip "notes")) (fresh.defs (clip "notes"))
                [(clip "title", some "A title")]) = true := by
    decide +kernel
  obtain ⟨fresh, hfresh, hchecks⟩ := (Option.any_eq_true _ _).1 hchecks
  rw [holder, Option.any_some, Bool.and_eq_true_iff, Bool.and_eq_true_iff] at hchecks
  obtain ⟨⟨hkeys, htakes⟩, hfits⟩ := hchecks
  have hsound := (run_regular (covered_generateMigrations _ _) (empty_regular ()) hfresh).sound
  obtain ⟨hfields, hserves⟩ := upgraded_serves .ascii .plain Reading.ofClauses (V := String) holder hupgraded hfresh
    (keepsKeys_of_lists hsound hkeys)
  have hbody := hfields "Note" _ "body" { name := "body", fieldType := .string, optional := true } List.mem_cons_self
    (by decide) (by decide)
  refine ⟨older, upgraded, fresh, holder, hupgraded, hfresh, hbody, ?_⟩
  exact ((hserves (clip "notes")).2 _ (fits_of_fitsLists hfits) (accepts_of_takes htakes)).1

/-- A required title is taken out of the schema: a new database takes a note without one, an upgraded one does not. -/
theorem removed_field_refused : ∃ older upgraded fresh : Declared Unit,
    Server.plain.declareAll (.empty ()) (generateMigrations .ascii (noteSchema [("id", false), ("title", false)])) =
        some older ∧
      Server.plain.declareAll (older.withData ()) (generateMigrations .ascii (noteSchema [("id", false)])) =
        some upgraded ∧
      Server.plain.declareAll (.empty ()) (generateMigrations .ascii (noteSchema [("id", false)])) = some fresh ∧
      Reading.ofClauses.Accepts (fresh.column (clip "notes")) [(clip "id", some "n1")] ∧
      ¬Reading.ofClauses.Accepts (upgraded.column (clip "notes")) [(clip "id", some "n1")] := by
  have hupgrades : ((Server.plain.declareAll (.empty ())
      (generateMigrations .ascii (noteSchema [("id", false), ("title", false)]))).bind fun older =>
        Server.plain.declareAll (older.withData ()) (generateMigrations .ascii (noteSchema [("id", false)]))).bind
          (fun upgraded => upgraded.column (clip "notes") (clip "title")) =
      some { name := "title", type := "TEXT", clauses := " NOT NULL" } := by
    decide
  obtain ⟨upgraded, hupgrades, htitle⟩ := Option.bind_eq_some_iff.1 hupgrades
  obtain ⟨older, holder, hupgraded⟩ := Option.bind_eq_some_iff.1 hupgrades
  have htakes : (Server.plain.declareAll (.empty ()) (generateMigrations .ascii (noteSchema [("id", false)]))).any
      (fun fresh => Reading.ofClauses.takes (fresh.defs (clip "notes")) [(clip "id", some "n1")]) = true := by
    decide
  obtain ⟨fresh, hfresh, htakes⟩ := (Option.any_eq_true _ _).1 htakes
  refine ⟨older, upgraded, fresh, holder, hupgraded, hfresh, accepts_of_takes htakes, fun haccepts => ?_⟩
  have hnull : (Reading.ofClauses.stored [(clip "id", some "n1")] (clip "title")
      { name := "title", type := "TEXT", clauses := " NOT NULL" }).isNull = true := by
    decide
  have hstored := haccepts.2 _ _ htitle (by decide)
  generalize Reading.ofClauses.stored [(clip "id", some "n1")] (clip "title")
    { name := "title", type := "TEXT", clauses := " NOT NULL" } = held at hnull hstored
  cases held with
  | null => exact hstored rfl
  | given type v => cases hnull
  | default type expr => cases hnull

end Atomo.Migrations

import Atomo.Migrations.Statements
import Mathlib.Data.String.Basic

/-!
# The catalog of the server

What the server does with the statements of the migrations: the tables, indexes and constraints that it
records, under which names. An identifier is cut to 63 bytes. What it decides by the rows, the types and
the expressions is a parameter (`Server`); the names are not.
-/

namespace Atomo.Migrations

/-! ## Names -/

def nameBytes : Nat :=
  63

/-- The longest start of a text that fits, without a part of a character. -/
def clipChars (budget : Nat) : List Char → List Char
  | [] => []
  | c :: l => if c.utf8Size ≤ budget then c :: clipChars (budget - c.utf8Size) l else []

theorem utf8Len_clipChars (budget : Nat) (l : List Char) : String.utf8Len (clipChars budget l) ≤ budget := by
  induction l generalizing budget with
  | nil => exact Nat.zero_le _
  | cons c l ih =>
    unfold clipChars
    split
    · rename_i hfits
      have hrest := ih (budget - c.utf8Size)
      rw [String.utf8Len_cons]
      omega
    · exact Nat.zero_le _

theorem clipChars_eq {budget : Nat} {l : List Char} (h : String.utf8Len l ≤ budget) : clipChars budget l = l := by
  induction l generalizing budget with
  | nil => rfl
  | cons c l ih =>
    rw [String.utf8Len_cons] at h
    unfold clipChars
    rw [if_pos (by omega), ih (by omega)]

/-- A name as the catalog holds it. -/
structure Name where
  text : String
  short : text.utf8ByteSize ≤ nameBytes
  deriving DecidableEq

theorem utf8ByteSize_clip (s : String) :
    (String.ofList (clipChars nameBytes s.toList)).utf8ByteSize ≤ nameBytes := by
  rw [String.utf8ByteSize_ofList]
  exact utf8Len_clipChars _ _

/-- The name that an identifier is cut to. -/
def clip (s : String) : Name :=
  ⟨.ofList (clipChars nameBytes s.toList), utf8ByteSize_clip s⟩

theorem clip_text {s : String} (h : s.utf8ByteSize ≤ nameBytes) : (clip s).text = s := by
  have hlen : String.utf8Len s.toList ≤ nameBytes := by rwa [String.utf8Len_toList]
  have htext : (clip s).text = .ofList (clipChars nameBytes s.toList) := rfl
  rw [htext, clipChars_eq hlen, String.ofList_toList]

/-! ## The catalog -/

structure TableInfo where
  name : Name
  columns : List Name
  deriving DecidableEq

/-- The columns of a table, if there is one of the name. -/
def columnsOf (tables : List TableInfo) (name : String) : Option (List Name) :=
  (tables.find? (·.name.text = name)).map (·.columns)

structure IndexInfo where
  table : Name
  unique : Bool
  columns : List Name
  predicate : Option String
  deriving DecidableEq

/-- What a constraint requires. -/
inductive Requirement where
  | key (columns : List Name)
  | foreignKey (column target : Name)
  | check (expr : String)
  deriving DecidableEq

structure ConstraintInfo where
  name : Name
  table : Name
  requirement : Requirement
  deriving DecidableEq

/-- The names in use: those of the relations of the schema, and those of the constraints of the database,
whatever they belong to. -/
structure Names where
  relations : List Name
  constraints : List Name
  deriving DecidableEq

/-- A database; `data` is what its tables hold. -/
structure Database (δ : Type) where
  names : Names
  tables : List TableInfo
  indexes : List IndexInfo
  constraints : List ConstraintInfo
  data : δ
  deriving DecidableEq

namespace Database

variable {δ : Type} (db : Database δ)

/-- `ALTER TABLE … ADD COLUMN`. -/
def withColumn (table column : Name) (data : δ) : Database δ :=
  { db with
    tables := db.tables.map fun t => if t.name = table then { t with columns := t.columns ++ [column] } else t
    data }

def hasConstraint (table name : Name) : Bool :=
  db.constraints.any fun c => c.table = table ∧ c.name = name

end Database

/-- Every table of the first list is one of the second, which may give it more columns. -/
def Widens (ts us : List TableInfo) : Prop :=
  ∀ name columns, columnsOf ts name = some columns → ∃ more, columnsOf us name = some more ∧ columns ⊆ more

/-- What the server decides by more than the names. -/
structure Server (δ : Type) where
  /-- A literal is cut like an identifier where it is compared with a name. -/
  cutsLiterals : Bool
  /-- The name that the key of a new table gets, by those in use. -/
  keyName : Names → Name → Name
  /-- The statement is right in itself: its syntax and, for an index, its predicate. -/
  sound : List TableInfo → Ddl → Bool
  /-- New tables and columns leave a statement as right as it was. -/
  sound_widens : ∀ {ts us st}, Widens ts us → sound ts st = true → sound us st = true
  sound_same : ∀ {ts st st'}, st.Same st' → sound ts st = true → sound ts st' = true
  /-- The change is compatible with types, defaults, expressions and rows. -/
  admits : Database δ → Ddl → Bool
  populated : δ → Name → Bool
  /-- The rows after a column was added. -/
  fill : Ddl → δ → δ

variable {δ : Type} (server : Server δ)

/-- What a literal stands for where it is compared with a name. -/
def Server.literal (s : String) : String :=
  if server.cutsLiterals then (clip s).text else s

/-- `name` is compared with each of these. -/
def Server.finds (name : String) (names : List Name) : Bool :=
  names.any (·.text = server.literal name)

/-- The primary keys that a `CREATE TABLE` declares. -/
def keyColumns (columns : List ColumnDef) : List Name :=
  (columns.filter (·.primary)).map fun c => clip c.name

def ConstraintBody.requirement : ConstraintBody → Requirement
  | .foreignKey column target => .foreignKey (clip column) (clip target)
  | .check expr => .check expr

/-- The names in use after a statement that succeeds. -/
def Server.namesAfter (names : Names) : Ddl → Names
  | .createTable table columns =>
    if clip table ∈ names.relations then names
    else
      let keys := (keyColumns columns).map fun _ => server.keyName names (clip table)
      { relations := names.relations ++ clip table :: keys, constraints := names.constraints ++ keys }
  | .createIndex _ name _ _ _ =>
    if clip name ∈ names.relations then names else { names with relations := names.relations ++ [clip name] }
  | .addConstraint name _ _ =>
    if server.finds name names.constraints then names
    else { names with constraints := names.constraints ++ [clip name] }
  | .addColumn _ _ | .requireColumn _ _ => names

/-- The indexes that a statement makes, those of the keys included. -/
def Names.madeIndexes (names : Names) : Ddl → List IndexInfo
  | .createTable table columns =>
    if clip table ∈ names.relations then []
    else (keyColumns columns).map fun c => { table := clip table, unique := true, columns := [c], predicate := none }
  | .createIndex unique name table columns predicate =>
    if clip name ∈ names.relations then []
    else [{ table := clip table, unique := unique, columns := columns.map clip, predicate := predicate }]
  | .addConstraint _ _ _ | .addColumn _ _ | .requireColumn _ _ => []

/-- The constraints that a statement makes. -/
def Server.madeConstraints (names : Names) : Ddl → List ConstraintInfo
  | .createTable table columns =>
    if clip table ∈ names.relations then []
    else
      (keyColumns columns).map fun c =>
        { name := server.keyName names (clip table), table := clip table, requirement := .key [c] }
  | .addConstraint name table body =>
    if server.finds name names.constraints then []
    else [{ name := clip name, table := clip table, requirement := body.requirement }]
  | .createIndex _ _ _ _ _ | .addColumn _ _ | .requireColumn _ _ => []

/-- The database with what a statement makes. -/
def Server.after (db : Database δ) (st : Ddl) : Database δ :=
  { db with
    names := server.namesAfter db.names st
    indexes := db.indexes ++ db.names.madeIndexes st
    constraints := db.constraints ++ server.madeConstraints db.names st }

/-- The database after a statement; none if the statement fails. -/
def Server.exec (db : Database δ) (st : Ddl) : Option (Database δ) :=
  if server.sound db.tables st = false then none
  else
    match st with
    | .createTable table columns =>
      if clip table ∈ db.names.relations then some db
      else if server.admits db st then
        some { server.after db st with
          tables := db.tables ++ [{ name := clip table, columns := columns.map fun c => clip c.name }] }
      else none
    | .addColumn table column =>
      match columnsOf db.tables (clip table).text with
      | none => none
      | some columns =>
        if clip column.name ∈ columns then some db
        else if server.admits db st then some (db.withColumn (clip table) (clip column.name) (server.fill st db.data))
        else none
    | .requireColumn table column =>
      -- the guard looks for literals, the statements that follow name identifiers
      if (columnsOf db.tables (server.literal table)).any (server.finds column.name) then some db
      else
        match columnsOf db.tables (clip table).text with
        | none => none
        | some columns =>
          if server.populated db.data (clip table) ∨ clip column.name ∈ columns then none
          else if server.admits db st then
            some (db.withColumn (clip table) (clip column.name) (server.fill st db.data))
          else none
    | .createIndex _ name table columns _ =>
      match columnsOf db.tables (clip table).text with
      | none => none
      | some held =>
        if ∃ c ∈ columns, clip c ∉ held then none
        else if clip name ∈ db.names.relations then some db
        else if server.admits db st then some (server.after db st)
        else none
    | .addConstraint name table _ =>
      if server.finds name db.names.constraints then some db
      else if columnsOf db.tables (clip table).text = none ∨ db.hasConstraint (clip table) (clip name) then none
      else if server.admits db st then some (server.after db st)
      else none

/-- The statements in their order, in one transaction. -/
def Server.run (db : Database δ) (statements : List Ddl) : Option (Database δ) :=
  statements.foldlM server.exec db

/-! ## What a statement does -/

section Exec

variable {server} {db db' : Database δ} {st : Ddl}

theorem Widens.refl (ts : List TableInfo) : Widens ts ts :=
  fun _ columns h => ⟨columns, h, fun _ hc => hc⟩

theorem Widens.trans {ts us vs : List TableInfo} (h : Widens ts us) (k : Widens us vs) : Widens ts vs := by
  intro name columns hcolumns
  obtain ⟨more, hmore, hsub⟩ := h name columns hcolumns
  obtain ⟨yet, hyet, hsub'⟩ := k name more hmore
  exact ⟨yet, hyet, fun _ hc => hsub' (hsub hc)⟩

theorem widens_append (ts us : List TableInfo) : Widens ts (ts ++ us) := by
  intro name columns hcolumns
  obtain ⟨t, ht, rfl⟩ := Option.map_eq_some_iff.1 hcolumns
  refine ⟨t.columns, ?_, fun _ hc => hc⟩
  unfold columnsOf
  rw [List.find?_append, ht]
  rfl

theorem columnsOf_withColumn (table column : Name) (data : δ) (name : String) :
    columnsOf (db.withColumn table column data).tables name =
      (db.tables.find? (·.name.text = name)).map fun t =>
        if t.name = table then t.columns ++ [column] else t.columns := by
  have hpred : (fun t : TableInfo => decide (t.name.text = name)) ∘
      (fun t : TableInfo => if t.name = table then { t with columns := t.columns ++ [column] } else t) =
      fun t => decide (t.name.text = name) := by
    funext t
    rw [Function.comp_apply]
    split <;> rfl
  unfold columnsOf Database.withColumn
  rw [List.find?_map, hpred, Option.map_map]
  congr 1
  funext t
  rw [Function.comp_apply]
  split <;> rfl

/-- The columns of a table after one was added to it. -/
theorem columnsOf_withColumn_self {table : Name} {columns : List Name} (column : Name) (data : δ)
    (h : columnsOf db.tables table.text = some columns) :
    columnsOf (db.withColumn table column data).tables table.text = some (columns ++ [column]) := by
  obtain ⟨t, ht, rfl⟩ := Option.map_eq_some_iff.1 h
  have hname : t.name.text = table.text := by simpa using List.find?_some ht
  have hsame : t.name = table := by
    cases hn : t.name
    cases htable : table
    rw [hn, htable] at hname
    simpa using hname
  rw [columnsOf_withColumn, ht, Option.map_some, if_pos hsame]

theorem widens_withColumn (table column : Name) (data : δ) :
    Widens db.tables (db.withColumn table column data).tables := by
  intro name columns hcolumns
  obtain ⟨t, ht, rfl⟩ := Option.map_eq_some_iff.1 hcolumns
  refine ⟨if t.name = table then t.columns ++ [column] else t.columns, ?_, ?_⟩
  · rw [columnsOf_withColumn, ht, Option.map_some]
  · split
    · exact List.subset_append_left _ _
    · exact fun _ hc => hc

/-- What a statement that has nothing to do finds. -/
def Server.Settled (server : Server δ) (db : Database δ) : Ddl → Prop
  | .createTable table _ => clip table ∈ db.names.relations
  | .addColumn table column => ∃ columns, columnsOf db.tables (clip table).text = some columns ∧ clip column.name ∈ columns
  | .requireColumn table column =>
    (columnsOf db.tables (server.literal table)).any (server.finds column.name) = true
  | .createIndex _ name table columns _ =>
    (∃ held, columnsOf db.tables (clip table).text = some held ∧ ∀ c ∈ columns, clip c ∈ held) ∧ clip name ∈ db.names.relations
  | .addConstraint name _ _ => server.finds name db.names.constraints = true

theorem exec_of_settled (hsound : server.sound db.tables st = true) (h : server.Settled db st) :
    server.exec db st = some db := by
  unfold Server.exec
  rw [if_neg (by simp [hsound])]
  cases st with
  | createTable table columns => exact if_pos h
  | addColumn table column =>
    obtain ⟨columns, hcolumns, hmem⟩ := h
    simp only [hcolumns, if_pos hmem]
  | requireColumn table column => exact if_pos h
  | createIndex unique name table columns predicate =>
    obtain ⟨⟨held, hheld, hcolumns⟩, hname⟩ := h
    have hall : ¬∃ c ∈ columns, clip c ∉ held := by
      rintro ⟨c, hc, hnot⟩
      exact hnot (hcolumns c hc)
    simp only [hheld, if_neg hall, if_pos hname]
  | addConstraint name table body => exact if_pos h

/-- What a statement that succeeds has done. -/
inductive Server.Does (server : Server δ) (db : Database δ) : Ddl → Database δ → Prop
  | nothing {st : Ddl} (hsettled : server.Settled db st) : Does server db st db
  | table {table columns} (hfresh : clip table ∉ db.names.relations) :
      Does server db (.createTable table columns)
        { server.after db (.createTable table columns) with
          tables := db.tables ++ [{ name := clip table, columns := columns.map fun c => clip c.name }] }
  | column {st : Ddl} {table column columns data} (hst : st = .addColumn table column ∨ st = .requireColumn table column)
      (hcolumns : columnsOf db.tables (clip table).text = some columns) (hfresh : clip column.name ∉ columns) :
      Does server db st (db.withColumn (clip table) (clip column.name) data)
  | index {unique name table columns predicate held} (hcolumns : columnsOf db.tables (clip table).text = some held)
      (hheld : ∀ c ∈ columns, clip c ∈ held) (hfresh : clip name ∉ db.names.relations) :
      Does server db (.createIndex unique name table columns predicate)
        (server.after db (.createIndex unique name table columns predicate))
  | constraint {name table body} (htable : columnsOf db.tables (clip table).text ≠ none)
      (hfresh : server.finds name db.names.constraints = false) :
      Does server db (.addConstraint name table body) (server.after db (.addConstraint name table body))

theorem exec_sound (h : server.exec db st = some db') : server.sound db.tables st = true := by
  cases hsound : server.sound db.tables st with
  | true => rfl
  | false =>
    unfold Server.exec at h
    rw [if_pos hsound] at h
    cases h

theorem exec_does (h : server.exec db st = some db') : server.Does db st db' := by
  have hsound := exec_sound h
  unfold Server.exec at h
  rw [if_neg (by simp [hsound])] at h
  cases st with
  | createTable table columns =>
    simp only at h
    split at h
    · rename_i hused
      cases h
      exact .nothing hused
    · rename_i hfresh
      split at h
      · cases h
        exact .table hfresh
      · cases h
  | addColumn table column =>
    simp only at h
    split at h
    · cases h
    · rename_i columns hcolumns
      split at h
      · rename_i hmem
        cases h
        exact .nothing ⟨columns, hcolumns, hmem⟩
      · rename_i hfresh
        split at h
        · cases h
          exact .column (.inl rfl) hcolumns hfresh
        · cases h
  | requireColumn table column =>
    simp only at h
    split at h
    · rename_i hfound
      cases h
      exact .nothing hfound
    · split at h
      · cases h
      · rename_i columns hcolumns
        split at h
        · cases h
        · rename_i hfresh
          split at h
          · cases h
            exact .column (.inr rfl) hcolumns fun hmem => hfresh (.inr hmem)
          · cases h
  | createIndex unique name table columns predicate =>
    simp only at h
    split at h
    · cases h
    · rename_i held hcolumns
      split at h
      · cases h
      · rename_i hnot
        have hheld : ∀ c ∈ columns, clip c ∈ held := fun c hc => by_contra fun hmem => hnot ⟨c, hc, hmem⟩
        split at h
        · rename_i hused
          cases h
          exact .nothing ⟨⟨held, hcolumns, hheld⟩, hused⟩
        · rename_i hfresh
          split at h
          · cases h
            exact .index hcolumns hheld hfresh
          · cases h
  | addConstraint name table body =>
    simp only at h
    split at h
    · rename_i hfound
      cases h
      exact .nothing hfound
    · rename_i hfresh
      split at h
      · cases h
      · rename_i htable
        split at h
        · cases h
          exact .constraint (fun hnone => htable (.inl hnone)) (by simpa using hfresh)
        · cases h

/-- The names in use after a statement are those that the statement leaves. -/
theorem Server.Does.names (h : server.Does db st db') : db'.names = server.namesAfter db.names st := by
  cases h with
  | nothing hsettled =>
    cases st with
    | createTable table columns => exact (if_pos hsettled).symm
    | addColumn table column => rfl
    | requireColumn table column => rfl
    | createIndex unique name table columns predicate => exact (if_pos hsettled.2).symm
    | addConstraint name table body => exact (if_pos hsettled).symm
  | table hfresh => rfl
  | column hst hcolumns hfresh => rcases hst with rfl | rfl <;> rfl
  | index hcolumns hheld hfresh => rfl
  | constraint htable hfresh => rfl

theorem Server.Does.indexes (h : server.Does db st db') :
    db'.indexes = db.indexes ++ db.names.madeIndexes st := by
  cases h with
  | nothing hsettled =>
    have hnone : db.names.madeIndexes st = [] := by
      cases st with
      | createTable table columns => exact if_pos hsettled
      | addColumn table column => rfl
      | requireColumn table column => rfl
      | createIndex unique name table columns predicate => exact if_pos hsettled.2
      | addConstraint name table body => rfl
    rw [hnone, List.append_nil]
  | table hfresh => rfl
  | column hst hcolumns hfresh => rcases hst with rfl | rfl <;> exact (List.append_nil _).symm
  | index hcolumns hheld hfresh => rfl
  | constraint htable hfresh => rfl

theorem Server.Does.constraints (h : server.Does db st db') :
    db'.constraints = db.constraints ++ server.madeConstraints db.names st := by
  cases h with
  | nothing hsettled =>
    have hnone : server.madeConstraints db.names st = [] := by
      cases st with
      | createTable table columns => exact if_pos hsettled
      | addColumn table column => rfl
      | requireColumn table column => rfl
      | createIndex unique name table columns predicate => rfl
      | addConstraint name table body => exact if_pos hsettled
    rw [hnone, List.append_nil]
  | table hfresh => rfl
  | column hst hcolumns hfresh => rcases hst with rfl | rfl <;> exact (List.append_nil _).symm
  | index hcolumns hheld hfresh => rfl
  | constraint htable hfresh => rfl

theorem Server.Does.widens (h : server.Does db st db') : Widens db.tables db'.tables := by
  cases h with
  | nothing hsettled => exact .refl _
  | table hfresh => exact widens_append _ _
  | column hst hcolumns hfresh => exact widens_withColumn _ _ _
  | index hcolumns hheld hfresh => exact .refl _
  | constraint htable hfresh => exact .refl _

end Exec

/-! ## A server -/

/-- A server that admits every change and takes literals as they are. -/
def Server.plain : Server Unit where
  cutsLiterals := false
  keyName _ table := clip (table.text ++ "_pkey")
  sound _ _ := true
  sound_widens _ _ := rfl
  sound_same _ _ := rfl
  admits _ _ := true
  populated _ _ := false
  fill _ _ := ()

def Database.empty : Database Unit where
  names := { relations := [], constraints := [] }
  tables := []
  indexes := []
  constraints := []
  data := ()

end Atomo.Migrations

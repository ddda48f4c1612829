import Atomo.Db.Value
import Mathlib.Logic.Function.Basic

/-!
# Execution of statements

The meaning of the built statements on the tables. A condition selects a row when it is true of it; a
comparison with NULL on either side is not. A statement that the server rejects leaves no result; which
ones it rejects for reasons of its own (constraints, types, the connection) is left to its callers.
-/

namespace Atomo

open Schema (lookup?)
open Query
open Db

namespace Query

variable (pg : Postgres)

/-- The parameter in the place of `$n`. -/
def paramAt (params : List Json) (n : Nat) : Bound :=
  ((params[n - 1]?).map buildArg).getD .null

/-- A comparison of a stored value with a parameter. -/
def Comparison.holds (asText : Bool) (op : Comparison) (stored : SqlValue) (param : Bound) : Bool :=
  match stored, param with
  | .null, _ | _, .null => false
  | v, .text s =>
    if asText then
      match op with
      | .eq => castText pg v = s
      | .ne => castText pg v ≠ s
      | op => pg.compare op v (.text s)
    else pg.compare op v (.text s)
  | v, param => pg.compare op v param

def Member.holds (params : List Json) (row : Row) : Member → Bool
  | .compare column asText op n => op.holds pg asText (row.get column) (paramAt params n)
  | .null _ _ => false

/-- The pattern that a parameter makes. -/
def likePattern (before after : Bool) (param : Bound) : String :=
  (if before then "%" else "") ++ boundText pg param ++ if after then "%" else ""

def likeHolds (before after : Bool) (stored : SqlValue) (param : Bound) : Bool :=
  match stored, param with
  | .null, _ | _, .null => false
  | v, param => pg.ilike v (likePattern pg before after param)

def Condition.holds (params : List Json) (row : Row) : Condition → Bool
  | .compare column asText op n => op.holds pg asText (row.get column) (paramAt params n)
  | .like column before after n => likeHolds pg before after (row.get column) (paramAt params n)
  | .constant value => value
  | .group conjunctive members =>
    if conjunctive then members.all (Member.holds pg params row) else members.any (Member.holds pg params row)
  | .isNull column => row.get column = .null
  | .isNotNull column => row.get column ≠ .null

def Member.column : Member → String
  | .compare column _ _ _ | .null column _ => column

/-- The columns that `RETURNING` names. -/
def Returning.columns : Returning → List String
  | .all => []
  | .id => ["id"]

def Condition.columns : Condition → List String
  | .compare column _ _ _ | .like column _ _ _ | .isNull column | .isNotNull column => [column]
  | .constant _ => []
  | .group _ members => members.map Member.column

end Query

namespace Db

variable (pg : Postgres)

namespace Table

def columnNames (table : Table) : List String :=
  table.columns.map Prod.fst

/-- Every one of these is a column of the table. -/
def knows (table : Table) (columns : List String) : Bool :=
  columns.all fun column => column ∈ table.columnNames

/-- The key of every row is its own, and is set. -/
def keysHold (table : Table) : Bool :=
  match table.primaryKey with
  | none => true
  | some key => (table.rows.map fun row => row.get key).Nodup ∧ table.rows.all fun row => row.get key ≠ .null

/-- Keys that hold of a table hold of a part of its rows. -/
theorem keysHold_sublist {table part : Table} (hkey : part.primaryKey = table.primaryKey)
    (h : part.rows.Sublist table.rows) (hkeys : table.keysHold = true) : part.keysHold = true := by
  unfold keysHold at *
  rw [hkey]
  cases hprimary : table.primaryKey with
  | none => rfl
  | some key =>
    rw [hprimary] at hkeys
    simp only [decide_eq_true_eq, List.all_eq_true] at hkeys ⊢
    exact ⟨hkeys.1.sublist (h.map _), fun row hrow => hkeys.2 row (h.subset hrow)⟩

end Table

/-- The rows that a statement is about: those shown to the tenant of which every condition is true. -/
def selects (tenant : Option String) (table : String) (conditions : List Condition) (params : List Json)
    (row : Row) : Bool :=
  pg.visible tenant table row && conditions.all fun condition => condition.holds pg params row

/-- The value that is written to a column, `now` being the time of the transaction. -/
def writtenValue (now : Int) (type : ColumnType) (params : List Json) : Written → Option SqlValue
  | .null => some .null
  | .now => if type = .timestamptz then some (.timestamptz now) else none
  | .param n asTimestamp => assign pg type asTimestamp (paramAt params n)

/-- The values of the columns that a statement writes. -/
def writtenValues (now : Int) (table : Table) (params : List Json) :
    List (String × Written) → Option (List (String × SqlValue))
  | [] => some []
  | (column, written) :: sets => do
    let type ← lookup? column table.columns
    let value ← writtenValue pg now type params written
    let values ← writtenValues now table params sets
    return (column, value) :: values

/-- Values that are each of the type of their column. -/
def Fits (table : Table) (values : List (String × SqlValue)) : Prop :=
  ∀ entry ∈ values, ∃ type, lookup? entry.1 table.columns = some type ∧ entry.2.fits type = true

theorem Fits.cons {table : Table} {column : String} {value : SqlValue} {values : List (String × SqlValue)}
    {type : ColumnType} (htype : lookup? column table.columns = some type) (hvalue : value.fits type = true)
    (h : Fits table values) : Fits table ((column, value) :: values) := by
  intro entry hentry
  rcases List.mem_cons.1 hentry with rfl | hentry
  · exact ⟨type, htype, hvalue⟩
  · exact h entry hentry

theorem Fits.lookup {table : Table} {values : List (String × SqlValue)} (h : Fits table values) {column : String}
    {value : SqlValue} (hvalue : lookup? column values = some value) :
    ∃ type, lookup? column table.columns = some type ∧ value.fits type = true := by
  obtain ⟨entry, hentry, rfl⟩ := Option.map_eq_some_iff.1 hvalue
  have hcolumn : entry.1 = column := by simpa using List.find?_some hentry
  have hfits := h entry (List.mem_of_find?_eq_some hentry)
  rwa [hcolumn] at hfits

theorem writtenValue_fits {now : Int} {type : ColumnType} {params : List Json} {written : Written} {value : SqlValue}
    (h : writtenValue pg now type params written = some value) : value.fits type = true := by
  cases written with
  | null =>
    cases h
    cases type <;> rfl
  | now =>
    obtain ⟨htype, rfl⟩ : type = .timestamptz ∧ .timestamptz now = value := by
      simpa only [writtenValue, Option.ite_none_right_eq_some, Option.some.injEq] using h
    rw [htype]
    rfl
  | param n asTimestamp => exact assign_fits pg h

theorem writtenValues_fits {now : Int} {table : Table} {params : List Json} {sets : List (String × Written)}
    {values : List (String × SqlValue)} (h : writtenValues pg now table params sets = some values) :
    Fits table values := by
  induction sets generalizing values with
  | nil =>
    cases h
    exact fun entry hentry => absurd hentry List.not_mem_nil
  | cons set sets ih =>
    simp only [writtenValues, Option.bind_eq_bind, Option.bind_eq_some_iff] at h
    obtain ⟨type, htype, value, hvalue, rest, hrest, h⟩ := h
    cases h
    exact (ih hrest).cons htype (writtenValue_fits pg hvalue)

/-- A new row: the columns given, and the defaults of the others. -/
def newRow (tick : Nat) (name : String) (place : Nat) (table : Table) (values : List (String × SqlValue)) : Row :=
  table.columns.map fun column =>
    (column.1, (lookup? column.1 values).getD (pg.fill tick name place column.1))

theorem get_newRow (tick : Nat) (name : String) (place : Nat) (table : Table) (values : List (String × SqlValue))
    (column : String) :
    (newRow pg tick name place table values).get column =
      if column ∈ table.columnNames then (lookup? column values).getD (pg.fill tick name place column) else .null := by
  unfold newRow
  rw [Row.get_map]
  split
  · rename_i hcolumn
    obtain ⟨entry, hentry, heq⟩ := List.mem_map.1 hcolumn
    cases hfind : table.columns.find? (·.1 = column) with
    | none => exact absurd heq (by simpa using List.find?_eq_none.1 hfind entry hentry)
    | some found =>
      have hfound : found.1 = column := by simpa using List.find?_some hfind
      rw [← hfound]
      rfl
  · rename_i hcolumn
    have hfind : table.columns.find? (·.1 = column) = none := by
      rw [List.find?_eq_none]
      intro entry hentry
      have hne : entry.1 ≠ column := fun heq => hcolumn (List.mem_map.2 ⟨entry, hentry, heq⟩)
      simpa using hne
    rw [hfind]
    rfl

def newRows (tick : Nat) (now : Int) (name : String) (table : Table) (columns : List String) (params : List Json) :
    Nat → List (List Written) → Option (List Row)
  | _, [] => some []
  | place, row :: rows => do
    let values ← writtenValues pg now table params (columns.zip row)
    let rest ← newRows tick now name table columns params (place + 1) rows
    return newRow pg tick name place table values :: rest

/-- The rows of a query between its offset and its limit. -/
def page (limit offset : Option Nat) (rows : List Row) : List Row :=
  let rows := rows.drop (offset.getD 0)
  match limit with
  | some n => rows.take n
  | none => rows

theorem page_subset {limit offset : Option Nat} {rows : List Row} {row : Row} (h : row ∈ page limit offset rows) :
    row ∈ rows := by
  unfold page at h
  split at h
  · exact List.mem_of_mem_drop (List.mem_of_mem_take h)
  · exact List.mem_of_mem_drop h

/-- The largest `LIMIT` and `OFFSET` are those of `BIGINT`. -/
def boundsHold (limit offset : Option Nat) : Bool :=
  limit.all (· < 2 ^ 63) && offset.all (· < 2 ^ 63)

/-- The tables after a statement, in a transaction of the time `now`, and the rows that it is about, as it leaves them (a deleted row as it
was); none if it is rejected. -/
def run (tick : Nat) (now : Int) (tenant : Option String) (params : List Json) (tables : Tables) :
    Statement → Option (Tables × List Row)
  | .select counting name conditions orderBy limit offset =>
    let table := tables name
    if table.knows (conditions.flatMap Condition.columns ++ orderBy.map Prod.fst) && boundsHold limit offset then
      let rows := pg.sort orderBy (table.rows.filter (selects pg tenant name conditions params))
      if counting then some (tables, [[("count", .bigint (.ofNat rows.length))]])
      else some (tables, page limit offset rows)
    else none
  | .insert name columns rows =>
    let table := tables name
    if columns ≠ [] ∧ columns.Nodup then
      match newRows pg tick now name table columns params 0 rows with
      | none => none
      | some new =>
        let table := { table with rows := table.rows ++ new }
        if table.keysHold && new.all (pg.permits tenant name) then some (Function.update tables name table, new) else none
    else none
  | .update name sets conditions returning =>
    let table := tables name
    if sets ≠ [] ∧ (sets.map Prod.fst).Nodup ∧
        table.knows (conditions.flatMap Condition.columns ++ returning.columns) then
      match writtenValues pg now table params sets with
      | none => none
      | some values =>
        let selected := selects pg tenant name conditions params
        let table := { table with rows := table.rows.map fun row => if selected row then row.update values else row }
        let changed := ((tables name).rows.filter selected).map fun row => row.update values
        if table.keysHold && changed.all (pg.permits tenant name) then some (Function.update tables name table, changed)
        else none
    else none
  | .delete name conditions =>
    let table := tables name
    if table.knows (conditions.flatMap Condition.columns ++ ["id"]) then
      let selected := selects pg tenant name conditions params
      some (Function.update tables name { table with rows := table.rows.filter fun row => !selected row },
        table.rows.filter selected)
    else none

/-- A row that an insertion makes. -/
def Made (name : String) (table : Table) (row : Row) : Prop :=
  ∃ tick place values, Fits table values ∧ row = newRow pg tick name place table values

theorem newRows_made {tick : Nat} {now : Int} {name : String} {table : Table} {columns : List String}
    {params : List Json} {place : Nat} {rows : List (List Written)} {new : List Row}
    (h : newRows pg tick now name table columns params place rows = some new) :
    ∀ row ∈ new, Made pg name table row := by
  induction rows generalizing place new with
  | nil =>
    cases h
    exact fun row hrow => absurd hrow List.not_mem_nil
  | cons row rows ih =>
    simp only [newRows, Option.bind_eq_bind, Option.bind_eq_some_iff] at h
    obtain ⟨values, hvalues, rest, hrest, hnew⟩ := h
    cases hnew
    rw [List.forall_mem_cons]
    exact ⟨⟨tick, place, values, writtenValues_fits pg hvalues, rfl⟩, ih hrest⟩

theorem newRows_length {tick : Nat} {now : Int} {name : String} {table : Table} {columns : List String}
    {params : List Json} {place : Nat} {rows : List (List Written)} {new : List Row}
    (h : newRows pg tick now name table columns params place rows = some new) : new.length = rows.length := by
  induction rows generalizing place new with
  | nil =>
    cases h
    rfl
  | cons row rows ih =>
    simp only [newRows, Option.bind_eq_bind, Option.bind_eq_some_iff] at h
    obtain ⟨values, -, rest, hrest, hnew⟩ := h
    cases hnew
    rw [List.length_cons, ih hrest, List.length_cons]

/-- An insertion returns the rows it makes, and appends them. -/
theorem run_insert {tick : Nat} {now : Int} {tenant : Option String} {params : List Json}
    {tables tables' : Tables} {name : String} {columns : List String} {rows : List (List Written)}
    {new : List Row} (h : run pg tick now tenant params tables (.insert name columns rows) = some (tables', new)) :
    new.length = rows.length ∧
      tables' = Function.update tables name { tables name with rows := (tables name).rows ++ new } ∧
      newRows pg tick now name (tables name) columns params 0 rows = some new ∧
      ({ tables name with rows := (tables name).rows ++ new } : Table).keysHold = true := by
  simp only [run] at h
  split at h
  · split at h
    · cases h
    · rename_i new' hnew
      split at h
      · rename_i hkeys
        cases h
        exact ⟨newRows_length pg hnew, rfl, hnew, (Bool.and_eq_true_iff.1 hkeys).1⟩
      · cases h
  · cases h

/-- An update sets the columns of the selected rows, and returns these. -/
theorem run_update {tick : Nat} {now : Int} {tenant : Option String} {params : List Json}
    {tables tables' : Tables} {name : String} {sets : List (String × Written)} {conditions : List Condition}
    {returning : Returning} {rows : List Row}
    (h : run pg tick now tenant params tables (.update name sets conditions returning) = some (tables', rows)) :
    ∃ values, writtenValues pg now (tables name) params sets = some values ∧
      rows = ((tables name).rows.filter (selects pg tenant name conditions params)).map (·.update values) ∧
      tables' = Function.update tables name { tables name with
        rows := (tables name).rows.map fun row =>
          if selects pg tenant name conditions params row then row.update values else row } ∧
      (tables' name).keysHold = true := by
  simp only [run] at h
  split at h
  · split at h
    · cases h
    · rename_i values hvalues
      split at h
      · rename_i hkeys
        cases h
        refine ⟨values, hvalues, rfl, rfl, ?_⟩
        rw [Function.update_self]
        exact (Bool.and_eq_true_iff.1 hkeys).1
      · cases h
  · cases h

/-- The rows that an insertion returns are those that the policies let the tenant write. -/
theorem run_insert_permitted {tick : Nat} {now : Int} {tenant : Option String} {params : List Json}
    {tables tables' : Tables} {name : String} {columns : List String} {rows : List (List Written)}
    {new : List Row} (h : run pg tick now tenant params tables (.insert name columns rows) = some (tables', new)) :
    ∀ row ∈ new, pg.permits tenant name row = true := by
  simp only [run] at h
  split at h
  · split at h
    · cases h
    · split at h
      · rename_i hallowed
        cases h
        exact List.all_eq_true.1 (Bool.and_eq_true_iff.1 hallowed).2
      · cases h
  · cases h

/-- So are those of an update. -/
theorem run_update_permitted {tick : Nat} {now : Int} {tenant : Option String} {params : List Json}
    {tables tables' : Tables} {name : String} {sets : List (String × Written)} {conditions : List Condition}
    {returning : Returning} {rows : List Row}
    (h : run pg tick now tenant params tables (.update name sets conditions returning) = some (tables', rows)) :
    ∀ row ∈ rows, pg.permits tenant name row = true := by
  simp only [run] at h
  split at h
  · split at h
    · cases h
    · split at h
      · rename_i hallowed
        cases h
        exact List.all_eq_true.1 (Bool.and_eq_true_iff.1 hallowed).2
      · cases h
  · cases h

/-- A deletion removes the selected rows, and returns these. -/
theorem run_delete {tick : Nat} {now : Int} {tenant : Option String} {params : List Json}
    {tables tables' : Tables} {name : String} {conditions : List Condition} {rows : List Row}
    (h : run pg tick now tenant params tables (.delete name conditions) = some (tables', rows)) :
    rows = (tables name).rows.filter (selects pg tenant name conditions params) ∧
      tables' = Function.update tables name { tables name with
        rows := (tables name).rows.filter fun row => !selects pg tenant name conditions params row } := by
  simp only [run] at h
  split at h
  · cases h
    exact ⟨rfl, rfl⟩
  · cases h

end Db

/-- The columns that a statement returns. -/
def Query.Statement.returned (tables : Tables) : Statement → List String
  | .select counting name _ _ _ _ => if counting then ["count"] else (tables name).columnNames
  | .insert name _ _ | .update name _ _ .all => (tables name).columnNames
  | .update _ _ _ .id | .delete _ _ => ["id"]

end Atomo

import Atomo.Query.SqlBuilder

/-!
# Column values

The values a column holds, how a bound JSON parameter becomes one (`build_args` and the assignment casts
of the server) and how a row is read back (`row_to_map`). What the server decides itself, such as the
text form of a number or the order of texts, is a parameter (`Postgres`).
-/

namespace Atomo.Db

open Schema (FieldType lookup?)
open Query (Comparison OrderDirection)

inductive ColumnType where
  | text
  | bigint
  | boolean
  | date
  | timestamptz
  | jsonb
  deriving DecidableEq

/-- `field_type_to_sql`. -/
def fieldTypeToSql : FieldType → ColumnType
  | .string | .file | .entityId | .reference _ => .text
  | .number => .bigint
  | .boolean => .boolean
  | .date => .date
  | .dateTime => .timestamptz
  | .json | .array _ | .blocks | .custom _ => .jsonb

/-- What a column holds; a day and an instant are counted from the epoch, the latter in microseconds. -/
inductive SqlValue where
  | null
  | text (s : String)
  | bigint (i : Int64)
  | boolean (b : Bool)
  | date (days : Int)
  | timestamptz (micros : Int)
  | jsonb (v : Json)
  deriving DecidableEq

/-- A value of a type, NULL being one of each. -/
def SqlValue.fits : ColumnType → SqlValue → Bool
  | _, .null | .text, .text _ | .bigint, .bigint _ | .boolean, .boolean _ | .date, .date _
  | .timestamptz, .timestamptz _ | .jsonb, .jsonb _ => true
  | _, _ => false

/-- The values of a row by column. -/
abbrev Row := List (String × SqlValue)

namespace Row

def get (row : Row) (column : String) : SqlValue :=
  (lookup? column row).getD .null

/-- The row with some of its columns set. -/
def update (row : Row) (sets : List (String × SqlValue)) : Row :=
  row.map fun entry => (entry.1, (lookup? entry.1 sets).getD entry.2)

theorem get_map {α : Type} (column : String) (value : String × α → SqlValue) (entries : List (String × α)) :
    get (entries.map fun entry => (entry.1, value entry)) column =
      ((entries.find? (·.1 = column)).map value).getD .null := by
  unfold get lookup?
  rw [List.find?_map, Option.map_map]
  rfl

/-- A column of a row that some columns were set in. -/
theorem get_update (row : Row) (sets : List (String × SqlValue)) {column : String}
    (h : (lookup? column row).isSome = true) :
    (row.update sets).get column = (lookup? column sets).getD (row.get column) := by
  unfold update
  rw [get_map]
  unfold get lookup? at *
  rw [Option.isSome_map] at h
  obtain ⟨entry, hentry⟩ := Option.isSome_iff_exists.1 h
  have hcolumn : entry.1 = column := by simpa using List.find?_some hentry
  rw [hentry, ← hcolumn]
  rfl

/-- A column that was not set. -/
theorem get_update_of_none (row : Row) {sets : List (String × SqlValue)} {column : String}
    (h : lookup? column sets = none) : (row.update sets).get column = row.get column := by
  unfold update
  rw [get_map]
  unfold get
  cases hfind : row.find? (·.1 = column) with
  | none =>
    unfold lookup?
    rw [hfind]
    rfl
  | some entry =>
    have hcolumn : entry.1 = column := by simpa using List.find?_some hfind
    have hlookup : lookup? column row = some entry.2 := by
      unfold lookup?
      rw [hfind]
      rfl
    rw [hlookup, Option.map_some, hcolumn, h]
    rfl

/-- A column is as it was, or as it was set. -/
theorem get_update_cases (row : Row) (sets : List (String × SqlValue)) (column : String) :
    (row.update sets).get column = row.get column ∨ lookup? column sets = some ((row.update sets).get column) := by
  cases hsets : lookup? column sets with
  | none => exact .inl (row.get_update_of_none hsets)
  | some value =>
    by_cases hrow : (lookup? column row).isSome = true
    · right
      rw [row.get_update sets hrow, hsets, Option.getD_some]
    · left
      unfold update
      rw [get_map]
      unfold get
      unfold lookup? at hrow ⊢
      rw [Option.isSome_map, Option.not_isSome_iff_eq_none] at hrow
      rw [hrow]
      rfl

theorem isSome_of_get {row : Row} {column : String} (h : row.get column ≠ .null) :
    (lookup? column row).isSome = true := by
  cases hrow : lookup? column row with
  | none =>
    unfold get at h
    rw [hrow] at h
    exact absurd rfl h
  | some value => rfl

end Row

structure Table where
  columns : List (String × ColumnType)
  primaryKey : Option String
  rows : List Row

/-- The tables by name. -/
abbrev Tables := String → Table

/-- A bound parameter, with the type it is declared with. -/
inductive Bound where
  | null
  | text (s : String)
  | int8 (i : Int64)
  | float8 (q : ℚ)
  | bool (b : Bool)
  | json (v : Json)

/-- `build_args` of one parameter. -/
def buildArg : Json → Bound
  | .string s => .text s
  | .number n =>
    match n.asI64? with
    | some i => .int8 i
    | none => .float8 n.asF64
  | .bool b => .bool b
  | .null => .null
  | other => .json other

/-- What the server decides of its own. Each statement is answered at a tick, which tells apart its
answers to the same question. -/
structure Postgres where
  /-- The text form of a value that is not a text. -/
  text : SqlValue → String
  floatText : ℚ → String
  /-- The assignment cast of a double to `BIGINT`. -/
  roundFloat : ℚ → Option Int64
  /-- The input function of `TIMESTAMPTZ`. -/
  timestamp : String → Option Int
  /-- `to_rfc3339`. -/
  rfc3339 : Int → String
  /-- A comparison other than one of texts for equality. -/
  compare : Comparison → SqlValue → Bound → Bool
  /-- `ILIKE` of a value and a pattern. -/
  ilike : SqlValue → String → Bool
  /-- The default of a column in the rows that a statement inserts, by their place. -/
  fill : Nat → String → Nat → String → SqlValue
  now : Nat → Int
  sort : List (String × OrderDirection) → List Row → List Row
  sort_perm : ∀ order rows, (sort order rows).Perm rows
  /-- The rows of a table that the policies show to a tenant, `none` being no tenant bound. -/
  visible : Option String → String → Row → Bool
  /-- The rows that they let it write to a table. -/
  permits : Option String → String → Row → Bool := fun _ _ _ => true

variable (pg : Postgres)

/-- The text form of a value. -/
def castText : SqlValue → String
  | .text s => s
  | .bigint i => i.toInt.repr
  | .boolean b => if b then "true" else "false"
  | v => pg.text v

/-- The text form of a parameter. -/
def boundText : Bound → String
  | .null => ""
  | .text s => s
  | .int8 i => i.toInt.repr
  | .float8 q => pg.floatText q
  | .bool b => if b then "true" else "false"
  | .json v => pg.text (.jsonb v)

/-- The value that a column takes when a parameter is assigned to it. Every type has an assignment cast
to `TEXT`; other than that only the types themselves are assigned, and a double to `BIGINT`. -/
def assign (type : ColumnType) (asTimestamp : Bool) (param : Bound) : Option SqlValue :=
  if asTimestamp then
    match type, param with
    | .timestamptz, .text s => (pg.timestamp s).map .timestamptz
    | .text, .text s => (pg.timestamp s).map fun t => .text (pg.text (.timestamptz t))
    | _, _ => none
  else
    match type, param with
    | .text, .null | .bigint, .null | .boolean, .null | .date, .null | .timestamptz, .null
    | .jsonb, .null => some .null
    | .text, param => some (.text (boundText pg param))
    | .bigint, .int8 i => some (.bigint i)
    | .bigint, .float8 q => (pg.roundFloat q).map .bigint
    | .boolean, .bool b => some (.boolean b)
    | .jsonb, .json v => some (.jsonb v)
    | _, _ => none

/-- What is assigned to a column is of its type. -/
theorem assign_fits {type : ColumnType} {asTimestamp : Bool} {param : Bound} {value : SqlValue}
    (h : assign pg type asTimestamp param = some value) : value.fits type = true := by
  unfold assign at h
  split at h
  · split at h
    · obtain ⟨t, -, rfl⟩ := Option.map_eq_some_iff.1 h
      rfl
    · obtain ⟨t, -, rfl⟩ := Option.map_eq_some_iff.1 h
      rfl
    · cases h
  · split at h
    case h_9 =>
      obtain ⟨i, -, rfl⟩ := Option.map_eq_some_iff.1 h
      rfl
    case h_12 => cases h
    all_goals
      cases h
      rfl

/-- A column as `row_to_map` reads it: a day is of a type that it does not know. -/
def decode : SqlValue → Json
  | .null | .date _ => .null
  | .text s => .string s
  | .bigint i => .number (.ofInt i.toInt)
  | .boolean b => .bool b
  | .timestamptz t => .string (pg.rfc3339 t)
  | .jsonb v => v

/-- `row_to_map` of the returned columns. -/
def rowToMap (columns : List String) (row : Row) : List (String × Json) :=
  columns.map fun column => (column, decode pg (row.get column))

theorem lookup?_rowToMap {columns : List String} {column : String} (row : Row) (h : column ∈ columns) :
    lookup? column (rowToMap pg columns row) = some (decode pg (row.get column)) := by
  induction columns with
  | nil => cases h
  | cons first columns ih =>
    unfold rowToMap lookup? at *
    by_cases hfirst : first = column
    · simp [hfirst]
    · have hrest := ih ((List.mem_cons.1 h).resolve_left fun heq => hfirst heq.symm)
      simpa [hfirst] using hrest

/-! ## A server -/

/-- A text of its own for each number. -/
def ticket (n : Nat) : String :=
  .ofList (List.replicate n 'a')

theorem ticket_injective {i j : Nat} (h : ticket i = ticket j) : i = j := by
  have hlengths := congrArg (fun s => s.toList.length) h
  simpa [ticket] using hlengths

/-- A server without policies, which gives a row the id that it lacks. -/
def Postgres.bare : Postgres where
  text _ := ""
  floatText _ := ""
  roundFloat _ := none
  timestamp _ := none
  rfc3339 _ := ""
  compare op v param :=
    match op, v, param with
    | .eq, .bigint i, .int8 j => i = j
    | .ne, .bigint i, .int8 j => i ≠ j
    | _, _, _ => false
  ilike _ _ := false
  fill tick _ place column := if column = "id" then .text (ticket (tick + place)) else .null
  now tick := tick
  sort _ rows := rows
  sort_perm _ rows := .refl rows
  visible _ _ _ := true

end Atomo.Db

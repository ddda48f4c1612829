import Atomo.Client.Guarantee
import Atomo.Db.RowSecurity
import Atomo.Query.Meaning
import Atomo.Query.SqlRequests
import Atomo.Migrations.Statements
import Atomo.Data.Debug

/-!
# Batches and single insertions

What the statements of `create_many` insert, beside the insertions of the records one by one. The defaults of a column
are drawn row by row, whichever statement inserts the row. The foreign keys of a table to itself are checked at the
end of each statement.
-/

namespace Atomo

open Schema (lookup? Model)
open Query Db
open Migrations (foreignKey)

/-- What a table demands of its rows beside its key: of each alone (`NOT NULL`, `CHECK`, a key of another table), of
two together (a unique index), and the columns that have the id of a row of the table itself. -/
structure Client.TableChecks where
  alone : Row → Bool
  together : Row → Row → Bool
  ownReferences : List String

namespace Client

namespace TableChecks

variable (checks : TableChecks)

/-- Each reference of a row to its own table is to one of some rows. -/
def refers (rows : List Row) (row : Row) : Bool :=
  checks.ownReferences.all fun column => row.get column = .null ∨ rows.any fun target => target.get "id" = row.get column

/-- The checks at the end of a statement that has inserted some rows. -/
def met (rows new : List Row) : Bool :=
  new.all checks.alone && decide (rows.Pairwise fun a b => checks.together a b = true) && new.all (checks.refers rows)

/-- No new row refers to one further down. -/
def Backward (old : List Row) : List Row → Prop
  | [] => True
  | row :: rest => checks.refers (old ++ [row]) row = true ∧ Backward (old ++ [row]) rest

end TableChecks

variable (env : Env) (checks : TableChecks) (draw : Nat → String → SqlValue) (tick : Nat) (now : Int)
  (tenant : Option String)

/-- The server when it has inserted some rows: it goes on with the defaults of the next. -/
def drawing (inserted : Nat) : Postgres :=
  { env.pg with fill := fun _ _ place column => draw (inserted + place) column }

/-- A statement cannot have more parameters than sixteen bits count. -/
def maxParams : Nat := 65535

/-- The insertions of a transaction one after the other, with all the rows that they return. -/
def insertInto (inserted : Nat) : List (Statement × List Json) → Tables → Option (Tables × List Row)
  | [], tables => some (tables, [])
  | (statement, params) :: rest, tables => do
    let (after, new) ← if params.length ≤ maxParams then
        run (drawing env draw inserted) tick now tenant params tables statement
      else none
    if checks.met (after statement.table).rows new then
      let (last, more) ← insertInto (inserted + new.length) rest after
      some (last, new ++ more)
    else none

/-- The insertions of `create_many`. -/
def bulkInsert (model : Model) (records : List Record) (tables : Tables) : Option (Tables × List Row) :=
  insertInto env checks draw tick now tenant 0 (Write.batch env model records) tables

/-- The insertions of the records one by one. -/
def eachInsert (model : Model) (records : List Record) (tables : Tables) : Option (Tables × List Row) :=
  insertInto env checks draw tick now tenant 0 (records.map (SqlBuilder.insert env.casing model)) tables

/-! ## The rows of the records -/

/-- The columns that a record is written to. -/
def columnsOf (record : Record) : List String :=
  record.map fun entry => toSnakeCase env.casing entry.1

/-- The values of a record that are bound. -/
def boundOf (record : Record) : Record :=
  record.filter fun entry => !entry.2.isNull

/-- The row of a record, with the defaults of its place. -/
def recordRow (model : Model) (table : Table) (place : Nat) (record : Record) : Option Row :=
  if (boundOf record).length ≤ maxParams ∧ columnsOf env record ≠ [] ∧ (columnsOf env record).Nodup then
    (dataValues env.pg env.casing model table record).map
      (newRow (drawing env draw place) tick (tableName env.casing model) 0 table)
  else none

def recordRows (model : Model) (table : Table) (place : Nat) : List Record → Option (List Row)
  | [] => some []
  | record :: records => do
    let row ← recordRow env draw tick model table place record
    let rows ← recordRows model table (place + 1) records
    some (row :: rows)

theorem dataValues_congr {pg pg' : Postgres} {table table' : Table} (hassign : assign pg = assign pg')
    (hcolumns : table.columns = table'.columns) (cc : CharCase) (model : Model) (data : Record) :
    dataValues pg cc model table data = dataValues pg' cc model table' data := by
  induction data with
  | nil => rfl
  | cons entry data ih =>
    rw [dataValues, dataValues, ih]
    unfold entryValue
    rw [hassign, hcolumns]

theorem dataValues_drawing (inserted : Nat) (model : Model) (table : Table) (data : Record) :
    dataValues (drawing env draw inserted) env.casing model table data = dataValues env.pg env.casing model table data := by
  have hassign : assign (drawing env draw inserted) = assign env.pg := rfl
  exact dataValues_congr hassign (Eq.refl table.columns) env.casing model data

theorem newRow_drawing (place i : Nat) (name : String) (table : Table) (values : List (String × SqlValue)) :
    newRow (drawing env draw place) tick name i table values =
      newRow (drawing env draw (place + i)) tick name 0 table values := by
  rfl

theorem recordRows_congr {model : Model} {table table' : Table} (hcolumns : table.columns = table'.columns) (place : Nat)
    (records : List Record) :
    recordRows env draw tick model table place records = recordRows env draw tick model table' place records := by
  have hrow : ∀ place record, recordRow env draw tick model table place record =
      recordRow env draw tick model table' place record := by
    intro place record
    have hnew : newRow (drawing env draw place) tick (tableName env.casing model) 0 table =
        newRow (drawing env draw place) tick (tableName env.casing model) 0 table' := by
      funext values
      rw [newRow, newRow, hcolumns]
    rw [recordRow, recordRow, dataValues_congr rfl hcolumns, hnew]
  induction records generalizing place with
  | nil => rfl
  | cons record records ih => rw [recordRows, recordRows, hrow, ih]

/-! ## One insertion after the other -/

/-- The table with some more rows. -/
def grown (table : Table) (new : List Row) : Table :=
  { table with rows := table.rows ++ new }

/-- What decides on the rows of a statement when they are in the table. -/
def accepted (name : String) (table : Table) (new : List Row) : Bool :=
  table.keysHold && new.all (env.pg.permits tenant name) && checks.met table.rows new

/-- The rows are accepted one after the other. -/
def grows (name : String) (table : Table) : List Row → Bool
  | [] => true
  | row :: rows => accepted env checks tenant name (grown table [row]) [row] && grows name (grown table [row]) rows

theorem writeValues_length (model : Model) (data : Record) (params : List Json) :
    (writeValues model data params).2.length = params.length + (boundOf data).length := by
  induction data generalizing params with
  | nil => rfl
  | cons entry data ih =>
    obtain ⟨key, value⟩ := entry
    by_cases hnull : value.isNull = true
    · simp only [writeValues, writeValue, hnull, if_true, ih, boundOf, List.filter_cons, Bool.not_true,
        Bool.false_eq_true, if_false]
    · simp only [writeValues, writeValue, hnull, Bool.false_eq_true, if_false, ih, boundOf, List.filter_cons,
        Bool.not_false, if_true, List.length_append, List.length_cons, List.length_nil]
      omega

/-- A statement that inserts some rows, with the checks at its end. -/
theorem insertInto_cons (inserted : Nat) (name : String) (columns : List String) (tuples : List (List Written))
    (params : List Json) (rest : List (Statement × List Json)) (tables : Tables) :
    insertInto env checks draw tick now tenant inserted ((.insert name columns tuples, params) :: rest) tables =
      (if params.length ≤ maxParams ∧ columns ≠ [] ∧ columns.Nodup then
        newRows (drawing env draw inserted) tick now name (tables name) columns params 0 tuples
      else none).bind fun new =>
        if accepted env checks tenant name (grown (tables name) new) new then
          (insertInto env checks draw tick now tenant (inserted + new.length) rest
            (Function.update tables name (grown (tables name) new))).map fun last => (last.1, new ++ last.2)
        else none := by
  rw [insertInto]
  by_cases hlength : params.length ≤ maxParams
  · by_cases hcolumns : columns ≠ [] ∧ columns.Nodup
    · simp only [hlength, true_and, if_pos hcolumns, if_true, run]
      cases hnew : newRows (drawing env draw inserted) tick now name (tables name) columns params 0 tuples with
      | none => rfl
      | some new =>
        have haccepted : accepted env checks tenant name (grown (tables name) new) new =
            ((grown (tables name) new).keysHold && new.all ((drawing env draw inserted).permits tenant name) &&
              checks.met (grown (tables name) new).rows new) := rfl
        simp only [Option.bind_some, haccepted]
        cases hkept : (grown (tables name) new).keysHold && new.all ((drawing env draw inserted).permits tenant name) with
        | false =>
          rw [grown] at hkept
          simp [hkept]
        | true =>
          rw [grown] at hkept
          simp [hkept, Statement.table, grown, Option.map_eq_bind]
    · simp only [hlength, true_and, if_neg hcolumns, if_true, run]
      rfl
  · simp [hlength]

theorem grown_grown (table : Table) (new more : List Row) : grown (grown table new) more = grown table (new ++ more) := by
  rw [grown, grown, grown, List.append_assoc]

/-- The single insertion of a record. -/
theorem newRows_insert (model : Model) (record : Record) (tables : Tables) (inserted : Nat) :
    (if (SqlBuilder.insert env.casing model record).2.length ≤ maxParams ∧ columnsOf env record ≠ [] ∧
          (columnsOf env record).Nodup then
        newRows (drawing env draw inserted) tick now (tableName env.casing model) (tables (tableName env.casing model))
          (columnsOf env record) (SqlBuilder.insert env.casing model record).2 0 [(writeValues model record []).1]
      else none) =
      (recordRow env draw tick model (tables (tableName env.casing model)) inserted record).map fun row => [row] := by
  have hlength : (SqlBuilder.insert env.casing model record).2.length = (boundOf record).length := by
    rw [SqlBuilder.insert, writeValues_length, List.length_nil, Nat.zero_add]
  have hvalues := writtenValues_writeValues (drawing env draw inserted) env.casing now model
    (tables (tableName env.casing model)) record [] []
  rw [List.append_nil, dataValues_drawing] at hvalues
  rw [recordRow, hlength]
  split
  · simp only [newRows, SqlBuilder.insert, columnsOf, hvalues]
    cases dataValues env.pg env.casing model (tables (tableName env.casing model)) record <;> rfl
  · rfl

/-- Inserted one by one, the rows of the records are accepted one after the other. -/
theorem eachInsert_eq (model : Model) (records : List Record) (tables : Tables) (inserted : Nat) :
    insertInto env checks draw tick now tenant inserted (records.map (SqlBuilder.insert env.casing model)) tables =
      (recordRows env draw tick model (tables (tableName env.casing model)) inserted records).bind fun new =>
        if grows env checks tenant (tableName env.casing model) (tables (tableName env.casing model)) new then
          some (Function.update tables (tableName env.casing model) (grown (tables (tableName env.casing model)) new), new)
        else none := by
  induction records generalizing tables inserted with
  | nil =>
    have hsame : grown (tables (tableName env.casing model)) [] = tables (tableName env.casing model) := by
      rw [grown, List.append_nil]
    simp [insertInto, recordRows, grows, hsame]
  | cons record records ih =>
    have hinsert := newRows_insert env draw tick now model record tables inserted
    have hstep := insertInto_cons env checks draw tick now tenant inserted (tableName env.casing model)
      (columnsOf env record) [(writeValues model record []).1] (SqlBuilder.insert env.casing model record).2
      (records.map (SqlBuilder.insert env.casing model)) tables
    rw [hinsert] at hstep
    rw [List.map_cons]
    refine Eq.trans hstep ?_
    rw [recordRows]
    cases hrow : recordRow env draw tick model (tables (tableName env.casing model)) inserted record with
    | none => rfl
    | some row =>
      have hcolumns : (grown (tables (tableName env.casing model)) [row]).columns =
          (tables (tableName env.casing model)).columns := rfl
      have hrest : ∀ place,
          recordRows env draw tick model (grown (tables (tableName env.casing model)) [row]) place records =
            recordRows env draw tick model (tables (tableName env.casing model)) place records :=
        fun place => recordRows_congr env draw tick hcolumns place records
      simp only [Option.map_some, Option.bind_some, List.length_singleton, ih, Function.update_self, hrest]
      cases recordRows env draw tick model (tables (tableName env.casing model)) (inserted + 1) records with
      | none => simp
      | some rows =>
        simp only [Option.bind_eq_bind, Option.bind_some, grows, grown_grown, List.singleton_append, Function.update_idem]
        by_cases hfirst : accepted env checks tenant (tableName env.casing model)
            (grown (tables (tableName env.casing model)) [row]) [row] = true
        · by_cases hothers : grows env checks tenant (tableName env.casing model)
              (grown (tables (tableName env.casing model)) [row]) rows = true
          · simp [hfirst, hothers]
          · simp [hfirst, hothers]
        · simp [hfirst]

/-! ## One insertion for all -/

/-- A record with the keys of a batch is written in another order. -/
theorem batchRow_perm {keys : List String} {record : Record} (hkeys : keys.Nodup)
    (h : SqlBuilder.homogeneous keys record = true) : (batchRow keys record).Perm record := by
  simp only [SqlBuilder.homogeneous, Bool.and_eq_true, decide_eq_true_eq, List.all_eq_true] at h
  have hfirst : (batchRow keys record).map Prod.fst = keys := by
    rw [batchRow, List.map_map]
    exact List.map_id keys
  have hnodup : (batchRow keys record).Nodup := List.Nodup.of_map Prod.fst (by rw [hfirst]; exact hkeys)
  have hsubset : batchRow keys record ⊆ record := by
    intro entry hentry
    obtain ⟨key, hkey, rfl⟩ := List.mem_map.1 hentry
    obtain ⟨value, hvalue⟩ := Option.isSome_iff_exists.1 (h.2 key hkey)
    rw [hvalue]
    exact Schema.mem_of_lookup? hvalue
  apply (List.subperm_of_subset hnodup hsubset).perm_of_length_le
  rw [h.1, batchRow, List.length_map]

theorem lookup?_perm {α : Type} {entries entries' : List (String × α)} (h : entries.Perm entries')
    (hnodup : (entries.map Prod.fst).Nodup) (key : String) : lookup? key entries = lookup? key entries' := by
  induction h with
  | nil => rfl
  | cons entry _ ih =>
    rw [List.map_cons, List.nodup_cons] at hnodup
    have hrest := ih hnodup.2
    unfold lookup? at hrest ⊢
    rw [List.find?_cons, List.find?_cons]
    split
    · rfl
    · exact hrest
  | swap first second rest =>
    have hne : second.1 ≠ first.1 := by
      intro hsame
      simp [hsame] at hnodup
    unfold lookup?
    by_cases hfirst : first.1 = key
    · have hsecond : second.1 ≠ key := hfirst ▸ hne
      simp [hfirst, hsecond]
    · simp [List.find?_cons, hfirst]
  | trans hleft _ ihleft ihright => exact (ihleft hnodup).trans (ihright ((hleft.map Prod.fst).nodup_iff.1 hnodup))

/-- The values of a record in another order. -/
theorem dataValues_perm {model : Model} {table : Table} {data data' : Record} (h : data.Perm data')
    {values : List (String × SqlValue)} (hvalues : dataValues env.pg env.casing model table data = some values) :
    ∃ values', dataValues env.pg env.casing model table data' = some values' ∧ values.Perm values' := by
  induction h generalizing values with
  | nil => exact ⟨values, hvalues, .refl _⟩
  | cons entry _ ih =>
    simp only [dataValues, Option.bind_eq_bind, Option.bind_eq_some_iff] at hvalues
    obtain ⟨value, hvalue, rest, hrest, hcons⟩ := hvalues
    cases hcons
    obtain ⟨rest', hrest', hperm⟩ := ih hrest
    exact ⟨_, by rw [dataValues, hvalue, hrest']; rfl, hperm.cons _⟩
  | swap first second rest =>
    simp only [dataValues, Option.bind_eq_bind, Option.bind_eq_some_iff] at hvalues
    obtain ⟨value, hvalue, _, ⟨value', hvalue', more, hmore, hinner⟩, hcons⟩ := hvalues
    cases hinner
    cases hcons
    exact ⟨_, by rw [dataValues, hvalue', dataValues, hvalue, hmore]; rfl, .swap _ _ _⟩
  | trans _ _ ihleft ihright =>
    obtain ⟨middle, hmiddle, hfirst⟩ := ihleft hvalues
    obtain ⟨last, hlast, hsecond⟩ := ihright hmiddle
    exact ⟨last, hlast, hfirst.trans hsecond⟩

theorem columns_dataValues {model : Model} {table : Table} {data : Record} {values : List (String × SqlValue)}
    (h : dataValues env.pg env.casing model table data = some values) : values.map Prod.fst = columnsOf env data := by
  induction data generalizing values with
  | nil =>
    cases h
    rfl
  | cons entry data ih =>
    simp only [dataValues, Option.bind_eq_bind, Option.bind_eq_some_iff] at h
    obtain ⟨value, hvalue, rest, hrest, hcons⟩ := h
    cases hcons
    rw [List.map_cons, ih hrest]
    rfl

/-- The order of its entries does not matter to the row of a record. -/
theorem recordRow_perm (model : Model) (table : Table) (place : Nat) {record record' : Record}
    (h : record.Perm record') :
    recordRow env draw tick model table place record = recordRow env draw tick model table place record' := by
  have hcolumns : (columnsOf env record).Perm (columnsOf env record') := h.map _
  have hbound : (boundOf record).length = (boundOf record').length := (h.filter _).length_eq
  have hnil : columnsOf env record = [] ↔ columnsOf env record' = [] := by
    rw [← List.length_eq_zero_iff, hcolumns.length_eq, List.length_eq_zero_iff]
  unfold recordRow
  simp only [hbound, hcolumns.nodup_iff, ne_eq, hnil]
  split
  · next hwritten =>
    cases hvalues : dataValues env.pg env.casing model table record with
    | none =>
      cases hvalues' : dataValues env.pg env.casing model table record' with
      | none => rfl
      | some values' =>
        obtain ⟨values, hsome, -⟩ := dataValues_perm env h.symm hvalues'
        rw [hvalues] at hsome
        cases hsome
    | some values =>
      obtain ⟨values', hvalues', hperm⟩ := dataValues_perm env h hvalues
      have hnodup : (values.map Prod.fst).Nodup := by
        rw [columns_dataValues env hvalues, hcolumns.nodup_iff]
        exact hwritten.2.2
      rw [hvalues', Option.map_some, Option.map_some, newRow, newRow]
      simp only [lookup?_perm hperm hnodup]
  · rfl

theorem insertRows_params (model : Model) (keys : List String) (records : List Record) (params : List Json) :
    ∃ more, (SqlBuilder.insertRows model keys records params).2 = params ++ more := by
  induction records generalizing params with
  | nil => exact ⟨[], (List.append_nil params).symm⟩
  | cons record records ih =>
    obtain ⟨first, hfirst⟩ := writeValues_params model (batchRow keys record) params
    obtain ⟨rest, hrest⟩ := ih (writeValues model (batchRow keys record) params).2
    refine ⟨first ++ rest, ?_⟩
    rw [← List.append_assoc, ← hfirst, ← hrest]
    rfl

theorem boundOf_length_le (record : Record) : (boundOf record).length ≤ record.length :=
  List.length_filter_le _ _

theorem insertRows_length (model : Model) (keys : List String) (records : List Record) (params : List Json) :
    (SqlBuilder.insertRows model keys records params).2.length ≤ params.length + records.length * keys.length := by
  induction records generalizing params with
  | nil => simp [SqlBuilder.insertRows]
  | cons record records ih =>
    have hrest := ih (writeValues model (batchRow keys record) params).2
    have hbound := boundOf_length_le (batchRow keys record)
    have hkeys : (batchRow keys record).length = keys.length := List.length_map _
    rw [writeValues_length] at hrest
    rw [List.length_cons, Nat.succ_mul]
    refine le_trans hrest ?_
    omega

/-- The rows of a batch, in the order of the records. -/
theorem newRows_insertRows (model : Model) (table : Table) (keys : List String) (records : List Record)
    (params post : List Json) (place : Nat) (hkeys : keys ≠ []) (hcolumns : (keys.map (toSnakeCase env.casing)).Nodup)
    (hbound : keys.length ≤ maxParams) :
    newRows (drawing env draw 0) tick now (tableName env.casing model) table (keys.map (toSnakeCase env.casing))
        ((SqlBuilder.insertRows model keys records params).2 ++ post) place
        (SqlBuilder.insertRows model keys records params).1 =
      recordRows env draw tick model table place (records.map (batchRow keys)) := by
  induction records generalizing params place with
  | nil => rfl
  | cons record records ih =>
    obtain ⟨more, hmore⟩ := insertRows_params model keys records (writeValues model (batchRow keys record) params).2
    have hnames : (batchRow keys record).map (fun entry => toSnakeCase env.casing entry.1) =
        keys.map (toSnakeCase env.casing) := by
      rw [batchRow, List.map_map]
      rfl
    have hvalues := writtenValues_writeValues (drawing env draw 0) env.casing now model table (batchRow keys record) params
      (more ++ post)
    rw [hnames, ← List.append_assoc, ← hmore, dataValues_drawing] at hvalues
    have hrow : recordRow env draw tick model table place (batchRow keys record) =
        (dataValues env.pg env.casing model table (batchRow keys record)).map
          (newRow (drawing env draw place) tick (tableName env.casing model) 0 table) := by
      rw [recordRow, columnsOf, hnames, if_pos]
      have hlength : (batchRow keys record).length = keys.length := List.length_map _
      have hle := boundOf_length_le (batchRow keys record)
      exact ⟨by omega, by simpa using hkeys, hcolumns⟩
    have hrest := ih (writeValues model (batchRow keys record) params).2 (place + 1)
    have hinsert : SqlBuilder.insertRows model keys (record :: records) params =
        ((writeValues model (batchRow keys record) params).1 ::
          (SqlBuilder.insertRows model keys records (writeValues model (batchRow keys record) params).2).1,
          (SqlBuilder.insertRows model keys records (writeValues model (batchRow keys record) params).2).2) := rfl
    rw [List.map_cons, recordRows, hrow, ← hrest, hinsert, newRows, hvalues]
    cases dataValues env.pg env.casing model table (batchRow keys record) with
    | none => rfl
    | some values =>
      have hplace := newRow_drawing env draw tick 0 place (tableName env.casing model) table values
      rw [Nat.zero_add] at hplace
      rw [Option.map_some, ← hplace]
      rfl

theorem recordRows_batchRow (model : Model) (table : Table) {keys : List String} (hkeys : keys.Nodup)
    {records : List Record} (h : records.all (SqlBuilder.homogeneous keys) = true) (place : Nat) :
    recordRows env draw tick model table place (records.map (batchRow keys)) =
      recordRows env draw tick model table place records := by
  induction records generalizing place with
  | nil => rfl
  | cons record records ih =>
    rw [List.all_cons, Bool.and_eq_true] at h
    rw [List.map_cons, recordRows, recordRows, ih h.2,
      recordRow_perm env draw tick model table place (batchRow_perm hkeys h.1)]

/-- Inserted at once, the rows of the records are accepted together. -/
theorem bulkInsert_eq {model : Model} {records : List Record} {built : Statement × List Json}
    (hkeys : ∀ record ∈ records, (record.map Prod.fst).Nodup)
    (hbuilt : SqlBuilder.insertMany env.casing model records = some built) (tables : Tables) :
    insertInto env checks draw tick now tenant 0 [built] tables =
      (recordRows env draw tick model (tables (tableName env.casing model)) 0 records).bind fun new =>
        if accepted env checks tenant (tableName env.casing model)
            (grown (tables (tableName env.casing model)) new) new then
          some (Function.update tables (tableName env.casing model) (grown (tables (tableName env.casing model)) new), new)
        else none := by
  cases records with
  | nil => cases hbuilt
  | cons first rest =>
    simp only [SqlBuilder.insertMany, Option.ite_none_left_eq_some, Option.some.injEq, Bool.not_eq_true',
      Bool.not_eq_false] at hbuilt
    obtain ⟨hnonempty, hshape, hlimit, rfl⟩ := hbuilt
    generalize hsorted : (first.map Prod.fst).insertionSort (· ≤ ·) = keys at *
    have hkeys' : keys.Nodup := by
      rw [← hsorted, (List.perm_insertionSort _ _).nodup_iff]
      exact hkeys first List.mem_cons_self
    have hparams := insertRows_length model keys (first :: rest) []
    have hfew : (SqlBuilder.insertRows model keys (first :: rest) []).2.length ≤ maxParams := by
      rw [List.length_nil, Nat.zero_add] at hparams
      exact le_trans hparams (le_trans (Nat.le_of_not_lt hlimit) (by decide))
    have hkeysbound : keys.length ≤ maxParams := by
      have hone : keys.length ≤ (first :: rest).length * keys.length := Nat.le_mul_of_pos_left _ (Nat.succ_pos _)
      exact le_trans hone (le_trans (Nat.le_of_not_lt hlimit) (by decide))
    rw [insertInto_cons]
    by_cases hcolumns : (keys.map (toSnakeCase env.casing)).Nodup
    · have hnew := newRows_insertRows env draw tick now model (tables (tableName env.casing model)) keys (first :: rest)
        [] [] 0 (by rintro rfl; exact hnonempty rfl) hcolumns hkeysbound
      rw [List.append_nil, recordRows_batchRow env draw tick model _ hkeys' hshape] at hnew
      rw [if_pos ⟨hfew, by simpa using hnonempty, hcolumns⟩, hnew]
      simp [insertInto]
    · have hperm : (columnsOf env first).Perm (keys.map (toSnakeCase env.casing)) := by
        have hfirst := ((List.perm_insertionSort (· ≤ ·) (first.map Prod.fst)).map (toSnakeCase env.casing)).symm
        rw [hsorted, List.map_map] at hfirst
        exact hfirst
      have hnone : recordRow env draw tick model (tables (tableName env.casing model)) 0 first = none := by
        rw [recordRow, if_neg]
        rintro ⟨-, -, hnodup⟩
        exact hcolumns (hperm.nodup_iff.1 hnodup)
      rw [if_neg (fun h => hcolumns h.2.2), recordRows, hnone]
      rfl

/-! ## What the two insert -/

theorem accepted_iff (name : String) (table : Table) (new : List Row) :
    accepted env checks tenant name table new = true ↔
      table.keysHold = true ∧ table.rows.Pairwise (fun a b => checks.together a b = true) ∧
        ∀ row ∈ new, env.pg.permits tenant name row = true ∧ checks.alone row = true ∧
          checks.refers table.rows row = true := by
  simp only [accepted, TableChecks.met, Bool.and_eq_true, List.all_eq_true, decide_eq_true_eq]
  constructor
  · rintro ⟨⟨hkeys, hpermits⟩, ⟨halone, htogether⟩, hrefers⟩
    exact ⟨hkeys, htogether, fun row hrow => ⟨hpermits row hrow, halone row hrow, hrefers row hrow⟩⟩
  · rintro ⟨hkeys, htogether, hrows⟩
    exact ⟨⟨hkeys, fun row hrow => (hrows row hrow).1⟩, ⟨fun row hrow => (hrows row hrow).2.1, htogether⟩,
      fun row hrow => (hrows row hrow).2.2⟩

theorem refers_mono {rows rows' : List Row} (hrows : rows ⊆ rows') {row : Row} (h : checks.refers rows row = true) :
    checks.refers rows' row = true := by
  simp only [TableChecks.refers, List.all_eq_true, decide_eq_true_eq, List.any_eq_true] at h ⊢
  intro column hcolumn
  rcases h column hcolumn with hnull | ⟨target, htarget, hsame⟩
  · exact .inl hnull
  · exact .inr ⟨target, hrows htarget, hsame⟩

/-- Rows that are accepted one after the other are those that are accepted together and refer to none further down. -/
theorem grows_iff (name : String) (table : Table) {new : List Row} (hnew : new ≠ []) :
    grows env checks tenant name table new = true ↔
      accepted env checks tenant name (grown table new) new = true ∧ checks.Backward table.rows new := by
  induction new generalizing table with
  | nil => exact absurd rfl hnew
  | cons row rest ih =>
    rw [grows, Bool.and_eq_true]
    by_cases hrest : rest = []
    · subst hrest
      simp only [grows, TableChecks.Backward, and_true, accepted_iff]
      constructor
      · intro h
        exact ⟨h, (h.2.2 row List.mem_cons_self).2.2⟩
      · exact And.left
    · rw [ih _ hrest, grown_grown, List.singleton_append, accepted_iff, accepted_iff, accepted_iff, TableChecks.Backward]
      have hpart : (table.rows ++ [row]).Sublist (table.rows ++ row :: rest) :=
        (List.Sublist.cons_cons row (List.nil_sublist rest)).append_left table.rows
      constructor
      · rintro ⟨⟨-, -, hfirst⟩, ⟨hkeys, htogether, hothers⟩, hbackward⟩
        obtain ⟨hpermits, halone, hrefers⟩ := hfirst row List.mem_cons_self
        refine ⟨⟨hkeys, htogether, List.forall_mem_cons.2 ⟨⟨hpermits, halone, ?_⟩, hothers⟩⟩, hrefers, hbackward⟩
        exact refers_mono checks hpart.subset hrefers
      · rintro ⟨⟨hkeys, htogether, hrows⟩, hrefers, hbackward⟩
        rw [List.forall_mem_cons] at hrows
        have hprimary : (grown table [row]).primaryKey = (grown table (row :: rest)).primaryKey := rfl
        refine ⟨⟨Table.keysHold_sublist hprimary hpart hkeys, htogether.sublist hpart, ?_⟩, ⟨hkeys, htogether, hrows.2⟩, hbackward⟩
        intro r hr
        rw [List.mem_singleton.1 hr]
        exact ⟨hrows.1.1, hrows.1.2.1, hrefers⟩

theorem recordRows_length {model : Model} {table : Table} {records : List Record} {place : Nat} {new : List Row}
    (h : recordRows env draw tick model table place records = some new) : new.length = records.length := by
  induction records generalizing place new with
  | nil =>
    cases h
    rfl
  | cons record records ih =>
    simp only [recordRows, Option.bind_eq_bind, Option.bind_eq_some_iff] at h
    obtain ⟨row, -, rows, hrows, hcons⟩ := h
    cases hcons
    rw [List.length_cons, List.length_cons, ih hrows]

/-- The statements of a batch: one with few enough parameters, or those of the records. -/
theorem batch_params {model : Model} {records : List Record} {built : Statement × List Json}
    (h : built ∈ Write.batch env model records) :
    built.2.length ≤ 60000 ∨
      ∃ record ∈ records, built = SqlBuilder.insert env.casing model record ∧ built.2.length = (boundOf record).length := by
  have hsingle : ∀ record : Record, (SqlBuilder.insert env.casing model record).2.length = (boundOf record).length := by
    intro record
    rw [SqlBuilder.insert, writeValues_length, List.length_nil, Nat.zero_add]
  unfold Write.batch at h
  cases hmany : SqlBuilder.insertMany env.casing model records with
  | none =>
    rw [hmany] at h
    obtain ⟨record, hrecord, rfl⟩ := List.mem_map.1 h
    exact .inr ⟨record, hrecord, rfl, hsingle record⟩
  | some many =>
    rw [hmany] at h
    obtain rfl := List.mem_singleton.1 h
    left
    cases records with
    | nil => cases hmany
    | cons first rest =>
      simp only [SqlBuilder.insertMany, Option.ite_none_left_eq_some, Option.some.injEq] at hmany
      obtain ⟨-, -, hlimit, rfl⟩ := hmany
      have hparams := insertRows_length model ((first.map Prod.fst).insertionSort (· ≤ ·)) (first :: rest) []
      rw [List.length_nil, Nat.zero_add] at hparams
      exact le_trans hparams (Nat.le_of_not_lt hlimit)

/-- Bulk insertion: a statement has no more parameters than the limit of a batch or the bound values of one record. What
the insertions of the records one by one insert, it inserts as well, and conversely where no row refers to one further
down. -/
theorem bulk_inserts_each (env : Env) (checks : TableChecks) (draw : Nat → String → SqlValue) (tick : Nat) (now : Int)
    (tenant : Option String) (model : Model) (records : List Record) (tables : Tables)
    (hkeys : ∀ record ∈ records, (record.map Prod.fst).Nodup) :
    (∀ built ∈ Write.batch env model records, built.2.length ≤ 60000 ∨
      ∃ record ∈ records, built = SqlBuilder.insert env.casing model record ∧
        built.2.length = (boundOf record).length) ∧
    (∀ result, eachInsert env checks draw tick now tenant model records tables = some result →
      bulkInsert env checks draw tick now tenant model records tables = some result) ∧
    ∀ after new, bulkInsert env checks draw tick now tenant model records tables = some (after, new) →
      (eachInsert env checks draw tick now tenant model records tables = some (after, new) ↔
        checks.Backward (tables (tableName env.casing model)).rows new) := by
  refine ⟨fun built hbuilt => batch_params env hbuilt, ?_⟩
  have heach := eachInsert_eq env checks draw tick now tenant model records tables 0
  cases hmany : SqlBuilder.insertMany env.casing model records with
  | none =>
    have hsame : bulkInsert env checks draw tick now tenant model records tables =
        eachInsert env checks draw tick now tenant model records tables := by
      rw [bulkInsert, eachInsert, Write.batch, hmany]
    rw [hsame]
    refine ⟨fun _ => id, fun after new hafter => ⟨fun _ => ?_, fun _ => hafter⟩⟩
    rw [eachInsert, heach] at hafter
    obtain ⟨rows, hrows, haccepted⟩ := Option.bind_eq_some_iff.1 hafter
    obtain ⟨hgrows, hout⟩ := Option.ite_none_right_eq_some.1 haccepted
    cases hout
    by_cases hempty : new = []
    · rw [hempty]
      trivial
    · exact ((grows_iff env checks tenant _ _ hempty).1 hgrows).2
  | some built =>
    have hbulk := bulkInsert_eq env checks draw tick now tenant hkeys hmany tables
    rw [bulkInsert, eachInsert, Write.batch, hmany, hbulk, heach]
    cases hrows : recordRows env draw tick model (tables (tableName env.casing model)) 0 records with
    | none => exact ⟨fun _ => id, fun _ _ hnone => by cases hnone⟩
    | some rows =>
      have hsome : rows ≠ [] := by
        rintro rfl
        have hlength := recordRows_length env draw tick hrows
        rw [List.length_nil, eq_comm, List.length_eq_zero_iff] at hlength
        rw [hlength] at hmany
        cases hmany
      have hgrows := grows_iff env checks tenant (tableName env.casing model) (tables (tableName env.casing model)) hsome
      simp only [Option.bind_some, Option.ite_none_right_eq_some, hgrows]
      constructor
      · rintro result ⟨⟨haccepted, -⟩, hresult⟩
        exact ⟨haccepted, hresult⟩
      · rintro after new ⟨haccepted, hresult⟩
        cases hresult
        exact ⟨fun h => h.1.2, fun h => ⟨⟨haccepted, h⟩, rfl⟩⟩

/-- People with the managers that they have among themselves. -/
def staffModel : Model where
  name := "Staff"
  fields := [("managerId", { name := "managerId", fieldType := .string, optional := true })]
  relationships := [("manager", { kind := "belongsTo", model := "Staff", foreignKey := none })]

def staffEnv : Env :=
  .bare { models := [("Staff", staffModel)] }

def staffTables : Tables := fun _ =>
  { columns := [("id", .text), ("manager_id", .text)], primaryKey := some "id", rows := [] }

def staffChecks : TableChecks where
  alone _ := true
  together _ _ := true
  ownReferences := ["manager_id"]

def boss : Record :=
  [("id", .string "a"), ("managerId", .null)]

def clerk : Record :=
  [("managerId", .string "a"), ("id", .string "b")]

def staffRows : List Row :=
  [[("id", .text "a"), ("manager_id", .null)], [("id", .text "b"), ("manager_id", .text "a")]]

theorem bulk_inserts_each_staff :
    (bulkInsert staffEnv staffChecks (fun _ _ => .null) 0 0 none staffModel [boss, clerk] staffTables).map Prod.snd =
      some staffRows := by
  have heach : (eachInsert staffEnv staffChecks (fun _ _ => .null) 0 0 none staffModel [boss, clerk] staffTables).map
      Prod.snd = some staffRows := by decide
  obtain ⟨result, hresult, hrows⟩ := Option.map_eq_some_iff.1 heach
  rw [(bulk_inserts_each staffEnv staffChecks (fun _ _ => .null) 0 0 none staffModel [boss, clerk] staffTables
    (by decide)).2.1 result hresult, Option.map_some, hrows]

/-- A record of many values. -/
def wideRecord (n : Nat) : Record :=
  (List.range n).map fun i => (i.repr, .bool true)

theorem nodup_wideRecord (n : Nat) : ((wideRecord n).map Prod.fst).Nodup := by
  have hkeys : (wideRecord n).map Prod.fst = (List.range n).map Nat.repr := by
    rw [wideRecord, List.map_map]
    rfl
  rw [hkeys]
  exact List.nodup_range.map Debug.repr_injective

/-- A record that is too wide for a batch is inserted with all of its values. -/
theorem wide_batch (model : Model) {n : Nat} (hn : 60000 < n) :
    ∃ built ∈ Write.batch env model [wideRecord n], built.2.length = n := by
  have hlength : (wideRecord n).length = n := by
    rw [wideRecord, List.length_map, List.length_range]
  have hbound : boundOf (wideRecord n) = wideRecord n := by
    apply List.filter_eq_self.2
    intro entry hentry
    obtain ⟨i, -, rfl⟩ := List.mem_map.1 hentry
    rfl
  have hnone : SqlBuilder.insertMany env.casing model [wideRecord n] = none := by
    have hkeys : (((wideRecord n).map Prod.fst).insertionSort (· ≤ ·)).length = n := by
      rw [List.length_insertionSort, List.length_map, hlength]
    simp only [SqlBuilder.insertMany, hkeys, List.length_singleton, Nat.one_mul, gt_iff_lt, hn, if_true, ite_self]
  refine ⟨SqlBuilder.insert env.casing model (wideRecord n), ?_, ?_⟩
  · rw [Write.batch, hnone]
    exact List.mem_singleton_self _
  · rw [SqlBuilder.insert, writeValues_length, hbound, hlength, List.length_nil, Nat.zero_add]

/-- The clerk comes before the boss: inserted at once both are there, one by one neither is. And a record alone can
have too many values. -/
theorem clerk_before_boss :
    foreignKey .ascii { models := [("Staff", staffModel)] } staffModel "manager"
      { kind := "belongsTo", model := "Staff", foreignKey := none } = some ("manager_id", tableName .ascii staffModel) ∧
    (bulkInsert staffEnv staffChecks (fun _ _ => .null) 0 0 none staffModel [clerk, boss] staffTables).map Prod.snd =
      some staffRows.reverse ∧
    (eachInsert staffEnv staffChecks (fun _ _ => .null) 0 0 none staffModel [clerk, boss] staffTables).isNone = true ∧
    ((wideRecord 65536).map Prod.fst).Nodup ∧
    ∃ built ∈ Write.batch staffEnv staffModel [wideRecord 65536], built.2.length = 65536 := by
  refine ⟨by decide, by decide, by decide, nodup_wideRecord 65536, ?_⟩
  exact wide_batch staffEnv staffModel (by decide)

end Client
end Atomo

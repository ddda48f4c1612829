import Atomo.Query.SqlTokens

/-!
# What the built statements say

A request to the builder, as the client makes it, and what it means as a sequence of lexemes, stated
from the request alone: the fixed words, each name as one delimited identifier and each value where it
belongs. The placeholders of the built statement are `$1` to `$n` and stand for exactly that
(`Request.says`).
-/

namespace Atomo.Query

open Sql (Token Reads Lexeme Numbered Chained lex placeholders)
open Schema (Model lookup?)

variable (cc : CharCase)

/-! ## Meaning -/

/-- Tokens that nothing is bound to. -/
def fixed (toks : List Token) : List (Lexeme Json) :=
  toks.map .token

def compareLexemes (column : String) (op : Comparison) (asText : Bool) (value : Json) : List (Lexeme Json) :=
  fixed ([name column] ++ castTokens asText ++ op.tokens) ++ [.value value]

def likeLexemes (column : String) (before after : Bool) (value : Json) : List (Lexeme Json) :=
  fixed ([name column] ++ [keyword "ILIKE"] ++ wildBefore before) ++ [.value value] ++ fixed (wildAfter after)

def memberLexemes (column : String) (op : Comparison) (value : Json) : List (Lexeme Json) :=
  if value.isNull then fixed ([name column] ++ op.tokens ++ [keyword "NULL"])
  else compareLexemes column op value.isString value

/-- Membership of a column in the values, or in none of them. -/
def membershipLexemes (column : String) (negated : Bool) : Option (List Json) → List (Lexeme Json)
  | none => fixed [constantToken false]
  | some [] => fixed [constantToken negated]
  | some values =>
    fixed (symbols "(") ++
      (fixed (junction negated)).intercalate
        (values.map (memberLexemes column (if negated then .ne else .eq))) ++
      fixed (symbols ")")

def WhereClause.lexemes (clause : WhereClause) : List (Lexeme Json) :=
  let column := toSnakeCase cc clause.field
  match clause.operator with
  | .equals => compareLexemes column .eq clause.value.isString clause.value
  | .notEquals => compareLexemes column .ne clause.value.isString clause.value
  | .contains => likeLexemes column true true clause.value
  | .startsWith => likeLexemes column false true clause.value
  | .endsWith => likeLexemes column true false clause.value
  | .greaterThan => compareLexemes column .gt false clause.value
  | .greaterThanOrEqual => compareLexemes column .ge false clause.value
  | .lessThan => compareLexemes column .lt false clause.value
  | .lessThanOrEqual => compareLexemes column .le false clause.value
  | .isIn => membershipLexemes column false clause.value.asArray?
  | .notIn => membershipLexemes column true clause.value.asArray?
  | .isNull => fixed [name column, keyword "IS", keyword "NULL"]
  | .isNotNull => fixed [name column, keyword "IS", keyword "NOT", keyword "NULL"]

def whereLexemes (clauses : List WhereClause) : List (Lexeme Json) :=
  if clauses = [] then []
  else fixed [keyword "WHERE"] ++
    (fixed [keyword "AND"]).intercalate (clauses.map (WhereClause.lexemes cc))

/-- A value that is written under a key of the model. -/
def writtenLexemes (model : Model) (entry : String × Json) : List (Lexeme Json) :=
  if entry.2.isNull then fixed [keyword "NULL"]
  else
    [.value entry.2] ++
      fixed (if ((lookup? entry.1 model.fields).map (·.fieldType)) = some .dateTime then
        symbols "::" ++ [keyword "timestamptz"] else [])

def setLexemes (model : Model) (entry : String × Json) : List (Lexeme Json) :=
  fixed ([name (toSnakeCase cc entry.1)] ++ symbols "=") ++ writtenLexemes model entry

def tupleLexemes (model : Model) (row : List (String × Json)) : List (Lexeme Json) :=
  fixed (symbols "(") ++ (fixed (symbols ",")).intercalate (row.map (writtenLexemes model)) ++
    fixed (symbols ")")

/-- The rows of an insertion, each with its entries in the order of the keys. -/
def insertLexemes (model : Model) (keys : List String) (rows : List (List (String × Json))) :
    List (Lexeme Json) :=
  fixed ([keyword "INSERT", keyword "INTO"] ++ [name (tableName cc model)] ++ symbols "(" ++
    (symbols ",").intercalate (keys.map fun key => [name (toSnakeCase cc key)]) ++
    (symbols ")" ++ [keyword "VALUES"])) ++
  (fixed (symbols ",")).intercalate (rows.map (tupleLexemes model)) ++ fixed Returning.all.tokens

def selectLexemes (counting : Bool) (model : Model) (clauses : List WhereClause)
    (orderBy : List (String × OrderDirection)) (limit offset : Option Nat) : List (Lexeme Json) :=
  fixed (selectTokens counting ++ [name (tableName cc model)]) ++ whereLexemes cc clauses ++
    fixed (orderTokens (SqlBuilder.validOrder cc model orderBy) ++ boundTokens "LIMIT" limit ++
      boundTokens "OFFSET" offset)

/-- An update of the rows that the clauses select, setting what `sets` reads as. -/
def updateLexemes (model : Model) (sets : List (List (Lexeme Json))) (clauses : List WhereClause)
    (returning : Returning) : List (Lexeme Json) :=
  fixed ([keyword "UPDATE"] ++ [name (tableName cc model)] ++ [keyword "SET"]) ++
    (fixed (symbols ",")).intercalate sets ++ whereLexemes cc clauses ++ fixed returning.tokens

/-! ## Requests -/

inductive Request where
  | select (clauses : List WhereClause) (orderBy : List (String × OrderDirection)) (limit offset : Option Nat)
  | selectOne (clauses : List WhereClause)
  | selectActive (clauses : List WhereClause) (orderBy : List (String × OrderDirection))
      (limit offset : Option Nat)
  | selectDeleted (clauses : List WhereClause) (orderBy : List (String × OrderDirection))
      (limit offset : Option Nat)
  | count (clauses : List WhereClause)
  | countDeleted (clauses : List WhereClause)
  | insert (data : List (String × Json))
  | insertMany (records : List (List (String × Json)))
  | update (clauses : List WhereClause) (data : List (String × Json))
  | delete (clauses : List WhereClause)
  | softDelete (clauses : List WhereClause)
  | restore (clauses : List WhereClause)

/-- The statement built, with its parameters; `insert_many` may decline. -/
def Request.build (model : Model) : Request → Option (Statement × List Json)
  | .select clauses orderBy limit offset => some (SqlBuilder.select cc model clauses orderBy limit offset)
  | .selectOne clauses => some (SqlBuilder.selectOne cc model clauses)
  | .selectActive clauses orderBy limit offset =>
    some (SqlBuilder.selectActive cc model clauses orderBy limit offset)
  | .selectDeleted clauses orderBy limit offset =>
    some (SqlBuilder.selectDeleted cc model clauses orderBy limit offset)
  | .count clauses => some (SqlBuilder.count cc model clauses)
  | .countDeleted clauses => some (SqlBuilder.countDeleted cc model clauses)
  | .insert data => some (SqlBuilder.insert cc model data)
  | .insertMany records => SqlBuilder.insertMany cc model records
  | .update clauses data => some (SqlBuilder.update cc model clauses data)
  | .delete clauses => some (SqlBuilder.delete cc model clauses)
  | .softDelete clauses => some (SqlBuilder.softDelete cc model clauses)
  | .restore clauses => some (SqlBuilder.restore cc model clauses)

/-- The keys of a batch, in the order of its columns. -/
def batchKeys (records : List (List (String × Json))) : List String :=
  ((records.headD []).map Prod.fst).insertionSort (· ≤ ·)

def batchRow (keys : List String) (record : List (String × Json)) : List (String × Json) :=
  keys.map fun key => (key, (lookup? key record).getD .null)

def Request.lexemes (model : Model) : Request → List (Lexeme Json)
  | .select clauses orderBy limit offset => selectLexemes cc false model clauses orderBy limit offset
  | .selectOne clauses => selectLexemes cc false model clauses [] (some 1) none
  | .selectActive clauses orderBy limit offset =>
    selectLexemes cc false model (clauses ++ [SqlBuilder.notDeleted]) orderBy limit offset
  | .selectDeleted clauses orderBy limit offset =>
    selectLexemes cc false model (clauses ++ [SqlBuilder.isDeleted]) orderBy limit offset
  | .count clauses => selectLexemes cc true model (clauses ++ [SqlBuilder.notDeleted]) [] none none
  | .countDeleted clauses => selectLexemes cc true model (clauses ++ [SqlBuilder.isDeleted]) [] none none
  | .insert data => insertLexemes cc model (data.map Prod.fst) [data]
  | .insertMany records =>
    insertLexemes cc model (batchKeys records) (records.map (batchRow (batchKeys records)))
  | .update clauses data => updateLexemes cc model (data.map (setLexemes cc model)) clauses .all
  | .delete clauses =>
    fixed ([keyword "DELETE", keyword "FROM"] ++ [name (tableName cc model)]) ++ whereLexemes cc clauses ++
      fixed Returning.id.tokens
  | .softDelete clauses =>
    updateLexemes cc model [fixed (setTokens ("deleted_at", .now))] clauses .id
  | .restore clauses =>
    updateLexemes cc model [fixed (setTokens ("deleted_at", .null))] clauses .id

/-! ## The placeholders stand for their values -/

@[simp] theorem placeholders_word (s : List Char) (toks : List Token) :
    placeholders (.word s :: toks) = placeholders toks :=
  rfl

@[simp] theorem placeholders_keyword (s : String) (toks : List Token) :
    placeholders (keyword s :: toks) = placeholders toks :=
  rfl

@[simp] theorem placeholders_name (s : String) (toks : List Token) :
    placeholders (name s :: toks) = placeholders toks :=
  rfl

@[simp] theorem placeholders_text (s : List Char) (toks : List Token) :
    placeholders (.text s :: toks) = placeholders toks :=
  rfl

@[simp] theorem placeholders_nil : placeholders [] = [] :=
  rfl

@[simp] theorem placeholders_symbols (s : String) : placeholders (symbols s) = [] := by
  rw [symbols, placeholders, List.filterMap_map]
  exact List.filterMap_eq_nil_iff.2 fun _ _ => rfl

@[simp] theorem placeholders_comparison (op : Comparison) : placeholders op.tokens = [] :=
  placeholders_symbols _

@[simp] theorem placeholders_cast (asText : Bool) : placeholders (castTokens asText) = [] := by
  cases asText <;> simp [castTokens]

theorem compare_numbered (column : String) (op : Comparison) (asText : Bool) (value : Json) {idx : Nat}
    (hidx : 0 < idx) :
    Numbered idx ([name column] ++ castTokens asText ++ op.tokens ++ [.param idx]) [value]
      (compareLexemes column op asText value) :=
  (Sql.numbered_fixed (by simp)).append (Sql.numbered_param value hidx)

theorem like_numbered (column : String) (before after : Bool) (value : Json) {idx : Nat} (hidx : 0 < idx) :
    Numbered idx (Condition.like column before after idx).tokens [value]
      (likeLexemes column before after value) := by
  have hbefore : placeholders ([name column] ++ [keyword "ILIKE"] ++ wildBefore before) = [] := by
    cases before <;> simp [wildBefore]
  have hafter : placeholders (wildAfter after) = [] := by
    cases after <;> simp [wildAfter]
  exact ((Sql.numbered_fixed hbefore).append (Sql.numbered_param value hidx)).append
    (Sql.numbered_fixed hafter)

theorem null_numbered (column : String) (op : Comparison) (idx : Nat) :
    Numbered idx (Member.null column op).tokens ([] : List Json)
      (fixed ([name column] ++ op.tokens ++ [keyword "NULL"])) := by
  have h : placeholders ([name column] ++ op.tokens ++ [keyword "NULL"]) = [] := by simp
  exact Sql.numbered_fixed h

theorem whereMembers_chained (column : String) (op : Comparison) (values : List Json) {idx : Nat}
    (hidx : 0 < idx) :
    Chained idx ((whereMembers column op values idx).1.map Member.tokens)
        (whereMembers column op values idx).2.1 (values.map (memberLexemes column op)) ∧
      (whereMembers column op values idx).2.2 = idx + (whereMembers column op values idx).2.1.length := by
  induction values generalizing idx with
  | nil => exact ⟨.nil idx, rfl⟩
  | cons value values ih =>
    by_cases hnull : value.isNull = true
    · obtain ⟨hrest, hnext⟩ := ih hidx
      simp only [whereMembers, hnull, if_true, List.map_cons, memberLexemes]
      exact ⟨.cons (null_numbered column op idx) hrest, hnext⟩
    · obtain ⟨hrest, hnext⟩ := ih (Nat.add_pos_right idx Nat.one_pos)
      simp only [whereMembers, hnull, List.map_cons, memberLexemes, Bool.false_eq_true, if_false]
      refine ⟨.cons (compare_numbered column op value.isString value hidx) hrest, ?_⟩
      show (whereMembers column op values (idx + 1)).2.2 =
        idx + ((whereMembers column op values (idx + 1)).2.1.length + 1)
      omega

theorem membership_numbered (column : String) (negated : Bool) (values : List Json) {idx : Nat}
    (hidx : 0 < idx) :
    Numbered idx
      (Condition.group negated
        (whereMembers column (if negated then .ne else .eq) values idx).1).tokens
      (whereMembers column (if negated then .ne else .eq) values idx).2.1
      (fixed (symbols "(") ++
        (fixed (junction negated)).intercalate
          (values.map (memberLexemes column (if negated then .ne else .eq))) ++
        fixed (symbols ")")) := by
  have hmembers := (whereMembers_chained column (if negated then .ne else .eq) values hidx).1.intercalate
    (junction negated) (by cases negated <;> rfl)
  have hopen : Numbered idx (symbols "(") ([] : List Json) (fixed (symbols "(")) :=
    Sql.numbered_fixed (placeholders_symbols _)
  have hread := (hopen.append hmembers).append (Sql.numbered_fixed (placeholders_symbols ")"))
  simpa only [Condition.tokens, fixed, List.nil_append, List.append_nil] using hread

/-- The clause is numbered from `idx` on, and the next one from where it ends. -/
def ClauseNumbered (clause : WhereClause) (idx : Nat) : Prop :=
  Numbered idx (whereClause cc clause idx).1.tokens (whereClause cc clause idx).2.1 (clause.lexemes cc) ∧
    (whereClause cc clause idx).2.2 = idx + (whereClause cc clause idx).2.1.length

theorem membershipClause_numbered {clause : WhereClause} (negated : Bool)
    (hop : clause.operator = if negated then .notIn else .isIn) {idx : Nat} (hidx : 0 < idx) :
    ClauseNumbered cc clause idx := by
  obtain ⟨field, operator, value⟩ := clause
  subst hop
  cases value with
  | array values =>
    cases values with
    | nil => cases negated <;> exact ⟨Sql.numbered_fixed rfl, rfl⟩
    | cons v values =>
      have hnumbered := membership_numbered (toSnakeCase cc field) negated (v :: values) hidx
      have hnext := (whereMembers_chained (toSnakeCase cc field) (if negated then .ne else .eq)
        (v :: values) hidx).2
      cases negated <;> exact ⟨hnumbered, hnext⟩
  | _ => cases negated <;> exact ⟨Sql.numbered_fixed rfl, rfl⟩

theorem whereClause_numbered (clause : WhereClause) {idx : Nat} (hidx : 0 < idx) :
    ClauseNumbered cc clause idx := by
  obtain ⟨field, operator, value⟩ := clause
  have hcompare := fun op asText => compare_numbered (toSnakeCase cc field) op asText value hidx
  have hlike := fun before after => like_numbered (toSnakeCase cc field) before after value hidx
  cases operator with
  | equals => exact ⟨hcompare _ _, rfl⟩
  | notEquals => exact ⟨hcompare _ _, rfl⟩
  | greaterThan => exact ⟨hcompare _ false, rfl⟩
  | greaterThanOrEqual => exact ⟨hcompare _ false, rfl⟩
  | lessThan => exact ⟨hcompare _ false, rfl⟩
  | lessThanOrEqual => exact ⟨hcompare _ false, rfl⟩
  | contains => exact ⟨hlike true true, rfl⟩
  | startsWith => exact ⟨hlike false true, rfl⟩
  | endsWith => exact ⟨hlike true false, rfl⟩
  | isIn => exact membershipClause_numbered cc false rfl hidx
  | notIn => exact membershipClause_numbered cc true rfl hidx
  | isNull => exact ⟨Sql.numbered_fixed rfl, rfl⟩
  | isNotNull => exact ⟨Sql.numbered_fixed rfl, rfl⟩

theorem whereClauses_chained (clauses : List WhereClause) {idx : Nat} (hidx : 0 < idx) :
    Chained idx ((whereClauses cc clauses idx).1.map Condition.tokens) (whereClauses cc clauses idx).2
      (clauses.map (WhereClause.lexemes cc)) := by
  induction clauses generalizing idx with
  | nil => exact .nil idx
  | cons clause clauses ih =>
    obtain ⟨hclause, hnext⟩ := whereClause_numbered cc clause hidx
    have hpos : 0 < (whereClause cc clause idx).2.2 := by omega
    have hrest := ih hpos
    have hchain : Chained (idx + (whereClause cc clause idx).2.1.length)
        ((whereClauses cc clauses (whereClause cc clause idx).2.2).1.map Condition.tokens)
        (whereClauses cc clauses (whereClause cc clause idx).2.2).2
        (clauses.map (WhereClause.lexemes cc)) := by
      rw [← hnext]
      exact hrest
    exact .cons hclause hchain

theorem whereClauses_eq_nil {clauses : List WhereClause} {idx : Nat} :
    (whereClauses cc clauses idx).1 = [] ↔ clauses = [] := by
  cases clauses <;> simp [whereClauses]

theorem buildWhere_numbered (clauses : List WhereClause) (paramOffset : Nat) :
    Numbered (paramOffset + 1) (whereTokens (buildWhere cc clauses paramOffset).1)
      (buildWhere cc clauses paramOffset).2 (whereLexemes cc clauses) := by
  rw [buildWhere, whereTokens, whereLexemes]
  simp only [whereClauses_eq_nil]
  by_cases h : clauses = []
  · subst h
    exact Sql.numbered_nil
  · have hclauses := (whereClauses_chained cc clauses (Nat.succ_pos paramOffset)).intercalate
      [keyword "AND"] rfl
    have hwhere : Numbered (paramOffset + 1) [keyword "WHERE"] ([] : List Json) (fixed [keyword "WHERE"]) :=
      Sql.numbered_fixed rfl
    rw [if_neg h, if_neg h]
    exact hwhere.append hclauses

/-! ## Written values -/

theorem writeValue_numbered (model : Model) (key : String) (value : Json) (params : List Json) :
    ∃ bound, (writeValue model key value params).2 = params ++ bound ∧
      Numbered (params.length + 1) (writeValue model key value params).1.tokens bound
        (writtenLexemes model (key, value)) := by
  by_cases hnull : value.isNull = true
  · simp only [writeValue, writtenLexemes, hnull, if_true]
    exact ⟨[], (List.append_nil params).symm, Sql.numbered_fixed rfl⟩
  · have hparam : Numbered (params.length + 1) [.param (params.length + 1)] [value] [.value value] :=
      Sql.numbered_param value (by omega)
    simp only [writeValue, writtenLexemes, hnull, Bool.false_eq_true, if_false, List.length_append,
      List.length_singleton, Written.tokens]
    refine ⟨[value], rfl, ?_⟩
    by_cases hdate : ((lookup? key model.fields).map (·.fieldType)) = some .dateTime
    · simp only [hdate, if_true, decide_true]
      exact hparam.append (Sql.numbered_fixed rfl)
    · simp only [hdate, if_false, decide_false, Bool.false_eq_true]
      exact hparam.append Sql.numbered_nil

/-- The values written for the entries of an object, each after tokens of its own. -/
theorem writeValues_chained (model : Model) (lead : String × Json → List Token)
    (hlead : ∀ entry, placeholders (lead entry) = []) (data : List (String × Json)) (params : List Json) :
    ∃ bound, (writeValues model data params).2 = params ++ bound ∧
      Chained (params.length + 1)
        ((data.zip (writeValues model data params).1).map fun pair => lead pair.1 ++ pair.2.tokens) bound
        (data.map fun entry => fixed (lead entry) ++ writtenLexemes model entry) := by
  induction data generalizing params with
  | nil => exact ⟨[], (List.append_nil params).symm, .nil _⟩
  | cons entry data ih =>
    obtain ⟨bound, hbound, hnumbered⟩ := writeValue_numbered model entry.1 entry.2 params
    obtain ⟨rest, hrest, hchained⟩ := ih (writeValue model entry.1 entry.2 params).2
    have hfixed : Numbered (params.length + 1) (lead entry) ([] : List Json) (fixed (lead entry)) :=
      Sql.numbered_fixed (hlead entry)
    refine ⟨bound ++ rest, ?_, ?_⟩
    · rw [← List.append_assoc, ← hbound, ← hrest]
      rfl
    · have hhead : Numbered (params.length + 1) (lead entry ++ (writeValue model entry.1 entry.2 params).1.tokens)
          bound (fixed (lead entry) ++ writtenLexemes model entry) := hfixed.append hnumbered
      rw [hbound, List.length_append, Nat.add_right_comm, ← hbound] at hchained
      exact .cons hhead hchained

theorem length_writeValues (model : Model) (data : List (String × Json)) (params : List Json) :
    (writeValues model data params).1.length = data.length := by
  induction data generalizing params with
  | nil => rfl
  | cons entry data ih =>
    show (writeValues model data (writeValue model entry.1 entry.2 params).2).1.length + 1 = _
    rw [ih, List.length_cons]

theorem tuple_numbered (model : Model) (row : List (String × Json)) (params : List Json) :
    ∃ bound, (writeValues model row params).2 = params ++ bound ∧
      Numbered (params.length + 1) (tupleTokens (writeValues model row params).1) bound
        (tupleLexemes model row) := by
  obtain ⟨bound, hbound, hchained⟩ := writeValues_chained model (fun _ => []) (fun _ => rfl) row params
  have hzip : (row.zip (writeValues model row params).1).map (fun pair => [] ++ pair.2.tokens) =
      (writeValues model row params).1.map Written.tokens := by
    have hsnd := List.map_snd_zip (Nat.le_of_eq (length_writeValues model row params))
    rw [← congrArg (List.map Written.tokens) hsnd, List.map_map]
    rfl
  rw [hzip] at hchained
  have hopen : Numbered (params.length + 1) (symbols "(") ([] : List Json) (fixed (symbols "(")) :=
    Sql.numbered_fixed (placeholders_symbols _)
  have hvalues := hchained.intercalate (symbols ",") (placeholders_symbols _)
  have hread := (hopen.append hvalues).append (Sql.numbered_fixed (placeholders_symbols ")"))
  refine ⟨bound, hbound, ?_⟩
  simpa only [tupleTokens, tupleLexemes, fixed, List.nil_append, List.append_nil, List.map_nil] using hread

theorem insertRows_chained (model : Model) (keys : List String) (records : List (List (String × Json)))
    (params : List Json) :
    ∃ bound, (SqlBuilder.insertRows model keys records params).2 = params ++ bound ∧
      Chained (params.length + 1) ((SqlBuilder.insertRows model keys records params).1.map tupleTokens) bound
        ((records.map (batchRow keys)).map (tupleLexemes model)) := by
  induction records generalizing params with
  | nil => exact ⟨[], (List.append_nil params).symm, .nil _⟩
  | cons record records ih =>
    obtain ⟨bound, hbound, hnumbered⟩ := tuple_numbered model (batchRow keys record) params
    obtain ⟨rest, hrest, hchained⟩ := ih (writeValues model (batchRow keys record) params).2
    refine ⟨bound ++ rest, ?_, ?_⟩
    · rw [← List.append_assoc, ← hbound, ← hrest]
      rfl
    · rw [hbound, List.length_append, Nat.add_right_comm, ← hbound] at hchained
      exact .cons hnumbered hchained

/-! ## Whole statements -/

/-- The placeholders of the statement are `$1` to `$n` for its parameters, and stand for them as `l` says. -/
def Says (built : Statement × List Json) (l : List (Lexeme Json)) : Prop :=
  Numbered 1 built.1.tokens built.2 l

theorem select_says (counting : Bool) (model : Model) (clauses : List WhereClause)
    (orderBy : List (String × OrderDirection)) (limit offset : Option Nat) :
    Says (.select counting (tableName cc model) (buildWhere cc clauses 0).1
        (SqlBuilder.validOrder cc model orderBy) limit offset, (buildWhere cc clauses 0).2)
      (selectLexemes cc counting model clauses orderBy limit offset) := by
  have hhead : placeholders (selectTokens counting ++ [name (tableName cc model)]) = [] := by
    cases counting <;> rfl
  have horder : ∀ order : List (String × OrderDirection), placeholders (orderTokens order) = [] := by
    intro order
    by_cases h : order = []
    · simp [orderTokens, h]
    · have hentries := Sql.placeholders_intercalate (placeholders_symbols ",")
        (order.map fun entry => [name entry.1] ++ OrderDirection.tokens entry.2) fun piece hpiece => by
          obtain ⟨entry, -, rfl⟩ := List.mem_map.1 hpiece
          rfl
      rw [orderTokens, if_neg h, Sql.placeholders_append]
      exact hentries
  have hbound : ∀ word bound, placeholders (boundTokens word bound) = [] := by
    intro word bound
    cases bound <;> rfl
  have htail : placeholders (orderTokens (SqlBuilder.validOrder cc model orderBy) ++
      boundTokens "LIMIT" limit ++ boundTokens "OFFSET" offset) = [] := by
    simp [horder, hbound]
  have hread := ((Sql.numbered_fixed hhead).append (buildWhere_numbered cc clauses 0)).append
    (Sql.numbered_fixed htail)
  simpa only [Says, selectLexemes, Statement.tokens, fixed, List.nil_append, List.append_nil,
    List.append_assoc] using hread

theorem placeholders_columns (keys : List String) :
    placeholders ((symbols ",").intercalate (keys.map fun key => [name (toSnakeCase cc key)])) = [] :=
  Sql.placeholders_intercalate (placeholders_symbols ",") _ (by simp)

theorem insert_says (model : Model) (keys : List String) {rows : List (List (String × Json))}
    {tuples : List (List Written)} {params : List Json}
    (hchained : Chained 1 (tuples.map tupleTokens) params (rows.map (tupleLexemes model))) :
    Says (.insert (tableName cc model) (keys.map (toSnakeCase cc)) tuples, params)
      (insertLexemes cc model keys rows) := by
  have hhead : placeholders ([keyword "INSERT", keyword "INTO"] ++ [name (tableName cc model)] ++
      symbols "(" ++ (symbols ",").intercalate (keys.map fun key => [name (toSnakeCase cc key)]) ++
      (symbols ")" ++ [keyword "VALUES"])) = [] := by
    simp [placeholders_columns]
  have hrows := hchained.intercalate (symbols ",") (placeholders_symbols _)
  have hreturning : placeholders Returning.all.tokens = [] := rfl
  have hread := ((Sql.numbered_fixed hhead).append hrows).append (Sql.numbered_fixed hreturning)
  simpa only [Says, insertLexemes, Statement.tokens, fixed, List.nil_append, List.append_nil,
    List.map_map, Function.comp_def] using hread

theorem update_says (model : Model) (clauses : List WhereClause) (returning : Returning)
    {sets : List (String × Written)} {params : List Json} {ls : List (List (Lexeme Json))}
    (hchained : Chained 1 (sets.map setTokens) params ls) :
    Says (.update (tableName cc model) sets (buildWhere cc clauses params.length).1 returning,
        params ++ (buildWhere cc clauses params.length).2)
      (updateLexemes cc model ls clauses returning) := by
  have hhead : placeholders ([keyword "UPDATE"] ++ [name (tableName cc model)] ++ [keyword "SET"]) = [] := rfl
  have hreturning : placeholders returning.tokens = [] := by
    cases returning <;> rfl
  have hsets := (Sql.numbered_fixed hhead).append (hchained.intercalate (symbols ",") (placeholders_symbols _))
  rw [List.nil_append] at hsets
  have hwhere := buildWhere_numbered cc clauses params.length
  rw [Nat.add_comm] at hwhere
  have hread := (hsets.append hwhere).append (Sql.numbered_fixed hreturning)
  simpa only [Says, updateLexemes, Statement.tokens, fixed, List.append_nil] using hread

theorem delete_says (model : Model) (clauses : List WhereClause) :
    Says (SqlBuilder.delete cc model clauses) (Request.lexemes cc model (.delete clauses)) := by
  have hhead : placeholders ([keyword "DELETE", keyword "FROM"] ++ [name (tableName cc model)]) = [] := rfl
  have hreturning : placeholders Returning.id.tokens = [] := rfl
  have hread := ((Sql.numbered_fixed hhead).append (buildWhere_numbered cc clauses 0)).append
    (Sql.numbered_fixed hreturning)
  simpa only [Says, Request.lexemes, Statement.tokens, SqlBuilder.delete, fixed, List.nil_append,
    List.append_nil] using hread

theorem insert_built_says (model : Model) (data : List (String × Json)) :
    Says (SqlBuilder.insert cc model data) (Request.lexemes cc model (.insert data)) := by
  obtain ⟨bound, hbound, hnumbered⟩ := tuple_numbered model data []
  rw [List.nil_append] at hbound
  have hchained := Chained.cons hnumbered (.nil _)
  rw [List.append_nil, ← hbound] at hchained
  have hsays : Says (.insert (tableName cc model) ((data.map Prod.fst).map (toSnakeCase cc))
      [(writeValues model data []).1], (writeValues model data []).2)
      (insertLexemes cc model (data.map Prod.fst) [data]) := insert_says cc model _ hchained
  rwa [List.map_map] at hsays

theorem insertMany_says (model : Model) (records : List (List (String × Json))) {built : Statement × List Json}
    (h : SqlBuilder.insertMany cc model records = some built) :
    Says built (Request.lexemes cc model (.insertMany records)) := by
  cases records with
  | nil => cases h
  | cons first records =>
    obtain ⟨bound, hbound, hchained⟩ := insertRows_chained model (batchKeys (first :: records))
      (first :: records) []
    rw [List.nil_append] at hbound
    rw [← hbound] at hchained
    have hsays := insert_says cc model (batchKeys (first :: records)) hchained
    simp only [SqlBuilder.insertMany] at h
    split at h
    · cases h
    · split at h
      · cases h
      · split at h
        · cases h
        · cases h
          exact hsays

theorem update_built_says (model : Model) (clauses : List WhereClause) (data : List (String × Json)) :
    Says (SqlBuilder.update cc model clauses data) (Request.lexemes cc model (.update clauses data)) := by
  obtain ⟨bound, hbound, hchained⟩ := writeValues_chained model
    (fun entry => [name (toSnakeCase cc entry.1)] ++ symbols "=") (fun entry => by simp) data []
  rw [List.nil_append] at hbound
  rw [← hbound] at hchained
  have hsets : ((data.map fun entry => toSnakeCase cc entry.1).zip (writeValues model data []).1).map setTokens =
      (data.zip (writeValues model data []).1).map
        fun pair => ([name (toSnakeCase cc pair.1.1)] ++ symbols "=") ++ pair.2.tokens := by
    rw [List.zip_map_left, List.map_map]
    rfl
  have hchain : Chained 1
      (((data.map fun entry => toSnakeCase cc entry.1).zip (writeValues model data []).1).map setTokens)
      (writeValues model data []).2 (data.map (setLexemes cc model)) := by
    rw [hsets]
    exact hchained
  exact update_says cc model clauses .all hchain

/-- A single set of a fixed value. -/
theorem fixed_update_says (model : Model) (clauses : List WhereClause) (set : String × Written)
    (hset : placeholders (setTokens set) = []) :
    Says (.update (tableName cc model) [set] (buildWhere cc clauses 0).1 .id, (buildWhere cc clauses 0).2)
      (updateLexemes cc model [fixed (setTokens set)] clauses .id) := by
  have hnumbered : Numbered 1 (setTokens set) ([] : List Json) (fixed (setTokens set)) :=
    Sql.numbered_fixed hset
  have hchained : Chained 1 ([set].map setTokens) ([] : List Json) [fixed (setTokens set)] :=
    .cons hnumbered (.nil _)
  exact update_says cc model clauses .id hchained

theorem Request.says (model : Model) (request : Request) {built : Statement × List Json}
    (h : request.build cc model = some built) : Says built (request.lexemes cc model) := by
  cases request with
  | insertMany records => exact insertMany_says cc model records h
  | select clauses orderBy limit offset => cases h; exact select_says cc false model clauses orderBy limit offset
  | selectOne clauses => cases h; exact select_says cc false model clauses [] (some 1) none
  | selectActive clauses orderBy limit offset =>
    cases h; exact select_says cc false model _ orderBy limit offset
  | selectDeleted clauses orderBy limit offset =>
    cases h; exact select_says cc false model _ orderBy limit offset
  | count clauses => cases h; exact select_says cc true model _ [] none none
  | countDeleted clauses => cases h; exact select_says cc true model _ [] none none
  | insert data => cases h; exact insert_built_says cc model data
  | update clauses data => cases h; exact update_built_says cc model clauses data
  | delete clauses => cases h; exact delete_says cc model clauses
  | softDelete clauses => cases h; exact fixed_update_says cc model clauses _ rfl
  | restore clauses => cases h; exact fixed_update_says cc model clauses _ rfl

end Atomo.Query

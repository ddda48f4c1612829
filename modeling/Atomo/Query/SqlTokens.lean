import Atomo.Lib.SqlText
import Atomo.Query.SqlBuilder

/-!
# The tokens of the built statements

How the text of a statement reads, and what its placeholders stand for. The tokens of each part of a
statement are found from its syntax tree (`Statement.reads`); what a request means as a sequence of
lexemes is stated from the request alone (`Request.lexemes`), each value in its place.
-/

namespace Atomo.Query

open Sql (Token Reads ReadsAlone Apart Lexeme Numbered Chained lex)
open Schema (Model lookup?)

/-! ## Tokens -/

def keyword (s : String) : Token :=
  .word s.toList

def symbols (s : String) : List Token :=
  s.toList.map .symbol

def name (s : String) : Token :=
  .ident s.toList

def Comparison.tokens (op : Comparison) : List Token :=
  symbols op.sql

def castTokens (asText : Bool) : List Token :=
  if asText then symbols "::" ++ [keyword "text"] else []

def Member.tokens : Member → List Token
  | .compare column asText op param => [name column] ++ castTokens asText ++ op.tokens ++ [.param param]
  | .null column op => [name column] ++ op.tokens ++ [keyword "NULL"]

def wildBefore (before : Bool) : List Token :=
  if before then [.text ['%']] ++ symbols "||" else []

def wildAfter (after : Bool) : List Token :=
  if after then symbols "||" ++ [.text ['%']] else []

def junction (conjunctive : Bool) : List Token :=
  [keyword (if conjunctive then "AND" else "OR")]

def constantToken (value : Bool) : Token :=
  keyword (if value then "TRUE" else "FALSE")

def Condition.tokens : Condition → List Token
  | .compare column asText op param => [name column] ++ castTokens asText ++ op.tokens ++ [.param param]
  | .like column before after param =>
    [name column] ++ [keyword "ILIKE"] ++ wildBefore before ++ [.param param] ++ wildAfter after
  | .constant value => [constantToken value]
  | .group conjunctive members =>
    symbols "(" ++ (junction conjunctive).intercalate (members.map Member.tokens) ++ symbols ")"
  | .isNull column => [name column] ++ ([keyword "IS"] ++ [keyword "NULL"])
  | .isNotNull column => [name column] ++ ([keyword "IS", keyword "NOT"] ++ [keyword "NULL"])

def Written.tokens : Written → List Token
  | .null => [keyword "NULL"]
  | .now => [keyword "NOW"] ++ symbols "()"
  | .param n asTimestamp => [.param n] ++ if asTimestamp then symbols "::" ++ [keyword "timestamptz"] else []

def whereTokens (conditions : List Condition) : List Token :=
  if conditions = [] then []
  else [keyword "WHERE"] ++ [keyword "AND"].intercalate (conditions.map Condition.tokens)

def OrderDirection.tokens (dir : OrderDirection) : List Token :=
  [keyword dir.sql]

def orderTokens (orderBy : List (String × OrderDirection)) : List Token :=
  if orderBy = [] then []
  else [keyword "ORDER", keyword "BY"] ++
    (symbols ",").intercalate (orderBy.map fun (column, dir) => [name column] ++ OrderDirection.tokens dir)

def boundTokens (word : String) : Option Nat → List Token
  | some n => [keyword word] ++ [keyword n.repr]
  | none => []

def Returning.tokens : Returning → List Token
  | .all => [keyword "RETURNING"] ++ symbols "*"
  | .id => [keyword "RETURNING"] ++ [name "id"]

def tupleTokens (row : List Written) : List Token :=
  symbols "(" ++ (symbols ",").intercalate (row.map Written.tokens) ++ symbols ")"

def setTokens (set : String × Written) : List Token :=
  [name set.1] ++ symbols "=" ++ set.2.tokens

def selectTokens (counting : Bool) : List Token :=
  [keyword "SELECT"] ++
    (if counting then [keyword "COUNT"] ++ symbols "(*)" ++ [keyword "as", keyword "count"]
      else symbols "*") ++ [keyword "FROM"]

def Statement.tokens : Statement → List Token
  | .select counting table conditions orderBy limit offset =>
    selectTokens counting ++ [name table] ++ whereTokens conditions ++ orderTokens orderBy ++
      boundTokens "LIMIT" limit ++ boundTokens "OFFSET" offset
  | .insert table columns rows =>
    [keyword "INSERT", keyword "INTO"] ++ [name table] ++ symbols "(" ++
      (symbols ",").intercalate (columns.map fun column => [name column]) ++
      (symbols ")" ++ [keyword "VALUES"]) ++ (symbols ",").intercalate (rows.map tupleTokens) ++
      Returning.all.tokens
  | .update table sets conditions returning =>
    [keyword "UPDATE"] ++ [name table] ++ [keyword "SET"] ++
      (symbols ",").intercalate (sets.map setTokens) ++ whereTokens conditions ++ returning.tokens
  | .delete table conditions =>
    [keyword "DELETE", keyword "FROM"] ++ [name table] ++ whereTokens conditions ++ Returning.id.tokens

/-! ## The text reads as these tokens -/

/-- A space and what is apart begin alike. -/
theorem apart_space {rest : List Char} : Apart (' ' :: rest) :=
  Sql.apart_cons (by decide)

theorem alone_space : ReadsAlone " ".toList [] :=
  fun _ _ => rfl

theorem alone_comma : ReadsAlone ", ".toList (symbols ",") :=
  fun _ _ => rfl

theorem apart_comma : Apart ", ".toList :=
  Sql.apart_cons (by decide)

theorem reads_quoteIdent (ident : String) : Reads (quoteIdent ident).toList [name ident] := by
  have h : (quoteIdent ident).toList = Sql.quoted '"' ident.toList := by
    simp [quoteIdent, Sql.quoted]
  rw [h]
  exact Sql.reads_quoted ident.toList

theorem reads_placeholder (n : Nat) : Reads (placeholder n).toList [.param n] := by
  rw [placeholder, String.toList_append]
  exact Sql.reads_param n

theorem apart_placeholder (n : Nat) : Apart (placeholder n).toList := by
  rw [placeholder, String.toList_append]
  exact Sql.apart_cons (by decide)

theorem castSql_reads (asText : Bool) :
    Reads (castSql asText).toList (castTokens asText) ∧ Apart (castSql asText).toList := by
  cases asText with
  | false => exact ⟨Sql.readsAlone_nil.reads, Sql.apart_nil⟩
  | true => exact ⟨Sql.reads_of_word fun _ _ => rfl, Sql.apart_cons (by decide)⟩

theorem Comparison.reads (op : Comparison) : ReadsAlone op.sql.toList op.tokens ∧ Apart op.sql.toList := by
  cases op <;> exact ⟨fun _ _ => rfl, Sql.apart_cons (by decide)⟩

/-- A comparison of a column with a placeholder. -/
theorem reads_compare (column : String) (asText : Bool) (op : Comparison) (param : Nat) :
    Reads (quoteIdent column ++ castSql asText ++ " " ++ op.sql ++ " " ++ placeholder param).toList
      ([name column] ++ castTokens asText ++ op.tokens ++ [.param param]) := by
  have hcast := (reads_quoteIdent column).append (castSql_reads asText).1 (castSql_reads asText).2
  have hop := (hcast.append alone_space.reads apart_space).append op.reads.1.reads op.reads.2
  have hparam := (hop.append alone_space.reads apart_space).append (reads_placeholder param)
    (apart_placeholder param)
  simpa only [String.toList_append, List.append_nil] using hparam

theorem Member.reads (member : Member) : Reads member.sql.toList member.tokens := by
  cases member with
  | compare column asText op param => exact reads_compare column asText op param
  | null column op =>
    have hop := ((reads_quoteIdent column).append alone_space.reads apart_space).append op.reads.1.reads
      op.reads.2
    have hnull : Reads " NULL".toList ([] ++ [keyword "NULL"]) := Sql.reads_of_word fun _ _ => rfl
    have hread := hop.append hnull apart_space
    simpa only [Member.sql, Member.tokens, String.toList_append, List.append_nil, List.nil_append]
      using hread

theorem wildBefore_reads (before : Bool) :
    ReadsAlone (if before then "'%' || " else "").toList (wildBefore before) := by
  cases before <;> exact fun _ _ => rfl

theorem wildAfter_reads (after : Bool) :
    Reads (if after then " || '%'" else "").toList (wildAfter after) ∧
      Apart (if after then " || '%'" else "").toList := by
  cases after with
  | false => exact ⟨Sql.readsAlone_nil.reads, Sql.apart_nil⟩
  | true => exact ⟨Sql.reads_of_textEnd fun _ _ => rfl, apart_space⟩

theorem junction_reads (conjunctive : Bool) :
    ReadsAlone (if conjunctive then " AND " else " OR ").toList (junction conjunctive) ∧
      Apart (if conjunctive then " AND " else " OR ").toList := by
  cases conjunctive <;> exact ⟨fun _ _ => rfl, apart_space⟩

theorem reads_like (column : String) (before after : Bool) (param : Nat) :
    Reads (Condition.like column before after param).sql.toList
      (Condition.like column before after param).tokens := by
  have hlike : ReadsAlone " ILIKE ".toList [keyword "ILIKE"] := fun _ _ => rfl
  have hbefore := ((reads_quoteIdent column).append_alone hlike apart_space (by simp)).append_alone
    (wildBefore_reads before)
  have hparam := hbefore.append (reads_placeholder param)
  have hafter := hparam.append (wildAfter_reads after).1 (wildAfter_reads after).2
  simpa only [Condition.sql, Condition.tokens, String.toList_append] using hafter

theorem reads_group (conjunctive : Bool) (members : List Member) :
    Reads (Condition.group conjunctive members).sql.toList
      (Condition.group conjunctive members).tokens := by
  have hopen : ReadsAlone "(".toList (symbols "(") := fun _ _ => rfl
  have hclose : ReadsAlone ")".toList (symbols ")") := fun _ _ => rfl
  have hmembers := Reads.intercalate (junction_reads conjunctive).1 (junction_reads conjunctive).2
    (by cases conjunctive <;> simp) members fun member _ => member.reads
  have hread := (hopen.append hmembers).append hclose.reads (Sql.apart_cons (by decide))
  simpa only [Condition.sql, Condition.tokens, String.toList_append, String.toList_intercalate,
    List.map_map, Function.comp_def] using hread

theorem Condition.reads (condition : Condition) : Reads condition.sql.toList condition.tokens := by
  cases condition with
  | compare column asText op param => exact reads_compare column asText op param
  | like column before after param => exact reads_like column before after param
  | constant value =>
    cases value <;> exact Sql.reads_of_word (t := []) fun _ _ => rfl
  | group conjunctive members => exact reads_group conjunctive members
  | isNull column =>
    rw [Condition.sql, String.toList_append]
    exact (reads_quoteIdent column).append (Sql.reads_of_word fun _ _ => rfl) apart_space
  | isNotNull column =>
    rw [Condition.sql, String.toList_append]
    exact (reads_quoteIdent column).append (Sql.reads_of_word fun _ _ => rfl) apart_space

theorem Written.reads (written : Written) : Reads written.sql.toList written.tokens := by
  cases written with
  | null => exact Sql.reads_of_word (t := []) fun _ _ => rfl
  | now => exact ReadsAlone.reads fun _ _ => rfl
  | param n asTimestamp =>
    rw [Written.sql, String.toList_append, Written.tokens]
    cases asTimestamp with
    | false => exact (reads_placeholder n).append Sql.readsAlone_nil.reads Sql.apart_nil
    | true =>
      exact (reads_placeholder n).append (Sql.reads_of_word fun _ _ => rfl) (Sql.apart_cons (by decide))

theorem whereSql_reads (conditions : List Condition) :
    Reads (whereSql conditions).toList (whereTokens conditions) ∧ Apart (whereSql conditions).toList := by
  by_cases h : conditions = []
  · simp only [whereSql, whereTokens, h, if_true]
    exact ⟨Sql.readsAlone_nil.reads, Sql.apart_nil⟩
  · have hwhere : ReadsAlone " WHERE ".toList [keyword "WHERE"] := fun _ _ => rfl
    have hand : ReadsAlone " AND ".toList [keyword "AND"] := fun _ _ => rfl
    have hread := hwhere.append (Reads.intercalate hand apart_space (by simp) conditions
      fun condition _ => condition.reads)
    simp only [whereSql, whereTokens, h, if_false, String.toList_append, String.toList_intercalate,
      List.map_map]
    exact ⟨hread, apart_space⟩

theorem orderSql_reads (orderBy : List (String × OrderDirection)) :
    Reads (orderSql orderBy).toList (orderTokens orderBy) ∧ Apart (orderSql orderBy).toList := by
  by_cases h : orderBy = []
  · simp only [orderSql, orderTokens, h, if_true]
    exact ⟨Sql.readsAlone_nil.reads, Sql.apart_nil⟩
  · have horder : ReadsAlone " ORDER BY ".toList [keyword "ORDER", keyword "BY"] := fun _ _ => rfl
    have hdir : ∀ dir : OrderDirection, Reads dir.sql.toList dir.tokens := fun dir => by
      cases dir <;> exact Sql.reads_of_word (t := []) fun _ _ => rfl
    have hentry : ∀ entry : String × OrderDirection,
        Reads (quoteIdent entry.1 ++ " " ++ entry.2.sql).toList ([name entry.1] ++ entry.2.tokens) := by
      intro entry
      have hread := ((reads_quoteIdent entry.1).append_alone alone_space apart_space (by simp)).append
        (hdir entry.2)
      simpa only [String.toList_append, List.append_nil] using hread
    have hread := horder.append (Reads.intercalate alone_comma apart_comma (by simp) orderBy
      fun entry _ => hentry entry)
    simp only [orderSql, orderTokens, h, if_false, String.toList_append, String.toList_intercalate,
      List.map_map]
    exact ⟨hread, apart_space⟩

theorem boundSql_reads (text word : String) (bound : Option Nat)
    (halone : ReadsAlone text.toList [keyword word]) (happart : Apart text.toList)
    (hne : text.toList ≠ []) :
    Reads (boundSql text bound).toList (boundTokens word bound) ∧ Apart (boundSql text bound).toList := by
  cases bound with
  | none => exact ⟨Sql.readsAlone_nil.reads, Sql.apart_nil⟩
  | some n =>
    rw [boundSql, String.toList_append]
    exact ⟨halone.append (Sql.reads_nat n), happart.append fun h => absurd h hne⟩

theorem Returning.reads (returning : Returning) :
    Reads returning.sql.toList returning.tokens ∧ Apart returning.sql.toList := by
  cases returning with
  | all => exact ⟨ReadsAlone.reads fun _ _ => rfl, apart_space⟩
  | id => exact ⟨Sql.reads_of_identEnd fun _ _ => rfl, apart_space⟩

theorem tupleSql_reads (row : List Written) : Reads (tupleSql row).toList (tupleTokens row) := by
  have hopen : ReadsAlone "(".toList (symbols "(") := fun _ _ => rfl
  have hclose : ReadsAlone ")".toList (symbols ")") := fun _ _ => rfl
  have hvalues := Reads.intercalate alone_comma apart_comma (by simp) row fun written _ => written.reads
  have hread := (hopen.append hvalues).append hclose.reads (Sql.apart_cons (by decide))
  simpa only [tupleSql, tupleTokens, String.toList_append, String.toList_intercalate, List.map_map,
    Function.comp_def] using hread

theorem setSql_reads (set : String × Written) : Reads (setSql set).toList (setTokens set) := by
  have heq : ReadsAlone " = ".toList (symbols "=") := fun _ _ => rfl
  have hread := ((reads_quoteIdent set.1).append_alone heq apart_space (by simp)).append set.2.reads
  simpa only [setSql, setTokens, String.toList_append] using hread

theorem reads_select (counting : Bool) (table : String) (conditions : List Condition)
    (orderBy : List (String × OrderDirection)) (limit offset : Option Nat) :
    Reads (Statement.select counting table conditions orderBy limit offset).sql.toList
      (Statement.select counting table conditions orderBy limit offset).tokens := by
  have hselect : ReadsAlone (selectSql counting).toList (selectTokens counting) := by
    cases counting <;> exact fun _ _ => rfl
  have hlimit := boundSql_reads " LIMIT " "LIMIT" limit (fun _ _ => rfl) apart_space (by simp)
  have hoffset := boundSql_reads " OFFSET " "OFFSET" offset (fun _ _ => rfl) apart_space (by simp)
  have hwhere := (hselect.append (reads_quoteIdent table)).append (whereSql_reads conditions).1
    (whereSql_reads conditions).2
  have horder := hwhere.append (orderSql_reads orderBy).1 (orderSql_reads orderBy).2
  have hread := (horder.append hlimit.1 hlimit.2).append hoffset.1 hoffset.2
  show Reads (selectSql counting ++ quoteIdent table ++ whereSql conditions ++ orderSql orderBy ++
    boundSql " LIMIT " limit ++ boundSql " OFFSET " offset).toList _
  simpa only [Statement.tokens, String.toList_append] using hread

theorem reads_insert (table : String) (columns : List String) (rows : List (List Written)) :
    Reads (Statement.insert table columns rows).sql.toList (Statement.insert table columns rows).tokens := by
  have hinto : ReadsAlone "INSERT INTO ".toList [keyword "INSERT", keyword "INTO"] := fun _ _ => rfl
  have hopen : ReadsAlone " (".toList (symbols "(") := fun _ _ => rfl
  have hvalues : ReadsAlone ") VALUES ".toList (symbols ")" ++ [keyword "VALUES"]) := fun _ _ => rfl
  have hcolumns := Reads.intercalate alone_comma apart_comma (by simp) columns
    fun column _ => reads_quoteIdent column
  have hrows := Reads.intercalate alone_comma apart_comma (by simp) rows fun row _ => tupleSql_reads row
  have hhead := ((hinto.append (reads_quoteIdent table)).append_alone hopen apart_space (by simp)).append
    hcolumns
  have hbody := (hhead.append_alone hvalues (Sql.apart_cons (by decide)) (by simp)).append hrows
  have hread := hbody.append Returning.all.reads.1 Returning.all.reads.2
  show Reads ("INSERT INTO " ++ quoteIdent table ++ " (" ++ ", ".intercalate (columns.map quoteIdent) ++
    ") VALUES " ++ ", ".intercalate (rows.map tupleSql) ++ Returning.all.sql).toList _
  simpa only [Statement.tokens, String.toList_append, String.toList_intercalate, List.map_map,
    Function.comp_def] using hread

theorem reads_update (table : String) (sets : List (String × Written)) (conditions : List Condition)
    (returning : Returning) :
    Reads (Statement.update table sets conditions returning).sql.toList
      (Statement.update table sets conditions returning).tokens := by
  have hupdate : ReadsAlone "UPDATE ".toList [keyword "UPDATE"] := fun _ _ => rfl
  have hset : ReadsAlone " SET ".toList [keyword "SET"] := fun _ _ => rfl
  have hsets := Reads.intercalate alone_comma apart_comma (by simp) sets fun set _ => setSql_reads set
  have hhead := ((hupdate.append (reads_quoteIdent table)).append_alone hset apart_space (by simp)).append
    hsets
  have hwhere := hhead.append (whereSql_reads conditions).1 (whereSql_reads conditions).2
  have hread := hwhere.append returning.reads.1 returning.reads.2
  show Reads ("UPDATE " ++ quoteIdent table ++ " SET " ++ ", ".intercalate (sets.map setSql) ++
    whereSql conditions ++ returning.sql).toList _
  simpa only [Statement.tokens, String.toList_append, String.toList_intercalate, List.map_map,
    Function.comp_def] using hread

theorem reads_delete (table : String) (conditions : List Condition) :
    Reads (Statement.delete table conditions).sql.toList (Statement.delete table conditions).tokens := by
  have hfrom : ReadsAlone "DELETE FROM ".toList [keyword "DELETE", keyword "FROM"] := fun _ _ => rfl
  have hwhere := (hfrom.append (reads_quoteIdent table)).append (whereSql_reads conditions).1
    (whereSql_reads conditions).2
  have hread := hwhere.append Returning.id.reads.1 Returning.id.reads.2
  show Reads ("DELETE FROM " ++ quoteIdent table ++ whereSql conditions ++ Returning.id.sql).toList _
  simpa only [Statement.tokens, String.toList_append] using hread

theorem Statement.reads (statement : Statement) : Reads statement.sql.toList statement.tokens := by
  cases statement with
  | select counting table conditions orderBy limit offset =>
    exact reads_select counting table conditions orderBy limit offset
  | insert table columns rows => exact reads_insert table columns rows
  | update table sets conditions returning => exact reads_update table sets conditions returning
  | delete table conditions => exact reads_delete table conditions

end Atomo.Query

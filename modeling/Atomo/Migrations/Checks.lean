import Atomo.Db.Value
import Atomo.Schema.Validation

/-!
# Rules as CHECK constraints

`validation_checks`: the rules of a field that SQL can express, as CHECK constraints on its column.
What the server makes of the expression of one on a row is here beside it: an operator that the type of
the column does not have makes it an expression that no row satisfies, and a CHECK that is NULL passes.
-/

namespace Atomo.Migrations

open Schema (Field FieldType ruleParts splitAt)
open Query (quoteIdent)
open Db (ColumnType SqlValue fieldTypeToSql)

/-- `str::parse::<i64>`. -/
def parseI64 (text : List Char) : Option Int :=
  let digits := Schema.unsigned text
  if digits ≠ [] ∧ digits.all Char.isDigit then
    let n := Nat.ofDigitChars 10 digits 0
    if text.head? = some '-' then
      if n ≤ 2 ^ 63 then some (-n) else none
    else if n < 2 ^ 63 then some n
    else none
  else none

/-- What a rule asks of a column. -/
inductive Test where
  | email
  | url
  | min (n : Int)
  | max (n : Int)
  deriving DecidableEq

/-- The test that a rule compiles to. -/
def ruleTest (rule : List Char) : Option Test :=
  let (name, param) := ruleParts rule
  match String.ofList name with
  | "email" => some .email
  | "url" => some .url
  | "min" => (param.bind parseI64).map .min
  | "max" => (param.bind parseI64).map .max
  | _ => none

/-- A CHECK that `validation_checks` generates for the column of a field. -/
structure RuleCheck where
  column : String
  isNumber : Bool
  optional : Bool
  ruleName : String
  test : Test
  deriving DecidableEq

/-- The CHECKs of `validation_checks`. -/
def ruleChecks (cc : CharCase) (fieldName : String) (field : Field) (rules : String) : List RuleCheck :=
  (splitAt '|' rules.toList).filterMap fun rule =>
    (ruleTest rule).map fun test =>
      { column := toSnakeCase cc fieldName
        isNumber := field.fieldType = .number
        optional := field.optional
        ruleName := .ofList (ruleParts rule).1
        test }

namespace RuleCheck

def expr (c : RuleCheck) : String :=
  let col := quoteIdent c.column
  match c.test with
  | .email => col ++ " ~ '^[^@]+@[^@]+\\.[^@]+$'"
  | .url => col ++ " ~ '^https?://'"
  | .min n => (if c.isNumber then col else "length(" ++ col ++ ")") ++ " >= " ++ n.repr
  | .max n => (if c.isNumber then col else "length(" ++ col ++ ")") ++ " <= " ++ n.repr

/-- The expression of the CHECK; that of an optional field lets NULL through. -/
def fullExpr (c : RuleCheck) : String :=
  if c.optional then quoteIdent c.column ++ " IS NULL OR (" ++ c.expr ++ ")" else c.expr

def name (c : RuleCheck) (table : String) : String :=
  "chk_" ++ table ++ "_" ++ c.column ++ "_" ++ c.ruleName

end RuleCheck

/-! ## What the expressions say -/

/-- `text ~ '^[^@]+@[^@]+\.[^@]+$'`: one `@`, text before it, and after it a dot within. -/
def matchesEmail (text : List Char) : Bool :=
  match text.dropWhile (· ≠ '@') with
  | [] => false
  | _ :: domain => text.head? ≠ some '@' && '@' ∉ domain && '.' ∈ (domain.drop 1).dropLast

/-- `text ~ '^https?://'`. -/
def matchesUrl (text : List Char) : Bool :=
  "http://".toList <+: text || "https://".toList <+: text

/-- The value of a test on a column of a type, `some none` being NULL; none if the type lacks the
operator. -/
def Test.eval (isNumber : Bool) (column : ColumnType) : Test → SqlValue → Option (Option Bool)
  | .email, v =>
    match column, v with
    | .text, .text s => some (some (matchesEmail s.toList))
    | .text, .null => some none
    | _, _ => none
  | .url, v =>
    match column, v with
    | .text, .text s => some (some (matchesUrl s.toList))
    | .text, .null => some none
    | _, _ => none
  | .min n, v =>
    match isNumber, column, v with
    | true, .bigint, .bigint i => some (some (n ≤ i.toInt))
    | false, .text, .text s => some (some (n ≤ s.length))
    | true, .bigint, .null | false, .text, .null => some none
    | _, _, _ => none
  | .max n, v =>
    match isNumber, column, v with
    | true, .bigint, .bigint i => some (some (i.toInt ≤ n))
    | false, .text, .text s => some (some ((s.length : Int) ≤ n))
    | true, .bigint, .null | false, .text, .null => some none
    | _, _, _ => none

/-- A row with this value in the column satisfies the expression of a CHECK. -/
def RuleCheck.satisfied (c : RuleCheck) (column : ColumnType) (v : SqlValue) : Bool :=
  match c.test.eval c.isNumber column v with
  | none => false
  | some value => if c.optional && v = .null then true else value.getD true

/-- The test has an operator of the type and is not false. -/
def Test.passes (isNumber : Bool) (column : ColumnType) (test : Test) (v : SqlValue) : Bool :=
  match test.eval isNumber column v with
  | none => false
  | some value => value.getD true

theorem Test.eval_null {isNumber : Bool} {column : ColumnType} {test : Test} {value : Option Bool}
    (h : test.eval isNumber column .null = some value) : value = none := by
  cases test with
  | email =>
    cases column <;> cases h
    rfl
  | url =>
    cases column <;> cases h
    rfl
  | min n => cases isNumber <;> cases column <;> cases h <;> rfl
  | max n => cases isNumber <;> cases column <;> cases h <;> rfl

/-- That an optional field lets NULL through adds nothing: a test of NULL is NULL. -/
theorem RuleCheck.satisfied_eq (c : RuleCheck) (column : ColumnType) (v : SqlValue) :
    c.satisfied column v = c.test.passes c.isNumber column v := by
  unfold satisfied Test.passes
  cases heval : c.test.eval c.isNumber column v with
  | none => rfl
  | some value =>
    by_cases hnull : (c.optional && v = .null) = true
    · have hv : v = .null := by simpa using (Bool.and_eq_true_iff.1 hnull).2
      rw [hv] at heval
      rw [Test.eval_null heval]
      simp only [hnull, if_true]
      rfl
    · simp only [hnull]
      rfl

end Atomo.Migrations

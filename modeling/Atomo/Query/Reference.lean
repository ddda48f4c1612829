import Atomo.Query.Meaning

/-!
# What a `where` states

The reference semantics of the `where` of the API, as documented: an object demands each of its entries
of a row, and an entry each of its operators. `parse_where` keeps the part of it that is understood.
-/

namespace Atomo.Query

open Db (Postgres Row SqlValue)

variable (pg : Postgres) (cc : CharCase)

/-- An operator of a condition. One that is not among the documented ones has no meaning, and holds of
nothing. -/
def operatorHolds (stored : SqlValue) (op : String) (val : Json) : Bool :=
  match whereOperator op val with
  | some operator => operator.holds pg stored val
  | none => false

/-- The condition of a field: all of its operators, or that the field equals a value. -/
def conditionHolds (stored : SqlValue) : Json → Bool
  | .object ops => ops.all fun (op, val) => operatorHolds pg stored op val
  | value => WhereOperator.equals.holds pg stored value

/-- What a `where` states of a row. Null states nothing; nothing but an object states what could hold. -/
def whereHolds (row : Row) : Json → Bool
  | .null => true
  | .object map => map.all fun (field, condition) => conditionHolds pg (row.get (toSnakeCase cc field)) condition
  | _ => false

/-- The operators of a condition are all known. -/
def conditionUnderstood : Json → Bool
  | .object ops => ops.all fun (op, val) => (whereOperator op val).isSome
  | _ => true

/-- All of a `where` is understood: it is null, or an object of conditions with known operators only. -/
def understood : Json → Bool
  | .null => true
  | .object map => map.all fun (_, condition) => conditionUnderstood condition
  | _ => false

theorem parseCondition_holds (row : Row) (field : String) (condition : Json) :
    conditionHolds pg (row.get (toSnakeCase cc field)) condition =
      (conditionUnderstood condition && (parseCondition field condition).all (WhereClause.holds pg cc row)) := by
  cases condition with
  | object ops =>
    simp only [conditionHolds, conditionUnderstood, parseCondition]
    induction ops with
    | nil => rfl
    | cons entry ops ih =>
      obtain ⟨op, val⟩ := entry
      cases hop : whereOperator op val with
      | none => simp [operatorHolds, hop]
      | some operator =>
        rw [List.all_cons, ih]
        simp only [operatorHolds, hop, List.all_cons, List.filterMap_cons, Option.map_some, Option.isSome_some,
          Bool.true_and]
        rw [Bool.and_left_comm]
        rfl
  | _ => simp [conditionHolds, conditionUnderstood, parseCondition, WhereClause.holds]

/-- A row meets a `where` when all of it is understood, and the clauses of `parse_where` hold of the row. -/
theorem parseWhere_holds (row : Row) (value : Json) :
    whereHolds pg cc row value = (understood value && (parseWhere value).all (WhereClause.holds pg cc row)) := by
  cases value with
  | object map =>
    simp only [whereHolds, understood, parseWhere]
    induction map with
    | nil => rfl
    | cons entry map ih =>
      obtain ⟨field, condition⟩ := entry
      rw [List.all_cons, ih]
      simp only [parseCondition_holds, List.all_cons, List.flatMap_cons, List.all_append]
      rw [Bool.and_assoc, Bool.and_assoc, Bool.and_left_comm (List.all _ _)]
  | _ => rfl

/-- Of rows that the kept clauses hold of, all meet a `where` only if it is understood, or there are none. -/
theorem forall_whereHolds {rows : List Row} {value : Json}
    (h : ∀ row ∈ rows, (parseWhere value).all (WhereClause.holds pg cc row) = true) :
    (∀ row ∈ rows, whereHolds pg cc row value = true) ↔ understood value = true ∨ rows = [] := by
  constructor
  · intro hall
    cases rows with
    | nil => exact .inr rfl
    | cons row rows =>
      have hrow := hall row List.mem_cons_self
      rw [parseWhere_holds, Bool.and_eq_true] at hrow
      exact .inl hrow.1
  · rintro (hunderstood | rfl) row hrow
    · rw [parseWhere_holds, hunderstood, h row hrow]
      rfl
    · cases hrow

end Atomo.Query

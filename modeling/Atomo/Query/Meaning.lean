import Atomo.Db.Statement

/-!
# The meaning of where clauses

What an operator says of a stored value, and that the conditions of `build_where`, with their parameters
in place, say that of a row. The statements of the builder select a row when every clause holds of it.
-/

namespace Atomo

open Query Db

namespace Query

variable (pg : Postgres) (cc : CharCase)

/-- What an operator says of a stored value and its operand. -/
def WhereOperator.holds (stored : SqlValue) (operand : Json) : WhereOperator → Bool
  | .equals => Comparison.holds pg operand.isString .eq stored (buildArg operand)
  | .notEquals => Comparison.holds pg operand.isString .ne stored (buildArg operand)
  | .contains => likeHolds pg true true stored (buildArg operand)
  | .startsWith => likeHolds pg false true stored (buildArg operand)
  | .endsWith => likeHolds pg true false stored (buildArg operand)
  | .greaterThan => Comparison.holds pg false .gt stored (buildArg operand)
  | .greaterThanOrEqual => Comparison.holds pg false .ge stored (buildArg operand)
  | .lessThan => Comparison.holds pg false .lt stored (buildArg operand)
  | .lessThanOrEqual => Comparison.holds pg false .le stored (buildArg operand)
  | .isIn =>
    match operand.asArray? with
    | none => false
    | some values => values.any fun v => !v.isNull && Comparison.holds pg v.isString .eq stored (buildArg v)
  | .notIn =>
    match operand.asArray? with
    | none => false
    | some values => values.all fun v => !v.isNull && Comparison.holds pg v.isString .ne stored (buildArg v)
  | .isNull => stored = .null
  | .isNotNull => stored ≠ .null

/-- What a clause says of a row. -/
def WhereClause.holds (row : Row) (clause : WhereClause) : Bool :=
  clause.operator.holds pg (row.get (toSnakeCase cc clause.field)) clause.value

/-- The parameter that follows those of `pre` is the one in its place. -/
theorem paramAt_append (pre post : List Json) (v : Json) :
    paramAt (pre ++ v :: post) (pre.length + 1) = buildArg v := by
  unfold paramAt
  have hget : (pre ++ v :: post)[pre.length + 1 - 1]? = some v := by
    rw [Nat.add_sub_cancel, List.getElem?_append_right (Nat.le_refl _), Nat.sub_self]
    rfl
  rw [hget]
  rfl

/-- The members of a list hold of a value, all or any of them, as its elements do. -/
theorem whereMembers_holds (column : String) (op : Comparison) (values : List Json) (row : Row) (idx : Nat)
    (pre post : List Json) (hidx : idx = pre.length + 1) :
    (whereMembers column op values idx).1.map
        (Member.holds pg (pre ++ (whereMembers column op values idx).2.1 ++ post) row) =
      values.map fun v => !v.isNull && Comparison.holds pg v.isString op (row.get column) (buildArg v) := by
  induction values generalizing idx pre with
  | nil => rfl
  | cons value values ih =>
    by_cases hnull : value.isNull = true
    · have hrest := ih idx pre hidx
      simp only [whereMembers, hnull, if_true, List.map_cons, hrest]
      rfl
    · have hrest := ih (idx + 1) (pre ++ [value]) (by rw [List.length_append, hidx]; rfl)
      rw [List.append_assoc pre [value], List.singleton_append] at hrest
      simp only [whereMembers, hnull, Bool.false_eq_true, if_false, List.map_cons, hrest]
      rw [Member.holds, hidx, List.append_assoc, List.cons_append, paramAt_append]
      rfl

theorem whereMembers_next (column : String) (op : Comparison) (values : List Json) (idx : Nat) :
    (whereMembers column op values idx).2.2 = idx + (whereMembers column op values idx).2.1.length := by
  induction values generalizing idx with
  | nil => rfl
  | cons value values ih =>
    unfold whereMembers
    split
    · exact ih idx
    · show (whereMembers column op values (idx + 1)).2.2 =
        idx + ((whereMembers column op values (idx + 1)).2.1.length + 1)
      rw [ih]
      omega

/-- The next clause starts behind the parameters of a clause. -/
theorem whereClause_next (clause : WhereClause) (idx : Nat) :
    (whereClause cc clause idx).2.2 = idx + (whereClause cc clause idx).2.1.length := by
  obtain ⟨field, operator, value⟩ := clause
  cases operator with
  | isIn | notIn =>
    unfold whereClause
    cases harray : value.asArray? with
    | none => rfl
    | some values =>
      cases values with
      | nil => rfl
      | cons v values => exact whereMembers_next _ _ _ _
  | _ => rfl

theorem any_of_map_eq {α β : Type} {p : α → Bool} {q : β → Bool} {xs : List α} {ys : List β}
    (h : xs.map p = ys.map q) : xs.any p = ys.any q := by
  have hany := congrArg (List.any · id) h
  simpa [List.any_map] using hany

theorem all_of_map_eq {α β : Type} {p : α → Bool} {q : β → Bool} {xs : List α} {ys : List β}
    (h : xs.map p = ys.map q) : xs.all p = ys.all q := by
  have hall := congrArg (List.all · id) h
  simpa [List.all_map] using hall

/-- The condition of a clause, with its parameters in place, says what the clause says. -/
theorem whereClause_holds (clause : WhereClause) (row : Row) (idx : Nat) (pre post : List Json)
    (hidx : idx = pre.length + 1) :
    Condition.holds pg (pre ++ (whereClause cc clause idx).2.1 ++ post) row (whereClause cc clause idx).1 =
      clause.holds pg cc row := by
  obtain ⟨field, operator, value⟩ := clause
  have hparam : paramAt (pre ++ [value] ++ post) idx = buildArg value := by
    rw [hidx, List.append_assoc, List.singleton_append, paramAt_append]
  cases operator with
  | isIn | notIn =>
    unfold WhereClause.holds whereClause
    cases harray : value.asArray? with
    | none => simp [WhereOperator.holds, harray, Condition.holds]
    | some values =>
      cases values with
      | nil => simp [WhereOperator.holds, harray, Condition.holds]
      | cons v values =>
        have hmembers := whereMembers_holds pg (toSnakeCase cc field)
        simp only [WhereOperator.holds, harray, Condition.holds]
        first
          | exact any_of_map_eq (hmembers .eq (v :: values) row idx pre post hidx)
          | exact all_of_map_eq (hmembers .ne (v :: values) row idx pre post hidx)
  | isNull | isNotNull => rfl
  | _ =>
    unfold WhereClause.holds whereClause
    simp only [Condition.holds, WhereOperator.holds, hparam]

/-- The conditions of `build_where`, with their parameters in place, hold when the clauses do. -/
theorem whereClauses_holds (clauses : List WhereClause) (row : Row) (idx : Nat) (pre post : List Json)
    (hidx : idx = pre.length + 1) :
    (whereClauses cc clauses idx).1.all
        (Condition.holds pg (pre ++ (whereClauses cc clauses idx).2 ++ post) row) =
      clauses.all (WhereClause.holds pg cc row) := by
  induction clauses generalizing idx pre with
  | nil => rfl
  | cons clause clauses ih =>
    have hnext : (whereClause cc clause idx).2.2 = (pre ++ (whereClause cc clause idx).2.1).length + 1 := by
      rw [whereClause_next, List.length_append, hidx]
      omega
    have hrest := ih _ (pre ++ (whereClause cc clause idx).2.1) hnext
    have hclause := whereClause_holds pg cc clause row idx pre
      ((whereClauses cc clauses (whereClause cc clause idx).2.2).2 ++ post) hidx
    simp only [whereClauses, List.all_cons]
    rw [← hclause, ← hrest]
    simp only [List.append_assoc]

theorem buildWhere_holds (clauses : List WhereClause) (row : Row) (pre : List Json) :
    (buildWhere cc clauses pre.length).1.all
        (Condition.holds pg (pre ++ (buildWhere cc clauses pre.length).2) row) =
      clauses.all (WhereClause.holds pg cc row) := by
  have h := whereClauses_holds pg cc clauses row (pre.length + 1) pre [] rfl
  rwa [List.append_nil] at h

end Query

namespace Db

variable (pg : Postgres) (cc : CharCase)

/-- A row that is shown to a tenant and that every clause holds of. -/
def matching (tenant : Option String) (table : String) (clauses : List WhereClause) (row : Row) : Bool :=
  pg.visible tenant table row && clauses.all (WhereClause.holds pg cc row)

/-- The statements of the builder select the rows that match their clauses. -/
theorem selects_buildWhere (tenant : Option String) (table : String) (clauses : List WhereClause)
    (pre : List Json) :
    selects pg tenant table (buildWhere cc clauses pre.length).1 (pre ++ (buildWhere cc clauses pre.length).2) =
      matching pg cc tenant table clauses := by
  funext row
  exact congrArg (pg.visible tenant table row && ·) (buildWhere_holds pg cc clauses row pre)

/-! ## Written data -/

/-- The value that an entry of some data is written as. -/
def entryValue (model : Schema.Model) (table : Table) (entry : String × Json) : Option SqlValue := do
  let type ← Schema.lookup? (toSnakeCase cc entry.1) table.columns
  if entry.2.isNull then some .null
  else assign pg type ((Schema.lookup? entry.1 model.fields).map (·.fieldType) = some .dateTime) (buildArg entry.2)

/-- The values that some data is written as, by column. -/
def dataValues (model : Schema.Model) (table : Table) : List (String × Json) → Option (List (String × SqlValue))
  | [] => some []
  | entry :: data => do
    let value ← entryValue pg cc model table entry
    let values ← dataValues model table data
    return (toSnakeCase cc entry.1, value) :: values

theorem writeValues_params (model : Schema.Model) (data : List (String × Json)) (params : List Json) :
    ∃ more, (writeValues model data params).2 = params ++ more := by
  induction data generalizing params with
  | nil => exact ⟨[], (List.append_nil _).symm⟩
  | cons entry data ih =>
    obtain ⟨key, val⟩ := entry
    by_cases hnull : val.isNull = true
    · obtain ⟨more, hmore⟩ := ih params
      refine ⟨more, ?_⟩
      simp only [writeValues, writeValue, hnull, if_true]
      exact hmore
    · obtain ⟨more, hmore⟩ := ih (params ++ [val])
      refine ⟨val :: more, ?_⟩
      simp only [writeValues, writeValue, hnull, Bool.false_eq_true, if_false]
      rw [hmore, List.append_assoc, List.singleton_append]

/-- The written parameters are those values. -/
theorem writtenValues_writeValues (now : Int) (model : Schema.Model) (table : Table) (data : List (String × Json))
    (params post : List Json) :
    writtenValues pg now table ((writeValues model data params).2 ++ post)
        ((data.map fun entry => toSnakeCase cc entry.1).zip (writeValues model data params).1) =
      dataValues pg cc model table data := by
  induction data generalizing params with
  | nil => rfl
  | cons entry data ih =>
    obtain ⟨key, val⟩ := entry
    by_cases hnull : val.isNull = true
    · have hrest := ih params
      simp only [writeValues, writeValue, hnull, if_true, List.map_cons, List.zip_cons_cons, writtenValues,
        writtenValue, dataValues, entryValue] at hrest ⊢
      rw [hrest]
      cases Schema.lookup? (toSnakeCase cc key) table.columns <;> rfl
    · have hrest := ih (params ++ [val])
      obtain ⟨more, hmore⟩ := writeValues_params model data (params ++ [val])
      have hparam : paramAt ((writeValues model data (params ++ [val])).2 ++ post) (params ++ [val]).length =
          buildArg val := by
        rw [hmore, List.append_assoc, List.append_assoc, List.length_append, List.singleton_append]
        exact paramAt_append params (more ++ post) val
      simp only [writeValues, writeValue, hnull, Bool.false_eq_true, if_false, List.map_cons, List.zip_cons_cons,
        writtenValues, writtenValue, dataValues, entryValue] at hrest ⊢
      rw [hrest, hparam]
      cases Schema.lookup? (toSnakeCase cc key) table.columns <;> rfl

theorem entryValue_fits {model : Schema.Model} {table : Table} {entry : String × Json} {value : SqlValue}
    (h : entryValue pg cc model table entry = some value) :
    ∃ type, Schema.lookup? (toSnakeCase cc entry.1) table.columns = some type ∧ value.fits type = true := by
  simp only [entryValue, Option.bind_eq_bind, Option.bind_eq_some_iff] at h
  obtain ⟨type, htype, h⟩ := h
  refine ⟨type, htype, ?_⟩
  split at h
  · cases h
    cases type <;> rfl
  · exact assign_fits pg h

/-- A column is set to the value of the first entry that is written to it. -/
theorem lookup_dataValues {model : Schema.Model} {table : Table} {data : List (String × Json)}
    {values : List (String × SqlValue)} (h : dataValues pg cc model table data = some values) (column : String) :
    Schema.lookup? column values =
      (data.find? fun entry => toSnakeCase cc entry.1 = column).bind (entryValue pg cc model table) := by
  induction data generalizing values with
  | nil =>
    cases h
    rfl
  | cons entry data ih =>
    simp only [dataValues, Option.bind_eq_bind, Option.bind_eq_some_iff] at h
    obtain ⟨value, hvalue, rest, hrest, h⟩ := h
    cases h
    by_cases hcolumn : toSnakeCase cc entry.1 = column
    · simp [Schema.lookup?, hcolumn, hvalue]
    · have hlookup := ih hrest
      simp only [Schema.lookup?] at hlookup ⊢
      simp [hcolumn, hlookup]

end Db

end Atomo

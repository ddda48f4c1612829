import Atomo.Query.Meaning
import Atomo.Lib.Kleene
import Atomo.Lib.Like

/-!
# What a `WHERE` selects of text columns

The conditions of the builder with the three truth values of SQL and the patterns of `ILIKE`, on the rows of a table
of text columns. A statement is rejected where the matching comes to a pattern's end in the escape character, and
where a text that is bound has the character with the code zero in it.
-/

namespace Atomo

open Schema (lookup?)
open Query Db

/-- How the server compares texts: by a collation, and by `ILIKE` up to the case of a character. -/
structure Collation where
  compare : String → String → Ordering
  compare_eq : ∀ {s t : String}, compare s t = .eq ↔ s = t
  fold : Char → Char
  fold_special : ∀ {c d : Char}, Like.Special c → fold d = fold c → d = c

/-- The order of the codes, and the letters of ASCII. -/
def Collation.ascii : Collation where
  compare s t := if s = t then .eq else if s < t then .lt else .gt
  compare_eq := by
    intro s t
    split
    · simpa
    · split <;> simpa
  fold := Char.toLower
  fold_special := by
    intro c d hc hfold
    have hsame : c.toLower = c := by rcases hc with rfl | rfl | rfl <;> rfl
    rw [hsame] at hfold
    unfold Char.toLower at hfold
    split at hfold
    · next hupper =>
      -- a letter is folded to a letter, and is none of the three
      obtain ⟨hlow, hhigh⟩ := hupper
      have hcode := congrArg (fun e : Char => e.val.toNat) hfold
      have hstart : 65 ≤ d.val.toNat := UInt32.le_iff_toNat_le.1 hlow
      have hend : d.val.toNat ≤ 90 := UInt32.le_iff_toNat_le.1 hhigh
      have hstep : ('a'.val - 'A'.val).toNat = 32 := rfl
      simp only [UInt32.toNat_add, hstep] at hcode
      have hletter : c.val.toNat ≠ 37 ∧ c.val.toNat ≠ 95 ∧ c.val.toNat ≠ 92 := by omega
      rcases hc with rfl | rfl | rfl
      · exact absurd rfl hletter.1
      · exact absurd rfl hletter.2.1
      · exact absurd rfl hletter.2.2
    · exact hfold

/-- What a comparison says of two texts in some order. -/
def Query.Comparison.orders (order : Ordering) : Comparison → Bool
  | .eq => order = .eq
  | .ne => order ≠ .eq
  | .gt => order = .gt
  | .ge => order ≠ .lt
  | .lt => order = .lt
  | .le => order ≠ .gt

variable (pg : Postgres) (collation : Collation) (cc : CharCase)

/-- What `ILIKE` answers for a value and a pattern; none is its error. -/
def ilikeAnswer (stored : SqlValue) (pattern : String) : Option Bool :=
  match stored with
  | .text s => Like.like collation.fold pattern.toList s.toList
  | _ => some (pg.ilike stored pattern)

/-- A server that compares texts so. -/
def Db.Postgres.collated : Postgres :=
  { pg with
    compare := fun op stored param =>
      match stored, param with
      | .text s, .text t => op.orders (collation.compare s t)
      | _, _ => pg.compare op stored param
    ilike := fun stored pattern => ilikeAnswer pg collation stored pattern = some true }

namespace Query

/-! ## The three truth values -/

/-- A comparison with NULL on either side is unknown. -/
def Comparison.truth (asText : Bool) (op : Comparison) (stored : SqlValue) (param : Bound) : Option Bool :=
  match stored, param with
  | .null, _ | _, .null => none
  | v, param => some (op.holds (pg.collated collation) asText v param)

def Member.truth (params : List Json) (row : Row) : Member → Option Bool
  | .compare column asText op n => op.truth pg collation asText (row.get column) (paramAt params n)
  | .null _ _ => none

/-- `ILIKE`, or its error. -/
def likeTruth (before after : Bool) (stored : SqlValue) (param : Bound) : Except String (Option Bool) :=
  match stored, param with
  | .null, _ | _, .null => .ok none
  | v, param =>
    match ilikeAnswer pg collation v (likePattern pg before after param) with
    | none => .error "LIKE pattern must not end with escape character"
    | some found => .ok (some found)

def Condition.truth (params : List Json) (row : Row) : Condition → Except String (Option Bool)
  | .compare column asText op n => .ok (op.truth pg collation asText (row.get column) (paramAt params n))
  | .like column before after n => likeTruth pg collation before after (row.get column) (paramAt params n)
  | .constant value => .ok (some value)
  | .group conjunctive members =>
    let truths := members.map (Member.truth pg collation params row)
    .ok (if conjunctive then Kleene.all truths else Kleene.any truths)
  | .isNull column => .ok (some (row.get column = .null))
  | .isNotNull column => .ok (some (row.get column ≠ .null))

/-- Whether a row is kept: the conditions are all true of it. The first that is not decides. -/
def keeps (params : List Json) (row : Row) : List Condition → Except String Bool
  | [] => .ok true
  | condition :: conditions =>
    match condition.truth pg collation params row with
    | .error error => .error error
    | .ok (some true) => keeps params row conditions
    | .ok _ => .ok false

/-- The rows that are kept, or the first error. -/
def keptRows (params : List Json) (conditions : List Condition) : List Row → Except String (List Row)
  | [] => .ok []
  | row :: rows => do
    let kept ← keeps pg collation params row conditions
    let rest ← keptRows params conditions rows
    .ok (if kept then row :: rest else rest)

/-- A text cannot be bound with the character zero in it. -/
def unsendable : Json → Bool
  | .string s => '\x00' ∈ s.toList
  | _ => false

/-- The rows that a statement with these conditions and parameters selects. -/
def selectRows (statement : List Condition × List Json) (rows : List Row) : Except String (List Row) :=
  if statement.2.any unsendable then .error "invalid byte sequence for encoding \"UTF8\": 0x00"
  else keptRows pg collation statement.2 statement.1 rows

/-! ## The plain meaning -/

/-- What an operator says of a text, or of its absence. -/
def WhereOperator.meets (stored : Option String) : WhereOperator → Json → Bool
  | .equals, .string v => stored = some v
  | .notEquals, .string v => stored.any fun s => s ≠ v
  | .greaterThan, .string v => stored.any fun s => collation.compare s v = .gt
  | .greaterThanOrEqual, .string v => stored.any fun s => s = v ∨ collation.compare s v = .gt
  | .lessThan, .string v => stored.any fun s => collation.compare s v = .lt
  | .lessThanOrEqual, .string v => stored.any fun s => s = v ∨ collation.compare s v = .lt
  | .contains, .string v => stored.any fun s => v.toList.map collation.fold <:+: s.toList.map collation.fold
  | .startsWith, .string v => stored.any fun s => v.toList.map collation.fold <+: s.toList.map collation.fold
  | .endsWith, .string v => stored.any fun s => v.toList.map collation.fold <:+ s.toList.map collation.fold
  | .isIn, .array values => stored.any fun s => Json.string s ∈ values
  | .notIn, .array values => values.isEmpty ∨ stored.any fun s => Json.string s ∉ values
  | .isNull, _ => stored = none
  | .isNotNull, _ => stored ≠ none
  | _, _ => false

/-- A row of text columns. -/
abbrev TextRow := List (String × Option String)

namespace TextRow

def get (row : TextRow) (column : String) : Option String :=
  (lookup? column row).getD none

def toRow (row : TextRow) : Row :=
  row.map fun entry => (entry.1, entry.2.elim .null .text)

theorem get_toRow (row : TextRow) (column : String) : row.toRow.get column = (row.get column).elim .null .text := by
  unfold toRow get
  rw [Row.get_map]
  unfold lookup?
  cases row.find? (·.1 = column) <;> rfl

end TextRow

/-- What a clause says of a row. -/
def WhereClause.meets (row : TextRow) (clause : WhereClause) : Bool :=
  clause.operator.meets collation (row.get (toSnakeCase cc clause.field)) clause.value

/-- The texts that a clause binds. -/
def WhereClause.operands (clause : WhereClause) : List String :=
  match clause.operator, clause.value with
  | .isNull, _ | .isNotNull, _ => []
  | .isIn, .array values | .notIn, .array values => values.filterMap Json.asStr?
  | _, .string v => [v]
  | _, _ => []

/-- The operand of a clause is a text, or a list of texts where a list is asked for. -/
def WhereClause.Textual (clause : WhereClause) : Prop :=
  match clause.operator with
  | .isNull | .isNotNull => True
  | .isIn | .notIn => ∀ values, clause.value = .array values → ∀ v ∈ values, v.isString = true
  | _ => clause.value.isString = true

def WhereOperator.isLike : WhereOperator → Bool
  | .contains | .startsWith | .endsWith => true
  | _ => false

/-- An operator that takes one text. -/
def WhereOperator.isScalar : WhereOperator → Bool
  | .isIn | .notIn | .isNull | .isNotNull => false
  | _ => true

/-- No text of a clause has the character zero in it, and none that is made a pattern a percent sign, an underscore or
a backslash. -/
def WhereClause.Literal (clause : WhereClause) : Prop :=
  ∀ v ∈ clause.operands, '\x00' ∉ v.toList ∧ (clause.operator.isLike = true → Like.Plain v.toList)

/-! ## What is kept -/

theorem Comparison.truth_iff (asText : Bool) (op : Comparison) (stored : SqlValue) (param : Bound) :
    op.truth pg collation asText stored param = some true ↔
      op.holds (pg.collated collation) asText stored param = true := by
  unfold Comparison.truth
  split
  · simp [Comparison.holds]
  · simp [Comparison.holds]
  · simp

theorem Member.truth_iff (params : List Json) (row : Row) (member : Member) :
    member.truth pg collation params row = some true ↔
      member.holds (pg.collated collation) params row = true := by
  cases member with
  | compare column asText op n => exact Comparison.truth_iff pg collation asText op _ _
  | null column op => simp [Member.truth, Member.holds]

theorem likeTruth_iff (before after : Bool) (stored : SqlValue) (param : Bound) :
    likeTruth pg collation before after stored param = .ok (some true) ↔
      likeHolds (pg.collated collation) before after stored param = true := by
  unfold likeTruth
  split
  · simp [likeHolds]
  · simp [likeHolds]
  · next hstored hparam =>
    have hholds : likeHolds (pg.collated collation) before after stored param =
        decide (ilikeAnswer pg collation stored (likePattern pg before after param) = some true) := by
      unfold likeHolds
      split
      · exact absurd rfl hstored
      · exact absurd rfl hparam
      · rfl
    rw [hholds, decide_eq_true_iff]
    cases ilikeAnswer pg collation stored (likePattern pg before after param) <;> simp

/-- A condition that is true is one that holds. -/
theorem Condition.truth_iff (params : List Json) (row : Row) (condition : Condition) :
    condition.truth pg collation params row = .ok (some true) ↔
      condition.holds (pg.collated collation) params row = true := by
  cases condition with
  | compare column asText op n => simp [Condition.truth, Condition.holds, Comparison.truth_iff]
  | like column before after n => exact likeTruth_iff pg collation before after _ _
  | constant value => simp [Condition.truth, Condition.holds]
  | group conjunctive members =>
    cases conjunctive with
    | true => simp [Condition.truth, Condition.holds, Kleene.all_eq_true_iff, Member.truth_iff]
    | false => simp [Condition.truth, Condition.holds, Kleene.any_eq_true_iff, ← Member.truth_iff]
  | isNull column => simp [Condition.truth, Condition.holds]
  | isNotNull column => simp [Condition.truth, Condition.holds]

theorem keeps_iff (params : List Json) (row : Row) (conditions : List Condition) :
    keeps pg collation params row conditions = .ok true ↔
      conditions.all (Condition.holds (pg.collated collation) params row) = true := by
  induction conditions with
  | nil => simp [keeps]
  | cons condition conditions ih =>
    rw [List.all_cons, Bool.and_eq_true, ← Condition.truth_iff, ← ih, keeps]
    rcases condition.truth pg collation params row with error | _ | _ | _ <;> simp

/-- The rows that the clauses hold of are those that are kept. -/
theorem keeps_buildWhere_iff (clauses : List WhereClause) (row : Row) :
    keeps pg collation (buildWhere cc clauses 0).2 row (buildWhere cc clauses 0).1 = .ok true ↔
      clauses.all (WhereClause.holds (pg.collated collation) cc row) = true := by
  have hholds := buildWhere_holds (pg.collated collation) cc clauses row []
  rw [List.nil_append] at hholds
  rw [keeps_iff, ← hholds]
  rfl

/-! ## What a clause of texts says -/

theorem comparison_meets (asText : Bool) (op : Comparison) (stored : Option String) (v : String) :
    op.holds (pg.collated collation) asText (stored.elim .null .text) (.text v) =
      stored.any fun s => op.orders (collation.compare s v) := by
  cases stored with
  | none => rfl
  | some s =>
    cases asText with
    | false => rfl
    | true =>
      cases op with
      | eq | ne =>
        by_cases hsame : s = v <;> simp [Comparison.holds, castText, Comparison.orders, collation.compare_eq, hsame]
      | _ => rfl

/-- The pattern that a text makes. -/
def wildcards (before after : Bool) (v : List Char) : List Char :=
  (if before then ['%'] else []) ++ v ++ if after then ['%'] else []

theorem likePattern_text (before after : Bool) (v : String) :
    (likePattern pg before after (.text v)).toList = wildcards before after v.toList := by
  cases before <;> cases after <;> simp [likePattern, boundText, wildcards]

theorem like_holds_iff (before after : Bool) (stored : Option String) (v : String) :
    likeHolds (pg.collated collation) before after (stored.elim .null .text) (.text v) = true ↔
      ∃ s ∈ stored, Like.like collation.fold (wildcards before after v.toList) s.toList = some true := by
  have htext := likePattern_text (pg.collated collation) before after v
  cases stored with
  | none => simp [likeHolds]
  | some s =>
    rw [← htext]
    have hanswer : likeHolds (pg.collated collation) before after (.text s) (.text v) = decide (Like.like collation.fold
        (likePattern (pg.collated collation) before after (.text v)).toList s.toList = some true) := rfl
    rw [Option.elim_some, hanswer, decide_eq_true_iff]
    simp only [Option.mem_some_iff, exists_eq_left']

/-- A text is a member of a list of texts or differs from it. -/
theorem member_holds (negated : Bool) (s : String) {v : Json} (hv : v.isString = true) :
    (!v.isNull && Comparison.holds (pg.collated collation) v.isString (if negated then .ne else .eq) (.text s)
      (buildArg v)) = (decide (Json.string s = v) != negated) := by
  cases v with
  | string t =>
    have hmeets := comparison_meets pg collation true (if negated then .ne else .eq) (some s) t
    simp only [Option.elim_some, Option.any_some] at hmeets
    simp only [Json.isNull, Json.isString, buildArg, hmeets, Bool.not_false, Bool.true_and, Json.string.injEq]
    by_cases hsame : s = t
    · cases negated <;> simp [Comparison.orders, collation.compare_eq, hsame]
    · cases negated <;> simp [Comparison.orders, collation.compare_eq, hsame]
  | _ => cases hv

theorem isIn_meets (stored : Option String) {values : List Json} (htexts : ∀ v ∈ values, v.isString = true) :
    WhereOperator.isIn.holds (pg.collated collation) (stored.elim .null .text) (.array values) =
      WhereOperator.isIn.meets collation stored (.array values) := by
  simp only [WhereOperator.holds, WhereOperator.meets, Json.asArray?]
  cases stored with
  | none => simp [Comparison.holds]
  | some s =>
    have hmembers := fun v hv => member_holds pg collation false s (htexts v hv)
    rw [Bool.eq_iff_iff]
    simp only [Bool.false_eq_true, if_false] at hmembers
    simp only [Option.elim_some, Option.any_some, List.any_eq_true, decide_eq_true_iff]
    constructor
    · rintro ⟨v, hv, hholds⟩
      rw [hmembers v hv] at hholds
      have hsame : Json.string s = v := by simpa using hholds
      exact hsame ▸ hv
    · intro hs
      exact ⟨_, hs, by rw [hmembers _ hs]; simp⟩

theorem notIn_meets (stored : Option String) {values : List Json} (htexts : ∀ v ∈ values, v.isString = true) :
    WhereOperator.notIn.holds (pg.collated collation) (stored.elim .null .text) (.array values) =
      WhereOperator.notIn.meets collation stored (.array values) := by
  simp only [WhereOperator.holds, WhereOperator.meets, Json.asArray?]
  cases stored with
  | none => cases values <;> simp [Comparison.holds]
  | some s =>
    have hmembers := fun v hv => member_holds pg collation true s (htexts v hv)
    rw [Bool.eq_iff_iff]
    simp only [if_true] at hmembers
    simp only [Option.elim_some, Option.any_some, List.all_eq_true, decide_eq_true_iff, List.isEmpty_iff]
    constructor
    · intro hall
      refine .inr fun hs => ?_
      have hholds := hall _ hs
      rw [hmembers _ hs] at hholds
      simp at hholds
    · rintro (rfl | hs) v hv
      · cases hv
      · rw [hmembers v hv]
        have hne : Json.string s ≠ v := fun hsame => hs (hsame ▸ hv)
        simp [hne]

/-- The comparisons, of one text with another. -/
theorem scalar_meets {operator : WhereOperator} (hscalar : operator.isScalar = true) (hlike : operator.isLike = false)
    (stored : Option String) (v : String) :
    operator.holds (pg.collated collation) (stored.elim .null .text) (.string v) =
      operator.meets collation stored (.string v) := by
  have horder : ∀ s, collation.compare s v = .eq ↔ s = v := fun s => collation.compare_eq
  cases operator with
  | contains | startsWith | endsWith => cases hlike
  | isIn | notIn | isNull | isNotNull => cases hscalar
  | equals | notEquals =>
    simp only [WhereOperator.holds, buildArg, comparison_meets, Comparison.orders, WhereOperator.meets, horder]
    cases stored <;> simp [horder]
  | greaterThan | lessThan =>
    simp only [WhereOperator.holds, buildArg, comparison_meets, Comparison.orders, WhereOperator.meets]
  | greaterThanOrEqual | lessThanOrEqual =>
    simp only [WhereOperator.holds, buildArg, comparison_meets, Comparison.orders, WhereOperator.meets, ← horder]
    congr 1
    funext s
    cases collation.compare s v <;> rfl

/-- A pattern of a plain text is a plain search. -/
theorem like_meets {operator : WhereOperator} (hlike : operator.isLike = true) (stored : Option String) {v : String}
    (hplain : Like.Plain v.toList) :
    operator.holds (pg.collated collation) (stored.elim .null .text) (.string v) =
      operator.meets collation stored (.string v) := by
  rw [Bool.eq_iff_iff]
  cases operator with
  | contains =>
    simp only [WhereOperator.holds, buildArg, like_holds_iff, WhereOperator.meets, Option.any_eq_true, Option.mem_def,
      decide_eq_true_iff, ← Like.like_infix_iff collation.fold hplain]
    rfl
  | startsWith =>
    simp only [WhereOperator.holds, buildArg, like_holds_iff, WhereOperator.meets, Option.any_eq_true, Option.mem_def,
      decide_eq_true_iff, ← Like.like_prefix_iff collation.fold hplain]
    rfl
  | endsWith =>
    simp only [WhereOperator.holds, buildArg, like_holds_iff, WhereOperator.meets, Option.any_eq_true, Option.mem_def,
      decide_eq_true_iff, ← Like.like_suffix_iff collation.fold hplain, wildcards, if_true, Bool.false_eq_true, if_false,
      List.append_nil]
    rfl
  | _ => cases hlike

/-- A clause of texts that is accepted tests for NULL, has a list of texts, or has one text. -/
theorem textual_cases {clause : WhereClause} (hvalid : validateWhereClauses [clause] = .ok ()) (htext : clause.Textual) :
    (clause.operator = .isNull ∨ clause.operator = .isNotNull) ∨
    (∃ values, (clause.operator = .isIn ∨ clause.operator = .notIn) ∧ clause.value = .array values ∧
      ∀ v ∈ values, v.isString = true) ∨
    ∃ v, clause.operator.isScalar = true ∧ clause.value = .string v := by
  obtain ⟨field, operator, value⟩ := clause
  cases operator with
  | isNull => exact .inl (.inl rfl)
  | isNotNull => exact .inl (.inr rfl)
  | isIn | notIn =>
    cases value with
    | array values => exact .inr (.inl ⟨values, by simp, rfl, htext values rfl⟩)
    | _ => simp [validateWhereClauses, Json.asArray?] at hvalid
  | _ =>
    cases value with
    | string v => exact .inr (.inr ⟨v, rfl, rfl⟩)
    | _ => cases htext

theorem operands_scalar {clause : WhereClause} {v : String} (hscalar : clause.operator.isScalar = true)
    (hvalue : clause.value = .string v) : clause.operands = [v] := by
  obtain ⟨field, operator, value⟩ := clause
  cases hvalue
  cases operator with
  | isIn | notIn | isNull | isNotNull => cases hscalar
  | _ => rfl

/-- A clause of literal texts means what it says. -/
theorem holds_meets {clause : WhereClause} (hvalid : validateWhereClauses [clause] = .ok ()) (htext : clause.Textual)
    (hliteral : clause.Literal) (row : TextRow) :
    clause.holds (pg.collated collation) cc row.toRow = clause.meets collation cc row := by
  unfold WhereClause.holds WhereClause.meets
  rw [TextRow.get_toRow]
  generalize row.get (toSnakeCase cc clause.field) = stored
  rcases textual_cases hvalid htext with (hnull | hnull) | ⟨values, hin | hin, hvalue, htexts⟩ | ⟨v, hscalar, hvalue⟩
  · rw [hnull]
    cases stored <;> simp [WhereOperator.holds, WhereOperator.meets]
  · rw [hnull]
    cases stored <;> simp [WhereOperator.holds, WhereOperator.meets]
  · rw [hin, hvalue]
    exact isIn_meets pg collation stored htexts
  · rw [hin, hvalue]
    exact notIn_meets pg collation stored htexts
  · have hplain := (hliteral v (by rw [operands_scalar hscalar hvalue]; exact List.mem_singleton_self v)).2
    rw [hvalue]
    cases hlike : clause.operator.isLike with
    | true => exact like_meets pg collation hlike stored (hplain hlike)
    | false => exact scalar_meets pg collation hscalar hlike stored v

/-! ## Errors -/

theorem whereMembers_unsendable (column : String) (op : Comparison) (values : List Json) (idx : Nat) :
    (whereMembers column op values idx).2.1.any unsendable = values.any unsendable := by
  induction values generalizing idx with
  | nil => rfl
  | cons value values ih =>
    unfold whereMembers
    split
    · next hnull =>
      have hsendable : unsendable value = false := by
        cases value with
        | string v => cases hnull
        | _ => rfl
      rw [List.any_cons, hsendable, Bool.false_or]
      exact ih idx
    · rw [List.any_cons, List.any_cons, ih]

theorem texts_unsendable {values : List Json} (htexts : ∀ v ∈ values, v.isString = true) :
    values.any unsendable = (values.filterMap Json.asStr?).any fun v => '\x00' ∈ v.toList := by
  induction values with
  | nil => rfl
  | cons value values ih =>
    rw [List.forall_mem_cons] at htexts
    cases value with
    | string v =>
      have hhead : (Json.string v).asStr? = some v := rfl
      rw [List.any_cons, List.filterMap_cons_some hhead, List.any_cons, ih htexts.2]
      rfl
    | _ => cases htexts.1

/-- The texts that a clause binds are its parameters. -/
theorem whereClause_unsendable {clause : WhereClause} (hvalid : validateWhereClauses [clause] = .ok ())
    (htext : clause.Textual) (idx : Nat) :
    (whereClause cc clause idx).2.1.any unsendable = clause.operands.any fun v => '\x00' ∈ v.toList := by
  obtain ⟨field, operator, value⟩ := clause
  rcases textual_cases hvalid htext with hnull | ⟨values, hin, rfl, htexts⟩ | ⟨v, hscalar, rfl⟩
  · rcases hnull with rfl | rfl <;> rfl
  · rcases hin with rfl | rfl
    all_goals
      cases values with
      | nil => rfl
      | cons v values => exact (whereMembers_unsendable _ _ _ _).trans (texts_unsendable htexts)
  · rw [operands_scalar hscalar rfl]
    cases operator with
    | isIn | notIn | isNull | isNotNull => cases hscalar
    | _ => rfl

theorem closed_wildcards (before after : Bool) {v : List Char} (hv : Like.Plain v) :
    Like.Closed (wildcards before after v) := by
  have hend : Like.Closed (v ++ if after then ['%'] else []) := by
    rw [Like.closed_append hv]
    cases after <;> trivial
  cases before with
  | true => simpa [wildcards, Like.Closed] using hend
  | false => simpa [wildcards] using hend

/-- A pattern of a plain text has an answer. -/
theorem likeTruth_calm (before after : Bool) (stored : Option String) {v : String} (hv : Like.Plain v.toList) :
    ∃ truth, likeTruth pg collation before after (stored.elim .null .text) (.text v) = .ok truth := by
  cases stored with
  | none => exact ⟨none, rfl⟩
  | some s =>
    have hanswer := Like.like_ne_none collation.fold (closed_wildcards before after hv) s.toList
    simp only [Option.elim_some, likeTruth, ilikeAnswer, likePattern_text]
    cases hfound : Like.like collation.fold (wildcards before after v.toList) s.toList with
    | none => exact absurd hfound hanswer
    | some found => exact ⟨some found, rfl⟩

/-- No pattern of a literal text ends in the escape character. -/
theorem whereClause_calm {clause : WhereClause} (hvalid : validateWhereClauses [clause] = .ok ())
    (htext : clause.Textual) (hliteral : clause.Literal) (idx : Nat) (pre post : List Json) (hidx : idx = pre.length + 1)
    (row : TextRow) :
    ∃ truth, (whereClause cc clause idx).1.truth pg collation (pre ++ (whereClause cc clause idx).2.1 ++ post) row.toRow =
      .ok truth := by
  obtain ⟨field, operator, value⟩ := clause
  rcases textual_cases hvalid htext with hnull | ⟨values, hin, rfl, htexts⟩ | ⟨v, hscalar, rfl⟩
  · rcases hnull with rfl | rfl <;> exact ⟨_, rfl⟩
  · rcases hin with rfl | rfl
    all_goals cases values <;> exact ⟨_, rfl⟩
  · have hparam : paramAt (pre ++ [Json.string v] ++ post) idx = .text v := by
      rw [hidx, List.append_assoc, List.singleton_append, paramAt_append]
      rfl
    have hplain := (hliteral v (by rw [operands_scalar hscalar rfl]; exact List.mem_singleton_self v)).2
    cases operator with
    | isIn | notIn | isNull | isNotNull => cases hscalar
    | contains | startsWith | endsWith =>
      simp only [whereClause, Condition.truth, hparam, TextRow.get_toRow]
      exact likeTruth_calm pg collation _ _ _ (hplain rfl)
    | _ => exact ⟨_, rfl⟩

/-- The clauses of literal texts have an answer for every row. -/
theorem keeps_calm {clauses : List WhereClause} (hclauses : ∀ clause ∈ clauses,
      validateWhereClauses [clause] = .ok () ∧ clause.Textual ∧ clause.Literal) (idx : Nat) (pre post : List Json)
    (hidx : idx = pre.length + 1) (row : TextRow) :
    ∃ kept, keeps pg collation (pre ++ (whereClauses cc clauses idx).2 ++ post) row.toRow (whereClauses cc clauses idx).1 =
      .ok kept := by
  induction clauses generalizing idx pre with
  | nil => exact ⟨true, rfl⟩
  | cons clause clauses ih =>
    rw [List.forall_mem_cons] at hclauses
    obtain ⟨hvalid, htext, hliteral⟩ := hclauses.1
    have hnext : (whereClause cc clause idx).2.2 = (pre ++ (whereClause cc clause idx).2.1).length + 1 := by
      rw [whereClause_next, List.length_append, hidx]
      omega
    obtain ⟨kept, hrest⟩ := ih hclauses.2 _ (pre ++ (whereClause cc clause idx).2.1) hnext
    obtain ⟨truth, hclause⟩ := whereClause_calm pg collation cc hvalid htext hliteral idx pre
      ((whereClauses cc clauses (whereClause cc clause idx).2.2).2 ++ post) hidx row
    simp only [List.append_assoc] at hrest hclause
    simp only [whereClauses, keeps, List.append_assoc, hclause]
    rcases truth with _ | _ | _
    · exact ⟨false, rfl⟩
    · exact ⟨false, rfl⟩
    · exact ⟨kept, hrest⟩

/-- The texts that clauses bind are their parameters. -/
theorem whereClauses_unsendable {clauses : List WhereClause} (hclauses : ∀ clause ∈ clauses,
      validateWhereClauses [clause] = .ok () ∧ clause.Textual) (idx : Nat) :
    (whereClauses cc clauses idx).2.any unsendable =
      clauses.any fun clause => clause.operands.any fun v => '\x00' ∈ v.toList := by
  induction clauses generalizing idx with
  | nil => rfl
  | cons clause clauses ih =>
    rw [List.forall_mem_cons] at hclauses
    rw [whereClauses, List.any_append, List.any_cons, ih hclauses.2,
      whereClause_unsendable cc hclauses.1.1 hclauses.1.2]

theorem valid_iff {clauses : List WhereClause} :
    validateWhereClauses clauses = .ok () ↔ ∀ clause ∈ clauses, validateWhereClauses [clause] = .ok () := by
  induction clauses with
  | nil => simp [validateWhereClauses]
  | cons clause clauses ih =>
    rw [List.forall_mem_cons, ← ih, validateWhereClauses, validateWhereClauses]
    split <;> simp [validateWhereClauses]

/-! ## When the clauses mean what they say -/

/-- The rows that some clauses select of a table are those that meet them. -/
def MeansWhatItSays (clauses : List WhereClause) : Prop :=
  ∀ rows : List TextRow, selectRows pg collation (buildWhere cc clauses 0) (rows.map TextRow.toRow) =
    .ok ((rows.filter fun row => clauses.all (WhereClause.meets collation cc row)).map TextRow.toRow)

theorem keptRows_filter {params : List Json} {conditions : List Condition} {p : TextRow → Bool}
    (h : ∀ row : TextRow, keeps pg collation params row.toRow conditions = .ok (p row)) (rows : List TextRow) :
    keptRows pg collation params conditions (rows.map TextRow.toRow) = .ok ((rows.filter p).map TextRow.toRow) := by
  induction rows with
  | nil => rfl
  | cons row rows ih =>
    rw [List.map_cons, keptRows, h row, ih, List.filter_cons]
    cases p row <;> rfl

/-- Clauses of literal texts keep the rows that meet them. -/
theorem keeps_meets {clauses : List WhereClause} (hclauses : ∀ clause ∈ clauses,
      validateWhereClauses [clause] = .ok () ∧ clause.Textual ∧ clause.Literal) (row : TextRow) :
    keeps pg collation (buildWhere cc clauses 0).2 row.toRow (buildWhere cc clauses 0).1 =
      .ok (clauses.all (WhereClause.meets collation cc row)) := by
  obtain ⟨kept, hkept⟩ := keeps_calm pg collation cc hclauses 1 [] [] rfl row
  rw [List.nil_append, List.append_nil] at hkept
  have hiff := keeps_buildWhere_iff pg collation cc clauses row.toRow
  have hmeets : clauses.all (WhereClause.holds (pg.collated collation) cc row.toRow) =
      clauses.all (WhereClause.meets collation cc row) := by
    rw [Bool.eq_iff_iff, List.all_eq_true, List.all_eq_true]
    refine forall₂_congr fun clause hclause => ?_
    obtain ⟨hvalid, htext, hliteral⟩ := hclauses clause hclause
    rw [holds_meets pg collation cc hvalid htext hliteral row]
  have hbuilt : keeps pg collation (buildWhere cc clauses 0).2 row.toRow (buildWhere cc clauses 0).1 = .ok kept := hkept
  rw [hmeets, hbuilt, Except.ok.injEq] at hiff
  rw [hbuilt, Bool.eq_iff_iff.2 hiff]

/-- Clauses of literal texts mean what they say. -/
theorem means_of_literal {clauses : List WhereClause} (hclauses : ∀ clause ∈ clauses,
      validateWhereClauses [clause] = .ok () ∧ clause.Textual ∧ clause.Literal) :
    MeansWhatItSays pg collation cc clauses := by
  intro rows
  have hsendable : (buildWhere cc clauses 0).2.any unsendable = false := by
    rw [buildWhere, whereClauses_unsendable cc fun clause hclause =>
      ⟨(hclauses clause hclause).1, (hclauses clause hclause).2.1⟩]
    simp only [List.any_eq_false, List.any_eq_true, decide_eq_true_iff, not_exists, not_and]
    intro clause hclause v hv
    exact ((hclauses clause hclause).2.2 v hv).1
  rw [selectRows, hsendable, if_neg Bool.false_ne_true]
  exact keptRows_filter pg collation (keeps_meets pg collation cc hclauses) rows

/-- A clause that means what it says holds of the rows that meet it. -/
theorem holds_of_means {clause : WhereClause} (h : MeansWhatItSays pg collation cc [clause]) (row : TextRow) :
    clause.holds (pg.collated collation) cc row.toRow = true ↔ clause.meets collation cc row = true := by
  have hiff := keeps_buildWhere_iff pg collation cc [clause] row.toRow
  have hrow := h [row]
  rw [List.all_cons, List.all_nil, Bool.and_true] at hiff
  rw [← hiff]
  simp only [selectRows, List.all_cons, List.all_nil, Bool.and_true, List.map_cons, List.map_nil, keptRows] at hrow
  split at hrow
  · cases hrow
  · cases hkept : keeps pg collation (buildWhere cc [clause] 0).2 row.toRow (buildWhere cc [clause] 0).1 with
    | error error =>
      rw [hkept] at hrow
      cases hrow
    | ok kept =>
      rw [hkept] at hrow
      cases kept <;> cases hmeets : clause.meets collation cc row <;> simp_all [bind, Except.bind]

theorem sendable_of_means {clause : WhereClause} (hvalid : validateWhereClauses [clause] = .ok ())
    (htext : clause.Textual) (h : MeansWhatItSays pg collation cc [clause]) {v : String} (hv : v ∈ clause.operands) :
    '\x00' ∉ v.toList := by
  intro hzero
  have hbound : (buildWhere cc [clause] 0).2.any unsendable = true := by
    rw [buildWhere, whereClauses_unsendable cc (by simpa using ⟨hvalid, htext⟩)]
    simp only [List.any_cons, List.any_nil, Bool.or_false, List.any_eq_true, decide_eq_true_iff]
    exact ⟨v, hv, hzero⟩
  have herror := h []
  rw [selectRows, if_pos hbound] at herror
  cases herror

/-- The row of one column that has a text. -/
theorem text_of_means {field v : String} {operator : WhereOperator}
    (h : MeansWhatItSays pg collation cc [⟨field, operator, .string v⟩]) (s : String) :
    operator.holds (pg.collated collation) (.text s) (.string v) = true ↔
      operator.meets collation (some s) (.string v) = true := by
  have hrow := holds_of_means pg collation cc h [(toSnakeCase cc field, some s)]
  have hget : TextRow.get [(toSnakeCase cc field, some s)] (toSnakeCase cc field) = some s := by
    simp [TextRow.get, lookup?]
  rwa [WhereClause.holds, WhereClause.meets, TextRow.get_toRow, hget] at hrow

/-- A text that has the sample of another one's pattern up to `fold` is a plain one. -/
theorem plain_of_sample {v : List Char}
    (h : v.map collation.fold <:+: (Like.sample 'x' v).map collation.fold) : Like.Plain v := by
  have hx : collation.fold 'x' ≠ collation.fold '_' := by
    intro hsame
    exact absurd (collation.fold_special (.inr (.inl rfl)) hsame) (by decide)
  have hescape : collation.fold '%' ≠ collation.fold '\\' := by
    intro hsame
    exact absurd (collation.fold_special (.inr (.inr rfl)) hsame) (by decide)
  have hlength : ((Like.sample 'x' v).map collation.fold).length ≤ (v.map collation.fold).length := by
    rw [List.length_map, List.length_map]
    exact Like.sample_length_le 'x' v
  exact Like.plain_of_sample_eq collation.fold hx hescape (h.eq_of_length_le hlength).symm

/-- A pattern that does not stand for itself has a row that shows it. -/
theorem plain_of_means {field v : String} {operator : WhereOperator} (hlike : operator.isLike = true)
    (h : MeansWhatItSays pg collation cc [⟨field, operator, .string v⟩]) : Like.Plain v.toList := by
  have hsample := text_of_means pg collation cc h (String.ofList (Like.sample 'x' v.toList))
  have hself := text_of_means pg collation cc h v
  have hlikes := fun before after s => like_holds_iff pg collation before after (some s) v
  simp only [Option.elim_some, Option.mem_some_iff, exists_eq_left'] at hlikes
  have hpercent := Like.like_sample_percent collation.fold 'x' v.toList
  apply plain_of_sample collation
  cases operator with
  | contains =>
    simp only [WhereOperator.holds, buildArg, hlikes, wildcards, WhereOperator.meets, Option.any_some,
      decide_eq_true_iff, String.toList_ofList, if_true, List.singleton_append] at hsample
    apply hsample.1
    rw [List.cons_append, Like.like]
    exact Like.firstOf_of_yes hpercent
  | startsWith =>
    simp only [WhereOperator.holds, buildArg, hlikes, wildcards, WhereOperator.meets, Option.any_some,
      decide_eq_true_iff, String.toList_ofList, if_true, Bool.false_eq_true, if_false, List.nil_append] at hsample
    exact (hsample.1 hpercent).isInfix
  | endsWith =>
    simp only [WhereOperator.holds, buildArg, hlikes, wildcards, WhereOperator.meets, Option.any_some,
      decide_eq_true_iff, String.toList_ofList, if_true, Bool.false_eq_true, if_false, List.append_nil,
      List.singleton_append] at hsample hself
    have hclosed : Like.Closed v.toList := by
      by_contra hopen
      have hnever : ¬ Like.Closed ('%' :: v.toList) := by simpa [Like.Closed] using hopen
      exact Like.not_yes_of_open collation.fold hnever _ (hself.2 List.suffix_rfl)
    have hyes : Like.like collation.fold ('%' :: v.toList) (Like.sample 'x' v.toList) = some true := by
      rw [Like.like]
      exact Like.firstOf_of_yes (Like.like_sample collation.fold 'x' hclosed)
    exact (hsample.1 hyes).isInfix
  | _ => cases hlike

/-- Clauses over texts mean what they say, with each part of them, exactly when their texts are literal. -/
theorem means_iff_literal (clauses : List WhereClause) (hvalid : validateWhereClauses clauses = .ok ())
    (htext : ∀ clause ∈ clauses, clause.Textual) :
    (∀ part, part.Sublist clauses → MeansWhatItSays pg collation cc part) ↔ ∀ clause ∈ clauses, clause.Literal := by
  rw [valid_iff] at hvalid
  constructor
  · intro hparts clause hclause v hv
    have hmeans := hparts [clause] (List.singleton_sublist.2 hclause)
    refine ⟨sendable_of_means pg collation cc (hvalid clause hclause) (htext clause hclause) hmeans hv, fun hlike => ?_⟩
    rcases textual_cases (hvalid clause hclause) (htext clause hclause) with hnull | ⟨values, hin, -⟩ | ⟨w, hscalar, hvalue⟩
    · rcases hnull with hnull | hnull <;> simp [hnull, WhereOperator.isLike] at hlike
    · rcases hin with hin | hin <;> simp [hin, WhereOperator.isLike] at hlike
    · rw [operands_scalar hscalar hvalue, List.mem_singleton] at hv
      obtain ⟨field, operator, value⟩ := clause
      cases hvalue
      exact hv ▸ plain_of_means pg collation cc hlike hmeans
  · intro hliteral part hpart
    apply means_of_literal
    intro clause hclause
    have hin := hpart.subset hclause
    exact ⟨hvalid clause hin, htext clause hin, hliteral clause hin⟩

theorem means_iff_literal_name :
    (∀ part, part.Sublist [⟨"name", .startsWith, .string "50"⟩] → MeansWhatItSays .bare .ascii .ascii part) ↔
      ∀ clause ∈ [(⟨"name", .startsWith, .string "50"⟩ : WhereClause)], clause.Literal :=
  means_iff_literal .bare .ascii .ascii _ rfl (by simp [WhereClause.Textual, Json.isString])

/-- A row with `500` is selected as one that contains `50%`. -/
theorem percent_selects :
    let clause : WhereClause := ⟨"name", .contains, .string "50%"⟩
    let row : TextRow := [("name", some "500")]
    validateWhereClauses [clause] = .ok () ∧ clause.Textual ∧
      selectRows .bare .ascii (buildWhere .ascii [clause] 0) [row.toRow] = .ok [row.toRow] ∧
      clause.meets .ascii .ascii row = false := by
  refine ⟨rfl, rfl, ?_, ?_⟩
  · decide
  · decide

end Query
end Atomo

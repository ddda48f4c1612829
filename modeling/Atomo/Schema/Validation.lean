import Atomo.Data.Json
import Atomo.Schema.Model

/-!
# Validation rules

The rules of a field are one text, `required|min:1|in:a,b`; `check_rule` is the check of one of them.
`validate` checks every rule, `validate_partial` those of the fields that the data has.
-/

namespace Atomo.Schema

structure ValidationError where
  field : String
  message : String
  code : String
  deriving DecidableEq

/-- `str::parse::<usize>`. -/
def parseUsize (text : List Char) : Option Nat :=
  let digits := if text.head? = some '+' then text.tail else text
  if digits ≠ [] ∧ digits.all Char.isDigit then
    let n := Nat.ofDigitChars 10 digits 0
    if n < 2 ^ 64 then some n else none
  else none

def unsigned (text : List Char) : List Char :=
  match text with
  | '+' :: rest | '-' :: rest => rest
  | _ => text

/-- The exponent of a floating-point literal, if there is one. -/
def floatExponent : List Char → Bool
  | [] => true
  | c :: rest => (c = 'e' || c = 'E') && unsigned rest ≠ [] && (unsigned rest).all Char.isDigit

/-- `str::parse::<f64>` succeeds. -/
def parsesFloat (text : List Char) : Bool :=
  let body := unsigned text
  let whole := body.takeWhile Char.isDigit
  let rest := body.dropWhile Char.isDigit
  body.map Char.toLower ∈ ["inf".toList, "infinity".toList, "nan".toList] ||
    match rest with
    | '.' :: fraction =>
      (whole ≠ [] || fraction.takeWhile Char.isDigit ≠ []) && floatExponent (fraction.dropWhile Char.isDigit)
    | rest => whole ≠ [] && floatExponent rest

/-- The name of a rule and what follows its colon. -/
def ruleParts (rule : List Char) : List Char × Option (List Char) :=
  match rule.dropWhile (· ≠ ':') with
  | [] => (rule, none)
  | _ :: param => (rule.takeWhile (· ≠ ':'), some param)

/-- The message and the code with which a value fails a rule. -/
def ruleFailure (field : String) (value : Option Json) (rule : List Char) : Option (String × String) :=
  let (name, param) := ruleParts rule
  match String.ofList name with
  | "required" =>
    if value = none ∨ value = some .null ∨ value = some (.string "") then
      some (field ++ " is required", "required")
    else none
  | "email" =>
    match value with
    | some (.string s) =>
      if s ≠ "" ∧ ('@' ∉ s.toList ∨ '.' ∉ s.toList) then
        some (field ++ " must be a valid email", "email")
      else none
    | _ => none
  | "min" =>
    match param.bind parseUsize, value with
    | some min, some (.string s) =>
      if s.utf8ByteSize < min then
        some (field ++ " must be at least " ++ min.repr ++ " characters", "min_length")
      else none
    | some min, some (.number n) =>
      if n.asF64 < doubleOfNat min then
        some (field ++ " must be at least " ++ min.repr, "min_value")
      else none
    | _, _ => none
  | "max" =>
    match param.bind parseUsize, value with
    | some max, some (.string s) =>
      if max < s.utf8ByteSize then
        some (field ++ " must be at most " ++ max.repr ++ " characters", "max_length")
      else none
    | some max, some (.number n) =>
      if doubleOfNat max < n.asF64 then
        some (field ++ " must be at most " ++ max.repr, "max_value")
      else none
    | _, _ => none
  | "numeric" =>
    match value with
    | none | some (.number _) | some .null => none
    | some (.string s) =>
      if parsesFloat s.toList then none else some (field ++ " must be numeric", "numeric")
    | some _ => some (field ++ " must be numeric", "numeric")
  | "url" =>
    match value with
    | some (.string s) =>
      if s = "" ∨ "http://".toList <+: s.toList ∨ "https://".toList <+: s.toList then none
      else some (field ++ " must be a valid URL", "url")
    | _ => none
  | "in" =>
    match value, param with
    | some (.string s), some options =>
      if s.toList ∈ splitAt ',' options then none
      else some (field ++ " must be one of: " ++ .ofList options, "in")
    | _, _ => none
  | _ => none

/-- `check_rule`. -/
def checkRule (field : String) (value : Option Json) (rule : List Char) : Option ValidationError :=
  (ruleFailure field value rule).map fun (message, code) => ⟨field, message, code⟩

/-- The errors of the rules of one field. -/
def fieldErrors (field : String) (value : Option Json) (rules : String) : List ValidationError :=
  (splitAt '|' rules.toList).filterMap (checkRule field value)

/-- `validate`. -/
def validate (data : List (String × Json)) (rules : List (String × String)) : List ValidationError :=
  rules.flatMap fun (field, rule) => fieldErrors field (lookup? field data) rule

/-- `validate_partial`. -/
def validatePartial (data : List (String × Json)) (rules : List (String × String)) : List ValidationError :=
  rules.flatMap fun (field, rule) =>
    if (lookup? field data).isSome then fieldErrors field (lookup? field data) rule else []

/-- Every failure names the field it is about. -/
theorem ruleFailure_message {field : String} {value : Option Json} {rule : List Char} {failure : String × String}
    (h : ruleFailure field value rule = some failure) : ∃ rest, failure.1 = field ++ rest := by
  unfold ruleFailure at h
  dsimp only at h
  simp only [String.append_assoc] at h
  -- one branch for each rule, and in it for each form of the value
  repeat' split at h
  all_goals first
    | cases h; done
    | cases h; exact ⟨_, rfl⟩

theorem checkRule_field {field : String} {value : Option Json} {rule : List Char} {e : ValidationError}
    (h : checkRule field value rule = some e) : e.field = field := by
  obtain ⟨failure, -, rfl⟩ := Option.map_eq_some_iff.1 h
  rfl

theorem fieldErrors_field {field : String} {value : Option Json} {rules : String} {e : ValidationError}
    (h : e ∈ fieldErrors field value rules) : e.field = field := by
  obtain ⟨rule, -, hrule⟩ := List.mem_filterMap.1 h
  exact checkRule_field hrule

/-- Every error names a field that has a rule. -/
theorem validate_field {data : List (String × Json)} {rules : List (String × String)} {e : ValidationError}
    (h : e ∈ validate data rules) : e.field ∈ rules.map Prod.fst := by
  obtain ⟨rule, hrule, he⟩ := List.mem_flatMap.1 h
  rw [fieldErrors_field he]
  exact List.mem_map_of_mem hrule

/-- A partial check finds nothing wrong with a field that is not in the data. -/
theorem validatePartial_field {data : List (String × Json)} {rules : List (String × String)}
    {e : ValidationError} (h : e ∈ validatePartial data rules) : (lookup? e.field data).isSome = true := by
  obtain ⟨⟨field, rule⟩, -, he⟩ := List.mem_flatMap.1 h
  by_cases hfield : (lookup? field data).isSome = true
  · have hmem : e ∈ fieldErrors field (lookup? field data) rule := by simpa [hfield] using he
    rw [fieldErrors_field hmem]
    exact hfield
  · simp [hfield] at he

end Atomo.Schema

import Atomo.Dsl.Cuts
import Atomo.TypeScript.Parser

/-!
# The calls of `defineModel`

`parse_model_definition` of `dsl_parser.rs`: the access rules and the hooks in the object that `defineModel` is called
with. Every cut is made at a bracket or a word that has been found, so none of them panics
(`isSome_parseModelDefinition`).
-/

namespace Atomo.TypeScript

open String (utf8Len)
open Utf8 (sliceFrom sliceTo)
open Pattern (Item Match find matchAt)
open Schema Dsl

/-- What `parse_model_definition` takes from elsewhere. -/
structure Definitions extends Unicode where
  /-- `str::parse::<f64>`, as bits. -/
  double : List Char → Option UInt64
  /-- The error of `Regex::new` on a pattern with the name of a model in it. -/
  refuses : String → Option String

inductive OperationType where
  | create
  | update
  | delete
  deriving DecidableEq

structure Hook where
  name : String
  operationType : Option OperationType
  functionCode : String
  asyncHook : Bool

structure FieldHook where
  fieldName : String
  functionCode : String
  asyncHook : Bool

structure HookDefinitions where
  beforeOperation : Option (List Hook)
  afterOperation : Option (List Hook)
  beforeChange : Option (List FieldHook)
  afterRead : Option (List Hook)

/-! ## Brackets -/

/-- `str::find` of a character. -/
def charIndex (c : Char) (t : List Char) : Option Nat :=
  if c ∈ t then some (utf8Len (t.takeWhile (· ≠ c))) else none

/-- The index of the bracket that closes `depth` others, by `char_indices` from `i` on. -/
def closingIndex (br : Brackets) : Nat → Nat → List Char → Option Nat
  | _, _, [] => none
  | depth, i, c :: v =>
    if c = br.opening then closingIndex br (depth + 1) (i + c.utf8Size) v
    else if c = br.closing then
      if depth = 1 then some i else closingIndex br (depth - 1) (i + c.utf8Size) v
    else closingIndex br depth (i + c.utf8Size) v

/-- What stands within the first brackets behind a word, where they close. -/
def enclosed (br : Brackets) (content : List Char) (word : String) : Option (Option (List Char)) :=
  match find [text word] content with
  | none => some none
  | some m => do
    let remaining ← sliceFrom content (startOf m)
    match charIndex br.opening remaining with
    | none => some none
    | some position =>
      let behind ← sliceFrom remaining (position + 1)
      match closingIndex br 1 0 behind with
      | none => some none
      | some stop => (sliceTo behind stop).map some

/-! ## Access rules -/

section Definitions

variable (defs : Definitions)

/-- `parse_query_value`. -/
def parseQueryValue (value : List Char) : QueryValue :=
  if startsWith value "user." then .userProperty (.ofList value)
  else if value.head?.any isQuote then .string (.ofList ((value.dropWhile isQuote).reverse.dropWhile isQuote).reverse)
  else if value = "true".toList ∨ value = "false".toList then .boolean (value = "true".toList)
  else
    match defs.double value with
    | some bits => .number bits
    | none => .string (.ofList value)

/-- The operators that a condition may name. -/
def operatorOf (name : List Char) : Option QueryOperator :=
  if name = "equals".toList then some .equals
  else if name = "notEquals".toList then some .notEquals
  else if name = "in".toList then some .in
  else if name = "notIn".toList then some .notIn
  else if name = "greaterThan".toList then some .greaterThan
  else if name = "lessThan".toList then some .lessThan
  else if name = "like".toList then some .like
  else none

/-- `access\.where\s*\(\s*['"]([^'"]+)['"]\s*\)\.(\w+)\s*\(\s*([^)]+)\s*\)`; the third group is trimmed. -/
def whereCall : List (Item Char) :=
  [text "access.where", blanks, mark '(', blanks] ++ quotedString ++
    [blanks, text ").", word defs.toUnicode, blanks, mark '(', .group (.some (· ≠ ')')), mark ')']

/-- `parse_where_condition`. -/
def parseWhereCondition (content : List Char) : Option AccessRule := do
  let cap ← find (whereCall defs) content
  let operator ← operatorOf (cap.group 2)
  some (.query ⟨.ofList (cap.group 1), operator, parseQueryValue defs (trim (cap.group 3))⟩)

/-- `parse_or_condition`. -/
def parseOrCondition (content : List Char) : Option AccessRule :=
  (find [text "access.or", blanks, mark '(', .group (.some (· ≠ ')')), mark ')'] content).map fun cap =>
    .or ((splitAt ',' (cap.group 1)).filterMap fun condition => parseWhereCondition defs (trim condition))

/-- `{operation}:\s*\(\{[^}]*user[^}]*\}\s*:\s*access\.Context<[^>]+>\)\s*=>\s*([^,}]+)`, but for the `user`; the second
group is trimmed. -/
def ruleItems (operation : String) : List (Item Char) :=
  [text operation, mark ':', blanks, mark '(', mark '\x7b', .group (.many (· ≠ '\x7d')), mark '\x7d', blanks, mark ':',
    blanks, text "access.Context<", .skip (.some (· ≠ '>')), text ">)", blanks, text "=>",
    .group (.some fun c => c ≠ ',' && c ≠ '\x7d')]

/-- `parse_access_rule`. -/
def parseAccessRule (content : List Char) (operation : String) : Option AccessRule := do
  let cap ← content.tails.findSome? fun rest =>
    (matchAt (ruleItems operation) rest).filter fun cap => contains (cap.group 1) "user"
  let rule := trim (cap.group 2)
  if startsWith rule "!!user" then some (.boolean "!!user")
  else if contains rule "access.or" then parseOrCondition defs rule
  else if contains rule "access.where" then parseWhereCondition defs rule
  else some (.boolean (.ofList rule))

/-- `parse_access_block`. -/
def parseAccessBlock (content : List Char) : Option (Option AccessControl) := do
  match ← enclosed bareBraces content "access:" with
  | none => some none
  | some access =>
    if access = [] then some none
    else
      some (some
        { create := parseAccessRule defs access "create"
          read := parseAccessRule defs access "read"
          update := parseAccessRule defs access "update"
          delete := parseAccessRule defs access "delete" })

end Definitions

/-! ## Hooks -/

/-- The hooks of the array behind a word. -/
def hooksBehind {α : Type} (read : List Char → List α) (content : List Char) (word : String) : Option (Option (List α)) := do
  match ← enclosed bareSquares content word with
  | none => some none
  | some arr => some (if (read (trim arr)).isEmpty then none else some (read (trim arr)))

/-- `parse_hook_array`. -/
def parseHookArray (content : List Char) (hookType : String) : Option (Option (List Hook)) :=
  hooksBehind (fun code =>
    (if contains code "hooks.create" then [⟨"create", some .create, .ofList code, true⟩] else []) ++
      (if contains code "hooks.read" then [⟨"read", none, .ofList code, true⟩] else [])) content (hookType ++ ":")

/-- `parse_field_hook_array`. -/
def parseFieldHookArray (content : List Char) (hookType : String) : Option (Option (List FieldHook)) :=
  hooksBehind (fun code =>
    if contains code "hooks.change('status'" then [⟨"status", .ofList code, true⟩] else []) content (hookType ++ ":")

/-- `parse_hooks_block`. -/
def parseHooksBlock (content : List Char) : Option (Option HookDefinitions) := do
  match ← enclosed bareBraces content "hooks:" with
  | none => some none
  | some hooks =>
    if hooks = [] then some none
    else
      let beforeOperation ← parseHookArray hooks "beforeOperation"
      let afterOperation ← parseHookArray hooks "afterOperation"
      let beforeChange ← parseFieldHookArray hooks "beforeChange"
      let afterRead ← parseHookArray hooks "afterRead"
      some (some { beforeOperation, afterOperation, beforeChange, afterRead })

/-! ## Definitions -/

/-- The lines from the first brace on, up to one at which the braces balance. -/
def balancedLines (found : Bool) (depth : Int) : List (List Char) → List Char
  | [] => []
  | line :: rest =>
    let found := found || '\x7b' ∈ line
    let depth := depth + braceDepth line
    (if found then line ++ ['\n'] else []) ++ if found ∧ depth = 0 then [] else balancedLines found depth rest

/-- The text that `parse_multiline_define_model` reads. -/
def multilineDefinition (content : List Char) (modelName : String) : Option (List Char) :=
  match (lines content).dropWhile fun line =>
      !(contains (trim line) (modelName ++ "Model") && contains (trim line) "defineModel") with
  | [] => none
  | line :: rest => some (balancedLines false 0 (line :: rest))

/-- `export\s+const\s+{modelName}Model\s*=\s*defineModel\s*\(\s*\{([^}]+)\}\s*\)`. -/
def definitionItems (modelName : String) : List (Item Char) :=
  [text "export", blanks1, text "const", blanks1, text (modelName ++ "Model"), blanks, mark '=', blanks, text "defineModel",
    blanks, mark '(', blanks, mark '\x7b', .group (.some (· ≠ '\x7d')), mark '\x7d', blanks, mark ')']

/-- `parse_model_definition`. -/
def parseModelDefinition (defs : Definitions) (content : List Char) (modelName : String) :
    Option (Except String (Option AccessControl × Option HookDefinitions)) :=
  match defs.refuses modelName with
  | some e => some (.error e)
  | none =>
    match ((find (definitionItems modelName) content).map (·.group 1)).or (multilineDefinition content modelName) with
    | none => some (.ok (none, none))
    | some definition => do
      let access ← parseAccessBlock defs definition
      let hooks ← parseHooksBlock definition
      some (.ok (access, hooks))

/-! ## Every cut is at a character -/

theorem sliceFrom_charIndex {c : Char} (hc : c.utf8Size = 1) {t : List Char} {i : Nat} (h : charIndex c t = some i) :
    (sliceFrom t (i + 1)).isSome = true := by
  unfold charIndex at h
  split at h
  · rename_i hmem
    obtain ⟨before, behind, rfl, hbefore⟩ := List.eq_append_cons_of_mem hmem
    have htake : (before ++ c :: behind).takeWhile (· ≠ c) = before := by
      have hother : ∀ d ∈ before, decide (d ≠ c) = true := by
        intro d hd
        rw [decide_eq_true_eq]
        rintro rfl
        exact hbefore hd
      rw [List.takeWhile_append_of_pos hother, List.takeWhile_cons_of_neg (by simp), List.append_nil]
    rw [htake] at h
    cases h
    have hlen : utf8Len before + 1 = utf8Len (before ++ [c]) := by rw [utf8Len_push, hc]
    have htext : before ++ c :: behind = before ++ [c] ++ behind := by simp
    rw [hlen, htext, Utf8.sliceFrom_append]
    rfl
  · cases h

theorem closingIndex_append {br : Brackets} {depth i : Nat} {v : List Char} {stop : Nat}
    (h : closingIndex br depth i v = some stop) : ∃ w r, v = w ++ r ∧ stop = i + utf8Len w := by
  induction v generalizing depth i with
  | nil => cases h
  | cons c v ih =>
    have hstep : ∀ depth', closingIndex br depth' (i + c.utf8Size) v = some stop →
        ∃ w r, c :: v = w ++ r ∧ stop = i + utf8Len w := by
      intro depth' h'
      obtain ⟨w, r, rfl, hstop⟩ := ih h'
      refine ⟨c :: w, r, rfl, ?_⟩
      rw [hstop, String.utf8Len_cons]
      omega
    rw [closingIndex] at h
    split at h
    · exact hstep _ h
    · split at h
      · split at h
        · cases h
          exact ⟨[], c :: v, rfl, rfl⟩
        · exact hstep _ h
      · exact hstep _ h

theorem isSome_enclosed (br : Brackets) (content : List Char) (word : String) :
    (enclosed br content word).isSome = true := by
  unfold enclosed
  cases hfind : find [text word] content with
  | none => rfl
  | some m =>
    have hcontent := (Pattern.search_spec hfind).1
    have hremaining : sliceFrom content (startOf m) = some (m.text ++ m.rest) := by
      rw [hcontent, List.append_assoc, startOf, Utf8.sliceFrom_append]
    simp only [hremaining, Option.bind_eq_bind, Option.bind_some]
    cases hposition : charIndex br.opening (m.text ++ m.rest) with
    | none => rfl
    | some position =>
      obtain ⟨behind, hbehind⟩ := Option.isSome_iff_exists.1
        (sliceFrom_charIndex (Utf8.utf8Size_of_ascii br.opening_lt) hposition)
      simp only [hbehind, Option.bind_some]
      cases hstop : closingIndex br 1 0 behind with
      | none => rfl
      | some stop =>
        obtain ⟨w, r, rfl, rfl⟩ := closingIndex_append hstop
        simp only [Nat.zero_add, Utf8.sliceTo_append]
        rfl

theorem isSome_parseAccessBlock (defs : Definitions) (content : List Char) :
    (parseAccessBlock defs content).isSome = true := by
  obtain ⟨found, hfound⟩ := Option.isSome_iff_exists.1 (isSome_enclosed bareBraces content "access:")
  unfold parseAccessBlock
  rw [hfound]
  cases found with
  | none => rfl
  | some access =>
    simp only [Option.bind_eq_bind, Option.bind_some]
    split <;> rfl

theorem isSome_hooksBehind {α : Type} (read : List Char → List α) (content : List Char) (word : String) :
    (hooksBehind read content word).isSome = true := by
  obtain ⟨found, hfound⟩ := Option.isSome_iff_exists.1 (isSome_enclosed bareSquares content word)
  unfold hooksBehind
  rw [hfound]
  cases found <;> rfl

theorem isSome_parseHooksBlock (content : List Char) : (parseHooksBlock content).isSome = true := by
  obtain ⟨found, hfound⟩ := Option.isSome_iff_exists.1 (isSome_enclosed bareBraces content "hooks:")
  have harray : ∀ hooks hookType, (parseHookArray hooks hookType).isSome = true :=
    fun hooks hookType => isSome_hooksBehind _ hooks (hookType ++ ":")
  have hfield : ∀ hooks hookType, (parseFieldHookArray hooks hookType).isSome = true :=
    fun hooks hookType => isSome_hooksBehind _ hooks (hookType ++ ":")
  unfold parseHooksBlock
  rw [hfound]
  cases found with
  | none => rfl
  | some hooks =>
    obtain ⟨beforeOperation, hbefore⟩ := Option.isSome_iff_exists.1 (harray hooks "beforeOperation")
    obtain ⟨afterOperation, hafter⟩ := Option.isSome_iff_exists.1 (harray hooks "afterOperation")
    obtain ⟨beforeChange, hchange⟩ := Option.isSome_iff_exists.1 (hfield hooks "beforeChange")
    obtain ⟨afterRead, hread⟩ := Option.isSome_iff_exists.1 (harray hooks "afterRead")
    simp only [Option.bind_eq_bind, Option.bind_some, hbefore, hafter, hchange, hread]
    split <;> rfl

theorem isSome_parseModelDefinition (defs : Definitions) (content : List Char) (modelName : String) :
    (parseModelDefinition defs content modelName).isSome = true := by
  unfold parseModelDefinition
  cases defs.refuses modelName with
  | some e => rfl
  | none =>
    cases ((find (definitionItems modelName) content).map (·.group 1)).or (multilineDefinition content modelName) with
    | none => rfl
    | some definition =>
      obtain ⟨access, haccess⟩ := Option.isSome_iff_exists.1 (isSome_parseAccessBlock defs definition)
      obtain ⟨hooks, hhooks⟩ := Option.isSome_iff_exists.1 (isSome_parseHooksBlock definition)
      simp [haccess, hhooks]

/-- What `parse_schema` takes from `parse_model_definition`. -/
def Definitions.library (defs : Definitions) (number : List Char → Option Json) : Library where
  toUnicode := defs.toUnicode
  number := number
  modelDefinition content modelName :=
    ((parseModelDefinition defs content modelName).get (isSome_parseModelDefinition defs content modelName)).map (·.1)

end Atomo.TypeScript

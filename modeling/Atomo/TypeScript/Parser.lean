import Atomo.Dsl.Parser
import Mathlib.Data.List.TakeWhile

/-!
# The parser of the interface language

`TypeScriptParser` of `typescript_parser.rs`, function by function: the `export interface` declarations, and what the
object `export const schema` says of each model. A panic is no value, and an error is the text it is raised with. What
`parse_model_definition` of `dsl_parser.rs` finds for a model in a call of `defineModel` is a parameter here.
-/

namespace Atomo.TypeScript

open String (utf8Len)
open Utf8 (bytes code sliceTo)
open Pattern (Item Match find findAll matchAt)
open Schema
open Dsl

/-- What the parser takes from elsewhere. -/
structure Library extends Unicode where
  /-- `json!` of `str::parse::<f64>`. -/
  number : List Char → Option Json
  /-- `parse_model_definition`, without the hooks. -/
  modelDefinition : List Char → String → Except String (Option AccessControl)

/-! ## Blocks -/

/-- The braces that `sub_block` counts, within strings too. -/
def bareBraces : Brackets where
  opening := '{'
  closing := '}'
  quotes := []
  ascii := by decide

/-- `sub_block`. -/
def subBlock (content : List Char) (key : String) : Option (Option (List Char)) :=
  match find (member key '{') content with
  | none => some none
  | some m => (bodyTo bareBraces content (endOf m)).map fun (body, _) => some body

/-- `sub_array`. -/
def subArray (content : List Char) (key : String) : Option (Option (List Char)) :=
  match find (member key '[') content with
  | none => some none
  | some m => (bodyTo bareSquares content (endOf m)).map fun (body, _) => some body

/-- `{key}\s*:\s*['"]([^'"]+)['"]`. -/
def stringMember (key : String) : List (Item Char) :=
  [text key, blanks, mark ':', blanks] ++ quotedString

/-- The string under a key. -/
def stringOf (t : List Char) (key : String) : Option String :=
  (find (stringMember key) t).map fun cap => .ofList (cap.group 1)

section Parser

variable (u : Unicode)

/-- `(\w+)\s*:\s*\{`. -/
def entryBlock : List (Item Char) :=
  [word u, blanks, mark ':', blanks, mark '{']

/-- `top_level_entries`. -/
def topLevelEntries (block : List Char) : Option (List (String × List Char)) := do
  let entries ← (findAll (entryBlock u) block).mapM fun cap => do
    let before ← sliceTo block (startOf cap)
    if braceDepth before ≠ 0 then some none
    else
      let (body, _) ← bodyTo bareBraces block (endOf cap)
      some (some (String.ofList (cap.group 1), body))
  some (entries.filterMap id)

/-- The entries of a block under a key. -/
def entriesOf (content : List Char) (key : String) : Option (List (String × List Char)) := do
  match ← subBlock content key with
  | none => some []
  | some block => topLevelEntries u block

/-! ## Events -/

/-- The number behind `value:`. -/
def numberMember : List (Item Char) :=
  [text "value", blanks, mark ':', blanks, .group (.opt ['-']), .group (.some u.isDigit)]

/-- The value that a condition compares with. -/
def conditionValue (number : List Char → Option Json) (block : List Char) : Option Json :=
  match stringOf block "value" with
  | some s => some (.string s)
  | none =>
    match find [text "value", blanks, mark ':', blanks, .group (.oneOf (["true", "false"].map String.toList))] block with
    | some cap => some (.bool (cap.group 1 = "true".toList))
    | none =>
      (find (numberMember u) block).bind fun cap =>
        let fraction := (matchAt [.group (.lit ['.']), .group (.some u.isDigit)] cap.rest).map fun m => m.text
        number (cap.group 1 ++ cap.group 2 ++ fraction.getD [])

/-- `parse_binding_condition`. -/
def parseBindingCondition (number : List Char → Option Json) (obj : List Char) : Option (Option ActionCondition) := do
  match ← subBlock obj "condition" with
  | none => some none
  | some block =>
    match ← subArray block "changedAny" with
    | some arr => if quotedStrings arr ≠ [] then return some (.changedAny (quotedStrings arr))
    | none => pure ()
    match ← subBlock block "fieldEquals" with
    | none => some none
    | some equals =>
      some ((stringOf equals "field").bind fun field =>
        (conditionValue u number equals).map fun value => .fieldEquals field value)

/-- `parse_single_binding`. -/
def parseSingleBinding (number : List Char → Option Json) (obj : List Char) : Option (Option EventActionBinding) :=
  match stringOf obj "action" with
  | none => some none
  | some action => (parseBindingCondition u number obj).map fun condition => some { action, condition }

theorem lt_bodyTo {br : Brackets} {content body : List Char} {i j : Nat} (h : bodyTo br content (i + 1) = some (body, j)) :
    i < j := by
  obtain ⟨_, -, heq⟩ := Option.map_eq_some_iff.1 h
  cases heq
  exact le_balance br (bytes content) 1 (i + 1)

/-- The loop of `parse_event_bindings`, from byte `i` on. -/
def eventBindingsFrom (number : List Char → Option Json) (content : List Char) (i : Nat) :
    Option (List EventActionBinding) :=
  if h : i < (bytes content).length then
    if (bytes content)[i] = code '{' then
      match _ : bodyTo bareBraces content (i + 1) with
      | none => none
      | some (obj, j) => do
        let binding ← parseSingleBinding u number obj
        let bindings ← eventBindingsFrom number content j
        some (binding.toList ++ bindings)
    else eventBindingsFrom number content (i + 1)
  else some []
termination_by (bytes content).length - i
decreasing_by
  · rename_i hbody
    have := lt_bodyTo hbody
    omega
  · omega

/-- `parse_event_bindings` of the array under a key. -/
def eventBindings (number : List Char → Option Json) (block : List Char) (key : String) :
    Option (List EventActionBinding) := do
  match ← subArray block key with
  | none => some []
  | some arr => eventBindingsFrom u number arr 0

/-! ## Metadata -/

/-- `ModelMetadata`. -/
structure ModelMetadata where
  tableName : Option String := none
  validation : List (String × String) := []
  access : Option AccessControl := none
  relationships : List (String × Relationship) := []
  events : ModelEvents := {}
  listView : Option (List String) := none

/-- `(create|read|update|delete)\s*:\s*['"]([^'"]+)['"]`. -/
def accessItems : List (Item Char) :=
  [.group (.oneOf (["create", "read", "update", "delete"].map String.toList)), blanks, mark ':', blanks] ++ quotedString

/-- One rule more. -/
def assignRule (access : AccessControl) (op : String) (rule : AccessRule) : AccessControl :=
  if op = "create" then { access with create := some rule }
  else if op = "read" then { access with read := some rule }
  else if op = "update" then { access with update := some rule }
  else if op = "delete" then { access with delete := some rule }
  else access

/-- The rules of an access block. -/
def accessRules (block : List Char) : Option AccessControl :=
  let caps := findAll accessItems block
  if caps = [] then none
  else some (caps.foldl (fun access cap => assignRule access (.ofList (cap.group 1)) (.boolean (.ofList (cap.group 2))))
    ⟨none, none, none, none⟩)

/-- The relationship of one entry. -/
def relationship? (block : List Char) : Option Relationship := do
  let kind ← stringOf block "type"
  let model ← stringOf block "model"
  some { kind, model, foreignKey := stringOf block "foreignKey" }

/-- The `events` of a model block. -/
def blockEvents (number : List Char → Option Json) (block : List Char) : Option ModelEvents := do
  match ← subBlock block "events" with
  | none => some {}
  | some events =>
    let created ← eventBindings u number events "created"
    let updated ← eventBindings u number events "updated"
    let deleted ← eventBindings u number events "deleted"
    some { created, updated, deleted }

/-- The `listView` of the `ui` of a model block. -/
def blockListView (block : List Char) : Option (Option (List Char)) := do
  match ← subBlock block "ui" with
  | none => some none
  | some ui => subArray ui "listView"

/-- The metadata of one model block. -/
def blockMetadata (number : List Char → Option Json) (block : List Char) : Option ModelMetadata := do
  let validation ← subBlock block "validation"
  let access ← subBlock block "access"
  let relationships ← entriesOf u block "relationships"
  let events ← blockEvents u number block
  let list ← blockListView block
  some
    { tableName := stringOf block "tableName"
      validation := (validation.elim [] fun vblock =>
          findAll ([word u, blanks, mark ':', blanks, quoteMark, .group (.many (!isQuote ·)), quoteMark]) vblock).foldl
        (fun rules cap => Dsl.insert (.ofList (cap.group 1)) (.ofList (cap.group 2)) rules) []
      access := access.bind accessRules
      relationships := relationships.foldl
        (fun found (name, rdef) => (relationship? rdef).elim found (Dsl.insert name · found)) []
      events
      listView := list.bind fun arr => if quotedStrings arr = [] then none else some (quotedStrings arr) }

/-- `ModelEvents::is_empty`. -/
def hasNoEvents (events : ModelEvents) : Bool :=
  events.created.isEmpty && events.updated.isEmpty && events.deleted.isEmpty

/-- Metadata that says something. -/
def ModelMetadata.stated (m : ModelMetadata) : Bool :=
  m.tableName.isSome || !m.validation.isEmpty || m.access.isSome || !m.relationships.isEmpty || !hasNoEvents m.events ||
    m.listView.isSome

/-- `parse_model_metadata`. -/
def parseModelMetadata (number : List Char → Option Json) (content : List Char) :
    Option (List (String × ModelMetadata)) := do
  let entries ← entriesOf u content "models"
  let metadata ← entries.mapM fun (name, block) => (blockMetadata u number block).map fun m => (name, m)
  some (metadata.foldl (fun found (name, m) => if m.stated then Dsl.insert name m found else found) [])

/-! ## Actions and built-in tables -/

/-- `parse_action_input`. -/
def parseActionInput (block : List Char) : Option (Option (String × List String)) := do
  match ← subBlock block "input" with
  | none => some none
  | some input =>
    match ← subBlock input "pick" with
    | none => some none
    | some pick =>
      match stringOf pick "model" with
      | none => some none
      | some model => (subArray pick "fields").map fun fields => fields.map fun arr => (model, quotedStrings arr)

/-- `parse_actions`. -/
def parseActions (content : List Char) : Option (List (String × ActionDef)) := do
  let entries ← entriesOf u content "actions"
  let defs ← entries.mapM fun (name, block) => do
    let input ← parseActionInput block
    some (input.map fun (model, fields) =>
      { name, input := .pickFields model fields, sourceModel := some model : ActionDef })
  some ((defs.filterMap id).foldl (fun actions action => Dsl.insert action.name action actions) [])

/-! ## Constraints -/

/-- `@@(unique|index)\s*\(\s*\[([^\]]*)\]\s*\)`. -/
def listItems : List (Item Char) :=
  [text "@@", .group (.oneOf (["unique", "index"].map String.toList)), blanks, mark '(', blanks, mark '[',
    .group (.many (· ≠ ']')), mark ']', blanks, mark ')']

/-- `\s+WHERE\s+([^\n]+)`. -/
def whereItems : List (Item Char) :=
  [blanks1, text "WHERE", blanks1, .group (.some (· ≠ '\n'))]

/-- A constraint on columns; a predicate makes it partial. -/
def listConstraint (unique : Bool) (columns : List String) : Option String → ModelConstraint
  | some predicate => if unique then .uniqueWhere columns predicate else .indexWhere columns predicate
  | none => if unique then .unique columns else .index columns

theorem solid_listItems {t : List Char} {cap : Match Char} (h : find listItems t = some cap) :
    cap.rest.length < t.length := by
  obtain ⟨hl, hne⟩ := Pattern.search_spec h
  have hpos := List.length_pos_iff.2 (hne rfl)
  rw [hl, List.length_append, List.length_append]
  omega

theorem length_matchAt {items : List (Item Char)} {t : List Char} {m : Match Char} (h : matchAt items t = some m) :
    m.rest.length ≤ t.length := by
  rw [Pattern.matchAt_append h, List.length_append]
  omega

/-- The constraints on columns that a comment has. -/
def listConstraints (annotations : List Char) : List ModelConstraint :=
  match _ : find listItems annotations with
  | none => []
  | some cap =>
    let columns := ((splitAt ',' (cap.group 2)).map trim).filter (· ≠ [])
    let unique : Bool := cap.group 1 = "unique".toList
    match _ : matchAt whereItems cap.rest with
    | none =>
      (if columns = [] then [] else [listConstraint unique (columns.map String.ofList) none]) ++ listConstraints cap.rest
    | some tail =>
      let predicate := trim (tail.group 1)
      (if columns = [] then []
        else [listConstraint unique (columns.map String.ofList)
          (if predicate = [] then none else some (.ofList predicate))]) ++ listConstraints tail.rest
termination_by annotations.length
decreasing_by
  · rename_i hcap _
    exact solid_listItems hcap
  · rename_i hcap htail
    have := solid_listItems hcap
    have := length_matchAt htail
    omega

/-- `(.+)\)` behind `@@check(`: up to the last parenthesis of the line. -/
def checkExpr (rest : List Char) : Option (List Char) :=
  let line := rest.takeWhile (· ≠ '\n')
  let expr := ((line.reverse.dropWhile (· ≠ ')')).drop 1).reverse
  if ')' ∈ line ∧ expr ≠ [] then some expr else none

/-- `parse_model_constraints`. -/
def parseModelConstraints (annotations : List Char) : List ModelConstraint :=
  if contains annotations "@@" then
    listConstraints annotations ++
      match (findAll [text "@@check", blanks, mark '('] annotations).findSome? fun cap => checkExpr cap.rest with
      | some expr => if trim expr = [] then [] else [.check (.ofList (trim expr))]
      | none => []
  else []

/-- `parse_builtins`: the columns and the constraints of each table. -/
def parseBuiltins (content : List Char) : Option (List (String × List (String × String) × List ModelConstraint)) := do
  let entries ← entriesOf u content "builtins"
  let tables ← entries.mapM fun (table, block) => do
    let columns ← subBlock block "columns"
    let constraints ← subArray block "constraints"
    let columns := (columns.elim [] (findAll ([word u, blanks, mark ':', blanks] ++ quotedString))).foldl
      (fun found cap => Dsl.insert (.ofList (cap.group 1)) (.ofList (cap.group 2)) found) []
    let constraints := (constraints.elim [] quotedStrings).flatMap fun annotation => parseModelConstraints annotation.toList
    some (table, columns, constraints)
  some (tables.foldl
    (fun found (table, columns, constraints) =>
      if columns = [] ∧ constraints = [] then found else Dsl.insert table (columns, constraints) found) [])

/-! ## Lines -/

/-- `str::lines`. -/
def lines (t : List Char) : List (List Char) :=
  let parts := splitAt '\n' t
  (parts.dropLast.map fun line => stripSuffix line ['\r']) ++ parts.getLast?.toList.filter (· ≠ [])

/-- `str::starts_with`. -/
def startsWith (t : List Char) (s : String) : Bool :=
  s.toList.isPrefixOf t

/-- `str::ends_with`. -/
def endsWith (t : List Char) (s : String) : Bool :=
  s.toList.isSuffixOf t

/-- The name behind `export {keyword} `. -/
def declared (keyword : String) : List (Item Char) :=
  [text "export", blanks1, text keyword, blanks1, word u]

/-- `parse_enum`, on the lines from the declaration on; and the lines behind it. -/
def parseEnum (line : List Char) (rest : List (List Char)) : Except String ((String × List String) × List (List Char)) :=
  match find (declared u "enum") (trim line) with
  | none => .error ("Invalid enum declaration: " ++ .ofList (trim line))
  | some cap =>
    let values := ((line :: rest).dropWhile fun line => '\x7b' ∉ line).drop 1
    let isValue (line : List Char) : Bool := trim line ≠ ['\x7d']
    let names := ((values.takeWhile isValue).map trim).filter fun line => line ≠ [] && !startsWith line "//"
    .ok ((.ofList (cap.group 1), names.filterMap fun line => (find [word u] line).map fun cap => .ofList (cap.group 1)),
      (values.dropWhile isValue).drop 1)

/-- `parse_type_alias`. -/
def parseTypeAlias (line : List Char) (rest : List (List Char)) : Except String (List (List Char)) :=
  match find (declared u "type" ++ [blanks, mark '=']) (trim line) with
  | none => .error ("Invalid type declaration: " ++ .ofList (trim line))
  | some _ => .ok (((line :: rest).dropWhile fun line => !endsWith (trim line) ";").drop 1)

theorem length_parseEnum {line : List Char} {rest behind : List (List Char)} {entry : String × List String}
    (h : parseEnum u line rest = .ok (entry, behind)) : behind.length ≤ rest.length := by
  unfold parseEnum at h
  split at h
  · cases h
  · cases h
    have houter := List.length_dropWhile_le (fun line : List Char => decide ('\x7b' ∉ line)) (line :: rest)
    have hinner := List.length_dropWhile_le (fun line : List Char => decide (trim line ≠ ['\x7d']))
      (((line :: rest).dropWhile fun line => decide ('\x7b' ∉ line)).drop 1)
    rw [List.length_drop] at hinner ⊢
    rw [List.length_cons] at houter
    omega

theorem length_parseTypeAlias {line : List Char} {rest behind : List (List Char)}
    (h : parseTypeAlias u line rest = .ok behind) : behind.length ≤ rest.length := by
  unfold parseTypeAlias at h
  split at h
  · cases h
  · cases h
    have hle := List.length_dropWhile_le (fun line => !endsWith (trim line) ";") (line :: rest)
    rw [List.length_cons] at hle
    rw [List.length_drop]
    omega

/-- `collect_type_definitions`: the enums. -/
def collectTypeDefinitions (enums : List (String × List String)) :
    List (List Char) → Except String (List (String × List String))
  | [] => .ok enums
  | line :: rest =>
    if startsWith (trim line) "export enum " then
      match _ : parseEnum u line rest with
      | .error e => .error e
      | .ok (entry, behind) => collectTypeDefinitions (Dsl.insert entry.1 entry.2 enums) behind
    else if startsWith (trim line) "export type " then
      match _ : parseTypeAlias u line rest with
      | .error e => .error e
      | .ok behind => collectTypeDefinitions enums behind
    else collectTypeDefinitions enums rest
termination_by lines => lines.length
decreasing_by
  · rename_i henum
    have := length_parseEnum u henum
    grind
  · rename_i halias
    have := length_parseTypeAlias u halias
    grind
  · simp

/-! ## Interfaces -/

/-- The body of an interface from the rest of a line on, and the lines behind it. -/
def bodyLines (line : List Char) : List (List Char) → List Char × List (List Char)
  | [] => (if '\x7d' ∈ line then line.takeWhile (· ≠ '\x7d') else line ++ ['\n'], [])
  | next :: rest =>
    if '\x7d' ∈ line then (line.takeWhile (· ≠ '\x7d'), next :: rest)
    else (line ++ '\n' :: (bodyLines next rest).1, (bodyLines next rest).2)

/-- The body of the interface that the lines begin with, up to the first closing brace. -/
def interfaceBody (lines : List (List Char)) : List Char × List (List Char) :=
  match lines.dropWhile fun line => '\x7b' ∉ line with
  | [] => ([], [])
  | line :: rest => bodyLines ((line.dropWhile (· ≠ '\x7b')).drop 1) rest

/-- What stands before the first `//` of a line, and what stands behind it. -/
def splitComment (line : List Char) : List Char × List Char :=
  match find [text "//"] line with
  | none => (line, [])
  | some m => (m.before, m.rest)

/-- `parse_array_type`. -/
def parseArrayType (t : List Char) : FieldType :=
  let inner := stripSuffix t ['[', ']']
  if inner = "string".toList then .string
  else if inner = "number".toList then .number
  else if inner = "boolean".toList then .boolean
  else .custom (.ofList inner)

/-- The type of a field, as it is written. -/
def fieldTypeOf (t : List Char) : FieldType :=
  if t = "string".toList then .string
  else if t = "number".toList then .number
  else if t = "boolean".toList then .boolean
  else if t = "Date".toList then .dateTime
  else if t = "File".toList then .file
  else if t = "File[]".toList then .array .file
  else if t = "any".toList then .json
  else if t = "Block[]".toList then .blocks
  else if endsWith t "[]" then .array (parseArrayType t)
  else .custom (.ofList t)

/-- The attributes that the name and the annotations give. -/
def attributesOf (name annotations : List Char) : List FieldAttribute :=
  let named : List FieldAttribute :=
    (if name = "id".toList then [.primary] else []) ++ (if name = "email".toList then [.unique] else []) ++
      (if endsWith name "_id" || endsWith name "Id" then [.foreignKey] else []) ++
      (if contains name "created" || contains name "updated" then [.timestamp] else [])
  let named := if contains annotations "@unique" ∧ .unique ∉ named then named ++ [.unique] else named
  if contains annotations "@index" ∧ .index ∉ named then named ++ [.index] else named

/-- `(\w+)(\?)?:\s*([^;/]+)`. The third group is trimmed, so the blanks may as well be in it. -/
def fieldItems : List (Item Char) :=
  [word u, .group (.opt ['?']), mark ':', .group (.some fun c => c ≠ ';' && c ≠ '/')]

/-- `parse_field_definition`. -/
def parseFieldDefinition (seg annotations : List Char) : Option Field :=
  (find (fieldItems u) seg).map fun cap =>
    { name := .ofList (cap.group 1)
      fieldType := fieldTypeOf (trim (cap.group 3))
      optional := cap.group 2 ≠ []
      attributes := attributesOf (cap.group 1) annotations }

/-- The segments that are no field definitions. -/
def isSkipped (seg : List Char) : Bool :=
  seg = [] || startsWith seg "/*" || startsWith seg "*" || startsWith seg "export " || '|' ∈ seg

/-- The fields that a line of a body defines. -/
def lineFields (line : List Char) : List Field :=
  let (code, annotations) := splitComment line
  (((splitAt ';' code).map trim).filter fun seg => !isSkipped seg).filterMap (parseFieldDefinition u · annotations)

/-- `parse_interface`, and the lines behind it. -/
def parseInterface (name : String) (input : List (List Char)) : Model × List (List Char) :=
  let (body, behind) := interfaceBody input
  ({ name
     fields := ((lines body).flatMap (lineFields u)).foldl (fun fields field => Dsl.insert field.name field fields) []
     constraints := (lines body).flatMap fun line => parseModelConstraints (splitComment line).2 }, behind)

theorem length_bodyLines (line : List Char) (rest : List (List Char)) : (bodyLines line rest).2.length ≤ rest.length := by
  induction rest generalizing line with
  | nil => exact Nat.le_refl 0
  | cons next rest ih =>
    unfold bodyLines
    split
    · exact Nat.le_refl _
    · exact Nat.le_succ_of_le (ih next)

theorem length_interfaceBody {input : List (List Char)} (hne : input ≠ []) :
    (interfaceBody input).2.length < input.length := by
  have hle := List.length_dropWhile_le (fun line : List Char => decide ('\x7b' ∉ line)) input
  unfold interfaceBody
  split
  · exact List.length_pos_iff.2 hne
  · rename_i line rest heq
    rw [heq, List.length_cons] at hle
    exact Nat.lt_of_le_of_lt (length_bodyLines _ _) hle

end Parser

section Schemas

variable (lib : Library)

/-- The loop of `parse_interfaces`. -/
def parseInterfacesFrom (content : List Char) : List (List Char) → Except String (List Model)
  | [] => .ok []
  | line :: rest =>
    if startsWith (trim line) "export interface " then
      match find (declared lib.toUnicode "interface") (trim line) with
      | none => parseInterfacesFrom content rest
      | some cap =>
        if endsWith (cap.group 1) "Command" || endsWith (cap.group 1) "Input" then parseInterfacesFrom content rest
        else
          match lib.modelDefinition content (.ofList (cap.group 1)) with
          | .error e => .error e
          | .ok access =>
            let parsed := parseInterface lib.toUnicode (.ofList (cap.group 1)) (line :: rest)
            (parseInterfacesFrom content parsed.2).map ({ parsed.1 with access } :: ·)
    else parseInterfacesFrom content rest
termination_by lines => lines.length
decreasing_by
  · simp
  · simp
  · exact length_interfaceBody (List.cons_ne_nil line rest)
  · simp

/-- The model that stands for an enum. -/
def enumModel (name : String) (values : List String) : Model where
  name
  fields := ("_enum_type", { name := "_enum_type", fieldType := .string, optional := false }) ::
    values.zipIdx.map fun (value, i) =>
      (s!"_enum_value_{i}", { name := value, fieldType := .string, optional := false })

/-- `parse_interfaces`. -/
def parseInterfaces (enums : List (String × List String)) (content : List Char) : Except String (List Model) :=
  match parseInterfacesFrom lib content (lines content) with
  | .error e => .error e
  | .ok models =>
    let models := models ++ enums.map fun (name, values) => enumModel name values
    if models = [] then .error "No valid interfaces found in schema" else .ok models

/-- An enum is text. -/
def resolveEnum (enums : List (String × List String)) (field : Field) : Field :=
  match field.fieldType with
  | .custom name => if (enums.map (·.1)).contains name then { field with fieldType := .string } else field
  | _ => field

/-- `parse_define_model`: the names, and the access of each. -/
def parseDefineModel (content : List Char) : Except String (List (String × Option AccessControl)) :=
  let names := (findAll (declared lib.toUnicode "const" ++ [blanks, mark '=', blanks, text "defineModel"]) content).map
    fun cap => cap.group 1
  (names.filter fun name => endsWith name "Model" && name ≠ "Model".toList).mapM fun name =>
    let name := String.ofList (stripSuffix name "Model".toList)
    (lib.modelDefinition content name).map fun access => (name, access)

/-- A model with the access of its `defineModel`, or one model more. -/
def mergeDefined (models : List Model) (defined : String × Option AccessControl) : List Model :=
  if models.any (·.name = defined.1) then
    models.modify (models.findIdx (·.name = defined.1)) fun model => { model with access := defined.2 }
  else models ++ [{ name := defined.1, access := defined.2 }]

/-- A model with the metadata of the schema object. -/
def Model.withMetadata (model : Model) (m : ModelMetadata) : Model :=
  { model with
    tableName := model.tableName.or m.tableName
    validation := if m.validation = [] then model.validation else m.validation
    access := model.access.or m.access
    relationships := if m.relationships.isEmpty then model.relationships else m.relationships
    events := if hasNoEvents m.events then model.events else m.events }

/-- The last pass of `parse`: the metadata of a name goes to the first model of it. -/
def withMetadata : List (String × ModelMetadata) → List Model → List Model
  | _, [] => []
  | metadata, model :: models =>
    match lookup? model.name metadata with
    | none => model :: withMetadata metadata models
    | some m => Model.withMetadata model m :: withMetadata (metadata.filter (·.1 ≠ model.name)) models

/-- The passes of `parse` before the last. -/
def interfaceModels (content : List Char) : Except String (List Model) := do
  let enums ← collectTypeDefinitions lib.toUnicode [] (lines content)
  let models ← parseInterfaces lib enums content
  let defined ← parseDefineModel lib content
  return defined.foldl mergeDefined (models.map fun model =>
    { model with fields := model.fields.map fun (key, field) => (key, resolveEnum enums field) })

/-- `parse`. -/
def parse (content : List Char) : Option (Except String (List Model)) :=
  match interfaceModels lib content with
  | .error e => some (.error e)
  | .ok models => (parseModelMetadata lib.toUnicode lib.number content).map fun metadata => .ok (withMetadata metadata models)

/-! ## Diagnostics -/

section Diagnostics

variable (u : Unicode)

/-- `has_toplevel_spread`. -/
def hasToplevelSpread (block : List Char) : Bool :=
  (findAll [text "..."] block).any fun cap => braceDepth cap.before = 0

/-- The top-level keys of the block under a key. -/
def blockKeys (block : List Char) (key : String) : Option (List String) := do
  match ← subBlock block key with
  | none => some []
  | some inner => topLevelKeys u inner

/-- The warnings about one relationship. -/
def relationshipDiagnostics (name rel : String) (rdef : List Char) : Option (List String) := do
  let keys ← topLevelKeys u rdef
  let has (key : String) : Bool := (find [text key, blanks, mark ':', blanks, quoteMark] rdef).isSome
  some ((if has "type" && has "model" then []
      else ["schema.models." ++ name ++ ".relationships." ++ rel ++ ": missing 'type'/'model' — ignored"]) ++
    (keys.filter (· ∉ ["type", "model", "foreignKey"])).map fun key =>
      "schema.models." ++ name ++ ".relationships." ++ rel ++ ": unrecognized key '" ++ key ++ "' ignored")

/-- The warnings about one model block. -/
def entryDiagnostics (models : List (String × Model)) (name : String) (block : List Char) : Option (List String) := do
  let keys ← topLevelKeys u block
  let accessKeys ← blockKeys u block "access"
  let validationKeys ← blockKeys u block "validation"
  let relationships ← entriesOf u block "relationships"
  let relationshipWarnings ← relationships.mapM fun (rel, rdef) => relationshipDiagnostics u name rel rdef
  let known := ["tableName", "validation", "access", "relationships", "events", "ui"]
  some (((keys.filter (· ∉ known)).map fun key =>
      "schema.models." ++ name ++ ": unrecognized key '" ++ key ++ "' ignored (known: " ++ ", ".intercalate known ++ ")") ++
    ((accessKeys.filter (· ∉ ["create", "read", "update", "delete"])).map fun key =>
      "schema.models." ++ name ++ ".access: unrecognized key '" ++ key ++
        "' ignored (known: create, read, update, delete)") ++
    (match lookup? name models with
      | none => []
      | some model =>
        (validationKeys.filter fun key => (lookup? key model.fields).isNone).map fun key =>
          "schema.models." ++ name ++ ".validation: '" ++ key ++ "' is not a field of '" ++ name ++
            "' — rules never applied") ++
    relationshipWarnings.flatten)

/-- `model_block_diagnostics`. -/
def modelBlockDiagnostics (content : List Char) (models : List (String × Model)) : Option (List String) :=
  match find [text "schema", blanks, mark '=', blanks, mark '{'] content with
  | none => some []
  | some m => do
    match ← balancedBody bareBraces content (endOf m) with
    | none => some []
    | some schema =>
      let spread := if hasToplevelSpread schema then
          ["spread expression in `export const schema` cannot be resolved statically — spread content is dropped"]
        else []
      match ← subBlock schema "models" with
      | none => some spread
      | some block =>
        let modelSpread := if hasToplevelSpread block then
            ["spread expression in schema.models cannot be resolved statically — declare the model explicitly"]
          else []
        let entries ← topLevelEntries u block
        let warnings ← entries.mapM fun (name, block) => entryDiagnostics u models name block
        some (spread ++ modelSpread ++ warnings.flatten)

end Diagnostics

/-- The models that the schema object declares, and the warnings about the others. -/
def declaredModels (declared : List String) (models : List Model) : List (String × Model) × List String :=
  let unlisted := models.filter fun model => model.name ∉ declared ∧ (lookup? "id" model.fields).isSome ∧
    (lookup? "_enum_type" model.fields).isNone
  let listed := (models.filter fun model => model.name ∈ declared).foldl
    (fun found model => Dsl.insert model.name model found) []
  (listed, (unlisted.map fun model =>
      "interface '" ++ model.name ++ "' looks like a model but is not listed in schema.models — it was dropped") ++
    ((declared.dedup.filter fun key => (lookup? key listed).isNone).map fun key =>
      "schema.models entry '" ++ key ++ "' has no matching interface — it was ignored"))

/-- `parse_schema`; of the built-in tables only that they are read. -/
def parseSchema (content : List Char) : Option (Except String Atomo.Schema) := do
  match ← parse lib content with
  | .error e => some (.error e)
  | .ok models =>
    let actions ← parseActions lib.toUnicode content
    let declared ← entriesOf lib.toUnicode content "models"
    let (listed, warnings) := declaredModels (declared.map (·.1)) models
    let blockWarnings ← modelBlockDiagnostics lib.toUnicode content listed
    let _ ← parseBuiltins lib.toUnicode content
    some (.ok
      { models := listed
        actions
        warnings := warnings ++ blockWarnings ++ reservedIdentifierWarnings lib.toUnicode listed })

end Schemas

end Atomo.TypeScript

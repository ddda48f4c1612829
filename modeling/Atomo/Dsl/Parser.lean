import Atomo.Dsl.Scan
import Atomo.Lib.Pattern
import Atomo.Schema.Model

/-!
# The parser of the builder DSL

`parse_builder_dsl` of `schema_dsl_parser.rs`, function by function. It has no error to return: a run gives
a schema or panics, and a panic is no value. The regular expressions are patterns without choice
(`Pattern`); a `HashMap` is the list of its entries, the last inserted at the end.
-/

namespace Atomo.Dsl

open String (utf8Len)
open Utf8 (slice sliceFrom sliceTo)
open Pattern (Item Match find findAll search matchAt)
open Schema

/-- Unicode data of the standard library and of the `regex` crate: `\w`, `\d`, and the case mappings. -/
structure Unicode where
  isWord : Char → Bool
  isDigit : Char → Bool
  isUppercase : Char → Bool
  toUppercase : Char → List Char
  toLowercase : Char → List Char

def Unicode.ascii : Unicode where
  isWord c := c.isAlphanum || c = '_'
  isDigit := Char.isDigit
  isUppercase := Char.isUpper
  toUppercase c := [c.toUpper]
  toLowercase c := [c.toLower]

/-- `HashMap::insert`. -/
def insert {α : Type} (key : String) (value : α) (entries : List (String × α)) : List (String × α) :=
  entries.filter (·.1 ≠ key) ++ [(key, value)]

/-! ## Pieces of the regular expressions -/

def text (s : String) : Item Char :=
  .skip (.lit s.toList)

def mark (c : Char) : Item Char :=
  .skip (.lit [c])

/-- `\s*`. -/
def blanks : Item Char :=
  .skip (.many isSpace)

/-- `\s+`. -/
def blanks1 : Item Char :=
  .skip (.some isSpace)

def isQuote (c : Char) : Bool :=
  c = '\'' || c = '"'

/-- `['\x22]`. -/
def quoteMark : Item Char :=
  .skip (.one isQuote)

/-- `([^'\x22]+)`. -/
def unquoted : Item Char :=
  .group (.some (!isQuote ·))

/-- `['\x22]([^'\x22]+)['\x22]`. -/
def quotedString : List (Item Char) :=
  [quoteMark, unquoted, quoteMark]

/-- `{key}\s*:\s*{bracket}`. -/
def member (key : String) (bracket : Char) : List (Item Char) :=
  [text key, blanks, mark ':', blanks, mark bracket]

/-- `\.{method}\s*\(`. -/
def call (method : String) : List (Item Char) :=
  [mark '.', text method, blanks, mark '(']

/-- The strings in quotes of a text. -/
def quotedStrings (t : List Char) : List String :=
  (findAll quotedString t).map fun cap => .ofList (cap.group 1)

/-- `str::contains`. -/
def contains (t : List Char) (s : String) : Bool :=
  (find [text s] t).isSome

/-- `str::trim_end`. -/
def trimEnd (t : List Char) : List Char :=
  (spaces t.reverse).reverse

/-- The offsets of a match in the text that was searched. -/
def startOf (cap : Match Char) : Nat :=
  utf8Len cap.before

def endOf (cap : Match Char) : Nat :=
  utf8Len cap.before + utf8Len cap.text

section Parser

variable (u : Unicode)

/-- `(\w+)`. -/
def word : Item Char :=
  .group (.some u.isWord)

/-- `export\s+const\s+(\w+)\s*=\s*{callee}\s*\(\s*['\x22]([^'\x22]+)['\x22]`. -/
def exported (callee : String) : List (Item Char) :=
  [text "export", blanks1, text "const", blanks1, word u, blanks, mark '=', blanks, text callee, blanks,
    mark '(', blanks] ++ quotedString

/-- The pattern of `parse_action_defs`. -/
def actionItems : List (Item Char) :=
  exported u "action" ++ [blanks, mark ')']

/-- The pattern of `parse_model_blocks`. -/
def modelItems : List (Item Char) :=
  exported u "model" ++ [blanks, mark ',', blanks, mark '{']

/-- `\b` before the pattern, which begins with a word character. -/
def searchWord (items : List (Item Char)) (t : List Char) : Option (Match Char) :=
  search (wordStart u.isWord) items none t

/-! ## Actions -/

/-- `extract_chain_string`. -/
def extractChainString (chain : List Char) (method : String) : Option String :=
  (find (call method ++ [blanks] ++ quotedString ++ [blanks, mark ')']) chain).map fun cap =>
    .ofList (cap.group 1)

/-- `extract_chain_array`. -/
def extractChainArray (chain : List Char) (method : String) : Option (List String) :=
  (find (call method ++ [blanks, mark '[', .group (.many (· ≠ ']')), mark ']', blanks, mark ')']) chain).bind
    fun cap => if quotedStrings (cap.group 1) = [] then none else some (quotedStrings (cap.group 1))

/-- `parse_action_defs`. -/
def parseActionDefs (content : List Char) : Option (List ActionDef) :=
  (findAll (actionItems u) content).mapM fun cap => do
    let after ← sliceFrom content (endOf cap)
    let chain ← takeChain after
    let source := extractChainString chain "from"
    let input :=
      match extractChainArray chain "input" with
      | some fields => ActionInputDef.pickFields (source.getD "") fields
      | none => .object []
    some { name := .ofList (cap.group 2), input, returns := none, sourceModel := source }

/-! ## Models -/

/-- `parse_model_names`. -/
def parseModelNames (content : List Char) : List (String × String) :=
  (findAll (exported u "model") content).foldl
    (fun map cap => insert (.ofList (cap.group 2)) (.ofList (cap.group 1)) map) []

/-- `parse_model_blocks`: name, table and body of each. -/
def parseModelBlocks (content : List Char) : Option (List (String × String × List Char)) := do
  let blocks ← (findAll (modelItems u) content).mapM fun cap => do
    let body ← balancedBraceBody content (endOf cap)
    some (body.map fun body => (String.ofList (cap.group 1), String.ofList (cap.group 2), body))
  some (blocks.filterMap id)

/-! ## Fields -/

structure RawField where
  name : String
  baseType : String
  baseArg : Option (List Char)
  chain : List Char

/-- The functions that build a field. -/
def builders : List String :=
  ["text", "email", "url", "number", "select", "datetime", "relation", "boolean", "json", "file"]

/-- `(\w+)\s*:\s*({builders})\s*\(`. -/
def fieldItems : List (Item Char) :=
  [word u, blanks, mark ':', blanks, .group (.oneOf (builders.map String.toList)), blanks, mark '(']

/-- `parse_fields_block`. -/
def parseFieldsBlock (body : List Char) : Option (List RawField) :=
  match find (member "fields" '{') body with
  | none => some []
  | some m => do
    match ← balancedBraceBody body (endOf m) with
    | none => some []
    | some inner =>
      (findAll (fieldItems u) inner).mapM fun cap => do
        let (baseArg, afterParen) ← extractParenArg inner (endOf cap)
        let after ← sliceFrom inner afterParen
        let chain ← takeChain after
        some { name := .ofList (cap.group 1), baseType := .ofList (cap.group 2), baseArg, chain }

/-- `base_to_field_type`. -/
def baseToFieldType (base : String) (arg : Option (List Char)) : FieldType × Option (List Char) :=
  if base = "text" ∨ base = "email" ∨ base = "url" then (.string, none)
  else if base = "number" then (.number, none)
  else if base = "boolean" then (.boolean, none)
  else if base = "datetime" then (.dateTime, none)
  else if base = "json" then (.json, none)
  else if base = "file" then (.file, none)
  else if base = "select" then (.string, none)
  else if base = "relation" then
    (.string, arg.map fun a => ((a.dropWhile isQuote).reverse.dropWhile isQuote).reverse)
  else (.custom base, none)

/-- `str::parse::<i64>` on an optional minus and digits. -/
def parseI64 (negative : Bool) (digits : List Char) : Option Int :=
  if digits.all Char.isDigit then
    let n : Int := digits.foldl (fun n c => n * 10 + (c.toNat - 48)) 0
    let i := if negative then -n else n
    if -(2 ^ 63) ≤ i ∧ i < 2 ^ 63 then some i else none
  else none

/-- `extract_chain_number`. -/
def extractChainNumber (chain : List Char) (method : String) : Option Int :=
  (find (call method ++ [blanks, .group (.opt ['-']), .group (.some u.isDigit), blanks, mark ')']) chain).bind
    fun cap => parseI64 (cap.group 1 ≠ []) (cap.group 2)

/-- `capitalize`. -/
def capitalize : List Char → List Char
  | [] => []
  | c :: l => u.toUppercase c ++ l

/-- The field of one declaration. -/
def RawField.field (f : RawField) : Field :=
  let isId := contains f.chain ".id()"
  let isOptional := contains f.chain ".optional()"
  let isRequired := contains f.chain ".required()"
  let optional := if isId then false else if isRequired then false else isOptional || !isRequired
  let optional := if f.baseType = "relation" ∧ !isRequired then true else optional
  let optional := if f.baseType = "datetime" ∧ !isOptional then false else optional
  let timestamp := contains f.chain ".defaultNow()" || contains f.chain ".autoUpdate()"
  { name := f.name
    fieldType := (baseToFieldType f.baseType f.baseArg).1
    optional
    attributes :=
      (if isId then [.primary] else []) ++ (if timestamp then [.timestamp] else []) ++
        ((extractChainString f.chain "default").map FieldAttribute.default).toList }

/-- Its validation rules. -/
def RawField.rules (f : RawField) : List String :=
  (if contains f.chain ".required()" then ["required"] else []) ++
    (if f.baseType = "email" then ["email"] else []) ++
    (if f.baseType = "url" then ["url"] else []) ++
    ((extractChainNumber u f.chain "min").map fun n => s!"min:{n}").toList ++
    ((extractChainNumber u f.chain "max").map fun n => s!"max:{n}").toList ++
    (match if f.baseType = "select" then f.baseArg else none with
    | some arg => if quotedStrings arg = [] then [] else ["in:" ++ ",".intercalate (quotedStrings arg)]
    | none => [])

/-- `str::strip_suffix`, or the text as it is. -/
def stripSuffix (t suffix : List Char) : List Char :=
  ((Scan.lit suffix.reverse t.reverse).map List.reverse).getD t

/-- The relationship of a `relation` field, under its name. -/
def RawField.relationship? (f : RawField) (tableToModel : List (String × String)) :
    Option (String × Relationship) :=
  (baseToFieldType f.baseType f.baseArg).2.map fun target =>
    (.ofList (stripSuffix f.name.toList ['I', 'd']),
      { kind := "belongsTo"
        model := (lookup? (.ofList target) tableToModel).getD (.ofList (capitalize u target))
        foreignKey := some f.name })

structure ResolvedFields where
  fields : List (String × Field) := []
  validation : List (String × String) := []
  relationships : List (String × Relationship) := []

/-- `resolve_fields`. -/
def resolveFields (raw : List RawField) (tableToModel : List (String × String)) : ResolvedFields :=
  raw.foldl
    (fun resolved f =>
      { fields := insert f.name f.field resolved.fields
        validation :=
          if f.rules u = [] then resolved.validation
          else insert f.name ("|".intercalate (f.rules u)) resolved.validation
        relationships :=
          match f.relationship? u tableToModel with
          | some (name, relationship) => insert name relationship resolved.relationships
          | none => resolved.relationships }) {}

/-! ## Events -/

/-- The condition that an entry states. -/
def actionCondition (entry : List Char) : Option ActionCondition :=
  let arguments : List (Item Char) := [.group (.many (· ≠ ')')), mark ')']
  match find (call "whenChanged" ++ arguments) entry with
  | some cap =>
    let fields := quotedStrings (cap.group 1)
    if fields = [] then none else some (.changedAny fields)
  | none =>
    (find (call "when" ++ arguments) entry).bind fun cap =>
      match quotedStrings (cap.group 1) with
      | field :: value :: _ => some (.fieldEquals field (.string value))
      | _ => none

/-- The binding of one entry of an event list. -/
def eventBinding? (entry : List Char) : Option EventActionBinding :=
  (matchAt [word u] (trim entry)).bind fun cap =>
    let action := String.ofList (cap.group 1)
    if action ∈ ["true", "false", "null", "undefined"] then none
    else some { action, condition := actionCondition (trim entry) }

/-- `parse_event_list`. -/
def parseEventList (onBlock : List Char) (eventKind : String) : Option (List EventActionBinding) :=
  match find (member eventKind '[') onBlock with
  | none => some []
  | some m => do
    let (inner, _) ← bodyTo bareSquares onBlock (endOf m)
    let entries ← splitTopLevelCommas inner
    some (entries.filterMap (eventBinding? u))

/-- `parse_on_block`. -/
def parseOnBlock (body : List Char) : Option ModelEvents :=
  match searchWord u (member "on" '{') body with
  | none => some {}
  | some m => do
    match ← balancedBraceBody body (endOf m) with
    | none => some {}
    | some inner =>
      let created ← parseEventList u inner "created"
      let updated ← parseEventList u inner "updated"
      let deleted ← parseEventList u inner "deleted"
      some { created, updated, deleted }

/-! ## Constraints -/

/-- `dsl_sub_array`. -/
def dslSubArray (body : List Char) (key : String) : Option (Option (List Char)) :=
  match searchWord u (member key '[') body with
  | none => some none
  | some m => balancedBody squares body (endOf m)

/-- `(unique|index|check)\s*\(`. -/
def entryItems : List (Item Char) :=
  [.group (.oneOf (["unique", "index", "check"].map String.toList)), blanks, mark '(']

/-- The warning about text that is no constraint. -/
def unrecognizedConstraint (modelName : String) (gap : List Char) : List String :=
  if trim gap = [] ∨ trim gap = [','] then []
  else ["model '" ++ modelName ++ "': unrecognized constraint '" ++ .ofList (trim gap) ++ "' — ignored"]

/-- The predicate of a `.where(..)` in the chain of a constraint. -/
def wherePredicate (chain : List Char) : Option (Option (List Char)) :=
  match find (call "where") chain with
  | none => some none
  | some m => do
    match (← extractParenArg chain (endOf m)).1 with
    | none => some none
    | some arg => constraintSqlString arg

/-- What one entry of the constraints adds. -/
def constraintEntry (modelName : String) (kind : String) (arg : Option (List Char)) (chain : List Char) :
    Option (List ModelConstraint × List String) :=
  if kind = "check" then
    match arg with
    | none => some ([], [])
    | some expr => do
      let sql ← constraintSqlString expr
      some ([.check (.ofList (sql.getD expr))], [])
  else
    let fields := (arg.map quotedStrings).getD []
    if fields = [] then
      some ([], ["model '" ++ modelName ++ "': " ++ kind ++ "() constraint has no fields — ignored"])
    else do
      let predicate ← wherePredicate chain
      let constraint :=
        match predicate with
        | some p => if kind = "unique" then ModelConstraint.uniqueWhere fields (.ofList p)
          else .indexWhere fields (.ofList p)
        | none => if kind = "unique" then .unique fields else .index fields
      some ([constraint], [])

theorem le_extractParenArg {content : List Char} {start after : Nat} {arg : Option (List Char)}
    (h : extractParenArg content start = some (arg, after)) : start ≤ after := by
  obtain ⟨⟨raw, i⟩, hbody, heq⟩ := Option.map_eq_some_iff.1 h
  obtain ⟨raw', -, hi⟩ := Option.map_eq_some_iff.1 hbody
  cases hi
  cases heq
  exact le_balance parens _ 1 start

theorem endOf_entry_pos {t : List Char} {cap : Match Char} (h : find entryItems t = some cap) : 0 < endOf cap := by
  have hne := (Pattern.search_spec h).2 rfl
  have hpos := Nat.pos_of_ne_zero (mt String.utf8Len_eq_zero.1 hne)
  unfold endOf
  omega

/-- The loop of `parse_constraints_block`. -/
def constraintsFrom (modelName : String) (inner : List Char) (cursor : Nat) :
    Option (List ModelConstraint × List String) :=
  match _ : sliceFrom inner cursor with
  | none => none
  | some rest =>
    match _ : find entryItems rest with
    | none => some ([], unrecognizedConstraint modelName rest)
    | some cap =>
      match slice inner cursor (cursor + startOf cap), _ : extractParenArg inner (cursor + endOf cap) with
      | some gap, some (arg, after) =>
        (sliceFrom inner after).bind fun afterText => (takeChain afterText).bind fun chain =>
          (constraintEntry modelName (.ofList (cap.group 1)) arg chain).bind fun (constraints, warnings) =>
            (constraintsFrom modelName inner (after + utf8Len chain)).map fun (constraints', warnings') =>
              (constraints ++ constraints', unrecognizedConstraint modelName gap ++ warnings ++ warnings')
      | _, _ => none
termination_by utf8Len inner + 1 - cursor
decreasing_by
  rename_i hrest hcap harg
  obtain ⟨u, rfl, rfl⟩ := Utf8.sliceFrom_eq_some.1 hrest
  have hafter := le_extractParenArg harg
  have hpos := endOf_entry_pos hcap
  rw [String.utf8Len_append]
  omega

/-- `parse_constraints_block`. -/
def parseConstraintsBlock (modelName : String) (body : List Char) :
    Option (List ModelConstraint × List String) := do
  match ← dslSubArray u body "constraints" with
  | none => some ([], [])
  | some inner => constraintsFrom modelName inner 0

/-! ## Diagnostics -/

/-- `dsl_sub_block`. -/
def dslSubBlock (body : List Char) (key : String) : Option (Option (List Char)) :=
  match searchWord u (member key '{') body with
  | none => some none
  | some m => balancedBraceBody body (endOf m)

/-- The braces open behind a text. -/
def braceDepth (t : List Char) : Int :=
  t.foldl (fun depth c => if c = '{' then depth + 1 else if c = '}' then depth - 1 else depth) 0

/-- `top_level_keys`. -/
def topLevelKeys (block : List Char) : Option (List String) := do
  let keys ← (findAll [word u, blanks, mark ':'] block).mapM fun cap => do
    let before ← sliceTo block (startOf cap)
    let startsMember := (trimEnd before).getLast?.all fun c => c = '{' || c = ','
    some (if startsMember ∧ braceDepth before = 0 then some (.ofList (cap.group 1)) else none)
  some (keys.filterMap id)

/-- The top-level keys of a block of the body. -/
def keysOf (body : List Char) (key : String) : Option (List String) := do
  match ← dslSubBlock u body key with
  | none => some []
  | some inner => topLevelKeys u inner

/-- `fields_block_diagnostics`. -/
def fieldsBlockDiagnostics (modelName : String) (body : List Char) (parsed : List String) : Option (List String) := do
  let keys ← keysOf u body "fields"
  some ((keys.filter (· ∉ parsed)).map fun key =>
    "model '" ++ modelName ++ "': field '" ++ key ++ "' uses an unrecognized builder — dropped")

/-- `access_block_diagnostics`. -/
def accessBlockDiagnostics (modelName : String) (body : List Char) (access : Option AccessControl) :
    Option (List String) := do
  let keys ← keysOf u body "access"
  some (keys.filterMap fun key =>
    if key ∈ ["create", "read", "update", "delete"] then
      if (access.bind (·.ruleFor key)).isNone then
        some ("model '" ++ modelName ++ "': access." ++ key ++
          " expression not recognized — operation left ungated")
      else none
    else some ("model '" ++ modelName ++ "': unrecognized access key '" ++ key ++ "' — ignored"))

/-- `on_block_diagnostics`. -/
def onBlockDiagnostics (modelName : String) (body : List Char) : Option (List String) := do
  let keys ← keysOf u body "on"
  some ((keys.filter (· ∉ ["created", "updated", "deleted"])).map fun key =>
    "model '" ++ modelName ++ "': unrecognized event kind 'on." ++ key ++
      "' — ignored (known: created, updated, deleted)")

/-- `model_option_diagnostics`. -/
def modelOptionDiagnostics (modelName : String) (body : List Char) : Option (List String) := do
  let keys ← topLevelKeys u body
  some ((keys.filter (· ∉ ["fields", "access", "on", "constraints"])).map fun key =>
    "model '" ++ modelName ++ "': unrecognized option key '" ++ key ++ "' — ignored")

/-- `PG_RESERVED`. -/
def pgReserved : List String :=
  ["all", "analyse", "analyze", "and", "any", "array", "as", "asc", "asymmetric", "both", "case", "cast",
    "check", "collate", "column", "constraint", "create", "current_catalog", "current_date", "current_role",
    "current_time", "current_timestamp", "current_user", "default", "deferrable", "desc", "distinct", "do",
    "else", "end", "except", "false", "fetch", "for", "foreign", "from", "grant", "group", "having", "in",
    "initially", "intersect", "into", "lateral", "leading", "limit", "localtime", "localtimestamp", "not",
    "null", "offset", "on", "only", "or", "order", "placing", "primary", "references", "returning", "select",
    "session_user", "some", "symmetric", "table", "then", "to", "trailing", "true", "union", "unique", "user",
    "using", "variadic", "when", "where", "window", "with"]

/-- `camel_to_snake_simple`. -/
def camelToSnakeSimple (s : String) : String :=
  .ofList (s.toList.flatMap fun c => if u.isUppercase c then '_' :: u.toLowercase c else [c])

/-- `sort` on names. -/
def sorted (names : List String) : List String :=
  names.mergeSort fun a b => decide (a ≤ b)

/-- `reserved_identifier_warnings`. -/
def reservedIdentifierWarnings (models : List (String × Model)) : List String :=
  (sorted (models.map (·.1))).flatMap fun name =>
    match lookup? name models with
    | none => []
    | some model =>
      let table := model.tableName.getD (camelToSnakeSimple u model.name ++ "s")
      (if table ∈ pgReserved then
        ["model '" ++ name ++ "' maps to table '" ++ table ++ "' which is a PostgreSQL reserved word"]
      else []) ++
        (sorted (model.fields.map (·.1))).filterMap fun field =>
          let column := camelToSnakeSimple u field
          if column ∈ pgReserved then
            some ("model '" ++ name ++ "' field '" ++ field ++ "' maps to column '" ++ column ++
              "' which is a PostgreSQL reserved word")
          else none

/-! ## The schema -/

/-- The model of one block, and the warnings about it. -/
def parseModel (tableToModel : List (String × String)) (name table : String) (body : List Char) :
    Option (Model × List String) := do
  let fields ← parseFieldsBlock u body
  let access := parseAccessBlock u.isWord body
  let events ← parseOnBlock u body
  let (constraints, constraintWarnings) ← parseConstraintsBlock u name body
  let resolved := resolveFields u fields tableToModel
  let fieldsWarnings ← fieldsBlockDiagnostics u name body (resolved.fields.map (·.1))
  let accessWarnings ← accessBlockDiagnostics u name body access
  let onWarnings ← onBlockDiagnostics u name body
  let optionWarnings ← modelOptionDiagnostics u name body
  let model : Model :=
    { name, fields := resolved.fields, access, validation := resolved.validation, tableName := some table,
      relationships := resolved.relationships, constraints, events }
  some (model, constraintWarnings ++ fieldsWarnings ++ accessWarnings ++ onWarnings ++ optionWarnings)

/-- An action with the names of models for those of tables. -/
def resolveAction (tableToModel : List (String × String)) (action : ActionDef) : ActionDef :=
  { action with
    input :=
      match action.input with
      | .pickFields model fields => .pickFields ((lookup? model tableToModel).getD model) fields
      | other => other
    sourceModel := (action.sourceModel.bind (lookup? · tableToModel)).or action.sourceModel }

/-- `parse_builder_dsl`. -/
def parseBuilderDsl (content : List Char) : Option Schema := do
  let actions ← parseActionDefs u content
  let tableToModel := parseModelNames u content
  let blocks ← parseModelBlocks u content
  let parsed ← blocks.mapM fun (name, table, body) => parseModel u tableToModel name table body
  let models := parsed.foldl (fun models (model, _) => insert model.name model models) []
  let actionDefs := actions.foldl (fun defs action => insert action.name (resolveAction tableToModel action) defs) []
  some
    { models
      actions := actionDefs
      warnings := parsed.flatMap (·.2) ++ reservedIdentifierWarnings u models }

end Parser

end Atomo.Dsl

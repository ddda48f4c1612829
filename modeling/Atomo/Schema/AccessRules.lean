import Atomo.Lib.Scan

/-!
# The access block of the schema DSL

`parse_access_block` of `schema_dsl_parser.rs` on the body of one model, with the regular expressions
it is made of. Each of them is a pattern without choice: where it can match, it can match in one way
only, because what a repetition takes is never what comes after it. `\b` and `\s` are those of the
`regex` crate on Unicode text; which characters are word characters is a parameter.
-/

namespace Atomo.Schema

open Scan

inductive QueryOperator where
  | equals
  | notEquals
  | in
  | notIn
  | greaterThan
  | lessThan
  | like
  | isNull
  | isNotNull
  deriving DecidableEq

/-- `QueryValue`; a double is its bits. -/
inductive QueryValue where
  | string (s : String)
  | number (bits : UInt64)
  | boolean (b : Bool)
  | array (xs : List String)
  | userProperty (path : String)
  deriving DecidableEq

structure QueryCondition where
  field : String
  operator : QueryOperator
  value : QueryValue
  deriving DecidableEq

/-- `AccessRule`; the builder DSL's parser produces boolean rules only. -/
inductive AccessRule where
  | boolean (code : String)
  | query (condition : QueryCondition)
  | and (rules : List AccessRule)
  | or (rules : List AccessRule)

namespace AccessRule

mutual

/-- Equality of rules is decidable. -/
def decEq : (a b : AccessRule) → Decidable (a = b)
  | .boolean a, .boolean b => decidable_of_iff (a = b) (by simp)
  | .query a, .query b => decidable_of_iff (a = b) (by simp)
  | .and a, .and b =>
    have := decEqList a b
    decidable_of_iff (a = b) (by simp)
  | .or a, .or b =>
    have := decEqList a b
    decidable_of_iff (a = b) (by simp)
  | .boolean _, .query _ | .boolean _, .and _ | .boolean _, .or _ | .query _, .boolean _
  | .query _, .and _ | .query _, .or _ | .and _, .boolean _ | .and _, .query _ | .and _, .or _
  | .or _, .boolean _ | .or _, .query _ | .or _, .and _ => .isFalse (by simp)

/-- Equality of lists of rules is decidable. -/
def decEqList : (a b : List AccessRule) → Decidable (a = b)
  | [], [] => .isTrue rfl
  | [], _ :: _ | _ :: _, [] => .isFalse (by simp)
  | x :: xs, y :: ys =>
    have := decEq x y
    have := decEqList xs ys
    decidable_of_iff (x = y ∧ xs = ys) (by simp)

end

instance : DecidableEq AccessRule := decEq

end AccessRule

/-- `AccessControl`. -/
structure AccessControl where
  create : Option AccessRule
  read : Option AccessRule
  update : Option AccessRule
  delete : Option AccessRule
  deriving DecidableEq

/-- The operations that `parse_access_block` asks for. -/
inductive Op where
  | create
  | read
  | update
  | delete
  deriving DecidableEq

/-- The name of an operation in the DSL. -/
def Op.key : Op → List Char
  | .create => ['c', 'r', 'e', 'a', 't', 'e']
  | .read => ['r', 'e', 'a', 'd']
  | .update => ['u', 'p', 'd', 'a', 't', 'e']
  | .delete => ['d', 'e', 'l', 'e', 't', 'e']

def AccessControl.rule (ac : AccessControl) : Op → Option AccessRule
  | .create => ac.create
  | .read => ac.read
  | .update => ac.update
  | .delete => ac.delete

/-- `\s`: the characters with the property `White_Space`. -/
def isSpace (c : Char) : Bool :=
  let n := c.toNat
  9 ≤ n && n ≤ 13 || n = 32 || n = 133 || n = 160 || n = 5760 || 8192 ≤ n && n ≤ 8202 || n = 8232 ||
    n = 8233 || n = 8239 || n = 8287 || n = 12288

/-- `\s*`. -/
def spaces (l : List Char) : List Char :=
  l.dropWhile isSpace

/-- The regular expression `access\s*:\s*\{`: the text after its match. -/
def accessAt (l : List Char) : Option (List Char) := do
  let l ← lit ['a', 'c', 'c', 'e', 's', 's'] l
  let l ← lit [':'] (spaces l)
  lit ['{'] (spaces l)

/-- `balanced_brace_body`, `depth` braces deep: the text up to the brace that closes the block.
`quote` is the delimiter of the string that the scan is in, `escaped` that a backslash came last. -/
def balancedBraceBody (depth : Nat) (quote : Option Char) (escaped : Bool) :
    List Char → Option (List Char)
  | [] => none
  | c :: l =>
    match quote with
    | some q =>
      if escaped then (balancedBraceBody depth (some q) false l).map (c :: ·)
      else if c = q then (balancedBraceBody depth none false l).map (c :: ·)
      else (balancedBraceBody depth (some q) (c = '\\') l).map (c :: ·)
    | none =>
      if c = '{' then (balancedBraceBody (depth + 1) none false l).map (c :: ·)
      else if c = '}' then
        if depth = 1 then some [] else (balancedBraceBody (depth - 1) none false l).map (c :: ·)
      else if c = '\'' ∨ c = '"' ∨ c = '`' then
        (balancedBraceBody depth (some c) false l).map (c :: ·)
      else (balancedBraceBody depth none false l).map (c :: ·)

/-- The rest of the line. -/
def line (l : List Char) : List Char :=
  l.takeWhile (· ≠ '\n')

/-- The regular expression `{op}\s*:\s*(allow\s*\.[^\n]+)`: what its group captures. -/
def ruleAt (op : Op) (l : List Char) : Option (List Char) := do
  let l ← lit op.key l
  let l ← lit [':'] (spaces l)
  let l ← lit ['a', 'l', 'l', 'o', 'w'] (spaces l)
  let rest ← lit ['.'] (spaces l)
  if line rest = [] then none
  else some (['a', 'l', 'l', 'o', 'w'] ++ l.takeWhile isSpace ++ '.' :: line rest)

/-- `public\s*\(\s*\)`. -/
def publicAt (l : List Char) : Option (List Char) := do
  let l ← lit ['p', 'u', 'b', 'l', 'i', 'c'] l
  let l ← lit ['('] (spaces l)
  lit [')'] (spaces l)

/-- `(authenticated|sameTenant|owner)\s*\(`. -/
def authenticatedAt (l : List Char) : Option (List Char) := do
  let l ← (lit ['a', 'u', 't', 'h', 'e', 'n', 't', 'i', 'c', 'a', 't', 'e', 'd'] l).or <|
    (lit ['s', 'a', 'm', 'e', 'T', 'e', 'n', 'a', 'n', 't'] l).or (lit ['o', 'w', 'n', 'e', 'r'] l)
  lit ['('] (spaces l)

/-- `role\s*\(\s*\[?([^)\]]*)\]?\s*\)`: what its group captures, and the text after the match. -/
def roleAt (l : List Char) : Option (List Char × List Char) := do
  let l ← lit ['r', 'o', 'l', 'e'] l
  let l ← lit ['('] (spaces l)
  let l := (lit ['['] (spaces l)).getD (spaces l)
  let rest := l.dropWhile fun c => c ≠ ')' ∧ c ≠ ']'
  let rest ← lit [')'] (spaces ((lit [']'] rest).getD rest))
  some (l.takeWhile fun c => c ≠ ')' ∧ c ≠ ']', rest)

/-- `['\x22]([^'\x22]+)['\x22]`. -/
def quotedAt : List Char → Option (List Char × List Char)
  | [] => none
  | q :: l =>
    let isQuote (c : Char) : Bool := c = '\'' ∨ c = '"'
    if isQuote q then
      match l.takeWhile (!isQuote ·), l.dropWhile (!isQuote ·) with
      | _ :: _, _ :: rest => some (l.takeWhile (!isQuote ·), rest)
      | _, _ => none
    else none

/-- `captures_iter`: the matches from left to right, each beginning where the one before it ended at
the earliest. -/
def capturesIter (m : List Char → Option (List Char × List Char)) :
    Nat → List Char → List (List Char)
  | 0, _ => []
  | fuel + 1, l =>
    match m l with
    | some (capture, rest) => capture :: capturesIter m fuel rest
    | none => capturesIter m fuel l.tail

/-- The names in the `role(..)` calls of an expression. -/
def roleNames (expr : List Char) : List String :=
  (capturesIter roleAt (expr.length + 1) expr).flatMap fun capture =>
    (capturesIter quotedAt (capture.length + 1) capture).map String.ofList

section Rules

variable (isWord : Char → Bool)

/-- `\b` before a word character. -/
def wordStart : Option Char → Bool
  | none => true
  | some c => !isWord c

/-- The ordered tests of `parse_rule` on the expression it has grabbed. -/
def classify (expr : List Char) : Option AccessRule :=
  if searchAfter (wordStart isWord) publicAt none expr then some (.boolean "public")
  else if searchAfter (wordStart isWord) authenticatedAt none expr then
    some (.boolean "authenticated")
  else if roleNames expr = [] then none
  else some (.boolean ("|".intercalate (roleNames expr)))

/-- `parse_rule`. -/
def parseRule (inner : List Char) (op : Op) : Option AccessRule :=
  (firstMatch (ruleAt op) inner).bind (classify isWord)

/-- `parse_access_block`. -/
def parseAccessBlock (body : List Char) : Option AccessControl :=
  (firstMatch accessAt body).bind fun l =>
    (balancedBraceBody 1 none false l).bind fun inner =>
      let create := parseRule isWord inner .create
      let read := parseRule isWord inner .read
      let update := parseRule isWord inner .update
      let delete := parseRule isWord inner .delete
      if create.isSome || read.isSome || update.isSome || delete.isSome then
        some { create, read, update, delete }
      else none

/-- The rule that a model ends up with for an operation. -/
def accessRule (body : List Char) (op : Op) : Option AccessRule :=
  (parseAccessBlock isWord body).bind (·.rule op)

end Rules

theorem accessRule_eq {isWord : Char → Bool} {body inner l : List Char} {op : Op}
    (hbody : firstMatch accessAt body = some l) (hinner : balancedBraceBody 1 none false l = some inner) :
    accessRule isWord body op = parseRule isWord inner op := by
  unfold accessRule parseAccessBlock
  rw [hbody, Option.bind_some, hinner, Option.bind_some]
  simp only
  split
  · cases op <;> rfl
  · next hnone =>
    simp only [Bool.or_eq_true, not_or, Bool.not_eq_true, Option.isSome_eq_false_iff,
      Option.isNone_iff_eq_none] at hnone
    cases op <;> simp [hnone]

end Atomo.Schema

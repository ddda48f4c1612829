import Atomo.Lib.Utf8
import Atomo.Schema.AccessRules

/-!
# The loops of the DSL parser

The hand-written scans of `schema_dsl_parser.rs` run over the bytes of a text by index, and cut the text
at the indices they end with. `balance`, `chainEnd` and `splitCommas` are these loops, by recursion on the
bytes that remain; a cut that the text does not allow panics, and is no value here.
-/

namespace Atomo.Dsl

open String (utf8Len utf8EncodeChar)
open Utf8 (bytes code slice sliceFrom sliceTo)

/-- The characters that a scan tells apart. -/
structure Brackets where
  opening : Char
  closing : Char
  quotes : List Char
  ascii : (opening :: closing :: quotes).all (·.toNat < 128) = true

theorem Brackets.opening_lt (br : Brackets) : br.opening.toNat < 128 :=
  of_decide_eq_true (List.all_eq_true.1 br.ascii _ List.mem_cons_self)

theorem Brackets.closing_lt (br : Brackets) : br.closing.toNat < 128 :=
  of_decide_eq_true (List.all_eq_true.1 br.ascii _ (List.mem_cons_of_mem _ List.mem_cons_self))

theorem Brackets.quote_lt (br : Brackets) {c : Char} (h : c ∈ br.quotes) : c.toNat < 128 :=
  of_decide_eq_true (List.all_eq_true.1 br.ascii c (List.mem_cons_of_mem _ (List.mem_cons_of_mem _ h)))

def parens : Brackets where
  opening := '('
  closing := ')'
  quotes := ['\'', '"']
  ascii := by decide

def braces : Brackets where
  opening := '{'
  closing := '}'
  quotes := ['\'', '"', '`']
  ascii := by decide

def squares : Brackets where
  opening := '['
  closing := ']'
  quotes := ['\'', '"', '`']
  ascii := by decide

/-- The scan of `parse_event_list` knows no strings. -/
def bareSquares : Brackets where
  opening := '['
  closing := ']'
  quotes := []
  ascii := by decide

def Brackets.isQuote (br : Brackets) (b : UInt8) : Bool :=
  br.quotes.any (code · = b)

/-! ## The loops -/

/-- To the quote that ends a string; a backslash takes the byte after it along. -/
def skipString (bs : List UInt8) (q : UInt8) (i : Nat) : Nat :=
  if h : i < bs.length then
    if bs[i] = q then i else skipString bs q ((if bs[i] = code '\\' then i + 1 else i) + 1)
  else i
termination_by bs.length - i
decreasing_by split <;> omega

theorem le_skipString (bs : List UInt8) (q : UInt8) (i : Nat) : i ≤ skipString bs q i := by
  fun_induction skipString bs q i with
  | case1 i h hq => exact Nat.le_refl i
  | case2 i h hq ih =>
    refine Nat.le_trans ?_ ih
    split <;> omega
  | case3 i h => exact Nat.le_refl i

/-- To the bracket that closes `depth` others; the depth reached and the index behind the last byte. -/
def balance (br : Brackets) (bs : List UInt8) (depth i : Nat) : Nat × Nat :=
  if h : i < bs.length ∧ 0 < depth then
    if bs[i] = code br.opening then balance br bs (depth + 1) (i + 1)
    else if bs[i] = code br.closing then balance br bs (depth - 1) (i + 1)
    else if br.isQuote bs[i] then balance br bs depth (skipString bs bs[i] (i + 1) + 1)
    else balance br bs depth (i + 1)
  else (depth, i)
termination_by bs.length - i
decreasing_by
  · omega
  · omega
  · have := le_skipString bs bs[i] (i + 1)
    omega
  · omega

theorem le_balance (br : Brackets) (bs : List UInt8) (depth i : Nat) : i ≤ (balance br bs depth i).2 := by
  fun_induction balance br bs depth i with
  | case1 depth i h hopen ih => omega
  | case2 depth i h hopen hclose ih => omega
  | case3 depth i h hopen hclose hquote ih =>
    have := le_skipString bs bs[i] (i + 1)
    omega
  | case4 depth i h hopen hclose hquote ih => omega
  | case5 depth i h => exact Nat.le_refl i

def skipWhile (p : UInt8 → Bool) (bs : List UInt8) (i : Nat) : Nat :=
  if h : i < bs.length then if p bs[i] then skipWhile p bs (i + 1) else i else i
termination_by bs.length - i

theorem le_skipWhile (p : UInt8 → Bool) (bs : List UInt8) (i : Nat) : i ≤ skipWhile p bs i := by
  fun_induction skipWhile p bs i with
  | case1 i h hp ih => omega
  | case2 i h hp => exact Nat.le_refl i
  | case3 i h => exact Nat.le_refl i

/-- `u8::is_ascii_alphanumeric`, or an underscore. -/
def isNameByte (b : UInt8) : Bool :=
  (48 ≤ b && b ≤ 57) || (65 ≤ b && b ≤ 90) || (97 ≤ b && b ≤ 122) || b = 95

/-- `u8::is_ascii_whitespace`. -/
def isBlankByte (b : UInt8) : Bool :=
  b = 32 || b = 9 || b = 10 || b = 12 || b = 13

/-- The whitespace between the calls of a chain. -/
def isGapByte (b : UInt8) : Bool :=
  b = 32 || b = 9 || b = 10 || b = 13

/-- The loop of `take_chain`. -/
def chainEnd (bs : List UInt8) (i : Nat) : Nat :=
  if h : i < bs.length then
    if isGapByte bs[i] then chainEnd bs (i + 1)
    else if bs[i] = code '.' then
      let j := skipWhile isBlankByte bs (skipWhile isNameByte bs (i + 1))
      if bs[j]? = some (code '(') then chainEnd bs (balance parens bs 1 (j + 1)).2 else chainEnd bs j
    else i
  else i
termination_by bs.length - i
decreasing_by
  all_goals
    have hname := le_skipWhile isNameByte bs (i + 1)
    have hblank := le_skipWhile isBlankByte bs (skipWhile isNameByte bs (i + 1))
    have hbalance := le_balance parens bs 1 (skipWhile isBlankByte bs (skipWhile isNameByte bs (i + 1)) + 1)
    omega

/-- `take_chain`. -/
def takeChain (s : List Char) : Option (List Char) :=
  sliceTo s (chainEnd (bytes s) 0)

/-- The text up to the bracket that closes, if one does; the outer `none` is a panic. -/
def balancedBody (br : Brackets) (content : List Char) (start : Nat) : Option (Option (List Char)) :=
  let (depth, i) := balance br (bytes content) 1 start
  if depth = 0 then (slice content start (i - 1)).map some else some none

/-- `balanced_brace_body`. -/
def balancedBraceBody : List Char → Nat → Option (Option (List Char)) :=
  balancedBody braces

/-- The text up to one byte before the end of the scan, whether a bracket closes there or not, and that
end. -/
def bodyTo (br : Brackets) (content : List Char) (start : Nat) : Option (List Char × Nat) :=
  let (_, i) := balance br (bytes content) 1 start
  (slice content start (i - 1)).map (·, i)

/-- `str::trim`. -/
def trim (t : List Char) : List Char :=
  (Schema.spaces (Schema.spaces t).reverse).reverse

/-- `extract_paren_arg`. -/
def extractParenArg (content : List Char) (start : Nat) : Option (Option (List Char) × Nat) :=
  (bodyTo parens content start).map fun (raw, i) => (if trim raw = [] then none else some (trim raw), i)

/-- The loop of `split_top_level_commas`: at byte `i`, the entry before it from `start` on. -/
def splitCommas (s : List Char) : List UInt8 → Nat → Nat → Nat → Option (List (List Char))
  | [], _, _, start => (sliceFrom s start).map ([·])
  | b :: bs, i, depth, start =>
    if b = code '(' ∨ b = code '[' ∨ b = code '{' then splitCommas s bs (i + 1) (depth + 1) start
    else if b = code ')' ∨ b = code ']' ∨ b = code '}' then splitCommas s bs (i + 1) (depth - 1) start
    else if b = code ',' ∧ depth = 0 then
      (slice s start i).bind fun entry => (splitCommas s bs (i + 1) depth (i + 1)).map (entry :: ·)
    else splitCommas s bs (i + 1) depth start

/-- `split_top_level_commas`. -/
def splitTopLevelCommas (s : List Char) : Option (List (List Char)) :=
  splitCommas s (bytes s) 0 0 0

/-- `constraint_sql_string`; the outer `none` is a panic. -/
def constraintSqlString (arg : List Char) : Option (Option (List Char)) :=
  let arg := trim arg
  match (bytes arg).head? with
  | none => some none
  | some quote =>
    if 2 ≤ utf8Len arg ∧ (quote = code '\'' ∨ quote = code '"') ∧ (bytes arg).getLast? = some quote then
      (slice arg 1 (utf8Len arg - 1)).map some
    else some none

end Atomo.Dsl

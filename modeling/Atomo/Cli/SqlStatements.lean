import Atomo.Dsl.Written
import Atomo.TypeScript.Parser

/-!
# The statements of a migration file

`parse_sql_statements` of `migrate.rs`. A file is read line by line: blank lines and comments are dropped, a line that
ends with a semicolon ends a statement, and neither holds inside a dollar-quoted body. But for white space and the
dropped lines, the statements are the file (`split_faithful`).
-/

namespace Atomo.Cli

open Dsl (mark trim)
open Pattern (Item findAll)
open Schema (isSpace splitAt spaces)
open TypeScript (lines)

/-! ## The scan -/

/-- `[A-Za-z0-9_]`. -/
def isTagChar (c : Char) : Bool :=
  c.isAlphanum || c = '_'

/-- `\$[A-Za-z0-9_]*\$`. -/
def dollarItems : List (Item Char) :=
  [mark '$', .skip (.many isTagChar), mark '$']

/-- A delimiter ends the body that it has begun, or begins one. -/
def toggle : Option (List Char) → List Char → Option (List Char)
  | some open', token => if token = open' then none else some open'
  | none, token => some token

/-- The body that is open behind a line. -/
def scanLine (inDollar : Option (List Char)) (line : List Char) : Option (List Char) :=
  (findAll dollarItems line).foldl (fun inDollar cap => toggle inDollar cap.text) inDollar

/-- A line that is dropped: blank, or a comment. -/
def isDropped (line : List Char) : Bool :=
  trim line = [] || ['-', '-'].isPrefixOf (trim line)

/-- `in_dollar`, `current` and `statements`. -/
structure Split where
  inDollar : Option (List Char) := none
  current : List Char := []
  statements : List (List Char) := []

/-- `current` as a statement, unless it is blank. -/
def Split.flush (s : Split) : List (List Char) :=
  if trim s.current = [] then s.statements else s.statements ++ [trim s.current]

def Split.push (s : Split) (line : List Char) : Split :=
  { s with inDollar := scanLine s.inDollar line, current := s.current ++ line ++ ['\n'] }

def Split.cut (s : Split) : Split :=
  { s with current := [], statements := s.flush }

def Split.line (s : Split) (line : List Char) : Split :=
  if s.inDollar = none ∧ isDropped line then s
  else if (s.push line).inDollar = none ∧ (trim line).getLast? = some ';' then (s.push line).cut
  else s.push line

/-- `parse_sql_statements`. -/
def parseSqlStatements (content : List Char) : List (List Char) :=
  ((lines content).foldl Split.line {}).flush

/-! ## What is kept -/

/-- The lines that are not dropped, behind a line with a body open or not. -/
def keptLines : Option (List Char) → List (List Char) → List (List Char)
  | _, [] => []
  | inDollar, line :: rest =>
    if inDollar = none ∧ isDropped line then keptLines inDollar rest
    else line :: keptLines (scanLine inDollar line) rest

/-- A text without its white space. -/
def inked (t : List Char) : List Char :=
  t.filter (!isSpace ·)

theorem inked_append (t l : List Char) : inked (t ++ l) = inked t ++ inked l :=
  List.filter_append t l

theorem inked_newline : inked ['\n'] = [] := by
  decide

theorem spaces_eq (t : List Char) : spaces t = t.dropWhile isSpace := by
  rfl

theorem inked_spaces (t : List Char) : inked (spaces t) = inked t := by
  rw [spaces_eq]
  induction t with
  | nil => rfl
  | cons c t ih =>
    by_cases hc : isSpace c = true
    · rw [List.dropWhile_cons_of_pos hc, ih]
      simp [inked, hc]
    · rw [List.dropWhile_cons_of_neg hc]

theorem inked_reverse (t : List Char) : inked t.reverse = (inked t).reverse :=
  List.filter_reverse

theorem inked_trim (t : List Char) : inked (trim t) = inked t := by
  unfold trim
  rw [inked_reverse, inked_spaces, inked_reverse, inked_spaces, List.reverse_reverse]

theorem inked_flush (s : Split) : s.flush.flatMap inked = s.statements.flatMap inked ++ inked s.current := by
  unfold Split.flush
  by_cases hblank : trim s.current = []
  · rw [if_pos hblank, ← inked_trim s.current, hblank]
    exact (List.append_nil _).symm
  · rw [if_neg hblank, List.flatMap_append, List.flatMap_singleton, inked_trim]

theorem inked_push (s : Split) (line : List Char) :
    (s.push line).statements.flatMap inked ++ inked (s.push line).current =
      s.statements.flatMap inked ++ inked s.current ++ inked line := by
  unfold Split.push
  simp only [inked_append, inked_newline, List.append_nil, List.append_assoc]

theorem inked_cut (s : Split) :
    s.cut.statements.flatMap inked ++ inked s.cut.current = s.statements.flatMap inked ++ inked s.current :=
  (List.append_nil _).trans (inked_flush s)

/-- A line that is kept goes behind what was kept before it. -/
theorem inked_line {s : Split} {line : List Char} (h : ¬(s.inDollar = none ∧ isDropped line = true)) :
    (s.line line).statements.flatMap inked ++ inked (s.line line).current =
      s.statements.flatMap inked ++ inked s.current ++ inked line := by
  unfold Split.line
  rw [if_neg h]
  split
  · rw [inked_cut, inked_push]
  · rw [inked_push]

theorem inDollar_line {s : Split} {line : List Char} (h : ¬(s.inDollar = none ∧ isDropped line = true)) :
    (s.line line).inDollar = scanLine s.inDollar line := by
  unfold Split.line
  rw [if_neg h]
  split
  · rfl
  · rfl

theorem inked_foldl (s : Split) (l : List (List Char)) :
    (l.foldl Split.line s).statements.flatMap inked ++ inked (l.foldl Split.line s).current =
      s.statements.flatMap inked ++ inked s.current ++ (keptLines s.inDollar l).flatMap inked := by
  induction l generalizing s with
  | nil => exact (List.append_nil _).symm
  | cons line l ih =>
    rw [List.foldl_cons, ih, keptLines]
    by_cases hdropped : s.inDollar = none ∧ isDropped line = true
    · have hline : s.line line = s := if_pos hdropped
      rw [hline, if_pos hdropped]
    · rw [inked_line hdropped, inDollar_line hdropped, if_neg hdropped, List.flatMap_cons]
      simp only [List.append_assoc]

/-! ## Statements -/

/-- A statement has text, and no white space around it. -/
structure IsStatement (t : List Char) : Prop where
  ne : t ≠ []
  head : ∀ c ∈ t.head?, isSpace c = false
  last : ∀ c ∈ t.getLast?, isSpace c = false

theorem isSpace_head_spaces {t : List Char} {c : Char} (h : c ∈ (spaces t).head?) : isSpace c = false := by
  have hhead := List.head?_dropWhile_not isSpace t
  rw [← spaces_eq, Option.mem_def.1 h] at hhead
  simpa using hhead

theorem isStatement_trim {t : List Char} (h : trim t ≠ []) : IsStatement (trim t) where
  ne := h
  last := by
    intro c hc
    unfold trim at hc
    rw [List.getLast?_reverse] at hc
    exact isSpace_head_spaces hc
  head := by
    -- what is cut off at the end leaves the first character where it is
    intro c hc
    have hsuffix : spaces (spaces t).reverse <:+ (spaces t).reverse := List.dropWhile_suffix _
    obtain ⟨cut, hcut⟩ := hsuffix
    have hne : spaces (spaces t).reverse ≠ [] := fun hnil => h (by simp [trim, hnil])
    apply isSpace_head_spaces (t := t)
    unfold trim at hc
    rw [List.head?_reverse] at hc
    rw [← List.getLast?_reverse, ← hcut, List.getLast?_append_of_ne_nil _ hne]
    exact hc

theorem isStatement_flush {s : Split} (h : ∀ t ∈ s.statements, IsStatement t) : ∀ t ∈ s.flush, IsStatement t := by
  intro t ht
  unfold Split.flush at ht
  by_cases hblank : trim s.current = []
  · rw [if_pos hblank] at ht
    exact h t ht
  · rw [if_neg hblank, List.mem_append, List.mem_singleton] at ht
    rcases ht with ht | rfl
    · exact h t ht
    · exact isStatement_trim hblank

theorem isStatement_line {s : Split} (h : ∀ t ∈ s.statements, IsStatement t) (line : List Char) :
    ∀ t ∈ (s.line line).statements, IsStatement t := by
  unfold Split.line
  split
  · exact h
  · split
    · exact isStatement_flush h
    · exact h

theorem isStatement_foldl {s : Split} (h : ∀ t ∈ s.statements, IsStatement t) (l : List (List Char)) :
    ∀ t ∈ (l.foldl Split.line s).statements, IsStatement t := by
  induction l generalizing s with
  | nil => exact h
  | cons line l ih => exact ih (isStatement_line h line)

theorem head?_spaces (t : List Char) : (spaces t).head? = (inked t).head? := by
  rw [spaces_eq]
  induction t with
  | nil => rfl
  | cons c t ih =>
    by_cases hc : isSpace c = true
    · rw [List.dropWhile_cons_of_pos hc, ih]
      simp [inked, hc]
    · rw [List.dropWhile_cons_of_neg hc]
      simp [inked, hc]

/-- The last character of a statement. -/
theorem getLast?_trim (t : List Char) : (trim t).getLast? = (inked t).getLast? := by
  unfold trim
  rw [List.getLast?_reverse, head?_spaces, inked_reverse, inked_spaces, List.head?_reverse]

theorem getLast?_line {s : Split} {line : List Char} (h : ∀ t ∈ s.statements, t.getLast? = some ';') :
    ∀ t ∈ (s.line line).statements, t.getLast? = some ';' := by
  unfold Split.line
  split
  · exact h
  · split
    · rename_i hends
      intro t ht
      have hlast : (trim (s.push line).current).getLast? = some ';' := by
        rw [getLast?_trim] at hends ⊢
        unfold Split.push
        simp [inked_append, inked_newline, List.getLast?_append, hends.2]
      unfold Split.cut Split.flush at ht
      dsimp only at ht
      split at ht
      · exact h t ht
      · rcases List.mem_append.1 ht with hold | hnew
        · exact h t hold
        · rw [List.mem_singleton.1 hnew]
          exact hlast
    · exact h

theorem getLast?_foldl {s : Split} (h : ∀ t ∈ s.statements, t.getLast? = some ';') (l : List (List Char)) :
    ∀ t ∈ (l.foldl Split.line s).statements, t.getLast? = some ';' := by
  induction l generalizing s with
  | nil => exact h
  | cons line l ih => exact ih (getLast?_line h)

/-- The statements have all text of the lines that are kept, in order, and nothing else; none is blank, none has
white space around it, and all but the last end with a semicolon. -/
theorem split_faithful (content : List Char) :
    (parseSqlStatements content).flatMap inked = (keptLines none (lines content)).flatMap inked ∧
      (∀ t ∈ parseSqlStatements content, IsStatement t) ∧
      ∀ t ∈ (parseSqlStatements content).dropLast, t.getLast? = some ';' := by
  refine ⟨?_, isStatement_flush (isStatement_foldl (List.forall_mem_nil _) _), fun t ht => ?_⟩
  · unfold parseSqlStatements
    rw [inked_flush, inked_foldl]
    rfl
  · have hclosed := getLast?_foldl (s := {}) (List.forall_mem_nil _) (lines content)
    unfold parseSqlStatements Split.flush at ht
    split at ht
    · exact hclosed t (List.mem_of_mem_dropLast ht)
    · rw [List.dropLast_concat] at ht
      exact hclosed t ht

end Atomo.Cli

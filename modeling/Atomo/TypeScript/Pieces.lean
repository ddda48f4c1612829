import Atomo.TypeScript.Blocks

/-!
# The pieces of an interface body

`parse_interface` cuts the body of an interface into lines, each line at its comment, and what stands before the comment
at semicolons; a piece is a field or nothing. What the fields of a text are that is put together from parts, and what a
property is read as where a piece begins with it (`textFields_property`).
-/

namespace Atomo.TypeScript

open Pattern (Item Match Passes Reads find matchAt)
open Schema
open Dsl

/-! ## Comments -/

theorem splitComment_nil : splitComment [] = ([], []) := rfl

theorem splitComment_slashes (t : List Char) : splitComment ('/' :: '/' :: t) = ([], t) := by
  have hreads : Reads [text "//"] ("//".toList ++ []) [] t := .cons (Pattern.take_lit _ _) .nil
  have hfind := Pattern.find_of_matchAt hreads.matchAt_eq
  rw [List.append_nil] at hfind
  unfold splitComment
  rw [show '/' :: '/' :: t = "//".toList ++ t from rfl, hfind]

theorem splitComment_cons {c : Char} {t : List Char} (h : ¬(c = '/' ∧ t.head? = some '/')) :
    splitComment (c :: t) = (c :: (splitComment t).1, (splitComment t).2) := by
  have hpasses : Passes [text "//"] [c] t := by
    refine ⟨?_, trivial⟩
    rw [matchAt, Option.bind_eq_none_iff]
    intro w hw
    obtain ⟨r, hr, -⟩ := Option.map_eq_some_iff.1 hw
    have htext : c :: t = '/' :: '/' :: r := Scan.lit_eq_some.1 hr
    cases htext
    exact absurd ⟨rfl, rfl⟩ h
  have hfind := Pattern.find_append hpasses
  rw [List.singleton_append] at hfind
  unfold splitComment
  rw [hfind]
  cases find [text "//"] t <;> rfl

/-- What stands before the comment begins the line. -/
theorem isPrefix_splitComment (t : List Char) : (splitComment t).1 <+: t := by
  unfold splitComment
  cases hfind : find [text "//"] t with
  | none => exact List.prefix_refl t
  | some m =>
    have hsplit := (Pattern.search_spec hfind).1
    exact ⟨m.text ++ m.rest, by rw [← List.append_assoc, ← hsplit]⟩

/-- Text without a slash. -/
theorem splitComment_append {t : List Char} (h : '/' ∉ t) (l : List Char) :
    splitComment (t ++ l) = (t ++ (splitComment l).1, (splitComment l).2) := by
  induction t with
  | nil => rfl
  | cons c t ih =>
    rw [List.mem_cons, not_or] at h
    rw [List.cons_append, splitComment_cons (fun hc => h.1 hc.1.symm), ih h.2]
    rfl

/-- Text without a comment that ends with a semicolon. -/
theorem splitComment_append_semicolon {t : List Char} (h : (splitComment t).1 = t) (l : List Char) :
    splitComment (t ++ ';' :: l) = (t ++ ';' :: (splitComment l).1, (splitComment l).2) := by
  induction t with
  | nil =>
    rw [List.nil_append, splitComment_cons (by simp)]
    rfl
  | cons c t ih =>
    by_cases hc : c = '/' ∧ t.head? = some '/'
    · obtain ⟨rfl, hhead⟩ := hc
      obtain ⟨t, rfl⟩ := List.head?_eq_some_iff.1 hhead
      rw [splitComment_slashes] at h
      cases h
    · have hc' : ¬(c = '/' ∧ (t ++ ';' :: l).head? = some '/') := by
        cases t with
        | nil => simp
        | cons d t => exact hc
      rw [splitComment_cons hc] at h
      rw [List.cons_append, splitComment_cons hc', ih (List.cons.inj h).2]
      rfl

/-- A comment goes on to the end of the line. -/
theorem splitComment_of_comment {t : List Char} (h : (splitComment t).1 ≠ t) (l : List Char) :
    (splitComment (t ++ l)).1 = (splitComment t).1 := by
  induction t with
  | nil => exact absurd rfl h
  | cons c t ih =>
    by_cases hc : c = '/' ∧ t.head? = some '/'
    · obtain ⟨rfl, hhead⟩ := hc
      obtain ⟨t, rfl⟩ := List.head?_eq_some_iff.1 hhead
      rw [List.cons_append, List.cons_append, splitComment_slashes, splitComment_slashes]
    · rw [splitComment_cons hc] at h ⊢
      have hne : (splitComment t).1 ≠ t := fun heq => h (by rw [heq])
      have hc' : ¬(c = '/' ∧ (t ++ l).head? = some '/') := by
        cases t with
        | nil => exact absurd rfl hne
        | cons d t => exact hc
      rw [List.cons_append, splitComment_cons hc', ih hne]

/-- What stands before the comment has no comment in it. -/
theorem splitComment_code (t : List Char) : (splitComment (splitComment t).1).1 = (splitComment t).1 := by
  induction t with
  | nil => rfl
  | cons c t ih =>
    by_cases hc : c = '/' ∧ t.head? = some '/'
    · obtain ⟨rfl, hhead⟩ := hc
      obtain ⟨t, rfl⟩ := List.head?_eq_some_iff.1 hhead
      rw [splitComment_slashes]
      rfl
    · rw [splitComment_cons hc]
      have hc' : ¬(c = '/' ∧ (splitComment t).1.head? = some '/') := by
        rintro ⟨rfl, hhead⟩
        obtain ⟨l, hl⟩ := isPrefix_splitComment t
        obtain ⟨code, hcode⟩ := List.head?_eq_some_iff.1 hhead
        rw [hcode] at hl
        exact hc ⟨rfl, by rw [← hl]; rfl⟩
      rw [splitComment_cons hc', ih]

/-! ## Pieces and lines -/

section Pieces

variable (u : Unicode)

/-- What a piece is read as, with these annotations. -/
def fieldOf (seg annotations : List Char) : Option Field :=
  if isSkipped (trim seg) then none else parseFieldDefinition u (trim seg) annotations

/-- The fields that a text defines. -/
def textFields (t : List Char) : List Field :=
  (splitAt '\n' t).flatMap (lineFields u)

/-- The names of these fields. -/
def textNames (t : List Char) : List String :=
  (textFields u t).map (·.name)

variable {u}

theorem lineFields_eq (line : List Char) :
    lineFields u line = (splitAt ';' (splitComment line).1).filterMap (fieldOf u · (splitComment line).2) := by
  have hline : lineFields u line = ((((splitAt ';' (splitComment line).1).map trim).filter fun seg =>
      !isSkipped seg).filterMap (parseFieldDefinition u · (splitComment line).2)) := rfl
  rw [hline]
  generalize splitAt ';' (splitComment line).1 = segs
  induction segs with
  | nil => rfl
  | cons seg segs ih =>
    have hpiece : fieldOf u seg (splitComment line).2 =
        if isSkipped (trim seg) then none else parseFieldDefinition u (trim seg) (splitComment line).2 := rfl
    rw [List.map_cons, List.filter_cons, List.filterMap_cons, hpiece]
    cases hskip : isSkipped (trim seg) with
    | true => exact ih
    | false =>
      simp only [Bool.not_false, if_true, List.filterMap_cons, Bool.false_eq_true, if_false]
      cases parseFieldDefinition u (trim seg) (splitComment line).2 with
      | none => exact ih
      | some field => exact congrArg (field :: ·) ih

/-- The annotations do not bear on the name. -/
theorem name_fieldOf (seg annotations annotations' : List Char) :
    (fieldOf u seg annotations).map (·.name) = (fieldOf u seg annotations').map (·.name) := by
  unfold fieldOf
  split
  · rfl
  · unfold parseFieldDefinition
    cases find (fieldItems u) (trim seg) <;> rfl

theorem names_filterMap_fieldOf (segs : List (List Char)) (annotations annotations' : List Char) :
    (segs.filterMap (fieldOf u · annotations)).map (·.name) = (segs.filterMap (fieldOf u · annotations')).map (·.name) := by
  simp only [List.map_filterMap]
  exact List.filterMap_congr fun seg _ => name_fieldOf seg annotations annotations'

theorem textFields_nil : textFields u [] = [] := rfl

theorem textFields_newline (t l : List Char) : textFields u (t ++ '\n' :: l) = textFields u t ++ textFields u l := by
  unfold textFields
  rw [splitAt_append, List.flatMap_append]

theorem textFields_line {line : List Char} (h : '\n' ∉ line) : textFields u line = lineFields u line := by
  unfold textFields
  rw [splitAt_of_not_mem h, List.flatMap_singleton]

/-- The first line, and the text behind it. -/
def firstLine (t : List Char) : List Char :=
  t.takeWhile (· ≠ '\n')

def laterLines (t : List Char) : List Char :=
  (t.dropWhile (· ≠ '\n')).drop 1

theorem not_mem_firstLine (t : List Char) : '\n' ∉ firstLine t := fun h => by simpa using List.mem_takeWhile_imp h

theorem textFields_eq (t : List Char) : textFields u t = lineFields u (firstLine t) ++ textFields u (laterLines t) := by
  have hsplit : t = firstLine t ++ t.dropWhile (· ≠ '\n') := List.takeWhile_append_dropWhile.symm
  have hline := textFields_line (u := u) (not_mem_firstLine t)
  unfold laterLines
  cases hrest : t.dropWhile (· ≠ '\n') with
  | nil =>
    rw [hrest, List.append_nil] at hsplit
    rw [← hsplit] at hline
    rw [← hsplit, hline]
    exact (List.append_nil _).symm
  | cons c rest =>
    have hc : c = '\n' := by
      have hhead := List.head?_dropWhile_not (fun c : Char => decide (c ≠ '\n')) t
      rw [hrest] at hhead
      simpa using hhead
    rw [hrest, hc] at hsplit
    conv_lhs => rw [hsplit]
    rw [textFields_newline, hline]
    rfl

theorem firstLine_append {t : List Char} (h : '\n' ∉ t) (l : List Char) : firstLine (t ++ l) = t ++ firstLine l :=
  List.takeWhile_append_of_pos fun _ hc => decide_eq_true fun heq => h (heq ▸ hc)

theorem laterLines_append {t : List Char} (h : '\n' ∉ t) (l : List Char) : laterLines (t ++ l) = laterLines l := by
  have hall : ∀ c ∈ t, decide (c ≠ '\n') = true := fun c hc => decide_eq_true fun heq => h (heq ▸ hc)
  unfold laterLines
  rw [List.dropWhile_append_of_pos hall]

/-! ## Text before a piece -/

/-- The line that a text ends in. -/
def lastLine (t : List Char) : List Char :=
  Scan.afterLast '\n' t

/-- No comment stands in the line that a text ends in. -/
def Uncommented (t : List Char) : Prop :=
  (splitComment (lastLine t)).1 = lastLine t

instance (t : List Char) : Decidable (Uncommented t) :=
  inferInstanceAs (Decidable ((splitComment (lastLine t)).1 = lastLine t))

/-- A piece begins behind a text: it is empty, or ends with a semicolon or a line. -/
inductive Bordered : List Char → Prop
  | nil : Bordered []
  | semicolon (t : List Char) : Bordered (t ++ [';'])
  | line (t : List Char) : Bordered (t ++ ['\n'])

theorem not_mem_lastLine (t : List Char) : '\n' ∉ lastLine t := by
  intro h
  have hmem := List.mem_takeWhile_imp (List.mem_reverse.1 h)
  simp at hmem

theorem lastLine_cases (t : List Char) : t = lastLine t ∨ ∃ before, t = before ++ '\n' :: lastLine t := by
  have hsplit : t.reverse.takeWhile (· ≠ '\n') ++ t.reverse.dropWhile (· ≠ '\n') = t.reverse :=
    List.takeWhile_append_dropWhile
  have ht : (t.reverse.dropWhile (· ≠ '\n')).reverse ++ lastLine t = t := by
    unfold lastLine Scan.afterLast
    rw [← List.reverse_append, hsplit, List.reverse_reverse]
  cases hrest : t.reverse.dropWhile (· ≠ '\n') with
  | nil =>
    rw [hrest] at ht
    exact .inl ht.symm
  | cons c rest =>
    have hc : c = '\n' := by
      have hhead := List.head?_dropWhile_not (fun c : Char => decide (c ≠ '\n')) t.reverse
      rw [hrest] at hhead
      simpa using hhead
    rw [hrest, hc, List.reverse_cons, List.append_assoc] at ht
    exact .inr ⟨rest.reverse, ht.symm⟩

/-- The lines before the last do not bear on what follows. -/
theorem textFields_lastLine (t : List Char) :
    ∃ fields, ∀ l, textFields u (t ++ l) = fields ++ textFields u (lastLine t ++ l) := by
  rcases lastLine_cases t with ht | ⟨before, ht⟩
  · exact ⟨[], fun l => by rw [List.nil_append, ← ht]⟩
  · refine ⟨textFields u before, fun l => ?_⟩
    conv_lhs => rw [ht]
    rw [List.append_assoc, List.cons_append, textFields_newline]

/-- The line that a text with a border behind it ends in is empty or ends with a semicolon. -/
theorem Bordered.lastLine_eq {t : List Char} (h : Bordered t) : lastLine t = [] ∨ ∃ line, lastLine t = line ++ [';'] := by
  cases h with
  | nil => exact .inl rfl
  | line t => exact .inl (Scan.afterLast_append t List.not_mem_nil)
  | semicolon t =>
    right
    unfold lastLine Scan.afterLast
    rw [List.reverse_concat, List.takeWhile_cons_of_pos (by decide), List.reverse_cons]
    exact ⟨_, rfl⟩

theorem names_lineFields (line : List Char) (annotations : List Char) :
    (lineFields u line).map (·.name) =
      ((splitAt ';' (splitComment line).1).filterMap (fieldOf u · annotations)).map (·.name) := by
  rw [lineFields_eq]
  exact names_filterMap_fieldOf _ _ _

theorem uncommented_of_semicolon {line : List Char} (h : (splitComment (line ++ [';'])).1 = line ++ [';']) :
    (splitComment line).1 = line := by
  by_contra hne
  have hprefix := isPrefix_splitComment line
  rw [← splitComment_of_comment hne [';'], h] at hprefix
  have hlen := hprefix.length_le
  rw [List.length_append, List.length_singleton] at hlen
  omega

/-- Behind a border outside of comments the fields are those of the text from there on. -/
theorem textFields_bordered {t : List Char} (h : Bordered t) (hcomment : Uncommented t) (l : List Char) :
    ∃ fields, textFields u (t ++ l) = fields ++ textFields u l ∧ fields.map (·.name) = textNames u t := by
  obtain ⟨before, hbefore⟩ := textFields_lastLine (u := u) t
  have ht := hbefore []
  rw [List.append_nil, List.append_nil] at ht
  unfold textNames
  rw [ht, hbefore, List.map_append]
  rcases h.lastLine_eq with hline | ⟨line, hline⟩
  · rw [hline, textFields_nil]
    exact ⟨before, rfl, (List.append_nil _).symm⟩
  · have hplain : '\n' ∉ line ++ [';'] := hline ▸ not_mem_lastLine t
    unfold Uncommented at hcomment
    rw [hline] at hcomment ⊢
    have hcode := uncommented_of_semicolon hcomment
    have hfields : textFields u (line ++ [';'] ++ l) =
        (splitAt ';' line).filterMap (fieldOf u · (splitComment (firstLine l)).2) ++ textFields u l := by
      rw [textFields_eq, firstLine_append hplain, laterLines_append hplain, textFields_eq l, lineFields_eq, lineFields_eq,
        List.append_assoc, List.singleton_append, splitComment_append_semicolon hcode, splitAt_append, List.filterMap_append,
        List.append_assoc]
    have hnames : (textFields u (line ++ [';'])).map (·.name) =
        ((splitAt ';' line).filterMap (fieldOf u · (splitComment (firstLine l)).2)).map (·.name) := by
      rw [textFields_line hplain, names_lineFields _ (splitComment (firstLine l)).2, splitComment_append_semicolon hcode,
        splitComment_nil, splitAt_append, List.filterMap_append]
      exact congrArg (List.map _) (List.append_nil _)
    exact ⟨before ++ (splitAt ';' line).filterMap (fieldOf u · (splitComment (firstLine l)).2),
      by rw [hfields, List.append_assoc], by rw [List.map_append, hnames]⟩

/-- Behind a border in a comment nothing is read before the next line. -/
theorem textNames_commented {t : List Char} (hcomment : ¬ Uncommented t) (l : List Char) :
    textNames u (t ++ l) = textNames u t ++ textNames u (laterLines l) := by
  obtain ⟨before, hbefore⟩ := textFields_lastLine (u := u) t
  have ht := hbefore []
  rw [List.append_nil, List.append_nil] at ht
  have hplain := not_mem_lastLine t
  unfold textNames
  rw [ht, hbefore, textFields_eq, firstLine_append hplain, laterLines_append hplain, textFields_line hplain]
  simp only [List.map_append, List.append_assoc]
  rw [names_lineFields _ [], splitComment_of_comment hcomment, ← names_lineFields]

/-! ## One piece -/

/-- The comment of the first line. -/
def annotationsOf (t : List Char) : List Char :=
  (splitComment (firstLine t)).2

/-- What stands before the comment of the first line. -/
def codeOf (t : List Char) : List Char :=
  (splitComment (firstLine t)).1

/-- The piece that a text begins with, and the text behind it. -/
def headOf (t : List Char) : List Char :=
  (codeOf t).takeWhile (· ≠ ';')

def behindHead (t : List Char) : List Char :=
  if ';' ∈ codeOf t then (t.dropWhile (· ≠ ';')).drop 1 else laterLines t

theorem not_mem_headOf (t : List Char) : ';' ∉ headOf t := fun h => by simpa using List.mem_takeWhile_imp h

theorem isPrefix_codeOf (t : List Char) : codeOf t <+: t :=
  (isPrefix_splitComment _).trans (List.takeWhile_prefix _)

theorem headOf_prefix (t : List Char) : headOf t <+: t :=
  (List.takeWhile_prefix _).trans (isPrefix_codeOf t)

theorem lineFields_firstLine (t : List Char) :
    lineFields u (firstLine t) = (splitAt ';' (codeOf t)).filterMap (fieldOf u · (annotationsOf t)) :=
  lineFields_eq _

/-- At a semicolon outside of comments a line is split. -/
theorem split_at_semicolon {t : List Char} (h : ';' ∈ codeOf t) :
    ∃ l, t = headOf t ++ ';' :: l ∧ codeOf t = headOf t ++ ';' :: codeOf l ∧ annotationsOf t = annotationsOf l ∧
      laterLines t = laterLines l := by
  obtain ⟨before, code, hcode, hbefore⟩ := List.eq_append_cons_of_mem h
  have hhead : headOf t = before := by
    have hall : ∀ c ∈ before, decide (c ≠ ';') = true := fun c hc => decide_eq_true fun heq => hbefore (heq ▸ hc)
    unfold headOf
    rw [hcode, List.takeWhile_append_of_pos hall, List.takeWhile_cons_of_neg (by simp), List.append_nil]
  obtain ⟨l, hl⟩ := isPrefix_codeOf t
  rw [hcode, List.append_assoc, List.cons_append] at hl
  have hline : '\n' ∉ before ++ [';'] := by
    intro hmem
    refine not_mem_firstLine t ((isPrefix_splitComment _).subset ?_)
    change '\n' ∈ codeOf t
    rw [hcode]
    simpa using Or.inl hmem
  have hplain : (splitComment before).1 = before := by
    refine uncommented_of_semicolon ?_
    by_contra hne
    have hown := splitComment_code (firstLine t)
    change (splitComment (codeOf t)).1 = codeOf t at hown
    rw [hcode, List.append_cons, splitComment_of_comment hne] at hown
    have hprefix := isPrefix_splitComment (before ++ [';'])
    rw [hown] at hprefix
    have hlen := hprefix.length_le
    have hcode' : code = [] := by
      rw [List.length_append] at hlen
      exact List.length_eq_zero_iff.1 (by omega)
    rw [hcode', List.append_nil] at hown
    exact hne hown
  have hfirst : firstLine t = before ++ ';' :: firstLine (code ++ l) := by
    rw [← hl, List.append_cons, firstLine_append hline, List.append_assoc]
    rfl
  have hsplit : splitComment (firstLine t) = (before ++ ';' :: codeOf (code ++ l), annotationsOf (code ++ l)) := by
    rw [hfirst, splitComment_append_semicolon hplain]
    rfl
  have hannotations : annotationsOf t = annotationsOf (code ++ l) := congrArg (·.2) hsplit
  rw [hhead]
  refine ⟨code ++ l, hl.symm, congrArg (·.1) hsplit, hannotations, ?_⟩
  rw [← hl, List.append_cons, laterLines_append hline]

/-- The first piece, and what comes behind it. -/
theorem textFields_piece {before : List Char} (hline : '\n' ∉ before) (hslash : '/' ∉ before) (hpiece : ';' ∉ before)
    (t : List Char) :
    textFields u (before ++ t) =
      (fieldOf u (before ++ headOf t) (annotationsOf t)).toList ++ textFields u (behindHead t) := by
  have hfields : textFields u (before ++ t) =
      (splitAt ';' (before ++ codeOf t)).filterMap (fieldOf u · (annotationsOf t)) ++ textFields u (laterLines t) := by
    rw [textFields_eq, firstLine_append hline, laterLines_append hline, lineFields_eq, splitComment_append hslash]
    rfl
  have hone : ∀ seg annotations, [seg].filterMap (fieldOf u · annotations) = (fieldOf u seg annotations).toList := by
    intro seg annotations
    rw [List.filterMap_cons]
    cases fieldOf u seg annotations <;> rfl
  rw [hfields]
  unfold behindHead
  by_cases hsemicolon : ';' ∈ codeOf t
  · obtain ⟨l, hl, hcode, hannotations, hlater⟩ := split_at_semicolon hsemicolon
    have hfirst : ';' ∉ before ++ headOf t := by
      rw [List.mem_append, not_or]
      exact ⟨hpiece, not_mem_headOf t⟩
    have hdrop : (t.dropWhile (· ≠ ';')).drop 1 = l := by
      have hall : ∀ c ∈ headOf t, decide (c ≠ ';') = true :=
        fun c hc => decide_eq_true fun heq => not_mem_headOf t (heq ▸ hc)
      conv_lhs => rw [hl]
      rw [List.dropWhile_append_of_pos hall, List.dropWhile_cons_of_neg (by simp), List.drop_one, List.tail_cons]
    rw [if_pos hsemicolon, hdrop, hcode, ← List.append_assoc, splitAt_append, splitAt_of_not_mem hfirst, hlater,
      hannotations, textFields_eq l, lineFields_firstLine, List.filterMap_append, hone, List.append_assoc]
  · have hhead : headOf t = codeOf t := by
      unfold headOf
      exact List.takeWhile_eq_self_iff.2 fun c hc => decide_eq_true fun heq => hsemicolon (heq ▸ hc)
    have hfirst : ';' ∉ before ++ codeOf t := by
      rw [List.mem_append, not_or]
      exact ⟨hpiece, hsemicolon⟩
    rw [if_neg hsemicolon, splitAt_of_not_mem hfirst, hhead, hone]

/-! ## A piece with a property -/

def questionMark (optional : Bool) : List Char :=
  if optional then ['?'] else []

/-- A character that is no letter, digit or underscore is not in a name. -/
theorem not_mem_of_word (hu : u.Lawful) {name : List Char} (hname : ∀ c ∈ name, u.isWord c = true) {c : Char}
    (hascii : c.toNat < 128) (hc : (c.isAlphanum || c = '_') = false) : c ∉ name := by
  intro hmem
  have hword := hname c hmem
  rw [hu.ascii c hascii, hc] at hword
  cases hword

theorem trimEnd_cases (t : List Char) :
    ∃ trail, t = trimEnd t ++ trail ∧ Blank trail ∧ ∀ c ∈ (trimEnd t).getLast?, isSpace c = false := by
  have hsplit : t.reverse.takeWhile isSpace ++ spaces t.reverse = t.reverse := List.takeWhile_append_dropWhile
  refine ⟨(t.reverse.takeWhile isSpace).reverse, ?_, fun c hc => List.mem_takeWhile_imp (List.mem_reverse.1 hc), ?_⟩
  · unfold trimEnd
    rw [← List.reverse_append, hsplit, List.reverse_reverse]
  · intro c hc
    unfold trimEnd at hc
    rw [List.getLast?_reverse] at hc
    have hhead := List.head?_dropWhile_not isSpace t.reverse
    rw [show (t.reverse.dropWhile isSpace).head? = some c from hc] at hhead
    exact hhead

theorem trimEnd_eq_nil {t : List Char} : trimEnd t = [] ↔ Blank t := by
  unfold trimEnd spaces Blank
  rw [List.reverse_eq_nil_iff, List.dropWhile_eq_nil_iff]
  simp

section Property

variable {lead name head : List Char} {optional : Bool}

/-- The piece from the name on. -/
def propertyText (name : List Char) (optional : Bool) (t : List Char) : List Char :=
  name ++ (questionMark optional ++ ':' :: t)

theorem head_mark (hu : u.Lawful) (optional : Bool) (t : List Char) :
    ∀ c ∈ (questionMark optional ++ ':' :: t).head?, u.isWord c = false := by
  intro c hc
  cases optional with
  | true =>
    cases hc
    rw [hu.ascii _ (by decide)]
    decide
  | false =>
    cases hc
    exact colon_of_lawful hu

theorem trim_propertyText (hu : u.Lawful) (hlead : Blank lead) (hname : IsName u name) (optional : Bool) (head : List Char) :
    trim (lead ++ propertyText name optional head) = propertyText name optional (trimEnd head) := by
  obtain ⟨trail, hhead, htrail, hlast⟩ := trimEnd_cases head
  have htext : propertyText name optional head = propertyText name optional (trimEnd head) ++ trail := by
    unfold propertyText
    conv_lhs => rw [hhead]
    simp
  rw [htext]
  refine trim_padded hlead htrail (fun c hc => ?_) fun c hc => ?_
  · obtain ⟨d, word, rfl⟩ := List.exists_cons_of_ne_nil hname.ne
    cases hc
    by_contra hspace
    have hword := hname.word _ List.mem_cons_self
    rw [hu.blank _ (Bool.eq_true_of_not_eq_false hspace)] at hword
    cases hword
  · unfold propertyText at hc
    rw [List.append_cons, ← List.append_assoc, List.getLast?_append] at hc
    cases hend : (trimEnd head).getLast? with
    | none =>
      rw [hend, Option.none_or, ← List.append_assoc, List.getLast?_concat] at hc
      cases hc
      decide
    | some d =>
      rw [hend, Option.some_or] at hc
      exact hlast c (hend.trans hc)

/-- Only a bar makes the parser pass over a piece that begins with a name. -/
theorem isSkipped_propertyText (hu : u.Lawful) (hname : IsName u name) (optional : Bool) (t : List Char) :
    isSkipped (propertyText name optional t) = decide ('|' ∈ t) := by
  obtain ⟨d, word, rfl⟩ := List.exists_cons_of_ne_nil hname.ne
  have hstart : ∀ {c : Char} {l : List Char}, c.toNat < 128 → (c.isAlphanum || c = '_') = false →
      ¬ (c :: l) <+: propertyText (d :: word) optional t := by
    intro c l hascii hc hprefix
    obtain ⟨x, hx⟩ := hprefix
    obtain ⟨rfl, -⟩ := List.cons.inj hx
    exact not_mem_of_word hu hname.word hascii hc List.mem_cons_self
  have hexport : ¬ "export ".toList <+: propertyText (d :: word) optional t := by
    rintro ⟨x, hx⟩
    have hletters : ∀ c ∈ "export".toList, u.isWord c = true := by
      refine Dsl.forall_of_all ?_
      simp only [String.reduceToList, List.all_cons, List.all_nil, Bool.and_true, Bool.and_eq_true, decide_eq_true_eq]
      refine ⟨?_, ?_, ?_, ?_, ?_, ?_⟩
      all_goals
        rw [hu.ascii _ (by decide)]
        decide
    have hspace : ∀ c ∈ (' ' :: x).head?, u.isWord c = false := by
      intro c hc
      cases hc
      exact hu.blank _ (by decide)
    obtain ⟨-, hrest⟩ := Pattern.append_head_inj hletters hspace hname.word (head_mark hu optional t) hx
    cases optional <;> cases hrest
  have hbar : '|' ∈ propertyText (d :: word) optional t ↔ '|' ∈ t := by
    have hword : '|' ∉ d :: word := not_mem_of_word hu hname.word (by decide) (by decide)
    unfold propertyText
    rw [List.mem_append, or_iff_right hword]
    cases optional <;> simp [questionMark]
  unfold isSkipped startsWith
  rw [Bool.eq_iff_iff]
  simp only [Bool.or_eq_true, decide_eq_true_eq, List.isPrefixOf_iff_prefix]
  constructor
  · rintro ((((hnil | hcomment) | hstar) | hdeclared) | hmem)
    · exact absurd hnil (List.cons_ne_nil _ _)
    · exact absurd hcomment (hstart (by decide) (by decide))
    · exact absurd hstar (hstart (by decide) (by decide))
    · exact absurd hdeclared hexport
    · exact hbar.1 hmem
  · exact fun hmem => .inr (hbar.2 hmem)

theorem reads_fieldItems (hu : u.Lawful) (hname : IsName u name) (optional : Bool) {t : List Char}
    (hne : t.takeWhile (fun c => c ≠ ';' && c ≠ '/') ≠ []) :
    ∃ w r, matchAt (fieldItems u) (propertyText name optional t) = some ⟨[], w, [name, questionMark optional,
      t.takeWhile fun c => c ≠ ';' && c ≠ '/'], r⟩ := by
  have hsome : (Pattern.Piece.some fun c : Char => c ≠ ';' && c ≠ '/').take t =
      some (t.takeWhile fun c => c ≠ ';' && c ≠ '/', t.dropWhile fun c => c ≠ ';' && c ≠ '/') := by
    rw [Pattern.Piece.take, if_neg hne]
  have hlit : (Pattern.Piece.lit [':']).take (':' :: t) = some ([':'], t) := Pattern.take_lit [':'] t
  have hopt : (Pattern.Piece.opt ['?']).take (questionMark optional ++ ':' :: t) =
      some (questionMark optional, ':' :: t) := by
    cases optional <;> rfl
  have hword : (Pattern.Piece.some u.isWord).take (propertyText name optional t) =
      some (name, questionMark optional ++ ':' :: t) := Pattern.take_some hname.ne hname.word (head_mark hu optional t)
  refine ⟨name ++ (questionMark optional ++ ([':'] ++ ((t.takeWhile fun c => c ≠ ';' && c ≠ '/') ++ []))),
    t.dropWhile fun c => c ≠ ';' && c ≠ '/', ?_⟩
  unfold fieldItems word mark
  simp only [matchAt, Item.piece, Item.captured, hword, hopt, hlit, hsome, Option.bind_some, Option.map_some]

/-- What is read as a field has something behind its colon. -/
theorem matchAt_fieldItems {t : List Char} {m : Match Char} (h : matchAt (fieldItems u) t = some m) :
    ∃ w o x r, t = w ++ (o ++ ':' :: (x ++ r)) ∧ (∀ c ∈ w, u.isWord c = true) ∧ (o = [] ∨ o = ['?']) ∧ x ≠ [] := by
  obtain ⟨w₁, r₁, m₁, h₁, hm₁, htext, hrest⟩ := Pattern.matchAt_cons h
  obtain ⟨w₂, r₂, m₂, h₂, hm₂, htext₁, hrest₁⟩ := Pattern.matchAt_cons hm₁
  obtain ⟨w₃, r₃, m₃, h₃, hm₃, htext₂, hrest₂⟩ := Pattern.matchAt_cons hm₂
  obtain ⟨w₄, r₄, m₄, h₄, hm₄, htext₃, hrest₃⟩ := Pattern.matchAt_cons hm₃
  refine ⟨w₁, w₂, w₄, r₄, ?_, (Pattern.some_of_take h₁).2, ?_, (Pattern.some_of_take h₄).1⟩
  · rw [Pattern.Piece.take_append h₁, Pattern.Piece.take_append h₂, Pattern.Piece.take_append h₃, lit_of_take h₃,
      Pattern.Piece.take_append h₄]
    rfl
  · have hopt : (Pattern.Piece.opt ['?']).take r₁ = some (w₂, r₂) := h₂
    rw [Pattern.Piece.take] at hopt
    cases hlit : Scan.lit ['?'] r₁ with
    | none =>
      rw [hlit] at hopt
      cases hopt
      exact .inl rfl
    | some r =>
      rw [hlit] at hopt
      cases hopt
      exact .inr rfl

/-- Nothing is read of a text that ends with its one colon. -/
theorem find_fieldItems_colon (hu : u.Lawful) {t : List Char} (ht : ':' ∉ t) : find (fieldItems u) (t ++ [':']) = none := by
  refine Pattern.find_eq_none (Pattern.passes_iff.2 fun v hne hv => ?_) rfl
  rw [List.append_nil]
  by_contra hsome
  obtain ⟨m, hm⟩ := Option.ne_none_iff_exists'.1 hsome
  obtain ⟨w, o, x, r, htext, hw, ho, hx⟩ := matchAt_fieldItems hm
  obtain ⟨before, hbefore⟩ := hv
  rw [htext] at hbefore
  have hplain : ∀ {l : List Char}, ':' ∉ l → ∀ c ∈ l, decide (c ≠ ':') = true := by
    intro l hl c hc
    exact decide_eq_true fun heq => hl (heq ▸ hc)
  have hcolon : ∀ l : List Char, ∀ c ∈ (':' :: l).head?, decide (c ≠ ':') = false := by
    intro l c hc
    cases hc
    rfl
  have hw' : ':' ∉ w := not_mem_of_word hu hw (by decide) (by decide)
  have ho' : ':' ∉ o := by
    rcases ho with rfl | rfl <;> simp
  by_cases hmem : ':' ∈ before
  · -- two colons
    have hcount := congrArg (List.count ':') hbefore
    have hpos := List.count_pos_iff.2 hmem
    have hzero := List.count_eq_zero_of_not_mem ht
    simp only [List.count_append, List.count_cons_self, List.count_nil, hzero] at hcount
    omega
  · have hfront : ':' ∉ before ++ (w ++ o) := by
      simp [hmem, hw', ho']
    have hsplit : (before ++ (w ++ o)) ++ ':' :: (x ++ r) = t ++ ':' :: [] := by
      rw [← hbefore]
      simp
    obtain ⟨-, hrest⟩ := Pattern.append_head_inj (hplain hfront) (hcolon _) (hplain ht) (hcolon _) hsplit
    exact hx (List.append_eq_nil_iff.1 (List.cons.inj hrest).2).1

/-- A bar in the piece, or nothing behind its colon: the parser passes over it. -/
theorem fieldOf_property_none (hu : u.Lawful) (hlead : Blank lead) (hname : IsName u name) (optional : Bool)
    (h : '|' ∈ head ∨ Blank head) (annotations : List Char) :
    fieldOf u (lead ++ propertyText name optional head) annotations = none := by
  obtain ⟨trail, hhead, htrail, -⟩ := trimEnd_cases head
  unfold fieldOf
  rw [trim_propertyText hu hlead hname, isSkipped_propertyText hu hname]
  rcases h with hbar | hblank
  · have hmem : '|' ∈ trimEnd head := by
      rw [hhead] at hbar
      refine (List.mem_append.1 hbar).resolve_right fun hmem => ?_
      exact absurd (htrail _ hmem) (by decide)
    rw [if_pos (decide_eq_true hmem)]
  · rw [trimEnd_eq_nil.2 hblank, if_neg (by simp)]
    have hcolon : ':' ∉ name ++ questionMark optional := by
      have hword : ':' ∉ name := not_mem_of_word hu hname.word (by decide) (by decide)
      cases optional <;> simp [hword, questionMark]
    have hfind := find_fieldItems_colon hu hcolon
    rw [List.append_assoc] at hfind
    unfold parseFieldDefinition propertyText
    rw [hfind, Option.map_none]

/-- Any other piece is read as the field of its name. -/
theorem fieldOf_property_some (hu : u.Lawful) (hlead : Blank lead) (hname : IsName u name) (optional : Bool)
    (hbar : '|' ∉ head) (hblank : ¬ Blank head) (hsemicolon : ';' ∉ head) (hslash : head.head? ≠ some '/')
    (annotations : List Char) :
    ∃ field, fieldOf u (lead ++ propertyText name optional head) annotations = some field ∧ field.name = .ofList name ∧
      field.optional = optional ∧ field.attributes = attributesOf name annotations := by
  obtain ⟨trail, hhead, -, -⟩ := trimEnd_cases head
  have hne : (trimEnd head).takeWhile (fun c => c ≠ ';' && c ≠ '/') ≠ [] := by
    cases htrim : trimEnd head with
    | nil => exact absurd (trimEnd_eq_nil.1 htrim) hblank
    | cons c t =>
      rw [htrim, List.cons_append] at hhead
      have hc : c ≠ ';' ∧ c ≠ '/' := by
        rw [hhead] at hsemicolon hslash
        refine ⟨fun heq => hsemicolon (heq ▸ List.mem_cons_self), fun heq => hslash (by rw [heq]; rfl)⟩
      rw [List.takeWhile_cons_of_pos (by simp [hc])]
      exact List.cons_ne_nil _ _
  obtain ⟨w, r, hmatch⟩ := reads_fieldItems hu hname optional hne
  have hmem : '|' ∉ trimEnd head := fun hmem => hbar (by rw [hhead]; exact List.mem_append_left _ hmem)
  unfold fieldOf
  rw [trim_propertyText hu hlead hname, isSkipped_propertyText hu hname, if_neg (by simp [hmem])]
  unfold parseFieldDefinition
  rw [Pattern.find_of_matchAt hmatch, Option.map_some]
  refine ⟨_, rfl, rfl, ?_, rfl⟩
  change decide (questionMark optional ≠ []) = optional
  cases optional <;> rfl

/-! ## A property in a text -/

theorem textNames_laterLines (t : List Char) : textNames u (laterLines t) ⊆ textNames u (behindHead t) := by
  unfold behindHead
  split
  · rename_i hsemicolon
    obtain ⟨l, hl, -, -, hlater⟩ := split_at_semicolon hsemicolon
    have hall : ∀ c ∈ headOf t, decide (c ≠ ';') = true := fun c hc => decide_eq_true fun heq => not_mem_headOf t (heq ▸ hc)
    have hdrop : (t.dropWhile (· ≠ ';')).drop 1 = l := by
      conv_lhs => rw [hl]
      rw [List.dropWhile_append_of_pos hall, List.dropWhile_cons_of_neg (by simp), List.drop_one, List.tail_cons]
    rw [hdrop, hlater]
    unfold textNames
    rw [textFields_eq l, List.map_append]
    exact List.subset_append_right _ _
  · exact List.Subset.refl _

/-- The text up to a property's type has no separator in it. -/
theorem plain_propertyText (hu : u.Lawful) (hlead : Blank lead) (hline : '\n' ∉ lead) (hname : IsName u name)
    (optional : Bool) : '\n' ∉ lead ++ propertyText name optional [] ∧ '/' ∉ lead ++ propertyText name optional [] ∧
      ';' ∉ lead ++ propertyText name optional [] := by
  have hblank : ∀ {c : Char}, isSpace c = false → c ∉ lead := fun hc hmem => by
    rw [hlead _ hmem] at hc
    cases hc
  have hnewline : '\n' ∉ name := not_mem_of_word hu hname.word (by decide) (by decide)
  have hslash : '/' ∉ name := not_mem_of_word hu hname.word (by decide) (by decide)
  have hsemicolon : ';' ∉ name := not_mem_of_word hu hname.word (by decide) (by decide)
  have hslash' : '/' ∉ lead := hblank (by decide)
  have hsemicolon' : ';' ∉ lead := hblank (by decide)
  unfold propertyText
  cases optional <;> simp [questionMark, *]

/-- A property that a piece begins with outside of comments is the first field of the text from there on. -/
theorem textFields_property (hu : u.Lawful) (hlead : Blank lead) (hline : '\n' ∉ lead) (hname : IsName u name)
    (optional : Bool) (t : List Char) :
    textFields u (lead ++ propertyText name optional t) =
      (fieldOf u (lead ++ propertyText name optional (headOf t)) (annotationsOf t)).toList ++
        textFields u (behindHead t) := by
  obtain ⟨hnewline, hslash, hsemicolon⟩ := plain_propertyText hu hlead hline hname optional
  have htext : ∀ l, lead ++ propertyText name optional l = (lead ++ propertyText name optional []) ++ l := by
    intro l
    simp [propertyText]
  rw [htext t, htext (headOf t)]
  exact textFields_piece hnewline hslash hsemicolon t

section Text

variable {front t : List Char}

theorem names_append {before behind : List Field} {key : String} (hbefore : key ∉ before.map (·.name))
    (hbehind : key ∉ behind.map (·.name)) (own : List Field) :
    (before ++ (own ++ behind)).filter (fun field => decide (field.name = key)) =
      own.filter fun field => decide (field.name = key) := by
  have hnone : ∀ {fields : List Field}, key ∉ fields.map (·.name) →
      fields.filter (fun field => decide (field.name = key)) = [] := by
    intro fields hfields
    refine List.filter_eq_nil_iff.2 fun field hfield hkey => hfields ?_
    exact List.mem_map.2 ⟨field, hfield, of_decide_eq_true hkey⟩
  rw [List.filter_append, List.filter_append, hnone hbefore, hnone hbehind, List.nil_append, List.append_nil]

/-- The one field of a name that stands nowhere else. -/
theorem field_of_legible (hu : u.Lawful) (hfront : Bordered front) (hlead : Blank lead) (hline : '\n' ∉ lead)
    (hname : IsName u name) (optional : Bool) (hslash : t.head? ≠ some '/')
    (hbefore : String.ofList name ∉ textNames u front)
    (hbehind : String.ofList name ∉ textNames u (behindHead t)) (hcomment : Uncommented front) (hbar : '|' ∉ headOf t)
    (hblank : ¬ Blank (headOf t)) :
    ∃ field, (textFields u (front ++ (lead ++ propertyText name optional t))).filter
        (fun field => decide (field.name = String.ofList name)) = [field] ∧
      field.optional = optional ∧ field.attributes = attributesOf name (annotationsOf t) := by
  obtain ⟨before, htext, hnames⟩ := textFields_bordered (u := u) hfront hcomment (lead ++ propertyText name optional t)
  have hslash' : (headOf t).head? ≠ some '/' := by
    intro hhead
    obtain ⟨l, hl⟩ := List.head?_eq_some_iff.1 hhead
    obtain ⟨l', hl'⟩ := headOf_prefix t
    rw [hl] at hl'
    exact hslash (by rw [← hl']; rfl)
  obtain ⟨field, hfield, hkey, hoptional, hattributes⟩ :=
    fieldOf_property_some hu hlead hname optional hbar hblank (not_mem_headOf t) hslash' (annotationsOf t)
  refine ⟨field, ?_, hoptional, hattributes⟩
  rw [htext, textFields_property hu hlead hline hname, hfield, names_append (hnames ▸ hbefore) hbehind]
  exact List.filter_cons_of_pos (decide_eq_true hkey)

/-- No field has the name of a property that is not read and stands nowhere else. -/
theorem no_field_of_illegible (hu : u.Lawful) (hfront : Bordered front) (hlead : Blank lead) (hline : '\n' ∉ lead)
    (hname : IsName u name) (optional : Bool) (hbefore : String.ofList name ∉ textNames u front)
    (hbehind : String.ofList name ∉ textNames u (behindHead t))
    (h : ¬ (Uncommented front ∧ '|' ∉ headOf t ∧ ¬ Blank (headOf t))) :
    String.ofList name ∉ textNames u (front ++ (lead ++ propertyText name optional t)) := by
  by_cases hcomment : Uncommented front
  · obtain ⟨before, htext, hnames⟩ := textFields_bordered (u := u) hfront hcomment (lead ++ propertyText name optional t)
    have hpassed : '|' ∈ headOf t ∨ Blank (headOf t) := by
      by_contra hnot
      rw [not_or] at hnot
      exact h ⟨hcomment, hnot⟩
    unfold textNames
    rw [htext, textFields_property hu hlead hline hname, fieldOf_property_none hu hlead hname optional hpassed]
    rw [Option.toList_none, List.nil_append, List.map_append, List.mem_append, not_or, hnames]
    exact ⟨hbefore, hbehind⟩
  · obtain ⟨hnewline, -⟩ := plain_propertyText hu hlead hline hname optional
    have htext : lead ++ propertyText name optional t = (lead ++ propertyText name optional []) ++ t := by
      simp [propertyText]
    rw [textNames_commented hcomment, htext, laterLines_append hnewline, List.mem_append, not_or]
    exact ⟨hbefore, fun hmem => hbehind (textNames_laterLines t hmem)⟩

end Text

end Property

/-! ## Attributes -/

/-- An attribute more, where it is not there yet. -/
theorem mem_added {p : Prop} [Decidable p] {a b : FieldAttribute} {attributes : List FieldAttribute} :
    (a ∈ if p ∧ b ∉ attributes then attributes ++ [b] else attributes) ↔ a ∈ attributes ∨ p ∧ a = b := by
  by_cases hp : p
  · by_cases hb : b ∈ attributes
    · rw [if_neg fun h => h.2 hb]
      exact ⟨.inl, fun h => h.elim id fun h => h.2 ▸ hb⟩
    · rw [if_pos ⟨hp, hb⟩, List.mem_append, List.mem_singleton, and_iff_right hp]
  · rw [if_neg fun h => hp h.1]
    exact ⟨.inl, fun h => h.resolve_right fun h => hp h.1⟩

/-- The attributes by the name, as far as annotations name them too. -/
theorem mem_named (name : List Char) (a : FieldAttribute) (ha : a = .unique ∨ a = .index) :
    a ∈ ((if name = "id".toList then [FieldAttribute.primary] else []) ++
      (if name = "email".toList then [FieldAttribute.unique] else []) ++
      (if endsWith name "_id" || endsWith name "Id" then [FieldAttribute.foreignKey] else []) ++
      (if contains name "created" || contains name "updated" then [FieldAttribute.timestamp] else [])) ↔
      name = "email".toList ∧ a = .unique := by
  have hone : ∀ {p : Prop} [Decidable p] {b : FieldAttribute}, (a ∈ if p then [b] else []) ↔ p ∧ a = b := by
    intro p _ b
    split <;> simp [*]
  simp only [List.mem_append, hone]
  rcases ha with rfl | rfl <;> simp

theorem unique_mem_attributesOf (name annotations : List Char) :
    .unique ∈ attributesOf name annotations ↔ name = "email".toList ∨ contains annotations "@unique" = true := by
  unfold attributesOf
  rw [mem_added, mem_added, mem_named name _ (.inl rfl)]
  simp

theorem index_mem_attributesOf (name annotations : List Char) :
    .index ∈ attributesOf name annotations ↔ contains annotations "@index" = true := by
  unfold attributesOf
  rw [mem_added, mem_added, mem_named name _ (.inr rfl)]
  simp

end Pieces

end Atomo.TypeScript

import Atomo.TypeScript.Pieces

/-!
# Interfaces as they are written

An `export interface` of a source: its properties in rows, each behind a semicolon or a line, with the comment that
trails a row. Where the parser comes upon it the body is taken up to the first closing brace, and the fields of the model
are those that this text defines (`body_of_interface`, `fields_of_declaration`).
-/

namespace Atomo.TypeScript

open Pattern (Item Match Passes Reads find matchAt)
open Schema
open Dsl

/-! ## Bodies -/

/-- A text up to the first closing brace. -/
def untilBrace (t : List Char) : List Char :=
  t.takeWhile (· ≠ '\x7d')

theorem untilBrace_append {t : List Char} (h : '\x7d' ∉ t) (l : List Char) : untilBrace (t ++ l) = t ++ untilBrace l :=
  List.takeWhile_append_of_pos fun _ hc => decide_eq_true fun heq => h (heq ▸ hc)

theorem untilBrace_of_not_mem {t : List Char} (h : '\x7d' ∉ t) : untilBrace t = t :=
  List.takeWhile_eq_self_iff.2 fun _ hc => decide_eq_true fun heq => h (heq ▸ hc)

theorem untilBrace_of_mem {t : List Char} (h : '\x7d' ∈ t) (l : List Char) : untilBrace (t ++ l) = untilBrace t := by
  obtain ⟨before, behind, rfl, hbefore⟩ := List.eq_append_cons_of_mem h
  rw [List.append_assoc, untilBrace_append hbefore, untilBrace_append hbefore]
  unfold untilBrace
  rw [List.cons_append, List.takeWhile_cons_of_neg (by simp), List.takeWhile_cons_of_neg (by simp)]

theorem splitAt_ne_nil (sep : Char) (t : List Char) : splitAt sep t ≠ [] := by
  rw [splitAt_eq_splitOn]
  exact List.splitOn_ne_nil sep t

/-- A text split at its first newline. -/
theorem splitAt_line {line : List Char} (h : '\n' ∉ line) (t : List Char) :
    splitAt '\n' (line ++ '\n' :: t) = line :: splitAt '\n' t := by
  rw [splitAt_append, splitAt_of_not_mem h, List.singleton_append]

theorem splitAt_prepend {front t line : List Char} {more : List (List Char)} (h : '\n' ∉ front)
    (ht : splitAt '\n' t = line :: more) : splitAt '\n' (front ++ t) = (front ++ line) :: more := by
  induction front with
  | nil => exact ht
  | cons c front ih =>
    rw [List.mem_cons, not_or] at h
    rw [List.cons_append, splitAt, if_neg (Ne.symm h.1), ih h.2]
    rfl

theorem bodyLines_of_mem {line : List Char} (h : '\x7d' ∈ line) (rest : List (List Char)) :
    bodyLines line rest = (untilBrace line, rest) := by
  unfold bodyLines
  cases rest with
  | nil =>
    dsimp only
    rw [if_pos h]
    rfl
  | cons next rest =>
    dsimp only
    rw [if_pos h]
    rfl

theorem bodyLines_of_not_mem {line : List Char} (h : '\x7d' ∉ line) (next : List Char) (rest : List (List Char)) :
    bodyLines line (next :: rest) = (line ++ '\n' :: (bodyLines next rest).1, (bodyLines next rest).2) := by
  rw [bodyLines, if_neg h]

/-- The body from a text on, where it is closed in it. -/
theorem bodyLines_eq {t line : List Char} {more : List (List Char)} (h : '\x7d' ∈ t) (hlines : splitAt '\n' t = line :: more)
    (behind : List (List Char)) : (bodyLines line (more ++ behind)).1 = untilBrace t := by
  induction more generalizing t line with
  | nil =>
    have hplain : '\n' ∉ t := by
      intro hmem
      obtain ⟨first, rest, rfl, hfirst⟩ := List.eq_append_cons_of_mem hmem
      rw [splitAt_line hfirst] at hlines
      exact splitAt_ne_nil _ _ (List.cons.inj hlines).2
    rw [splitAt_of_not_mem hplain] at hlines
    cases hlines
    rw [bodyLines_of_mem h]
  | cons next more ih =>
    have hmem : '\n' ∈ t := by
      by_contra hplain
      rw [splitAt_of_not_mem hplain] at hlines
      cases hlines
    obtain ⟨first, rest, rfl, hfirst⟩ := List.eq_append_cons_of_mem hmem
    rw [splitAt_line hfirst] at hlines
    obtain ⟨rfl, hrest⟩ := List.cons.inj hlines
    by_cases hbrace : '\x7d' ∈ first
    · rw [bodyLines_of_mem hbrace, untilBrace_of_mem hbrace]
    · have hclosed : '\x7d' ∈ rest := by
        rcases List.mem_append.1 h with hmem | hmem
        · exact absurd hmem hbrace
        · exact (List.mem_cons.1 hmem).resolve_left (by decide)
      have hnewline : '\x7d' ∉ first ++ ['\n'] := by simp [hbrace]
      have huntil := untilBrace_append hnewline rest
      rw [List.append_assoc, List.append_assoc] at huntil
      rw [List.cons_append, bodyLines_of_not_mem hbrace, ih hclosed hrest]
      exact huntil.symm

theorem interfaceBody_of_open {front : List Char} (h : '\x7b' ∉ front) (line : List Char) (rest : List (List Char)) :
    interfaceBody ((front ++ '\x7b' :: line) :: rest) = bodyLines line rest := by
  have hall : ∀ c ∈ front, decide (c ≠ '\x7b') = true := fun c hc => decide_eq_true fun heq => h (heq ▸ hc)
  unfold interfaceBody
  rw [List.dropWhile_cons_of_neg (by simp)]
  dsimp only
  rw [List.dropWhile_append_of_pos hall, List.dropWhile_cons_of_neg (by simp), List.drop_one, List.tail_cons]

theorem interfaceBody_of_not_open {line : List Char} (h : '\x7b' ∉ line) (rest : List (List Char)) :
    interfaceBody (line :: rest) = interfaceBody rest := by
  unfold interfaceBody
  rw [List.dropWhile_cons_of_pos (by simpa using h)]

/-- The body of an interface whose braces stand in one text. -/
theorem interfaceBody_eq {head body : List Char} (hhead : '\x7b' ∉ head) (hbody : '\x7d' ∈ body)
    (behind : List (List Char)) :
    (interfaceBody (splitAt '\n' (head ++ '\x7b' :: body) ++ behind)).1 = untilBrace body := by
  obtain ⟨line, more, hlines⟩ := List.exists_cons_of_ne_nil (splitAt_ne_nil '\n' body)
  have hone : ∀ {front : List Char}, '\n' ∉ front → '\x7b' ∉ front →
      (interfaceBody (splitAt '\n' (front ++ '\x7b' :: body) ++ behind)).1 = untilBrace body := by
    intro front hline hopen
    have hplain : '\n' ∉ front ++ ['\x7b'] := by simp [hline]
    rw [List.append_cons, splitAt_prepend hplain hlines, List.cons_append, List.append_assoc, List.singleton_append,
      interfaceBody_of_open hopen, bodyLines_eq hbody hlines]
  rcases lastLine_cases head with hlast | ⟨before, hlast⟩
  · have hline := not_mem_lastLine head
    rw [← hlast] at hline
    exact hone hline hhead
  · rw [hlast] at hhead
    simp only [List.mem_append, List.mem_cons, not_or] at hhead
    have hpassed : ∀ line ∈ splitAt '\n' before, decide ('\x7b' ∉ line) = true :=
      fun line hline => decide_eq_true fun hmem => hhead.1 ((mem_splitAt hline).2 hmem)
    have hlater := hone (not_mem_lastLine head) hhead.2.2
    unfold interfaceBody at hlater ⊢
    rw [hlast, List.append_assoc, List.cons_append, splitAt_append, List.append_assoc, List.dropWhile_append_of_pos hpassed]
    exact hlater

/-! ## The lines behind a body -/

theorem bodyLines_behind {line : List Char} {more : List (List Char)} (h : '\x7d' ∈ line ++ more.flatten) :
    ∃ rest, rest <:+ more ∧ ∀ behind, (bodyLines line (more ++ behind)).2 = rest ++ behind := by
  induction more generalizing line with
  | nil =>
    rw [List.flatten_nil, List.append_nil] at h
    refine ⟨[], List.nil_suffix, fun behind => ?_⟩
    rw [bodyLines_of_mem h]
  | cons next more ih =>
    by_cases hbrace : '\x7d' ∈ line
    · refine ⟨next :: more, List.suffix_refl _, fun behind => ?_⟩
      rw [bodyLines_of_mem hbrace]
    · rw [List.flatten_cons, List.mem_append, or_iff_right hbrace] at h
      obtain ⟨rest, hsuffix, hrest⟩ := ih h
      refine ⟨rest, hsuffix.trans (List.suffix_cons _ _), fun behind => ?_⟩
      rw [List.cons_append, bodyLines_of_not_mem hbrace, hrest]

/-- An interface that is closed within some lines leaves the lines behind them alone. -/
theorem interfaceBody_behind {input : List (List Char)} (h : '\x7d' ∈ input.flatten.dropWhile (· ≠ '\x7b')) :
    ∃ rest, rest <:+ input ∧ ∀ behind, (interfaceBody (input ++ behind)).2 = rest ++ behind := by
  induction input with
  | nil => cases h
  | cons line more ih =>
    by_cases hopen : '\x7b' ∈ line
    · obtain ⟨front, body, rfl, hfront⟩ := List.eq_append_cons_of_mem hopen
      have hall : ∀ c ∈ front, decide (c ≠ '\x7b') = true := fun c hc => decide_eq_true fun heq => hfront (heq ▸ hc)
      rw [List.flatten_cons, List.append_assoc, List.cons_append, List.dropWhile_append_of_pos hall,
        List.dropWhile_cons_of_neg (by simp), List.mem_cons] at h
      obtain ⟨rest, hsuffix, hrest⟩ := bodyLines_behind (h.resolve_left (by decide))
      refine ⟨rest, hsuffix.trans (List.suffix_cons _ _), fun behind => ?_⟩
      rw [List.cons_append, interfaceBody_of_open hfront, hrest]
    · have hall : ∀ c ∈ line, decide (c ≠ '\x7b') = true := fun c hc => decide_eq_true fun heq => hopen (heq ▸ hc)
      rw [List.flatten_cons, List.dropWhile_append_of_pos hall] at h
      obtain ⟨rest, hsuffix, hrest⟩ := ih h
      refine ⟨rest, hsuffix.trans (List.suffix_cons _ _), fun behind => ?_⟩
      rw [List.cons_append, interfaceBody_of_not_open hopen, hrest]

/-! ## The scan for interfaces -/

/-- The line that the parser takes for the beginning of an interface. -/
def BeginsInterface (line : List Char) : Prop :=
  startsWith (trim line) "export interface " = true

/-- Every interface that begins in these lines is closed in them. -/
def Closed (lines : List (List Char)) : Prop :=
  ∀ line rest, line :: rest <:+ lines → BeginsInterface line → '\x7d' ∈ (line :: rest).flatten.dropWhile (· ≠ '\x7b')

theorem Closed.suffix {lines rest : List (List Char)} (h : Closed lines) (hsuffix : rest <:+ lines) : Closed rest :=
  fun line more hmore => h line more (hmore.trans hsuffix)

section Scan

variable {lib : Library} {content : List Char}

/-- The interfaces behind some lines are read, whatever stands in these. -/
theorem parseInterfacesFrom_behind {input behind : List (List Char)} (hclosed : Closed input) {models : List Model}
    (h : parseInterfacesFrom lib content (input ++ behind) = .ok models) :
    ∃ found, parseInterfacesFrom lib content behind = .ok found ∧ found ⊆ models := by
  induction hlength : input.length using Nat.strong_induction_on generalizing input models with
  | _ n ih =>
  cases input with
  | nil => exact ⟨models, h, List.Subset.refl _⟩
  | cons line rest =>
    subst hlength
    have hrest : Closed rest := hclosed.suffix (List.suffix_cons _ _)
    have hlt : rest.length < (line :: rest).length := by simp
    rw [List.cons_append, parseInterfacesFrom] at h
    by_cases hline : startsWith (trim line) "export interface " = true
    · rw [if_pos hline] at h
      cases hcap : find (declared lib.toUnicode "interface") (trim line) with
      | none =>
        rw [hcap] at h
        exact ih _ hlt hrest h rfl
      | some cap =>
        rw [hcap] at h
        dsimp only at h
        split at h
        · exact ih _ hlt hrest h rfl
        · split at h
          · cases h
          · obtain ⟨later, hlater, rfl⟩ := map_eq_ok h
            obtain ⟨more, hsuffix, hmore⟩ := interfaceBody_behind (hclosed line rest (List.suffix_refl _) hline)
            have hbehind : (parseInterface lib.toUnicode (.ofList (cap.group 1)) (line :: (rest ++ behind))).2 =
                more ++ behind := hmore behind
            have hshort := length_interfaceBody (List.cons_ne_nil line rest)
            have hown := hmore []
            rw [List.append_nil, List.append_nil] at hown
            rw [hown] at hshort
            rw [hbehind] at hlater
            obtain ⟨found, hfound, hsubset⟩ := ih _ hshort (hclosed.suffix hsuffix) hlater rfl
            exact ⟨found, hfound, List.Subset.trans hsubset (List.subset_cons_self _ _)⟩
    · rw [if_neg hline] at h
      exact ih _ hlt hrest h rfl

/-- The names of commands. -/
def IsCommand (name : List Char) : Prop :=
  (endsWith name "Command" || endsWith name "Input") = true

instance (name : List Char) : Decidable (IsCommand name) :=
  inferInstanceAs (Decidable ((endsWith name "Command" || endsWith name "Input") = true))

/-- A command is no model. -/
theorem not_isCommand_of_mem {input : List (List Char)} {models : List Model}
    (h : parseInterfacesFrom lib content input = .ok models) : ∀ model ∈ models, ¬ IsCommand model.name.toList := by
  fun_induction parseInterfacesFrom lib content input generalizing models with
  | case1 =>
    cases h
    exact fun _ hm => absurd hm List.not_mem_nil
  | case2 line rest hline hname ih => exact ih h
  | case3 line rest hline cap hcap hskip ih => exact ih h
  | case4 line rest hline cap hcap hskip e he => cases h
  | case5 line rest hline cap hcap hskip access haccess parsed =>
    rename_i ih
    obtain ⟨more, hmore, rfl⟩ := map_eq_ok h
    intro model hmodel
    rcases List.mem_cons.1 hmodel with rfl | hmem
    · intro hcommand
      refine hskip ?_
      change IsCommand (String.ofList (cap.group 1)).toList at hcommand
      rwa [String.toList_ofList] at hcommand
    · exact ih hmore model hmem
  | case6 line rest hline ih => exact ih h

end Scan

/-! ## Written interfaces -/

/-- A property from the separator before it to the one behind it. -/
structure Property where
  lead : List Char := []
  name : List Char
  optional : Bool := false
  type : List Char

def Property.chars (p : Property) : List Char :=
  p.lead ++ propertyText p.name p.optional p.type

/-- The type begins with no comment right behind the colon. -/
structure Property.Plain (u : Unicode) (p : Property) : Prop where
  lead : Blank p.lead
  line : '\n' ∉ p.lead
  name : IsName u p.name
  type : ∃ c t, p.type = c :: t ∧ c ≠ '/'

/-- Properties between semicolons, and the comment that trails them; a row without properties is any line between them. -/
structure Row where
  properties : List Property := []
  behind : List Char := []
  comment : Option (List Char) := none

def Row.trail (row : Row) : List Char :=
  row.behind ++ row.comment.elim [] ("//".toList ++ ·)

def Row.chars (row : Row) : List Char :=
  [';'].intercalate (row.properties.map Property.chars) ++ row.trail

/-- `export interface Name … { … }`. -/
structure Declaration where
  indent : List Char := []
  gap : List Char := []
  name : List Char
  heritage : List Char := [' ']
  rows : List Row
  after : List Char := []

def Declaration.head (d : Declaration) : List Char :=
  d.indent ++ ("export interface ".toList ++ (d.gap ++ (d.name ++ d.heritage)))

def Declaration.body (d : Declaration) : List Char :=
  ['\n'].intercalate (d.rows.map Row.chars)

def Declaration.chars (d : Declaration) : List Char :=
  d.head ++ '\x7b' :: (d.body ++ '\x7d' :: d.after)

/-- The interface begins its line, and no brace opens before its body. -/
structure Declaration.Plain (u : Unicode) (d : Declaration) : Prop where
  indent : Blank d.indent
  gap : Blank d.gap
  line : '\n' ∉ d.indent ++ d.gap
  name : IsName u d.name
  heritage : ∀ c ∈ d.heritage.head?, u.isWord c = false
  head : '\x7b' ∉ d.heritage
  body : '\r' ∉ d.body
  properties : ∀ row ∈ d.rows, ∀ p ∈ row.properties, p.Plain u

/-- A property of an interface, and where it stands. -/
structure Place (d : Declaration) where
  before : List Row
  row : Row
  after : List Row
  earlier : List Property
  property : Property
  later : List Property
  rows_eq : d.rows = before ++ row :: after
  properties_eq : row.properties = earlier ++ property :: later

section Places

variable {d : Declaration}

/-- The body up to the property. -/
def Place.front (p : Place d) : List Char :=
  p.before.flatMap (fun row => row.chars ++ ['\n']) ++ p.earlier.flatMap fun q => q.chars ++ [';']

/-- The body from the type of the property on. -/
def Place.rest (p : Place d) : List Char :=
  p.property.type ++ (p.later.flatMap (fun q => ';' :: q.chars) ++
    (p.row.trail ++ p.after.flatMap fun row => '\n' :: row.chars))

/-- The annotations of the property: the comment that trails its row. -/
def Place.annotations (p : Place d) : List Char :=
  p.row.comment.getD []

theorem intercalate_append {α : Type} (c : α) (before after : List (List α)) (t : List α) :
    [c].intercalate (before ++ t :: after) =
      before.flatMap (fun l => l ++ [c]) ++ (t ++ after.flatMap fun l => c :: l) := by
  induction before with
  | nil =>
    rw [List.nil_append, List.flatMap_nil, List.nil_append]
    induction after generalizing t with
    | nil => simp
    | cons next after ih =>
      rw [List.intercalate_cons_cons, ih]
      simp
  | cons first before ih =>
    rw [List.cons_append, List.intercalate_cons_of_ne_nil (by simp), ih]
    simp

theorem Place.body_eq (p : Place d) :
    d.body = p.front ++ (p.property.lead ++ propertyText p.property.name p.property.optional p.rest) := by
  have hrow : p.row.chars = p.earlier.flatMap (fun q => q.chars ++ [';']) ++
      (p.property.chars ++ (p.later.flatMap (fun q => ';' :: q.chars) ++ p.row.trail)) := by
    unfold Row.chars
    rw [p.properties_eq, List.map_append, List.map_cons, intercalate_append]
    simp [List.flatMap_map]
  unfold Declaration.body
  rw [p.rows_eq, List.map_append, List.map_cons, intercalate_append, hrow]
  simp [Place.front, Place.rest, Property.chars, propertyText, List.flatMap_map]

theorem Place.bordered (p : Place d) : Bordered p.front := by
  unfold Place.front
  rcases List.eq_nil_or_concat p.earlier with hearlier | ⟨ps, q, hearlier⟩
  · rw [hearlier, List.flatMap_nil, List.append_nil]
    rcases List.eq_nil_or_concat p.before with hbefore | ⟨rows, row, hbefore⟩
    · rw [hbefore]
      exact .nil
    · rw [hbefore, List.concat_eq_append, List.flatMap_append, List.flatMap_singleton, ← List.append_assoc]
      exact .line _
  · rw [hearlier, List.concat_eq_append, List.flatMap_append, List.flatMap_singleton, ← List.append_assoc,
      ← List.append_assoc]
    exact .semicolon _

theorem Place.plain {u : Unicode} (hd : d.Plain u) (p : Place d) : p.property.Plain u := by
  refine hd.properties p.row (by simp [p.rows_eq]) p.property ?_
  rw [p.properties_eq]
  simp

end Places

/-! ## The model of an interface -/

section Model

variable {lib : Library} {u : Unicode} {content : List Char} {d : Declaration}

theorem first_prefix {t line : List Char} {more : List (List Char)} (h : splitAt '\n' t = line :: more) : line <+: t := by
  by_cases hmem : '\n' ∈ t
  · obtain ⟨first, rest, rfl, hfirst⟩ := List.eq_append_cons_of_mem hmem
    rw [splitAt_line hfirst] at h
    cases h
    exact List.prefix_append _ _
  · rw [splitAt_of_not_mem hmem] at h
    cases h
    exact List.prefix_refl t

theorem not_isSpace_of_word (hu : u.Lawful) {c : Char} (h : u.isWord c = true) : isSpace c = false := by
  by_contra hspace
  rw [hu.blank c (Bool.eq_true_of_not_eq_false hspace)] at h
  cases h

/-- The line of an interface up to its name. -/
def Declaration.header (d : Declaration) : List Char :=
  "export interface ".toList ++ (d.gap ++ d.name)

/-- The first line of an interface goes on behind the name with something else than a letter. -/
theorem Declaration.Plain.first_line (hu : u.Lawful) (hd : d.Plain u) :
    ∃ line more, splitAt '\n' d.chars = (d.indent ++ (d.header ++ line)) :: more ∧ ∀ c ∈ line.head?, u.isWord c = false := by
  obtain ⟨line, more, hlines⟩ := List.exists_cons_of_ne_nil
    (splitAt_ne_nil '\n' (d.heritage ++ '\x7b' :: (d.body ++ '\x7d' :: d.after)))
  have hline : '\n' ∉ d.indent ++ d.header := by
    have hname : '\n' ∉ d.name := not_mem_of_word hu hd.name.word (by decide) (by decide)
    have hblanks := hd.line
    rw [List.mem_append, not_or] at hblanks
    have hexport : '\n' ∉ "export interface ".toList := by decide
    unfold Declaration.header
    simp only [List.mem_append, not_or]
    exact ⟨hblanks.1, hexport, hblanks.2, hname⟩
  refine ⟨line, more, ?_, fun c hc => ?_⟩
  · have hchars : d.chars = d.indent ++ d.header ++ (d.heritage ++ '\x7b' :: (d.body ++ '\x7d' :: d.after)) := by
      unfold Declaration.chars Declaration.head Declaration.header
      simp only [List.append_assoc]
    rw [hchars, splitAt_prepend hline hlines, List.append_assoc]
  · obtain ⟨rest, hrest⟩ := first_prefix hlines
    have hhead : (d.heritage ++ '\x7b' :: (d.body ++ '\x7d' :: d.after)).head? = some c := by
      rw [← hrest, List.head?_append, hc, Option.some_or]
    cases hheritage : d.heritage with
    | nil =>
      rw [hheritage] at hhead
      cases hhead
      rw [hu.ascii _ (by decide)]
      decide
    | cons c' heritage =>
      rw [hheritage] at hhead
      exact hd.heritage c (by rw [hheritage]; exact hhead)

theorem Declaration.Plain.trim_line (hu : u.Lawful) (hd : d.Plain u) (line : List Char) :
    trim (d.indent ++ (d.header ++ line)) = d.header ++ trimEnd line := by
  obtain ⟨trail, htrim, htrail, hlast⟩ := trimEnd_cases line
  have hpadded : d.indent ++ (d.header ++ line) = d.indent ++ ((d.header ++ trimEnd line) ++ trail) := by
    conv_lhs => rw [htrim]
    rw [List.append_assoc]
  rw [hpadded]
  refine trim_padded hd.indent htrail (fun c hc => ?_) fun c hc => ?_
  · cases hc
    decide
  · rw [List.getLast?_append] at hc
    cases hend : (trimEnd line).getLast? with
    | some e =>
      rw [hend, Option.some_or] at hc
      exact hlast c (hend.trans hc)
    | none =>
      obtain ⟨e, he⟩ := Option.ne_none_iff_exists'.1 (mt List.getLast?_eq_none_iff.1 hd.name.ne)
      unfold Declaration.header at hc
      rw [hend, Option.none_or, ← List.append_assoc, List.getLast?_append, he, Option.some_or] at hc
      cases hc
      exact not_isSpace_of_word hu (hd.name.word _ (List.mem_of_getLast? he))

/-- The name behind `export interface`. -/
theorem find_declared (hu : u.Lawful) {gap name : List Char} (hgap : Blank gap) (hname : IsName u name) {t : List Char}
    (ht : ∀ c ∈ t.head?, u.isWord c = false) :
    ∃ cap, find (declared u "interface") ("export interface ".toList ++ (gap ++ (name ++ t))) = some cap ∧
      cap.group 1 = name := by
  have hfirst : ∀ c ∈ (name ++ t).head?, isSpace c = false := by
    obtain ⟨first, more, rfl⟩ := List.exists_cons_of_ne_nil hname.ne
    intro c hc
    cases hc
    exact not_isSpace_of_word hu (hname.word _ List.mem_cons_self)
  have hblank : ∀ c ∈ ' ' :: gap, isSpace c = true := by
    intro c hc
    rcases List.mem_cons.1 hc with rfl | hc
    · decide
    · exact hgap c hc
  have hletter : ∀ c ∈ ("interface".toList ++ (' ' :: gap ++ (name ++ t))).head?, isSpace c = false := by
    intro c hc
    cases hc
    decide
  have h₅ : Reads [word u] (name ++ []) [name] t := .cons (Pattern.take_some hname.ne hname.word ht) .nil
  have h₄ : Reads [blanks1, word u] ((' ' :: gap) ++ (name ++ [])) [name] t :=
    .cons (Pattern.take_some (List.cons_ne_nil _ _) hblank (by rwa [List.append_nil])) h₅
  have h₃ : Reads [text "interface", blanks1, word u] ("interface".toList ++ ((' ' :: gap) ++ (name ++ []))) [name] t :=
    .cons (Pattern.take_lit _ _) h₄
  have h₂ : Reads [blanks1, text "interface", blanks1, word u]
      ([' '] ++ ("interface".toList ++ ((' ' :: gap) ++ (name ++ [])))) [name] t := by
    refine .cons (Pattern.take_some (List.cons_ne_nil _ _) (Dsl.forall_of_all (by decide)) ?_) h₃
    simpa using hletter
  have h₁ : Reads (declared u "interface")
      ("export".toList ++ ([' '] ++ ("interface".toList ++ ((' ' :: gap) ++ (name ++ []))))) [name] t :=
    .cons (Pattern.take_lit _ _) h₂
  have hfind := Pattern.find_of_matchAt h₁.matchAt_eq
  have htext : "export".toList ++ ([' '] ++ ("interface".toList ++ ((' ' :: gap) ++ (name ++ [])))) ++ t =
      "export interface ".toList ++ (gap ++ (name ++ t)) := by
    simp
  rw [htext] at hfind
  exact ⟨_, hfind, rfl⟩

/-- The name of an interface is read from its line. -/
theorem Declaration.Plain.reads (hu : u.Lawful) (hd : d.Plain u) :
    ∃ line more, splitAt '\n' d.chars = line :: more ∧ BeginsInterface line ∧
      ∃ cap, find (declared u "interface") (trim line) = some cap ∧ cap.group 1 = d.name := by
  obtain ⟨line, more, hlines, hborder⟩ := hd.first_line hu
  obtain ⟨trail, htrim, -, -⟩ := trimEnd_cases line
  have hborder' : ∀ c ∈ (trimEnd line).head?, u.isWord c = false := by
    intro c hc
    refine hborder c ?_
    rw [htrim, List.head?_append, hc, Option.some_or]
    rfl
  refine ⟨_, more, hlines, ?_, ?_⟩
  · unfold BeginsInterface startsWith
    rw [hd.trim_line hu, List.isPrefixOf_iff_prefix]
    unfold Declaration.header
    rw [List.append_assoc]
    exact List.prefix_append _ _
  · obtain ⟨cap, hcap, hname⟩ := find_declared hu hd.gap hd.name hborder'
    refine ⟨cap, ?_, hname⟩
    rw [hd.trim_line hu]
    unfold Declaration.header
    rwa [List.append_assoc, List.append_assoc]

theorem flatMap_lineFields_lines {t : List Char} (h : '\r' ∉ t) : (lines t).flatMap (lineFields u) = textFields u t := by
  have hstrip : ∀ line ∈ splitAt '\n' t, stripSuffix line ['\r'] = line := by
    intro line hline
    have hplain : '\r' ∉ line := fun hmem => h ((mem_splitAt hline).2 hmem)
    unfold stripSuffix
    cases hreverse : line.reverse with
    | nil => rfl
    | cons c rest =>
      have hc : '\r' ≠ c := by
        rintro rfl
        exact hplain (List.mem_reverse.1 (by rw [hreverse]; exact List.mem_cons_self))
      rw [List.reverse_singleton, Scan.lit_cons_of_ne hc]
      rfl
  obtain ⟨parts, last, hparts⟩ : ∃ parts last, splitAt '\n' t = parts ++ [last] := by
    rcases List.eq_nil_or_concat (splitAt '\n' t) with hnil | ⟨parts, last, hparts⟩
    · exact absurd hnil (splitAt_ne_nil _ _)
    · exact ⟨parts, last, by rw [hparts, List.concat_eq_append]⟩
  have hmap : parts.map (fun line => stripSuffix line ['\r']) = parts := by
    refine (List.map_congr_left fun line hline => ?_).trans (List.map_id' parts)
    exact hstrip line (by rw [hparts]; exact List.mem_append_left _ hline)
  unfold lines textFields
  dsimp only
  rw [hparts, List.dropLast_concat, List.getLast?_concat, hmap, List.flatMap_append, List.flatMap_append]
  congr 1
  by_cases hlast : last = []
  · subst hlast
    rfl
  · simp [hlast]

/-- The fields of the model that the parser has for an interface. -/
theorem model_of_interface (hu : lib.toUnicode.Lawful) (hd : d.Plain lib.toUnicode) {behind : List (List Char)}
    {models : List Model} (h : parseInterfacesFrom lib content (splitAt '\n' d.chars ++ behind) = .ok models)
    (hcommand : ¬ IsCommand d.name) :
    ∃ model ∈ models, model.name = .ofList d.name ∧
      model.fields = (textFields lib.toUnicode (untilBrace d.body)).foldl
        (fun fields field => Dsl.insert field.name field fields) [] := by
  obtain ⟨line, more, hlines, hbegins, cap, hcap, hname⟩ := hd.reads hu
  have hhead : '\x7b' ∉ d.head := by
    have hname : '\x7b' ∉ d.name := not_mem_of_word hu hd.name.word (by decide) (by decide)
    have hblank : ∀ {t : List Char}, Blank t → '\x7b' ∉ t := fun ht hmem => absurd (ht _ hmem) (by decide)
    simp [Declaration.head, hname, hblank hd.indent, hblank hd.gap, hd.head]
  have hclosed : untilBrace (d.body ++ '\x7d' :: d.after) = untilBrace d.body := by
    by_cases hmem : '\x7d' ∈ d.body
    · exact untilBrace_of_mem hmem _
    · have hnil : untilBrace ('\x7d' :: d.after) = [] := List.takeWhile_cons_of_neg (by simp)
      rw [untilBrace_append hmem, hnil, List.append_nil, untilBrace_of_not_mem hmem]
  have hbody := interfaceBody_eq hhead (show '\x7d' ∈ d.body ++ '\x7d' :: d.after by simp) behind
  have hreturn : '\r' ∉ untilBrace d.body := fun hmem => hd.body ((List.takeWhile_prefix _).subset hmem)
  change (interfaceBody (splitAt '\n' d.chars ++ behind)).1 = _ at hbody
  rw [hlines, List.cons_append] at h hbody
  rw [parseInterfacesFrom, if_pos (show startsWith (trim line) "export interface " = true from hbegins), hcap] at h
  dsimp only at h
  have hskip : ¬ (endsWith (cap.group 1) "Command" || endsWith (cap.group 1) "Input") = true := hname ▸ hcommand
  rw [if_neg hskip] at h
  split at h
  · cases h
  · rename_i access haccess
    obtain ⟨later, -, rfl⟩ := map_eq_ok h
    refine ⟨_, List.mem_cons_self, congrArg String.ofList hname, ?_⟩
    unfold parseInterface
    dsimp only
    rw [hbody, hclosed, flatMap_lineFields_lines hreturn]

end Model

/-! ## The model in the schema -/

section Passes

variable {lib : Library} {content : List Char} {schema : Atomo.Schema} {models : List Model}
  {metadata : List (String × ModelMetadata)} {entries : List (String × List Char)} {name : String}

theorem mem_modify_of_mem {α : Type} (f : α → α) {l : List α} {a : α} (h : a ∈ l) (i : Nat) :
    a ∈ l.modify i f ∨ f a ∈ l.modify i f := by
  induction l generalizing i with
  | nil => cases h
  | cons b l ih =>
    cases i with
    | zero =>
      rw [List.modify_zero_cons]
      rcases List.mem_cons.1 h with rfl | hmem
      · exact .inr List.mem_cons_self
      · exact .inl (List.mem_cons_of_mem _ hmem)
    | succ i =>
      rw [List.modify_succ_cons]
      rcases List.mem_cons.1 h with rfl | hmem
      · exact .inl List.mem_cons_self
      · exact (ih hmem i).imp (List.mem_cons_of_mem _) (List.mem_cons_of_mem _)

/-- A `defineModel` leaves the fields of a model alone. -/
theorem mem_mergeDefined {model : Model} (h : model ∈ models) (defined : List (String × Option AccessControl)) :
    ∃ model' ∈ defined.foldl mergeDefined models, model'.name = model.name ∧ model'.fields = model.fields := by
  induction defined generalizing models model with
  | nil => exact ⟨model, h, rfl, rfl⟩
  | cons entry defined ih =>
    obtain ⟨model₁, hmem, hname, hfields⟩ : ∃ model₁ ∈ mergeDefined models entry,
        model₁.name = model.name ∧ model₁.fields = model.fields := by
      unfold mergeDefined
      split
      · rcases mem_modify_of_mem (fun model : Model => { model with access := entry.2 }) h
            (models.findIdx (·.name = entry.1)) with hmem | hmem
        · exact ⟨model, hmem, rfl, rfl⟩
        · exact ⟨_, hmem, rfl, rfl⟩
      · exact ⟨model, List.mem_append_left _ h, rfl, rfl⟩
    obtain ⟨model', hmem', hname', hfields'⟩ := ih hmem
    exact ⟨model', hmem', hname'.trans hname, hfields'.trans hfields⟩

/-- Every model has the name of one before, or of a `defineModel`. -/
theorem name_of_mergeDefined {defined : List (String × Option AccessControl)} {model : Model}
    (h : model ∈ defined.foldl mergeDefined models) : model.name ∈ models.map (·.name) ∨ model.name ∈ defined.map (·.1) := by
  induction defined generalizing models with
  | nil => exact .inl (List.mem_map_of_mem h)
  | cons entry defined ih =>
    rcases ih h with hmem | hmem
    · obtain ⟨model', hmodel', hname⟩ := List.mem_map.1 hmem
      rw [← hname]
      unfold mergeDefined at hmodel'
      split at hmodel'
      · rcases mem_modify_findIdx hmodel' with hmem | ⟨model₀, hmem, -, rfl⟩
        · exact .inl (List.mem_map_of_mem hmem)
        · exact .inl (List.mem_map.2 ⟨model₀, hmem, rfl⟩)
      · rcases List.mem_append.1 hmodel' with hmem | hmem
        · exact .inl (List.mem_map_of_mem hmem)
        · rw [List.mem_singleton.1 hmem]
          exact .inr List.mem_cons_self
    · exact .inr (List.mem_cons_of_mem _ hmem)

theorem names_withMetadata (metadata : List (String × ModelMetadata)) (models : List Model) :
    (withMetadata metadata models).map (·.name) = models.map (·.name) := by
  induction models generalizing metadata with
  | nil => rfl
  | cons first models ih =>
    rw [withMetadata]
    cases lookup? first.name metadata with
    | none => exact congrArg (first.name :: ·) (ih metadata)
    | some found => exact congrArg (first.name :: ·) (ih _)

/-- One model of a name. -/
theorem eq_of_count_le_one {model model' : Model} (hone : (models.map (·.name)).count name ≤ 1) (hmem : model ∈ models)
    (hmem' : model' ∈ models) (hname : model.name = name) (hname' : model'.name = name) : model = model' := by
  have hlength : (models.filter fun m => m.name == name).length ≤ 1 := by
    rw [← List.countP_eq_length_filter]
    rwa [List.count, List.countP_map] at hone
  have hin : ∀ {m : Model}, m ∈ models → m.name = name → m ∈ models.filter fun m => m.name == name :=
    fun hm hn => List.mem_filter.2 ⟨hm, beq_iff_eq.2 hn⟩
  generalize models.filter (fun m => m.name == name) = found at hlength hin
  match found, hlength with
  | [], _ => exact absurd (hin hmem hname) List.not_mem_nil
  | [m], _ => rw [List.mem_singleton.1 (hin hmem hname), List.mem_singleton.1 (hin hmem' hname')]

/-- The fields of the one model of a name that the schema object lists. -/
theorem Parsed.fields (h : Parsed lib content schema models metadata entries) (hlisted : name ∈ entries.map (·.1))
    (hone : (models.map (·.name)).count name ≤ 1) {model : Model} (hmem : model ∈ models) (hname : model.name = name) :
    ∃ found, lookup? name schema.models = some found ∧ found.fields = model.fields := by
  obtain ⟨model', hmem', hname'⟩ : ∃ model' ∈ withMetadata metadata models, model'.name = model.name := by
    refine List.mem_map.1 ?_
    rw [names_withMetadata]
    exact List.mem_map_of_mem hmem
  have hfound : lookup? name schema.models ≠ none := by
    rw [h.listed]
    unfold declaredModels
    dsimp only
    rw [lookup?_foldl_insert (fun model : Model => model.name) (fun model => model)]
    intro hnone
    have hlast := (Option.or_eq_none_iff.1 hnone).1
    rw [Option.map_eq_none_iff, List.getLast?_eq_none_iff] at hlast
    refine List.filter_eq_nil_iff.1 hlast model' (List.mem_filter.2 ⟨hmem', ?_⟩) ?_
    · exact decide_eq_true (by rw [hname', hname]; exact hlisted)
    · exact decide_eq_true (hname'.trans hname)
  obtain ⟨found, hfound⟩ := Option.ne_none_iff_exists'.1 hfound
  obtain ⟨hin, hkey, -⟩ := h.mem hfound
  obtain ⟨model₀, hmem₀, hname₀, heq⟩ := mem_withMetadata hin (by rwa [hkey])
  have hfields : found.fields = model₀.fields := by
    rw [heq]
    cases lookup? model₀.name metadata <;> rfl
  rw [eq_of_count_le_one hone hmem hmem₀ hname (hname₀.trans hkey)]
  exact ⟨found, hfound, hfields⟩

end Passes

end Atomo.TypeScript

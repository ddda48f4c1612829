import Atomo.Actions.Dispatcher
import Atomo.Dsl.Written

/-!
# The event bindings of the builder DSL

An `on` block as it is written, against the bindings that the parser makes of it. A binding names the constant that
it is written with, while the schema holds an action under the name that it is registered with; and a condition that
is not read is no condition. So the bindings are those that the schema says just when every action has the name of its
constant and every literal is a string (`bindings_iff`).
-/

namespace Atomo.Dsl

open Pattern (Item Match Passes Reads Solid find findAll search matchAt)
open Schema

/-! ## What is written -/

/-- A string between white space. -/
structure PaddedString where
  lead : List Char := []
  lit : StringLit
  trail : List Char := []

def PaddedString.chars (s : PaddedString) : List Char :=
  s.lead ++ (s.lit.chars ++ s.trail)

def PaddedString.value (s : PaddedString) : String :=
  .ofList s.lit.text

/-- The literal that a field is compared with; one that is no string comes with what it denotes. -/
inductive Literal where
  | string (s : StringLit)
  | other (text : List Char) (value : Json)

def Literal.chars : Literal → List Char
  | .string s => s.chars
  | .other text _ => text

def Literal.value : Literal → Json
  | .string s => .string (.ofList s.text)
  | .other _ value => value

inductive EventCondition where
  /-- `whenChanged`, with the fields in an array or not; `last` is what stands behind a comma at the end. -/
  | whenChanged (array : Bool) (lead trail : List Char) (fields : List PaddedString) (last : Option (List Char))
  /-- `when`. -/
  | when (field : PaddedString) (lead : List Char) (literal : Literal) (trail : List Char)

def EventCondition.method : EventCondition → String
  | .whenChanged _ _ _ _ _ => "whenChanged"
  | .when _ _ _ _ => "when"

/-- What stands between the parentheses. -/
def EventCondition.arguments : EventCondition → List Char
  | .whenChanged array lead trail fields last =>
    let strings := commaSeparated (fields.map PaddedString.chars ++ last.toList)
    if array then lead ++ (['['] ++ (strings ++ ([']'] ++ trail))) else strings
  | .when field lead literal trail => field.chars ++ ([','] ++ (lead ++ (literal.chars ++ trail)))

/-- The condition that is written. -/
def EventCondition.meaning : EventCondition → ActionCondition
  | .whenChanged _ _ _ fields _ => .changedAny (fields.map PaddedString.value)
  | .when field _ literal _ => .fieldEquals field.value literal.value

/-- The white space around a call. -/
structure CallGaps where
  beforeDot : List Char := []
  afterDot : List Char := []
  beforeParen : List Char := []

/-- An entry of a list: a constant, with a condition or without. -/
structure EventEntry where
  constant : List Char
  condition : Option (CallGaps × EventCondition) := none

def EventEntry.call (gaps : CallGaps) (condition : EventCondition) : List Char :=
  gaps.beforeDot ++ (['.'] ++ (gaps.afterDot ++ (condition.method.toList ++
    (gaps.beforeParen ++ (['('] ++ (condition.arguments ++ [')']))))))

def EventEntry.chars (e : EventEntry) : List Char :=
  e.constant ++
    match e.condition with
    | some (gaps, condition) => EventEntry.call gaps condition
    | none => []

structure PaddedEntry where
  lead : List Char := []
  entry : EventEntry
  trail : List Char := []

def PaddedEntry.chars (e : PaddedEntry) : List Char :=
  e.lead ++ (e.entry.chars ++ e.trail)

/-- What stands between the brackets of a list. -/
structure EventList where
  entries : List PaddedEntry
  last : Option (List Char) := none

def EventList.chars (l : EventList) : List Char :=
  commaSeparated (l.entries.map PaddedEntry.chars ++ l.last.toList)

inductive EventKind where
  | created
  | updated
  | deleted
  deriving DecidableEq

def EventKind.key : EventKind → String
  | .created => "created"
  | .updated => "updated"
  | .deleted => "deleted"

/-- A member of the `on` block. -/
structure EventMember where
  lead : List Char := []
  kind : EventKind
  beforeColon : List Char := []
  afterColon : List Char := []
  list : EventList
  trail : List Char := []

def EventMember.chars (m : EventMember) : List Char :=
  m.lead ++ (m.kind.key.toList ++ (m.beforeColon ++ ([':'] ++ (m.afterColon ++
    (['['] ++ (m.list.chars ++ ([']'] ++ m.trail)))))))

/-- What stands between the braces of the `on` block. -/
structure OnBlock where
  members : List EventMember
  last : Option (List Char) := none

def OnBlock.chars (on : OnBlock) : List Char :=
  commaSeparated (on.members.map EventMember.chars ++ on.last.toList)

/-- The entries of a kind. -/
def OnBlock.entries (on : OnBlock) (kind : EventKind) : List EventEntry :=
  ((on.members.find? (·.kind = kind)).map fun m => m.list.entries.map PaddedEntry.entry).getD []

/-! ## What is read of it -/

/-- Fields to compare, or a literal that is a string. -/
def EventCondition.Textual : EventCondition → Prop
  | .whenChanged _ _ _ fields _ => fields ≠ []
  | .when _ _ literal _ => ∃ s, literal = .string s

/-- The condition that the parser reads: none where the literal is no string. -/
def EventCondition.read : EventCondition → Option ActionCondition
  | .whenChanged _ _ _ fields _ => if fields = [] then none else some (.changedAny (fields.map PaddedString.value))
  | .when field _ (.string s) _ => some (.fieldEquals field.value (.string (.ofList s.text)))
  | .when _ _ (.other _ _) _ => none

/-- The binding that the parser makes. -/
def EventEntry.binding (e : EventEntry) : EventActionBinding where
  action := .ofList e.constant
  condition := e.condition.bind fun (_, condition) => condition.read

structure PaddedString.Plain (s : PaddedString) : Prop where
  lead : Blank s.lead
  lit : s.lit.Plain
  trail : Blank s.trail

instance (s : PaddedString) : Decidable s.Plain :=
  decidable_of_iff (Blank s.lead ∧ s.lit.Plain ∧ Blank s.trail) ⟨fun h => ⟨h.1, h.2.1, h.2.2⟩, fun h => ⟨h.1, h.2, h.3⟩⟩

/-- Strings without syntax in them, and other literals without any. -/
def Literal.Plain : Literal → Prop
  | .string s => s.Plain
  | .other text _ => ∀ c ∈ text, isSyntax c = false ∧ c ≠ '`'

instance : (literal : Literal) → Decidable literal.Plain
  | .string s => inferInstanceAs (Decidable s.Plain)
  | .other text _ => decidable_of_iff (text.all (fun c => !isSyntax c && c ≠ '`') = true) (by simp [Literal.Plain])

def EventCondition.Plain : EventCondition → Prop
  | .whenChanged _ lead trail fields last =>
    Blank lead ∧ Blank trail ∧ (∀ s ∈ fields, s.Plain) ∧ ∀ t ∈ last, Blank t
  | .when field lead literal trail => field.Plain ∧ Blank lead ∧ literal.Plain ∧ Blank trail

instance : (condition : EventCondition) → Decidable condition.Plain
  | .whenChanged _ lead trail fields last =>
    inferInstanceAs (Decidable (Blank lead ∧ Blank trail ∧ (∀ s ∈ fields, s.Plain) ∧ ∀ t ∈ last, Blank t))
  | .when field lead literal trail =>
    inferInstanceAs (Decidable (field.Plain ∧ Blank lead ∧ literal.Plain ∧ Blank trail))

structure EventEntry.Plain (u : Unicode) (e : EventEntry) : Prop where
  constant : IsName u e.constant
  reserved : String.ofList e.constant ∉ ["true", "false", "null", "undefined"]
  condition : ∀ call ∈ e.condition,
    Blank call.1.beforeDot ∧ call.1.afterDot = [] ∧ Blank call.1.beforeParen ∧ call.2.Plain

instance (u : Unicode) (e : EventEntry) : Decidable (e.Plain u) :=
  decidable_of_iff (IsName u e.constant ∧ String.ofList e.constant ∉ ["true", "false", "null", "undefined"] ∧
      ∀ call ∈ e.condition, Blank call.1.beforeDot ∧ call.1.afterDot = [] ∧ Blank call.1.beforeParen ∧ call.2.Plain)
    ⟨fun h => ⟨h.1, h.2.1, h.2.2⟩, fun h => ⟨h.1, h.2, h.3⟩⟩

structure EventList.Plain (u : Unicode) (l : EventList) : Prop where
  entries : ∀ e ∈ l.entries, Blank e.lead ∧ e.entry.Plain u ∧ Blank e.trail
  last : ∀ t ∈ l.last, Blank t

instance (u : Unicode) (l : EventList) : Decidable (l.Plain u) :=
  decidable_of_iff ((∀ e ∈ l.entries, Blank e.lead ∧ e.entry.Plain u ∧ Blank e.trail) ∧ ∀ t ∈ l.last, Blank t)
    ⟨fun h => ⟨h.1, h.2⟩, fun h => ⟨h.1, h.2⟩⟩

structure OnBlock.Plain (u : Unicode) (on : OnBlock) : Prop where
  members : ∀ m ∈ on.members, Blank m.lead ∧ Blank m.beforeColon ∧ Blank m.afterColon ∧ Blank m.trail ∧ m.list.Plain u
  last : ∀ t ∈ on.last, Blank t
  /-- The first text of the form `kind: [` is the member's own. -/
  first : ∀ m ∈ on.members, ∃ cap rest, find (member m.kind.key '[') on.chars = some cap ∧
    cap.rest = m.list.chars ++ ']' :: rest
  absent : ∀ kind, (∀ m ∈ on.members, m.kind ≠ kind) → find (member kind.key '[') on.chars = none

variable {u : Unicode}

/-! ## Strings -/

theorem quotedStrings_skip {t l : List Char} (ht : ∀ c ∈ t, isQuote c = false) :
    quotedStrings (t ++ l) = quotedStrings l := by
  have hpasses : Passes quotedString t l := Pattern.passes_of_head fun c hc l => if_neg (by simp [ht c hc])
  unfold quotedStrings
  rw [Pattern.findAll_eq solid_quotedString, Pattern.findAll_eq solid_quotedString, Pattern.find_append hpasses]
  cases find quotedString l with
  | none => rfl
  | some cap =>
    simp only [Option.map_some, List.map_cons, List.map_map]
    rfl

theorem isQuote_of_space {c : Char} (h : isSpace c = true) : isQuote c = false := by
  cases hquote : isQuote c with
  | false => rfl
  | true =>
    rcases eq_of_isQuote hquote with rfl | rfl <;> exact absurd h (by decide)

theorem Blank.unquoted {t : List Char} (h : Blank t) : ∀ c ∈ t, isQuote c = false :=
  fun c hc => isQuote_of_space (h c hc)

theorem PaddedString.Plain.quotedStrings {s : PaddedString} (h : s.Plain) (l : List Char) :
    quotedStrings (s.chars ++ l) = s.value :: Dsl.quotedStrings l := by
  have hchars : s.chars ++ l = s.lead ++ (s.lit.chars ++ (s.trail ++ l)) := by
    simp [PaddedString.chars]
  rw [hchars, quotedStrings_append h.lead.unquoted h.lit, quotedStrings_skip h.trail.unquoted]
  rfl

/-- The strings between the commas. -/
theorem quotedStrings_commaSeparated {fields : List PaddedString} {last : Option (List Char)}
    (hfields : ∀ s ∈ fields, s.Plain) (hlast : ∀ t ∈ last, Blank t) {l : List Char} (hl : ∀ c ∈ l, isQuote c = false) :
    quotedStrings (commaSeparated (fields.map PaddedString.chars ++ last.toList) ++ l) = fields.map PaddedString.value := by
  induction fields with
  | nil =>
    cases last with
    | none => exact quotedStrings_eq_nil hl
    | some t =>
      refine quotedStrings_eq_nil fun c hc => ?_
      simp only [commaSeparated, List.map_nil, Option.toList_some, List.nil_append, List.intercalate,
        List.intersperse_singleton, List.flatten_cons, List.flatten_nil, List.append_nil, List.mem_append] at hc
      rcases hc with hc | hc
      · exact (hlast t rfl).unquoted c hc
      · exact hl c hc
  | cons s fields ih =>
    have hs := hfields s List.mem_cons_self
    have hrest := ih fun s hs => hfields s (List.mem_cons_of_mem _ hs)
    cases hmore : fields.map PaddedString.chars ++ last.toList with
    | nil =>
      have hnil : fields = [] := List.map_eq_nil_iff.1 (List.append_eq_nil_iff.1 hmore).1
      rw [List.map_cons, List.cons_append, hmore, hnil]
      have hone : commaSeparated [s.chars] = s.chars := by simp [commaSeparated]
      rw [hone, hs.quotedStrings, quotedStrings_eq_nil hl]
      rfl
    | cons t more =>
      rw [hmore] at hrest
      have hcomma : ∀ c ∈ [','], isQuote c = false := by simp [isQuote]
      have hskip : quotedStrings (',' :: (commaSeparated (t :: more) ++ l)) =
          quotedStrings (commaSeparated (t :: more) ++ l) := quotedStrings_skip hcomma
      rw [List.map_cons, List.cons_append, hmore, commaSeparated_cons_cons, List.append_assoc, hs.quotedStrings,
        List.cons_append, hskip, hrest]
      rfl

/-! ## Scans over what is written -/

/-- The punctuation of a schema. -/
def isMark (c : Char) : Bool :=
  c ∈ ['\'', '"', '`', '(', ')', '[', ']', '{', '}', ',', '.', ':']

theorem mark_of_space {c : Char} (h : isSpace c = true) : isMark c = false := by
  cases hmark : isMark c with
  | false => rfl
  | true =>
    have hall : ∀ c ∈ ['\'', '"', '`', '(', ')', '[', ']', '{', '}', ',', '.', ':'], isSpace c = false :=
      forall_of_all (by decide)
    rw [hall c (of_decide_eq_true hmark)] at h
    cases h

theorem mark_of_word (hu : u.Lawful) {c : Char} (h : u.isWord c = true) : isMark c = false := by
  cases hmark : isMark c with
  | false => rfl
  | true =>
    have hall : ∀ c ∈ ['\'', '"', '`', '(', ')', '[', ']', '{', '}', ',', '.', ':'],
        c.toNat < 128 ∧ (c.isAlphanum || decide (c = '_')) = false := forall_of_all (by decide)
    obtain ⟨hascii, hnot⟩ := hall c (of_decide_eq_true hmark)
    rw [hu.ascii c hascii, hnot] at h
    cases h

theorem ne_of_mark {c d : Char} (h : isMark c = false) (hd : isMark d = true) : c ≠ d := by
  rintro rfl
  rw [h] at hd
  cases hd

theorem ne_of_isSyntax {c d : Char} (h : isSyntax c = false) (hd : isSyntax d = true) : c ≠ d := by
  rintro rfl
  rw [h] at hd
  cases hd

/-- Text that no scan takes for syntax. -/
def Mute (t : List Char) : Prop :=
  ∀ c ∈ t, isMark c = false

theorem Blank.mute {t : List Char} (h : Blank t) : Mute t :=
  fun c hc => mark_of_space (h c hc)

theorem IsName.mute (hu : u.Lawful) {t : List Char} (h : IsName u t) : Mute t :=
  fun c hc => mark_of_word hu (h.word c hc)

theorem mem_commaSeparated {entries : List (List Char)} {c : Char} (h : c ∈ commaSeparated entries) :
    c = ',' ∨ ∃ t ∈ entries, c ∈ t := by
  induction entries with
  | nil => cases h
  | cons t entries ih =>
    cases entries with
    | nil => exact .inr ⟨t, List.mem_cons_self, by simpa [commaSeparated] using h⟩
    | cons t' entries =>
      rw [commaSeparated_cons_cons] at h
      rcases List.mem_append.1 h with ht | hrest
      · exact .inr ⟨t, List.mem_cons_self, ht⟩
      · rcases List.mem_cons.1 hrest with rfl | hmem
        · exact .inl rfl
        · rcases ih hmem with rfl | ⟨s, hs, hc⟩
          · exact .inl rfl
          · exact .inr ⟨s, List.mem_cons_of_mem _ hs, hc⟩

/-- The scans for brackets and commas that a list of events goes through, at a depth of brackets. -/
structure Passable (depth : Nat) (t : List Char) : Prop where
  squares : ∀ n, Walks bareSquares (n + 1) t (n + 1)
  braces : Walks braces 1 t 1
  commas : Skips depth t depth

theorem Passable.append {depth : Nat} {t t' : List Char} (h : Passable depth t) (h' : Passable depth t') :
    Passable depth (t ++ t') where
  squares n := (h.squares n).append (h'.squares n)
  braces := h.braces.append h'.braces
  commas := h.commas.append h'.commas

theorem passable_nil {depth : Nat} : Passable depth [] :=
  ⟨fun _ => .nil, .nil, .nil⟩

/-- Text without quotes and brackets, and without commas outside brackets. -/
theorem passable_of_plain {depth : Nat} {t : List Char}
    (h : ∀ c ∈ t, c ∉ ['\'', '"', '`', '(', ')', '[', ']', '{', '}'] ∧ (c = ',' → depth ≠ 0)) : Passable depth t := by
  have hplain : ∀ c ∈ t, c ≠ '\'' ∧ c ≠ '"' ∧ c ≠ '`' ∧ c ≠ '(' ∧ c ≠ ')' ∧ c ≠ '[' ∧ c ≠ ']' ∧ c ≠ '{' ∧ c ≠ '}' := by
    intro c hc
    simpa using (h c hc).1
  constructor
  · intro n
    refine walks_of_plain fun c hc => ?_
    obtain ⟨-, -, -, -, -, hopening, hclosing, -⟩ := hplain c hc
    exact ⟨hopening, hclosing, List.not_mem_nil⟩
  · refine walks_of_plain fun c hc => ?_
    obtain ⟨hsingle, hdouble, hback, -, -, -, -, hopening, hclosing⟩ := hplain c hc
    refine ⟨hopening, hclosing, ?_⟩
    simp only [braces, List.mem_cons, List.not_mem_nil, or_false, not_or]
    exact ⟨hsingle, hdouble, hback⟩
  · refine skips_of_plain fun c hc => ⟨?_, (h c hc).2⟩
    obtain ⟨-, -, -, hparen, hparen', hsquare, hsquare', hbrace, hbrace'⟩ := hplain c hc
    simp [isSeparator, hparen, hparen', hsquare, hsquare', hbrace, hbrace']

theorem Mute.passable {depth : Nat} {t : List Char} (h : Mute t) : Passable depth t := by
  refine passable_of_plain fun c hc => ⟨fun hmem => ?_, fun hcomma => ?_⟩
  · have hall : ∀ c ∈ ['\'', '"', '`', '(', ')', '[', ']', '{', '}'], isMark c = true :=
      forall_of_all (by decide)
    exact ne_of_mark (h c hc) (hall c hmem) rfl
  · exact absurd hcomma (ne_of_mark (h c hc) (by decide))

theorem StringLit.Plain.passable {s : StringLit} (h : s.Plain) (n : Nat) : Passable (n + 1) s.chars := by
  have hmem : ∀ c ∈ s.chars, c = s.quote ∨ c ∈ s.text := by
    intro c hc
    simp only [StringLit.chars, List.mem_cons, List.mem_append, List.not_mem_nil, or_false] at hc
    tauto
  have hplain : ∀ c ∈ s.chars, c ≠ '(' ∧ c ≠ ')' ∧ c ≠ '[' ∧ c ≠ ']' ∧ c ≠ '{' ∧ c ≠ '}' := by
    intro c hc
    rcases hmem c hc with rfl | htext
    · rcases eq_of_isQuote h.quote with hquote | hquote <;> rw [hquote] <;> decide
    · have hne : ∀ d, isSyntax d = true → c ≠ d := fun d => ne_of_isSyntax (h.text c htext)
      exact ⟨hne _ rfl, hne _ rfl, hne _ rfl, hne _ rfl, hne _ rfl, hne _ rfl⟩
  constructor
  · intro n
    refine walks_of_plain fun c hc => ?_
    obtain ⟨-, -, hopening, hclosing, -⟩ := hplain c hc
    exact ⟨hopening, hclosing, List.not_mem_nil⟩
  · have hquotes : s.quote ∈ braces.quotes ∧ s.quote ≠ '\x7b' ∧ s.quote ≠ '\x7d' := by
      rcases eq_of_isQuote h.quote with hquote | hquote <;> rw [hquote] <;> decide
    refine walks_string hquotes.1 hquotes.2.1 hquotes.2.2 fun c hc => ⟨?_, ne_of_isSyntax (h.text c hc) rfl⟩
    rcases eq_of_isQuote h.quote with hquote | hquote <;> rw [hquote] <;> exact ne_of_isSyntax (h.text c hc) rfl
  · refine skips_of_plain fun c hc => ⟨?_, fun _ => Nat.succ_ne_zero n⟩
    obtain ⟨hparen, hparen', hsquare, hsquare', hbrace, hbrace'⟩ := hplain c hc
    simp [isSeparator, hparen, hparen', hsquare, hsquare', hbrace, hbrace']

theorem passable_comma (n : Nat) : Passable (n + 1) [','] :=
  passable_of_plain fun c hc => by
    rw [List.mem_singleton.1 hc]
    exact ⟨by decide, fun _ => Nat.succ_ne_zero n⟩

theorem passable_commaSeparated {n : Nat} {entries : List (List Char)} (h : ∀ t ∈ entries, Passable (n + 1) t) :
    Passable (n + 1) (commaSeparated entries) := by
  induction entries with
  | nil => exact passable_nil
  | cons t entries ih =>
    have ht := h t List.mem_cons_self
    cases entries with
    | nil =>
      have hone : commaSeparated [t] = t := by simp [commaSeparated]
      rw [hone]
      exact ht
    | cons t' entries =>
      have hrest := ih fun t ht => h t (List.mem_cons_of_mem _ ht)
      rw [commaSeparated_cons_cons, ← List.singleton_append]
      exact ht.append ((passable_comma n).append hrest)

/-- Text between parentheses, or between square brackets. -/
theorem passable_parens {depth : Nat} {t : List Char} (h : Passable (depth + 1) t) :
    Passable depth (['('] ++ (t ++ [')'])) where
  squares n := by
    have hplain : ∀ c, c = '(' ∨ c = ')' → Walks bareSquares (n + 1) [c] (n + 1) := by
      intro c hc
      refine walks_of_plain fun d hd => ?_
      rw [List.mem_singleton.1 hd]
      rcases hc with rfl | rfl <;> decide
    exact (hplain _ (.inl rfl)).append ((h.squares n).append (hplain _ (.inr rfl)))
  braces := by
    have hplain : ∀ c, c = '(' ∨ c = ')' → Walks Dsl.braces 1 [c] 1 := by
      intro c hc
      refine walks_of_plain fun d hd => ?_
      rw [List.mem_singleton.1 hd]
      rcases hc with rfl | rfl <;> decide
    exact (hplain _ (.inl rfl)).append (h.braces.append (hplain _ (.inr rfl)))
  commas := (skips_opening (.inl rfl)).append (h.commas.append (skips_closing (.inl rfl)))

theorem passable_squares {depth : Nat} {t : List Char} (h : Passable (depth + 1) t) :
    Passable depth (['['] ++ (t ++ [']'])) where
  squares n := by
    have hopening : Walks bareSquares (n + 1) ['['] (n + 1 + 1) := walks_opening
    have hclosing : Walks bareSquares (n + 1 + 1) [']'] (n + 1) := walks_closing (by decide) (Nat.succ_pos n)
    exact hopening.append ((h.squares (n + 1)).append hclosing)
  braces := by
    have hplain : ∀ c, c = '[' ∨ c = ']' → Walks Dsl.braces 1 [c] 1 := by
      intro c hc
      refine walks_of_plain fun d hd => ?_
      rw [List.mem_singleton.1 hd]
      rcases hc with rfl | rfl <;> decide
    exact (hplain _ (.inl rfl)).append (h.braces.append (hplain _ (.inr rfl)))
  commas := (skips_opening (.inr (.inl rfl))).append (h.commas.append (skips_closing (.inr (.inl rfl))))

theorem PaddedString.Plain.passable {s : PaddedString} (h : s.Plain) (n : Nat) : Passable (n + 1) s.chars :=
  h.lead.mute.passable.append ((h.lit.passable n).append h.trail.mute.passable)

theorem passable_last {n : Nat} {last : Option (List Char)} (h : ∀ t ∈ last, Blank t) :
    ∀ t ∈ last.toList, Passable n t :=
  fun t ht => (h t (Option.mem_toList.1 ht)).mute.passable

theorem EventCondition.Plain.passable {condition : EventCondition} (h : condition.Plain) (n : Nat) :
    Passable (n + 1) condition.arguments := by
  cases condition with
  | whenChanged array lead trail fields last =>
    obtain ⟨hlead, htrail, hfields, hlast⟩ := h
    have hstrings : ∀ n, Passable (n + 1) (commaSeparated (fields.map PaddedString.chars ++ last.toList)) := by
      refine fun n => passable_commaSeparated fun t ht => ?_
      rcases List.mem_append.1 ht with ht | ht
      · obtain ⟨s, hs, rfl⟩ := List.mem_map.1 ht
        exact (hfields s hs).passable n
      · exact passable_last hlast t ht
    cases array with
    | false => exact hstrings n
    | true =>
      have harray := hlead.mute.passable.append ((passable_squares (hstrings (n + 1))).append htrail.mute.passable)
      simpa [EventCondition.arguments] using harray
  | when field lead literal trail =>
    obtain ⟨hfield, hlead, hliteral, htrail⟩ := h
    have hvalue : Passable (n + 1) literal.chars := by
      cases literal with
      | string s => exact hliteral.passable n
      | other text value =>
        refine passable_of_plain fun c hc => ⟨fun hmem => ?_, fun _ => Nat.succ_ne_zero n⟩
        have hall : ∀ c ∈ ['\'', '"', '`', '(', ')', '[', ']', '{', '}'], isSyntax c = true ∨ c = '`' :=
          forall_of_all (by decide)
        obtain ⟨hplain, hback⟩ := hliteral c hc
        exact (hall c hmem).elim (fun h => ne_of_isSyntax hplain h rfl) hback
    exact (hfield.passable n).append ((passable_comma n).append (hlead.mute.passable.append
      (hvalue.append htrail.mute.passable)))

theorem EventEntry.Plain.passable (hu : u.Lawful) {e : EventEntry} (h : e.Plain u) : Passable 0 e.chars := by
  have hname : Passable 0 e.constant := (h.constant.mute hu).passable
  unfold EventEntry.chars
  cases hcondition : e.condition with
  | none =>
    rw [List.append_nil]
    exact hname
  | some call =>
    obtain ⟨gaps, condition⟩ := call
    obtain ⟨hbefore, hafter, hparen, hplain⟩ := h.condition _ hcondition
    have hdot : Passable 0 ['.'] := passable_of_plain (forall_of_all (by decide))
    have hmethod : Passable 0 condition.method.toList := by
      cases condition
      · exact @passable_of_plain 0 "whenChanged".toList (forall_of_all (by decide))
      · exact @passable_of_plain 0 "when".toList (forall_of_all (by decide))
    dsimp only
    unfold EventEntry.call
    rw [hafter, List.nil_append]
    exact hname.append (hbefore.mute.passable.append (hdot.append (hmethod.append (hparen.mute.passable.append
      (passable_parens (hplain.passable 0))))))

theorem EventList.Plain.passable (hu : u.Lawful) {l : EventList} (h : l.Plain u) :
    ∀ t ∈ l.entries.map PaddedEntry.chars ++ l.last.toList, Passable 0 t := by
  intro t ht
  rcases List.mem_append.1 ht with ht | ht
  · obtain ⟨e, he, rfl⟩ := List.mem_map.1 ht
    obtain ⟨hlead, hentry, htrail⟩ := h.entries e he
    exact hlead.mute.passable.append ((hentry.passable hu).append htrail.mute.passable)
  · exact passable_last h.last t ht

/-! ## The binding of an entry -/

/-- The arguments of a condition, as the parser cuts them. -/
def argumentItems : List (Item Char) :=
  [.group (.many (· ≠ ')')), mark ')']

theorem mem_arguments {condition : EventCondition} (h : condition.Plain) {c : Char} (hc : c ∈ condition.arguments) :
    c ≠ '(' ∧ c ≠ ')' := by
  have hblank : ∀ t, Blank t → c ∈ t → c ≠ '(' ∧ c ≠ ')' := fun t ht hmem =>
    ⟨ne_of_mark (ht.mute c hmem) rfl, ne_of_mark (ht.mute c hmem) rfl⟩
  have hlit : ∀ s : StringLit, s.Plain → c ∈ s.chars → c ≠ '(' ∧ c ≠ ')' := by
    intro s hs hmem
    simp only [StringLit.chars, List.mem_cons, List.mem_append, List.not_mem_nil, or_false] at hmem
    rcases hmem with rfl | htext | rfl
    · rcases eq_of_isQuote hs.quote with hquote | hquote <;> rw [hquote] <;> decide
    · exact ⟨ne_of_isSyntax (hs.text c htext) rfl, ne_of_isSyntax (hs.text c htext) rfl⟩
    · rcases eq_of_isQuote hs.quote with hquote | hquote <;> rw [hquote] <;> decide
  have hstring : ∀ s : PaddedString, s.Plain → c ∈ s.chars → c ≠ '(' ∧ c ≠ ')' := by
    intro s hs hmem
    rcases List.mem_append.1 hmem with hmem | hmem
    · exact hblank _ hs.lead hmem
    · rcases List.mem_append.1 hmem with hmem | hmem
      · exact hlit _ hs.lit hmem
      · exact hblank _ hs.trail hmem
  cases condition with
  | whenChanged array lead trail fields last =>
    obtain ⟨hlead, htrail, hfields, hlast⟩ := h
    have hstrings : c ∈ commaSeparated (fields.map PaddedString.chars ++ last.toList) → c ≠ '(' ∧ c ≠ ')' := by
      intro hmem
      rcases mem_commaSeparated hmem with rfl | ⟨t, ht, hmem⟩
      · decide
      · rcases List.mem_append.1 ht with ht | ht
        · obtain ⟨s, hs, rfl⟩ := List.mem_map.1 ht
          exact hstring s (hfields s hs) hmem
        · exact hblank t (hlast t (Option.mem_toList.1 ht)) hmem
    cases array with
    | false => exact hstrings hc
    | true =>
      simp only [EventCondition.arguments, if_true, List.mem_append, List.mem_singleton] at hc
      rcases hc with hmem | rfl | hmem | rfl | hmem
      · exact hblank _ hlead hmem
      · decide
      · exact hstrings hmem
      · decide
      · exact hblank _ htrail hmem
  | when field lead literal trail =>
    obtain ⟨hfield, hlead, hliteral, htrail⟩ := h
    simp only [EventCondition.arguments, List.mem_append, List.mem_singleton] at hc
    rcases hc with hmem | rfl | hmem | hmem | hmem
    · exact hstring _ hfield hmem
    · decide
    · exact hblank _ hlead hmem
    · cases literal with
      | string s => exact hlit s hliteral hmem
      | other text value => exact ⟨ne_of_isSyntax (hliteral c hmem).1 rfl, ne_of_isSyntax (hliteral c hmem).1 rfl⟩
    · exact hblank _ htrail hmem

/-- Text without a dot, before a call. -/
theorem passes_mute {method : String} {more : List (Item Char)} {t l : List Char} (h : ∀ c ∈ t, c ≠ '.') :
    Passes (call method ++ more) t l :=
  Pattern.passes_of_head fun c hc l => by
    have hlit : Scan.lit ['.'] (c :: l) = none := Scan.lit_cons_of_ne (h c hc).symm
    have htake : (mark '.').piece.take (c :: l) = (Scan.lit ['.'] (c :: l)).map fun r => (['.'], r) := rfl
    rw [htake, hlit, Option.map_none]

/-- The call of an entry, as its pattern reads it. -/
theorem find_call {constant : List Char} {gaps : CallGaps} {condition : EventCondition}
    (hconstant : ∀ c ∈ constant, c ≠ '.') (hbefore : Blank gaps.beforeDot) (hafter : gaps.afterDot = []) (hparen : Blank gaps.beforeParen)
    (hplain : condition.Plain) :
    ∃ cap, find (call condition.method ++ argumentItems) (constant ++ EventEntry.call gaps condition) = some cap ∧
      cap.group 1 = condition.arguments := by
  have hclose : Reads [mark ')'] ([')'] ++ []) [] [] := .cons (Pattern.take_lit _ _) .nil
  have hmany : (Pattern.Piece.many fun c => decide (c ≠ ')')).take (condition.arguments ++ ([')'] ++ [] ++ [])) =
      some (condition.arguments, [')'] ++ [] ++ []) := by
    refine Pattern.take_many (fun c hc => decide_eq_true (mem_arguments hplain hc).2) fun c hc => ?_
    cases hc
    decide
  have hargs : Reads argumentItems (condition.arguments ++ ([')'] ++ [])) [condition.arguments] [] := .cons hmany hclose
  have hreads := (reads_call condition.method hparen hargs).matchAt_eq
  have hpasses : Passes (call condition.method ++ argumentItems) (constant ++ gaps.beforeDot)
      (['.'] ++ (condition.method.toList ++ (gaps.beforeParen ++
        (['('] ++ (condition.arguments ++ ([')'] ++ []))))) ++ []) := by
    refine passes_mute fun c hc => ?_
    rcases List.mem_append.1 hc with hc | hc
    · exact hconstant c hc
    · exact ne_of_mark (hbefore.mute c hc) rfl
  have hfind := Pattern.find_append hpasses
  rw [Pattern.find_of_matchAt hreads] at hfind
  have hchars : constant ++ EventEntry.call gaps condition = constant ++ gaps.beforeDot ++
      (['.'] ++ (condition.method.toList ++ (gaps.beforeParen ++
        (['('] ++ (condition.arguments ++ ([')'] ++ []))))) ++ []) := by
    unfold EventEntry.call
    rw [hafter]
    simp
  rw [hchars]
  exact ⟨_, hfind, rfl⟩

theorem find_whenChanged_eq_none {constant : List Char} (hconstant : ∀ c ∈ constant, c ≠ '.') :
    find (call "whenChanged" ++ argumentItems) constant = none ∧ find (call "when" ++ argumentItems) constant = none :=
  ⟨Pattern.find_eq_none (passes_mute hconstant) rfl, Pattern.find_eq_none (passes_mute hconstant) rfl⟩

/-- An entry with `when` has no `whenChanged`, whatever its strings say. -/
theorem find_whenChanged_of_when {constant : List Char} {gaps : CallGaps} {field : PaddedString} {lead : List Char}
    {literal : Literal} {trail : List Char} (hconstant : ∀ c ∈ constant, c ≠ '.') (hbefore : Blank gaps.beforeDot)
    (hafter : gaps.afterDot = []) (hparen : Blank gaps.beforeParen)
    (hplain : (EventCondition.when field lead literal trail).Plain) :
    find (call "whenChanged" ++ argumentItems)
      (constant ++ EventEntry.call gaps (.when field lead literal trail)) = none := by
  have hchars : constant ++ EventEntry.call gaps (.when field lead literal trail) =
      (constant ++ gaps.beforeDot) ++ (['.'] ++ (("when".toList ++ gaps.beforeParen ++ ['(']) ++
        ((EventCondition.when field lead literal trail).arguments ++ [')']))) := by
    unfold EventEntry.call
    rw [hafter]
    simp [EventCondition.method]
  rw [hchars]
  refine Pattern.find_eq_none ?_ rfl
  have hdots : ∀ c ∈ constant ++ gaps.beforeDot, c ≠ '.' := by
    intro c hc
    rcases List.mem_append.1 hc with hc | hc
    · exact hconstant c hc
    · exact ne_of_mark (hbefore.mute c hc) rfl
  have hcall : ∀ c ∈ "when".toList ++ gaps.beforeParen ++ ['('], c ≠ '.' := by
    intro c hc
    simp only [List.mem_append, List.mem_singleton] at hc
    rcases hc with (hc | hc) | rfl
    · exact (show ∀ c ∈ "when".toList, c ≠ '.' from forall_of_all (by decide)) c hc
    · exact ne_of_mark (hparen.mute c hc) rfl
    · decide
  refine Pattern.passes_append.2 ⟨passes_mute hdots, Pattern.passes_append.2 ⟨⟨?_, trivial⟩,
    Pattern.passes_append.2 ⟨passes_mute hcall, Pattern.passes_append.2 ⟨?_, passes_mute (forall_of_all (by decide))⟩⟩⟩⟩
  · cases hmatch : matchAt (call "whenChanged" ++ argumentItems) _ with
    | none => rfl
    | some m =>
      -- behind `when` stands white space or the parenthesis
      obtain ⟨w, r, -, hl⟩ := call_of_matchAt hmatch
      have hsplit : "whenChanged".toList = "when".toList ++ ['C', 'h', 'a', 'n', 'g', 'e', 'd'] := by decide
      rw [hsplit] at hl
      simp only [List.nil_append, List.append_assoc, List.cons_append, List.cons.injEq, true_and,
        List.append_cancel_left_eq] at hl
      cases hgap : gaps.beforeParen with
      | nil =>
        rw [hgap] at hl
        cases hl
      | cons c gap =>
        rw [hgap] at hl hparen
        obtain ⟨rfl, -⟩ := List.cons.inj hl
        exact absurd (hparen _ List.mem_cons_self) (by decide)
  · exact passes_call (fun hmem => (mem_arguments hplain hmem).1 rfl) (by decide) (by decide) (by decide) (by decide)

theorem quotedStrings_whenChanged {array : Bool} {lead trail : List Char} {fields : List PaddedString}
    {last : Option (List Char)} (hlead : Blank lead) (htrail : Blank trail) (hfields : ∀ s ∈ fields, s.Plain)
    (hlast : ∀ t ∈ last, Blank t) :
    quotedStrings (EventCondition.whenChanged array lead trail fields last).arguments = fields.map PaddedString.value := by
  cases array with
  | false =>
    have hstrings := quotedStrings_commaSeparated hfields hlast (l := []) (by simp)
    rwa [List.append_nil] at hstrings
  | true =>
    have hclose : ∀ c ∈ [']'] ++ trail, isQuote c = false := by
      intro c hc
      rcases List.mem_append.1 hc with hc | hc
      · rw [List.mem_singleton.1 hc]
        decide
      · exact htrail.unquoted c hc
    dsimp only [EventCondition.arguments]
    rw [if_pos rfl, quotedStrings_skip hlead.unquoted, quotedStrings_skip (forall_of_all (by decide)),
      quotedStrings_commaSeparated hfields hlast hclose]

section When

variable {field : PaddedString} {lead trail : List Char} (hfield : field.Plain) (hlead : Blank lead) (htrail : Blank trail)

include hfield hlead htrail

theorem quotedStrings_when_string {s : StringLit} (hs : s.Plain) :
    quotedStrings (EventCondition.when field lead (.string s) trail).arguments = [field.value, .ofList s.text] := by
  dsimp only [EventCondition.arguments, Literal.chars]
  rw [hfield.quotedStrings, quotedStrings_skip (forall_of_all (by decide)), quotedStrings_append hlead.unquoted hs,
    quotedStrings_eq_nil htrail.unquoted]

theorem quotedStrings_when_other {text : List Char} {value : Json} (htext : ∀ c ∈ text, isSyntax c = false ∧ c ≠ '`') :
    quotedStrings (EventCondition.when field lead (.other text value) trail).arguments = [field.value] := by
  have hunquoted : ∀ c ∈ lead ++ (text ++ trail), isQuote c = false := by
    intro c hc
    simp only [List.mem_append] at hc
    rcases hc with hc | hc | hc
    · exact hlead.unquoted c hc
    · exact isQuote_of_isSyntax (htext c hc).1
    · exact htrail.unquoted c hc
  dsimp only [EventCondition.arguments, Literal.chars]
  rw [hfield.quotedStrings, quotedStrings_skip (forall_of_all (by decide)), quotedStrings_eq_nil hunquoted]

end When

/-- The condition of an entry. -/
theorem actionCondition_eq (hu : u.Lawful) {e : EventEntry} (h : e.Plain u) :
    actionCondition e.chars = e.binding.condition := by
  have hconstant : ∀ c ∈ e.constant, c ≠ '.' := fun c hc => ne_of_mark (h.constant.mute hu c hc) rfl
  unfold actionCondition EventEntry.chars EventEntry.binding
  cases hcondition : e.condition with
  | none =>
    obtain ⟨hchanged, hwhen⟩ := find_whenChanged_eq_none hconstant
    dsimp only [argumentItems] at hchanged hwhen ⊢
    rw [List.append_nil, hchanged, hwhen]
    rfl
  | some call =>
    obtain ⟨gaps, condition⟩ := call
    obtain ⟨hbefore, hafter, hparen, hplain⟩ := h.condition _ hcondition
    obtain ⟨cap, hfind, hgroup⟩ := find_call hconstant hbefore hafter hparen hplain
    cases condition with
    | whenChanged array lead trail fields last =>
      dsimp only [EventCondition.method, argumentItems, Option.bind_some] at hfind ⊢
      rw [hfind]
      dsimp only
      rw [hgroup]
      obtain ⟨hlead, htrail, hfields, hlast⟩ := hplain
      rw [quotedStrings_whenChanged hlead htrail hfields hlast]
      simp only [EventCondition.read, List.map_eq_nil_iff]
    | when field lead literal trail =>
      have hnone := find_whenChanged_of_when hconstant hbefore hafter hparen hplain
      dsimp only [EventCondition.method, argumentItems, Option.bind_some] at hfind hnone ⊢
      rw [hnone, hfind]
      dsimp only [Option.bind_some]
      rw [hgroup]
      obtain ⟨hfield, hlead, hliteral, htrail⟩ := hplain
      cases literal with
      | string s =>
        rw [quotedStrings_when_string hfield hlead htrail hliteral]
        rfl
      | other text value =>
        rw [quotedStrings_when_other hfield hlead htrail hliteral]
        rfl

theorem getLast?_call (gaps : CallGaps) (condition : EventCondition) (constant : List Char) :
    (constant ++ EventEntry.call gaps condition).getLast? = some ')' := by
  have hchars : constant ++ EventEntry.call gaps condition = (constant ++ (gaps.beforeDot ++ (['.'] ++ (gaps.afterDot ++
      (condition.method.toList ++ (gaps.beforeParen ++ (['('] ++ condition.arguments))))))) ++ [')'] := by
    simp [EventEntry.call]
  rw [hchars, List.getLast?_concat]

/-- The parser makes one binding of an entry. -/
theorem eventBinding?_padded (hu : u.Lawful) {lead trail : List Char} {e : EventEntry} (hlead : Blank lead)
    (h : e.Plain u) (htrail : Blank trail) : eventBinding? u (lead ++ (e.chars ++ trail)) = some e.binding := by
  have hword : ∀ c, u.isWord c = true → isSpace c = false := by
    intro c hc
    cases hspace : isSpace c with
    | false => rfl
    | true =>
      rw [hu.blank c hspace] at hc
      cases hc
  obtain ⟨first, constant, hconstant⟩ := List.exists_cons_of_ne_nil h.constant.ne
  have hhead : ∀ c ∈ e.chars.head?, isSpace c = false := by
    intro c hc
    unfold EventEntry.chars at hc
    rw [hconstant] at hc
    cases hc
    exact hword _ (h.constant.word _ (by rw [hconstant]; exact List.mem_cons_self))
  have hlast : ∀ c ∈ e.chars.getLast?, isSpace c = false := by
    intro c hc
    unfold EventEntry.chars at hc
    cases hcondition : e.condition with
    | none =>
      rw [hcondition, List.append_nil] at hc
      exact hword c (h.constant.word c (List.mem_of_getLast? hc))
    | some call =>
      rw [hcondition, getLast?_call] at hc
      cases hc
      decide
  obtain ⟨rest, hchars, hrest⟩ : ∃ rest, e.chars = e.constant ++ rest ∧ ∀ c ∈ rest.head?, u.isWord c = false := by
    refine ⟨_, rfl, fun c hc => ?_⟩
    cases hcondition : e.condition with
    | none =>
      rw [hcondition] at hc
      cases hc
    | some call =>
      obtain ⟨gaps, condition⟩ := call
      obtain ⟨hbefore, -⟩ := h.condition _ hcondition
      rw [hcondition] at hc
      dsimp only [EventEntry.call] at hc
      cases hgap : gaps.beforeDot with
      | nil =>
        rw [hgap] at hc
        cases hc
        rw [hu.ascii _ (by decide)]
        decide
      | cons d gap =>
        rw [hgap] at hc
        cases hc
        exact hu.blank _ (hbefore _ (by rw [hgap]; exact List.mem_cons_self))
  have hreads : Reads [word u] (e.constant ++ []) [e.constant] rest :=
    .cons (Pattern.take_some h.constant.ne h.constant.word hrest) .nil
  have hmatch := hreads.matchAt_eq
  rw [List.append_nil, ← hchars] at hmatch
  unfold eventBinding?
  rw [trim_padded hlead htrail hhead hlast, hmatch]
  have hreserved : String.ofList (Match.group ⟨[], e.constant, [e.constant], rest⟩ 1) ∉
      ["true", "false", "null", "undefined"] := h.reserved
  rw [Option.bind_some, if_neg hreserved, actionCondition_eq hu h]
  rfl

/-! ## The bindings of a block -/

theorem walks_commaSeparated {br : Brackets} {depth : Nat} (hcomma : Walks br depth [','] depth)
    {entries : List (List Char)} (h : ∀ t ∈ entries, Walks br depth t depth) :
    Walks br depth (commaSeparated entries) depth := by
  induction entries with
  | nil => exact .nil
  | cons t entries ih =>
    have ht := h t List.mem_cons_self
    cases entries with
    | nil =>
      have hone : commaSeparated [t] = t := by simp [commaSeparated]
      rw [hone]
      exact ht
    | cons t' entries =>
      rw [commaSeparated_cons_cons, ← List.singleton_append]
      exact ht.append (hcomma.append (ih fun t ht => h t (List.mem_cons_of_mem _ ht)))

theorem EventList.Plain.squares (hu : u.Lawful) {l : EventList} (h : l.Plain u) : Walks bareSquares 1 l.chars 1 :=
  walks_commaSeparated (walks_of_plain (forall_of_all (by decide))) fun t ht => (h.passable hu t ht).squares 0

theorem EventList.Plain.braces (hu : u.Lawful) {l : EventList} (h : l.Plain u) : Walks Dsl.braces 1 l.chars 1 :=
  walks_commaSeparated (walks_of_plain (forall_of_all (by decide))) fun t ht => (h.passable hu t ht).braces

/-- The bindings of the entries between the brackets of a list. -/
theorem eventBindings_list (hu : u.Lawful) {l : EventList} (h : l.Plain u) :
    (commaEntries 0 l.chars).filterMap (eventBinding? u) = l.entries.map fun e => e.entry.binding := by
  have hblank : ∀ t, Blank t → eventBinding? u t = none := by
    intro t ht
    have hnil : Blank [] := by simp [Blank]
    have htrim : trim (t ++ ([] ++ [])) = [] := trim_padded ht hnil (by simp) (by simp)
    rw [List.append_nil, List.append_nil] at htrim
    unfold eventBinding?
    rw [htrim]
    rfl
  have hentries : ∀ entries : List PaddedEntry,
      (∀ e ∈ entries, Blank e.lead ∧ e.entry.Plain u ∧ Blank e.trail) →
      (entries.map PaddedEntry.chars).filterMap (eventBinding? u) = entries.map fun e => e.entry.binding := by
    intro entries hall
    induction entries with
    | nil => rfl
    | cons e entries ih =>
      obtain ⟨hlead, hentry, htrail⟩ := hall e List.mem_cons_self
      have hbinding : eventBinding? u e.chars = some e.entry.binding := eventBinding?_padded hu hlead hentry htrail
      rw [List.map_cons, List.filterMap_cons_some hbinding, ih fun e he => hall e (List.mem_cons_of_mem _ he),
        List.map_cons]
  have hlast : l.last.toList.filterMap (eventBinding? u) = [] := by
    cases hl : l.last with
    | none => rfl
    | some t => exact List.filterMap_cons_none (hblank t (h.last t hl))
  by_cases hne : l.entries.map PaddedEntry.chars ++ l.last.toList = []
  · obtain ⟨hnil, -⟩ := List.append_eq_nil_iff.1 hne
    unfold EventList.chars
    rw [hne, List.map_eq_nil_iff.1 hnil]
    exact List.filterMap_cons_none (hblank [] (by simp [Blank]))
  · unfold EventList.chars
    rw [commaEntries_commaSeparated hne fun t ht => (h.passable hu t ht).commas, List.filterMap_append,
      hentries l.entries h.entries, hlast, List.append_nil]

theorem OnBlock.Plain.walks (hu : u.Lawful) {on : OnBlock} (h : on.Plain u) : Walks braces 1 on.chars 1 := by
  refine walks_commaSeparated (walks_of_plain (forall_of_all (by decide))) fun t ht => ?_
  rcases List.mem_append.1 ht with ht | ht
  · obtain ⟨m, hm, rfl⟩ := List.mem_map.1 ht
    obtain ⟨hlead, hbefore, hafter, htrail, hlist⟩ := h.members m hm
    have hkey : Walks braces 1 m.kind.key.toList 1 := by
      cases m.kind
      · exact walks_of_plain (forall_of_all (by decide))
      · exact walks_of_plain (forall_of_all (by decide))
      · exact walks_of_plain (forall_of_all (by decide))
    have hone : ∀ c, c = ':' ∨ c = '[' ∨ c = ']' → Walks braces 1 [c] 1 := by
      rintro c (rfl | rfl | rfl) <;> exact walks_of_plain (forall_of_all (by decide))
    have hblank : ∀ {t}, Blank t → Walks braces 1 t 1 := fun ht => (@Mute.passable 0 _ ht.mute).braces
    exact (hblank hlead).append (hkey.append ((hblank hbefore).append ((hone _ (.inl rfl)).append ((hblank hafter).append
      ((hone _ (.inr (.inl rfl))).append ((hlist.braces hu).append ((hone _ (.inr (.inr rfl))).append (hblank htrail))))))))
  · exact (@Mute.passable 0 _ (h.last t (Option.mem_toList.1 ht)).mute).braces

/-- The bindings of a kind are those of its entries. -/
theorem parseEventList_eq (hu : u.Lawful) {on : OnBlock} (h : on.Plain u) (kind : EventKind) :
    parseEventList u on.chars kind.key = some ((on.entries kind).map EventEntry.binding) := by
  unfold parseEventList OnBlock.entries
  cases hmember : on.members.find? (fun m => decide (m.kind = kind)) with
  | none =>
    have habsent : ∀ m ∈ on.members, m.kind ≠ kind := by
      intro m hm
      simpa using List.find?_eq_none.1 hmember m hm
    rw [h.absent kind habsent]
    rfl
  | some m =>
    have hm := List.mem_of_find?_eq_some hmember
    have hkind : m.kind = kind := by simpa using List.find?_some hmember
    subst hkind
    obtain ⟨cap, rest, hfind, hrest⟩ := h.first m hm
    obtain ⟨-, -, -, -, hlist⟩ := h.members m hm
    obtain ⟨ht, hne⟩ := Pattern.search_spec hfind
    have hclosed := (hlist.squares hu).closed (by decide) rest
    rw [hfind]
    dsimp only
    rw [bodyTo_endOf ht bareSquares (hne (solid_member _ _)), hrest]
    have hclosing : bareSquares.closing = ']' := rfl
    rw [hclosing] at hclosed
    rw [hclosed]
    simp only [Ending.cut, Option.map_some, Option.bind_eq_bind, Option.bind_some, splitTopLevelCommas_eq]
    rw [eventBindings_list hu hlist]
    simp only [Option.getD_some, List.map_map, Function.comp_def]

/-- The bindings of a kind among those of a model. -/
def bindingsOf (events : ModelEvents) : EventKind → List EventActionBinding
  | .created => events.created
  | .updated => events.updated
  | .deleted => events.deleted

/-- The events of a model whose options have their first `on: {` before the text of the block. -/
theorem parseOnBlock_eq (hu : u.Lawful) {on : OnBlock} (h : on.Plain u) {body rest : List Char} {cap : Match Char}
    (hcap : searchWord u (member "on" '\x7b') body = some cap) (hrest : cap.rest = on.chars ++ '\x7d' :: rest) :
    ∃ events, parseOnBlock u body = some events ∧
      ∀ kind, bindingsOf events kind = (on.entries kind).map EventEntry.binding := by
  have hclosed : ending braces 1 none false (on.chars ++ '\x7d' :: rest) = .closed on.chars rest :=
    (h.walks hu).closed (by decide) rest
  unfold parseOnBlock balancedBraceBody
  rw [hcap]
  dsimp only
  rw [balancedBody_endOf (Pattern.search_spec hcap).1, block, Option.bind_some, hrest, hclosed]
  simp only [Ending.body?, Option.bind_eq_bind, Option.bind_some]
  have hcreated := parseEventList_eq hu h .created
  have hupdated := parseEventList_eq hu h .updated
  have hdeleted := parseEventList_eq hu h .deleted
  dsimp only [EventKind.key] at hcreated hupdated hdeleted
  rw [hcreated, hupdated, hdeleted]
  refine ⟨_, rfl, fun kind => ?_⟩
  cases kind <;> rfl

/-! ## What the bindings stand for -/

section Source

variable (u) (content : List Char)

/-- The actions of a source under the constants that it exports them as. -/
def exportedActions : List (String × ActionDef) :=
  ((findAll (actionItems u) content).map fun cap => String.ofList (cap.group 1)).zip ((parseActionDefs u content).getD [])

/-- The action that the dispatcher is to enqueue for a constant: the schema holds it under the constant's own name. -/
def Registered (constant : String) : Prop :=
  ∃ action, (constant, action) ∈ exportedActions u content ∧
    ((((parseActionDefs u content).getD []).filter (·.name = constant)).getLast?.map
      (resolveAction (parseModelNames u content))) = some (resolveAction (parseModelNames u content) action)

/-- The binding is what the entry says: the action that its constant is exported as, under its condition. -/
structure Serves (schema : Atomo.Schema) (e : EventEntry) (b : EventActionBinding) : Prop where
  condition : b.condition = e.condition.map fun (_, condition) => condition.meaning
  action : ∃ action, (String.ofList e.constant, action) ∈ exportedActions u content ∧
    lookup? b.action schema.actions = some (resolveAction (parseModelNames u content) action) ∧
    ∀ ev newId, (Actions.actionJob schema ev b.action newId).kind = action.name ∧
      Actions.input schema ev b.action = action.buildInput ev.data

/-- One binding for each entry, in order, or else a warning that names its constant. -/
def Bound (schema : Atomo.Schema) (entries : List EventEntry) (bindings : List EventActionBinding) : Prop :=
  ∃ kept : List EventEntry, kept.Sublist entries ∧ List.Forall₂ (Serves u content schema) kept bindings ∧
    ∀ e ∈ entries, e ∉ kept → ∃ w ∈ schema.warnings, e.constant <:+: w.toList

end Source

theorem buildInput_resolveAction (tables : List (String × String)) (action : ActionDef) (doc : List (String × Json)) :
    (resolveAction tables action).buildInput doc = action.buildInput doc := by
  unfold resolveAction ActionDef.buildInput
  cases action.input <;> rfl

theorem read_eq_meaning (condition : EventCondition) :
    condition.read = some condition.meaning ↔ condition.Textual := by
  cases condition with
  | whenChanged array lead trail fields last =>
    by_cases hfields : fields = [] <;> simp [EventCondition.read, EventCondition.Textual, EventCondition.meaning, hfields]
  | when field lead literal trail =>
    cases literal <;> simp [EventCondition.read, EventCondition.Textual, EventCondition.meaning, Literal.value]

variable {content : List Char} {schema : Atomo.Schema}

/-- What the schema holds under a name. -/
theorem lookup?_actions (h : parseBuilderDsl u content = some schema) (name : String) :
    lookup? name schema.actions = (((parseActionDefs u content).getD []).filter (·.name = name)).getLast?.map
      (resolveAction (parseModelNames u content)) := by
  obtain ⟨actions, parsed, hparsed⟩ := parsed_of_parseBuilderDsl h
  have hlookup := lookup?_foldl_insert (fun action : ActionDef => action.name) (resolveAction (parseModelNames u content))
    actions name []
  rw [hparsed.actions, hlookup, hparsed.actionDefs, Option.getD_some]
  exact Option.or_none

theorem serves_iff (h : parseBuilderDsl u content = some schema) (e : EventEntry) :
    Serves u content schema e e.binding ↔
      (∀ gaps condition, e.condition = some (gaps, condition) → condition.Textual) ∧
        Registered u content (.ofList e.constant) := by
  have hlookup := lookup?_actions h (.ofList e.constant)
  constructor
  · rintro ⟨hcondition, action, hexported, haction, -⟩
    refine ⟨fun gaps condition heq => ?_, action, hexported, hlookup.symm.trans haction⟩
    dsimp only [EventEntry.binding] at hcondition
    rw [heq] at hcondition
    exact (read_eq_meaning condition).1 hcondition
  · rintro ⟨htextual, action, hexported, hlast⟩
    have haction := hlookup.trans hlast
    refine ⟨?_, action, hexported, haction, fun ev newId => ⟨?_, ?_⟩⟩
    · dsimp only [EventEntry.binding]
      cases heq : e.condition with
      | none => rfl
      | some call => exact (read_eq_meaning call.2).2 (htextual call.1 call.2 heq)
    · -- the definition found under the constant's name has that name
      obtain ⟨last, hget, hresolve⟩ := Option.map_eq_some_iff.1 hlast
      have hname : last.name = String.ofList e.constant :=
        of_decide_eq_true (List.mem_filter.1 (List.mem_of_getLast? hget)).2
      have hnames : (resolveAction (parseModelNames u content) last).name =
          (resolveAction (parseModelNames u content) action).name := by rw [hresolve]
      exact hname.symm.trans hnames
    · unfold Actions.input
      dsimp only [EventEntry.binding]
      rw [haction]
      exact buildInput_resolveAction _ _ _

/-- As many bindings as entries: none of them is left to a warning. -/
theorem bound_map_binding (h : parseBuilderDsl u content = some schema) (entries : List EventEntry) :
    Bound u content schema entries (entries.map EventEntry.binding) ↔
      ∀ e ∈ entries, (∀ gaps condition, e.condition = some (gaps, condition) → condition.Textual) ∧
        Registered u content (.ofList e.constant) := by
  have hall : List.Forall₂ (Serves u content schema) entries (entries.map EventEntry.binding) ↔
      ∀ e ∈ entries, Serves u content schema e e.binding := by
    rw [List.forall₂_map_right_iff, List.forall₂_same]
  simp only [← serves_iff h]
  rw [← hall]
  constructor
  · rintro ⟨kept, hsub, hserves, -⟩
    have hlen : kept.length = entries.length := by
      rw [hserves.length_eq, List.length_map]
    rwa [hsub.eq_of_length hlen] at hserves
  · exact fun hserves => ⟨entries, List.Sublist.refl _, hserves, fun e he hnot => absurd he hnot⟩

/-- The bindings of a model are those that its `on` block says just when every constant is registered under its own
name, and every condition compares fields or has a string for its literal. -/
theorem bindings_iff (hu : u.Lawful) (h : parseBuilderDsl u content = some schema) {name table : String}
    {body rest : List Char} (hblock : (name, table, body) ∈ modelBlocks u content)
    (honly : ∀ other ∈ modelBlocks u content, other.1 = name → other = (name, table, body)) {on : OnBlock}
    (hon : on.Plain u) {cap : Match Char} (hcap : searchWord u (member "on" '{') body = some cap)
    (hrest : cap.rest = on.chars ++ '}' :: rest) :
    (∃ model, lookup? name schema.models = some model ∧
        ∀ kind, Bound u content schema (on.entries kind) (bindingsOf model.events kind)) ↔
      ∀ kind, ∀ e ∈ on.entries kind,
        (∀ gaps condition, e.condition = some (gaps, condition) → condition.Textual) ∧
          Registered u content (.ofList e.constant) := by
  obtain ⟨model, warnings, hmodel, hlookup, -⟩ := model_of_block h hblock honly
  obtain ⟨events, hevents, hbindings⟩ := parseOnBlock_eq hu hon hcap hrest
  have hof : model.events = events := by
    unfold parseModel at hmodel
    simp only [Option.bind_eq_bind, Option.bind_eq_some_iff] at hmodel
    obtain ⟨_, -, events', hevents', _, -, _, -, _, -, _, -, _, -, hmodel⟩ := hmodel
    cases hevents'.symm.trans hevents
    cases hmodel
    rfl
  have hbound : ∀ kind, Bound u content schema (on.entries kind) (bindingsOf model.events kind) ↔
      ∀ e ∈ on.entries kind, (∀ gaps condition, e.condition = some (gaps, condition) → condition.Textual) ∧
        Registered u content (.ofList e.constant) := by
    intro kind
    rw [hof, hbindings kind, bound_map_binding h]
  simp only [← hbound]
  constructor
  · rintro ⟨model', hlookup', hall⟩
    cases hlookup'.symm.trans hlookup
    exact hall
  · exact fun hall => ⟨model, hlookup, hall⟩

/-! ## Two schemas -/

deriving instance DecidableEq for ActionInputField, ActionInputDef, ActionReturn, ActionDef

/-- An action under its constant's name, with a condition on a string. -/
def noticeSource : List Char :=
  ("export const ping = action(\"ping\")\n" ++
    "export const Post = model('posts', \x7b on: \x7b created: [ping.when('state', 'done')] \x7d \x7d)").toList

def pingEntry : EventEntry where
  constant := "ping".toList
  condition := some ({}, .when { lit := ⟨'\'', "state".toList⟩ } [' '] (.string ⟨'\'', "done".toList⟩) [])

def noticeOn : OnBlock where
  members := [
    { lead := [' '], kind := .created, afterColon := [' '], trail := [' ']
      list := { entries := [{ entry := pingEntry }] } }]

theorem plain_noticeOn : noticeOn.Plain .ascii where
  members := by decide
  last := by decide
  first m hm := by
    have hall : ∀ m ∈ noticeOn.members, ((find (member m.kind.key '[') noticeOn.chars).map (·.rest)).any
        ((m.list.chars ++ [']']).isPrefixOf ·) = true := by
      decide
    have hm' := hall m hm
    cases hfound : find (member m.kind.key '[') noticeOn.chars with
    | none =>
      rw [hfound] at hm'
      cases hm'
    | some cap =>
      rw [hfound] at hm'
      obtain ⟨rest, hrest⟩ := List.isPrefixOf_iff_prefix.1 hm'
      have hcap : cap.rest = m.list.chars ++ ']' :: rest := by
        simpa using hrest.symm
      exact ⟨cap, rest, rfl, hcap⟩
  absent kind hkind := by
    cases kind with
    | created => exact absurd rfl (hkind _ List.mem_cons_self)
    | updated => exact Option.isNone_iff_eq_none.1 (by decide)
    | deleted => exact Option.isNone_iff_eq_none.1 (by decide +kernel)

def noticeBody : List Char :=
  " on: \x7b".toList ++ noticeOn.chars ++ "\x7d ".toList

theorem registered_ping : Registered .ascii noticeSource "ping" :=
  ⟨⟨"ping", .object [], none, none⟩, by decide +kernel, by decide +kernel⟩

theorem eq_pingEntry (kind : EventKind) : ∀ e ∈ noticeOn.entries kind, e = pingEntry := by
  intro e he
  cases kind with
  | created => exact List.mem_singleton.1 he
  | updated => exact absurd he List.not_mem_nil
  | deleted => exact absurd he List.not_mem_nil

theorem bindings_notice :
    ∃ schema, parseBuilderDsl .ascii noticeSource = some schema ∧ ∃ model, lookup? "Post" schema.models = some model ∧
      ∀ kind, Bound .ascii noticeSource schema (noticeOn.entries kind) (bindingsOf model.events kind) := by
  have hsome : (parseBuilderDsl .ascii noticeSource).isSome = true := by decide +kernel
  obtain ⟨schema, hschema⟩ := Option.isSome_iff_exists.1 hsome
  have hblocks : modelBlocks .ascii noticeSource = [("Post", "posts", noticeBody)] := by decide +kernel
  have hblock : ("Post", "posts", noticeBody) ∈ modelBlocks .ascii noticeSource := by
    rw [hblocks]
    exact List.mem_cons_self
  have honly : ∀ other ∈ modelBlocks .ascii noticeSource, other.1 = "Post" → other = ("Post", "posts", noticeBody) := by
    rw [hblocks]
    exact fun other hother _ => List.mem_singleton.1 hother
  have hon : (searchWord .ascii (member "on" '\x7b') noticeBody).map (·.rest) = some (noticeOn.chars ++ ['\x7d', ' ']) := by
    decide
  obtain ⟨cap, hcap, hrest⟩ := Option.map_eq_some_iff.1 hon
  refine ⟨schema, hschema, (bindings_iff ascii_lawful hschema hblock honly plain_noticeOn hcap hrest).2 fun kind e he => ?_⟩
  rw [eq_pingEntry kind e he]
  refine ⟨fun gaps condition heq => ?_, registered_ping⟩
  cases heq
  exact ⟨_, rfl⟩

/-- An action under another name than its constant's, which no binding finds; a condition on a number, which is none. -/
theorem unnamed_action_unbound :
    (parseBuilderDsl .ascii ("export const notify = action('send-notice')\n" ++
        "export const Post = model('posts', \x7b on: \x7b created: [notify.when('views', 3)] \x7d \x7d)").toList).map
      (fun schema => (schema.models.map fun (_, model) => model.events.created.map fun b => (b.action, b.condition.isNone),
        (lookup? "notify" schema.actions).isNone, schema.actions.map (·.1), schema.warnings)) =
    some ([[("notify", true)]], true, ["send-notice"], []) := by
  decide +kernel

end Atomo.Dsl

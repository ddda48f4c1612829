import Atomo.TypeScript.Blocks

/-!
# The access rules of the schema object

An access block as it is written, against the rules that the parser reads of it. A rule is found wherever an operation
stands before a colon and a string, so an entry under a quoted key or with another value than a string has none; and
no warning speaks of the entry of an operation. So the rules of a model are those of its access block just when each
operation stands unquoted before a string (`access_iff`).
-/

namespace Atomo.TypeScript

open Pattern (Item Match Passes Reads Solid captures find findAll matchAt)
open Schema
open Dsl

/-! ## What is written -/

inductive AccessValue where
  | literal (s : StringLit)
  | other (text : List Char)

def AccessValue.chars : AccessValue → List Char
  | .literal s => s.chars
  | .other text => text

/-- An entry of an access block, with what stands around it. -/
structure AccessEntry where
  lead : List Char := []
  keyQuote : Option Char := none
  key : List Char
  beforeColon : List Char := []
  afterColon : List Char := []
  value : AccessValue
  trail : List Char := []

/-- The key, and what follows it up to the colon. -/
def AccessEntry.head (e : AccessEntry) : List Char :=
  e.keyQuote.toList ++ (e.key ++ (e.keyQuote.toList ++ e.beforeColon))

def AccessEntry.chars (e : AccessEntry) : List Char :=
  e.lead ++ (e.head ++ ([':'] ++ (e.afterColon ++ (e.value.chars ++ e.trail))))

/-- What stands between the braces; `last` is what stands behind a comma at the end. -/
structure AccessBlock where
  entries : List AccessEntry
  last : Option (List Char) := none

def AccessBlock.chars (block : AccessBlock) : List Char :=
  Dsl.commaSeparated (block.entries.map AccessEntry.chars ++ block.last.toList)

/-- The operations. -/
def ops : List (List Char) :=
  ["create", "read", "update", "delete"].map String.toList

local instance lawfulBEq_text : LawfulBEq (List Char) :=
  inferInstance

/-- The rule that an entry states: a string, under a key without quotes. -/
def AccessEntry.rule? (e : AccessEntry) : Option (List Char) :=
  match e.keyQuote, e.value with
  | none, .literal s => if e.key ∈ ops ∧ s.text ≠ [] then some s.text else none
  | _, _ => none

/-! ## What reads like a rule -/

/-- An operation before a colon. -/
def opKey : List (Item Char) :=
  [.group (.oneOf ops), blanks, mark ':']

theorem accessItems_eq : accessItems = opKey ++ ([blanks] ++ quotedString) := rfl

theorem solid_accessItems : Solid accessItems := rfl

theorem op_of_take {l w r : List Char} (h : (Pattern.Piece.oneOf ops).take l = some (w, r)) : w ∈ ops := by
  obtain ⟨word, hword, hlit⟩ := List.exists_of_findSome?_eq_some h
  obtain ⟨_, -, heq⟩ := Option.map_eq_some_iff.1 hlit
  cases heq
  exact hword

theorem op_of_matchAt {l : List Char} {m : Match Char} (h : matchAt opKey l = some m) :
    ∃ op ∈ ops, ∃ w, Blank w ∧ ∃ r, l = op ++ (w ++ ':' :: r) := by
  obtain ⟨w₁, r₁, _, h₁, rfl, hm₁⟩ := take_of_matchAt h
  obtain ⟨w₂, r₂, _, h₂, rfl, hm₂⟩ := take_of_matchAt hm₁
  obtain ⟨w₃, r₃, _, h₃, rfl, -⟩ := take_of_matchAt hm₂
  exact ⟨w₁, op_of_take h₁, w₂, blank_of_take h₂, r₃, by rw [lit_of_take h₃]; rfl⟩

theorem take_op {op : List Char} (hop : op ∈ ops) (r : List Char) :
    (Pattern.Piece.oneOf ops).take (op ++ r) = some (op, r) := by
  obtain rfl | rfl | rfl | rfl :
      op = "create".toList ∨ op = "read".toList ∨ op = "update".toList ∨ op = "delete".toList := by
    simpa [ops] using hop
  all_goals rfl

theorem matchAt_op {op w : List Char} (hop : op ∈ ops) (hw : Blank w) (r : List Char) :
    ∃ m, matchAt opKey (op ++ (w ++ ':' :: r)) = some m := by
  have hcolon : ∀ c ∈ ([':'] ++ [] ++ r).head?, isSpace c = false := by
    intro c hc
    cases hc
    decide
  have h₃ : Reads [mark ':'] ([':'] ++ []) [] r := .cons (Pattern.take_lit _ _) .nil
  have h₂ : Reads [blanks, mark ':'] (w ++ ([':'] ++ [])) [] r := .cons (take_blanks hw hcolon) h₃
  have h₁ : Reads opKey (op ++ (w ++ ([':'] ++ []))) [op] r := .cons (take_op hop _) h₂
  have hmatch := h₁.matchAt_eq
  simp only [List.append_nil, List.append_assoc, List.singleton_append] at hmatch
  exact ⟨_, hmatch⟩

/-- A letter of an operation. -/
def isLetter (c : Char) : Bool :=
  ops.any (c ∈ ·)

theorem letter_of_op {op : List Char} (hop : op ∈ ops) {c : Char} (hc : c ∈ op) : isLetter c = true :=
  List.any_eq_true.2 ⟨op, hop, decide_eq_true hc⟩

theorem space_of_letter {c : Char} (h : isLetter c = true) : isSpace c = false ∧ c ≠ ':' := by
  obtain ⟨op, hop, hc⟩ := List.any_eq_true.1 h
  have hall : ∀ op ∈ ops, op.all (fun c => !isSpace c && c ≠ ':') = true := by decide
  simpa using List.all_eq_true.1 (hall op hop) c (of_decide_eq_true hc)

/-- Nothing that reads like a rule begins in a text that has none in it, where it goes on with a character of no rule. -/
theorem passes_border {t l : List Char} (h : Passes opKey t [])
    (hhead : ∀ c ∈ l.head?, isSpace c = false ∧ c ≠ ':' ∧ (isLetter c = true → ∀ d ∈ t.getLast?, isLetter d = false)) :
    Passes opKey t l := by
  induction t with
  | nil => trivial
  | cons a t ih =>
    refine ⟨?_, ih h.2 fun c hc => ?_⟩
    · cases hmatch : matchAt opKey (a :: (t ++ l)) with
      | none => rfl
      | some m =>
        obtain ⟨op, hop, w, hw, r, hl⟩ := op_of_matchAt hmatch
        have hblank : ∀ b, Blank b → l ≠ b ++ ':' :: r := by
          rintro b hb rfl
          cases b with
          | nil => exact (hhead ':' rfl).2.1 rfl
          | cons c b =>
            have hspace := (hhead c rfl).1
            rw [hb c List.mem_cons_self] at hspace
            cases hspace
        -- the border is within the operation, within the blanks before the colon, or behind the colon
        rcases List.append_eq_append_iff.1 (show (a :: t) ++ l = op ++ (w ++ ':' :: r) from hl) with
          ⟨x, hx, hrest⟩ | ⟨x, hx, hrest⟩
        · cases x with
          | nil => exact absurd hrest (hblank w hw)
          | cons c x =>
            rw [hrest] at hhead
            have hletter : ∀ d ∈ op, isLetter d = true := fun d hd => letter_of_op hop hd
            obtain ⟨d, hd⟩ := Option.ne_none_iff_exists'.1 (mt List.getLast?_eq_none_iff.1 (List.cons_ne_nil a t))
            have hfalse := (hhead c rfl).2.2 (hletter c (by simp [hx])) d hd
            rw [hletter d (by rw [hx]; exact List.mem_append_left _ (List.mem_of_getLast? hd))] at hfalse
            cases hfalse
        · rcases List.append_eq_append_iff.1 hrest.symm with ⟨y, hy, hr⟩ | ⟨y, hy, hr⟩
          · exact absurd hr (hblank y fun c hc => hw c (by rw [hy]; exact List.mem_append_right _ hc))
          · cases y with
            | nil => exact absurd hr.symm (hblank [] fun _ hc => absurd hc List.not_mem_nil)
            | cons c y =>
              obtain ⟨rfl, -⟩ := List.cons.inj hr
              obtain ⟨m', hm'⟩ := matchAt_op hop hw y
              have hnone := h.1
              rw [List.append_nil, hx, hy, hm'] at hnone
              cases hnone
    · obtain ⟨hspace, hcolon, hletter⟩ := hhead c hc
      refine ⟨hspace, hcolon, fun hc d hd => hletter hc d ?_⟩
      cases t with
      | nil => cases hd
      | cons b t => rwa [List.getLast?_cons_cons]

/-! ## One entry -/

/-- Text in which no operation stands before a colon. -/
abbrev Silent (t : List Char) : Prop :=
  Passes opKey t []

/-- Strings without quotes in them, no colon behind an operation but in a rule, and white space around the colons. What
stands before a key may be a comment; it does not end in a word. -/
structure AccessEntry.Plain (u : Unicode) (e : AccessEntry) : Prop where
  lead : Silent e.lead ∧ ∀ c ∈ e.lead.getLast?, u.isWord c = false
  unquoted : e.keyQuote = none → IsName u e.key ∧ (e.key ∈ ops ∨ ∀ op ∈ ops, ¬ op <:+ e.key)
  quoted : ∀ q ∈ e.keyQuote, isQuote q = true ∧ Silent e.key
  beforeColon : Blank e.beforeColon
  afterColon : Blank e.afterColon
  literal : ∀ s, e.value = .literal s → isQuote s.quote = true ∧ ∀ c ∈ s.text, isQuote c = false
  other : ∀ text, e.value = .other text → text ≠ [] ∧ ∀ c ∈ text.head?, isQuote c = false ∧ isSpace c = false
  value : e.rule? = none → Silent (e.value.chars ++ e.trail)
  trail : Silent e.trail

variable {u : Unicode} {e : AccessEntry} {l : List Char}

theorem space_of_quote {c : Char} (h : isQuote c = true) : isSpace c = false ∧ c ≠ ':' ∧ isLetter c = false := by
  rcases eq_of_isQuote h with rfl | rfl <;> decide

theorem word_of_letter (hu : u.Lawful) {c : Char} (h : isLetter c = true) : u.isWord c = true := by
  obtain ⟨op, hop, hc⟩ := List.any_eq_true.1 h
  have hall : ∀ op ∈ ops, op.all (fun c => c.toNat < 128 && (c.isAlphanum || c = '_')) = true := by decide
  have hchar := List.all_eq_true.1 (hall op hop) c (of_decide_eq_true hc)
  rw [Bool.and_eq_true] at hchar
  rw [hu.ascii c (of_decide_eq_true hchar.1)]
  exact hchar.2

theorem space_of_word (hu : u.Lawful) {c : Char} (h : u.isWord c = true) : isSpace c = false ∧ c ≠ ':' ∧ isQuote c = false := by
  refine ⟨?_, ?_, ?_⟩
  · cases hspace : isSpace c with
    | false => rfl
    | true =>
      rw [hu.blank c hspace] at h
      cases h
  · rintro rfl
    rw [hu.ascii ':' (by decide)] at h
    exact absurd h (by decide)
  · cases hquote : isQuote c with
    | false => rfl
    | true =>
      rcases eq_of_isQuote hquote with rfl | rfl
      · rw [hu.ascii _ (by decide)] at h
        exact absurd h (by decide)
      · rw [hu.ascii _ (by decide)] at h
        exact absurd h (by decide)

/-- No operation begins with such a character. -/
theorem passes_of_unlettered {t l : List Char} (h : ∀ c ∈ t, isLetter c = false) : Passes opKey t l := by
  refine Pattern.passes_of_head fun c hc l => ?_
  cases htake : (Pattern.Piece.oneOf ops).take (c :: l) with
  | none => exact htake
  | some wr =>
    obtain ⟨w, r⟩ := wr
    have hop := op_of_take htake
    have happend := Pattern.Piece.take_append htake
    cases w with
    | nil => exact absurd hop (by decide)
    | cons d w =>
      obtain ⟨rfl, -⟩ := List.cons.inj happend
      have hfalse := h c hc
      rw [letter_of_op hop List.mem_cons_self] at hfalse
      cases hfalse

theorem unlettered_of_blank {t : List Char} (h : Blank t) : ∀ c ∈ t, isLetter c = false := by
  intro c hc
  cases hletter : isLetter c with
  | false => rfl
  | true =>
    have hspace := h c hc
    rw [(space_of_letter hletter).1] at hspace
    cases hspace

theorem AccessEntry.Plain.passes_lead (hu : u.Lawful) (h : e.Plain u) (l : List Char) : Passes opKey e.lead (e.head ++ l) := by
  refine passes_border h.lead.1 fun c hc => ?_
  cases hquote : e.keyQuote with
  | some q =>
    have hhead : c = q := by simpa [AccessEntry.head, hquote] using hc.symm
    obtain ⟨hspace, hcolon, hletter⟩ := space_of_quote (h.quoted q hquote).1
    rw [hhead, hletter]
    exact ⟨hspace, hcolon, fun hfalse => by cases hfalse⟩
  | none =>
    obtain ⟨hname, -⟩ := h.unquoted hquote
    obtain ⟨d, key, hkey⟩ := List.exists_cons_of_ne_nil hname.ne
    have hhead : c = d := by simpa [AccessEntry.head, hquote, hkey] using hc.symm
    obtain ⟨hspace, hcolon, -⟩ := space_of_word hu (hname.word d (by rw [hkey]; exact List.mem_cons_self))
    refine ⟨hhead ▸ hspace, hhead ▸ hcolon, fun _ d hd => ?_⟩
    cases hletter : isLetter d with
    | false => rfl
    | true =>
      have hword := h.lead.2 d hd
      rw [word_of_letter hu hletter] at hword
      cases hword

theorem passes_rule {t l : List Char} (h : Passes opKey t l) : Passes accessItems t l :=
  accessItems_eq ▸ h.more

/-- What a rule is read from. -/
theorem rule_of_matchAt {l : List Char} {m : Match Char} (h : matchAt accessItems l = some m) :
    ∃ op ∈ ops, ∃ w, Blank w ∧ ∃ b, Blank b ∧ ∃ q c r, isQuote q = true ∧ isQuote c = false ∧
      l = op ++ (w ++ ':' :: (b ++ q :: c :: r)) := by
  obtain ⟨w₁, r₁, _, h₁, rfl, hm₁⟩ := take_of_matchAt h
  obtain ⟨w₂, r₂, _, h₂, rfl, hm₂⟩ := take_of_matchAt hm₁
  obtain ⟨w₃, r₃, _, h₃, rfl, hm₃⟩ := take_of_matchAt hm₂
  obtain ⟨w₄, r₄, _, h₄, rfl, hm₄⟩ := take_of_matchAt hm₃
  obtain ⟨w₅, r₅, _, h₅, rfl, hm₅⟩ := take_of_matchAt hm₄
  obtain ⟨w₆, r₆, _, h₆, rfl, -⟩ := take_of_matchAt hm₅
  obtain ⟨q, hq, rfl⟩ := Pattern.one_of_take h₅
  obtain ⟨hne, hunquoted⟩ := Pattern.some_of_take h₆
  obtain ⟨c, t, rfl⟩ := List.exists_cons_of_ne_nil hne
  refine ⟨w₁, op_of_take h₁, w₂, blank_of_take h₂, w₄, blank_of_take h₄, q, c, t ++ r₆, hq, ?_, ?_⟩
  · simpa using hunquoted c List.mem_cons_self
  · rw [lit_of_take h₃]
    simp

/-- Of an unquoted key only what is an operation itself reads like a rule. -/
theorem op_of_key (hu : u.Lawful) {v w w' r r' op : List Char} (hv : ∀ c ∈ v, u.isWord c = true) (hw : Blank w) (hop : op ∈ ops)
    (hw' : Blank w') (h : v ++ (w ++ ':' :: r) = op ++ (w' ++ ':' :: r')) : v = op ∧ r = r' := by
  have hletters : ∀ c ∈ op, u.isWord c = true := fun c hc => word_of_letter hu (letter_of_op hop hc)
  obtain ⟨hkey, hrest⟩ := Pattern.append_head_inj hv (head_blank_colon hu hw) hletters (head_blank_colon hu hw') h
  have hcolon : ∀ l : List Char, ∀ c ∈ (':' :: l).head?, isSpace c = false := by
    intro l c hc
    cases hc
    decide
  obtain ⟨-, hcolons⟩ := Pattern.append_head_inj hw (hcolon _) hw' (hcolon _) hrest
  exact ⟨hkey, (List.cons.inj hcolons).2⟩

/-- No rule begins with the key of an entry that states none. -/
theorem AccessEntry.Plain.passes_key (hu : u.Lawful) (h : e.Plain u) (hrule : e.rule? = none) (l : List Char) :
    Passes accessItems e.head (':' :: (e.afterColon ++ (e.value.chars ++ l))) := by
  cases hquote : e.keyQuote with
  | some q =>
    obtain ⟨hq, hkey⟩ := h.quoted q hquote
    obtain ⟨hspace, hcolon, hletter⟩ := space_of_quote hq
    have hsingle : ∀ c ∈ [q], isLetter c = false := by
      intro c hc
      rwa [List.mem_singleton.1 hc]
    have hhead : e.head = [q] ++ (e.key ++ ([q] ++ e.beforeColon)) := by
      simp [AccessEntry.head, hquote]
    rw [hhead]
    refine passes_rule (Pattern.passes_append.2 ⟨passes_of_unlettered hsingle, Pattern.passes_append.2 ⟨?_,
      Pattern.passes_append.2 ⟨passes_of_unlettered hsingle, passes_of_unlettered (unlettered_of_blank h.beforeColon)⟩⟩⟩)
    refine passes_border hkey fun c hc => ?_
    cases hc
    exact ⟨hspace, hcolon, fun hfalse => absurd hfalse (by simp [hletter])⟩
  | none =>
    obtain ⟨hname, hop⟩ := h.unquoted hquote
    have hhead : e.head = e.key ++ e.beforeColon := by
      simp [AccessEntry.head, hquote]
    rw [hhead]
    refine Pattern.passes_append.2 ⟨Pattern.passes_iff.2 fun v hne hv => ?_, ?_⟩
    · cases hmatch : matchAt accessItems (v ++ (e.beforeColon ++ ':' :: (e.afterColon ++ (e.value.chars ++ l)))) with
      | none => rfl
      | some m =>
        obtain ⟨op, hmem, w, hw, b, hb, q, c, r, hq, hc, hl⟩ := rule_of_matchAt hmatch
        have hword : ∀ c ∈ v, u.isWord c = true := fun c hc => hname.word c (hv.subset hc)
        obtain ⟨rfl, hvalue⟩ := op_of_key hu hword h.beforeColon hmem hw hl
        have hkey : e.key ∈ ops := hop.resolve_right fun hnot => hnot v hmem hv
        -- what follows the colon is no string with something in it
        cases hentry : e.value with
        | literal s =>
          have hempty : s.text = [] := by
            by_contra htext
            simp [AccessEntry.rule?, hquote, hentry, hkey, htext] at hrule
          obtain ⟨hopening, -⟩ := h.literal s hentry
          have hchars : e.value.chars ++ l = s.quote :: s.quote :: l := by
            simp [hentry, AccessValue.chars, StringLit.chars, hempty]
          rw [hchars] at hvalue
          have hspace : ∀ l : List Char, ∀ c ∈ (s.quote :: l).head?, isSpace c = false := by
            intro l c hc
            cases hc
            exact (space_of_quote hopening).1
          have hspace' : ∀ d ∈ (q :: c :: r).head?, isSpace d = false := by
            intro d hd
            cases hd
            exact (space_of_quote hq).1
          obtain ⟨-, hquotes⟩ := Pattern.append_head_inj h.afterColon (hspace _) hb hspace' hvalue
          obtain ⟨-, hsecond⟩ := List.cons.inj hquotes
          rw [← (List.cons.inj hsecond).1, hopening] at hc
          cases hc
        | other text =>
          obtain ⟨hne, hfirst⟩ := h.other text hentry
          obtain ⟨d, text', rfl⟩ := List.exists_cons_of_ne_nil hne
          obtain ⟨hunquoted, hspace⟩ := hfirst d rfl
          have hchars : e.value.chars ++ l = d :: (text' ++ l) := by
            simp [hentry, AccessValue.chars]
          rw [hchars] at hvalue
          have hspaces : ∀ c ∈ (d :: (text' ++ l)).head?, isSpace c = false := by
            intro c hc
            cases hc
            exact hspace
          have hspace' : ∀ d ∈ (q :: c :: r).head?, isSpace d = false := by
            intro d hd
            cases hd
            exact (space_of_quote hq).1
          obtain ⟨-, hquotes⟩ := Pattern.append_head_inj h.afterColon hspaces hb hspace' hvalue
          rw [(List.cons.inj hquotes).1, hq] at hunquoted
          cases hunquoted
    · exact passes_rule (passes_of_unlettered (unlettered_of_blank h.beforeColon))

/-- What follows an entry: a comma, or nothing. -/
def Follows (l : List Char) : Prop :=
  ∀ c ∈ l.head?, c = ','

theorem Follows.passes {t : List Char} (h : Follows l) (ht : Silent t) : Passes opKey t l := by
  refine passes_border ht fun c hc => ?_
  rw [h c hc]
  exact ⟨by decide, by decide, fun hletter => absurd hletter (by decide)⟩

/-- An entry that states no rule has none read of it. -/
theorem AccessEntry.Plain.passes (hu : u.Lawful) (h : e.Plain u) (hrule : e.rule? = none) (hl : Follows l) :
    Passes accessItems e.chars l := by
  have hcolon : ∀ c ∈ [':'], isLetter c = false := by simp [isLetter, ops]
  have hkey := h.passes_key hu hrule (e.trail ++ l)
  have hlead := passes_rule (h.passes_lead hu ([':'] ++ (e.afterColon ++ (e.value.chars ++ (e.trail ++ l)))))
  have hgap : Passes opKey ([':'] ++ e.afterColon) (e.value.chars ++ (e.trail ++ l)) :=
    Pattern.passes_append.2 ⟨passes_of_unlettered hcolon, passes_of_unlettered (unlettered_of_blank h.afterColon)⟩
  have hvalue : Passes opKey (e.value.chars ++ e.trail) l := hl.passes (h.value hrule)
  have hchars : e.chars = e.lead ++ (e.head ++ (([':'] ++ e.afterColon) ++ (e.value.chars ++ e.trail))) := by
    simp [AccessEntry.chars]
  rw [hchars]
  refine Pattern.passes_append.2 ⟨?_, Pattern.passes_append.2 ⟨?_, Pattern.passes_append.2 ⟨?_, passes_rule hvalue⟩⟩⟩
  · simpa using hlead
  · simpa using hkey
  · simpa using passes_rule hgap

/-- An entry that states a rule has it read, and nothing else. -/
theorem AccessEntry.Plain.captures_rule (hu : u.Lawful) (h : e.Plain u) {rule : List Char} (hrule : e.rule? = some rule)
    (hl : Follows l) : captures accessItems (e.chars ++ l) = [e.key, rule] :: captures accessItems l := by
  obtain ⟨hquote, s, hvalue, hkey, hne, rfl⟩ : e.keyQuote = none ∧ ∃ s, e.value = .literal s ∧ e.key ∈ ops ∧ s.text ≠ [] ∧
      s.text = rule := by
    unfold AccessEntry.rule? at hrule
    split at hrule
    · rename_i s hnone hs
      split at hrule
      · rename_i hand
        exact ⟨hnone, s, hs, hand.1, hand.2, Option.some.inj hrule⟩
      · cases hrule
    · cases hrule
  obtain ⟨hopening, htext⟩ := h.literal s hvalue
  have hquoteSpace : ∀ l : List Char, ∀ c ∈ (s.quote :: l).head?, isSpace c = false := by
    intro l c hc
    cases hc
    exact (space_of_quote hopening).1
  have hcolonSpace : ∀ l : List Char, ∀ c ∈ (':' :: l).head?, isSpace c = false := by
    intro l c hc
    cases hc
    decide
  have h₄ : Reads ([blanks] ++ quotedString) (e.afterColon ++ s.chars) [s.text] (e.trail ++ l) :=
    .cons (take_blanks h.afterColon (hquoteSpace _)) (reads_string hopening hne htext _)
  have h₃ : Reads ([mark ':', blanks] ++ quotedString) ([':'] ++ (e.afterColon ++ s.chars)) [s.text] (e.trail ++ l) :=
    .cons (Pattern.take_lit _ _) h₄
  have h₂ : Reads ([blanks, mark ':', blanks] ++ quotedString) (e.beforeColon ++ ([':'] ++ (e.afterColon ++ s.chars)))
      [s.text] (e.trail ++ l) := .cons (take_blanks h.beforeColon (hcolonSpace _)) h₃
  have h₁ : Reads accessItems (e.key ++ (e.beforeColon ++ ([':'] ++ (e.afterColon ++ s.chars)))) [e.key, s.text]
      (e.trail ++ l) := .cons (take_op hkey _) h₂
  have hchars : e.chars ++ l = e.lead ++ ((e.key ++ (e.beforeColon ++ ([':'] ++ (e.afterColon ++ s.chars)))) ++
      (e.trail ++ l)) := by
    simp [AccessEntry.chars, AccessEntry.head, AccessValue.chars, hquote, hvalue]
  have hlead := passes_rule (h.passes_lead hu ([':'] ++ (e.afterColon ++ (s.chars ++ (e.trail ++ l)))))
  have htail : captures accessItems (e.trail ++ l) = captures accessItems l :=
    Pattern.captures_append solid_accessItems (passes_rule (hl.passes h.trail))
  rw [hchars, Pattern.captures_append solid_accessItems (by simpa [AccessEntry.head, hquote] using hlead),
    Pattern.captures_reads solid_accessItems h₁, htail]

/-! ## The block -/

theorem follows_comma (l : List Char) : Follows (',' :: l) := by
  intro c hc
  cases hc
  rfl

theorem AccessEntry.Plain.captures_append (hu : u.Lawful) (h : e.Plain u) (hl : Follows l) :
    captures accessItems (e.chars ++ l) = (e.rule?.map fun rule => [e.key, rule]).toList ++ captures accessItems l := by
  cases hrule : e.rule? with
  | none => exact Pattern.captures_append solid_accessItems (h.passes hu hrule hl)
  | some rule => exact h.captures_rule hu hrule hl

theorem captures_comma (l : List Char) : captures accessItems (',' :: l) = captures accessItems l := by
  have hcomma : Passes accessItems [','] l := passes_rule (passes_of_unlettered (by simp [isLetter, ops]))
  exact Pattern.captures_append solid_accessItems hcomma

/-- The rules that the parser reads of a block are those that its entries state. -/
theorem captures_block (hu : u.Lawful) {block : AccessBlock} (hentries : ∀ e ∈ block.entries, e.Plain u)
    (hlast : ∀ t ∈ block.last, Silent t) :
    captures accessItems block.chars =
      block.entries.filterMap fun e => e.rule?.map fun rule => [e.key, rule] := by
  have hend : Follows [] := fun c hc => by cases hc
  have hnil : captures accessItems [] = [] := Pattern.captures_eq_nil solid_accessItems trivial
  unfold AccessBlock.chars
  obtain ⟨entries, last⟩ := block
  dsimp only at hentries hlast ⊢
  induction entries with
  | nil =>
    cases last with
    | none => exact hnil
    | some t =>
      have hone : Dsl.commaSeparated [t] = t := by simp [Dsl.commaSeparated]
      change captures accessItems (Dsl.commaSeparated [t]) = []
      rw [hone]
      exact Pattern.captures_eq_nil solid_accessItems (passes_rule (hlast t rfl))
  | cons e entries ih =>
    have he := hentries e List.mem_cons_self
    have hrest := ih fun e he => hentries e (List.mem_cons_of_mem _ he)
    have hcons : (e :: entries).filterMap (fun e => e.rule?.map fun rule => [e.key, rule]) =
        (e.rule?.map fun rule => [e.key, rule]).toList ++
          entries.filterMap fun e => e.rule?.map fun rule => [e.key, rule] := by
      rw [List.filterMap_cons]
      cases e.rule? <;> rfl
    rw [hcons, ← hrest, List.map_cons, List.cons_append]
    cases hmore : entries.map AccessEntry.chars ++ last.toList with
    | nil =>
      have hone : Dsl.commaSeparated [e.chars] = e.chars := by simp [Dsl.commaSeparated]
      have halone := he.captures_append hu hend
      rw [List.append_nil] at halone
      rw [hone, halone]
      rfl
    | cons t more => rw [Dsl.commaSeparated_cons_cons, he.captures_append hu (follows_comma _), captures_comma]

/-! ## The rules of the model -/

theorem rule_assignRule (access : AccessControl) (name : String) (rule : AccessRule) (op : Op) :
    (assignRule access name rule).rule op = if name = .ofList op.key then some rule else access.rule op := by
  unfold assignRule
  cases op <;> (split_ifs with h₁ h₂ h₃ h₄ <;> simp_all [AccessControl.rule, Op.key])

/-- A capture of an operation. -/
def isFor (op : Op) (groups : List (List Char)) : Bool :=
  String.ofList (groups.getD 0 []) = String.ofList op.key

/-- The rule of a capture. -/
def capturedRule (groups : List (List Char)) : AccessRule :=
  .boolean (.ofList (groups.getD 1 []))

/-- The rule of an operation is the last one captured for it. -/
theorem rule_accessRules (block : List Char) (op : Op) :
    ((accessRules block).bind fun access => access.rule op) =
      ((captures accessItems block).filter (isFor op)).getLast?.map capturedRule := by
  have hfold : ∀ (caps : List (Match Char)) (access : AccessControl),
      (caps.foldl (fun access cap => assignRule access (.ofList (cap.group 1)) (.boolean (.ofList (cap.group 2)))) access).rule op =
        (((caps.map (·.groups)).filter (isFor op)).getLast?.map capturedRule).or (access.rule op) := by
    intro caps
    induction caps with
    | nil => exact fun access => rfl
    | cons cap caps ih =>
      intro access
      rw [List.foldl_cons, ih, rule_assignRule, List.map_cons]
      cases hfor : isFor op cap.groups with
      | true =>
        have hkey : String.ofList (cap.group 1) = String.ofList op.key := of_decide_eq_true hfor
        rw [List.filter_cons_of_pos hfor, List.getLast?_cons, if_pos hkey]
        cases ((caps.map (·.groups)).filter (isFor op)).getLast? <;> rfl
      | false =>
        have hkey : String.ofList (cap.group 1) ≠ String.ofList op.key := of_decide_eq_false hfor
        rw [List.filter_cons_of_neg (by simp [hfor]), if_neg hkey]
  have hnone : AccessControl.rule ⟨none, none, none, none⟩ op = none := by
    cases op <;> rfl
  unfold accessRules captures
  by_cases hcaps : findAll accessItems block = []
  · rw [if_pos hcaps, hcaps]
    rfl
  · rw [if_neg hcaps, Option.bind_some, hfold, hnone, Option.or_none]

/-- The rule that an entry states, as the parser holds it. -/
def AccessEntry.accessRule? (e : AccessEntry) : Option AccessRule :=
  e.rule?.map fun rule => .boolean (.ofList rule)

/-- The rule of an operation is that of its entry. -/
theorem rule_block (hu : u.Lawful) {block : AccessBlock} (hentries : ∀ e ∈ block.entries, e.Plain u)
    (hlast : ∀ t ∈ block.last, Silent t) (hnodup : (block.entries.map (·.key)).Nodup) (op : Op) :
    ((accessRules block.chars).bind fun access => access.rule op) =
      (block.entries.find? (·.key = op.key)).bind AccessEntry.accessRule? := by
  rw [rule_accessRules, captures_block hu hentries hlast]
  clear hentries hlast
  revert hnodup
  induction block.entries with
  | nil => exact fun _ => rfl
  | cons e entries ih =>
    intro hall
    obtain ⟨hnew, hnodup⟩ := List.nodup_cons.1 hall
    rw [List.filterMap_cons, List.find?_cons]
    by_cases hkey : e.key = op.key
    · have hfor : ∀ rule, isFor op [e.key, rule] = true := fun rule => decide_eq_true (congrArg String.ofList hkey)
      have hothers : (entries.filterMap fun e => e.rule?.map fun rule => [e.key, rule]).filter (isFor op) = [] := by
        rw [List.filter_eq_nil_iff]
        intro g hg hsame
        obtain ⟨e', he', hrule⟩ := List.mem_filterMap.1 hg
        obtain ⟨rule, -, rfl⟩ := Option.map_eq_some_iff.1 hrule
        have heq : e'.key = op.key := String.ofList_inj.1 (of_decide_eq_true hsame)
        exact hnew (List.mem_map.2 ⟨e', he', heq.trans hkey.symm⟩)
      rw [decide_eq_true hkey]
      dsimp only [Option.bind_some]
      unfold AccessEntry.accessRule?
      cases e.rule? with
      | none =>
        dsimp only [Option.map_none]
        rw [hothers]
        rfl
      | some rule =>
        dsimp only [Option.map_some]
        rw [List.filter_cons_of_pos (hfor rule), hothers]
        rfl
    · have hfor : ∀ rule, isFor op [e.key, rule] = false := fun rule =>
        decide_eq_false fun heq => hkey (String.ofList_inj.1 heq)
      rw [decide_eq_false hkey]
      dsimp only
      rw [← ih hnodup]
      cases e.rule? with
      | none => rfl
      | some rule =>
        dsimp only [Option.map_some]
        rw [List.filter_cons_of_neg (by simp [hfor])]

/-! ## What is reported -/

/-- A warning about the access of a model that has the key in quotes. -/
def Reports (name key : List Char) (w : String) : Prop :=
  "schema.models.".toList ++ (name ++ ".access".toList) <+: w.toList ∧ '\'' :: (key ++ ['\'']) <:+: w.toList

/-- One of the warnings is about the key. -/
def Reported (warnings : List String) (name key : List Char) : Prop :=
  ∃ w ∈ warnings, Reports name key w

section Reports

variable {name key : List Char}

/-- Of a warning about an entry of `models` only one that goes on with `.access` speaks of the access. -/
theorem access_of_start (hu : u.Lawful) {name' rest : List Char} {c : Char} (hname : ∀ c ∈ name, u.isWord c = true)
    (hname' : ∀ c ∈ name', u.isWord c = true) (hc : u.isWord c = false)
    (h : "schema.models.".toList ++ (name ++ ".access".toList) <+: "schema.models.".toList ++ (name' ++ c :: rest)) :
    ".access".toList <+: c :: rest := by
  obtain ⟨x, hx⟩ := (List.prefix_append_right_inj _).1 h
  have hdot : ∀ d ∈ (".access".toList ++ x).head?, u.isWord d = false := by
    change ∀ d ∈ some '.', u.isWord d = false
    rintro _ ⟨⟩
    rw [hu.ascii '.' (by decide)]
    decide
  have hhead : ∀ d ∈ (c :: rest).head?, u.isWord d = false := by
    intro d hd
    cases hd
    exact hc
  rw [List.append_assoc] at hx
  obtain ⟨-, hrest⟩ := Pattern.append_head_inj hname hdot hname' hhead hx
  exact ⟨x, hrest⟩

/-- The one word in quotes. -/
theorem quoted_inj {a k b key : List Char} (ha : '\'' ∉ a) (hk : '\'' ∉ k) (hb : '\'' ∉ b) (hkey : '\'' ∉ key)
    (h : '\'' :: (key ++ ['\'']) <:+: a ++ '\'' :: (k ++ '\'' :: b)) : key = k := by
  obtain ⟨x, y, hxy⟩ := h
  have hcount := congrArg (List.count '\'') hxy
  have hzero : ∀ l : List Char, '\'' ∉ l → List.count '\'' l = 0 := fun l => List.count_eq_zero_of_not_mem
  simp only [List.count_append, List.count_cons, List.count_nil, beq_self_eq_true, if_true, hzero a ha, hzero k hk, hzero b hb,
    hzero key hkey] at hcount
  have hx : '\'' ∉ x := List.count_eq_zero.1 (by omega)
  have hplain : ∀ l : List Char, '\'' ∉ l → ∀ c ∈ l, decide (c ≠ '\'') = true := by
    intro l hl c hc
    exact decide_eq_true fun heq => hl (heq ▸ hc)
  have hquote : ∀ l : List Char, ∀ c ∈ ('\'' :: l).head?, decide (c ≠ '\'') = false := by
    intro l c hc
    cases hc
    rfl
  have hsplit : x ++ '\'' :: (key ++ '\'' :: y) = a ++ '\'' :: (k ++ '\'' :: b) := by
    simpa using hxy
  obtain ⟨-, hrest⟩ := Pattern.append_head_inj (hplain x hx) (hquote _) (hplain a ha) (hquote _) hsplit
  exact (Pattern.append_head_inj (hplain key hkey) (hquote _) (hplain k hk) (hquote _) (List.cons.inj hrest).2).1

/-- A warning that does not begin with `schema.models.` is about no access. -/
theorem not_reports_of_head {w : String} (h : ¬ "schema.models.".toList <+: w.toList) : ¬ Reports name key w :=
  fun hreports => h ((List.prefix_append _ _).trans hreports.1)

/-- Nor is one about a model that goes on with another word. -/
theorem not_reports_of_rest (hu : u.Lawful) (hname : ∀ c ∈ name, u.isWord c = true) {name' : String}
    (hname' : ∀ c ∈ name'.toList, u.isWord c = true) {c : Char} (hc : u.isWord c = false) (rest : List Char)
    (hrest : ¬ ".access".toList <+: c :: rest) {w : String}
    (hw : w.toList = "schema.models.".toList ++ (name'.toList ++ c :: rest)) : ¬ Reports name key w := by
  rintro ⟨hbegins, -⟩
  rw [hw] at hbegins
  exact hrest (access_of_start hu hname hname' hc hbegins)

theorem unquoted_of_word (hu : u.Lawful) {t : List Char} (h : ∀ c ∈ t, u.isWord c = true) : '\'' ∉ t := by
  intro hmem
  have hword := h _ hmem
  rw [hu.ascii '\'' (by decide)] at hword
  exact absurd hword (by decide)

/-- The warning about another key of an access block is not about an operation. -/
theorem not_reports_unrecognized (hu : u.Lawful) {name' key' : String} (hname' : ∀ c ∈ name'.toList, u.isWord c = true)
    (hkey' : ∀ c ∈ key'.toList, u.isWord c = true) (hkey : ∀ c ∈ key, u.isWord c = true) (hne : key'.toList ≠ key) :
    ¬ Reports name key ("schema.models." ++ name' ++ ".access: unrecognized key '" ++ key' ++
      "' ignored (known: create, read, update, delete)") := by
  rintro ⟨-, hquoted⟩
  have hsplit : ("schema.models." ++ name' ++ ".access: unrecognized key '" ++ key' ++
      "' ignored (known: create, read, update, delete)").toList =
      ("schema.models.".toList ++ (name'.toList ++ ".access: unrecognized key ".toList)) ++ '\'' ::
        (key'.toList ++ '\'' :: " ignored (known: create, read, update, delete)".toList) := by
    simp
  rw [hsplit] at hquoted
  refine hne (quoted_inj ?_ (unquoted_of_word hu hkey') (by simp) (unquoted_of_word hu hkey) hquoted).symm
  have hunquoted := unquoted_of_word hu hname'
  simp [hunquoted]

/-- No warning about an entry of `models` is about the rule of an operation. -/
theorem not_reports_entryDiagnostics (hu : u.Lawful) (hname : ∀ c ∈ name, u.isWord c = true) (hkey : key ∈ ops)
    {models : List (String × Model)} {name' : String} (hname' : ∀ c ∈ name'.toList, u.isWord c = true) {block : List Char}
    {warnings : List String} (h : entryDiagnostics u models name' block = some warnings) :
    ∀ w ∈ warnings, ¬ Reports name key w := by
  unfold entryDiagnostics at h
  simp only [Option.bind_eq_bind, Option.bind_eq_some_iff] at h
  obtain ⟨keys, -, accessKeys, haccess, validationKeys, -, relationships, -, relationshipWarnings, hrelationships, h⟩ := h
  cases h
  have hop : ∀ c ∈ key, u.isWord c = true := fun c hc => word_of_letter hu (letter_of_op hkey hc)
  intro w hw
  rcases List.mem_append.1 hw with hw | hw
  · rcases List.mem_append.1 hw with hw | hw
    · rcases List.mem_append.1 hw with hw | hw
      · obtain ⟨key', -, rfl⟩ := List.mem_map.1 hw
        exact not_reports_of_rest hu hname hname' (colon_of_lawful hu)
          (" unrecognized key '".toList ++ (key'.toList ++ ("' ignored (known: ".toList ++
            ((", ".intercalate ["tableName", "validation", "access", "relationships", "events", "ui"]).toList ++ [')']))))
          (by rintro ⟨x, hx⟩; simp at hx) (by simp)
      · obtain ⟨key', hmem, rfl⟩ := List.mem_map.1 hw
        obtain ⟨hmem, hunknown⟩ := List.mem_filter.1 hmem
        refine not_reports_unrecognized hu hname' (word_of_blockKeys haccess key' hmem) hop fun heq => ?_
        refine of_decide_eq_true hunknown ?_
        obtain ⟨op, hop, heq'⟩ := List.mem_map.1 hkey
        rwa [String.toList_inj.1 (heq.trans heq'.symm)]
    · split at hw
      · exact absurd hw List.not_mem_nil
      · obtain ⟨key', -, rfl⟩ := List.mem_map.1 hw
        exact not_reports_of_rest hu hname hname' (dot_of_lawful hu)
          ("validation: '".toList ++ (key'.toList ++ ("' is not a field of '".toList ++ (name'.toList ++
            "' — rules never applied".toList)))) (by rintro ⟨x, hx⟩; simp at hx) (by simp)
  · obtain ⟨warnings, hwarnings, hw⟩ := List.mem_flatten.1 hw
    obtain ⟨⟨rel, rdef⟩, -, hread⟩ := (mem_of_mapM hrelationships).2 warnings hwarnings
    unfold relationshipDiagnostics at hread
    obtain ⟨relKeys, -, hread⟩ := Option.bind_eq_some_iff.1 hread
    cases hread
    rcases List.mem_append.1 hw with hw | hw
    · split at hw
      · exact absurd hw List.not_mem_nil
      · cases List.mem_singleton.1 hw
        exact not_reports_of_rest hu hname hname' (dot_of_lawful hu)
          ("relationships.".toList ++ (rel.toList ++ ": missing 'type'/'model' — ignored".toList))
          (by rintro ⟨x, hx⟩; simp at hx) (by simp)
    · obtain ⟨key', -, rfl⟩ := List.mem_map.1 hw
      exact not_reports_of_rest hu hname hname' (dot_of_lawful hu)
        ("relationships.".toList ++ (rel.toList ++ (": unrecognized key '".toList ++ (key'.toList ++ "' ignored".toList))))
        (by rintro ⟨x, hx⟩; simp at hx) (by simp)

end Reports

section Warnings

variable {lib : Library} {content : List Char} {schema : Atomo.Schema} {models : List Model}
  {metadata : List (String × ModelMetadata)} {entries : List (String × List Char)} {name key : List Char}

theorem not_reports_modelBlockDiagnostics (hu : lib.toUnicode.Lawful) (hname : ∀ c ∈ name, lib.isWord c = true)
    (hkey : key ∈ ops) {listed : List (String × Model)} {warnings : List String}
    (h : modelBlockDiagnostics lib.toUnicode content listed = some warnings) : ∀ w ∈ warnings, ¬ Reports name key w := by
  have hnil : ∀ w ∈ ([] : List String), ¬ Reports name key w := fun _ hw => absurd hw List.not_mem_nil
  have hspread : ∀ (block : List Char) (text : String), ¬ "schema.models.".toList <+: text.toList →
      ∀ w ∈ (if hasToplevelSpread block = true then [text] else []), ¬ Reports name key w := by
    intro block text hhead w hw
    split at hw
    · cases List.mem_singleton.1 hw
      exact not_reports_of_head hhead
    · exact absurd hw List.not_mem_nil
  unfold modelBlockDiagnostics at h
  split at h
  · cases h
    exact hnil
  · obtain ⟨schemaBlock, -, h⟩ := Option.bind_eq_some_iff.1 h
    cases schemaBlock with
    | none =>
      cases h
      exact hnil
    | some schemaBlock =>
      obtain ⟨modelsBlock, -, h⟩ := Option.bind_eq_some_iff.1 h
      cases modelsBlock with
      | none =>
        cases h
        exact hspread schemaBlock _ (by rintro ⟨x, hx⟩; simp at hx)
      | some modelsBlock =>
        obtain ⟨found, hfound, h⟩ := Option.bind_eq_some_iff.1 h
        obtain ⟨entryWarnings, hentries, h⟩ := Option.bind_eq_some_iff.1 h
        cases h
        intro w hw
        rcases List.mem_append.1 hw with hw | hw
        · rcases List.mem_append.1 hw with hw | hw
          · exact hspread schemaBlock _ (by rintro ⟨x, hx⟩; simp at hx) w hw
          · exact hspread modelsBlock _ (by rintro ⟨x, hx⟩; simp at hx) w hw
        · obtain ⟨warnings, hwarnings, hw⟩ := List.mem_flatten.1 hw
          obtain ⟨⟨name', block⟩, hmem, hread⟩ := (mem_of_mapM hentries).2 warnings hwarnings
          exact not_reports_entryDiagnostics hu hname hkey (word_of_topLevelEntries hfound (name', block) hmem) hread w hw

theorem not_reports_declaredModels {declared : List String} (models : List Model) :
    ∀ w ∈ (declaredModels declared models).2, ¬ Reports name key w := by
  intro w hw
  rcases List.mem_append.1 hw with hw | hw
  · obtain ⟨model, -, rfl⟩ := List.mem_map.1 hw
    exact not_reports_of_head (by rintro ⟨x, hx⟩; simp at hx)
  · obtain ⟨key, -, rfl⟩ := List.mem_map.1 hw
    exact not_reports_of_head (by rintro ⟨x, hx⟩; simp at hx)

theorem not_reports_reserved {listed : List (String × Model)} :
    ∀ w ∈ reservedIdentifierWarnings lib.toUnicode listed, ¬ Reports name key w := by
  intro w hw
  obtain ⟨model, -, hw⟩ := List.mem_flatMap.1 hw
  split at hw
  · exact absurd hw List.not_mem_nil
  · rcases List.mem_append.1 hw with hw | hw
    · split at hw
      · cases List.mem_singleton.1 hw
        exact not_reports_of_head (by rintro ⟨x, hx⟩; simp at hx)
      · exact absurd hw List.not_mem_nil
    · obtain ⟨field, -, heq⟩ := List.mem_filterMap.1 hw
      dsimp only at heq
      split at heq
      · cases heq
        exact not_reports_of_head (by rintro ⟨x, hx⟩; simp at hx)
      · cases heq

/-- No warning of the parser is about the rule of an operation. -/
theorem Parsed.not_reported (hu : lib.toUnicode.Lawful) (h : Parsed lib content schema models metadata entries)
    (hname : ∀ c ∈ name, lib.isWord c = true) (hkey : key ∈ ops) : ¬ Reported schema.warnings name key := by
  obtain ⟨blockWarnings, hblock, hwarnings⟩ := h.warnings
  rintro ⟨w, hw, hreports⟩
  rw [hwarnings] at hw
  rcases List.mem_append.1 hw with hw | hw
  · rcases List.mem_append.1 hw with hw | hw
    · exact not_reports_declaredModels _ w hw hreports
    · exact not_reports_modelBlockDiagnostics hu hname hkey hblock w hw hreports
  · exact not_reports_reserved w hw hreports

end Warnings

/-! ## The access of a model -/

/-- The access block at the top of a model block. -/
structure AccessMember where
  before : List Char := []
  beforeColon : List Char := []
  afterColon : List Char := []
  block : AccessBlock
  after : List Char := []

def AccessMember.entry (m : AccessMember) : BlockEntry where
  before := m.before
  name := "access".toList
  beforeColon := m.beforeColon
  afterColon := m.afterColon
  body := m.block.chars
  after := m.after

/-- Nothing before it reads like an access block, and no key stands twice in it. -/
structure AccessMember.Plain (u : Unicode) (m : AccessMember) : Prop where
  entry : m.entry.Plain u
  first : Passes (member "access" '\x7b') m.before (m.entry.chars.drop m.before.length)
  entries : ∀ e ∈ m.block.entries, e.Plain u
  last : ∀ t ∈ m.block.last, Silent t
  nodup : (m.block.entries.map (·.key)).Nodup

/-- What a model block says of its access: nothing, or the block. -/
def WrittenAccess (u : Unicode) (body : List Char) : Option AccessMember → Prop
  | none => Passes [text "access"] body []
  | some m => m.Plain u ∧ body = m.entry.chars

/-- The entry of an operation. -/
def entryOf (own : Option AccessMember) (op : Op) : Option AccessEntry :=
  own.bind fun m => m.block.entries.find? (·.key = op.key)

/-- The operation has the rule that is written for it, or a warning says that it has not. -/
def Kept (schema : Atomo.Schema) (model : Model) (name : List Char) (op : Op) : Option AccessEntry → Prop
  | none => (model.access.bind fun access => access.rule op) = none
  | some e =>
    (∃ s, e.value = .literal s ∧ (model.access.bind fun access => access.rule op) = some (.boolean (.ofList s.text))) ∨
      Reported schema.warnings name op.key

theorem AccessMember.Plain.located {m : AccessMember} (h : m.Plain u) : Located m.entry.chars "access" m.block.chars := by
  have hchars : m.entry.chars = m.before ++ (("access".toList ++ (m.beforeColon ++ ([':'] ++ (m.afterColon ++
      (['\x7b'] ++ []))))) ++ (m.block.chars ++ '\x7d' :: m.after)) := by
    simp [AccessMember.entry, BlockEntry.chars]
  have hfirst := h.first
  have hreads : Reads (member "access" '\x7b') ("access".toList ++ (m.beforeColon ++ ([':'] ++ (m.afterColon ++
      (['\x7b'] ++ []))))) [] (m.block.chars ++ '\x7d' :: m.after) :=
    reads_member h.entry.beforeColon h.entry.afterColon (by decide) _
  refine ⟨?_, h.entry.body⟩
  rw [hchars, List.drop_left] at hfirst
  rw [hchars, Pattern.find_append hfirst, Pattern.find_of_matchAt hreads.matchAt_eq]
  exact ⟨_, m.after, rfl, rfl⟩

/-- The parser takes the access block from its place. -/
theorem subBlock_written {body : List Char} {own : Option AccessMember} (h : WrittenAccess u body own) :
    subBlock body "access" = some (own.map (·.block.chars)) := by
  cases own with
  | none =>
    have hpasses : Passes (member "access" '\x7b') body [] :=
      show Passes ([text "access"] ++ [blanks, mark ':', blanks, mark '\x7b']) body [] from Passes.more h
    unfold subBlock
    rw [Pattern.find_eq_none hpasses rfl]
    rfl
  | some m =>
    obtain ⟨hplain, rfl⟩ := h
    exact hplain.located.subBlock_eq

theorem key_mem_ops (op : Op) : op.key ∈ ops := by
  cases op <;> decide

/-- The rule of an operation is that of its entry, and no warning is about it. -/
theorem kept_iff {lib : Library} (hu : lib.toUnicode.Lawful) {content : List Char} {schema : Atomo.Schema} {models : List Model}
    {metadata : List (String × ModelMetadata)} {entries : List (String × List Char)}
    (h : Parsed lib content schema models metadata entries) {model : Model} {name : List Char}
    (hname : ∀ c ∈ name, lib.isWord c = true) {op : Op} {entry : Option AccessEntry} (hentry : ∀ e ∈ entry, e.key = op.key)
    (hrule : (model.access.bind fun access => access.rule op) = entry.bind AccessEntry.accessRule?) :
    Kept schema model name op entry ↔
      ∀ e ∈ entry, e.keyQuote = none ∧ ∃ s, e.value = .literal s ∧ s.text ≠ [] := by
  have hsilent := h.not_reported hu hname (key_mem_ops op)
  cases entry with
  | none => exact ⟨fun _ e he => absurd he (Option.not_mem_none e), fun _ => hrule⟩
  | some e =>
    have hkey : e.key ∈ ops := (hentry e rfl) ▸ key_mem_ops op
    unfold Kept
    rw [hrule, Option.bind_some]
    constructor
    · rintro (⟨s, hvalue, heq⟩ | hreported)
      · obtain ⟨rule, hrule?, -⟩ := Option.map_eq_some_iff.1 heq
        unfold AccessEntry.rule? at hrule?
        rintro _ ⟨⟩
        split at hrule?
        · rename_i s' hquote hs'
          split at hrule?
          · rename_i hand
            exact ⟨hquote, s', hs', hand.2⟩
          · cases hrule?
        · cases hrule?
      · exact absurd hreported hsilent
    · intro hall
      obtain ⟨hquote, s, hvalue, hne⟩ := hall e rfl
      refine .inl ⟨s, hvalue, ?_⟩
      have hrule? : e.rule? = some s.text := by
        unfold AccessEntry.rule?
        rw [hquote, hvalue]
        exact if_pos ⟨hkey, hne⟩
      unfold AccessEntry.accessRule?
      rw [hrule?]
      rfl

/-- The rules of a model are those of its access block just when every operation in it stands unquoted before a string. -/
theorem access_iff {lib : Library} (hu : lib.toUnicode.Lawful) {content : List Char} {schema : Atomo.Schema}
    (h : parseSchema lib content = some (.ok schema)) {e : BlockEntry} (he : e.Plain lib.toUnicode)
    (hmodels : Located content "models" e.chars)
    (honly : ∀ entries, topLevelEntries lib.toUnicode e.chars = some entries →
      ∀ other ∈ entries, other.1 = .ofList e.name → other.2 = e.body)
    (hone : ∀ models, interfaceModels lib content = .ok models → (models.map (·.name)).count (.ofList e.name) ≤ 1)
    (hdefine : lib.modelDefinition content (.ofList e.name) = .ok none) {own : Option AccessMember}
    (hown : WrittenAccess lib.toUnicode e.body own) {model : Model}
    (hmodel : lookup? (.ofList e.name) schema.models = some model) :
    (∀ op, Kept schema model e.name op (entryOf own op)) ↔
      ∀ op, ∀ a ∈ entryOf own op, a.keyQuote = none ∧ ∃ s, a.value = .literal s ∧ s.text ≠ [] := by
  obtain ⟨models, metadata, entries, hparsed⟩ := parsed_of_parseSchema h
  have hentries : topLevelEntries lib.toUnicode e.chars = some entries := by
    have hdeclared := hparsed.declared
    unfold entriesOf at hdeclared
    rw [hmodels.subBlock_eq] at hdeclared
    exact hdeclared
  obtain ⟨block, hblock, haccess⟩ := hparsed.access hmodel (hone models hparsed.interfaces) hdefine
    (he.mem_topLevelEntries hu hentries) (honly entries hentries)
  have hwritten : block = own.map (·.block.chars) := Option.some.inj (hblock.symm.trans (subBlock_written hown))
  refine forall_congr' fun op => kept_iff hu hparsed he.name.word (fun a ha => ?_) ?_
  · obtain ⟨m, -, hfind⟩ := Option.bind_eq_some_iff.1 ha
    have hkey := List.find?_some hfind
    exact of_decide_eq_true hkey
  · rw [haccess, hwritten]
    cases own with
    | none => rfl
    | some m => exact rule_block hu hown.1.entries hown.1.last hown.1.nodup op

/-! ## Two schemas -/

/-- A rule under its operation. -/
def noteSource : List Char :=
  ("export interface Note \x7b id: string \x7d\n" ++
    "export const schema = \x7b models: \x7b Note: \x7b access: \x7b read: 'true' \x7d \x7d \x7d \x7d").toList

def readEntry : AccessEntry where
  lead := [' ']
  key := "read".toList
  afterColon := [' ']
  value := .literal ⟨'\'', "true".toList⟩
  trail := [' ']

def noteAccess : AccessMember where
  before := [' ']
  afterColon := [' ']
  block := { entries := [readEntry] }
  after := [' ']

def noteEntry : BlockEntry where
  before := [' ']
  name := "Note".toList
  afterColon := [' ']
  body := noteAccess.entry.chars
  after := [' ']

theorem silent_space : Silent [' '] :=
  passes_of_unlettered (Dsl.forall_of_all (by decide))

theorem border_space : ∀ c ∈ [' '].getLast?, Unicode.ascii.isWord c = false := by
  rintro _ ⟨⟩
  decide

theorem plain_readEntry : readEntry.Plain .ascii where
  lead := ⟨silent_space, border_space⟩
  unquoted _ := ⟨⟨by decide, Dsl.forall_of_all (by decide)⟩, .inl (by decide)⟩
  quoted q hq := by cases hq
  beforeColon := Dsl.forall_of_all (by decide)
  afterColon := Dsl.forall_of_all (by decide)
  literal s hs := by
    cases hs
    exact ⟨by decide, Dsl.forall_of_all (by decide)⟩
  other text htext := by cases htext
  value hrule := absurd hrule (by decide)
  trail := silent_space

/-- A block in braces, with text without braces around it. -/
theorem walks_braced {depth : Nat} (t t' : List Char) {body : List Char} (hdepth : 0 < depth)
    (ht : t.all (fun c => c ≠ '\x7b' ∧ c ≠ '\x7d') = true) (hbody : Walks bareBraces (depth + 1) body (depth + 1))
    (ht' : t'.all (fun c => c ≠ '\x7b' ∧ c ≠ '\x7d') = true) :
    Walks bareBraces depth (t ++ ('\x7b' :: (body ++ '\x7d' :: t'))) depth := by
  have hplain : ∀ {depth : Nat} {t : List Char}, t.all (fun c => c ≠ '\x7b' ∧ c ≠ '\x7d') = true →
      Walks bareBraces depth t depth :=
    fun h => walks_of_plain fun c hc => ⟨(Dsl.forall_of_all h c hc).1, (Dsl.forall_of_all h c hc).2, List.not_mem_nil⟩
  have hclose : Walks bareBraces (depth + 1) ['\x7d'] depth := walks_closing (by decide) hdepth
  exact (hplain ht).append (walks_opening.append (hbody.append (hclose.append (hplain ht'))))

theorem walks_readEntry (depth : Nat) : Walks bareBraces depth noteAccess.block.chars depth :=
  walks_of_plain (Dsl.forall_of_all (by decide))

theorem walks_noteAccess {depth : Nat} (hdepth : 0 < depth) : Walks bareBraces depth noteAccess.entry.chars depth :=
  walks_braced " access: ".toList [' '] hdepth (by decide) (walks_readEntry _) (by decide)

theorem walks_noteEntry : Walks bareBraces 1 noteEntry.chars 1 :=
  walks_braced " Note: ".toList [' '] Nat.one_pos (by decide) (walks_noteAccess Nat.two_pos) (by decide)

theorem plain_noteAccess : noteAccess.Plain .ascii where
  entry :=
    { name := ⟨by decide, Dsl.forall_of_all (by decide)⟩
      border := border_space
      before := by decide
      beforeColon := Dsl.forall_of_all (by decide)
      afterColon := Dsl.forall_of_all (by decide)
      body := walks_readEntry 1 }
  first := ⟨by decide, trivial⟩
  entries e he := by
    cases List.mem_singleton.1 he
    exact plain_readEntry
  last t ht := by cases ht
  nodup := by decide

theorem plain_noteEntry : noteEntry.Plain .ascii where
  name := ⟨by decide, Dsl.forall_of_all (by decide)⟩
  border := border_space
  before := by decide
  beforeColon := Dsl.forall_of_all (by decide)
  afterColon := Dsl.forall_of_all (by decide)
  body := walks_noteAccess Nat.one_pos

theorem located_noteEntry : Located noteSource "models" noteEntry.chars where
  first := by
    have hrest : (find (member "models" '\x7b') noteSource).map (·.rest) =
        some (noteEntry.chars ++ '\x7d' :: [' ', '\x7d']) := by
      decide +kernel
    obtain ⟨cap, hcap, hrest⟩ := Option.map_eq_some_iff.1 hrest
    exact ⟨cap, _, hcap, hrest⟩
  balanced := walks_noteEntry

theorem access_note :
    ∃ schema, parseSchema asciiLibrary noteSource = some (.ok schema) ∧ ∃ model, lookup? "Note" schema.models = some model ∧
      ∀ op, Kept schema model "Note".toList op (entryOf (some noteAccess) op) := by
  have hsome : (parseSchema asciiLibrary noteSource).any (fun result => result.toOption.any fun schema =>
      (lookup? "Note" schema.models).isSome) = true := by
    decide +kernel
  obtain ⟨result, hresult, hok⟩ := (Option.any_eq_true _ _).1 hsome
  obtain ⟨schema, hschema, hmodel⟩ := (Option.any_eq_true _ _).1 hok
  obtain ⟨model, hmodel⟩ := Option.isSome_iff_exists.1 hmodel
  have hparsed : parseSchema asciiLibrary noteSource = some (.ok schema) := by
    cases result with
    | error e => cases hschema
    | ok schema' =>
      cases hschema
      exact hresult
  have hentries : topLevelEntries Unicode.ascii noteEntry.chars = some [("Note", noteEntry.body)] := by
    decide +kernel
  have hnames : (interfaceModels asciiLibrary noteSource).map (fun models => models.map (·.name)) = .ok ["Note"] := by
    decide +kernel
  have hwritten : WrittenAccess .ascii noteEntry.body (some noteAccess) := ⟨plain_noteAccess, rfl⟩
  refine ⟨schema, hparsed, model, hmodel, (access_iff ascii_lawful hparsed plain_noteEntry located_noteEntry ?_ ?_ rfl
    hwritten hmodel).2 ?_⟩
  · intro entries heq other hother hname
    cases hentries.symm.trans heq
    cases List.mem_singleton.1 hother
    rfl
  · intro models heq
    rw [heq] at hnames
    have hlist : models.map (·.name) = ["Note"] := Except.ok.inj hnames
    rw [hlist]
    decide
  · intro op a ha
    have hfind : [readEntry].find? (·.key = op.key) = some a := ha
    have hmem := List.mem_of_find?_eq_some hfind
    cases List.mem_singleton.1 hmem
    exact ⟨rfl, ⟨'\'', "true".toList⟩, rfl, by decide⟩

/-- An operation in quotes, and one before an expression: neither has a rule, and neither has a warning. -/
theorem quoted_rule_dropped :
    (parseSchema asciiLibrary ("export interface Note \x7b id: string \x7d\n" ++
        "export const schema = \x7b models: \x7b Note: \x7b access: " ++
        "\x7b 'read': 'true', create: isAdmin \x7d \x7d \x7d \x7d").toList).map
      (fun result => result.toOption.map fun schema =>
        (schema.models.map fun (name, model) => (name, model.access.isNone), schema.warnings)) =
    some (some ([("Note", true)], [])) := by
  decide +kernel

end Atomo.TypeScript

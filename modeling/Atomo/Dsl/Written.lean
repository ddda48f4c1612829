import Atomo.Data.Casing
import Atomo.Dsl.Cuts
import Atomo.Lib.Reading
import Mathlib.Data.List.TakeWhile

/-!
# Schemas as they are written

The parts that a schema is written in (string literals, entries between commas, blocks between brackets), and what
the scans of the parser make of a text put together from them. `Walks` follows the scan for a closing bracket, `Skips`
the one for commas; both compose along a text.
-/

namespace Atomo.Schema

/-! ## Texts split at a character -/

theorem splitAt_eq_splitOn (sep : Char) (l : List Char) : splitAt sep l = l.splitOn sep := by
  induction l with
  | nil => rfl
  | cons c l ih =>
    rw [splitAt, List.splitOn_cons_eq_if_modifyHead, ih]
    by_cases hc : c = sep
    · simp [hc]
    · cases hparts : l.splitOn sep with
      | nil => exact absurd hparts (List.splitOn_ne_nil sep l)
      | cons part parts => simp [hc]

/-- No part has the character in it that the text is split at, nor one that is not in the text. -/
theorem mem_splitAt {sep : Char} {l part : List Char} (h : part ∈ splitAt sep l) : sep ∉ part ∧ part ⊆ l := by
  induction l generalizing part with
  | nil =>
    rw [List.mem_singleton.1 h]
    exact ⟨List.not_mem_nil, List.Subset.refl _⟩
  | cons c l ih =>
    unfold splitAt at h
    by_cases hc : c = sep
    · rw [if_pos hc] at h
      rcases List.mem_cons.1 h with rfl | h
      · exact ⟨List.not_mem_nil, List.nil_subset _⟩
      · exact ⟨(ih h).1, fun d hd => List.mem_cons_of_mem _ ((ih h).2 hd)⟩
    · rw [if_neg hc] at h
      cases hparts : splitAt sep l with
      | nil =>
        rw [splitAt_eq_splitOn] at hparts
        exact absurd hparts (List.splitOn_ne_nil sep l)
      | cons first parts =>
        rw [hparts] at h ih
        rcases List.mem_cons.1 h with rfl | h
        · obtain ⟨hsep, hsub⟩ := ih List.mem_cons_self
          refine ⟨?_, List.cons_subset_cons c hsub⟩
          rw [List.mem_cons, not_or]
          exact ⟨fun heq => hc heq.symm, hsep⟩
        · obtain ⟨hsep, hsub⟩ := ih (List.mem_cons_of_mem _ h)
          exact ⟨hsep, fun d hd => List.mem_cons_of_mem _ (hsub hd)⟩

theorem splitAt_joined {sep : Char} {parts : List (List Char)} (hne : parts ≠ []) (h : ∀ part ∈ parts, sep ∉ part) :
    splitAt sep ([sep].intercalate parts) = parts := by
  rw [splitAt_eq_splitOn]
  exact List.splitOn_intercalate sep h hne

theorem of_mem_joined {sep c : Char} {parts : List (List Char)} (h : c ∈ [sep].intercalate parts) :
    c = sep ∨ ∃ part ∈ parts, c ∈ part := by
  induction parts with
  | nil => cases h
  | cons part parts ih =>
    cases parts with
    | nil => exact .inr ⟨part, List.mem_cons_self, by simpa using h⟩
    | cons next parts =>
      rw [List.intercalate_cons_cons, List.mem_append, List.mem_append] at h
      rcases h with (h | h) | h
      · exact .inr ⟨part, List.mem_cons_self, h⟩
      · exact .inl (List.mem_singleton.1 h)
      · rcases ih h with hsep | ⟨p, hp, hc⟩
        · exact .inl hsep
        · exact .inr ⟨p, List.mem_cons_of_mem _ hp, hc⟩

/-- Parts without the separator before one that may have it. -/
theorem splitAt_joined_concat {sep : Char} {parts : List (List Char)} (h : ∀ part ∈ parts, sep ∉ part) (last : List Char) :
    splitAt sep ([sep].intercalate (parts ++ [last])) = parts ++ splitAt sep last := by
  induction parts with
  | nil => simp
  | cons part parts ih =>
    have hpart := h part List.mem_cons_self
    have hrest := ih fun p hp => h p (List.mem_cons_of_mem _ hp)
    rw [splitAt_eq_splitOn] at hrest ⊢
    rw [List.cons_append, List.intercalate_cons_of_ne_nil (by simp), List.append_assoc, List.singleton_append,
      List.splitOn_append_cons_of_beq _ _ (by simp), List.splitOn_eq_singleton hpart, hrest]
    simp

theorem splitAt_append (sep : Char) (t l : List Char) : splitAt sep (t ++ sep :: l) = splitAt sep t ++ splitAt sep l := by
  simp only [splitAt_eq_splitOn]
  exact List.splitOn_append_cons_self t l

theorem splitAt_of_not_mem {sep : Char} {t : List Char} (h : sep ∉ t) : splitAt sep t = [t] := by
  rw [splitAt_eq_splitOn]
  exact List.splitOn_eq_singleton h

end Atomo.Schema

namespace Atomo.Dsl

open Pattern (Item Match Passes Reads Solid find findAll search matchAt)
open Schema

/-! ## Characters -/

/-- `\w` on ASCII and beside `\s`. -/
structure Unicode.Lawful (u : Unicode) : Prop where
  ascii : ∀ c : Char, c.toNat < 128 → u.isWord c = (c.isAlphanum || c = '_')
  blank : ∀ c, isSpace c = true → u.isWord c = false

theorem ascii_lawful : Unicode.ascii.Lawful where
  ascii _ _ := rfl
  blank c hc := by
    have hnat : c.toNat = c.val.toNat := rfl
    simp only [isSpace, Bool.or_eq_true, Bool.and_eq_true, decide_eq_true_eq] at hc
    have heq : Unicode.ascii.isWord c = (c.isUpper || c.isLower || c.isDigit || decide (c = '_')) := rfl
    simp only [heq, Char.isDigit, Bool.or_eq_false_iff, Bool.and_eq_false_iff, decide_eq_false_iff_not,
      UInt32.le_iff_toNat_le, ge_iff_le]
    refine ⟨⟨⟨?_, ?_⟩, ?_⟩, ?_⟩
    · rw [Bool.eq_false_iff, Ne, isUpper_iff]
      omega
    · rw [Bool.eq_false_iff, Ne, isLower_iff]
      omega
    · have hdigit : '0'.val.toNat = 48 ∧ '9'.val.toNat = 57 := ⟨rfl, rfl⟩
      omega
    · rintro rfl
      have hunderscore : '_'.toNat = 95 := rfl
      omega

/-- `∀ c ∈ t` is decided over `t`, not over all characters. -/
theorem forall_of_all {p : Char → Prop} [DecidablePred p] {t : List Char} (h : t.all (fun c => decide (p c)) = true) :
    ∀ c ∈ t, p c := by
  simpa using h

/-- Nothing but white space. -/
def Blank (t : List Char) : Prop :=
  ∀ c ∈ t, isSpace c = true

instance (t : List Char) : Decidable (Blank t) :=
  decidable_of_iff (t.all isSpace = true) List.all_eq_true

/-- An identifier. -/
structure IsName (u : Unicode) (t : List Char) : Prop where
  ne : t ≠ []
  word : ∀ c ∈ t, u.isWord c = true

instance (u : Unicode) (t : List Char) : Decidable (IsName u t) :=
  decidable_of_iff (t ≠ [] ∧ t.all u.isWord = true)
    ⟨fun h => ⟨h.1, List.all_eq_true.1 h.2⟩, fun h => ⟨h.1, List.all_eq_true.2 h.2⟩⟩

theorem spaces_append {lead t : List Char} (hlead : Blank lead) (hhead : ∀ c ∈ t.head?, isSpace c = false) :
    spaces (lead ++ t) = t := by
  unfold spaces
  rw [List.dropWhile_append_of_pos hlead]
  cases t with
  | nil => rfl
  | cons c t => exact List.dropWhile_cons_of_neg (by simp [hhead c rfl])

theorem trim_padded {lead t trail : List Char} (hlead : Blank lead) (htrail : Blank trail)
    (hhead : ∀ c ∈ t.head?, isSpace c = false) (hlast : ∀ c ∈ t.getLast?, isSpace c = false) :
    trim (lead ++ (t ++ trail)) = t := by
  unfold trim
  cases t with
  | nil =>
    have hall : Blank (lead ++ ([] ++ trail)) := by
      intro c hc
      rcases List.mem_append.1 hc with h | h
      · exact hlead c h
      · exact htrail c h
    have hnil := spaces_append (t := []) hall (by simp)
    rw [List.append_nil] at hnil
    rw [hnil]
    rfl
  | cons c t =>
    have hreverse : Blank trail.reverse := fun c hc => htrail c (List.mem_reverse.1 hc)
    rw [spaces_append hlead (by simpa using hhead), List.reverse_append, spaces_append hreverse, List.reverse_reverse]
    rwa [List.head?_reverse]

/-! ## Scans along a text -/

def Ending.prepend (t : List Char) (e : Ending) : Ending :=
  t.foldr Ending.push e

theorem prepend_closed (t body rest : List Char) : (Ending.closed body rest).prepend t = .closed (t ++ body) rest := by
  induction t with
  | nil => rfl
  | cons c t ih =>
    have hstep : (Ending.closed body rest).prepend (c :: t) = ((Ending.closed body rest).prepend t).push c := rfl
    rw [hstep, ih]
    rfl

/-- The scan for a closing bracket comes from one depth to another. -/
def Walks (br : Brackets) (depth : Nat) (t : List Char) (depth' : Nat) : Prop :=
  ∀ l, ending br depth none false (t ++ l) = (ending br depth' none false l).prepend t

section Walks

variable {br : Brackets} {depth depth' depth'' : Nat} {t t' : List Char}

theorem Walks.nil : Walks br depth [] depth :=
  fun _ => rfl

theorem Walks.append (h : Walks br depth t depth') (h' : Walks br depth' t' depth'') : Walks br depth (t ++ t') depth'' := by
  intro l
  rw [List.append_assoc, h, h', Ending.prepend, Ending.prepend, Ending.prepend, List.foldr_append]

/-- Text without brackets and quotes. -/
theorem walks_of_plain (h : ∀ c ∈ t, c ≠ br.opening ∧ c ≠ br.closing ∧ c ∉ br.quotes) : Walks br depth t depth := by
  induction t with
  | nil => exact .nil
  | cons c t ih =>
    intro l
    obtain ⟨hopening, hclosing, hquote⟩ := h c List.mem_cons_self
    rw [List.cons_append, ending, if_neg hopening, if_neg hclosing, if_neg hquote,
      ih fun c hc => h c (List.mem_cons_of_mem _ hc)]
    rfl

theorem walks_opening : Walks br depth [br.opening] (depth + 1) := by
  intro l
  rw [List.singleton_append, ending, if_pos rfl]
  rfl

theorem walks_closing (hne : br.opening ≠ br.closing) (hdepth : 0 < depth) : Walks br (depth + 1) [br.closing] depth := by
  intro l
  rw [List.singleton_append, ending, if_neg hne.symm, if_pos rfl, if_neg (by omega)]
  rfl

/-- The body of a block whose brackets match. -/
theorem Walks.closed (h : Walks br 1 t 1) (hne : br.opening ≠ br.closing) (rest : List Char) :
    ending br 1 none false (t ++ br.closing :: rest) = .closed t rest := by
  rw [h, ending, if_neg hne.symm, if_pos rfl, if_pos rfl, prepend_closed, List.append_nil]

end Walks

/-- The scan for commas comes from one depth to another, and meets no comma outside brackets. -/
def Skips (depth : Nat) (t : List Char) (depth' : Nat) : Prop :=
  ∀ l, commaEntries depth (t ++ l) = (commaEntries depth' l).modifyHead (t ++ ·)

section Skips

variable {depth depth' depth'' : Nat} {t t' : List Char}

theorem Skips.nil : Skips depth [] depth := by
  intro l
  have hid : (fun l : List Char => [] ++ l) = id := rfl
  rw [hid, List.modifyHead_id]
  rfl

theorem Skips.append (h : Skips depth t depth') (h' : Skips depth' t' depth'') : Skips depth (t ++ t') depth'' := by
  intro l
  rw [List.append_assoc, h, h', List.modifyHead_modifyHead]
  simp only [Function.comp_def, List.append_assoc]

/-- The characters that the scan for commas tells apart. -/
def isSeparator (c : Char) : Bool :=
  c ∈ ['(', '[', '{', ')', ']', '}']

theorem skips_of_plain (h : ∀ c ∈ t, isSeparator c = false ∧ (c = ',' → depth ≠ 0)) : Skips depth t depth := by
  induction t with
  | nil => exact .nil
  | cons c t ih =>
    intro l
    obtain ⟨hseparator, hcomma⟩ := h c List.mem_cons_self
    simp only [isSeparator, List.mem_cons, List.not_mem_nil, or_false, decide_eq_false_iff_not, not_or] at hseparator
    rw [List.cons_append, commaEntries, if_neg (by tauto), if_neg (by tauto), if_neg fun hand => hcomma hand.1 hand.2,
      ih fun c hc => h c (List.mem_cons_of_mem _ hc), List.modifyHead_modifyHead]
    rfl

theorem skips_opening {c : Char} (hc : c = '(' ∨ c = '[' ∨ c = '{') : Skips depth [c] (depth + 1) := by
  intro l
  rw [List.singleton_append, commaEntries, if_pos hc]
  rfl

theorem skips_closing {c : Char} (hc : c = ')' ∨ c = ']' ∨ c = '}') : Skips (depth + 1) [c] depth := by
  intro l
  have hopening : ¬(c = '(' ∨ c = '[' ∨ c = '{') := by
    rcases hc with rfl | rfl | rfl <;> decide
  rw [List.singleton_append, commaEntries, if_neg hopening, if_pos hc]
  rfl

end Skips

/-- The text of entries, with commas between them. -/
def commaSeparated (entries : List (List Char)) : List Char :=
  [','].intercalate entries

theorem commaSeparated_cons_cons (t t' : List Char) (l : List (List Char)) :
    commaSeparated (t :: t' :: l) = t ++ ',' :: commaSeparated (t' :: l) := by
  simp [commaSeparated, List.intercalate, List.intersperse]

theorem commaEntries_commaSeparated {entries : List (List Char)} (hne : entries ≠ []) (h : ∀ t ∈ entries, Skips 0 t 0) :
    commaEntries 0 (commaSeparated entries) = entries := by
  induction entries with
  | nil => exact absurd rfl hne
  | cons t entries ih =>
    have ht := h t List.mem_cons_self
    cases entries with
    | nil =>
      have hone := ht []
      rw [List.append_nil] at hone
      simpa [commaSeparated, List.intercalate, commaEntries] using hone
    | cons t' entries =>
      rw [commaSeparated_cons_cons, ht, commaEntries, if_neg (by decide), if_neg (by decide), if_pos ⟨rfl, rfl⟩,
        ih (List.cons_ne_nil _ _) fun t ht => h t (List.mem_cons_of_mem _ ht)]
      simp

/-! ## String literals -/

/-- A string literal: its quotes, and what stands between them. -/
structure StringLit where
  quote : Char
  text : List Char

def StringLit.chars (s : StringLit) : List Char :=
  s.quote :: (s.text ++ [s.quote])

/-- The characters that a scan takes for syntax, also within a string. -/
def isSyntax (c : Char) : Bool :=
  c ∈ ['\'', '"', '\\', '(', ')', '[', ']', '{', '}']

/-- A string in single or double quotes, not empty, and without a character that a scan takes for syntax. -/
structure StringLit.Plain (s : StringLit) : Prop where
  quote : isQuote s.quote = true
  ne : s.text ≠ []
  text : ∀ c ∈ s.text, isSyntax c = false

instance (s : StringLit) : Decidable s.Plain :=
  decidable_of_iff (isQuote s.quote = true ∧ s.text ≠ [] ∧ s.text.all (!isSyntax ·) = true)
    ⟨fun h => ⟨h.1, h.2.1, by simpa using h.2.2⟩, fun h => ⟨h.1, h.2, by simpa using h.3⟩⟩

theorem isQuote_of_isSyntax {c : Char} (h : isSyntax c = false) : isQuote c = false := by
  simp only [isSyntax, List.mem_cons, not_or, decide_eq_false_iff_not] at h
  simp only [isQuote, Bool.or_eq_false_iff, decide_eq_false_iff_not]
  exact ⟨h.1, h.2.1⟩

theorem eq_of_isQuote {c : Char} (h : isQuote c = true) : c = '\'' ∨ c = '"' := by
  simpa [isQuote] using h

/-- A string, as the pattern for strings reads it. -/
theorem reads_string {s : StringLit} (hquote : isQuote s.quote = true) (hne : s.text ≠ [])
    (htext : ∀ c ∈ s.text, isQuote c = false) (r : List Char) : Reads quotedString s.chars [s.text] r := by
  have htake : ∀ l, (Pattern.Piece.one isQuote).take ([s.quote] ++ l) = some ([s.quote], l) := Pattern.take_one hquote
  have hclose : Reads [quoteMark] ([s.quote] ++ []) [] r := .cons (htake ([] ++ r)) .nil
  have hbody : Reads [unquoted, quoteMark] (s.text ++ ([s.quote] ++ [])) [s.text] r :=
    .cons (Pattern.take_some hne (fun c hc => by simp [htext c hc]) (by simp [hquote])) hclose
  exact .cons (w := [s.quote]) (htake _) hbody

theorem reads_quotedString {s : StringLit} (h : s.Plain) (r : List Char) : Reads quotedString s.chars [s.text] r :=
  reads_string h.quote h.ne (fun c hc => isQuote_of_isSyntax (h.text c hc)) r

theorem solid_quotedString : Solid quotedString :=
  rfl

theorem quotedStrings_append {t l : List Char} {s : StringLit} (ht : ∀ c ∈ t, isQuote c = false) (h : s.Plain) :
    quotedStrings (t ++ (s.chars ++ l)) = .ofList s.text :: quotedStrings l := by
  have hpasses : Passes quotedString t (s.chars ++ l) :=
    Pattern.passes_of_head fun c hc l => if_neg (by simp [ht c hc])
  have hfind := Pattern.find_append hpasses
  rw [Pattern.find_of_matchAt (reads_quotedString h l).matchAt_eq] at hfind
  unfold quotedStrings
  rw [Pattern.findAll_of_find solid_quotedString hfind, List.map_cons, List.map_map]
  rfl

theorem quotedStrings_eq_nil {t : List Char} (ht : ∀ c ∈ t, isQuote c = false) : quotedStrings t = [] := by
  have hpasses : Passes quotedString t [] := Pattern.passes_of_head fun c hc l => if_neg (by simp [ht c hc])
  unfold quotedStrings
  rw [Pattern.findAll_of_none solid_quotedString (Pattern.find_eq_none hpasses rfl)]
  rfl

theorem walks_string {br : Brackets} {depth : Nat} {s : StringLit} (hquote : s.quote ∈ br.quotes)
    (hopening : s.quote ≠ br.opening) (hclosing : s.quote ≠ br.closing) (htext : ∀ c ∈ s.text, c ≠ s.quote ∧ c ≠ '\\') :
    Walks br depth s.chars depth := by
  intro l
  have hstring : ∀ t, (∀ c ∈ t, c ≠ s.quote ∧ c ≠ '\\') →
      ending br depth (some s.quote) false (t ++ s.quote :: l) =
        ((ending br depth none false l).push s.quote).prepend t := by
    intro t ht
    induction t with
    | nil =>
      rw [List.nil_append, ending, if_neg (by simp), if_pos rfl]
      rfl
    | cons c t ih =>
      obtain ⟨hc, hbackslash⟩ := ht c List.mem_cons_self
      rw [List.cons_append, ending, if_neg (by simp), if_neg hc, decide_eq_false hbackslash,
        ih fun c hc => ht c (List.mem_cons_of_mem _ hc)]
      rfl
  unfold StringLit.chars
  rw [List.cons_append, ending, if_neg hopening, if_neg hclosing, if_pos hquote, List.append_assoc, List.singleton_append,
    hstring s.text htext, Ending.prepend, Ending.prepend, List.foldr_cons, List.foldr_append]
  rfl

/-! ## Members and calls -/

/-- The text behind a key and before its colon is no part of a word. -/
theorem head_blank_colon {u : Unicode} (hu : u.Lawful) {w r : List Char} (hw : Blank w) :
    ∀ c ∈ (w ++ ':' :: r).head?, u.isWord c = false := by
  intro c hc
  cases w with
  | nil =>
    cases hc
    rw [hu.ascii _ (by decide)]
    decide
  | cons d w =>
    cases hc
    exact hu.blank c (hw c List.mem_cons_self)

theorem take_blanks {w r : List Char} (hw : Blank w) (hr : ∀ c ∈ r.head?, isSpace c = false) :
    (Pattern.Piece.many isSpace).take (w ++ r) = some (w, r) :=
  Pattern.take_many hw hr

/-- `key: [` or `key: {`, as its pattern reads it. -/
theorem reads_member {key : String} {bracket : Char} {w w' : List Char} (hw : Blank w) (hw' : Blank w')
    (hbracket : isSpace bracket = false) (r : List Char) :
    Reads (member key bracket) (key.toList ++ (w ++ ([':'] ++ (w' ++ ([bracket] ++ []))))) [] r := by
  have hcolon : ∀ l : List Char, ∀ c ∈ (':' :: l).head?, isSpace c = false := by
    intro l c hc
    cases hc
    decide
  have hhead : ∀ c ∈ ([bracket] ++ [] ++ r).head?, isSpace c = false := by
    intro c hc
    cases hc
    exact hbracket
  have h4 : Reads [mark bracket] ([bracket] ++ []) [] r := .cons (Pattern.take_lit _ _) .nil
  have h3 : Reads [blanks, mark bracket] (w' ++ ([bracket] ++ [])) [] r := .cons (take_blanks hw' hhead) h4
  have h2 : Reads [mark ':', blanks, mark bracket] ([':'] ++ (w' ++ ([bracket] ++ []))) [] r :=
    .cons (Pattern.take_lit _ _) h3
  have h1 : Reads [blanks, mark ':', blanks, mark bracket] (w ++ ([':'] ++ (w' ++ ([bracket] ++ [])))) [] r :=
    .cons (take_blanks hw (hcolon _)) h2
  exact .cons (Pattern.take_lit _ _) h1

theorem take_of_matchAt {item : Item Char} {items : List (Item Char)} {l : List Char} {m : Match Char}
    (h : matchAt (item :: items) l = some m) :
    ∃ w r m', item.piece.take l = some (w, r) ∧ l = w ++ r ∧ matchAt items r = some m' := by
  obtain ⟨⟨w, r⟩, htake, h⟩ := Option.bind_eq_some_iff.1 h
  obtain ⟨m', hm', -⟩ := Option.map_eq_some_iff.1 h
  exact ⟨w, r, m', htake, Pattern.Piece.take_append htake, hm'⟩

theorem lit_of_take {word w r l : List Char} (h : (Pattern.Piece.lit word).take l = some (w, r)) : w = word := by
  obtain ⟨r', -, heq⟩ := Option.map_eq_some_iff.1 h
  cases heq
  rfl

theorem blank_of_take {l w r : List Char} (h : (Pattern.Piece.many isSpace).take l = some (w, r)) : Blank w := by
  have hblanks := (Prod.mk.inj (Option.some.inj h)).1
  intro c hc
  rw [← hblanks] at hc
  exact List.mem_takeWhile_imp hc

/-- A text that begins like a call goes on to its parenthesis without another character. -/
theorem call_of_matchAt {method : String} {more : List (Item Char)} {l : List Char} {m : Match Char}
    (h : matchAt (call method ++ more) l = some m) :
    ∃ w r, Blank w ∧ l = '.' :: (method.toList ++ w) ++ '(' :: r := by
  obtain ⟨w1, r1, _, h1, rfl, hm1⟩ := take_of_matchAt h
  obtain ⟨w2, r2, _, h2, rfl, hm2⟩ := take_of_matchAt hm1
  obtain ⟨w3, r3, _, h3, rfl, hm3⟩ := take_of_matchAt hm2
  obtain ⟨w4, r4, _, h4, rfl, -⟩ := take_of_matchAt hm3
  rw [lit_of_take h1, lit_of_take h2, lit_of_take h4]
  exact ⟨w3, r4, blank_of_take h3, by simp⟩

theorem mem_of_append_eq {a v l r : List Char} {b x : Char} (h : v ++ x :: l = a ++ b :: r) (hb : b ∉ v) (hx : x ≠ b) :
    x ∈ a := by
  rcases List.append_eq_append_iff.1 h with ⟨c, rfl, hc⟩ | ⟨c, rfl, hc⟩
  · cases c with
    | nil =>
      cases hc
      exact absurd rfl hx
    | cons y c =>
      cases hc
      exact List.mem_append_right _ List.mem_cons_self
  · cases c with
    | nil =>
      cases hc
      exact absurd rfl hx
    | cons y c =>
      cases hc
      exact absurd (List.mem_append_right _ List.mem_cons_self) hb

/-- No call begins in a text without a parenthesis, before a character that is none of a call's. -/
theorem passes_call {method : String} {more : List (Item Char)} {v l : List Char} {x : Char} (hv : '(' ∉ v)
    (hx : x ≠ '(') (hdot : x ≠ '.') (hmethod : x ∉ method.toList) (hspace : isSpace x = false) :
    Passes (call method ++ more) v (x :: l) := by
  induction v with
  | nil => trivial
  | cons c v ih =>
    refine ⟨?_, ih fun hmem => hv (List.mem_cons_of_mem _ hmem)⟩
    cases hmatch : matchAt (call method ++ more) (c :: (v ++ x :: l)) with
    | none => rfl
    | some m =>
      obtain ⟨w, r, hw, hl⟩ := call_of_matchAt hmatch
      have hmem := mem_of_append_eq (v := c :: v) hl hv hx
      rcases List.mem_cons.1 hmem with rfl | hmem
      · exact absurd rfl hdot
      · rcases List.mem_append.1 hmem with hmem | hmem
        · exact absurd hmem hmethod
        · rw [hw x hmem] at hspace
          cases hspace

/-- A call, as its pattern reads it. -/
theorem reads_call (method : String) {w : List Char} (hw : Blank w) {more : List (Item Char)} {t : List Char}
    {groups : List (List Char)} {r : List Char} (h : Reads more t groups r) :
    Reads (call method ++ more) (['.'] ++ (method.toList ++ (w ++ (['('] ++ t)))) groups r := by
  have hparen : ∀ c ∈ (['('] ++ t ++ r).head?, isSpace c = false := by
    intro c hc
    cases hc
    decide
  have h3 : Reads (mark '(' :: more) (['('] ++ t) groups r := .cons (Pattern.take_lit _ _) h
  have h2 : Reads (blanks :: mark '(' :: more) (w ++ (['('] ++ t)) groups r := .cons (take_blanks hw hparen) h3
  have h1 : Reads (text method :: blanks :: mark '(' :: more) (method.toList ++ (w ++ (['('] ++ t))) groups r :=
    .cons (Pattern.take_lit _ _) h2
  exact .cons (Pattern.take_lit _ _) h1

/-! ## Maps -/

theorem lookup?_insert_self {α : Type} (key : String) (value : α) (entries : List (String × α)) :
    lookup? key (insert key value entries) = some value := by
  have hnone : (entries.filter fun entry => decide (entry.1 ≠ key)).find? (fun entry => decide (entry.1 = key)) = none := by
    rw [List.find?_eq_none]
    intro entry hentry
    simpa using (List.mem_filter.1 hentry).2
  unfold lookup? insert
  rw [List.find?_append, hnone, Option.none_or]
  simp

theorem lookup?_filter_of_ne {α : Type} {key key' : String} (hne : key' ≠ key) (entries : List (String × α)) :
    lookup? key' (entries.filter (·.1 ≠ key)) = lookup? key' entries := by
  unfold lookup?
  rw [List.find?_filter]
  congr 2
  funext entry
  by_cases hentry : entry.1 = key'
  · simp [hentry, hne]
  · simp [hentry]

theorem lookup?_insert_of_ne {α : Type} {key key' : String} (hne : key' ≠ key) (value : α) (entries : List (String × α)) :
    lookup? key' (insert key value entries) = lookup? key' entries := by
  have hlast : [(key, value)].find? (fun entry => decide (entry.1 = key')) = none := by
    simp [hne.symm]
  rw [← lookup?_filter_of_ne hne entries]
  unfold lookup? insert
  rw [List.find?_append, hlast, Option.or_none]

/-- The value inserted last under a key. -/
theorem lookup?_foldl_insert {α β : Type} (name : β → String) (value : β → α) (l : List β) (key : String)
    (entries : List (String × α)) :
    lookup? key (l.foldl (fun entries b => insert (name b) (value b) entries) entries) =
      ((l.filter (name · = key)).getLast?.map value).or (lookup? key entries) := by
  induction l generalizing entries with
  | nil => rfl
  | cons b l ih =>
    rw [List.foldl_cons, ih]
    by_cases hb : name b = key
    · subst hb
      rw [lookup?_insert_self, List.filter_cons_of_pos (by simp), List.getLast?_cons]
      cases (l.filter (name · = name b)).getLast? <;> rfl
    · rw [lookup?_insert_of_ne (Ne.symm hb), List.filter_cons_of_neg (by simpa using hb)]

/-! ## The schema of a source -/

section Source

variable {u : Unicode} {content : List Char} {schema : Atomo.Schema}

/-- The name, the table and the options of each model that the parser finds. -/
def modelBlocks (u : Unicode) (content : List Char) : List (String × String × List Char) :=
  (findAll (modelItems u) content).filterMap fun cap =>
    (block braces (some cap)).map fun body => (String.ofList (cap.group 1), String.ofList (cap.group 2), body)

/-- What the parser gives. -/
structure Parsed (u : Unicode) (content : List Char) (schema : Atomo.Schema) (actions : List ActionDef)
    (parsed : List (Model × List String)) : Prop where
  actionDefs : parseActionDefs u content = some actions
  blocks : (modelBlocks u content).mapM (fun (name, table, body) =>
    parseModel u (parseModelNames u content) name table body) = some parsed
  models : schema.models = parsed.foldl (fun models (model, _) => insert model.name model models) []
  actions : schema.actions = actions.foldl (fun defs action =>
    insert action.name (resolveAction (parseModelNames u content) action) defs) []
  warnings : ∀ entry ∈ parsed, entry.2 ⊆ schema.warnings

theorem parsed_of_parseBuilderDsl (h : parseBuilderDsl u content = some schema) :
    ∃ actions parsed, Parsed u content schema actions parsed := by
  unfold parseBuilderDsl at h
  obtain ⟨actions, hactions, h⟩ := Option.bind_eq_some_iff.1 h
  simp only [parseModelBlocks_eq, Option.bind_eq_bind, Option.bind_some] at h
  obtain ⟨parsed, hparsed, h⟩ := Option.bind_eq_some_iff.1 h
  cases h
  refine ⟨actions, parsed, hactions, hparsed, rfl, rfl, fun entry hentry w hw => ?_⟩
  exact List.mem_append_left _ (List.mem_flatMap.2 ⟨entry, hentry, hw⟩)

theorem mem_of_mapM {α β : Type} {f : α → Option β} {l : List α} {l' : List β} (h : l.mapM f = some l') :
    (∀ a ∈ l, ∃ b ∈ l', f a = some b) ∧ ∀ b ∈ l', ∃ a ∈ l, f a = some b := by
  induction l generalizing l' with
  | nil =>
    cases h
    exact ⟨fun _ ha => absurd ha List.not_mem_nil, fun _ hb => absurd hb List.not_mem_nil⟩
  | cons a l ih =>
    rw [List.mapM_cons] at h
    obtain ⟨b, hb, h⟩ := Option.bind_eq_some_iff.1 h
    obtain ⟨bs, hbs, h⟩ := Option.bind_eq_some_iff.1 h
    cases h
    obtain ⟨hl, hl'⟩ := ih hbs
    constructor
    · intro a' ha'
      rcases List.mem_cons.1 ha' with rfl | hmem
      · exact ⟨b, List.mem_cons_self, hb⟩
      · obtain ⟨b', hb', heq⟩ := hl a' hmem
        exact ⟨b', List.mem_cons_of_mem _ hb', heq⟩
    · intro b' hb'
      rcases List.mem_cons.1 hb' with rfl | hmem
      · exact ⟨a, List.mem_cons_self, hb⟩
      · obtain ⟨a', ha', heq⟩ := hl' b' hmem
        exact ⟨a', List.mem_cons_of_mem _ ha', heq⟩

theorem name_parseModel {tableToModel : List (String × String)} {name table : String} {body : List Char}
    {model : Model} {warnings : List String} (h : parseModel u tableToModel name table body = some (model, warnings)) :
    model.name = name := by
  unfold parseModel at h
  simp only [Option.bind_eq_bind, Option.bind_eq_some_iff] at h
  obtain ⟨_, -, _, -, _, -, _, -, _, -, _, -, _, -, h⟩ := h
  cases h
  rfl

/-- The model of a name is that of its block, where all blocks of the name are alike. -/
theorem model_of_block (h : parseBuilderDsl u content = some schema) {name table : String} {body : List Char}
    (hblock : (name, table, body) ∈ modelBlocks u content)
    (honly : ∀ other ∈ modelBlocks u content, other.1 = name → other = (name, table, body)) :
    ∃ model warnings, parseModel u (parseModelNames u content) name table body = some (model, warnings) ∧
      lookup? name schema.models = some model ∧ warnings ⊆ schema.warnings := by
  obtain ⟨actions, parsed, hparsed⟩ := parsed_of_parseBuilderDsl h
  obtain ⟨hfrom, hto⟩ := mem_of_mapM hparsed.blocks
  obtain ⟨⟨model, warnings⟩, hmem, hmodel⟩ := hfrom _ hblock
  refine ⟨model, warnings, hmodel, ?_, hparsed.warnings _ hmem⟩
  have hlookup := lookup?_foldl_insert (fun entry : Model × List String => entry.1.name) (fun entry => entry.1) parsed name []
  have hnamed : model.name = name := name_parseModel hmodel
  obtain ⟨last, hlast⟩ : ∃ last, (parsed.filter fun entry => decide (entry.1.name = name)).getLast? = some last := by
    apply Option.ne_none_iff_exists'.1
    rw [Ne, List.getLast?_eq_none_iff, List.filter_eq_nil_iff]
    exact fun hnone => hnone _ hmem (decide_eq_true hnamed)
  obtain ⟨hlastMem, hlastName⟩ := List.mem_filter.1 (List.mem_of_getLast? hlast)
  obtain ⟨⟨name', table', body'⟩, hother, hparse⟩ := hto _ hlastMem
  have hname' : name' = name := by
    rw [← name_parseModel hparse]
    exact of_decide_eq_true hlastName
  cases honly _ hother hname'
  cases hparse.symm.trans hmodel
  rw [hparsed.models, hlookup, hlast]
  rfl

end Source

end Atomo.Dsl

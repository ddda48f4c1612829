import Mathlib.Data.List.Basic

/-!
# The lexical structure of SQL text

A lexer for the SQL that a program puts together: words (key words, bare names and numbers),
delimited identifiers, string constants, placeholders and single punctuation characters. `Reads text
toks` says that a piece of text reads as these tokens before anything that does not run on into it,
`ReadsAlone` that it does before anything at all; both go from the pieces of a statement to the
statement (`Reads.append`, `Reads.intercalate`), so the tokens of a text are found from how it was
put together.
-/

namespace Sql

inductive Token where
  | word (s : List Char)
  | ident (s : List Char)
  | text (s : List Char)
  | param (n : Nat)
  | symbol (c : Char)
  deriving DecidableEq

/-- The token being read. `identEnd` and `textEnd` have seen a quotation mark that ends the token,
unless another one follows. -/
inductive State where
  | start
  | word (acc : List Char)
  | dollar
  | param (n : Nat)
  | ident (acc : List Char)
  | identEnd (acc : List Char)
  | text (acc : List Char)
  | textEnd (acc : List Char)

def wordChar (c : Char) : Bool :=
  c.isAlphanum || c = '_'

/-- The next character belongs to the token being read. -/
def extend : State → Char → Option State
  | .start, _ => none
  | .word acc, c => if wordChar c then some (.word (acc ++ [c])) else none
  | .dollar, c => if c.isDigit then some (.param (c.toNat - '0'.toNat)) else none
  | .param n, c => if c.isDigit then some (.param (10 * n + (c.toNat - '0'.toNat))) else none
  | .ident acc, c => if c = '"' then some (.identEnd acc) else some (.ident (acc ++ [c]))
  | .identEnd acc, c => if c = '"' then some (.ident (acc ++ ['"'])) else none
  | .text acc, c => if c = '\'' then some (.textEnd acc) else some (.text (acc ++ [c]))
  | .textEnd acc, c => if c = '\'' then some (.text (acc ++ ['\''])) else none

/-- The token read, if it is complete. -/
def finish : State → Option (List Token)
  | .start => some []
  | .word acc => some [.word acc]
  | .dollar => some [.symbol '$']
  | .param n => some [.param n]
  | .identEnd acc => some [.ident acc]
  | .textEnd acc => some [.text acc]
  | .ident _ | .text _ => none

/-- A token begins. -/
def enter (c : Char) : List Token × State :=
  if c = ' ' then ([], .start)
  else if wordChar c then ([], .word [c])
  else if c = '$' then ([], .dollar)
  else if c = '"' then ([], .ident [])
  else if c = '\'' then ([], .text [])
  else ([.symbol c], .start)

/-- The tokens of a text after `out`, the newest first; none if a quotation does not end. -/
def lexFrom (out : List Token) (s : State) : List Char → Option (List Token)
  | [] => (finish s).map fun ts => (ts ++ out).reverse
  | c :: l =>
    match extend s c with
    | some s' => lexFrom out s' l
    | none =>
      match finish s with
      | some ts => lexFrom ((enter c).1 ++ (ts ++ out)) (enter c).2 l
      | none => none

def lex (text : String) : Option (List Token) :=
  lexFrom [] .start text.toList

/-! ## Reading piece by piece -/

variable {a b text : List Char} {s t toks : List Token}

/-- Nothing here runs on from a word, a placeholder or a quotation. -/
def Apart (rest : List Char) : Prop :=
  ∀ c ∈ rest.head?, wordChar c = false ∧ c ≠ '"' ∧ c ≠ '\''

def ReadsAlone (text : List Char) (toks : List Token) : Prop :=
  ∀ out rest, lexFrom out .start (text ++ rest) = lexFrom (toks.reverse ++ out) .start rest

def Reads (text : List Char) (toks : List Token) : Prop :=
  ∀ out rest, Apart rest →
    lexFrom out .start (text ++ rest) = lexFrom (toks.reverse ++ out) .start rest

theorem apart_nil : Apart [] :=
  fun _ h => absurd h (by simp)

theorem apart_cons {c : Char} {rest : List Char} (hc : wordChar c = false ∧ c ≠ '"' ∧ c ≠ '\'') :
    Apart (c :: rest) := by
  intro d hd
  obtain rfl : c = d := by simpa using hd
  exact hc

theorem Apart.append {rest : List Char} (ha : Apart a) (hrest : a = [] → Apart rest) :
    Apart (a ++ rest) := by
  cases a with
  | nil => exact hrest rfl
  | cons c a => exact apart_cons (ha c (by simp))

theorem ReadsAlone.reads (h : ReadsAlone text toks) : Reads text toks :=
  fun out rest _ => h out rest

theorem readsAlone_nil : ReadsAlone [] [] :=
  fun _ _ => rfl

theorem ReadsAlone.append_alone (ha : ReadsAlone a s) (hb : ReadsAlone b t) :
    ReadsAlone (a ++ b) (s ++ t) := by
  intro out rest
  rw [List.append_assoc, ha, hb, List.reverse_append, List.append_assoc]

theorem ReadsAlone.append (ha : ReadsAlone a s) (hb : Reads b t) : Reads (a ++ b) (s ++ t) := by
  intro out rest hrest
  rw [List.append_assoc, ha, hb _ _ hrest, List.reverse_append, List.append_assoc]

/-- A piece that needs what follows it to be apart, and a piece that is. -/
theorem Reads.append (ha : Reads a s) (hb : Reads b t) (happart : Apart b) : Reads (a ++ b) (s ++ t) := by
  intro out rest hrest
  rw [List.append_assoc, ha _ _ (happart.append fun _ => hrest), hb _ _ hrest, List.reverse_append,
    List.append_assoc]

theorem Reads.append_alone (ha : Reads a s) (hb : ReadsAlone b t) (happart : Apart b)
    (hne : b ≠ []) : ReadsAlone (a ++ b) (s ++ t) := by
  intro out rest
  rw [List.append_assoc, ha _ _ (happart.append fun h => absurd h hne), hb, List.reverse_append,
    List.append_assoc]

theorem Reads.lex {text : String} (h : Reads text.toList toks) : lex text = some toks := by
  have hread := h [] [] apart_nil
  rw [List.append_nil, List.append_nil] at hread
  rw [Sql.lex, hread, lexFrom, finish]
  simp

/-- A list of pieces, with a separator that is apart. -/
theorem Reads.intercalate {α : Type*} {sep : List Char} {seps : List Token} (hsep : ReadsAlone sep seps)
    (happart : Apart sep) (hne : sep ≠ []) {f : α → List Char} {g : α → List Token} :
    ∀ xs : List α, (∀ x ∈ xs, Reads (f x) (g x)) →
      Reads (sep.intercalate (xs.map f)) (seps.intercalate (xs.map g))
  | [], _ => readsAlone_nil.reads
  | [x], h => by simpa using h x (by simp)
  | x :: y :: xs, h => by
    have hrest := Reads.intercalate hsep happart hne (y :: xs) fun z hz => h z (List.mem_cons_of_mem x hz)
    have happend := ((h x List.mem_cons_self).append_alone hsep happart hne).append hrest
    simpa [List.intercalate] using happend

/-! ## Tokens with contents -/

/-- The token under way ends before what is apart. -/
theorem lexFrom_finish {out rest : List _} {st : State} {tok : Token} (hfinish : finish st = some [tok])
    (hextend : ∀ c ∈ rest.head?, extend st c = none) :
    lexFrom out st rest = lexFrom (tok :: out) .start rest := by
  cases rest with
  | nil =>
    rw [lexFrom, lexFrom, hfinish]
    rfl
  | cons c rest =>
    have hnext : extend st c = none := hextend c rfl
    rw [lexFrom, hnext]
    simp only [hfinish]
    rfl

/-- A text that leaves a token under way, which nothing apart belongs to. -/
theorem reads_of_ends {q : State} {tok : Token} (hfinish : finish q = some [tok])
    (hextend : ∀ c, wordChar c = false ∧ c ≠ '"' ∧ c ≠ '\'' → extend q c = none)
    (h : ∀ out rest, lexFrom out .start (text ++ rest) = lexFrom (toks.reverse ++ out) q rest) :
    Reads text (toks ++ [tok]) := by
  intro out rest hrest
  rw [h, lexFrom_finish hfinish fun c hc => hextend c (hrest c hc), List.reverse_append]
  rfl

theorem reads_of_word {acc : List Char}
    (h : ∀ out rest, lexFrom out .start (text ++ rest) = lexFrom (t.reverse ++ out) (.word acc) rest) :
    Reads text (t ++ [.word acc]) :=
  reads_of_ends (q := .word acc) rfl (fun c hc => by simp [extend, hc.1]) h

theorem reads_of_identEnd {acc : List Char}
    (h : ∀ out rest,
      lexFrom out .start (text ++ rest) = lexFrom (toks.reverse ++ out) (.identEnd acc) rest) :
    Reads text (toks ++ [.ident acc]) :=
  reads_of_ends (q := .identEnd acc) rfl (fun c hc => by simp [extend, hc.2.1]) h

theorem reads_of_textEnd {acc : List Char}
    (h : ∀ out rest,
      lexFrom out .start (text ++ rest) = lexFrom (toks.reverse ++ out) (.textEnd acc) rest) :
    Reads text (toks ++ [.text acc]) :=
  reads_of_ends (q := .textEnd acc) rfl (fun c hc => by simp [extend, hc.2.2]) h

/-- Text between quotation marks, those inside doubled. -/
def quoted (q : Char) (text : List Char) : List Char :=
  q :: (text.flatMap fun c => if c = q then [q, q] else [c]) ++ [q]

theorem lexFrom_ident (out : List Token) (acc rest : List Char) :
    ∀ text : List Char, lexFrom out (.ident acc)
        ((text.flatMap fun c => if c = '"' then ['"', '"'] else [c]) ++ '"' :: rest) =
      lexFrom out (.identEnd (acc ++ text)) rest := by
  intro text
  induction text generalizing acc with
  | nil => simp [lexFrom, extend]
  | cons c text ih =>
    by_cases hc : c = '"'
    · subst hc
      simp [lexFrom, extend, ih]
    · simp [lexFrom, extend, hc, ih]

theorem reads_quoted (text : List Char) : Reads (quoted '"' text) [.ident text] := by
  intro out rest hrest
  have hident := lexFrom_ident out [] rest text
  rw [List.nil_append] at hident
  have hend : lexFrom out (.identEnd text) rest = lexFrom (.ident text :: out) .start rest :=
    lexFrom_finish rfl fun c hc => if_neg (hrest c hc).2.1
  rw [List.reverse_singleton, List.singleton_append, ← hend, ← hident, quoted, List.cons_append,
    List.cons_append, List.append_assoc]
  rfl

theorem lexFrom_param (out : List Token) (rest : List Char) :
    ∀ (ds : List Char) (n : Nat), (∀ c ∈ ds, c.isDigit = true) →
      lexFrom out (.param n) (ds ++ rest) = lexFrom out (.param (Nat.ofDigitChars 10 ds n)) rest := by
  intro ds
  induction ds with
  | nil => exact fun _ _ => rfl
  | cons c ds ih =>
    intro n hds
    have hc := hds c List.mem_cons_self
    rw [List.cons_append, lexFrom]
    simp only [extend, hc, if_true]
    rw [ih _ fun d hd => hds d (List.mem_cons_of_mem c hd)]
    rfl

theorem isDigit_of_mem_toDigits {c : Char} {n : Nat} (hc : c ∈ Nat.toDigits 10 n) :
    c.isDigit = true :=
  Nat.isDigit_of_mem_toDigits (by omega) (Nat.le_refl 10) hc

theorem wordChar_of_isDigit {c : Char} (h : c.isDigit = true) : wordChar c = true := by
  simp [wordChar, Char.isAlphanum, h]

theorem reads_param (n : Nat) : Reads ('$' :: n.repr.toList) [.param n] := by
  intro out rest hrest
  rw [Nat.toList_repr]
  have hvalue : Nat.ofDigitChars 10 (Nat.toDigits 10 n) 0 = n := Nat.ofDigitChars_ten_toDigits
  have hdigits : ∀ c ∈ Nat.toDigits 10 n, c.isDigit = true := fun c => isDigit_of_mem_toDigits
  have hne : Nat.toDigits 10 n ≠ [] := Nat.toDigits_ne_nil
  generalize Nat.toDigits 10 n = digits at hvalue hdigits hne
  cases digits with
  | nil => exact absurd rfl hne
  | cons d ds =>
    have hd := hdigits d List.mem_cons_self
    have hparam := lexFrom_param out rest ds (d.toNat - '0'.toNat) fun c hc =>
      hdigits c (List.mem_cons_of_mem d hc)
    have hdollar : lexFrom out .start ('$' :: d :: (ds ++ rest)) =
        lexFrom out (.param (d.toNat - '0'.toNat)) (ds ++ rest) := by
      show lexFrom out .dollar (d :: (ds ++ rest)) = _
      rw [lexFrom]
      simp only [extend, hd, if_true]
    have hfold : Nat.ofDigitChars 10 ds (d.toNat - '0'.toNat) = n := by
      rw [← hvalue, Nat.ofDigitChars, Nat.ofDigitChars, List.foldl_cons, Nat.mul_zero, Nat.zero_add]
    rw [List.cons_append, List.cons_append, hdollar, hparam, hfold]
    refine lexFrom_finish rfl fun c hc => if_neg fun hdigit => ?_
    have hword := (hrest c hc).1
    rw [wordChar_of_isDigit hdigit] at hword
    cases hword

theorem lexFrom_word (out : List Token) (rest : List Char) :
    ∀ (ds acc : List Char), (∀ c ∈ ds, wordChar c = true) →
      lexFrom out (.word acc) (ds ++ rest) = lexFrom out (.word (acc ++ ds)) rest := by
  intro ds
  induction ds with
  | nil => simp
  | cons c ds ih =>
    intro acc hds
    have hc := hds c List.mem_cons_self
    rw [List.cons_append, lexFrom]
    simp only [extend, hc, if_true]
    rw [ih _ fun d hd => hds d (List.mem_cons_of_mem c hd), List.append_assoc]
    rfl

theorem reads_nat (n : Nat) : Reads n.repr.toList [.word n.repr.toList] := by
  intro out rest hrest
  rw [Nat.toList_repr]
  have hdigits : ∀ c ∈ Nat.toDigits 10 n, c.isDigit = true := fun c => isDigit_of_mem_toDigits
  cases hds : Nat.toDigits 10 n with
  | nil => exact absurd hds Nat.toDigits_ne_nil
  | cons d ds =>
    rw [hds] at hdigits
    have hwords := fun c hc => wordChar_of_isDigit (hdigits c hc)
    have hd : lexFrom out .start (d :: (ds ++ rest)) = lexFrom out (.word [d]) (ds ++ rest) := by
      have henter : enter d = ([], .word [d]) := by
        have hspace : d ≠ ' ' := by
          rintro rfl
          exact absurd (hwords ' ' List.mem_cons_self) (by decide)
        rw [enter, if_neg hspace, if_pos (hwords d List.mem_cons_self)]
      rw [lexFrom]
      simp only [extend, finish, henter]
      rfl
    rw [List.cons_append, hd, lexFrom_word out rest ds [d] fun c hc => hwords c (List.mem_cons_of_mem d hc)]
    refine lexFrom_finish rfl fun c hc => if_neg ?_
    rw [(hrest c hc).1]
    exact Bool.false_ne_true

/-! ## Bound parameters -/

/-- A token, with the value bound to it in the place of a placeholder. -/
inductive Lexeme (α : Type*) where
  | token (tok : Token)
  | value (v : α)

variable {α : Type*} {idx : Nat} {ps qs : List α} {l m : List (Lexeme α)}

/-- Placeholder `$n` stands for the `n`-th parameter. -/
def Token.bind (params : List α) : Token → Lexeme α
  | .param n =>
    match n, params[n - 1]? with
    | _ + 1, some v => .value v
    | _, _ => .token (.param n)
  | tok => .token tok

/-- The numbers of the placeholders, in the order of the text. -/
def placeholders (toks : List Token) : List Nat :=
  toks.filterMap fun
    | .param n => some n
    | _ => none

@[simp] theorem placeholders_append (s t : List Token) :
    placeholders (s ++ t) = placeholders s ++ placeholders t :=
  List.filterMap_append

/-- The placeholders of `toks` are numbered from `idx` on, one for each of the values `ps`, and stand for
them as `l` says, whatever is bound before and after. -/
structure Numbered (idx : Nat) (toks : List Token) (ps : List α) (l : List (Lexeme α)) : Prop where
  placeholders : placeholders toks = List.range' idx ps.length
  binds : ∀ pre post : List α, pre.length + 1 = idx → toks.map (Token.bind (pre ++ ps ++ post)) = l

theorem Numbered.append (ha : Numbered idx s ps l) (hb : Numbered (idx + ps.length) t qs m) :
    Numbered idx (s ++ t) (ps ++ qs) (l ++ m) where
  placeholders := by
    rw [placeholders_append, ha.placeholders, hb.placeholders, List.length_append, ← List.range'_append_1]
  binds pre post hpre := by
    have hs := ha.binds pre (qs ++ post) hpre
    have ht := hb.binds (pre ++ ps) post (by rw [List.length_append]; omega)
    rw [List.map_append, ← hs, ← ht]
    simp only [List.append_assoc]

theorem placeholders_intercalate {sep : List Token} (hsep : placeholders sep = []) :
    ∀ pieces : List (List Token), (∀ piece ∈ pieces, placeholders piece = []) →
      placeholders (sep.intercalate pieces) = []
  | [], _ => rfl
  | [piece], h => by simpa using h piece (by simp)
  | piece :: next :: pieces, h => by
    have hrest := placeholders_intercalate hsep (next :: pieces) fun l hl => h l (List.mem_cons_of_mem _ hl)
    have hpiece := h piece List.mem_cons_self
    simpa [List.intercalate, hpiece, hsep] using hrest

/-- Tokens without a placeholder. -/
theorem numbered_fixed (h : placeholders t = []) : Numbered idx t ([] : List α) (t.map .token) where
  placeholders := h
  binds pre post _ := by
    refine List.map_congr_left fun tok htok => ?_
    have hnone := List.filterMap_eq_nil_iff.1 h tok htok
    cases tok with
    | param n => cases hnone
    | _ => rfl

theorem numbered_nil : Numbered idx [] ([] : List α) [] :=
  numbered_fixed (t := []) rfl

theorem numbered_param (v : α) (hidx : 0 < idx) : Numbered idx [.param idx] [v] [.value v] where
  placeholders := rfl
  binds pre post hpre := by
    subst hpre
    have hget : (pre ++ [v] ++ post)[pre.length + 1 - 1]? = some v := by simp
    rw [List.map_singleton, Token.bind]
    simp only [hget]

/-- Pieces that are numbered one after the other. -/
inductive Chained : Nat → List (List Token) → List α → List (List (Lexeme α)) → Prop
  | nil (idx : Nat) : Chained idx [] [] []
  | cons {idx toks ps l pieces qs ls} : Numbered idx toks ps l →
      Chained (idx + ps.length) pieces qs ls → Chained idx (toks :: pieces) (ps ++ qs) (l :: ls)

theorem Chained.intercalate {pieces : List (List Token)} {ls : List (List (Lexeme α))}
    (h : Chained idx pieces ps ls) (seps : List Token) (hsep : placeholders seps = []) :
    Numbered idx (seps.intercalate pieces) ps ((seps.map .token).intercalate ls) := by
  induction h with
  | nil idx => exact numbered_nil
  | @cons idx toks ps l pieces qs ls hpiece hpieces ih =>
    cases hpieces with
    | nil => simpa [List.intercalate] using hpiece
    | cons hnext hrest =>
      have hfixed : Numbered (idx + ps.length) seps ([] : List α) (seps.map .token) :=
        numbered_fixed hsep
      have happend := hpiece.append (hfixed.append ih)
      simpa [List.intercalate] using happend

end Sql

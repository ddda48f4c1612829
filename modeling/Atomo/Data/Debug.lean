import Atomo.Data.Json
import Atomo.Lib.Numerals
import Atomo.Lib.Trailing

/-!
# Debug texts

What `{:?}` writes for a string, an option, a vector and a JSON value. Which characters the text of a string has as
they are is Unicode data of the standard library, how a double is printed is up to `serde_json`; both are
parameters here.
-/

namespace Atomo

namespace Debug

/-- The character behind the backslash for those that have an escape of their own. -/
def shortEscape (c : Char) : Option Char :=
  if c = Char.ofNat 0 then some '0'
  else if c = '\t' then some 't'
  else if c = '\r' then some 'r'
  else if c = '\n' then some 'n'
  else if c = '"' then some '"'
  else if c = '\\' then some '\\'
  else none

def hexDigit (d : Nat) : Char :=
  Nat.digitChar d

def hexValue (c : Char) : Option Nat :=
  (List.range 16).find? fun d => hexDigit d = c

def closing : Char :=
  Char.ofNat 0x7d

/-- `char::escape_debug_ext`, as the `Debug` of `str` calls it. -/
def escape (printed : Char → Bool) (c : Char) : List Char :=
  match shortEscape c with
  | some e => ['\\', e]
  | none =>
    if printed c then [c]
    else '\\' :: 'u' :: Char.ofNat 0x7b :: (Numerals.writeShort 16 hexDigit c.toNat ++ [closing])

/-- The text between the quotes. -/
def body (printed : Char → Bool) (s : List Char) : List Char :=
  s.flatMap (escape printed)

def string (printed : Char → Bool) (s : String) : String :=
  "\"" ++ .ofList (body printed s.toList) ++ "\""

def option {α : Type} (debug : α → String) : Option α → String
  | none => "None"
  | some a => "Some(" ++ debug a ++ ")"

def vec {α : Type} (debug : α → String) (xs : List α) : String :=
  "[" ++ String.intercalate ", " (xs.map debug) ++ "]"

/-! ## JSON values -/

/-- The `Display` of a `Number`. A `NegInt` is always less than zero: its digits are those of its distance from
zero. -/
def number (double : ℚ → String) : Number → String
  | .posInt n => n.toNat.repr
  | .negInt i => "-" ++ (2 ^ 64 - i.toUInt64.toNat).repr
  | .float q => double q

def entry (printed : Char → Bool) (field value : String) : String :=
  string printed field ++ ": " ++ value

mutual

/-- The `Debug` of a `serde_json::Value`. -/
def json (printed : Char → Bool) (double : ℚ → String) : Json → String
  | .null => "Null"
  | .bool true => "Bool(true)"
  | .bool false => "Bool(false)"
  | .number n => "Number(" ++ number double n ++ ")"
  | .string s => "String(" ++ string printed s ++ ")"
  | .array xs => "Array [" ++ String.intercalate ", " (elements printed double xs) ++ "]"
  | .object fields => "Object \x7b" ++ String.intercalate ", " (entries printed double fields) ++ "\x7d"

def elements (printed : Char → Bool) (double : ℚ → String) : List Json → List String
  | [] => []
  | x :: xs => json printed double x :: elements printed double xs

def entries (printed : Char → Bool) (double : ℚ → String) : List (String × Json) → List String
  | [] => []
  | (field, value) :: fields => entry printed field (json printed double value) :: entries printed double fields

end

section Values

variable (printed : Char → Bool) (double : ℚ → String)

@[simp] theorem json_null : json printed double .null = "Null" := rfl

@[simp] theorem json_true : json printed double (.bool true) = "Bool(true)" := rfl

@[simp] theorem json_false : json printed double (.bool false) = "Bool(false)" := rfl

@[simp] theorem json_number (n : Number) : json printed double (.number n) = "Number(" ++ number double n ++ ")" := rfl

@[simp] theorem json_string (s : String) : json printed double (.string s) = "String(" ++ string printed s ++ ")" := rfl

@[simp] theorem json_array (xs : List Json) :
    json printed double (.array xs) = "Array [" ++ String.intercalate ", " (elements printed double xs) ++ "]" := rfl

@[simp] theorem json_object (fields : List (String × Json)) :
    json printed double (.object fields) =
      "Object \x7b" ++ String.intercalate ", " (entries printed double fields) ++ "\x7d" := rfl

@[simp] theorem elements_cons (x : Json) (xs : List Json) :
    elements printed double (x :: xs) = json printed double x :: elements printed double xs := rfl

@[simp] theorem entries_cons (field : String) (value : Json) (fields : List (String × Json)) :
    entries printed double ((field, value) :: fields) =
      entry printed field (json printed double value) :: entries printed double fields := rfl

end Values

/-! ## The text of a string can be read back -/

/-- The character that a short escape stands for. -/
def unescape (e : Char) : Option Char :=
  [Char.ofNat 0, '\t', '\r', '\n', '"', '\\'].find? fun c => shortEscape c = some e

/-- The first character that a text between quotes stands for, and the rest of it. -/
def next : List Char → Option (Char × List Char)
  | [] => none
  | c :: rest =>
    if c = '\\' then
      match rest with
      | [] => none
      | e :: rest =>
        if e = 'u' then
          let hex := (rest.drop 1).takeWhile (· ≠ closing)
          (Numerals.read 16 hexValue hex).map fun n => (Char.ofNat n, (rest.drop 1).drop (hex.length + 1))
        else (unescape e).map fun c => (c, rest)
    else some (c, rest)

variable {printed : Char → Bool}

theorem shortEscape_spec {c e : Char} (h : shortEscape c = some e) :
    e ≠ 'u' ∧ unescape e = some c ∧ (e = '"' ↔ c = '"') := by
  unfold shortEscape at h
  repeat' split at h
  all_goals
    cases h
    try subst c
    try decide

theorem closing_notMem_hex (n : Nat) : closing ∉ Numerals.writeShort 16 hexDigit n := by
  intro hmem
  obtain ⟨d, hd, heq⟩ := Numerals.of_mem_writeShort (by decide) hmem
  have hnot : ∀ d < 16, closing ≠ hexDigit d := by decide
  exact hnot d hd heq

theorem next_escape (c : Char) (rest : List Char) : next (escape printed c ++ rest) = some (c, rest) := by
  unfold escape
  cases hshort : shortEscape c with
  | some e =>
    obtain ⟨hu, hunescape, -⟩ := shortEscape_spec hshort
    simp only [List.cons_append, List.nil_append, next, if_true, hu, if_false, hunescape, Option.map_some]
  | none =>
    dsimp only
    split
    · have hc : c ≠ '\\' := by
        rintro rfl
        cases hshort
      simp only [List.cons_append, List.nil_append, next, hc, if_false]
    · have hhex : ((Numerals.writeShort 16 hexDigit c.toNat ++ [closing] ++ rest).takeWhile (· ≠ closing)) =
          Numerals.writeShort 16 hexDigit c.toNat := by
        rw [List.append_assoc, List.takeWhile_append_of_pos]
        · simp
        · intro d hd
          simp only [decide_eq_true_eq]
          rintro rfl
          exact closing_notMem_hex _ hd
      have hread : Numerals.read 16 hexValue (Numerals.writeShort 16 hexDigit c.toNat) = some c.toNat :=
        Numerals.read_writeShort (by decide) (by decide) _
      simp only [List.cons_append, next, if_true, List.drop_succ_cons, List.drop_zero, hhex, hread, Option.map_some,
        Char.ofNat_toNat]
      simp

theorem escape_ne_nil (c : Char) : escape printed c ≠ [] := by
  intro hnil
  have hnext : next (escape printed c ++ []) = some (c, []) := next_escape c []
  rw [hnil] at hnext
  cases hnext

theorem body_injective {s t : List Char} (h : body printed s = body printed t) : s = t := by
  induction s generalizing t with
  | nil =>
    cases t with
    | nil => rfl
    | cons d t =>
      have hnil := List.append_eq_nil_iff.1 h.symm
      exact absurd hnil.1 (escape_ne_nil d)
  | cons c s ih =>
    cases t with
    | nil =>
      have hnil := List.append_eq_nil_iff.1 h
      exact absurd hnil.1 (escape_ne_nil c)
    | cons d t =>
      have hnext := congrArg next h
      unfold body at hnext
      rw [List.flatMap_cons, List.flatMap_cons, next_escape, next_escape] at hnext
      obtain ⟨rfl, hrest⟩ := Prod.mk.inj (Option.some.inj hnext)
      rw [ih hrest]

/-! ## Where it starts -/

/-- Every quote is behind a backslash. -/
def Escaped (l : List Char) : Prop :=
  ∀ a b, l = a ++ '"' :: b → ∃ a', a = a' ++ ['\\']

theorem Escaped.append {l m : List Char} (hl : Escaped l) (hm : Escaped m) : Escaped (l ++ m) := by
  intro a b h
  rcases List.append_eq_append_iff.1 h with ⟨c, rfl, hc⟩ | ⟨c, rfl, hc⟩
  · obtain ⟨a', rfl⟩ := hm c b hc
    exact ⟨l ++ a', (List.append_assoc _ _ _).symm⟩
  · cases c with
    | nil =>
      obtain ⟨a', ha'⟩ := hm [] b hc.symm
      cases a' <;> cases ha'
    | cons d c =>
      obtain ⟨rfl, -⟩ := List.cons.inj hc
      exact hl a c rfl

theorem escaped_of_notMem {l : List Char} (h : '"' ∉ l) : Escaped l := by
  intro a b heq
  apply absurd _ h
  rw [heq]
  exact List.mem_append_right _ List.mem_cons_self

theorem escaped_escape (c : Char) : Escaped (escape printed c) := by
  unfold escape
  cases hshort : shortEscape c with
  | some e =>
    intro a b heq
    cases a with
    | nil => cases heq
    | cons x a =>
      obtain ⟨rfl, htail⟩ := List.cons.inj heq
      cases a with
      | nil => exact ⟨[], rfl⟩
      | cons y a =>
        have hlength := congrArg List.length htail
        simp at hlength
  | none =>
    dsimp only
    split
    · apply escaped_of_notMem
      intro hmem
      rw [← List.mem_singleton.1 hmem] at hshort
      cases hshort
    · apply escaped_of_notMem
      intro hmem
      have hhex : '"' ∉ Numerals.writeShort 16 hexDigit c.toNat := by
        intro hin
        obtain ⟨d, hd, heq⟩ := Numerals.of_mem_writeShort (by decide) hin
        have hnot : ∀ d < 16, '"' ≠ hexDigit d := by decide
        exact hnot d hd heq
      have hends : '"' ∉ ['\\', 'u', Char.ofNat 0x7b] ∧ '"' ≠ closing := by decide
      simp only [List.mem_cons, List.mem_append, List.mem_nil_iff, or_false] at hmem hends
      simp only [not_or] at hends
      tauto

theorem escaped_body (s : List Char) : Escaped (body printed s) := by
  induction s with
  | nil => exact escaped_of_notMem List.not_mem_nil
  | cons c s ih => exact (escaped_escape c).append ih

/-- The text of a string, behind one that does not end in a backslash, starts where it does. -/
theorem quoted_of_suffix {p q s t : List Char} (hp : ¬ ['\\'] <:+ p) (hq : ¬ ['\\'] <:+ q)
    (h : p ++ '"' :: body printed s = q ++ '"' :: body printed t) : s = t := by
  suffices hbody : body printed s = body printed t from body_injective hbody
  have hone : ∀ {p q s t : List Char}, ¬ ['\\'] <:+ p → p ++ '"' :: body printed s = q ++ '"' :: body printed t →
      ∀ r, body printed t = r ++ body printed s → r = [] := by
    intro p q s t hp h r hr
    rw [hr] at h
    have hcancel : p ++ ['"'] = q ++ '"' :: r := by
      have hall : p ++ ['"'] ++ body printed s = q ++ '"' :: r ++ body printed s := by simpa using h
      exact List.append_cancel_right hall
    rcases r.eq_nil_or_concat with rfl | ⟨r', d, rfl⟩
    · rfl
    · exfalso
      have hlast : p ++ ['"'] = q ++ '"' :: r' ++ [d] := by simpa using hcancel
      obtain ⟨hbefore, hd⟩ := List.append_inj' hlast rfl
      cases hd
      have hescaped : Escaped (body printed t) := escaped_body t
      replace hescaped := hescaped r' (body printed s) (by simpa using hr)
      obtain ⟨a', rfl⟩ := hescaped
      exact hp ⟨q ++ '"' :: a', by rw [hbefore]; simp⟩
  have hsuffix : body printed s <:+ q ++ '"' :: body printed t := by
    rw [← h]
    exact ⟨p ++ ['"'], by simp⟩
  have hsuffix' : body printed t <:+ q ++ '"' :: body printed t := ⟨q ++ ['"'], by simp⟩
  rcases List.suffix_or_suffix_of_suffix hsuffix hsuffix' with ⟨r, hr⟩ | ⟨r, hr⟩
  · rw [hone hp h r hr.symm] at hr
    exact hr
  · rw [hone hq h.symm r hr.symm] at hr
    exact hr.symm

/-! ## Texts are taken apart from behind -/

open Trailing (Final Brackets)

/-- What a writer writes, as characters. -/
def chars {α : Type} (debug : α → String) (a : α) : List Char :=
  (debug a).toList

/-- Where the text of a string may stand. -/
def Unescaped (p : List Char) : Prop :=
  ¬ ['\\'] <:+ p

theorem unescaped_append {p l : List Char} {c : Char} (hc : c ≠ '\\') : Unescaped (p ++ (l ++ [c])) := by
  rintro ⟨r, hr⟩
  rw [← List.append_assoc] at hr
  obtain ⟨-, hlast⟩ := List.append_inj' hr rfl
  exact hc (List.cons.inj hlast).1.symm

theorem final_string (s : String) : Final Unescaped (chars (string printed)) s := by
  intro p q t hp hq h
  have hopen : (p ++ '"' :: body printed s.toList) ++ ['"'] = (q ++ '"' :: body printed t.toList) ++ ['"'] := by
    simpa [chars, string, String.toList_append, String.toList_ofList] using h
  exact String.toList_injective (quoted_of_suffix hp hq (List.append_cancel_right hopen))

/-- A text that ends in no opening bracket. -/
def Closed (s : String) : Prop :=
  ∃ l c, s.toList = l ++ [c] ∧ c ≠ '[' ∧ c ≠ '\x7b'

theorem closed_append (s : String) {t : String} {l : List Char} {c : Char} (ht : t.toList = l ++ [c])
    (hc : c ≠ '[' ∧ c ≠ '\x7b') : Closed (s ++ t) :=
  ⟨s.toList ++ l, c, by rw [String.toList_append, ht, List.append_assoc], hc⟩

variable {α : Type} {debug : α → String} {ok ok' : List Char → Prop}

theorem chars_option (o : Option α) :
    chars (option debug) o = match o with
      | none => ['N', 'o', 'n', 'e']
      | some a => "Some(".toList ++ chars debug a ++ [')'] := by
  cases o with
  | none => simp [chars, option]
  | some a => simp [chars, option, String.toList_append]

theorem final_option (h : ∀ a, Final ok' (chars debug) a) (hok : ∀ p, ok' (p ++ "Some(".toList)) (o : Option α) :
    Final ok (chars (option debug)) o := by
  intro p q o' _ _ heq
  rw [chars_option, chars_option] at heq
  cases o with
  | none =>
    cases o' with
    | none => rfl
    | some b =>
      have hends : (p ++ ['N', 'o', 'n']) ++ ['e'] = (q ++ "Some(".toList ++ chars debug b) ++ [')'] := by simpa using heq
      cases (List.append_inj' hends rfl).2
  | some a =>
    cases o' with
    | none =>
      have hends : (p ++ "Some(".toList ++ chars debug a) ++ [')'] = (q ++ ['N', 'o', 'n']) ++ ['e'] := by simpa using heq
      cases (List.append_inj' hends rfl).2
    | some b =>
      have hends : (p ++ "Some(".toList ++ chars debug a) ++ [')'] = (q ++ "Some(".toList ++ chars debug b) ++ [')'] := by
        simpa using heq
      rw [h a (hok p) (hok q) (List.append_cancel_right hends)]

/-- A text that ends with that of an optional string ends with that of no other. -/
theorem option_of_suffix {p q : String} {s t : Option String}
    (h : p ++ option (string printed) s = q ++ option (string printed) t) : s = t := by
  have hlists := congrArg String.toList h
  rw [String.toList_append, String.toList_append] at hlists
  have hopen : ∀ p, Unescaped (p ++ "Some(".toList) := fun p => unescaped_append (l := "Some".toList) (by decide)
  have hfinal : Final (fun _ => True) (chars (option (string printed))) s := final_option final_string hopen s
  exact hfinal trivial trivial hlists

theorem chars_vec (xs : List α) : chars (vec debug) xs = Trailing.listed ['['] [',', ' '] [']'] (chars debug) xs := by
  simp only [chars, vec, Trailing.listed, String.toList_append, String.toList_intercalate, List.map_map]
  rfl

theorem brackets {opening : Char} (hopening : opening = '[' ∨ opening = '\x7b') (hclosed : ∀ a, Closed (debug a)) :
    Brackets [opening] [',', ' '] (chars debug) Unescaped where
  opened p := unescaped_append (l := []) (by rcases hopening with rfl | rfl <;> decide)
  separated p := unescaped_append (l := [',']) (by decide)
  value p q a heq := by
    obtain ⟨l, c, hl, hc⟩ := hclosed a
    unfold chars at heq
    rw [hl, ← List.append_assoc] at heq
    obtain rfl : opening = c := (List.cons.inj (List.append_inj' heq rfl).2).1
    exact hopening.elim hc.1 hc.2
  separator p q heq := by
    have hlast : p ++ [opening] = (q ++ [',']) ++ [' '] := by simpa using heq
    obtain rfl : opening = ' ' := (List.cons.inj (List.append_inj' hlast rfl).2).1
    revert hopening
    decide

theorem final_vec (hclosed : ∀ a, Closed (debug a)) {xs : List α} (h : ∀ x ∈ xs, Final Unescaped (chars debug) x) :
    Final ok (chars (vec debug)) xs := by
  intro p q ys hp hq heq
  rw [chars_vec, chars_vec] at heq
  exact (brackets (.inl rfl) hclosed).final h [']'] hp hq heq

/-! ## JSON values are taken apart from behind -/

/-- How `serde_json` prints a double: no two alike, in the characters of a JSON number, and never as an integer. -/
structure PrintsDoubles (double : ℚ → String) : Prop where
  injective : Function.Injective double
  characters : ∀ q, ∀ c ∈ (double q).toList, c.isDigit ∨ c ∈ ['.', 'e', '-', '+']
  fractional : ∀ q, '.' ∈ (double q).toList ∨ 'e' ∈ (double q).toList

variable {double : ℚ → String}

theorem isDigit_of_mem_repr {n : Nat} {c : Char} (h : c ∈ n.repr.toList) : c.isDigit := by
  rw [Nat.toList_repr] at h
  exact Nat.isDigit_of_mem_toDigits (by decide) (by decide) h

theorem number_characters (hdouble : PrintsDoubles double) (n : Number) :
    ∀ c ∈ (number double n).toList, c.isDigit ∨ c ∈ ['.', 'e', '-', '+'] := by
  cases n with
  | posInt n => exact fun c hc => .inl (isDigit_of_mem_repr hc)
  | negInt i =>
    intro c hc
    rw [number, String.toList_append, List.mem_append] at hc
    rcases hc with hc | hc
    · obtain rfl : c = '-' := List.mem_singleton.1 hc
      exact .inr (by decide)
    · exact .inl (isDigit_of_mem_repr hc)
  | float q => exact hdouble.characters q

theorem repr_injective : Function.Injective Nat.repr := by
  intro m n h
  have hdigits : Nat.toDigits 10 m = Nat.toDigits 10 n := by rw [← Nat.toList_repr, h, Nat.toList_repr]
  rw [← Nat.ofDigitChars_ten_toDigits (n := m), hdigits, Nat.ofDigitChars_ten_toDigits]

theorem number_injective (hdouble : PrintsDoubles double) : Function.Injective (number double) := by
  have hpos : ∀ (n : UInt64) (c : Char), c ∈ (number double (.posInt n)).toList → c.isDigit :=
    fun n c hc => isDigit_of_mem_repr hc
  have hneg : ∀ (i : Int64) (c : Char), c ∈ (number double (.negInt i)).toList → c = '-' ∨ c.isDigit := by
    intro i c hc
    rw [number, String.toList_append, List.mem_append] at hc
    exact hc.imp List.mem_singleton.1 isDigit_of_mem_repr
  have hminus : ∀ i : Int64, '-' ∈ (number double (.negInt i)).toList := by
    intro i
    rw [number, String.toList_append]
    exact List.mem_append_left _ (List.mem_singleton.2 rfl)
  have hposneg : ∀ n i, number double (.posInt n) ≠ number double (.negInt i) := by
    intro n i h
    have hdigit := hpos n '-' (by rw [h]; exact hminus i)
    exact absurd hdigit (by decide)
  have hinteger : ∀ n q, (∀ c ∈ (number double n).toList, c = '-' ∨ c.isDigit) →
      number double n ≠ number double (.float q) := by
    intro n q hn h
    have hfraction : '.' ∈ (number double n).toList ∨ 'e' ∈ (number double n).toList := by
      rw [h]
      exact hdouble.fractional q
    rcases hfraction with hc | hc
    · exact absurd (hn _ hc) (by decide)
    · exact absurd (hn _ hc) (by decide)
  intro m n h
  cases m with
  | posInt m =>
    cases n with
    | posInt n => rw [UInt64.toNat_inj.1 (repr_injective h)]
    | negInt j => exact absurd h (hposneg m j)
    | float r => exact absurd h (hinteger _ r fun c hc => .inr (hpos m c hc))
  | negInt i =>
    cases n with
    | posInt n => exact absurd h.symm (hposneg n i)
    | negInt j =>
      have hdistance := repr_injective (String.append_right_inj "-" |>.1 h)
      have hi := i.toUInt64.toNat_lt
      have hj := j.toUInt64.toNat_lt
      have hbits : i.toUInt64.toNat = j.toUInt64.toNat := by omega
      exact congrArg (fun bits => Number.negInt ⟨bits⟩) (UInt64.toNat_inj.1 hbits)
    | float r => exact absurd h (hinteger _ r fun c hc => hneg i c hc)
  | float q =>
    cases n with
    | posInt n => exact absurd h.symm (hinteger _ q fun c hc => .inr (hpos n c hc))
    | negInt j => exact absurd h.symm (hinteger _ q fun c hc => hneg j c hc)
    | float r => rw [hdouble.injective h]

theorem elements_eq (xs : List Json) : elements printed double xs = xs.map (json printed double) := by
  induction xs with
  | nil => rfl
  | cons x xs ih => rw [elements_cons, ih, List.map_cons]

theorem entries_eq (fields : List (String × Json)) :
    entries printed double fields = fields.map fun f => entry printed f.1 (json printed double f.2) := by
  induction fields with
  | nil => rfl
  | cons f fields ih =>
    obtain ⟨field, value⟩ := f
    rw [entries_cons, ih, List.map_cons]

theorem chars_array (xs : List Json) :
    chars (json printed double) (.array xs) = "Array ".toList ++ chars (vec (json printed double)) xs := by
  simp [chars, vec, elements_eq, String.toList_append]

theorem chars_object (fields : List (String × Json)) :
    chars (json printed double) (.object fields) = "Object ".toList ++
      Trailing.listed ['\x7b'] [',', ' '] ['\x7d'] (chars fun f => entry printed f.1 (json printed double f.2)) fields := by
  simp only [chars, json_object, entries_eq, Trailing.listed, String.toList_append, String.toList_intercalate, List.map_map]
  rfl

/-- The last character of the text of a value. -/
def last : Json → Char
  | .null => 'l'
  | .bool _ | .number _ | .string _ => ')'
  | .array _ => ']'
  | .object _ => '\x7d'

theorem chars_last (v : Json) : ∃ l, chars (json printed double) v = l ++ [last v] := by
  cases v with
  | null => exact ⟨['N', 'u', 'l'], by simp [chars, last]⟩
  | bool b =>
    cases b with
    | true => exact ⟨"Bool(true".toList, by simp [chars, last]⟩
    | false => exact ⟨"Bool(false".toList, by simp [chars, last]⟩
  | number n => exact ⟨_, String.toList_append⟩
  | string s => exact ⟨_, String.toList_append⟩
  | array xs => exact ⟨_, String.toList_append⟩
  | object fields => exact ⟨_, String.toList_append⟩

theorem last_eq {p q : List Char} {v w : Json}
    (h : p ++ chars (json printed double) v = q ++ chars (json printed double) w) : last v = last w := by
  obtain ⟨l, hv⟩ := @chars_last printed double v
  obtain ⟨m, hw⟩ := @chars_last printed double w
  rw [hv, hw, ← List.append_assoc, ← List.append_assoc] at h
  exact (List.cons.inj (List.append_inj' h rfl).2).1

theorem closed_json (v : Json) : Closed (json printed double v) := by
  obtain ⟨l, hl⟩ := @chars_last printed double v
  refine ⟨l, last v, hl, ?_⟩
  cases v <;> simp [last]

/-- What stands in the parentheses of a boolean or a number. -/
def atom (double : ℚ → String) : Bool ⊕ Number → List Char
  | .inl true => ['t', 'r', 'u', 'e']
  | .inl false => ['f', 'a', 'l', 's', 'e']
  | .inr n => chars (number double) n

theorem notMem_atom (hdouble : PrintsDoubles double) (a : Bool ⊕ Number) : '(' ∉ atom double a ∧ '"' ∉ atom double a := by
  match a with
  | .inl true | .inl false => simp [atom]
  | .inr n =>
    constructor
    · intro hc
      exact absurd (number_characters hdouble n _ hc) (by decide)
    · intro hc
      exact absurd (number_characters hdouble n _ hc) (by decide)

theorem atom_injective (hdouble : PrintsDoubles double) : Function.Injective (atom double) := by
  have hword : ∀ (b : Bool) (n : Number), atom double (.inl b) ≠ atom double (.inr n) := by
    intro b n h
    have hl : 'l' ∈ atom double (.inl b) ∨ 'u' ∈ atom double (.inl b) := by cases b <;> simp [atom]
    rw [h] at hl
    rcases hl with hc | hc
    · exact absurd (number_characters hdouble n _ hc) (by decide)
    · exact absurd (number_characters hdouble n _ hc) (by decide)
  intro a b h
  match a, b with
  | .inl true, .inl true | .inl false, .inl false => rfl
  | .inl true, .inl false | .inl false, .inl true => cases h
  | .inl b, .inr n => exact absurd h (hword b n)
  | .inr n, .inl b => exact absurd h.symm (hword b n)
  | .inr m, .inr n => rw [number_injective hdouble (String.toList_injective h)]

theorem final_atom (hdouble : PrintsDoubles double) (a : Bool ⊕ Number) :
    Final (fun p => ['('] <:+ p) (atom double) a :=
  Trailing.final_of_notMem (atom_injective hdouble) (fun a => (notMem_atom hdouble a).1) a

/-- What the closing parenthesis of a boolean or a number stands behind is no quote. -/
theorem atom_ne_quote (hdouble : PrintsDoubles double) {p q : List Char} {a : Bool ⊕ Number} :
    p ++ '(' :: atom double a ≠ q ++ ['"'] := by
  intro h
  rcases (atom double a).eq_nil_or_concat with hnil | ⟨l, c, hl⟩
  · rw [hnil] at h
    cases (List.append_inj' h rfl).2
  · rw [hl, List.concat_eq_append] at h
    have hlast : (p ++ '(' :: l) ++ [c] = q ++ ['"'] := by simpa using h
    obtain rfl : c = '"' := (List.cons.inj (List.append_inj' hlast rfl).2).1
    apply (notMem_atom hdouble a).2
    rw [hl]
    simp

/-- The text of a boolean or a number. -/
theorem chars_atom (v : Json) : (∃ a name, chars (json printed double) v = name ++ '(' :: atom double a ++ [')'] ∧
    v = a.elim .bool .number) ∨ (∃ s, v = .string s) ∨ last v ≠ ')' := by
  match v with
  | .bool true => exact .inl ⟨.inl true, "Bool".toList, by simp [chars, atom], rfl⟩
  | .bool false => exact .inl ⟨.inl false, "Bool".toList, by simp [chars, atom], rfl⟩
  | .number n => exact .inl ⟨.inr n, "Number".toList, by simp [chars, atom, String.toList_append], rfl⟩
  | .string s => exact .inr (.inl ⟨s, rfl⟩)
  | .null | .array _ | .object _ => exact .inr (.inr (by simp [last]))

theorem chars_jsonString (s : String) :
    chars (json printed double) (.string s) = "String(".toList ++ chars (string printed) s ++ [')'] := by
  simp [chars, String.toList_append]

theorem string_ends (s : String) : ∃ l, chars (string printed) s = l ++ ['"'] :=
  ⟨'"' :: body printed s.toList, by simp [chars, string, String.toList_append, String.toList_ofList]⟩

/-- A boolean or a number is no string. -/
theorem atom_ne_string (hdouble : PrintsDoubles double) {p q name : List Char} {a : Bool ⊕ Number} {s : String} :
    p ++ (name ++ '(' :: atom double a ++ [')']) ≠ q ++ chars (json printed double) (.string s) := by
  intro h
  obtain ⟨l, hl⟩ := @string_ends printed s
  rw [chars_jsonString, hl] at h
  have hinner : (p ++ name ++ '(' :: atom double a) ++ [')'] = (q ++ "String(".toList ++ l ++ ['"']) ++ [')'] := by
    simpa using h
  exact atom_ne_quote hdouble (List.append_cancel_right hinner)

/-- Values whose text ends in a parenthesis. -/
theorem parenthesized_inj (hdouble : PrintsDoubles double) {p q : List Char} {v w : Json} (hv : last v = ')')
    (heq : p ++ chars (json printed double) v = q ++ chars (json printed double) w) : v = w := by
  have hw : last w = ')' := (last_eq heq).symm.trans hv
  rcases @chars_atom printed double v with ⟨a, name, hchars, rfl⟩ | ⟨s, rfl⟩ | hne
  · rcases @chars_atom printed double w with ⟨b, name', hchars', rfl⟩ | ⟨t, rfl⟩ | hne
    · rw [hchars, hchars'] at heq
      have hinner : (p ++ name ++ ['(']) ++ atom double a = (q ++ name' ++ ['(']) ++ atom double b := by
        have hall : (p ++ name ++ ['('] ++ atom double a) ++ [')'] = (q ++ name' ++ ['('] ++ atom double b) ++ [')'] := by
          simpa using heq
        exact List.append_cancel_right hall
      obtain ⟨-, rfl⟩ := (final_atom hdouble a).peel ⟨p ++ name, rfl⟩ ⟨q ++ name', rfl⟩ hinner
      rfl
    · rw [hchars] at heq
      exact absurd heq (atom_ne_string hdouble)
    · exact absurd hw hne
  · rcases @chars_atom printed double w with ⟨b, name', hchars', rfl⟩ | ⟨t, rfl⟩ | hne
    · rw [hchars'] at heq
      exact absurd heq.symm (atom_ne_string hdouble)
    · rw [chars_jsonString, chars_jsonString] at heq
      have hopen : ∀ p, Unescaped (p ++ "String(".toList) := fun p => unescaped_append (l := "String".toList) (by decide)
      have hbetween : Final (fun _ => True) (fun s => "String(".toList ++ chars (string printed) s ++ [')']) s :=
        (final_string s).between (fun p _ => hopen p) [')']
      rw [hbetween trivial trivial heq]
    · exact absurd hw hne
  · exact absurd hv hne

theorem final_entry (f : String × Json) (h : Final (fun _ => True) (chars (json printed double)) f.2) :
    Final Unescaped (chars fun f : String × Json => entry printed f.1 (json printed double f.2)) f := by
  intro p q g hp hq heq
  obtain ⟨field, value⟩ := f
  obtain ⟨field', value'⟩ := g
  have hchars : ∀ f : String × Json, chars (fun f : String × Json => entry printed f.1 (json printed double f.2)) f =
      chars (string printed) f.1 ++ [':', ' '] ++ chars (json printed double) f.2 := by
    intro f
    simp [chars, entry, String.toList_append]
  rw [hchars, hchars, ← List.append_assoc, ← List.append_assoc q] at heq
  obtain ⟨hfield, rfl⟩ := h.peel trivial trivial heq
  rw [← List.append_assoc, ← List.append_assoc q] at hfield
  rw [final_string field hp hq (List.append_cancel_right hfield)]

/-- The text of a JSON value tells the value, whatever stands before it. -/
theorem final_json (hdouble : PrintsDoubles double) (v : Json) : Final (fun _ => True) (chars (json printed double)) v := by
  match v with
  | .null =>
    intro p q w _ _ heq
    cases w with
    | null => rfl
    | _ => exact absurd (last_eq heq) (by simp [last])
  | .bool _ => exact fun _ _ _ _ _ heq => parenthesized_inj hdouble rfl heq
  | .number _ => exact fun _ _ _ _ _ heq => parenthesized_inj hdouble rfl heq
  | .string _ => exact fun _ _ _ _ _ heq => parenthesized_inj hdouble rfl heq
  | .array xs =>
    intro p q w _ _ heq
    cases w with
    | array ys =>
      have helements : ∀ x ∈ xs, Final Unescaped (chars (json printed double)) x :=
        fun x hx => (final_json hdouble x).mono fun _ _ => trivial
      rw [chars_array, chars_array, ← List.append_assoc, ← List.append_assoc q] at heq
      have hfinal : Final (fun _ => True) (chars (vec (json printed double))) xs := final_vec closed_json helements
      rw [hfinal trivial trivial heq]
    | _ => exact absurd (last_eq heq) (by simp [last])
  | .object fields =>
    intro p q w _ _ heq
    cases w with
    | object others =>
      have hentries : ∀ f ∈ fields,
          Final Unescaped (chars fun f : String × Json => entry printed f.1 (json printed double f.2)) f :=
        fun f hf => final_entry f (final_json hdouble f.2)
      have hclosed : ∀ f : String × Json, Closed (entry printed f.1 (json printed double f.2)) := by
        intro f
        obtain ⟨l, c, hl, hc⟩ := @closed_json printed double f.2
        exact closed_append _ hl hc
      rw [chars_object, chars_object, ← List.append_assoc, ← List.append_assoc q] at heq
      have hfinal : Final (fun _ => True) (Trailing.listed ['\x7b'] [',', ' '] ['\x7d']
          (chars fun f => entry printed f.1 (json printed double f.2))) fields :=
        (brackets (.inr rfl) hclosed).final hentries ['\x7d']
      rw [hfinal trivial trivial heq]
    | _ => exact absurd (last_eq heq) (by simp [last])
termination_by sizeOf v
decreasing_by
  all_goals simp_wf
  · have hlt := List.sizeOf_lt_of_mem hx
    omega
  · have hlt := List.sizeOf_lt_of_mem hf
    have hfield : sizeOf f.2 < sizeOf f := by
      obtain ⟨a, b⟩ := f
      simp
    omega

end Debug

end Atomo

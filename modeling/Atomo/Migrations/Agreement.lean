import Atomo.Data.Double
import Atomo.Migrations.Checks
import Mathlib.Data.String.Basic

/-!
# The validator and the CHECKs

`check_rule` and the CHECKs of `validation_checks` read the same rules. On one rule each may accept a
value that the other does not: `Spared` and `Refused` name the kinds of values where that is so, and
`Broken` those that break a rule on both sides. The two sides agree about a field unless a rule parts
them that nothing else makes up for (`agrees_iff`).
-/

namespace Atomo.Migrations

open Schema (Field ruleParts ruleFailure fieldErrors checkRule parseUsize splitAt)
open Db (ColumnType SqlValue Bound fieldTypeToSql buildArg assign)

/-! ## Parameters -/

/-- The parameters of `check_rule` are unsigned, those of `validation_checks` signed. -/
theorem parse_cases (text : List Char) :
    (∃ n, parseUsize text = (if n < 2 ^ 64 then some n else none) ∧
        parseI64 text = if n < 2 ^ 63 then some (n : Int) else none) ∨
      (parseUsize text = none ∧ ∀ k, parseI64 text = some k → k ≤ 0) := by
  unfold parseUsize parseI64
  cases text with
  | nil => exact .inr ⟨rfl, fun k hk => by simp [Schema.unsigned] at hk⟩
  | cons c rest =>
    by_cases hminus : c = '-'
    · subst hminus
      refine .inr ⟨by simp, fun k hk => ?_⟩
      simp only [List.head?_cons, if_true] at hk
      split at hk
      · split at hk
        · cases hk
          omega
        · cases hk
      · cases hk
    · have hdigits : Schema.unsigned (c :: rest) = if (c :: rest).head? = some '+' then (c :: rest).tail else c :: rest := by
        by_cases hplus : c = '+'
        · subst hplus
          rfl
        · unfold Schema.unsigned
          split
          · rename_i heq
            exact absurd (List.cons.inj heq).1 hplus
          · rename_i heq
            exact absurd (List.cons.inj heq).1 hminus
          · rw [if_neg]
            simpa using hplus
      have hhead : ¬(c :: rest).head? = some '-' := by simpa using hminus
      rw [hdigits]
      generalize (if (c :: rest).head? = some '+' then (c :: rest).tail else c :: rest) = digits
      by_cases hvalid : digits ≠ [] ∧ digits.all Char.isDigit
      · refine .inl ⟨Nat.ofDigitChars 10 digits 0, ?_, ?_⟩
        · rw [if_pos hvalid]
        · rw [if_pos hvalid, if_neg hhead]
      · rw [if_neg hvalid, if_neg hvalid]
        exact .inr ⟨rfl, fun k hk => by cases hk⟩

def ruleName (rule : List Char) : String :=
  .ofList (ruleParts rule).1

def paramUsize (rule : List Char) : Option Nat :=
  (ruleParts rule).2.bind parseUsize

def paramI64 (rule : List Char) : Option Int :=
  (ruleParts rule).2.bind parseI64

theorem param_cases (rule : List Char) :
    (∃ n, paramUsize rule = (if n < 2 ^ 64 then some n else none) ∧
        paramI64 rule = if n < 2 ^ 63 then some (n : Int) else none) ∨
      (paramUsize rule = none ∧ ∀ k, paramI64 rule = some k → k ≤ 0) := by
  unfold paramUsize paramI64
  cases (ruleParts rule).2 with
  | none => exact .inr ⟨rfl, fun k hk => by cases hk⟩
  | some text => exact parse_cases text

theorem paramUsize_of_pos {rule : List Char} {k : Int} (h : paramI64 rule = some k) (hk : 0 < k) :
    paramUsize rule = some k.toNat := by
  rcases param_cases rule with ⟨n, husize, hi64⟩ | ⟨-, hneg⟩
  · rw [hi64] at h
    split at h
    · cases h
      rw [husize, if_pos (by omega), Int.toNat_natCast]
    · cases h
  · have := hneg k h
    omega

theorem paramI64_of_paramUsize {rule : List Char} {u : Nat} (h : paramUsize rule = some u) :
    paramI64 rule = if u < 2 ^ 63 then some (u : Int) else none := by
  rcases param_cases rule with ⟨n, husize, hi64⟩ | ⟨hnone, -⟩
  · rw [husize] at h
    split at h
    · cases h
      exact hi64
    · cases h
  · rw [hnone] at h
    cases h

/-- Where both sides read a parameter, they read the same. -/
theorem param_eq {rule : List Char} {u : Nat} {k : Int} (hu : paramUsize rule = some u)
    (hk : paramI64 rule = some k) : k = u ∧ u < 2 ^ 63 := by
  rw [paramI64_of_paramUsize hu] at hk
  split at hk
  · rename_i hlt
    cases hk
    exact ⟨rfl, hlt⟩
  · cases hk

/-- The rules that both sides implement. -/
inductive RuleKind where
  | min
  | max
  | email
  | url

def RuleKind.name : RuleKind → String
  | .min => "min"
  | .max => "max"
  | .email => "email"
  | .url => "url"

/-- A rule text made of these rules only. -/
def Shared (rules : String) : Prop :=
  ∀ rule ∈ splitAt '|' rules.toList, ∃ kind : RuleKind, ruleName rule = kind.name

/-! ## Values -/

/-- The value of a field. -/
inductive Entry where
  | null
  | text (s : String)
  | integer (i : Int64)

namespace Entry

def json : Entry → Json
  | .null => .null
  | .text s => .string s
  | .integer i => .number (.ofInt i.toInt)

/-- What a column of the field holds; an integer is stored in a text column as its digits. -/
def held : Bool → Entry → Option SqlValue
  | _, .null => some .null
  | false, .text s => some (.text s)
  | false, .integer i => some (.text i.toInt.repr)
  | true, .text _ => none
  | true, .integer i => some (.bigint i)

theorem buildArg_integer (i : Int64) : buildArg (json (.integer i)) = .int8 i := by
  have hmin := i.le_toInt
  have hmax := i.toInt_lt
  unfold json buildArg Number.ofInt
  by_cases h : 0 ≤ i.toInt
  · have hsize : i.toInt.toNat < 2 ^ 64 := by omega
    have hrange : i.toInt.toNat < 2 ^ 63 := by omega
    have hback : Int64.ofNat i.toInt.toNat = i := by
      rw [← Int64.ofInt_eq_ofNat, Int.toNat_of_nonneg h, Int64.ofInt_toInt]
    simp only [if_pos h, Number.asI64?, UInt64.toNat_ofNat_of_lt' hsize, if_pos hrange, hback]
  · simp only [if_neg h, Number.asI64?, Int64.ofInt_toInt]

theorem assign_eq (pg : Db.Postgres) {type : Schema.FieldType} (htype : type = .string ∨ type = .number) (e : Entry) :
    assign pg (fieldTypeToSql type) false (buildArg e.json) = e.held (decide (type = .number)) := by
  cases e with
  | null => rcases htype with rfl | rfl <;> rfl
  | text s => rcases htype with rfl | rfl <;> rfl
  | integer i => rw [buildArg_integer]; rcases htype with rfl | rfl <;> rfl

end Entry

/-! ## What each side makes of one rule -/

/-- `check_rule` refuses the value. -/
def refuses (fieldName : String) (e : Entry) (rule : List Char) : Bool :=
  (ruleFailure fieldName (some e.json) rule).isSome

def columnType (isNumber : Bool) : ColumnType :=
  if isNumber then .bigint else .text

/-- The CHECK of the rule, if there is one, does not hold of the row. -/
def violated (isNumber : Bool) (v : SqlValue) (rule : List Char) : Bool :=
  (ruleTest rule).any fun test => !test.passes isNumber (columnType isNumber) v

section Sides

variable {fieldName : String} {rule : List Char}

theorem refuses_null {kind : RuleKind} (h : ruleName rule = kind.name) : refuses fieldName .null rule = false := by
  unfold ruleName at h
  unfold refuses ruleFailure Entry.json
  cases kind <;> simp only [h, RuleKind.name] <;> cases (ruleParts rule).2.bind parseUsize <;> rfl

theorem refuses_min_text (h : ruleName rule = "min") (s : String) :
    refuses fieldName (.text s) rule = true ↔ ∃ u, paramUsize rule = some u ∧ s.utf8ByteSize < u := by
  unfold ruleName at h
  unfold refuses ruleFailure Entry.json paramUsize
  simp only [h]
  cases (ruleParts rule).2.bind parseUsize <;> simp

theorem refuses_max_text (h : ruleName rule = "max") (s : String) :
    refuses fieldName (.text s) rule = true ↔ ∃ u, paramUsize rule = some u ∧ u < s.utf8ByteSize := by
  unfold ruleName at h
  unfold refuses ruleFailure Entry.json paramUsize
  simp only [h]
  cases (ruleParts rule).2.bind parseUsize <;> simp

theorem refuses_min_integer (h : ruleName rule = "min") (i : Int64) :
    refuses fieldName (.integer i) rule = true ↔
      ∃ u, paramUsize rule = some u ∧ doubleOfInt i.toInt < doubleOfNat u := by
  unfold ruleName at h
  unfold refuses ruleFailure Entry.json paramUsize
  simp only [h]
  cases (ruleParts rule).2.bind parseUsize <;> simp [Number.asF64_ofInt]

theorem refuses_max_integer (h : ruleName rule = "max") (i : Int64) :
    refuses fieldName (.integer i) rule = true ↔
      ∃ u, paramUsize rule = some u ∧ doubleOfNat u < doubleOfInt i.toInt := by
  unfold ruleName at h
  unfold refuses ruleFailure Entry.json paramUsize
  simp only [h]
  cases (ruleParts rule).2.bind parseUsize <;> simp [Number.asF64_ofInt]

theorem refuses_email_text (h : ruleName rule = "email") (s : String) :
    refuses fieldName (.text s) rule = true ↔ s ≠ "" ∧ ('@' ∉ s.toList ∨ '.' ∉ s.toList) := by
  unfold ruleName at h
  unfold refuses ruleFailure Entry.json
  simp only [h]
  split <;> simp_all

theorem refuses_url_text (h : ruleName rule = "url") (s : String) :
    refuses fieldName (.text s) rule = true ↔ s ≠ "" ∧ matchesUrl s.toList = false := by
  unfold ruleName at h
  unfold refuses ruleFailure Entry.json matchesUrl
  generalize "http://".toList = http
  generalize "https://".toList = https
  simp only [h]
  by_cases hpass : s = "" ∨ http <+: s.toList ∨ https <+: s.toList
  · rw [if_pos hpass]
    rcases hpass with h | h | h <;> simp [h]
  · rw [if_neg hpass]
    simpa using hpass

theorem refuses_pattern_integer (h : ruleName rule = "email" ∨ ruleName rule = "url") (i : Int64) :
    refuses fieldName (.integer i) rule = false := by
  unfold ruleName at h
  unfold refuses ruleFailure Entry.json
  rcases h with h | h <;> simp only [h] <;> rfl

theorem violated_min (h : ruleName rule = "min") (isNumber : Bool) (v : SqlValue) :
    violated isNumber v rule = true ↔
      ∃ k, paramI64 rule = some k ∧ (Test.min k).passes isNumber (columnType isNumber) v = false := by
  unfold ruleName at h
  unfold violated ruleTest paramI64
  simp only [h]
  cases (ruleParts rule).2.bind parseI64 <;> simp

theorem violated_max (h : ruleName rule = "max") (isNumber : Bool) (v : SqlValue) :
    violated isNumber v rule = true ↔
      ∃ k, paramI64 rule = some k ∧ (Test.max k).passes isNumber (columnType isNumber) v = false := by
  unfold ruleName at h
  unfold violated ruleTest paramI64
  simp only [h]
  cases (ruleParts rule).2.bind parseI64 <;> simp

theorem violated_email (h : ruleName rule = "email") (isNumber : Bool) (v : SqlValue) :
    violated isNumber v rule = !Test.email.passes isNumber (columnType isNumber) v := by
  unfold ruleName at h
  unfold violated ruleTest
  simp only [h]
  rfl

theorem violated_url (h : ruleName rule = "url") (isNumber : Bool) (v : SqlValue) :
    violated isNumber v rule = !Test.url.passes isNumber (columnType isNumber) v := by
  unfold ruleName at h
  unfold violated ruleTest
  simp only [h]
  rfl

theorem passes_null_min (k : Int) (isNumber : Bool) :
    (Test.min k).passes isNumber (columnType isNumber) .null = true := by
  cases isNumber <;> rfl

theorem passes_null_max (k : Int) (isNumber : Bool) :
    (Test.max k).passes isNumber (columnType isNumber) .null = true := by
  cases isNumber <;> rfl

/-- NULL passes every test that the type of the column allows. -/
theorem violated_null {kind : RuleKind} {isNumber : Bool} (h : ruleName rule = kind.name) :
    violated isNumber .null rule = true ↔ isNumber = true ∧ (kind = .email ∨ kind = .url) := by
  cases kind with
  | min =>
    rw [violated_min h]
    simp only [passes_null_min, Bool.true_eq_false, and_false, exists_false, reduceCtorEq, or_self]
  | max =>
    rw [violated_max h]
    simp only [passes_null_max, Bool.true_eq_false, and_false, exists_false, reduceCtorEq, or_self]
  | email =>
    rw [violated_email h]
    cases isNumber with
    | false => exact iff_of_false nofun (fun hnumber => nomatch hnumber.1)
    | true => exact iff_of_true rfl ⟨rfl, .inl rfl⟩
  | url =>
    rw [violated_url h]
    cases isNumber with
    | false => exact iff_of_false nofun (fun hnumber => nomatch hnumber.1)
    | true => exact iff_of_true rfl ⟨rfl, .inr rfl⟩

theorem violated_min_text (h : ruleName rule = "min") (s : String) :
    violated false (.text s) rule = true ↔ ∃ k, paramI64 rule = some k ∧ s.length < k := by
  rw [violated_min h]
  refine exists_congr fun k => and_congr_right fun _ => ?_
  exact decide_eq_false_iff_not.trans Int.not_le

theorem violated_max_text (h : ruleName rule = "max") (s : String) :
    violated false (.text s) rule = true ↔ ∃ k, paramI64 rule = some k ∧ k < s.length := by
  rw [violated_max h]
  refine exists_congr fun k => and_congr_right fun _ => ?_
  exact decide_eq_false_iff_not.trans Int.not_le

theorem violated_min_bigint (h : ruleName rule = "min") (i : Int64) :
    violated true (.bigint i) rule = true ↔ ∃ k, paramI64 rule = some k ∧ i.toInt < k := by
  rw [violated_min h]
  refine exists_congr fun k => and_congr_right fun _ => ?_
  exact decide_eq_false_iff_not.trans Int.not_le

theorem violated_max_bigint (h : ruleName rule = "max") (i : Int64) :
    violated true (.bigint i) rule = true ↔ ∃ k, paramI64 rule = some k ∧ k < i.toInt := by
  rw [violated_max h]
  refine exists_congr fun k => and_congr_right fun _ => ?_
  exact decide_eq_false_iff_not.trans Int.not_le

theorem violated_email_text (h : ruleName rule = "email") (s : String) :
    violated false (.text s) rule = true ↔ matchesEmail s.toList = false := by
  rw [violated_email h]
  rw [Bool.not_eq_true']
  exact Iff.rfl

theorem violated_url_text (h : ruleName rule = "url") (s : String) :
    violated false (.text s) rule = true ↔ matchesUrl s.toList = false := by
  rw [violated_url h]
  rw [Bool.not_eq_true']
  exact Iff.rfl

/-- A number column has no `~`. -/
theorem violated_pattern_number (h : ruleName rule = "email" ∨ ruleName rule = "url") (v : SqlValue) :
    violated true v rule = true := by
  rcases h with h | h
  · rw [violated_email h]
    rfl
  · rw [violated_url h]
    rfl

end Sides

/-! ## Where the sides part -/

/-- The digits of an integer, as a text column holds them. -/
def digits (i : Int64) : String :=
  i.toInt.repr

/-- The kinds of values that `check_rule` lets pass and the CHECK does not. -/
inductive Spared (isNumber : Bool) (rule : List Char) : RuleKind → Entry → Prop
  /-- A number column has no `~`. -/
  | emailNumber {e} (hnumber : isNumber = true) : Spared isNumber rule .email e
  | urlNumber {e} (hnumber : isNumber = true) : Spared isNumber rule .url e
  | emailText {s : String} (hform : s = "" ∨ ('@' ∈ s.toList ∧ '.' ∈ s.toList))
      (hmatch : matchesEmail s.toList = false) : Spared isNumber rule .email (.text s)
  | urlText : Spared isNumber rule .url (.text "")
  | emailDigits {i} : Spared isNumber rule .email (.integer i)
  | urlDigits {i} : Spared isNumber rule .url (.integer i)
  /-- Too few characters, but enough bytes. -/
  | minText {s : String} {k} (hk : paramI64 rule = some k) (hchars : s.length < k) (hbytes : k ≤ s.utf8ByteSize) :
      Spared isNumber rule .min (.text s)
  /-- `check_rule` reads no sign. -/
  | maxText {s : String} {k} (hk : paramI64 rule = some k) (hsign : paramUsize rule = none)
      (hchars : k < s.length) : Spared isNumber rule .max (.text s)
  | minDigits {i k} (htext : isNumber = false) (hk : paramI64 rule = some k) (hchars : (digits i).length < k)
      (hvalue : doubleOfInt k ≤ doubleOfInt i.toInt) : Spared isNumber rule .min (.integer i)
  | maxDigits {i k} (htext : isNumber = false) (hk : paramI64 rule = some k) (hchars : k < (digits i).length)
      (hvalue : paramUsize rule = none ∨ doubleOfInt i.toInt ≤ doubleOfInt k) : Spared isNumber rule .max (.integer i)
  /-- Two integers with one double. -/
  | minNumber {i : Int64} {k} (hnumber : isNumber = true) (hk : paramI64 rule = some k) (hlow : i.toInt < k)
      (hvalue : paramUsize rule = none ∨ doubleOfInt i.toInt = doubleOfInt k) : Spared isNumber rule .min (.integer i)
  | maxNumber {i : Int64} {k} (hnumber : isNumber = true) (hk : paramI64 rule = some k) (hhigh : k < i.toInt)
      (hvalue : paramUsize rule = none ∨ doubleOfInt i.toInt = doubleOfInt k) : Spared isNumber rule .max (.integer i)

/-- The kinds of values that `check_rule` refuses and the CHECK does not. A parameter from `2 ^ 63` on has
no CHECK. -/
inductive Refused (isNumber : Bool) (rule : List Char) : RuleKind → Entry → Prop
  | minText {s : String} {u} (hu : paramUsize rule = some u) (hlarge : 2 ^ 63 ≤ u) (hbytes : s.utf8ByteSize < u) :
      Refused isNumber rule .min (.text s)
  | maxText {s : String} {u} (hu : paramUsize rule = some u) (hbytes : u < s.utf8ByteSize)
      (hchars : s.length ≤ u ∨ 2 ^ 63 ≤ u) : Refused isNumber rule .max (.text s)
  | minDigits {i : Int64} {u} (htext : isNumber = false) (hu : paramUsize rule = some u)
      (hvalue : doubleOfInt i.toInt < doubleOfNat u) (hchars : u ≤ (digits i).length ∨ 2 ^ 63 ≤ u) :
      Refused isNumber rule .min (.integer i)
  | maxDigits {i : Int64} {u} (htext : isNumber = false) (hu : paramUsize rule = some u)
      (hvalue : doubleOfNat u < doubleOfInt i.toInt) (hchars : (digits i).length ≤ u) :
      Refused isNumber rule .max (.integer i)
  | minNumber {i : Int64} {u} (hnumber : isNumber = true) (hu : paramUsize rule = some u) (hlarge : 2 ^ 63 ≤ u)
      (hvalue : doubleOfInt i.toInt < doubleOfNat u) : Refused isNumber rule .min (.integer i)

/-- The kinds of values that break a rule on both sides. -/
inductive Broken (isNumber : Bool) (rule : List Char) : RuleKind → Entry → Prop
  | emailText {s : String} (hsome : s ≠ "") (hform : '@' ∉ s.toList ∨ '.' ∉ s.toList) :
      Broken isNumber rule .email (.text s)
  | urlText {s : String} (hsome : s ≠ "") (hmatch : matchesUrl s.toList = false) : Broken isNumber rule .url (.text s)
  | minText {s : String} {u} (hu : paramUsize rule = some u) (hsmall : u < 2 ^ 63) (hbytes : s.utf8ByteSize < u) :
      Broken isNumber rule .min (.text s)
  | maxText {s : String} {u} (hu : paramUsize rule = some u) (hsmall : u < 2 ^ 63) (hchars : u < s.length) :
      Broken isNumber rule .max (.text s)
  | minDigits {i : Int64} {u} (htext : isNumber = false) (hu : paramUsize rule = some u) (hsmall : u < 2 ^ 63)
      (hvalue : doubleOfInt i.toInt < doubleOfNat u) (hchars : (digits i).length < u) :
      Broken isNumber rule .min (.integer i)
  | maxDigits {i : Int64} {u} (htext : isNumber = false) (hu : paramUsize rule = some u)
      (hvalue : doubleOfNat u < doubleOfInt i.toInt) (hchars : u < (digits i).length) :
      Broken isNumber rule .max (.integer i)
  | minNumber {i : Int64} {u} (hnumber : isNumber = true) (hu : paramUsize rule = some u) (hsmall : u < 2 ^ 63)
      (hvalue : doubleOfInt i.toInt < doubleOfNat u) : Broken isNumber rule .min (.integer i)
  | maxNumber {i : Int64} {u} (hnumber : isNumber = true) (hu : paramUsize rule = some u)
      (hvalue : doubleOfNat u < doubleOfInt i.toInt) : Broken isNumber rule .max (.integer i)

/-! ## The kinds are all there are -/

theorem held_text {isNumber : Bool} {s : String} {v : SqlValue} (h : Entry.held isNumber (.text s) = some v) :
    isNumber = false ∧ v = .text s := by
  cases isNumber with
  | false => exact ⟨rfl, (Option.some.inj h).symm⟩
  | true => cases h

theorem held_integer {isNumber : Bool} {i : Int64} {v : SqlValue} (h : Entry.held isNumber (.integer i) = some v) :
    (isNumber = false ∧ v = .text (digits i)) ∨ (isNumber = true ∧ v = .bigint i) := by
  cases isNumber with
  | false => exact .inl ⟨rfl, (Option.some.inj h).symm⟩
  | true => exact .inr ⟨rfl, (Option.some.inj h).symm⟩

theorem held_digits {i : Int64} {v : SqlValue} (h : Entry.held false (.integer i) = some v) : v = .text (digits i) :=
  (Option.some.inj h).symm

theorem held_bigint {i : Int64} {v : SqlValue} (h : Entry.held true (.integer i) = some v) : v = .bigint i :=
  (Option.some.inj h).symm

theorem length_le_utf8ByteSize (s : String) : s.length ≤ s.utf8ByteSize := by
  rw [← String.length_toList, ← String.utf8Len_toList]
  induction s.toList with
  | nil => exact Nat.le_refl _
  | cons c l ih =>
    have hc := c.utf8Size_pos
    rw [String.utf8Len_cons, List.length_cons]
    omega

theorem mem_digits {i : Int64} {c : Char} (h : c ∈ (digits i).toList) : c.isDigit = true ∨ c = '-' := by
  unfold digits at h
  rw [Int.repr_eq_if] at h
  split at h
  · rw [Nat.toList_repr] at h
    exact .inl (Nat.isDigit_of_mem_toDigits (by omega) (Nat.le_refl 10) h)
  · rw [String.toList_append, Nat.toList_repr] at h
    cases List.mem_append.1 h with
    | inl hsign => exact .inr (by simpa using hsign)
    | inr hdigit => exact .inl (Nat.isDigit_of_mem_toDigits (by omega) (Nat.le_refl 10) hdigit)

/-- What matches has the parts that `check_rule` looks for. -/
theorem of_matchesEmail {text : List Char} (h : matchesEmail text = true) : '@' ∈ text ∧ '.' ∈ text := by
  unfold matchesEmail at h
  split at h
  · cases h
  · rename_i c domain hdomain
    have hsub : ∀ d ∈ c :: domain, d ∈ text := by
      intro d hd
      rw [← hdomain] at hd
      exact (List.dropWhile_sublist _).subset hd
    have hc : c = '@' := by
      have hhead := List.head?_dropWhile_not (· ≠ '@') text
      rw [hdomain] at hhead
      simpa using hhead
    rw [Bool.and_eq_true, Bool.and_eq_true] at h
    constructor
    · rw [← hc]
      exact hsub c List.mem_cons_self
    · have hdot : '.' ∈ (domain.drop 1).dropLast := of_decide_eq_true h.2
      exact hsub _ (List.mem_cons_of_mem _ ((List.drop_sublist _ _).subset ((List.dropLast_sublist _).subset hdot)))

theorem matchesEmail_digits (i : Int64) : matchesEmail (digits i).toList = false := by
  rw [Bool.eq_false_iff]
  intro h
  rcases mem_digits (of_matchesEmail h).1 with hdigit | hsign
  · exact absurd hdigit (by decide)
  · exact absurd hsign (by decide)

theorem matchesUrl_digits (i : Int64) : matchesUrl (digits i).toList = false := by
  rw [Bool.eq_false_iff]
  intro h
  have hfirst : 'h' ∈ (digits i).toList := by
    cases Bool.or_eq_true_iff.1 h with
    | inl hhttp => exact (of_decide_eq_true hhttp).subset (by decide)
    | inr hhttps => exact (of_decide_eq_true hhttps).subset (by decide)
  rcases mem_digits hfirst with hdigit | hsign
  · exact absurd hdigit (by decide)
  · exact absurd hsign (by decide)

theorem paramI64_of_large {rule : List Char} {u : Nat} (hu : paramUsize rule = some u) (hlarge : 2 ^ 63 ≤ u) :
    paramI64 rule = none := by
  rw [paramI64_of_paramUsize hu, if_neg (by omega)]

theorem paramI64_of_small {rule : List Char} {u : Nat} (hu : paramUsize rule = some u) (hsmall : u < 2 ^ 63) :
    paramI64 rule = some (u : Int) := by
  rw [paramI64_of_paramUsize hu, if_pos hsmall]

theorem lt_of_double_lt {i : Int} {u : Nat} (h : doubleOfInt i < doubleOfNat u) : i < u := by
  rw [← doubleOfInt_natCast] at h
  by_contra hle
  exact absurd h (not_lt.2 (doubleOfInt_mono (not_lt.1 hle)))

theorem lt_of_lt_double {i : Int} {u : Nat} (h : doubleOfNat u < doubleOfInt i) : u < i := by
  rw [← doubleOfInt_natCast] at h
  by_contra hle
  exact absurd h (not_lt.2 (doubleOfInt_mono (not_lt.1 hle)))

section Kinds

variable {fieldName : String} {rule : List Char} {kind : RuleKind} {isNumber : Bool} {e : Entry} {v : SqlValue}

/-- `check_rule` refuses nothing of a number under a rule for texts. -/
theorem not_refuses_pattern_number (h : ruleName rule = "email" ∨ ruleName rule = "url")
    (hname : ruleName rule = kind.name) (hheld : e.held true = some v) : ¬refuses fieldName e rule = true := by
  cases e with
  | null => simp [refuses_null hname]
  | text s => cases hheld
  | integer i => simp [refuses_pattern_integer h]

theorem Spared.sides (fieldName : String) (h : Spared isNumber rule kind e) (hname : ruleName rule = kind.name)
    (hheld : e.held isNumber = some v) :
    violated isNumber v rule = true ∧ ¬refuses fieldName e rule = true := by
  cases h with
  | emailNumber hnumber =>
    subst hnumber
    exact ⟨violated_pattern_number (.inl hname) v, not_refuses_pattern_number (.inl hname) hname hheld⟩
  | urlNumber hnumber =>
    subst hnumber
    exact ⟨violated_pattern_number (.inr hname) v, not_refuses_pattern_number (.inr hname) hname hheld⟩
  | emailText hform hmatch =>
    obtain ⟨rfl, rfl⟩ := held_text hheld
    refine ⟨(violated_email_text hname _).2 hmatch, fun hrefuses => ?_⟩
    obtain ⟨hsome, hlacks⟩ := (refuses_email_text hname _).1 hrefuses
    rcases hform with hempty | ⟨hat, hdot⟩
    · exact hsome hempty
    · exact hlacks.elim (absurd hat) (absurd hdot)
  | urlText =>
    obtain ⟨rfl, rfl⟩ := held_text hheld
    refine ⟨(violated_url_text hname _).2 (by decide), fun hrefuses => ?_⟩
    exact ((refuses_url_text hname _).1 hrefuses).1 rfl
  | emailDigits =>
    refine ⟨?_, by simp [refuses_pattern_integer (.inl hname)]⟩
    rcases held_integer hheld with ⟨rfl, rfl⟩ | ⟨rfl, rfl⟩
    · exact (violated_email_text hname _).2 (matchesEmail_digits _)
    · exact violated_pattern_number (.inl hname) _
  | urlDigits =>
    refine ⟨?_, by simp [refuses_pattern_integer (.inr hname)]⟩
    rcases held_integer hheld with ⟨rfl, rfl⟩ | ⟨rfl, rfl⟩
    · exact (violated_url_text hname _).2 (matchesUrl_digits _)
    · exact violated_pattern_number (.inr hname) _
  | minText hk hchars hbytes =>
    obtain ⟨rfl, rfl⟩ := held_text hheld
    refine ⟨(violated_min_text hname _).2 ⟨_, hk, hchars⟩, fun hrefuses => ?_⟩
    obtain ⟨u, hu, hlt⟩ := (refuses_min_text hname _).1 hrefuses
    have := param_eq hu hk
    omega
  | maxText hk hsign hchars =>
    obtain ⟨rfl, rfl⟩ := held_text hheld
    refine ⟨(violated_max_text hname _).2 ⟨_, hk, hchars⟩, fun hrefuses => ?_⟩
    obtain ⟨u, hu, -⟩ := (refuses_max_text hname _).1 hrefuses
    rw [hsign] at hu
    cases hu
  | minDigits htext hk hchars hvalue =>
    subst htext
    obtain rfl := held_digits hheld
    refine ⟨(violated_min_text hname _).2 ⟨_, hk, hchars⟩, fun hrefuses => ?_⟩
    obtain ⟨u, hu, hlt⟩ := (refuses_min_integer hname _).1 hrefuses
    rw [(param_eq hu hk).1, doubleOfInt_natCast] at hvalue
    exact absurd hlt (not_lt.2 hvalue)
  | maxDigits htext hk hchars hvalue =>
    subst htext
    obtain rfl := held_digits hheld
    refine ⟨(violated_max_text hname _).2 ⟨_, hk, hchars⟩, fun hrefuses => ?_⟩
    obtain ⟨u, hu, hlt⟩ := (refuses_max_integer hname _).1 hrefuses
    rcases hvalue with hsign | hvalue
    · rw [hsign] at hu
      cases hu
    · rw [(param_eq hu hk).1, doubleOfInt_natCast] at hvalue
      exact absurd hlt (not_lt.2 hvalue)
  | minNumber hnumber hk hlow hvalue =>
    subst hnumber
    obtain rfl := held_bigint hheld
    refine ⟨(violated_min_bigint hname _).2 ⟨_, hk, hlow⟩, fun hrefuses => ?_⟩
    obtain ⟨u, hu, hlt⟩ := (refuses_min_integer hname _).1 hrefuses
    rcases hvalue with hsign | hvalue
    · rw [hsign] at hu
      cases hu
    · rw [(param_eq hu hk).1, doubleOfInt_natCast] at hvalue
      exact absurd hlt (not_lt.2 hvalue.ge)
  | maxNumber hnumber hk hhigh hvalue =>
    subst hnumber
    obtain rfl := held_bigint hheld
    refine ⟨(violated_max_bigint hname _).2 ⟨_, hk, hhigh⟩, fun hrefuses => ?_⟩
    obtain ⟨u, hu, hlt⟩ := (refuses_max_integer hname _).1 hrefuses
    rcases hvalue with hsign | hvalue
    · rw [hsign] at hu
      cases hu
    · rw [(param_eq hu hk).1, doubleOfInt_natCast] at hvalue
      exact absurd hlt (not_lt.2 hvalue.le)

theorem Refused.sides (fieldName : String) (h : Refused isNumber rule kind e) (hname : ruleName rule = kind.name)
    (hheld : e.held isNumber = some v) :
    refuses fieldName e rule = true ∧ ¬violated isNumber v rule = true := by
  cases h with
  | minText hu hlarge hbytes =>
    obtain ⟨rfl, rfl⟩ := held_text hheld
    refine ⟨(refuses_min_text hname _).2 ⟨_, hu, hbytes⟩, fun hviolated => ?_⟩
    obtain ⟨k, hk, -⟩ := (violated_min_text hname _).1 hviolated
    rw [paramI64_of_large hu hlarge] at hk
    cases hk
  | maxText hu hbytes hchars =>
    obtain ⟨rfl, rfl⟩ := held_text hheld
    refine ⟨(refuses_max_text hname _).2 ⟨_, hu, hbytes⟩, fun hviolated => ?_⟩
    obtain ⟨k, hk, hlt⟩ := (violated_max_text hname _).1 hviolated
    have := param_eq hu hk
    omega
  | minDigits htext hu hvalue hchars =>
    subst htext
    obtain rfl := held_digits hheld
    refine ⟨(refuses_min_integer hname _).2 ⟨_, hu, hvalue⟩, fun hviolated => ?_⟩
    obtain ⟨k, hk, hlt⟩ := (violated_min_text hname _).1 hviolated
    have := param_eq hu hk
    omega
  | maxDigits htext hu hvalue hchars =>
    subst htext
    obtain rfl := held_digits hheld
    refine ⟨(refuses_max_integer hname _).2 ⟨_, hu, hvalue⟩, fun hviolated => ?_⟩
    obtain ⟨k, hk, hlt⟩ := (violated_max_text hname _).1 hviolated
    have := param_eq hu hk
    omega
  | minNumber hnumber hu hlarge hvalue =>
    subst hnumber
    obtain rfl := held_bigint hheld
    refine ⟨(refuses_min_integer hname _).2 ⟨_, hu, hvalue⟩, fun hviolated => ?_⟩
    obtain ⟨k, hk, -⟩ := (violated_min_bigint hname _).1 hviolated
    rw [paramI64_of_large hu hlarge] at hk
    cases hk

theorem Broken.sides (fieldName : String) (h : Broken isNumber rule kind e) (hname : ruleName rule = kind.name)
    (hheld : e.held isNumber = some v) :
    refuses fieldName e rule = true ∧ violated isNumber v rule = true := by
  cases h with
  | emailText hsome hform =>
    obtain ⟨rfl, rfl⟩ := held_text hheld
    refine ⟨(refuses_email_text hname _).2 ⟨hsome, hform⟩, (violated_email_text hname _).2 ?_⟩
    rw [Bool.eq_false_iff]
    intro hmatch
    obtain ⟨hat, hdot⟩ := of_matchesEmail hmatch
    exact hform.elim (absurd hat) (absurd hdot)
  | urlText hsome hmatch =>
    obtain ⟨rfl, rfl⟩ := held_text hheld
    exact ⟨(refuses_url_text hname _).2 ⟨hsome, hmatch⟩, (violated_url_text hname _).2 hmatch⟩
  | @minText s u hu hsmall hbytes =>
    obtain ⟨rfl, rfl⟩ := held_text hheld
    have hlength := length_le_utf8ByteSize s
    exact ⟨(refuses_min_text hname _).2 ⟨_, hu, hbytes⟩,
      (violated_min_text hname _).2 ⟨_, paramI64_of_small hu hsmall, by omega⟩⟩
  | @maxText s u hu hsmall hchars =>
    obtain ⟨rfl, rfl⟩ := held_text hheld
    have hlength := length_le_utf8ByteSize s
    exact ⟨(refuses_max_text hname _).2 ⟨_, hu, by omega⟩,
      (violated_max_text hname _).2 ⟨_, paramI64_of_small hu hsmall, by omega⟩⟩
  | minDigits htext hu hsmall hvalue hchars =>
    subst htext
    obtain rfl := held_digits hheld
    exact ⟨(refuses_min_integer hname _).2 ⟨_, hu, hvalue⟩,
      (violated_min_text hname _).2 ⟨_, paramI64_of_small hu hsmall, by omega⟩⟩
  | @maxDigits i u htext hu hvalue hchars =>
    have hlt := lt_of_lt_double hvalue
    have hmax := i.toInt_lt
    subst htext
    obtain rfl := held_digits hheld
    exact ⟨(refuses_max_integer hname _).2 ⟨_, hu, hvalue⟩,
      (violated_max_text hname _).2 ⟨_, paramI64_of_small hu (by omega), by omega⟩⟩
  | minNumber hnumber hu hsmall hvalue =>
    subst hnumber
    obtain rfl := held_bigint hheld
    exact ⟨(refuses_min_integer hname _).2 ⟨_, hu, hvalue⟩,
      (violated_min_bigint hname _).2 ⟨_, paramI64_of_small hu hsmall, lt_of_double_lt hvalue⟩⟩
  | @maxNumber i u hnumber hu hvalue =>
    have hlt := lt_of_lt_double hvalue
    have hmax := i.toInt_lt
    subst hnumber
    obtain rfl := held_bigint hheld
    exact ⟨(refuses_max_integer hname _).2 ⟨_, hu, hvalue⟩,
      (violated_max_bigint hname _).2 ⟨_, paramI64_of_small hu (by omega), hlt⟩⟩

/-- What the CHECK alone does not let in is of a kind of `Spared`. -/
theorem spared_of (hname : ruleName rule = kind.name) (hheld : e.held isNumber = some v)
    (hviolated : violated isNumber v rule = true) (hrefuses : ¬refuses fieldName e rule = true) :
    Spared isNumber rule kind e := by
  cases e with
  | null =>
    cases hheld
    obtain ⟨hnumber, hkind⟩ := (violated_null hname).1 hviolated
    rcases hkind with rfl | rfl
    · exact .emailNumber hnumber
    · exact .urlNumber hnumber
  | text s =>
    obtain ⟨rfl, rfl⟩ := held_text hheld
    cases kind with
    | min =>
      obtain ⟨k, hk, hchars⟩ := (violated_min_text hname s).1 hviolated
      have hu := paramUsize_of_pos hk (by omega)
      refine .minText hk hchars ?_
      by_contra hbytes
      exact hrefuses ((refuses_min_text hname s).2 ⟨_, hu, by omega⟩)
    | max =>
      obtain ⟨k, hk, hchars⟩ := (violated_max_text hname s).1 hviolated
      have hlength := length_le_utf8ByteSize s
      refine .maxText hk ?_ hchars
      cases hu : paramUsize rule with
      | none => rfl
      | some u =>
        have := param_eq hu hk
        exact absurd ((refuses_max_text hname s).2 ⟨u, hu, by omega⟩) hrefuses
    | email =>
      refine .emailText ?_ ((violated_email_text hname s).1 hviolated)
      by_contra hform
      rw [not_or, not_and_or] at hform
      exact hrefuses ((refuses_email_text hname s).2 hform)
    | url =>
      have hmatch := (violated_url_text hname s).1 hviolated
      by_cases hsome : s = ""
      · rw [hsome]
        exact .urlText
      · exact absurd ((refuses_url_text hname s).2 ⟨hsome, hmatch⟩) hrefuses
  | integer i =>
    cases kind with
    | email => exact .emailDigits
    | url => exact .urlDigits
    | min =>
      rcases held_integer hheld with ⟨rfl, rfl⟩ | ⟨rfl, rfl⟩
      · obtain ⟨k, hk, hchars⟩ := (violated_min_text hname _).1 hviolated
        have hu := paramUsize_of_pos hk (by omega)
        refine .minDigits rfl hk hchars (not_lt.1 fun hvalue => ?_)
        have hcast : k = (k.toNat : Int) := by omega
        rw [hcast, doubleOfInt_natCast] at hvalue
        exact hrefuses ((refuses_min_integer hname i).2 ⟨_, hu, hvalue⟩)
      · obtain ⟨k, hk, hlow⟩ := (violated_min_bigint hname i).1 hviolated
        refine .minNumber rfl hk hlow ?_
        cases hu : paramUsize rule with
        | none => exact .inl rfl
        | some u =>
          refine .inr (le_antisymm (doubleOfInt_mono hlow.le) (not_lt.1 fun hvalue => ?_))
          rw [(param_eq hu hk).1, doubleOfInt_natCast] at hvalue
          exact hrefuses ((refuses_min_integer hname i).2 ⟨u, hu, hvalue⟩)
    | max =>
      rcases held_integer hheld with ⟨rfl, rfl⟩ | ⟨rfl, rfl⟩
      · obtain ⟨k, hk, hchars⟩ := (violated_max_text hname _).1 hviolated
        refine .maxDigits rfl hk hchars ?_
        cases hu : paramUsize rule with
        | none => exact .inl rfl
        | some u =>
          refine .inr (not_lt.1 fun hvalue => ?_)
          rw [(param_eq hu hk).1, doubleOfInt_natCast] at hvalue
          exact hrefuses ((refuses_max_integer hname i).2 ⟨u, hu, hvalue⟩)
      · obtain ⟨k, hk, hhigh⟩ := (violated_max_bigint hname i).1 hviolated
        refine .maxNumber rfl hk hhigh ?_
        cases hu : paramUsize rule with
        | none => exact .inl rfl
        | some u =>
          refine .inr (le_antisymm (not_lt.1 fun hvalue => ?_) (doubleOfInt_mono hhigh.le))
          rw [(param_eq hu hk).1, doubleOfInt_natCast] at hvalue
          exact hrefuses ((refuses_max_integer hname i).2 ⟨u, hu, hvalue⟩)

/-- What `check_rule` alone refuses is of a kind of `Refused`, and what both sides refuse of one of
`Broken`. -/
theorem refused_or_broken_of (hname : ruleName rule = kind.name) (hheld : e.held isNumber = some v)
    (hrefuses : refuses fieldName e rule = true) :
    Refused isNumber rule kind e ∨ Broken isNumber rule kind e := by
  cases e with
  | null =>
    rw [refuses_null hname] at hrefuses
    cases hrefuses
  | text s =>
    cases kind with
    | min =>
      obtain ⟨u, hu, hbytes⟩ := (refuses_min_text hname s).1 hrefuses
      by_cases hsmall : u < 2 ^ 63
      · exact .inr (.minText hu hsmall hbytes)
      · exact .inl (.minText hu (by omega) hbytes)
    | max =>
      obtain ⟨u, hu, hbytes⟩ := (refuses_max_text hname s).1 hrefuses
      by_cases hboth : u < 2 ^ 63 ∧ u < s.length
      · exact .inr (.maxText hu hboth.1 hboth.2)
      · exact .inl (.maxText hu hbytes (by omega))
    | email =>
      obtain ⟨hsome, hform⟩ := (refuses_email_text hname s).1 hrefuses
      exact .inr (.emailText hsome hform)
    | url =>
      obtain ⟨hsome, hmatch⟩ := (refuses_url_text hname s).1 hrefuses
      exact .inr (.urlText hsome hmatch)
  | integer i =>
    cases kind with
    | email =>
      rw [refuses_pattern_integer (.inl hname)] at hrefuses
      cases hrefuses
    | url =>
      rw [refuses_pattern_integer (.inr hname)] at hrefuses
      cases hrefuses
    | min =>
      obtain ⟨u, hu, hvalue⟩ := (refuses_min_integer hname i).1 hrefuses
      rcases held_integer hheld with ⟨htext, -⟩ | ⟨hnumber, -⟩
      · by_cases hboth : u < 2 ^ 63 ∧ (digits i).length < u
        · exact .inr (.minDigits htext hu hboth.1 hvalue hboth.2)
        · exact .inl (.minDigits htext hu hvalue (by omega))
      · by_cases hsmall : u < 2 ^ 63
        · exact .inr (.minNumber hnumber hu hsmall hvalue)
        · exact .inl (.minNumber hnumber hu (by omega) hvalue)
    | max =>
      obtain ⟨u, hu, hvalue⟩ := (refuses_max_integer hname i).1 hrefuses
      rcases held_integer hheld with ⟨htext, -⟩ | ⟨hnumber, -⟩
      · by_cases hchars : u < (digits i).length
        · exact .inr (.maxDigits htext hu hvalue hchars)
        · exact .inl (.maxDigits htext hu hvalue (by omega))
      · exact .inr (.maxNumber hnumber hu hvalue)

end Kinds

/-! ## A field -/

/-- Some rule of the text is as `P` says. -/
def HasRule (P : List Char → RuleKind → Prop) (rules : String) : Prop :=
  ∃ rule ∈ splitAt '|' rules.toList, ∃ kind : RuleKind, ruleName rule = kind.name ∧ P rule kind

/-- Where one side lets a value pass a rule that the other side does not, the first refuses the value
for another rule. -/
structure Agreeing (isNumber : Bool) (rules : String) (e : Entry) : Prop where
  spared : HasRule (fun rule kind => Spared isNumber rule kind e) rules →
    HasRule (fun rule kind => Refused isNumber rule kind e ∨ Broken isNumber rule kind e) rules
  refused : HasRule (fun rule kind => Refused isNumber rule kind e) rules →
    HasRule (fun rule kind => Spared isNumber rule kind e ∨ Broken isNumber rule kind e) rules

theorem fieldErrors_eq_nil {fieldName rules : String} {e : Entry} :
    fieldErrors fieldName (some e.json) rules = [] ↔
      ∀ rule ∈ splitAt '|' rules.toList, ¬refuses fieldName e rule = true := by
  unfold fieldErrors refuses checkRule
  simp

theorem ruleChecks_satisfied {cc : CharCase} {fieldName rules : String} {field : Field} {v : SqlValue}
    (htype : field.fieldType = .string ∨ field.fieldType = .number) :
    (∀ c ∈ ruleChecks cc fieldName field rules, c.satisfied (fieldTypeToSql field.fieldType) v = true) ↔
      ∀ rule ∈ splitAt '|' rules.toList, ¬violated (field.fieldType = .number) v rule = true := by
  have hcolumn : fieldTypeToSql field.fieldType = columnType (field.fieldType = .number) := by
    rcases htype with h | h <;> rw [h] <;> rfl
  unfold ruleChecks violated
  rw [hcolumn]
  constructor
  · intro h rule hrule hviolated
    obtain ⟨test, htest, hfails⟩ := (Option.any_eq_true _ _).1 hviolated
    have hpasses := h _ (List.mem_filterMap.2 ⟨rule, hrule, by rw [htest]; rfl⟩)
    rw [RuleCheck.satisfied_eq] at hpasses
    rw [hpasses] at hfails
    cases hfails
  · intro h c hc
    obtain ⟨rule, hrule, hmap⟩ := List.mem_filterMap.1 hc
    obtain ⟨test, htest, rfl⟩ := Option.map_eq_some_iff.1 hmap
    rw [RuleCheck.satisfied_eq]
    by_contra hfails
    refine h rule hrule ((Option.any_eq_true _ _).2 ⟨test, htest, ?_⟩)
    simpa using hfails

/-- The validator and the CHECKs of a field agree about a value just when no rule parts them, or other
rules make up for those that do. -/
theorem agrees_iff (pg : Db.Postgres) (cc : CharCase) {fieldName rules : String} {field : Field} {e : Entry}
    {v : SqlValue} (htype : field.fieldType = .string ∨ field.fieldType = .number) (hrules : Shared rules)
    (hstored : assign pg (fieldTypeToSql field.fieldType) false (buildArg e.json) = some v) :
    (fieldErrors fieldName (some e.json) rules = [] ↔
        ∀ c ∈ ruleChecks cc fieldName field rules, c.satisfied (fieldTypeToSql field.fieldType) v = true) ↔
      Agreeing (field.fieldType = .number) rules e := by
  rw [fieldErrors_eq_nil, ruleChecks_satisfied htype]
  rw [Entry.assign_eq pg htype] at hstored
  generalize decide (field.fieldType = .number) = isNumber at hstored ⊢
  constructor
  · intro hsame
    constructor
    · rintro ⟨rule, hrule, kind, hname, hspared⟩
      obtain ⟨hviolated, -⟩ := hspared.sides fieldName hname hstored
      have hnot : ¬∀ rule ∈ splitAt '|' rules.toList, ¬refuses fieldName e rule = true :=
        fun hpass => hsame.1 hpass rule hrule hviolated
      push Not at hnot
      obtain ⟨other, hother, hrefuses⟩ := hnot
      obtain ⟨kind', hname'⟩ := hrules other hother
      exact ⟨other, hother, kind', hname', refused_or_broken_of hname' hstored hrefuses⟩
    · rintro ⟨rule, hrule, kind, hname, hrefused⟩
      obtain ⟨hrefuses, -⟩ := hrefused.sides fieldName hname hstored
      have hnot : ¬∀ rule ∈ splitAt '|' rules.toList, ¬violated isNumber v rule = true :=
        fun hpass => hsame.2 hpass rule hrule hrefuses
      push Not at hnot
      obtain ⟨other, hother, hviolated⟩ := hnot
      obtain ⟨kind', hname'⟩ := hrules other hother
      refine ⟨other, hother, kind', hname', ?_⟩
      by_cases hrefuses' : refuses fieldName e other = true
      · refine .inr ((refused_or_broken_of hname' hstored hrefuses').resolve_left fun hrefused' => ?_)
        exact (hrefused'.sides fieldName hname' hstored).2 hviolated
      · exact .inl (spared_of hname' hstored hviolated hrefuses')
  · intro hagree
    constructor
    · intro hpass rule hrule hviolated
      obtain ⟨kind, hname⟩ := hrules rule hrule
      have hspared := spared_of hname hstored hviolated (hpass rule hrule)
      obtain ⟨other, hother, kind', hname', hkind⟩ := hagree.spared ⟨rule, hrule, kind, hname, hspared⟩
      apply hpass other hother
      rcases hkind with hrefused | hbroken
      · exact (hrefused.sides fieldName hname' hstored).1
      · exact (hbroken.sides fieldName hname' hstored).1
    · intro hpass rule hrule hrefuses
      obtain ⟨kind, hname⟩ := hrules rule hrule
      rcases refused_or_broken_of hname hstored hrefuses with hrefused | hbroken
      · obtain ⟨other, hother, kind', hname', hkind⟩ := hagree.refused ⟨rule, hrule, kind, hname, hrefused⟩
        apply hpass other hother
        rcases hkind with hspared | hbroken
        · exact (hspared.sides fieldName hname' hstored).1
        · exact (hbroken.sides fieldName hname' hstored).2
      · exact hpass rule hrule (hbroken.sides fieldName hname hstored).2

/-- A field on which both sides agree. -/
theorem title_agrees :
    (fieldErrors "title" (some (.string "ab")) "min:1|max:3" = [] ↔
        ∀ c ∈ ruleChecks .ascii "title" { name := "title", fieldType := .string, optional := true } "min:1|max:3",
          c.satisfied .text (.text "ab") = true) ↔
      Agreeing false "min:1|max:3" (.text "ab") := by
  refine @agrees_iff .bare .ascii "title" "min:1|max:3" { name := "title", fieldType := .string, optional := true }
    (.text "ab") (.text "ab") (.inl rfl) ?_ rfl
  intro rule hrule
  have hrules : splitAt '|' "min:1|max:3".toList = ["min:1".toList, "max:3".toList] := by decide
  rw [hrules, List.mem_cons, List.mem_singleton] at hrule
  rcases hrule with rfl | rfl
  · exact ⟨.min, rfl⟩
  · exact ⟨.max, rfl⟩

/-- One character of two bytes is too long for `check_rule`, and not for the CHECK. -/
theorem accented_title_parts :
    ¬(fieldErrors "title" (some (.string "é")) "max:1" = [] ↔
      ∀ c ∈ ruleChecks .ascii "title" { name := "title", fieldType := .string, optional := true } "max:1",
        c.satisfied .text (.text "é") = true) := by
  decide

end Atomo.Migrations

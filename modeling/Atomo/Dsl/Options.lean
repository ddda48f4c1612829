import Atomo.Dsl.Bindings
import Atomo.Schema.Validation

/-!
# Select options

The options of a `select` field become one rule, `in:a,b`, among the others of its rule text, which the validator
splits at its bars and then at the commas of the options. An option with a comma, a bar or a quote in it does not
come out of that, and a list without options gives no rule; for all other lists the validator accepts the options
and nothing else, and checks every other rule of the field (`options_survive_iff`).
-/

namespace Atomo.Dsl

open Schema (lookup? splitAt checkRule fieldErrors validate)
open Pattern (find findAll matchAt Match)

/-! ## Written options -/

/-- An option of a `select`: text without quotes, and a string in quotes that does not have its own quotes in it. -/
structure SelectOption where
  lead : List Char
  quote : Char
  text : List Char
  lead_unquoted : ∀ c ∈ lead, isQuote c = false
  isQuote_quote : isQuote quote = true
  quote_notMem : quote ∉ text
  text_ne : text ≠ []

def SelectOption.lit (o : SelectOption) : StringLit :=
  ⟨o.quote, o.text⟩

/-- The argument of a `select`, as `['a', 'b']`. -/
structure SelectList where
  options : List SelectOption
  close : List Char
  close_unquoted : ∀ c ∈ close, isQuote c = false

def SelectList.chars (l : SelectList) : List Char :=
  l.options.flatMap (fun o => o.lead ++ o.lit.chars) ++ l.close

/-- The options of the list. -/
def SelectList.values (l : SelectList) : List String :=
  l.options.map fun o => .ofList o.text

/-- The declaration of a field, as `parse_raw_fields` gives it. -/
def SelectList.field (l : SelectList) (name : String) (chain : List Char) : RawField where
  name
  baseType := "select"
  baseArg := if l.chars = [] then none else some l.chars
  chain

/-- The rules of the field but for its options. -/
def RawField.otherRules (u : Unicode) (f : RawField) : List String :=
  { f with baseArg := none : RawField }.rules u

/-- A value of the field is checked against all other rules of it, and a string fails besides if and only if it is
none of the options. -/
def SelectList.Survives (u : Unicode) (l : SelectList) (name : String) (chain : List Char)
    (tableToModel : List (String × String)) : Prop :=
  ∀ data : List (String × Json), ∃ more,
    validate data (resolveFields u [l.field name chain] tableToModel).validation =
      (((l.field name chain).otherRules u).filterMap fun rule => checkRule name (lookup? name data) rule.toList) ++ more ∧
    ∀ s, lookup? name data = some (.string s) → (more = [] ↔ s ∈ l.values)

/-! ## The strings in quotes -/

theorem of_mem_quotedStrings {t : List Char} {s : String} (h : s ∈ quotedStrings t) :
    ∀ c ∈ s.toList, isQuote c = false := by
  obtain ⟨m, hm, rfl⟩ := List.mem_map.1 h
  have hmatch := Pattern.matchAt_of_findAll hm
  obtain ⟨⟨w, r⟩, -, hrest⟩ := Option.bind_eq_some_iff.1 hmatch
  obtain ⟨m', hm', hgroups⟩ := Option.map_eq_some_iff.1 hrest
  obtain ⟨⟨w', r'⟩, htake, hrest'⟩ := Option.bind_eq_some_iff.1 hm'
  obtain ⟨m'', -, rfl⟩ := Option.map_eq_some_iff.1 hrest'
  have hgroup : m.group 1 = w' := by
    have h1 := congrArg Match.groups hgroups
    simp only [Pattern.Item.captured] at h1
    simp [Match.group, ← h1, quoteMark, unquoted]
  rw [String.toList_ofList, hgroup]
  intro c hc
  have hquote := (Pattern.some_of_take htake).2 c hc
  simpa using hquote

theorem quotedStrings_options {os : List SelectOption} (hos : ∀ o ∈ os, ∀ c ∈ o.text, isQuote c = false) {close : List Char}
    (hclose : ∀ c ∈ close, isQuote c = false) :
    quotedStrings (os.flatMap (fun o => o.lead ++ o.lit.chars) ++ close) = os.map fun o => .ofList o.text := by
  induction os with
  | nil => exact quotedStrings_eq_nil hclose
  | cons o os ih =>
    have hread := reads_string (s := o.lit) o.isQuote_quote o.text_ne (hos o List.mem_cons_self)
      (os.flatMap (fun o => o.lead ++ o.lit.chars) ++ close)
    have hone : ∀ r, Pattern.Reads quotedString o.lit.chars [o.text] r →
        quotedStrings (o.lit.chars ++ r) = .ofList o.text :: quotedStrings r := by
      intro r hr
      unfold quotedStrings
      rw [Pattern.findAll_of_find solid_quotedString (Pattern.find_of_matchAt hr.matchAt_eq), List.map_cons, List.map_map]
      rfl
    rw [List.flatMap_cons, List.append_assoc, List.append_assoc, quotedStrings_skip o.lead_unquoted, hone _ hread,
      ih fun o ho => hos o (List.mem_cons_of_mem _ ho), List.map_cons]

/-! ## The rules of the field -/

section Rules

variable {u : Unicode} {l : SelectList} {name : String} {chain : List Char}

/-- What the validator makes of the rule of the options. -/
def SelectList.optionRules (l : SelectList) : List (List Char) :=
  if quotedStrings l.chars = [] then []
  else splitAt '|' ("in:" ++ ",".intercalate (quotedStrings l.chars)).toList

theorem rules_field (u : Unicode) (l : SelectList) (name : String) (chain : List Char) :
    (l.field name chain).rules u = (l.field name chain).otherRules u ++
      if quotedStrings l.chars = [] then [] else ["in:" ++ ",".intercalate (quotedStrings l.chars)] := by
  have hnil : quotedStrings [] = [] := rfl
  unfold RawField.otherRules RawField.rules
  by_cases hchars : l.chars = []
  · simp [SelectList.field, hchars, hnil]
  · simp [SelectList.field, hchars]

theorem bar_notMem_int (n : Int) : '|' ∉ (toString n).toList := by
  have hrepr : ∀ n : Nat, '|' ∉ n.repr.toList := by
    intro n hc
    rw [Nat.toList_repr] at hc
    exact absurd (Nat.isDigit_of_mem_toDigits (by decide) (by decide) hc) (by decide)
  cases n with
  | ofNat n => exact hrepr n
  | negSucc n =>
    intro hc
    have hsplit : (toString (Int.negSucc n)).toList = '-' :: (n + 1).repr.toList := by
      show ("-" ++ (n + 1).repr).toList = _
      rw [String.toList_append]
      rfl
    rw [hsplit, List.mem_cons] at hc
    rcases hc with hc | hc
    · exact absurd hc (by decide)
    · exact hrepr _ hc

theorem bar_notMem_otherRules (u : Unicode) (l : SelectList) (name : String) (chain : List Char) :
    ∀ rule ∈ (l.field name chain).otherRules u, '|' ∉ rule.toList := by
  have hbound : ∀ (key : String) (n : Int), '|' ∉ key.toList → '|' ∉ (key ++ toString n).toList := by
    intro key n hkey
    rw [String.toList_append, List.mem_append, not_or]
    exact ⟨hkey, bar_notMem_int n⟩
  have hrules : (l.field name chain).otherRules u =
      (if contains chain ".required()" then ["required"] else []) ++ [] ++ [] ++
        ((extractChainNumber u chain "min").map fun n => "min:" ++ toString n).toList ++
        ((extractChainNumber u chain "max").map fun n => "max:" ++ toString n).toList ++ [] := by
    simp [RawField.otherRules, RawField.rules, SelectList.field]
    rfl
  intro rule hrule
  simp only [hrules, List.mem_append] at hrule
  rcases hrule with ((((hrule | hrule) | hrule) | hrule) | hrule) | hrule
  · by_cases hrequired : contains chain ".required()" = true
    · rw [if_pos hrequired] at hrule
      rw [List.mem_singleton.1 hrule]
      decide
    · rw [if_neg hrequired] at hrule
      cases hrule
  · cases hrule
  · cases hrule
  · obtain ⟨n, -, rfl⟩ := Option.map_eq_some_iff.1 (Option.mem_toList.1 hrule)
    exact hbound "min:" n (by decide)
  · obtain ⟨n, -, rfl⟩ := Option.map_eq_some_iff.1 (Option.mem_toList.1 hrule)
    exact hbound "max:" n (by decide)
  · cases hrule

/-- The errors of the other rules, and after them those of the options. -/
theorem validate_field (u : Unicode) (l : SelectList) (name : String) (chain : List Char)
    (tableToModel : List (String × String)) (data : List (String × Json)) :
    validate data (resolveFields u [l.field name chain] tableToModel).validation =
      (((l.field name chain).otherRules u).filterMap fun rule => checkRule name (lookup? name data) rule.toList) ++
        l.optionRules.filterMap (checkRule name (lookup? name data)) := by
  have hvalidation : (resolveFields u [l.field name chain] tableToModel).validation =
      if (l.field name chain).rules u = [] then []
      else [(name, "|".intercalate ((l.field name chain).rules u))] := by
    simp only [resolveFields, List.foldl_cons, List.foldl_nil]
    rfl
  have hothers := bar_notMem_otherRules u l name chain
  rw [hvalidation, rules_field]
  generalize (l.field name chain).otherRules u = others at hothers ⊢
  have hjoined : ∀ rules : List String, ("|".intercalate rules).toList = ['|'].intercalate (rules.map String.toList) := by
    intro rules
    rw [String.toList_intercalate]
    rfl
  have hbars : ∀ part ∈ others.map String.toList, '|' ∉ part := by
    intro part hpart
    obtain ⟨rule, hrule, rfl⟩ := List.mem_map.1 hpart
    exact hothers rule hrule
  by_cases hoptions : quotedStrings l.chars = []
  · simp only [hoptions, if_true, List.append_nil, SelectList.optionRules, List.filterMap_nil]
    by_cases hnone : others = []
    · simp [hnone, validate]
    · rw [if_neg hnone]
      simp only [validate, List.flatMap_cons, List.flatMap_nil, List.append_nil, fieldErrors, hjoined]
      rw [Schema.splitAt_joined (by simpa using hnone) hbars, List.filterMap_map]
      rfl
  · simp only [hoptions, if_false, SelectList.optionRules]
    rw [if_neg (by simp)]
    simp only [validate, List.flatMap_cons, List.flatMap_nil, List.append_nil, fieldErrors, hjoined, List.map_append,
      List.map_singleton]
    rw [Schema.splitAt_joined_concat hbars, List.filterMap_append, List.filterMap_map]
    rfl

theorem survives_iff {tableToModel : List (String × String)} : l.Survives u name chain tableToModel ↔
    ∀ s, l.optionRules.filterMap (checkRule name (some (.string s))) = [] ↔ s ∈ l.values := by
  constructor
  · intro h s
    have hlookup : lookup? name [(name, Json.string s)] = some (.string s) := by simp [lookup?]
    obtain ⟨more, herrors, hmore⟩ := h [(name, .string s)]
    rw [validate_field] at herrors
    rw [hlookup] at herrors
    rw [List.append_cancel_left herrors]
    exact hmore s hlookup
  · intro h data
    refine ⟨_, validate_field u l name chain tableToModel data, fun s hs => ?_⟩
    rw [hs]
    exact h s

/-! ## The rule of the options -/

theorem splitAt_in (text : List Char) : ∃ part parts, splitAt '|' text = part :: parts ∧
    splitAt '|' ("in:".toList ++ text) = ("in:".toList ++ part) :: parts := by
  cases hparts : splitAt '|' text with
  | nil =>
    rw [Schema.splitAt_eq_splitOn] at hparts
    exact absurd hparts (List.splitOn_ne_nil '|' text)
  | cons part parts =>
    refine ⟨part, parts, rfl, ?_⟩
    simp [splitAt, hparts]

theorem checkRule_in {s : String} {part : List Char} :
    checkRule name (some (.string s)) ("in:".toList ++ part) = none ↔ s.toList ∈ splitAt ',' part := by
  have hparts : Schema.ruleParts ("in:".toList ++ part) = (['i', 'n'], some part) := by simp [Schema.ruleParts]
  unfold checkRule Schema.ruleFailure
  rw [hparts, Option.map_eq_none_iff]
  by_cases hmem : s.toList ∈ splitAt ',' part
  · simp [hmem]
  · simp [hmem]

/-- What the rule of the options accepts is no empty list's, and has no comma, bar or quote in it. -/
theorem of_accepted {s : String} (hoptions : quotedStrings l.chars ≠ [])
    (h : l.optionRules.filterMap (checkRule name (some (.string s))) = []) :
    ∀ c ∈ s.toList, c ≠ ',' ∧ c ≠ '|' ∧ isQuote c = false := by
  unfold SelectList.optionRules at h
  rw [if_neg hoptions, String.toList_append] at h
  obtain ⟨part, parts, htext, hrules⟩ := splitAt_in (",".intercalate (quotedStrings l.chars)).toList
  rw [hrules, List.filterMap_eq_nil_iff] at h
  have hin := checkRule_in.1 (h _ List.mem_cons_self)
  have hfirst : part ∈ splitAt '|' (",".intercalate (quotedStrings l.chars)).toList := by
    rw [htext]
    exact List.mem_cons_self
  obtain ⟨hbar, hpart⟩ := Schema.mem_splitAt hfirst
  obtain ⟨hcomma, hs⟩ := Schema.mem_splitAt hin
  intro c hc
  refine ⟨fun heq => hcomma (heq ▸ hc), fun heq => hbar (heq ▸ hs hc), ?_⟩
  have hjoined : c ∈ [','].intercalate ((quotedStrings l.chars).map String.toList) := by
    have hmem := hpart (hs hc)
    rw [String.toList_intercalate] at hmem
    exact hmem
  rcases Schema.of_mem_joined hjoined with heq | ⟨quoted, hquoted, hcq⟩
  · exact absurd (heq ▸ hc) hcomma
  · obtain ⟨q, hq, rfl⟩ := List.mem_map.1 hquoted
    exact of_mem_quotedStrings hq c hcq

/-- Options without commas, bars and quotes are accepted, and no other string is. -/
theorem accepted_iff (hne : l.options ≠ []) (hplain : ∀ o ∈ l.options, ∀ c ∈ o.text, c ≠ ',' ∧ c ≠ '|' ∧ isQuote c = false)
    (s : String) : l.optionRules.filterMap (checkRule name (some (.string s))) = [] ↔ s ∈ l.values := by
  have hquoted : quotedStrings l.chars = l.values :=
    quotedStrings_options (fun o ho c hc => (hplain o ho c hc).2.2) l.close_unquoted
  have hvalues : l.values.map String.toList = l.options.map SelectOption.text := by
    simp [SelectList.values, Function.comp_def]
  have hjoined : (",".intercalate l.values).toList = [','].intercalate (l.options.map SelectOption.text) := by
    rw [String.toList_intercalate, hvalues]
    rfl
  have hbar : '|' ∉ [','].intercalate (l.options.map SelectOption.text) := by
    intro hc
    rcases Schema.of_mem_joined hc with hc | ⟨part, hpart, hc⟩
    · exact absurd hc (by decide)
    · obtain ⟨o, ho, rfl⟩ := List.mem_map.1 hpart
      exact (hplain o ho _ hc).2.1 rfl
  have hrules : l.optionRules = ["in:".toList ++ [','].intercalate (l.options.map SelectOption.text)] := by
    unfold SelectList.optionRules
    rw [hquoted, if_neg (by simpa [SelectList.values] using hne), String.toList_append, hjoined, Schema.splitAt_eq_splitOn]
    refine List.splitOn_eq_singleton ?_
    rw [List.mem_append, not_or]
    exact ⟨by decide, hbar⟩
  have hcommas : ∀ part ∈ l.options.map SelectOption.text, ',' ∉ part := by
    intro part hpart hc
    obtain ⟨o, ho, rfl⟩ := List.mem_map.1 hpart
    exact (hplain o ho _ hc).1 rfl
  rw [hrules, List.filterMap_eq_nil_iff]
  simp only [List.mem_singleton, forall_eq]
  rw [checkRule_in, Schema.splitAt_joined (by simpa using hne) hcommas, ← hvalues]
  exact List.mem_map_of_injective fun _ _ h => String.toList_injective h

end Rules

/-! ## Options with a comma -/

/-- The list `['Austin, TX']`. -/
def cities : SelectList where
  options := [{
    lead := ['[']
    quote := '\''
    text := "Austin, TX".toList
    lead_unquoted := forall_of_all (by decide)
    isQuote_quote := rfl
    quote_notMem := by decide
    text_ne := by decide }]
  close := [']']
  close_unquoted := forall_of_all (by decide)

end Atomo.Dsl

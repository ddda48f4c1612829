import Mathlib.Data.List.Infix
import Mathlib.Data.List.Basic

/-!
# `LIKE` patterns

The patterns of `LIKE` with the backslash as their escape character, matched up to a folding of characters (`ILIKE`).
A percent sign stands for any text, an underscore for any character, and a backslash takes the character after it
literally. A backslash that ends the pattern is an error when the matching comes to it. A text without any of the
three is matched literally; of every other one there is a text, its `sample`, that its pattern matches and that
does not have it in it.
-/

namespace Like

variable (fold : Char → Char)

/-- The first answer other than no that the ends of a text get. -/
def firstOf (answer : List Char → Option Bool) : List Char → Option Bool
  | [] => answer []
  | c :: text =>
    match answer (c :: text) with
    | some false => firstOf answer text
    | other => other

/-- Whether a text begins with a character up to `fold` and its rest gets a yes. -/
def oneOf (d : Char) (answer : List Char → Option Bool) : List Char → Option Bool
  | [] => some false
  | c :: text => if fold c = fold d then answer text else some false

/-- Whether a pattern matches a text; `none` is the error. -/
def like : List Char → List Char → Option Bool
  | [], text => some text.isEmpty
  | ['\\'], text => if text.isEmpty then some false else none
  | '\\' :: d :: pattern, text => oneOf fold d (like pattern) text
  | '%' :: pattern, text => firstOf (like pattern) text
  | '_' :: pattern, text =>
    match text with
    | [] => some false
    | _ :: text => like pattern text
  | d :: pattern, text => oneOf fold d (like pattern) text

/-- The characters with a meaning of their own in a pattern. -/
def Special (c : Char) : Prop :=
  c = '%' ∨ c = '_' ∨ c = '\\'

instance (c : Char) : Decidable (Special c) :=
  inferInstanceAs (Decidable (_ ∨ _))

/-- No character of a text has a meaning of its own. -/
def Plain (word : List Char) : Prop :=
  ∀ c ∈ word, ¬ Special c

instance (word : List Char) : Decidable (Plain word) :=
  inferInstanceAs (Decidable (∀ c ∈ word, _))

/-- The pattern does not end in a backslash that escapes nothing. -/
def Closed : List Char → Prop
  | [] => True
  | ['\\'] => False
  | '\\' :: _ :: pattern => Closed pattern
  | _ :: pattern => Closed pattern

/-- A text that a pattern matches when a percent sign follows it: nothing for a percent sign, `x` for an underscore. -/
def sample (x : Char) : List Char → List Char
  | [] => []
  | ['\\'] => ['%']
  | '\\' :: d :: pattern => d :: sample x pattern
  | '%' :: pattern => sample x pattern
  | '_' :: pattern => x :: sample x pattern
  | d :: pattern => d :: sample x pattern

/-! ## Patterns character by character -/

@[simp] theorem like_nil (text : List Char) : like fold [] text = some text.isEmpty := rfl

@[simp] theorem like_open (text : List Char) : like fold ['\\'] text = if text.isEmpty then some false else none := rfl

@[simp] theorem like_escape (d : Char) (pattern text : List Char) :
    like fold ('\\' :: d :: pattern) text = oneOf fold d (like fold pattern) text := rfl

@[simp] theorem like_percent (pattern text : List Char) :
    like fold ('%' :: pattern) text = firstOf (like fold pattern) text := rfl

@[simp] theorem like_underscore_nil (pattern : List Char) : like fold ('_' :: pattern) [] = some false := rfl

@[simp] theorem like_underscore_cons (pattern : List Char) (c : Char) (text : List Char) :
    like fold ('_' :: pattern) (c :: text) = like fold pattern text := rfl

theorem like_cons {d : Char} (hd : ¬ Special d) (pattern text : List Char) :
    like fold (d :: pattern) text = oneOf fold d (like fold pattern) text := by
  unfold Special at hd
  rw [like]
  all_goals grind

@[simp] theorem sample_escape (x d : Char) (pattern : List Char) :
    sample x ('\\' :: d :: pattern) = d :: sample x pattern := rfl

@[simp] theorem sample_percent (x : Char) (pattern : List Char) : sample x ('%' :: pattern) = sample x pattern := rfl

@[simp] theorem sample_underscore (x : Char) (pattern : List Char) : sample x ('_' :: pattern) = x :: sample x pattern := rfl

theorem sample_cons {d : Char} (hd : ¬ Special d) (x : Char) (pattern : List Char) :
    sample x (d :: pattern) = d :: sample x pattern := by
  unfold Special at hd
  rw [sample]
  all_goals grind

theorem closed_cons {d : Char} (hd : ¬ Special d) (pattern : List Char) : Closed (d :: pattern) ↔ Closed pattern := by
  unfold Special at hd
  rw [Closed]
  all_goals grind

/-- The cases of a pattern. -/
@[elab_as_elim]
theorem pattern_induction {motive : List Char → Prop} (pattern : List Char) (nil : motive []) (last : motive ['\\'])
    (escape : ∀ d pattern, motive pattern → motive ('\\' :: d :: pattern))
    (percent : ∀ pattern, motive pattern → motive ('%' :: pattern))
    (underscore : ∀ pattern, motive pattern → motive ('_' :: pattern))
    (other : ∀ d pattern, ¬ Special d → motive pattern → motive (d :: pattern)) : motive pattern := by
  have hboth : ∀ n (pattern : List Char), pattern.length ≤ n → motive pattern := by
    intro n
    induction n with
    | zero =>
      intro pattern hlength
      rwa [List.length_eq_zero_iff.1 (Nat.le_zero.1 hlength)]
    | succ n ih =>
      rintro (_ | ⟨d, pattern⟩) hlength
      · exact nil
      have hrest : motive pattern := ih pattern (Nat.le_of_succ_le_succ hlength)
      by_cases hspecial : Special d
      · rcases hspecial with rfl | rfl | rfl
        · exact percent pattern hrest
        · exact underscore pattern hrest
        · cases pattern with
          | nil => exact last
          | cons d pattern =>
            refine escape d pattern (ih pattern ?_)
            simp only [List.length_cons] at hlength
            omega
      · exact other d pattern hspecial hrest
  exact hboth pattern.length pattern (Nat.le_refl _)

/-! ## Patterns of plain texts -/

theorem firstOf_eq_true_iff {answer : List Char → Option Bool} (htotal : ∀ text, answer text ≠ none) (text : List Char) :
    firstOf answer text = some true ↔ ∃ rest, rest <:+ text ∧ answer rest = some true := by
  induction text with
  | nil => simp [firstOf]
  | cons c text ih =>
    rw [firstOf]
    cases hanswer : answer (c :: text) with
    | none => exact absurd hanswer (htotal _)
    | some found =>
      cases found with
      | true => exact ⟨fun _ => ⟨_, List.suffix_rfl, hanswer⟩, fun _ => rfl⟩
      | false =>
        simp only [ih, List.suffix_cons_iff]
        constructor
        · rintro ⟨rest, hrest, hyes⟩
          exact ⟨rest, .inr hrest, hyes⟩
        · rintro ⟨rest, rfl | hrest, hyes⟩
          · rw [hanswer] at hyes
            cases hyes
          · exact ⟨rest, hrest, hyes⟩

theorem firstOf_ne {answer : List Char → Option Bool} {found : Option Bool} (hnever : ∀ text, answer text ≠ found)
    (text : List Char) : firstOf answer text ≠ found := by
  induction text with
  | nil => exact hnever []
  | cons c text ih =>
    rw [firstOf]
    split
    · exact ih
    · exact hnever _

theorem firstOf_of_yes {answer : List Char → Option Bool} {text : List Char} (h : answer text = some true) :
    firstOf answer text = some true := by
  cases text with
  | nil => exact h
  | cons c text => rw [firstOf, h]

theorem like_any (text : List Char) : like fold ['%'] text = some true := by
  have hempty : ∀ rest : List Char, like fold [] rest ≠ none := by
    intro rest
    simp
  rw [like_percent, firstOf_eq_true_iff hempty]
  exact ⟨[], List.nil_suffix, rfl⟩

/-- A plain text before a pattern is matched by the start of a text, up to `fold`. -/
theorem like_append {word : List Char} (hword : Plain word) (pattern text : List Char) :
    like fold (word ++ pattern) text =
      if word.map fold = (text.take word.length).map fold then like fold pattern (text.drop word.length)
      else some false := by
  induction word generalizing text with
  | nil => simp
  | cons d word ih =>
    have hrest : Plain word := fun c hc => hword c (List.mem_cons_of_mem d hc)
    rw [List.cons_append, like_cons fold (hword d List.mem_cons_self)]
    cases text with
    | nil => simp [oneOf]
    | cons c text =>
      simp only [oneOf, ih hrest, List.map_cons, List.length_cons, List.take_succ_cons, List.drop_succ_cons,
        List.cons.injEq]
      by_cases hc : fold c = fold d
      · simp [hc]
      · simp [hc, Ne.symm hc]

theorem closed_append {word : List Char} (hword : Plain word) (pattern : List Char) :
    Closed (word ++ pattern) ↔ Closed pattern := by
  induction word with
  | nil => rfl
  | cons d word ih =>
    rw [List.cons_append, closed_cons (hword d List.mem_cons_self), ih fun c hc => hword c (List.mem_cons_of_mem d hc)]

/-- An answer other than no that is never given is not given by a way to it either. -/
theorem oneOf_ne (d : Char) {answer : List Char → Option Bool} {found : Option Bool} (hfound : found ≠ some false)
    (hnever : ∀ text, answer text ≠ found) (text : List Char) : oneOf fold d answer text ≠ found := by
  cases text with
  | nil => exact hfound.symm
  | cons c text =>
    rw [oneOf]
    split
    · exact hnever text
    · exact hfound.symm

/-- Only a backslash at the end of a pattern is an error. -/
theorem like_ne_none {pattern : List Char} (h : Closed pattern) (text : List Char) : like fold pattern text ≠ none := by
  induction pattern using pattern_induction generalizing text with
  | nil => simp
  | last => exact absurd h id
  | escape d pattern ih =>
    rw [like_escape]
    exact oneOf_ne fold d (by simp) (ih h) text
  | percent pattern ih =>
    rw [like_percent]
    exact firstOf_ne (ih h) text
  | underscore pattern ih =>
    cases text with
    | nil => simp
    | cons c text =>
      rw [like_underscore_cons]
      exact ih h text
  | other d pattern hd ih =>
    rw [like_cons fold hd]
    exact oneOf_ne fold d (by simp) (ih ((closed_cons hd pattern).1 h)) text

/-- A plain pattern matches the texts that are the same up to `fold`. -/
theorem like_plain_iff {word : List Char} (hword : Plain word) (text : List Char) :
    like fold word text = some true ↔ word.map fold = text.map fold := by
  have h := like_append fold hword [] text
  rw [List.append_nil] at h
  rw [h, like_nil]
  constructor
  · intro hyes
    split at hyes
    · next hstart =>
      rw [Option.some_inj, List.isEmpty_iff, List.drop_eq_nil_iff] at hyes
      rwa [List.take_of_length_le hyes] at hstart
    · cases hyes
  · intro hsame
    have hlength := congrArg List.length hsame
    rw [List.length_map, List.length_map] at hlength
    rw [hlength, List.take_length, if_pos hsame, List.drop_length, List.isEmpty_nil]

theorem like_prefix_iff {word : List Char} (hword : Plain word) (text : List Char) :
    like fold (word ++ ['%']) text = some true ↔ word.map fold <+: text.map fold := by
  rw [like_append fold hword, like_any, List.prefix_iff_eq_take, List.length_map, ← List.map_take]
  simp

/-- With a percent sign in front, an end of the text is matched. -/
theorem like_percent_iff {pattern : List Char} (h : Closed pattern) (text : List Char) :
    like fold ('%' :: pattern) text = some true ↔ ∃ rest, rest <:+ text ∧ like fold pattern rest = some true := by
  rw [like_percent]
  exact firstOf_eq_true_iff (like_ne_none fold h) text

theorem like_suffix_iff {word : List Char} (hword : Plain word) (text : List Char) :
    like fold ('%' :: word) text = some true ↔ word.map fold <:+ text.map fold := by
  have hclosed : Closed word := by
    have h := closed_append hword []
    rw [List.append_nil] at h
    exact h.2 trivial
  simp only [like_percent_iff fold hclosed, like_plain_iff fold hword]
  constructor
  · rintro ⟨rest, hrest, hsame⟩
    rw [hsame]
    exact hrest.map fold
  · rintro ⟨before, hbefore⟩
    obtain ⟨start, rest, rfl, -, hrest⟩ := List.map_eq_append_iff.1 hbefore.symm
    exact ⟨rest, List.suffix_append start rest, hrest.symm⟩

theorem like_infix_iff {word : List Char} (hword : Plain word) (text : List Char) :
    like fold ('%' :: (word ++ ['%'])) text = some true ↔ word.map fold <:+: text.map fold := by
  have hclosed : Closed (word ++ ['%']) := (closed_append hword ['%']).2 trivial
  simp only [like_percent_iff fold hclosed, like_prefix_iff fold hword]
  constructor
  · rintro ⟨rest, hrest, hstart⟩
    exact hstart.isInfix.trans (hrest.map fold).isInfix
  · intro hinfix
    obtain ⟨folded, hstart, hend⟩ := List.infix_iff_prefix_suffix.1 hinfix
    obtain ⟨before, hbefore⟩ := hend
    obtain ⟨start, rest, rfl, -, rfl⟩ := List.map_eq_append_iff.1 hbefore.symm
    exact ⟨rest, List.suffix_append start rest, hstart⟩

/-! ## Patterns of other texts -/

/-- A pattern that ends in an open escape matches nothing. -/
theorem not_yes_of_open {pattern : List Char} (h : ¬ Closed pattern) (text : List Char) :
    like fold pattern text ≠ some true := by
  induction pattern using pattern_induction generalizing text with
  | nil => exact absurd trivial h
  | last =>
    rw [like_open]
    split <;> simp
  | escape d pattern ih =>
    rw [like_escape]
    exact oneOf_ne fold d (by simp) (ih h) text
  | percent pattern ih =>
    rw [like_percent]
    exact firstOf_ne (ih h) text
  | underscore pattern ih =>
    cases text with
    | nil => simp
    | cons c text =>
      rw [like_underscore_cons]
      exact ih h text
  | other d pattern hd ih =>
    rw [like_cons fold hd]
    exact oneOf_ne fold d (by simp) (ih (mt (closed_cons hd pattern).2 h)) text

theorem like_sample (x : Char) {word : List Char} (h : Closed word) : like fold word (sample x word) = some true := by
  induction word using pattern_induction with
  | nil => rfl
  | last => exact absurd h id
  | escape d pattern ih =>
    rw [like_escape, sample_escape, oneOf, if_pos rfl]
    exact ih h
  | percent pattern ih =>
    rw [like_percent, sample_percent]
    exact firstOf_of_yes (ih h)
  | underscore pattern ih =>
    rw [sample_underscore, like_underscore_cons]
    exact ih h
  | other d pattern hd ih =>
    rw [like_cons fold hd, sample_cons hd, oneOf, if_pos rfl]
    exact ih ((closed_cons hd pattern).1 h)

theorem like_sample_percent (x : Char) (word : List Char) :
    like fold (word ++ ['%']) (sample x word) = some true := by
  induction word using pattern_induction with
  | nil => exact like_any fold []
  | last => simp [sample, oneOf]
  | escape d pattern ih =>
    rw [List.cons_append, List.cons_append, like_escape, sample_escape, oneOf, if_pos rfl]
    exact ih
  | percent pattern ih =>
    rw [List.cons_append, like_percent, sample_percent]
    exact firstOf_of_yes ih
  | underscore pattern ih =>
    rw [List.cons_append, sample_underscore, like_underscore_cons]
    exact ih
  | other d pattern hd ih =>
    rw [List.cons_append, like_cons fold hd, sample_cons hd, oneOf, if_pos rfl]
    exact ih

theorem sample_length_le (x : Char) (word : List Char) : (sample x word).length ≤ word.length := by
  induction word using pattern_induction with
  | nil => exact Nat.le_refl 0
  | last => exact Nat.le_refl 1
  | escape d pattern ih =>
    simp only [sample_escape, List.length_cons]
    omega
  | percent pattern ih =>
    simp only [sample_percent, List.length_cons]
    omega
  | underscore pattern ih =>
    simp only [sample_underscore, List.length_cons]
    omega
  | other d pattern hd ih =>
    simp only [sample_cons hd, List.length_cons]
    omega

theorem plain_of_sample_eq {x : Char} (hx : fold x ≠ fold '_') (hescape : fold '%' ≠ fold '\\') {word : List Char}
    (h : (sample x word).map fold = word.map fold) : Plain word := by
  have hlength := congrArg List.length h
  simp only [List.length_map] at hlength
  induction word using pattern_induction with
  | nil => simp [Plain]
  | last => simp [sample, hescape] at h
  | escape d pattern ih =>
    have hle := sample_length_le x pattern
    simp only [sample_escape, List.length_cons] at hlength
    omega
  | percent pattern ih =>
    have hle := sample_length_le x pattern
    simp only [sample_percent, List.length_cons] at hlength
    omega
  | underscore pattern ih => simp [hx] at h
  | other d pattern hd ih =>
    rw [sample_cons hd, List.map_cons, List.map_cons, List.cons.injEq] at h
    rw [sample_cons hd, List.length_cons, List.length_cons, Nat.succ_inj] at hlength
    intro c hc
    rcases List.mem_cons.1 hc with rfl | hrest
    · exact hd
    · exact ih h.2 hlength c hrest

end Like

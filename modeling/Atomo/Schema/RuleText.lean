import Atomo.Schema.AccessRules
import Mathlib.Data.List.Chain
import Mathlib.Data.List.TakeWhile

/-!
# Rule expressions and their text

The expressions of the DSL's `allow` object, how they are written, and what the parser's scans find
in that text: it stays on its line, holds no colon, keeps the brace scan at its depth, and calls
`public` only where the expression does.
-/

namespace Atomo.Schema

open Scan

/-- A character that may stand in the name of a role or a field: no quote, backslash, line break,
colon or opening parenthesis. -/
def isNameChar (c : Char) : Bool :=
  c ≠ '\'' ∧ c ≠ '"' ∧ c ≠ '\\' ∧ c ≠ '\n' ∧ c ≠ ':' ∧ c ≠ '('

/-- A quoted name. -/
structure Name where
  double : Bool
  chars : List Char
  chars_ok : ∀ c ∈ chars, isNameChar c = true

/-- What the DSL can say of an operation; `everyone` is `allow.public()`. -/
inductive RuleExpr where
  | everyone
  | authenticated
  | role (name : Name)
  | roles (names : List Name)
  | sameTenant (field : Name)
  | owner (field : Name)
  | any (rules : List RuleExpr)

def Name.quote (n : Name) : Char :=
  if n.double then '"' else '\''

def Name.text (n : Name) : List Char :=
  n.quote :: n.chars ++ [n.quote]

/-- Texts with a comma and a blank between them. -/
def commaSeparated : List (List Char) → List Char
  | [] => []
  | [t] => t
  | t :: rest => t ++ [',', ' '] ++ commaSeparated rest

mutual

/-- The expression as it is written. -/
def RuleExpr.text : RuleExpr → List Char
  | .everyone => "allow.public()".toList
  | .authenticated => "allow.authenticated()".toList
  | .role name => "allow.role(".toList ++ name.text ++ [')']
  | .roles names => "allow.role([".toList ++ commaSeparated (names.map Name.text) ++ "])".toList
  | .sameTenant field => "allow.sameTenant(".toList ++ field.text ++ [')']
  | .owner field => "allow.owner(".toList ++ field.text ++ [')']
  | .any rules => "allow.any([".toList ++ commaSeparated (RuleExpr.texts rules) ++ "])".toList

def RuleExpr.texts : List RuleExpr → List (List Char)
  | [] => []
  | e :: rest => e.text :: RuleExpr.texts rest

end

mutual

/-- Anyone may: the expression is `allow.public()`, or an `any` of which one alternative is. -/
def RuleExpr.grantsPublic : RuleExpr → Bool
  | .everyone => true
  | .any rules => RuleExpr.anyPublic rules
  | _ => false

def RuleExpr.anyPublic : List RuleExpr → Bool
  | [] => false
  | e :: rest => e.grantsPublic || RuleExpr.anyPublic rest

end

/-! ## What the scans find in a text -/

/-- No line break and no colon. -/
def Inline (t : List Char) : Prop :=
  ∀ c ∈ t, c ≠ '\n' ∧ c ≠ ':'

/-- The brace scan passes over the text. -/
def Quiet (t : List Char) : Prop :=
  ∀ depth l, balancedBraceBody depth none false (t ++ l) =
    (balancedBraceBody depth none false l).map (t ++ ·)

/-- What may stand before the parenthesis of a call other than that of `public`. -/
def NotPublicCall (a b : Char) : Prop :=
  b = '(' → a ∈ ['e', 'd', 't', 'r', 'y']

instance : DecidableRel NotPublicCall :=
  fun a b => inferInstanceAs (Decidable (b = '(' → a ∈ ['e', 'd', 't', 'r', 'y']))

/-- The text calls something other than `public`, if anything, and does not begin with a parenthesis. -/
structure Private (t : List Char) : Prop where
  calls : t.IsChain NotPublicCall
  head : t.head? ≠ some '('

theorem forall_of_all {P : Char → Prop} [DecidablePred P] {l : List Char}
    (h : l.all (fun c => decide (P c)) = true) : ∀ c ∈ l, P c := by
  simpa using h

theorem Inline.append {t u : List Char} (ht : Inline t) (hu : Inline u) : Inline (t ++ u) := by
  intro c hc
  rcases List.mem_append.1 hc with hc | hc
  · exact ht c hc
  · exact hu c hc

theorem Quiet.append {t u : List Char} (ht : Quiet t) (hu : Quiet u) : Quiet (t ++ u) := by
  intro depth l
  rw [List.append_assoc, ht, hu, Option.map_map]
  congr 1
  funext x
  simp

theorem quiet_nil : Quiet [] := by
  intro depth l
  simp

theorem quiet_cons {c : Char} {t : List Char} (hc : c ∉ ['{', '}', '\'', '"', '`']) (ht : Quiet t) :
    Quiet (c :: t) := by
  intro depth l
  simp only [List.mem_cons, List.not_mem_nil, or_false, not_or] at hc
  obtain ⟨hopen, hclose, hsingle, hdouble, hback⟩ := hc
  rw [List.cons_append, balancedBraceBody]
  simp only [hopen, hclose, hsingle, hdouble, hback, if_false, or_self]
  rw [ht, Option.map_map]
  rfl

theorem quiet_of_forall {t : List Char} (h : ∀ c ∈ t, c ∉ ['{', '}', '\'', '"', '`']) : Quiet t := by
  induction t with
  | nil => exact quiet_nil
  | cons c t ih =>
    exact quiet_cons (h c (List.mem_cons_self)) (ih fun d hd => h d (List.mem_cons_of_mem c hd))

theorem Private.append {t u : List Char} (ht : Private t) (hu : Private u) : Private (t ++ u) := by
  refine ⟨List.isChain_append.2 ⟨ht.calls, hu.calls, fun a _ b hb => ?_⟩, ?_⟩
  · rintro rfl
    exact absurd hb hu.head
  · cases t with
    | nil => exact hu.head
    | cons a t => exact ht.head

theorem private_nil : Private [] where
  calls := .nil
  head := by simp

theorem inline_name (n : Name) : Inline n.text := by
  intro c hc
  unfold Name.text at hc
  simp only [List.mem_cons, List.mem_append, List.cons_append, List.not_mem_nil, or_false] at hc
  rcases hc with rfl | hc | rfl
  · unfold Name.quote
    split <;> decide
  · have hchar := n.chars_ok c hc
    simp only [isNameChar, decide_eq_true_eq] at hchar
    exact ⟨hchar.2.2.2.1, hchar.2.2.2.2.1⟩
  · unfold Name.quote
    split <;> decide

theorem quiet_name (n : Name) : Quiet n.text := by
  have hquoted : ∀ (chars : List Char) (depth : Nat) (l : List Char),
      (∀ c ∈ chars, isNameChar c = true) →
      balancedBraceBody depth (some n.quote) false (chars ++ n.quote :: l) =
        (balancedBraceBody depth none false l).map (chars ++ n.quote :: ·) := by
    intro chars depth l hchars
    induction chars with
    | nil =>
      rw [List.nil_append, balancedBraceBody]
      simp
    | cons c chars ih =>
      have hchar := hchars c (List.mem_cons_self)
      simp only [isNameChar, decide_eq_true_eq] at hchar
      have hne : c ≠ n.quote := by
        unfold Name.quote
        split
        · exact hchar.2.1
        · exact hchar.1
      rw [List.cons_append, balancedBraceBody]
      simp only [Bool.false_eq_true, if_false, hne, hchar.2.2.1, decide_false]
      rw [ih fun d hd => hchars d (List.mem_cons_of_mem c hd), Option.map_map]
      rfl
  intro depth l
  have hquote : n.quote = '\'' ∨ n.quote = '"' ∨ n.quote = '`' := by
    unfold Name.quote
    split <;> simp
  have hbrace : n.quote ≠ '{' ∧ n.quote ≠ '}' := by
    unfold Name.quote
    split <;> decide
  have htext : n.text ++ l = n.quote :: (n.chars ++ n.quote :: l) := by simp [Name.text]
  rw [htext, balancedBraceBody]
  simp only [hbrace.1, hbrace.2, if_false, hquote, if_true]
  rw [hquoted n.chars depth l n.chars_ok, Option.map_map]
  congr 1
  funext x
  simp [Name.text]

theorem private_of_forall {t : List Char} (h : ∀ c ∈ t, c ≠ '(') : Private t where
  calls := by
    induction t with
    | nil => exact .nil
    | cons c t ih =>
      refine List.isChain_cons.2 ⟨fun b hb heq => ?_, ih fun d hd => h d (List.mem_cons_of_mem c hd)⟩
      exact absurd heq (h b (List.mem_cons_of_mem c (List.mem_of_mem_head? hb)))
  head := by
    intro hhead
    exact h '(' (List.mem_of_mem_head? hhead) rfl

theorem private_name (n : Name) : Private n.text := by
  refine private_of_forall fun c hc => ?_
  unfold Name.text at hc
  simp only [List.mem_cons, List.mem_append, List.cons_append, List.not_mem_nil, or_false] at hc
  rcases hc with rfl | hc | rfl
  · unfold Name.quote
    split <;> decide
  · have hchar := n.chars_ok c hc
    simp only [isNameChar, decide_eq_true_eq] at hchar
    exact hchar.2.2.2.2.2
  · unfold Name.quote
    split <;> decide

/-! ## Expressions -/

/-- The pieces, other than names, that expressions without `allow.public()` are written with. -/
def pieces : List (List Char) :=
  [[], [',', ' '], [')'], "])".toList, "allow.authenticated()".toList, "allow.role(".toList,
    "allow.role([".toList, "allow.sameTenant(".toList, "allow.owner(".toList, "allow.any([".toList]

section Induction

variable {P : List Char → Prop}

theorem commaSeparated_induction (happend : ∀ t u, P t → P u → P (t ++ u))
    (hpieces : ∀ t ∈ pieces, P t) (ts : List (List Char)) (h : ∀ t ∈ ts, P t) :
    P (commaSeparated ts) := by
  fun_induction commaSeparated ts with
  | case1 => exact hpieces [] (by simp [pieces])
  | case2 t => exact h t (List.mem_cons_self)
  | case3 t rest hrest ih =>
    refine happend _ _ (happend _ _ (h t (List.mem_cons_self)) (hpieces _ (by simp [pieces]))) (ih ?_)
    exact fun u hu => h u (List.mem_cons_of_mem t hu)

mutual

/-- What holds of the pieces and the names, and is kept by joining texts, holds of expressions; of
those that grant `public` if it holds of `allow.public()` too. -/
theorem RuleExpr.text_induction (happend : ∀ t u, P t → P u → P (t ++ u))
    (hpieces : ∀ t ∈ pieces, P t) (hname : ∀ n : Name, P n.text) (e : RuleExpr)
    (hpublic : e.grantsPublic = true → P "allow.public()".toList) : P e.text := by
  have hclose : P [')'] := hpieces _ (by simp [pieces])
  have hcloseList : P "])".toList := hpieces _ (by simp [pieces])
  cases e with
  | everyone => exact hpublic rfl
  | authenticated => exact hpieces "allow.authenticated()".toList (by simp [pieces])
  | role name => exact happend _ _ (happend _ _ (hpieces _ (by simp [pieces])) (hname name)) hclose
  | roles names =>
    refine happend _ _ (happend _ _ (hpieces _ (by simp [pieces])) ?_) hcloseList
    refine commaSeparated_induction happend hpieces _ fun t ht => ?_
    obtain ⟨name, -, rfl⟩ := List.mem_map.1 ht
    exact hname name
  | sameTenant field =>
    exact happend _ _ (happend _ _ (hpieces _ (by simp [pieces])) (hname field)) hclose
  | owner field => exact happend _ _ (happend _ _ (hpieces _ (by simp [pieces])) (hname field)) hclose
  | any rules =>
    refine happend _ _ (happend _ _ (hpieces _ (by simp [pieces])) ?_) hcloseList
    exact commaSeparated_induction happend hpieces _
      (RuleExpr.texts_induction happend hpieces hname rules hpublic)

theorem RuleExpr.texts_induction (happend : ∀ t u, P t → P u → P (t ++ u))
    (hpieces : ∀ t ∈ pieces, P t) (hname : ∀ n : Name, P n.text) (es : List RuleExpr)
    (hpublic : RuleExpr.anyPublic es = true → P "allow.public()".toList) :
    ∀ t ∈ RuleExpr.texts es, P t := by
  cases es with
  | nil =>
    intro t ht
    cases ht
  | cons e rest =>
    intro t ht
    rcases List.mem_cons.1 ht with rfl | ht
    · exact RuleExpr.text_induction happend hpieces hname e fun h =>
        hpublic (by rw [RuleExpr.anyPublic, h, Bool.true_or])
    · exact RuleExpr.texts_induction happend hpieces hname rest
        (fun h => hpublic (by rw [RuleExpr.anyPublic, h, Bool.or_true])) t ht

end

end Induction

theorem inline_text (e : RuleExpr) : Inline e.text := by
  have hpieces : pieces.all (fun t => t.all fun c => decide (c ≠ '\n' ∧ c ≠ ':')) = true := by
    decide
  refine RuleExpr.text_induction (fun _ _ => Inline.append) (fun t ht => ?_) inline_name e fun _ => ?_
  · exact forall_of_all (List.all_eq_true.1 hpieces t ht)
  · exact forall_of_all (by decide)

theorem quiet_text (e : RuleExpr) : Quiet e.text := by
  have hpieces : pieces.all
      (fun t => t.all fun c => decide (c ∉ ['{', '}', '\'', '"', '`'])) = true := by
    decide
  refine RuleExpr.text_induction (fun _ _ => Quiet.append) (fun t ht => ?_) quiet_name e fun _ => ?_
  · exact quiet_of_forall (forall_of_all (List.all_eq_true.1 hpieces t ht))
  · exact quiet_of_forall (forall_of_all (by decide))

theorem private_text {e : RuleExpr} (h : e.grantsPublic = false) : Private e.text := by
  refine RuleExpr.text_induction (fun _ _ => Private.append) (fun t ht => ?_) private_name e ?_
  · refine ⟨?_, ?_⟩
    · revert t
      decide
    · revert t
      decide
  · intro hpublic
    rw [h] at hpublic
    cases hpublic

theorem text_head (e : RuleExpr) :
    ∃ c r, e.text = ['a', 'l', 'l', 'o', 'w'] ++ '.' :: c :: r := by
  cases e <;> exact ⟨_, _, rfl⟩

theorem text_last (e : RuleExpr) : ∃ u, e.text = u ++ [')'] := by
  have hclose : ∀ t, ∃ u, t ++ "])".toList = u ++ [')'] := fun t =>
    ⟨t ++ [']'], (List.append_assoc t [']'] [')']).symm⟩
  cases e with
  | everyone => exact ⟨"allow.public(".toList, rfl⟩
  | authenticated => exact ⟨"allow.authenticated(".toList, rfl⟩
  | role name => exact ⟨_, rfl⟩
  | roles names => exact hclose ("allow.role([".toList ++ commaSeparated (names.map Name.text))
  | sameTenant field => exact ⟨_, rfl⟩
  | owner field => exact ⟨_, rfl⟩
  | any rules => exact hclose ("allow.any([".toList ++ commaSeparated (RuleExpr.texts rules))

/-- Some place of the text calls `public`, after a dot. -/
def CallsPublic (t : List Char) : Prop :=
  ∃ u v, t = u ++ '.' :: ("public()".toList ++ v)

theorem CallsPublic.append_left {t : List Char} (h : CallsPublic t) (u : List Char) :
    CallsPublic (u ++ t) := by
  obtain ⟨x, y, rfl⟩ := h
  exact ⟨u ++ x, y, by simp⟩

theorem CallsPublic.append_right {t : List Char} (h : CallsPublic t) (u : List Char) :
    CallsPublic (t ++ u) := by
  obtain ⟨x, y, rfl⟩ := h
  exact ⟨x, y ++ u, by simp⟩

theorem callsPublic_commaSeparated {ts : List (List Char)} {t : List Char} (ht : t ∈ ts)
    (h : CallsPublic t) : CallsPublic (commaSeparated ts) := by
  fun_induction commaSeparated ts with
  | case1 => cases ht
  | case2 u =>
    rcases List.mem_singleton.1 ht with rfl
    exact h
  | case3 u rest _ ih =>
    rcases List.mem_cons.1 ht with rfl | ht
    · exact (h.append_right _).append_right _
    · exact (ih ht).append_left _

mutual

theorem callsPublic_text (e : RuleExpr) (h : e.grantsPublic = true) : CallsPublic e.text := by
  cases e with
  | everyone => exact ⟨"allow".toList, [], rfl⟩
  | any rules =>
    obtain ⟨t, ht, hcalls⟩ := exists_callsPublic rules h
    exact ((callsPublic_commaSeparated ht hcalls).append_left _).append_right _
  | _ => cases h

theorem exists_callsPublic (es : List RuleExpr) (h : RuleExpr.anyPublic es = true) :
    ∃ t ∈ RuleExpr.texts es, CallsPublic t := by
  cases es with
  | nil => cases h
  | cons e rest =>
    rw [RuleExpr.anyPublic, Bool.or_eq_true] at h
    rcases h with h | h
    · exact ⟨e.text, List.mem_cons_self, callsPublic_text e h⟩
    · obtain ⟨t, ht, hcalls⟩ := exists_callsPublic rest h
      exact ⟨t, List.mem_cons_of_mem _ ht, hcalls⟩

end

/-! ## What the parser's tests find -/

section Tests

variable {isWord : Char → Bool} {t : List Char}

theorem spaces_of_not {c : Char} (hc : isSpace c = false) (l : List Char) : spaces (c :: l) = c :: l := by
  unfold spaces
  rw [List.dropWhile_cons_of_neg (by simp [hc])]

theorem publicAt_call (v : List Char) : publicAt ("public()".toList ++ v) = some v :=
  rfl

theorem search_public (hdot : isWord '.' = false) (h : CallsPublic t) :
    searchAfter (wordStart isWord) publicAt none t = true := by
  obtain ⟨u, v, rfl⟩ := h
  exact searchAfter_of_mem (by simp [wordStart, hdot]) (by rw [publicAt_call]; rfl) none

theorem search_authenticated (hdot : isWord '.' = false) (u v : List Char) :
    searchAfter (wordStart isWord) authenticatedAt none
      (u ++ '.' :: ("authenticated()".toList ++ v)) = true :=
  searchAfter_of_mem (by simp [wordStart, hdot]) rfl none

theorem search_not_public (h : Private t) :
    searchAfter (wordStart isWord) publicAt none t = false := by
  refine searchAfter_eq_false (fun v hv => ?_) none
  by_contra hmatch
  obtain ⟨rest, hrest⟩ := Option.ne_none_iff_exists'.1 hmatch
  unfold publicAt at hrest
  simp only [Option.bind_eq_bind, Option.bind_eq_some_iff] at hrest
  obtain ⟨l, hword, l', hparen, -⟩ := hrest
  rw [lit_eq_some] at hword hparen
  obtain ⟨u, rfl⟩ := hv
  have hgap : l = l.takeWhile isSpace ++ '(' :: l' := by
    rw [← List.singleton_append, ← hparen]
    exact List.takeWhile_append_dropWhile.symm
  have hlast : ∃ x a, v = x ++ a :: '(' :: l' ∧ (a = 'c' ∨ isSpace a = true) := by
    rw [hword, hgap]
    rcases List.eq_nil_or_concat (l.takeWhile isSpace) with hnil | ⟨ws, a, hws⟩
    · rw [hnil]
      exact ⟨"publi".toList, 'c', rfl, .inl rfl⟩
    · rw [hws]
      refine ⟨"public".toList ++ ws, a, ?_, .inr ?_⟩
      · simp
      · have ha : a ∈ l.takeWhile isSpace := by rw [hws]; simp
        exact List.mem_takeWhile_imp ha
  obtain ⟨x, a, rfl, ha⟩ := hlast
  have hcalls := h.calls
  rw [← List.append_assoc, List.isChain_append_cons_cons] at hcalls
  have hallowed := hcalls.2.1 rfl
  simp only [List.mem_cons, List.not_mem_nil, or_false] at hallowed
  rcases hallowed with rfl | rfl | rfl | rfl | rfl <;> revert ha <;> decide

end Tests

end Atomo.Schema

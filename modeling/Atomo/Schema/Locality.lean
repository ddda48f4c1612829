import Atomo.Schema.RuleText

/-!
# Locality of access rules

Blocks that list operations, each once, with a rule expression for each and any white space between
their parts. The parser finds each operation's own entry (`accessRule_of_slot`), but what it classifies
is the rest of that line; so the rule depends on nothing but the entry exactly when the line ends
before the next expression begins, or the entry's own expression grants `public`, which wins anyway.
-/

namespace Atomo.Schema

open Scan

/-- White space, line breaks included. -/
abbrev Space := {l : List Char // ∀ c ∈ l, isSpace c = true}

/-- The place of one entry: its operation and the white space around its parts. -/
structure Slot where
  op : Op
  beforeColon : Space
  afterColon : Space
  beforeComma : Space
  comma : Bool
  afterComma : Space

def Slot.head (s : Slot) : List Char :=
  s.op.key ++ (s.beforeColon.1 ++ ':' :: s.afterColon.1)

def Slot.tail (s : Slot) : List Char :=
  s.beforeComma.1 ++ ((if s.comma then [','] else []) ++ s.afterComma.1)

section Text

variable (grant : Op → RuleExpr)

def Slot.text (s : Slot) : List Char :=
  s.head ++ ((grant s.op).text ++ s.tail)

def slotsText (slots : List Slot) : List Char :=
  slots.flatMap (Slot.text grant)

end Text

def accessHead (afterAccess afterColon : Space) : List Char :=
  "access".toList ++ (afterAccess.1 ++ ':' :: (afterColon.1 ++ ['{']))

/-- A model body with an access block: all but the expressions. Nothing before the block reads as the
beginning of one. -/
structure Layout where
  before : List Char
  afterAccess : Space
  afterColon : Space
  lead : Space
  slots : List Slot
  after : List Char
  nodup : (slots.map (·.op)).Nodup
  first : ∀ v, v ≠ [] → v <:+ before → ∀ rest,
    accessAt (v ++ (accessHead afterAccess afterColon ++ rest)) = none

/-- The body in which each operation listed has the expression it is granted. -/
def Layout.body (L : Layout) (grant : Op → RuleExpr) : List Char :=
  L.before ++ (accessHead L.afterAccess L.afterColon ++
    ((L.lead.1 ++ slotsText grant L.slots) ++ '}' :: L.after))

/-- A line break stands between the expressions of two entries. -/
def Slot.Breaks (s t : Slot) : Prop :=
  '\n' ∈ s.tail ++ t.head

instance (s t : Slot) : Decidable (s.Breaks t) :=
  inferInstanceAs (Decidable (_ ∈ _))

/-- Each entry but the last grants `public`, or its line ends before the next expression. -/
def Layout.Separated (L : Layout) (grant : Op → RuleExpr) : Prop :=
  ∀ pre s t post, L.slots = pre ++ s :: t :: post →
    (grant s.op).grantsPublic = true ∨ s.Breaks t

/-! ## Finding an entry -/

theorem spaces_append (ws : Space) {c : Char} (hc : isSpace c = false) (l : List Char) :
    spaces (ws.1 ++ c :: l) = c :: l := by
  unfold spaces
  rw [List.dropWhile_append_of_pos ws.2, List.dropWhile_cons_of_neg (by simp [hc])]

theorem isSpace_key {op : Op} {c : Char} (hc : c ∈ op.key) : isSpace c = false ∧ c ≠ ':' := by
  refine forall_of_all (P := fun c => isSpace c = false ∧ c ≠ ':') ?_ c hc
  cases op <;> decide

theorem ruleAt_some {op : Op} {l e : List Char} (h : ruleAt op l = some e) :
    ∃ ws : Space, ∃ r, l = op.key ++ (ws.1 ++ ':' :: r) := by
  unfold ruleAt at h
  simp only [Option.bind_eq_bind, Option.bind_eq_some_iff] at h
  obtain ⟨l₁, hkey, l₂, hcolon, -⟩ := h
  rw [lit_eq_some] at hkey hcolon
  refine ⟨⟨l₁.takeWhile isSpace, fun c hc => List.mem_takeWhile_imp hc⟩, l₂, ?_⟩
  rw [hkey]
  congr 1
  rw [← List.singleton_append, ← hcolon]
  exact List.takeWhile_append_dropWhile.symm

theorem takeWhile_word {k : List Char} (hk : ∀ c ∈ k, isSpace c = false ∧ c ≠ ':') (ws : Space)
    (r : List Char) : (k ++ (ws.1 ++ ':' :: r)).takeWhile (· ≠ ':') = k ++ ws.1 := by
  have hcolon : isSpace ':' = false := by decide
  have hall : ∀ c ∈ k ++ ws.1, decide (c ≠ ':') = true := by
    intro c hc
    rcases List.mem_append.1 hc with hc | hc
    · simpa using (hk c hc).2
    · have hspace := ws.2 c hc
      simp only [decide_eq_true_eq]
      rintro rfl
      rw [hcolon] at hspace
      cases hspace
  rw [← List.append_assoc, List.takeWhile_append_of_pos hall, List.takeWhile_cons_of_neg (by simp),
    List.append_nil]

theorem filter_word {k : List Char} (hk : ∀ c ∈ k, isSpace c = false ∧ c ≠ ':') (ws : Space) :
    (k ++ ws.1).filter (!isSpace ·) = k := by
  rw [List.filter_append, List.filter_eq_self.2 fun c hc => by simp [(hk c hc).1],
    List.filter_eq_nil_iff.2 fun c hc => by simp [ws.2 c hc], List.append_nil]

/-- Up to the colon there are only the key and white space. -/
theorem takeWhile_of_ruleAt {op : Op} {l e : List Char} (h : ruleAt op l = some e) :
    ∃ ws : Space, l.takeWhile (· ≠ ':') = op.key ++ ws.1 := by
  obtain ⟨ws, r, rfl⟩ := ruleAt_some h
  exact ⟨ws, takeWhile_word (fun _ hc => isSpace_key hc) ws r⟩

theorem ruleAt_of_stop {op : Op} {a r : List Char} {x : Char} (ha : ∀ c ∈ a, c ≠ ':')
    (hx : x ≠ ':' ∧ isSpace x = false) (hop : x ∉ op.key) : ruleAt op (a ++ x :: r) = none := by
  by_contra hmatch
  obtain ⟨e, he⟩ := Option.ne_none_iff_exists'.1 hmatch
  obtain ⟨ws, hws⟩ := takeWhile_of_ruleAt he
  have hmem : x ∈ (a ++ x :: r).takeWhile (· ≠ ':') := by
    rw [List.takeWhile_append_of_pos (by simpa using ha), List.takeWhile_cons_of_pos (by simpa using hx.1)]
    simp
  rw [hws] at hmem
  rcases List.mem_append.1 hmem with hmem | hmem
  · exact hop hmem
  · have hspace := ws.2 x hmem
    rw [hx.2] at hspace
    cases hspace

/-- No match begins with a character that no key begins with. -/
theorem ruleAt_of_head {op : Op} {c : Char} {l : List Char} (hc : c ∉ ['c', 'r', 'u', 'd']) :
    ruleAt op (c :: l) = none := by
  have hlit : lit op.key (c :: l) = none := by
    cases op <;> exact lit_cons_of_ne fun h => hc (by subst h; decide)
  unfold ruleAt
  rw [hlit]
  rfl

/-- Where a shorter word, or another one, stands before the colon, the key does not. -/
theorem ruleAt_of_word {op : Op} {k : List Char} (hk : ∀ c ∈ k, isSpace c = false ∧ c ≠ ':')
    (hne : k ≠ op.key) (ws : Space) (r : List Char) :
    ruleAt op (k ++ (ws.1 ++ ':' :: r)) = none := by
  by_contra hmatch
  obtain ⟨e, he⟩ := Option.ne_none_iff_exists'.1 hmatch
  obtain ⟨ws', hws⟩ := takeWhile_of_ruleAt he
  rw [takeWhile_word hk] at hws
  have hfilter := congrArg (List.filter (!isSpace ·)) hws
  rw [filter_word hk, filter_word fun _ hc => isSpace_key hc] at hfilter
  exact hne hfilter

theorem key_suffix {op op' : Op} (hne : op ≠ op') : ∀ v ∈ op.key.tails, v ≠ op'.key := by
  revert hne
  cases op <;> cases op' <;> decide

theorem firstMatch_spaces (op : Op) (ws : Space) (l : List Char) :
    firstMatch (ruleAt op) (ws.1 ++ l) = firstMatch (ruleAt op) l := by
  refine firstMatch_append fun v hv hsuffix => ?_
  obtain ⟨c, v, rfl⟩ := List.exists_cons_of_ne_nil hv
  have hc := ws.2 c (hsuffix.subset (List.mem_cons_self))
  apply ruleAt_of_head
  intro hmem
  have hall : ∀ c ∈ ['c', 'r', 'u', 'd'], isSpace c = false := forall_of_all (by decide)
  rw [hall c hmem] at hc
  cases hc

theorem firstMatch_char (op : Op) {c : Char} (hc : c ∉ ['c', 'r', 'u', 'd']) (l : List Char) :
    firstMatch (ruleAt op) (c :: l) = firstMatch (ruleAt op) l := by
  rw [firstMatch, ruleAt_of_head hc]

theorem firstMatch_expr (op : Op) (e : RuleExpr) (l : List Char) :
    firstMatch (ruleAt op) (e.text ++ l) = firstMatch (ruleAt op) l := by
  have hinline := inline_text e
  obtain ⟨u, hu⟩ := text_last e
  rw [hu] at hinline ⊢
  refine firstMatch_append fun v hv hsuffix => ?_
  obtain ⟨t, rfl, ht⟩ := (List.suffix_concat_iff.1 hsuffix).resolve_left hv
  rw [List.append_assoc]
  refine ruleAt_of_stop (fun c hc => ?_) (by decide) (by cases op <;> decide)
  exact (hinline c (List.mem_append_left _ (ht.subset hc))).2

theorem firstMatch_tail (op : Op) (s : Slot) (l : List Char) :
    firstMatch (ruleAt op) (s.tail ++ l) = firstMatch (ruleAt op) l := by
  unfold Slot.tail
  rw [List.append_assoc, List.append_assoc, firstMatch_spaces]
  cases s.comma with
  | false => exact firstMatch_spaces op s.afterComma l
  | true => exact (firstMatch_char op (by decide) _).trans (firstMatch_spaces op s.afterComma l)

/-- No entry of another operation is read as this operation's. -/
theorem firstMatch_slot_ne {op : Op} {s : Slot} (hne : s.op ≠ op) (grant : Op → RuleExpr)
    (l : List Char) :
    firstMatch (ruleAt op) (s.text grant ++ l) = firstMatch (ruleAt op) l := by
  have hkey : ∀ r, firstMatch (ruleAt op) (s.op.key ++ (s.beforeColon.1 ++ ':' :: r)) =
      firstMatch (ruleAt op) (s.beforeColon.1 ++ ':' :: r) := by
    refine fun r => firstMatch_append fun v _ hsuffix => ?_
    refine ruleAt_of_word (fun c hc => isSpace_key (hsuffix.subset hc)) ?_ _ _
    exact key_suffix hne v ((List.mem_tails _ _).2 hsuffix)
  unfold Slot.text Slot.head
  simp only [List.append_assoc, List.cons_append]
  rw [hkey, firstMatch_spaces, firstMatch_char op (by decide), firstMatch_spaces, firstMatch_expr,
    firstMatch_tail]

theorem line_append {t : List Char} (h : ∀ c ∈ t, c ≠ '\n') (l : List Char) :
    line (t ++ l) = t ++ line l := by
  unfold line
  exact List.takeWhile_append_of_pos (by simpa using h)

theorem lit_singleton (c : Char) (l : List Char) : lit [c] (c :: l) = some l :=
  lit_append [c] l

/-- A rule expression after its operation and a colon is captured to the end of its line. -/
theorem ruleAt_expr (op : Op) (ws ws' : Space) (e : RuleExpr) (l : List Char) :
    ruleAt op (op.key ++ (ws.1 ++ ':' :: (ws'.1 ++ (e.text ++ l)))) = some (e.text ++ line l) := by
  obtain ⟨c, r, hr⟩ := text_head e
  have hinline := inline_text e
  have hline : line (c :: r ++ l) = c :: r ++ line l := by
    refine line_append (fun d hd => (hinline d ?_).1) l
    rw [hr]
    exact List.mem_append_right _ (List.mem_cons_of_mem '.' hd)
  have hallow : spaces (ws'.1 ++ (e.text ++ l)) =
      ['a', 'l', 'l', 'o', 'w'] ++ '.' :: (c :: r ++ l) := by
    rw [hr, List.append_assoc, List.cons_append]
    exact spaces_append ws' (by decide) _
  have hdot : spaces ('.' :: (c :: r ++ l)) = '.' :: (c :: r ++ l) := spaces_of_not (by decide) _
  have hne : ¬ c :: r ++ line l = [] := by
    rw [List.cons_append]
    exact List.cons_ne_nil _ _
  unfold ruleAt
  refine Option.bind_eq_some_iff.2 ⟨_, lit_append _ _, ?_⟩
  rw [spaces_append ws (by decide), lit_singleton]
  refine Option.bind_eq_some_iff.2 ⟨_, rfl, ?_⟩
  rw [hallow, lit_append]
  refine Option.bind_eq_some_iff.2 ⟨_, rfl, ?_⟩
  rw [hdot, lit_singleton]
  refine Option.bind_eq_some_iff.2 ⟨_, rfl, ?_⟩
  rw [hline, if_neg hne, hr, List.takeWhile_cons_of_neg (by decide)]
  simp only [List.append_nil, List.cons_append, List.nil_append]

theorem ruleAt_slot (s : Slot) (grant : Op → RuleExpr) (l : List Char) :
    ruleAt s.op (s.text grant ++ l) = some ((grant s.op).text ++ line (s.tail ++ l)) := by
  rw [← ruleAt_expr s.op s.beforeColon s.afterColon]
  simp only [Slot.text, Slot.head, List.append_assoc, List.cons_append]

theorem firstMatch_slots_ne {op : Op} {slots : List Slot} (hne : op ∉ slots.map (·.op))
    (grant : Op → RuleExpr) (l : List Char) :
    firstMatch (ruleAt op) (slotsText grant slots ++ l) = firstMatch (ruleAt op) l := by
  induction slots with
  | nil => rfl
  | cons s slots ih =>
    simp only [List.map_cons, List.mem_cons, not_or] at hne
    rw [slotsText, List.flatMap_cons, List.append_assoc, firstMatch_slot_ne (Ne.symm hne.1)]
    exact ih hne.2

/-! ## Reading the block -/

theorem quiet_space (ws : Space) : Quiet ws.1 := by
  refine quiet_of_forall fun c hc hmem => ?_
  have hall : ∀ c ∈ ['{', '}', '\'', '"', '`'], isSpace c = false := forall_of_all (by decide)
  have hspace := ws.2 c hc
  rw [hall c hmem] at hspace
  cases hspace

theorem quiet_slot (s : Slot) (grant : Op → RuleExpr) : Quiet (s.text grant) := by
  have hkey : Quiet s.op.key := by
    refine quiet_of_forall (forall_of_all ?_)
    cases s.op <;> decide
  have hcolon : Quiet [':'] := quiet_of_forall (forall_of_all (by decide))
  have hcomma : Quiet (if s.comma then [','] else []) := by
    split
    · exact quiet_of_forall (forall_of_all (by decide))
    · exact quiet_nil
  have hhead : Quiet s.head :=
    hkey.append ((quiet_space _).append (hcolon.append (quiet_space s.afterColon)))
  exact hhead.append ((quiet_text _).append ((quiet_space _).append (hcomma.append (quiet_space _))))

theorem quiet_slots (slots : List Slot) (grant : Op → RuleExpr) : Quiet (slotsText grant slots) := by
  induction slots with
  | nil => exact quiet_nil
  | cons s slots ih => exact (quiet_slot s grant).append ih

theorem accessAt_head (a b : Space) (l : List Char) : accessAt (accessHead a b ++ l) = some l := by
  have hhead : accessHead a b ++ l =
      ['a', 'c', 'c', 'e', 's', 's'] ++ (a.1 ++ ':' :: (b.1 ++ '{' :: l)) := by
    unfold accessHead
    rw [List.append_assoc, List.append_assoc, List.cons_append, List.append_assoc]
    rfl
  rw [hhead]
  unfold accessAt
  rw [lit_append]
  show (lit [':'] (spaces (a.1 ++ ':' :: (b.1 ++ '{' :: l))) >>= fun l => lit ['{'] (spaces l)) = some l
  rw [spaces_append a (by decide), lit_singleton]
  show lit ['{'] (spaces (b.1 ++ '{' :: l)) = some l
  rw [spaces_append b (by decide), lit_singleton]

variable {isWord : Char → Bool}

/-- The parser reads the block off the body. -/
theorem accessRule_body (L : Layout) (grant : Op → RuleExpr) (op : Op) :
    accessRule isWord (L.body grant) op =
      parseRule isWord (L.lead.1 ++ slotsText grant L.slots) op := by
  refine accessRule_eq
    (l := (L.lead.1 ++ slotsText grant L.slots) ++ '}' :: L.after) ?_ ?_
  · unfold Layout.body
    rw [firstMatch_append fun v hv hsuffix => L.first v hv hsuffix _]
    exact firstMatch_of_some (accessAt_head _ _ _)
  · rw [(quiet_space L.lead).append (quiet_slots L.slots grant), balancedBraceBody]
    simp

/-- The rule of an operation that is listed: what its line is classified as. -/
theorem accessRule_of_slot (L : Layout) (grant : Op → RuleExpr) {pre post : List Slot} {s : Slot}
    (hslots : L.slots = pre ++ s :: post) :
    accessRule isWord (L.body grant) s.op =
      classify isWord ((grant s.op).text ++ line (s.tail ++ slotsText grant post)) := by
  have hnodup := L.nodup
  rw [hslots, List.map_append, List.nodup_append] at hnodup
  have hpre : s.op ∉ pre.map (·.op) := fun hmem =>
    hnodup.2.2 s.op hmem s.op (List.mem_cons_self) rfl
  rw [accessRule_body, parseRule, firstMatch_spaces, hslots, slotsText, List.flatMap_append]
  have hskip := firstMatch_slots_ne hpre grant ((s :: post).flatMap (Slot.text grant))
  rw [slotsText] at hskip
  rw [hskip, List.flatMap_cons, firstMatch_of_some (ruleAt_slot s grant _), Option.bind_some]
  rfl

/-- An operation that is not listed has no rule. -/
theorem accessRule_of_not_mem (L : Layout) (grant : Op → RuleExpr) {op : Op}
    (hop : op ∉ L.slots.map (·.op)) : accessRule isWord (L.body grant) op = none := by
  rw [accessRule_body, parseRule, firstMatch_spaces, ← List.append_nil (slotsText grant L.slots),
    firstMatch_slots_ne hop]
  have hnil : firstMatch (ruleAt op) [] = none := by
    cases op <;> rfl
  rw [hnil, Option.bind_none]

/-! ## The rest of the line -/

theorem line_of_break {t : List Char} (h : '\n' ∈ t) (l : List Char) : line (t ++ l) = line t := by
  unfold line
  induction t with
  | nil => cases h
  | cons c t ih =>
    by_cases hc : c = '\n'
    · subst hc
      rfl
    · have hmem : '\n' ∈ t := (List.mem_cons.1 h).resolve_left (Ne.symm hc)
      rw [List.cons_append, List.takeWhile_cons_of_pos (by simpa using hc), ih hmem,
        List.takeWhile_cons_of_pos (by simpa using hc)]

theorem private_line {t : List Char} (h : Private t) : Private (line t) := by
  have hprefix : line t <+: t := List.takeWhile_prefix _
  have hcalls : (line t).IsChain NotPublicCall := List.IsChain.infix h.calls hprefix.isInfix
  refine ⟨hcalls, fun hhead => h.head ?_⟩
  obtain ⟨u, hu⟩ := hprefix
  rw [← hu, List.head?_append, hhead]
  rfl

theorem private_space (ws : Space) : Private ws.1 := by
  refine private_of_forall fun c hc => ?_
  rintro rfl
  have hspace := ws.2 '(' hc
  revert hspace
  decide

theorem private_gaps (s : Slot) : Private s.head ∧ Private s.tail := by
  have hkey : Private s.op.key := by
    refine private_of_forall (forall_of_all ?_)
    cases s.op <;> decide
  have hcolon : Private [':'] := private_of_forall (forall_of_all (by decide))
  have hcomma : Private (if s.comma then [','] else []) := by
    split
    · exact private_of_forall (forall_of_all (by decide))
    · exact private_nil
  exact ⟨hkey.append ((private_space _).append (hcolon.append (private_space s.afterColon))),
    (private_space _).append (hcomma.append (private_space _))⟩

theorem private_slots {grant : Op → RuleExpr} {slots : List Slot}
    (h : ∀ s ∈ slots, (grant s.op).grantsPublic = false) : Private (slotsText grant slots) := by
  induction slots with
  | nil => exact private_nil
  | cons s slots ih =>
    have hself := private_text (h s (List.mem_cons_self))
    exact ((private_gaps s).1.append (hself.append (private_gaps s).2)).append
      (ih fun t ht => h t (List.mem_cons_of_mem s ht))

theorem classify_public (hdot : isWord '.' = false) {t : List Char} (h : CallsPublic t) :
    classify isWord t = some (.boolean "public") := by
  rw [classify, search_public hdot h, if_pos rfl]

theorem classify_authenticated (hdot : isWord '.' = false) {t : List Char} (h : Private t)
    (ht : ∃ u v, t = u ++ '.' :: ("authenticated()".toList ++ v)) :
    classify isWord t = some (.boolean "authenticated") := by
  obtain ⟨u, v, rfl⟩ := ht
  rw [classify, search_not_public h, if_neg Bool.false_ne_true, search_authenticated hdot, if_pos rfl]

theorem text_authenticated (t u v : List Char) :
    t ++ (u ++ (RuleExpr.authenticated.text ++ v)) =
      (t ++ (u ++ "allow".toList)) ++ '.' :: ("authenticated()".toList ++ v) := by
  have htext : RuleExpr.authenticated.text = "allow".toList ++ '.' :: "authenticated()".toList := rfl
  rw [htext]
  simp only [List.append_assoc, List.cons_append]

/-- Where the line goes on, the next expression is captured too. -/
theorem line_next {s t : Slot} {post : List Slot} (hbreak : ¬ s.Breaks t) (g : Op → RuleExpr) :
    line (s.tail ++ slotsText g (t :: post)) =
      (s.tail ++ t.head) ++ ((g t.op).text ++ line (t.tail ++ slotsText g post)) := by
  have hgap : ∀ c ∈ s.tail ++ t.head, c ≠ '\n' := by
    rintro c hc rfl
    exact hbreak hc
  rw [← line_append (fun c hc => (inline_text (g t.op) c hc).1), ← line_append hgap]
  simp only [slotsText, Slot.text, List.flatMap_cons, List.append_assoc]

/-! ## Locality -/

/-- **Access-rule locality.** The rule of each operation is the same whatever the other operations are
granted if and only if each entry is separated from the next. -/
theorem accessRule_local (hdot : isWord '.' = false) (L : Layout) (grant : Op → RuleExpr) :
    (∀ grant' op, grant' op = grant op →
      accessRule isWord (L.body grant') op = accessRule isWord (L.body grant) op) ↔
      L.Separated grant := by
  constructor
  · intro hlocal pre s t post hslots
    by_contra hnot
    obtain ⟨hpublic, hbreak⟩ := not_or.1 hnot
    rw [Bool.not_eq_true] at hpublic
    have hnodup := L.nodup
    rw [hslots, List.map_append, List.nodup_append] at hnodup
    -- the other operations are granted one expression: to everyone, or to whoever is logged in
    obtain ⟨others, hself, hothers⟩ : ∃ others : RuleExpr → Op → RuleExpr,
        (∀ e, others e s.op = grant s.op) ∧ ∀ e, ∀ u ∈ t :: post, others e u.op = e := by
      refine ⟨fun e op => if op = s.op then grant s.op else e, fun e => if_pos rfl, fun e u hu => ?_⟩
      refine if_neg fun heq => (List.nodup_cons.1 hnodup.2.1).1 ?_
      exact List.mem_map.2 ⟨u, hu, heq⟩
    have hnext : ∀ e, others e t.op = e := fun e => hothers e t (List.mem_cons_self)
    have heveryone : accessRule isWord (L.body (others .everyone)) s.op = some (.boolean "public") := by
      rw [accessRule_of_slot L _ hslots, line_next hbreak, hnext]
      have hcalls := callsPublic_text .everyone rfl
      refine classify_public hdot (CallsPublic.append_left (CallsPublic.append_left ?_ _) _)
      exact hcalls.append_right _
    have hloggedIn : accessRule isWord (L.body (others .authenticated)) s.op =
        some (.boolean "authenticated") := by
      have hprivate : Private (slotsText (others .authenticated) (t :: post)) := by
        refine private_slots fun u hu => ?_
        rw [hothers .authenticated u hu]
        rfl
      rw [accessRule_of_slot L _ hslots, hself]
      refine classify_authenticated hdot
        ((private_text hpublic).append (private_line ((private_gaps s).2.append hprivate))) ?_
      rw [line_next hbreak, hnext]
      exact ⟨_, _, text_authenticated _ _ _⟩
    have hsame := (hlocal _ s.op (hself .everyone)).trans (hlocal _ s.op (hself .authenticated)).symm
    rw [heveryone, hloggedIn] at hsame
    exact absurd hsame (by decide)
  · intro hseparated grant' op hop
    by_cases hmem : op ∈ L.slots.map (·.op)
    · obtain ⟨s, hs, rfl⟩ := List.mem_map.1 hmem
      obtain ⟨pre, post, hslots⟩ := List.append_of_mem hs
      rw [accessRule_of_slot L grant' hslots, accessRule_of_slot L grant hslots, hop]
      cases post with
      | nil => rfl
      | cons t post =>
        rcases hseparated pre s t post hslots with hpublic | hbreak
        · have hcalls := callsPublic_text _ hpublic
          rw [classify_public hdot (hcalls.append_right _), classify_public hdot (hcalls.append_right _)]
        · have hline : ∀ g : Op → RuleExpr, line (s.tail ++ slotsText g (t :: post)) =
              line (s.tail ++ t.head) := by
            intro g
            rw [← line_of_break hbreak ((g t.op).text ++ t.tail ++ slotsText g post)]
            simp only [slotsText, Slot.text, List.flatMap_cons, List.append_assoc]
          rw [hline, hline]
    · rw [accessRule_of_not_mem L grant' hmem, accessRule_of_not_mem L grant hmem]

/-- The word characters among the ASCII characters. -/
def asciiWord (c : Char) : Bool :=
  c.isAlphanum || c = '_'

def admin : Name where
  double := false
  chars := "admin".toList
  chars_ok := by simp [isNameChar]

def noSpace : Space :=
  ⟨[], by simp⟩

def blank : Space :=
  ⟨[' '], by simp [isSpace]⟩

def lineBreak : Space :=
  ⟨['\n'], by simp [isSpace]⟩

/-- A block that lists delete and read, the white space between them being given. -/
def deleteAndRead (between : Space) : Layout where
  before := []
  afterAccess := noSpace
  afterColon := blank
  lead := blank
  slots := [⟨.delete, noSpace, blank, noSpace, true, between⟩,
    ⟨.read, noSpace, blank, noSpace, false, blank⟩]
  after := []
  nodup := by simp
  first := by
    intro v hv hsuffix
    exact absurd (List.suffix_nil.1 hsuffix) hv

/-- Delete for admins, and read as given. -/
def deleteByAdmin (read : RuleExpr) : Op → RuleExpr
  | .delete => .role admin
  | _ => read

/-- On two lines, who may read makes no difference to who may delete. -/
theorem accessRule_local_twoLines :
    accessRule asciiWord ((deleteAndRead lineBreak).body (deleteByAdmin .everyone)) .delete =
      accessRule asciiWord
        ((deleteAndRead lineBreak).body (deleteByAdmin .authenticated)) .delete := by
  refine (accessRule_local (by decide) _ _).2 (fun pre s t post hslots => .inr ?_) _ .delete rfl
  rcases pre with _ | ⟨u, _ | ⟨u', pre⟩⟩
  · obtain ⟨rfl, rfl, -⟩ : _ = s ∧ _ = t ∧ _ := by simpa [deleteAndRead] using hslots
    decide
  · simp [deleteAndRead] at hslots
  · simp [deleteAndRead] at hslots

/-- `access: { delete: allow.role('admin'), read: allow.public() }` opens deletion to everyone. -/
theorem accessRule_not_local :
    ¬ ∀ (L : Layout) (grant grant' : Op → RuleExpr) (op : Op), grant' op = grant op →
      accessRule asciiWord (L.body grant') op = accessRule asciiWord (L.body grant) op := by
  intro hclaim
  have hsame := hclaim (deleteAndRead blank) (deleteByAdmin (.role admin)) (deleteByAdmin .everyone)
    .delete rfl
  have hopen : accessRule asciiWord ((deleteAndRead blank).body (deleteByAdmin .everyone)) .delete =
      some (.boolean "public") := by
    decide
  have hclosed : accessRule asciiWord ((deleteAndRead blank).body (deleteByAdmin (.role admin)))
      .delete ≠ some (.boolean "public") := by
    decide +kernel
  exact hclosed (hsame.symm.trans hopen)

end Atomo.Schema

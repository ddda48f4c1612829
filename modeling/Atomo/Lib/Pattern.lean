import Atomo.Lib.Scan

/-!
# Patterns without choice

A pattern is a list of pieces, each of which takes as much as it can and gives nothing back. This is the
meaning of a regular expression in which what a repetition takes is never what comes after it. `search`
is the leftmost match, `matches` are those that follow each other without overlap.
-/

namespace Pattern

variable {α : Type*} [DecidableEq α]

inductive Piece (α : Type*) where
  | lit (word : List α)
  | opt (word : List α)
  | oneOf (words : List (List α))
  | one (p : α → Bool)
  | many (p : α → Bool)
  | some (p : α → Bool)

/-- What a piece takes, and what it leaves. -/
def Piece.take : Piece α → List α → Option (List α × List α)
  | .lit word, l => (Scan.lit word l).map (word, ·)
  | .opt word, l => Option.some (((Scan.lit word l).map (word, ·)).getD ([], l))
  | .oneOf words, l => words.findSome? fun word => (Scan.lit word l).map (word, ·)
  | .one _, [] => none
  | .one p, a :: l => if p a then Option.some ([a], l) else none
  | .many p, l => Option.some (l.takeWhile p, l.dropWhile p)
  | .some p, l => if l.takeWhile p = [] then none else Option.some (l.takeWhile p, l.dropWhile p)

theorem Piece.take_append {piece : Piece α} {l w r : List α} (h : piece.take l = Option.some (w, r)) :
    l = w ++ r := by
  have hlit : ∀ {word}, (Scan.lit word l).map (word, ·) = Option.some (w, r) → l = w ++ r := by
    intro word hword
    obtain ⟨r', hr', heq⟩ := Option.map_eq_some_iff.1 hword
    cases heq
    exact Scan.lit_eq_some.1 hr'
  cases piece with
  | lit word => exact hlit h
  | opt word =>
    simp only [Piece.take, Option.some.injEq] at h
    cases hword : (Scan.lit word l).map (word, ·) with
    | none =>
      rw [hword] at h
      cases h
      rfl
    | some x =>
      rw [hword, Option.getD_some] at h
      exact hlit (hword.trans (congrArg Option.some h))
  | oneOf words =>
    obtain ⟨word, -, hword⟩ := List.exists_of_findSome?_eq_some h
    exact hlit hword
  | one p =>
    cases l with
    | nil => cases h
    | cons a l =>
      rw [Piece.take] at h
      split at h
      · cases h
        rfl
      · cases h
  | many p =>
    cases h
    exact List.takeWhile_append_dropWhile.symm
  | some p =>
    rw [Piece.take] at h
    split at h
    · cases h
    · cases h
      exact List.takeWhile_append_dropWhile.symm

omit [DecidableEq α] in
/-- A piece that takes something where it takes anything. -/
def Piece.solid : Piece α → Bool
  | .lit word => !word.isEmpty
  | .oneOf words => words.all (!·.isEmpty)
  | .one _ | .some _ => true
  | .opt _ | .many _ => false

theorem Piece.take_ne_nil {piece : Piece α} {l w r : List α} (hsolid : piece.solid = true)
    (h : piece.take l = Option.some (w, r)) : w ≠ [] := by
  have hlit : ∀ {word}, (!word.isEmpty) = true → (Scan.lit word l).map (word, ·) = Option.some (w, r) → w ≠ [] := by
    intro word hne hword
    obtain ⟨r', -, heq⟩ := Option.map_eq_some_iff.1 hword
    cases heq
    simpa using hne
  cases piece with
  | lit word => exact hlit hsolid h
  | opt word => cases hsolid
  | oneOf words =>
    obtain ⟨word, hmem, hword⟩ := List.exists_of_findSome?_eq_some h
    exact hlit (List.all_eq_true.1 hsolid word hmem) hword
  | one p =>
    cases l with
    | nil => cases h
    | cons a l =>
      rw [Piece.take] at h
      split at h
      · cases h
        exact List.cons_ne_nil _ _
      · cases h
  | many p => cases hsolid
  | some p =>
    rw [Piece.take] at h
    split at h
    · cases h
    · rename_i hne
      cases h
      exact hne

/-- A piece whose text counts or not. -/
inductive Item (α : Type*) where
  | skip (piece : Piece α)
  | group (piece : Piece α)

def Item.piece : Item α → Piece α
  | .skip piece => piece
  | .group piece => piece

omit [DecidableEq α] in
/-- The groups with that of an item. -/
def Item.captured : Item α → List α → List (List α) → List (List α)
  | .skip _, _, groups => groups
  | .group _, w, groups => w :: groups

structure Match (α : Type*) where
  before : List α
  text : List α
  groups : List (List α)
  rest : List α

/-- What the group of a number took; the first is 1. -/
def Match.group (m : Match α) (i : Nat) : List α :=
  m.groups.getD (i - 1) []

/-- The match at the start of a text. -/
def matchAt : List (Item α) → List α → Option (Match α)
  | [], l => some ⟨[], [], [], l⟩
  | item :: items, l =>
    (item.piece.take l).bind fun (w, r) =>
      (matchAt items r).map fun m => { m with text := w ++ m.text, groups := item.captured w m.groups }

theorem matchAt_append {items : List (Item α)} {l : List α} {m : Match α} (h : matchAt items l = some m) :
    l = m.before ++ m.text ++ m.rest := by
  suffices m.before = [] ∧ l = m.text ++ m.rest by rw [this.1, this.2, List.nil_append]
  induction items generalizing l m with
  | nil =>
    cases h
    exact ⟨rfl, rfl⟩
  | cons item items ih =>
    obtain ⟨⟨w, r⟩, htake, h⟩ := Option.bind_eq_some_iff.1 h
    obtain ⟨m', hm', rfl⟩ := Option.map_eq_some_iff.1 h
    obtain ⟨hbefore, hr⟩ := ih hm'
    exact ⟨hbefore, by rw [Piece.take_append htake, hr, List.append_assoc]⟩

/-- A pattern with a piece that takes something does. -/
theorem matchAt_ne_nil {items : List (Item α)} (hsolid : items.any (·.piece.solid) = true) {l : List α}
    {m : Match α} (h : matchAt items l = some m) : m.text ≠ [] := by
  induction items generalizing l m with
  | nil => cases hsolid
  | cons item items ih =>
    obtain ⟨⟨w, r⟩, htake, h⟩ := Option.bind_eq_some_iff.1 h
    obtain ⟨m', hm', rfl⟩ := Option.map_eq_some_iff.1 h
    rw [List.any_cons, Bool.or_eq_true] at hsolid
    rcases hsolid with hitem | hrest
    · exact List.append_ne_nil_of_left_ne_nil (Piece.take_ne_nil hitem htake) _
    · exact List.append_ne_nil_of_right_ne_nil _ (ih hrest hm')

/-- The leftmost match behind `prev`, at a place that the element before it allows. -/
def search (allows : Option α → Bool) (items : List (Item α)) : Option α → List α → Option (Match α)
  | prev, [] => if allows prev then matchAt items [] else none
  | prev, a :: l =>
    match if allows prev then matchAt items (a :: l) else none with
    | some m => some m
    | none => (search allows items (some a) l).map fun m => { m with before := a :: m.before }

/-- `search` anywhere. -/
def find (items : List (Item α)) (l : List α) : Option (Match α) :=
  search (fun _ => true) items none l

theorem search_spec {allows : Option α → Bool} {items : List (Item α)} {prev : Option α} {l : List α}
    {m : Match α} (h : search allows items prev l = some m) :
    l = m.before ++ m.text ++ m.rest ∧ (items.any (·.piece.solid) = true → m.text ≠ []) := by
  induction l generalizing prev m with
  | nil =>
    rw [search] at h
    split at h
    · exact ⟨matchAt_append h, fun hsolid => matchAt_ne_nil hsolid h⟩
    · cases h
  | cons a l ih =>
    rw [search] at h
    split at h
    · rename_i m' hm'
      cases h
      split at hm'
      · exact ⟨matchAt_append hm', fun hsolid => matchAt_ne_nil hsolid hm'⟩
      · cases hm'
    · obtain ⟨m', hsearch, rfl⟩ := Option.map_eq_some_iff.1 h
      obtain ⟨hl, hne⟩ := ih hsearch
      refine ⟨?_, hne⟩
      conv_lhs => rw [hl]
      rfl

/-- The matches behind `done`, each behind the one before it; `fuel` bounds their number. -/
def findAllFrom (items : List (Item α)) : Nat → List α → List α → List (Match α)
  | 0, _, _ => []
  | fuel + 1, done, l =>
    match find items l with
    | some m =>
      { m with before := done ++ m.before } :: findAllFrom items fuel (done ++ m.before ++ m.text) m.rest
    | none => []

/-- The matches from left to right. -/
def findAll (items : List (Item α)) (l : List α) : List (Match α) :=
  findAllFrom items (l.length + 1) [] l

theorem findAllFrom_spec {items : List (Item α)} {fuel : Nat} {done l : List α} {m : Match α}
    (h : m ∈ findAllFrom items fuel done l) :
    done ++ l = m.before ++ m.text ++ m.rest ∧ (items.any (·.piece.solid) = true → m.text ≠ []) := by
  induction fuel generalizing done l with
  | zero => cases h
  | succ fuel ih =>
    rw [findAllFrom] at h
    split at h
    · rename_i first hfirst
      obtain ⟨hl, hne⟩ := search_spec hfirst
      rcases List.mem_cons.1 h with rfl | hmem
      · exact ⟨by simp only [hl, List.append_assoc], hne⟩
      · obtain ⟨hdone, hne⟩ := ih hmem
        refine ⟨?_, hne⟩
        rw [← hdone, hl]
        simp only [List.append_assoc]
    · cases h

theorem findAll_spec {items : List (Item α)} {l : List α} {m : Match α} (h : m ∈ findAll items l) :
    l = m.before ++ m.text ++ m.rest ∧ (items.any (·.piece.solid) = true → m.text ≠ []) :=
  findAllFrom_spec h

end Pattern

import Mathlib.Data.List.Infix

/-!
# Leftmost matches

Patterns without choice, as functions that take a text and give what they match at its start, and the
search for the first place where one matches. `firstMatch_append` skips text in which no match
begins. The segments of a text between separators have no separator in them.
-/

namespace Scan

variable {α β : Type*} [DecidableEq α]

/-- Drop a literal from the front. -/
def lit : List α → List α → Option (List α)
  | [], l => some l
  | _ :: _, [] => none
  | a :: p, b :: l => if a = b then lit p l else none

@[simp] theorem lit_append (p l : List α) : lit p (p ++ l) = some l := by
  induction p with
  | nil => rfl
  | cons a p ih => simp [lit, ih]

theorem lit_eq_some {p l r : List α} : lit p l = some r ↔ l = p ++ r := by
  constructor
  · intro h
    induction p generalizing l with
    | nil => exact Option.some.inj h
    | cons a p ih =>
      cases l with
      | nil => cases h
      | cons b l =>
        rw [lit] at h
        split at h
        · next hab => rw [hab, ih h, List.cons_append]
        · cases h
  · rintro rfl
    exact lit_append p r

theorem lit_cons_of_ne {a b : α} {p l : List α} (h : a ≠ b) : lit (a :: p) (b :: l) = none := by
  rw [lit, if_neg h]

omit [DecidableEq α]

/-- What the pattern matches at the first place where it does. -/
def firstMatch (m : List α → Option β) : List α → Option β
  | [] => m []
  | a :: l =>
    match m (a :: l) with
    | some b => some b
    | none => firstMatch m l

theorem firstMatch_of_some {m : List α → Option β} {l : List α} {b : β} (h : m l = some b) :
    firstMatch m l = some b := by
  cases l with
  | nil => exact h
  | cons a l => rw [firstMatch, h]

/-- Text in which no match begins is skipped. -/
theorem firstMatch_append {m : List α → Option β} {u l : List α}
    (h : ∀ v, v ≠ [] → v <:+ u → m (v ++ l) = none) : firstMatch m (u ++ l) = firstMatch m l := by
  induction u with
  | nil => rfl
  | cons a u ih =>
    rw [List.cons_append, firstMatch, ← List.cons_append,
      h (a :: u) (List.cons_ne_nil a u) (List.suffix_refl _)]
    exact ih fun v hv hsuffix => h v hv (hsuffix.trans (List.suffix_cons a u))

/-- A match somewhere, at a place that the element before it (if any) allows. -/
def searchAfter (allows : Option α → Bool) (m : List α → Option β) : Option α → List α → Bool
  | prev, [] => allows prev && (m []).isSome
  | prev, a :: l => allows prev && (m (a :: l)).isSome || searchAfter allows m (some a) l

theorem searchAfter_of_mem {allows : Option α → Bool} {m : List α → Option β} {u l : List α} {a : α}
    (hallows : allows (some a) = true) (hm : (m l).isSome = true) (prev : Option α) :
    searchAfter allows m prev (u ++ a :: l) = true := by
  induction u generalizing prev with
  | nil =>
    rw [List.nil_append, searchAfter, Bool.or_eq_true]
    right
    cases l <;> rw [searchAfter] <;> simp [hallows, hm]
  | cons b u ih =>
    rw [List.cons_append, searchAfter, Bool.or_eq_true]
    exact .inr (ih _)

theorem searchAfter_eq_false {allows : Option α → Bool} {m : List α → Option β} {l : List α}
    (h : ∀ v, v <:+ l → m v = none) (prev : Option α) : searchAfter allows m prev l = false := by
  induction l generalizing prev with
  | nil => simp [searchAfter, h [] (List.suffix_refl _)]
  | cons a l ih =>
    rw [searchAfter, h (a :: l) (List.suffix_refl _),
      ih (fun v hv => h v (hv.trans (List.suffix_cons a l)))]
    simp

/-! ## Segments -/

theorem mem_splitOnPPrepend {p : α → Bool} {l acc : List α} (hacc : ∀ c ∈ acc, p c = false) {piece : List α}
    (h : piece ∈ l.splitOnPPrepend p acc) : ∀ c ∈ piece, p c = false := by
  induction l generalizing acc with
  | nil =>
    rw [List.splitOnPPrepend_nil, List.mem_singleton] at h
    subst h
    intro c hc
    exact hacc c (List.mem_reverse.1 hc)
  | cons a l ih =>
    cases ha : p a with
    | true =>
      rw [List.splitOnPPrepend_cons_pos ha] at h
      cases List.mem_cons.1 h with
      | inl hfirst =>
        subst hfirst
        intro c hc
        exact hacc c (List.mem_reverse.1 hc)
      | inr hrest => exact ih (by simp) hrest
    | false =>
      rw [List.splitOnPPrepend_cons_neg ha] at h
      refine ih (fun c hc => ?_) h
      cases List.mem_cons.1 hc with
      | inl hhead => rw [hhead, ha]
      | inr htail => exact hacc c htail

section Segments

variable {γ : Type*} [DecidableEq γ] {a : γ} {l : List γ}

/-- The pieces between separators have no separator in them. -/
theorem not_mem_of_mem_splitOn {piece : List γ} (h : piece ∈ l.splitOn a) : a ∉ piece := by
  intro hmem
  have hscanned : piece ∈ l.splitOnPPrepend (· == a) [] := h
  have hpiece := mem_splitOnPPrepend (by simp) hscanned a hmem
  simp at hpiece

/-- What follows the last `a`. -/
def afterLast (a : γ) (l : List γ) : List γ :=
  (l.reverse.takeWhile (· ≠ a)).reverse

theorem afterLast_append (u : List γ) (h : a ∉ l) : afterLast a (u ++ a :: l) = l := by
  unfold afterLast
  have hall : ∀ c ∈ l.reverse, decide (c ≠ a) = true := by
    intro c hc
    exact decide_eq_true fun hca => h (hca ▸ List.mem_reverse.1 hc)
  rw [List.reverse_append, List.reverse_cons, List.append_assoc, List.takeWhile_append_of_pos hall,
    List.singleton_append, List.takeWhile_cons_of_neg (by simp), List.append_nil, List.reverse_reverse]

/-- What precedes the first `a`. -/
def beforeFirst (a : γ) (l : List γ) : List γ :=
  l.takeWhile (· ≠ a)

theorem beforeFirst_append {u : List γ} (hu : a ∉ u) (hl : l = [] ∨ ∃ v, l = a :: v) : beforeFirst a (u ++ l) = u := by
  unfold beforeFirst
  have hall : ∀ c ∈ u, decide (c ≠ a) = true := fun c hc => decide_eq_true fun hca => hu (hca ▸ hc)
  rw [List.takeWhile_append_of_pos hall]
  obtain rfl | ⟨v, rfl⟩ := hl
  · rw [List.takeWhile_nil, List.append_nil]
  · rw [List.takeWhile_cons_of_neg (by simp), List.append_nil]

end Segments

end Scan

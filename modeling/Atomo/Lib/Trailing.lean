import Mathlib.Data.List.Basic
import Mathlib.Data.List.Infix

/-!
# Texts read from their ends

A value is written at the end of a text. When what the text ends in tells which value it is, whatever stands
before it, the text can be taken apart from behind: values written one after the other, in brackets, between
separators. `ok` says what may stand before a written value.
-/

namespace Trailing

variable {α A B : Type*} {ok ok' : List α → Prop}

/-- A text that ends in what is written for `a` ends in what is written for no other value. -/
def Final (ok : List α → Prop) (f : A → List α) (a : A) : Prop :=
  ∀ ⦃p q b⦄, ok p → ok q → p ++ f a = q ++ f b → a = b

variable {f : A → List α} {g : B → List α} {a : A} {b : B}

theorem Final.peel (h : Final ok f a) {p q : List α} {a' : A} (hp : ok p) (hq : ok q) (heq : p ++ f a = q ++ f a') :
    p = q ∧ a = a' := by
  obtain rfl := h hp hq heq
  exact ⟨List.append_cancel_right heq, rfl⟩

theorem Final.mono (h : Final ok' f a) (hok : ∀ p, ok p → ok' p) : Final ok f a :=
  fun _ _ _ hp hq heq => h (hok _ hp) (hok _ hq) heq

/-- Between two fixed texts. -/
theorem Final.between (h : Final ok' f a) {opening : List α} (hopening : ∀ p, ok p → ok' (p ++ opening))
    (closing : List α) : Final ok (fun a => opening ++ f a ++ closing) a := by
  intro p q a' hp hq heq
  have hinner : (p ++ opening) ++ f a ++ closing = (q ++ opening) ++ f a' ++ closing := by simpa using heq
  exact h (hopening p hp) (hopening q hq) (List.append_cancel_right hinner)

/-- No written value ends in another one. -/
theorem final_of_suffix (h : ∀ a b, f a <:+ f b → a = b) (a : A) : Final ok f a := by
  intro p q b _ _ heq
  have ha : f a <:+ q ++ f b := ⟨p, heq⟩
  have hb : f b <:+ q ++ f b := ⟨q, rfl⟩
  rcases List.suffix_or_suffix_of_suffix ha hb with hab | hba
  · exact h a b hab
  · exact (h b a hba).symm

/-- Written behind a character that is in no written value. -/
theorem final_of_notMem {c : α} (hinj : Function.Injective f) (hc : ∀ a, c ∉ f a) (a : A) :
    Final (fun p => [c] <:+ p) f a := by
  rintro p q b ⟨p, rfl⟩ ⟨q, rfl⟩ heq
  have hlong : ∀ {a b : A} {r : List α}, [c] ++ f a = r ++ ([c] ++ f b) → r = [] := by
    intro a b r hr
    cases r with
    | nil => rfl
    | cons d r =>
      injection hr with _ hr
      apply absurd _ (hc a)
      rw [show f a = _ from hr]
      exact List.mem_append_right r List.mem_cons_self
  rw [List.append_assoc, List.append_assoc] at heq
  rcases List.append_eq_append_iff.1 heq with ⟨r, -, hr⟩ | ⟨r, -, hr⟩
  · rw [hlong hr] at hr
    injection hr with _ hr
    exact hinj hr
  · rw [hlong hr] at hr
    injection hr with _ hr
    exact (hinj hr).symm

/-! ## Lists of values -/

/-- The values of a list between brackets, with a separator between any two of them. -/
def listed (opening sep closing : List α) (f : A → List α) (xs : List A) : List α :=
  opening ++ sep.intercalate (xs.map f) ++ closing

/-- What stands before the last value of a list that begins with `xs`. -/
def before (opening sep : List α) (f : A → List α) : List A → List α
  | [] => opening
  | xs => opening ++ sep.intercalate (xs.map f) ++ sep

theorem intercalate_concat (sep : List α) {l : List (List α)} (h : l ≠ []) (x : List α) :
    sep.intercalate (l ++ [x]) = sep.intercalate l ++ sep ++ x := by
  induction l with
  | nil => exact absurd rfl h
  | cons y l ih =>
    cases l with
    | nil => simp
    | cons z l =>
      rw [List.cons_append, List.intercalate_cons_of_ne_nil (by simp), List.intercalate_cons_of_ne_nil (by simp),
        ih (List.cons_ne_nil z l)]
      simp

theorem before_cons (opening sep : List α) (f : A → List α) (x : A) (xs : List A) :
    before opening sep f (x :: xs) = opening ++ sep.intercalate ((x :: xs).map f) ++ sep :=
  rfl

theorem before_append (opening sep : List α) (f : A → List α) (xs : List A) (x : A) :
    before opening sep f xs ++ f x = opening ++ sep.intercalate ((xs ++ [x]).map f) := by
  cases xs with
  | nil => simp [before]
  | cons y xs =>
    rw [before_cons, List.map_append, List.map_singleton, intercalate_concat sep (by simp)]
    simp

theorem listed_concat (opening sep closing : List α) (f : A → List α) (xs : List A) (x : A) :
    listed opening sep closing f (xs ++ [x]) = before opening sep f xs ++ f x ++ closing := by
  rw [before_append, listed]

/-- What an opening bracket stands at the end of tells it from a value and from a separator. -/
structure Brackets (opening sep : List α) (f : A → List α) (ok : List α → Prop) : Prop where
  opened : ∀ p, ok (p ++ opening)
  separated : ∀ p, ok (p ++ sep)
  value : ∀ p q a, p ++ opening ≠ q ++ f a
  separator : ∀ p q, p ++ opening ≠ q ++ sep

theorem Brackets.ok_before {opening sep : List α} (hb : Brackets opening sep f ok) (p : List α) (xs : List A) :
    ok (p ++ before opening sep f xs) := by
  cases xs with
  | nil => exact hb.opened p
  | cons x xs =>
    rw [before_cons, ← List.append_assoc]
    exact hb.separated _

theorem Brackets.inner {opening sep : List α} (hb : Brackets opening sep f ok) {xs : List A}
    (hxs : ∀ x ∈ xs, Final ok f x) {p q : List α} {ys : List A}
    (heq : p ++ (opening ++ sep.intercalate (xs.map f)) = q ++ (opening ++ sep.intercalate (ys.map f))) : xs = ys := by
  have hempty : ∀ {p q : List α} {ys : List A} {y : A},
      p ++ (opening ++ sep.intercalate (([] : List A).map f)) ≠
        q ++ (opening ++ sep.intercalate ((ys ++ [y]).map f)) := by
    intro p q ys y h
    rw [← before_append, List.map_nil, List.intercalate_nil, List.append_nil, ← List.append_assoc] at h
    exact hb.value _ _ _ h
  induction xs using List.reverseRecOn generalizing ys with
  | nil =>
    rcases ys.eq_nil_or_concat with rfl | ⟨ys, y, rfl⟩
    · rfl
    · rw [List.concat_eq_append] at heq
      exact absurd heq hempty
  | append_singleton xs x ih =>
    rcases ys.eq_nil_or_concat with rfl | ⟨ys, y, rfl⟩
    · exact absurd heq.symm hempty
    rw [List.concat_eq_append, ← before_append, ← before_append, ← List.append_assoc, ← List.append_assoc] at heq
    obtain ⟨hbefore, rfl⟩ := (hxs x (by simp)).peel (hb.ok_before p xs) (hb.ok_before q ys) heq
    -- the separator, or its absence, tells whether there are values before this one
    cases xs with
    | nil =>
      cases ys with
      | nil => rfl
      | cons z ys =>
        rw [before_cons, ← List.append_assoc] at hbefore
        exact absurd hbefore (hb.separator _ _)
    | cons z xs =>
      cases ys with
      | nil =>
        rw [before_cons, ← List.append_assoc] at hbefore
        exact absurd hbefore.symm (hb.separator _ _)
      | cons w ys =>
        rw [before_cons, before_cons, ← List.append_assoc, ← List.append_assoc q] at hbefore
        have hshorter := List.append_cancel_right hbefore
        rw [ih (fun x hx => hxs x (List.mem_append_left _ hx)) hshorter, List.concat_eq_append]

theorem Brackets.final {opening sep : List α} (hb : Brackets opening sep f ok') {xs : List A}
    (hxs : ∀ x ∈ xs, Final ok' f x) (closing : List α) : Final ok (listed opening sep closing f) xs := by
  intro p q ys _ _ heq
  unfold listed at heq
  rw [← List.append_assoc, ← List.append_assoc q] at heq
  exact hb.inner hxs (List.append_cancel_right heq)

end Trailing

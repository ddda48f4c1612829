import Mathlib.Data.List.Basic

/-!
# Three truth values

The connectives of a logic with an unknown truth value, `none`, over lists of operands. A conjunction is true when
all of its operands are, a disjunction when one of them is: the unknown value is told from false only under a
negation.
-/

namespace Kleene

def and : Option Bool → Option Bool → Option Bool
  | some false, _ | _, some false => some false
  | some true, some true => some true
  | _, _ => none

def or : Option Bool → Option Bool → Option Bool
  | some true, _ | _, some true => some true
  | some false, some false => some false
  | _, _ => none

def all (truths : List (Option Bool)) : Option Bool :=
  truths.foldr and (some true)

def any (truths : List (Option Bool)) : Option Bool :=
  truths.foldr or (some false)

theorem and_eq_true_iff (p q : Option Bool) : and p q = some true ↔ p = some true ∧ q = some true := by
  rcases p with _ | _ | _ <;> rcases q with _ | _ | _ <;> decide

theorem or_eq_true_iff (p q : Option Bool) : or p q = some true ↔ p = some true ∨ q = some true := by
  rcases p with _ | _ | _ <;> rcases q with _ | _ | _ <;> decide

theorem all_eq_true_iff (truths : List (Option Bool)) : all truths = some true ↔ ∀ p ∈ truths, p = some true := by
  induction truths with
  | nil => simp [all]
  | cons p truths ih =>
    rw [all, List.foldr_cons, and_eq_true_iff, List.forall_mem_cons, ← ih, all]

theorem any_eq_true_iff (truths : List (Option Bool)) : any truths = some true ↔ some true ∈ truths := by
  induction truths with
  | nil => simp [any]
  | cons p truths ih =>
    rw [any, List.foldr_cons, or_eq_true_iff, List.mem_cons, ← ih, any, eq_comm]

end Kleene

import Atomo.Lib.Outcome

/-!
# Two runs side by side

A program that cannot tell the states of a relation apart: from two of them it ends with the same value or the same
error, and in states of the relation again. What such a program answers depends on nothing that the relation leaves
open.
-/

/-- Two results with the same answer, in states of the relation. -/
inductive SameResult {ε σ α : Type} (R : σ → σ → Prop) : EStateM.Result ε σ α → EStateM.Result ε σ α → Prop
  | ok {s s' : σ} (a : α) (h : R s s') : SameResult R (.ok a s) (.ok a s')
  | error {s s' : σ} (e : ε) (h : R s s') : SameResult R (.error e s) (.error e s')

/-- Runs of `x` from two states of the relation have the same answer. -/
def Parallel {ε σ α : Type} (R : σ → σ → Prop) (x : EStateM ε σ α) : Prop :=
  ∀ s s', R s s' → SameResult R (x s) (x s')

/-- What a run answers. -/
def answerOf {ε σ α : Type} (x : EStateM ε σ α) (s : σ) : Except ε α :=
  match x s with
  | .ok a _ => .ok a
  | .error e _ => .error e

namespace Parallel

variable {ε δ σ α β : Type} {R : σ → σ → Prop} {x : EStateM ε σ α} {f : α → EStateM ε σ β} {s s' : σ}

theorem answer (h : Parallel R x) (hs : R s s') : answerOf x s = answerOf x s' := by
  have hsame := h s s' hs
  unfold answerOf
  generalize x s = result, x s' = result' at hsame ⊢
  cases hsame with
  | ok | error => rfl

theorem pure (a : α) : Parallel R (Pure.pure a : EStateM ε σ α) :=
  fun _ _ hs => .ok a hs

theorem throw (e : ε) : Parallel R (MonadExcept.throw e : EStateM ε σ α) :=
  fun _ _ hs => .error e hs

theorem bind (hx : Parallel R x) (hf : ∀ a, Parallel R (f a)) : Parallel R (x >>= f) := by
  intro s s' hs
  have hbind : ∀ t, (x >>= f) t = match x t with
    | .ok a t' => f a t'
    | .error e t' => .error e t' := fun _ => rfl
  have hsame := hx s s' hs
  rw [hbind, hbind]
  generalize x s = result, x s' = result' at hsame ⊢
  cases hsame with
  | ok a ht => exact hf a _ _ ht
  | error e ht => exact .error e ht

/-- The errors of a program under other names. -/
theorem mapError (g : ε → δ) (hx : Parallel R x) : Parallel R (withError g x) := by
  intro s s' hs
  have hsame := hx s s' hs
  unfold withError
  generalize x s = result, x s' = result' at hsame ⊢
  cases hsame with
  | ok a ht => exact .ok a ht
  | error e ht => exact .error (g e) ht

end Parallel

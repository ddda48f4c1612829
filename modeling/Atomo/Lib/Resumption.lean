import Mathlib.Logic.Basic

/-!
# Programs that wait

A program asks for something, waits for the reply and goes on from it. Between a request and its reply other programs
may run, so what is known of a program is what it may ask whatever it is told: `Obeys` is a rely and guarantee
contract, with one rule for sequencing. `Attempt` is a program that may fail.
-/

/-- A program with requests `ι`, replies `ρ i` to the request `i`, and a result in `α`. -/
inductive Resumption (ι : Type) (ρ : ι → Type) (α : Type) where
  | done (a : α)
  | ask (i : ι) (k : ρ i → Resumption ι ρ α)

namespace Resumption

variable {ι : Type} {ρ : ι → Type} {α β : Type}

def bind : Resumption ι ρ α → (α → Resumption ι ρ β) → Resumption ι ρ β
  | .done a, f => f a
  | .ask i k, f => .ask i fun r => (k r).bind f

instance : Monad (Resumption ι ρ) where
  pure := .done
  bind := bind

/-- As long as the replies satisfy `rely`, the requests satisfy `guar` and the result satisfies `post`. -/
def Obeys (rely : (i : ι) → ρ i → Prop) (guar : ι → Prop) (post : α → Prop) : Resumption ι ρ α → Prop
  | .done a => post a
  | .ask i k => guar i ∧ ∀ r, rely i r → (k r).Obeys rely guar post

variable {rely : (i : ι) → ρ i → Prop} {guar : ι → Prop} {post : α → Prop} {post' : β → Prop}

theorem Obeys.bind {p : Resumption ι ρ α} {f : α → Resumption ι ρ β} (h : p.Obeys rely guar post)
    (hf : ∀ a, post a → (f a).Obeys rely guar post') : (p.bind f).Obeys rely guar post' := by
  induction p with
  | done a => exact hf a h
  | ask i k ih => exact ⟨h.1, fun r hr => ih r (h.2 r hr)⟩

/-- A contract that asks for nothing is kept. -/
theorem obeys_of_free (hguar : ∀ i, guar i) (hpost : ∀ a, post a) (p : Resumption ι ρ α) :
    p.Obeys rely guar post := by
  induction p with
  | done a => exact hpost a
  | ask i k ih => exact ⟨hguar i, fun r _ => ih r⟩

end Resumption

/-- A program whose requests and whose result may fail. -/
abbrev Attempt (ε ι : Type) (ρ : ι → Type) :=
  ExceptT ε (Resumption ι fun i => Except ε (ρ i))

namespace Attempt

variable {ε ι : Type} {ρ : ι → Type} {α β : Type}

def ask (i : ι) : Attempt ε ι ρ (ρ i) :=
  ExceptT.mk (.ask i .done)

/-- The outcome of a program as a result, to be looked at. -/
def outcome (x : Attempt ε ι ρ α) : Attempt ε ι ρ (Except ε α) :=
  ExceptT.mk (x.run.bind fun r => .done (.ok r))

/-- The contract of a program, whose result is `post` unless it fails. -/
def Obeys (rely : (i : ι) → Except ε (ρ i) → Prop) (guar : ι → Prop) (post : α → Prop) (x : Attempt ε ι ρ α) : Prop :=
  x.run.Obeys rely guar fun
    | .ok a => post a
    | .error _ => True

variable {rely : (i : ι) → Except ε (ρ i) → Prop} {guar : ι → Prop} {post : α → Prop} {post' : β → Prop}

theorem Obeys.answer {i : ι} {k : Except ε (ρ i) → Resumption ι (fun i => Except ε (ρ i)) (Except ε α)}
    (h : Obeys rely guar post (ExceptT.mk (.ask i k))) {r : Except ε (ρ i)} (hr : rely i r) :
    Obeys rely guar post (ExceptT.mk (k r)) :=
  h.2 r hr

theorem obeys_of_free (hguar : ∀ i, guar i) (x : Attempt ε ι ρ α) : Obeys rely guar (fun _ => True) x := by
  refine Resumption.obeys_of_free hguar (fun r => ?_) x.run
  cases r <;> exact trivial

theorem obeys_pure {a : α} (h : post a) : Obeys rely guar post (pure a : Attempt ε ι ρ α) :=
  h

theorem obeys_throw {e : ε} : Obeys rely guar post (throw e : Attempt ε ι ρ α) :=
  trivial

theorem obeys_ask {i : ι} {post : ρ i → Prop} (hguar : guar i) (hpost : ∀ a, rely i (.ok a) → post a) :
    Obeys rely guar post (ask i : Attempt ε ι ρ (ρ i)) := by
  refine ⟨hguar, fun r hr => ?_⟩
  cases r with
  | ok a => exact hpost a hr
  | error e => exact trivial

theorem Obeys.bind {x : Attempt ε ι ρ α} {f : α → Attempt ε ι ρ β} (h : Obeys rely guar post x)
    (hf : ∀ a, post a → Obeys rely guar post' (f a)) : Obeys rely guar post' (x >>= f) := by
  refine Resumption.Obeys.bind (f := ExceptT.bindCont f) h fun r hr => ?_
  cases r with
  | ok a => exact hf a hr
  | error e => exact trivial

theorem Obeys.outcome {x : Attempt ε ι ρ α} (h : Obeys rely guar post x) :
    Obeys rely guar (fun r => ∀ a, r = .ok a → post a) x.outcome := by
  refine Resumption.Obeys.bind h fun r hr => ?_
  rintro a rfl
  exact hr

end Attempt

import Mathlib.Logic.Basic

/-!
# Programs that may fail

Rules for programs over a state that end with a value or fail with an error, the state being kept either
way. `Ends x s Q E` says how a run of `x` from `s` can end: in `Q` with a value, or in `E` with an error.
-/

/-- A program with its errors under other names. -/
def withError {ε δ σ α : Type} (g : ε → δ) (x : EStateM ε σ α) : EStateM δ σ α := fun s =>
  match x s with
  | .ok a s' => .ok a s'
  | .error e s' => .error (g e) s'

/-- A run of `x` from `s` ends in `Q` or fails in `E`. -/
structure Ends {ε σ α : Type} (x : EStateM ε σ α) (s : σ) (Q : α → σ → Prop) (E : ε → σ → Prop) : Prop where
  ok : ∀ {a s'}, x s = .ok a s' → Q a s'
  error : ∀ {e s'}, x s = .error e s' → E e s'

namespace Ends

variable {ε σ α β : Type} {x : EStateM ε σ α} {f : α → EStateM ε σ β} {s : σ}
  {Q R : α → σ → Prop} {P : β → σ → Prop} {E F : ε → σ → Prop}

/-- The end of a run, by its result. -/
theorem of_result (h : match x s with
    | .ok a s' => Q a s'
    | .error e s' => E e s') : Ends x s Q E where
  ok hx := by rwa [hx] at h
  error hx := by rwa [hx] at h

theorem pure {a : α} (h : Q a s) : Ends (Pure.pure a : EStateM ε σ α) s Q E :=
  of_result h

theorem throw {e : ε} (h : E e s) : Ends (MonadExcept.throw e : EStateM ε σ α) s Q E :=
  of_result h

theorem mono (h : Ends x s Q E) (hQ : ∀ a s', Q a s' → R a s') (hE : ∀ e s', E e s' → F e s') :
    Ends x s R F where
  ok hx := hQ _ _ (h.ok hx)
  error hx := hE _ _ (h.error hx)

theorem bind (hx : Ends x s Q E) (hf : ∀ a s', Q a s' → Ends (f a) s' P E) : Ends (x >>= f) s P E := by
  have hbind : (x >>= f) s = match x s with
    | .ok a s' => f a s'
    | .error e s' => .error e s' := rfl
  apply of_result
  rw [hbind]
  cases h : x s with
  | ok a s' =>
    have hrest := hf a s' (hx.ok h)
    cases hrun : f a s' with
    | ok b s'' => simpa only [hrun] using hrest.ok hrun
    | error e s'' => simpa only [hrun] using hrest.error hrun
  | error e s' => exact hx.error h

/-- The errors of a program under other names. -/
theorem mapError {δ : Type} {g : ε → δ} {D : δ → σ → Prop} (h : Ends x s Q E)
    (hD : ∀ e s', E e s' → D (g e) s') : Ends (withError g x) s Q D := by
  apply of_result
  unfold withError
  cases hx : x s with
  | ok a s' => exact h.ok hx
  | error e s' => exact hD e s' (h.error hx)

/-- A loop over a list that keeps an invariant. -/
theorem foldlM {γ : Type} {f : β → γ → EStateM ε σ β} {I : β → σ → Prop} {l : List γ} {b : β} {s : σ}
    (hf : ∀ b c s, c ∈ l → I b s → Ends (f b c) s I E) (hb : I b s) : Ends (l.foldlM f b) s I E := by
  induction l generalizing b s with
  | nil => exact Ends.pure hb
  | cons c l ih =>
    rw [List.foldlM_cons]
    refine (hf b c s List.mem_cons_self hb).bind fun b' s' hb' => ?_
    exact ih (fun b c s hc => hf b c s (List.mem_cons_of_mem _ hc)) hb'

/-- A map over a list, each part of which keeps an invariant and gives a result of its own. -/
theorem mapM {γ : Type} {f : γ → EStateM ε σ β} {I : σ → Prop} {R : β → Prop} {l : List γ} {s : σ}
    (hf : ∀ c s, c ∈ l → I s → Ends (f c) s (fun b s' => I s' ∧ R b) E) (hs : I s) :
    Ends (l.mapM f) s (fun bs s' => I s' ∧ ∀ b ∈ bs, R b) E := by
  induction l generalizing s with
  | nil => exact Ends.pure ⟨hs, fun b hb => absurd hb List.not_mem_nil⟩
  | cons c l ih =>
    rw [List.mapM_cons]
    refine (hf c s List.mem_cons_self hs).bind ?_
    rintro b s' ⟨hs', hb⟩
    refine (ih (fun c s hc => hf c s (List.mem_cons_of_mem _ hc)) hs').bind ?_
    rintro bs s'' ⟨hs'', hbs⟩
    exact Ends.pure ⟨hs'', List.forall_mem_cons.2 ⟨hb, hbs⟩⟩

end Ends

/-- The state that a run ends in, with a value or an error. -/
def endState {ε σ α : Type} (x : EStateM ε σ α) (s : σ) : σ :=
  match x s with
  | .ok _ s' => s'
  | .error _ s' => s'

theorem Ends.at_end {ε σ α : Type} {x : EStateM ε σ α} {s : σ} {P : σ → Prop}
    (h : Ends x s (fun _ s' => P s') fun _ s' => P s') : P (endState x s) := by
  unfold endState
  cases hx : x s with
  | ok a s' => exact h.ok hx
  | error e s' => exact h.error hx

/-- The run ends with a value, and the test is true of it. -/
def endsOk {ε σ α : Type} (x : EStateM ε σ α) (s : σ) (test : α → σ → Bool) : Bool :=
  match x s with
  | .ok a s' => test a s'
  | .error _ _ => false

/-- The run fails with an error, and the test is true of it. -/
def endsError {ε σ α : Type} (x : EStateM ε σ α) (s : σ) (test : ε → σ → Bool) : Bool :=
  match x s with
  | .ok _ _ => false
  | .error e s' => test e s'

theorem exists_of_endsOk {ε σ α : Type} {x : EStateM ε σ α} {s : σ} {test : α → σ → Bool}
    (h : endsOk x s test = true) : ∃ a s', x s = .ok a s' ∧ test a s' = true := by
  unfold endsOk at h
  cases hx : x s with
  | ok a s' =>
    rw [hx] at h
    exact ⟨a, s', rfl, h⟩
  | error e s' =>
    rw [hx] at h
    cases h

theorem exists_of_endsError {ε σ α : Type} {x : EStateM ε σ α} {s : σ} {test : ε → σ → Bool}
    (h : endsError x s test = true) : ∃ e s', x s = .error e s' ∧ test e s' = true := by
  unfold endsError at h
  cases hx : x s with
  | ok a s' =>
    rw [hx] at h
    cases h
  | error e s' =>
    rw [hx] at h
    exact ⟨e, s', rfl, h⟩

section Sequence

variable {ε σ α β : Type} {x : EStateM ε σ α} {f : α → EStateM ε σ β} {s s' t : σ}

/-- A sequence goes on with what its first part ends with. -/
theorem bind_of_ok {a : α} (hx : x s = .ok a s') : (x >>= f) s = f a s' := by
  show EStateM.bind x f s = f a s'
  rw [EStateM.bind, hx]

theorem withError_of_ok {δ : Type} {g : ε → δ} {a : α} (hx : x s = .ok a s') : withError g x s = .ok a s' := by
  unfold withError
  rw [hx]

/-- A sequence fails with its first part. -/
theorem bind_of_error {e : ε} (hx : x s = .error e t) : (x >>= f) s = .error e t := by
  show EStateM.bind x f s = .error e t
  rw [EStateM.bind, hx]

/-- A sequence fails in one of its parts. -/
theorem bind_eq_error {e : ε} (h : (x >>= f) s = .error e t) :
    x s = .error e t ∨ ∃ a s', x s = .ok a s' ∧ f a s' = .error e t := by
  cases hx : x s with
  | ok a s' =>
    rw [bind_of_ok hx] at h
    exact .inr ⟨a, s', rfl, h⟩
  | error e' s' =>
    have hfails : (x >>= f) s = .error e' s' := by
      show EStateM.bind x f s = _
      rw [EStateM.bind, hx]
    rw [hfails] at h
    cases h
    exact .inl rfl

end Sequence

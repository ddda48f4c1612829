import Atomo.Lib.LabelledSystem

/-!
# Machines with a stack of tasks

A task changes the state, may show an event, and leaves tasks that are done before the rest: a call and the calls that
it makes in turn. `Does` is a call that comes to its end, in finitely many steps and whatever waits below it on the
stack. Where every task has a meaning as a function and no task makes the state larger, tasks that come to their end on
all states up to a size come to it one after another (`exists_doesAll`).
-/

/-- What one step of each task does. -/
structure TaskStack (σ τ ε : Type*) where
  step : τ → σ → Option ε × σ × List τ

namespace TaskStack

variable {σ τ ε : Type*} {M : TaskStack σ τ ε}

/-- The steps of the machine: the first task is taken off the stack, and what it leaves is put there. -/
def system (M : TaskStack σ τ ε) : LabelledSystem (σ × List τ) (Option ε) where
  init _ := True
  step c e c' := ∃ t ts, c.2 = t :: ts ∧ e = (M.step t c.1).1 ∧ c' = ((M.step t c.1).2.1, (M.step t c.1).2.2 ++ ts)

/-- The tasks come to their end. -/
def DoesAll (M : TaskStack σ τ ε) (l : List τ) (s : σ) (es : List (Option ε)) (s' : σ) : Prop :=
  ∀ ts, M.system.Run (s, l ++ ts) es (s', ts)

/-- The task comes to its end. -/
def Does (M : TaskStack σ τ ε) (t : τ) (s : σ) (es : List (Option ε)) (s' : σ) : Prop :=
  M.DoesAll [t] s es s'

variable {t : τ} {l : List τ} {s s' s'' : σ} {es es' : List (Option ε)}

theorem DoesAll.nil : M.DoesAll [] s [] s :=
  fun ts => .nil (s, ts)

theorem DoesAll.cons (h : M.Does t s es s') (h' : M.DoesAll l s' es' s'') : M.DoesAll (t :: l) s (es ++ es') s'' :=
  fun ts => (h (l ++ ts)).append (h' ts)

/-- A task comes to its end when the tasks that it leaves do. -/
theorem does_of_step (h : M.DoesAll (M.step t s).2.2 (M.step t s).2.1 es s') : M.Does t s ((M.step t s).1 :: es) s' :=
  fun ts => .cons ⟨t, ts, rfl, rfl, rfl⟩ (h ts)

/-- The machine has no choice: from a configuration every run of a length is the same. -/
theorem step_unique {c c₁ c₂ : σ × List τ} {e₁ e₂ : Option ε} (h₁ : M.system.step c e₁ c₁) (h₂ : M.system.step c e₂ c₂) :
    e₁ = e₂ ∧ c₁ = c₂ := by
  obtain ⟨t, ts, hc, rfl, rfl⟩ := h₁
  obtain ⟨t', ts', hc', rfl, rfl⟩ := h₂
  obtain ⟨rfl, rfl⟩ := List.cons.inj (hc.symm.trans hc')
  exact ⟨rfl, rfl⟩

/-- Where the tasks come to their end, no run of them goes on. -/
theorem DoesAll.labels_within (h : M.DoesAll l s es s') {es' : List (Option ε)} {c : σ × List τ}
    (r : M.system.Run (s, l) es' c) : es' <+: es := by
  have hend : M.system.Run (s, l) es (s', []) := by
    have hrun := h []
    rwa [List.append_nil] at hrun
  clear h
  generalize hd : ((s', []) : σ × List τ) = d at hend
  generalize ((s, l) : σ × List τ) = c₀ at hend r
  induction hend generalizing es' with
  | nil c₁ =>
    cases r with
    | nil => exact List.nil_prefix
    | cons hstep _ =>
      obtain ⟨t, ts, hstack, -⟩ := hstep
      rw [← hd] at hstack
      cases hstack
  | cons hstep _ ih =>
    cases r with
    | nil => exact List.nil_prefix
    | cons hstep' r' =>
      obtain ⟨rfl, rfl⟩ := step_unique hstep hstep'
      exact List.cons_prefix_cons.2 ⟨rfl, ih hd r'⟩

section Meaning

variable {run : τ → σ → σ} {size : σ → Nat} {k : Nat}

/-- Tasks that come to their end on every state up to a size, one after another. -/
theorem exists_doesAll (hrun : ∀ t s, size (run t s) ≤ size s) (hl : ∀ t ∈ l, ∀ s, size s ≤ k → ∃ es, M.Does t s es (run t s))
    (hs : size s ≤ k) : ∃ es, M.DoesAll l s es (l.foldl (fun s t => run t s) s) := by
  induction l generalizing s with
  | nil => exact ⟨[], .nil⟩
  | cons t l ih =>
    obtain ⟨es, hdoes⟩ := hl t List.mem_cons_self s hs
    obtain ⟨es', hrest⟩ := ih (fun t ht => hl t (List.mem_cons_of_mem _ ht)) (Nat.le_trans (hrun t s) hs)
    exact ⟨es ++ es', .cons hdoes hrest⟩

end Meaning

end TaskStack

import Mathlib.Data.List.Basic
import Mathlib.Logic.Relation

/-!
# Walks

Going from a place to the next as long as there is one. Where only the places of a finite list have a next, a walk
stops, after at most as many steps as the list has places, or it is trapped in a cycle.
-/

namespace Walk

variable {α : Type*}

/-- A place has a next. -/
def Steps (next : α → Option α) (a b : α) : Prop :=
  next a = some b

/-- The walk from a place stops after at most `n` steps. -/
inductive Halts (next : α → Option α) : Nat → α → Prop where
  | stop {n : Nat} {a : α} (last : next a = none) : Halts next n a
  | step {n : Nat} {a b : α} (here : next a = some b) (rest : Halts next n b) : Halts next (n + 1) a

/-- The walk from a place comes to one from which it returns. -/
def Trapped (next : α → Option α) (a : α) : Prop :=
  ∃ b, Relation.ReflTransGen (Steps next) a b ∧ Relation.TransGen (Steps next) b b

variable {next : α → Option α} {a b : α} {n : Nat} {places : List α}

theorem Steps.unique {c : α} (h : Steps next a b) (h' : Steps next a c) : b = c :=
  Option.some.inj (h.symm.trans h')

theorem Trapped.of_step (here : next a = some b) (h : Trapped next b) : Trapped next a := by
  obtain ⟨c, hwalk, hcycle⟩ := h
  exact ⟨c, .head here hwalk, hcycle⟩

/-- A trapped walk goes on, and is trapped where it gets to. -/
theorem Trapped.exists_step (h : Trapped next a) : ∃ b, next a = some b ∧ Trapped next b := by
  obtain ⟨c, hwalk, hcycle⟩ := h
  cases hwalk.cases_head with
  | inl hsame =>
    subst hsame
    obtain ⟨b, hstep, hback⟩ := Relation.TransGen.head'_iff.1 hcycle
    exact ⟨b, hstep, a, hback, hcycle⟩
  | inr hgoes =>
    obtain ⟨b, hstep, hrest⟩ := hgoes
    exact ⟨b, hstep, c, hrest, hcycle⟩

theorem Trapped.step (h : Trapped next a) (here : next a = some b) : Trapped next b := by
  obtain ⟨c, hstep, htrapped⟩ := h.exists_step
  rwa [Steps.unique here hstep]

theorem Halts.not_trapped (h : Halts next n a) : ¬ Trapped next a := by
  intro htrapped
  induction h with
  | stop last =>
    obtain ⟨b, hstep, -⟩ := htrapped.exists_step
    cases last.symm.trans hstep
  | step here _ ih => exact ih (htrapped.step here)

/-- Each step takes a place that the walk does not come back to. -/
theorem halts_of_not_trapped (hplaces : ∀ b, Relation.ReflTransGen (Steps next) a b → next b ≠ none → b ∈ places)
    (h : ¬ Trapped next a) : Halts next places.length a := by
  classical
  induction hn : places.length generalizing a places with
  | zero =>
    refine .stop (not_not.1 fun hgoes => ?_)
    have hmem := hplaces a .refl hgoes
    rw [List.length_eq_zero_iff.1 hn] at hmem
    cases hmem
  | succ n ih =>
    cases hnext : next a with
    | none => exact .stop hnext
    | some b =>
      have hmem : a ∈ places := hplaces a .refl (by simp [hnext])
      have hrest : ∀ c, Relation.ReflTransGen (Steps next) b c → next c ≠ none → c ∈ places.erase a := by
        intro c hwalk hgoes
        refine (List.mem_erase_of_ne ?_).2 (hplaces c (.head hnext hwalk) hgoes)
        rintro rfl
        exact h ⟨c, .refl, Relation.TransGen.head' hnext hwalk⟩
      refine .step hnext (ih hrest (fun htrapped => h (htrapped.of_step hnext)) ?_)
      rw [List.length_erase_of_mem hmem, hn, Nat.add_sub_cancel]

end Walk

import Mathlib.Data.List.Basic
import Mathlib.Order.Basic

/-!
# Labelled transition systems

A system is a set of initial states and a step relation whose labels carry whatever an observer of
the step sees (the call, its reply, the environment's choices). `Run` is a finite execution with its
trace. The rules below are the only inductions over executions that a development needs:

* an inductive property holds in every reachable state (`Inductive.reachable`);
* a property that every step keeps is kept by a run (`Run.preserves`);
* a property of the state and of the trace so far is an induction on the last step (`Run.history`);
* a property lost along a run is lost at one of its steps (`Run.exists_leaving`);
* `restrict` is the system all of whose steps meet a condition, so that "every run whose steps all
  meet `C`" is a statement about the runs of `M.restrict C`;
* where the steps that keep to a law are those that meet a condition, so are the runs
  (`Run.allSteps_iff`, and `Run.end_iff` for a law about the last state).
-/

/-- A labelled transition system over states `σ` and labels `α`. -/
structure LabelledSystem (σ α : Type*) where
  init : σ → Prop
  step : σ → α → σ → Prop

namespace LabelledSystem

variable {σ α : Type*} {M : LabelledSystem σ α}

/-- `M.Run s as t`: the system can go from `s` to `t` by steps labelled `as`, in this order. -/
inductive Run (M : LabelledSystem σ α) : σ → List α → σ → Prop
  | nil (s : σ) : Run M s [] s
  | cons {s t u : σ} {a : α} {as : List α} (h : M.step s a t) (r : Run M t as u) :
      Run M s (a :: as) u

/-- A state some run from an initial state ends in. -/
def Reachable (M : LabelledSystem σ α) (t : σ) : Prop :=
  ∃ s as, M.init s ∧ M.Run s as t

/-! ## Composing and splitting runs -/

theorem Run.append {s t u : σ} {as bs : List α} (h : M.Run s as t) (k : M.Run t bs u) :
    M.Run s (as ++ bs) u := by
  induction h with
  | nil => exact k
  | cons hstep _ ih => exact .cons hstep (ih k)

theorem Run.single {s t : σ} {a : α} (h : M.step s a t) : M.Run s [a] t :=
  .cons h (.nil t)

theorem Run.snoc {s t u : σ} {as : List α} {a : α} (h : M.Run s as t) (k : M.step t a u) :
    M.Run s (as ++ [a]) u :=
  h.append (.single k)

theorem run_cons_iff {s u : σ} {a : α} {as : List α} :
    M.Run s (a :: as) u ↔ ∃ t, M.step s a t ∧ M.Run t as u := by
  constructor
  · rintro (_ | ⟨h, r⟩)
    exact ⟨_, h, r⟩
  · rintro ⟨t, h, r⟩
    exact .cons h r

theorem run_append_iff {s u : σ} {as bs : List α} :
    M.Run s (as ++ bs) u ↔ ∃ t, M.Run s as t ∧ M.Run t bs u := by
  constructor
  · intro h
    induction as generalizing s with
    | nil => exact ⟨s, .nil s, h⟩
    | cons a as ih =>
      obtain ⟨t, hstep, hrest⟩ := run_cons_iff.1 h
      obtain ⟨v, hv, hu⟩ := ih hrest
      exact ⟨v, .cons hstep hv, hu⟩
  · rintro ⟨t, h, k⟩
    exact h.append k

theorem Reachable.of_init {s : σ} (h : M.init s) : M.Reachable s :=
  ⟨s, [], h, .nil s⟩

theorem Reachable.run {s t : σ} {as : List α} (h : M.Reachable s) (r : M.Run s as t) :
    M.Reachable t := by
  obtain ⟨s₀, bs, h₀, r₀⟩ := h
  exact ⟨s₀, bs ++ as, h₀, r₀.append r⟩

theorem Reachable.step {s t : σ} {a : α} (h : M.Reachable s) (k : M.step s a t) :
    M.Reachable t :=
  h.run (.single k)

/-- Where a label leaves no choice, a trace leads to one state. -/
theorem Run.unique (hM : ∀ {s a t t'}, M.step s a t → M.step s a t' → t = t') {s t t' : σ} {as : List α}
    (r : M.Run s as t) (r' : M.Run s as t') : t = t' := by
  induction r with
  | nil =>
    cases r'
    rfl
  | cons h _ ih =>
    obtain ⟨v, h', r'⟩ := run_cons_iff.1 r'
    exact ih (hM h h' ▸ r')

/-! ## Invariants -/

/-- `P` holds initially and every step keeps it. -/
structure Inductive (M : LabelledSystem σ α) (P : σ → Prop) : Prop where
  init : ∀ s, M.init s → P s
  step : ∀ s a t, P s → M.step s a t → P t

theorem Run.preserves {P : σ → Prop} (hstep : ∀ s a t, P s → M.step s a t → P t)
    {s t : σ} {as : List α} (r : M.Run s as t) (h : P s) : P t := by
  induction r with
  | nil => exact h
  | cons k _ ih => exact ih (hstep _ _ _ h k)

theorem Inductive.reachable {P : σ → Prop} (h : M.Inductive P) {t : σ} (ht : M.Reachable t) :
    P t := by
  obtain ⟨s, as, hs, r⟩ := ht
  exact r.preserves h.step (h.init s hs)

/-- An invariant whose step proof may use another invariant already established. -/
theorem Inductive.and {P Q : σ → Prop} (hP : M.Inductive P) (hinit : ∀ s, M.init s → Q s)
    (hstep : ∀ s a t, P s → Q s → M.step s a t → Q t) : M.Inductive fun s => P s ∧ Q s :=
  ⟨fun s hs => ⟨hP.init s hs, hinit s hs⟩,
    fun s a t h k => ⟨hP.step s a t h.1 k, hstep s a t h.1 h.2 k⟩⟩

/-- A property lost along a run is lost at one of its steps; it holds on the whole prefix's end. -/
theorem Run.exists_leaving {P : σ → Prop} {s t : σ} {as : List α} (r : M.Run s as t) (hs : P s)
    (ht : ¬ P t) : ∃ bs a cs u v, as = bs ++ a :: cs ∧ M.Run s bs u ∧ M.step u a v ∧
      M.Run v cs t ∧ P u ∧ ¬ P v := by
  induction r with
  | nil => exact absurd hs ht
  | @cons s v t a as k r ih =>
    by_cases hv : P v
    · obtain ⟨bs, b, cs, u, w, rfl, h₁, h₂, h₃, hu, hw⟩ := ih hv ht
      exact ⟨a :: bs, b, cs, u, w, rfl, .cons k h₁, h₂, h₃, hu, hw⟩
    · exact ⟨[], a, as, s, v, rfl, .nil s, k, r, hs, hv⟩

/-- Induction on the last step of a run, for properties of a state and of the trace that led to
it. -/
theorem Run.history {P : List α → σ → Prop} {s t : σ} {as : List α} (r : M.Run s as t)
    (nil : P [] s)
    (snoc : ∀ bs u a v, M.Run s bs u → P bs u → M.step u a v → P (bs ++ [a]) v) : P as t := by
  suffices h : ∀ bs u, M.Run s bs u → P bs u → M.Run u as t → P (bs ++ as) t from
    h [] s (.nil s) nil r
  clear r
  induction as with
  | nil =>
    rintro bs u - hP (_ | _)
    rwa [List.append_nil]
  | cons a as ih =>
    rintro bs u rbs hP (_ | ⟨hstep, r⟩)
    have := ih (bs ++ [a]) _ (rbs.snoc hstep) (snoc bs u a _ rbs hP hstep) r
    rwa [List.append_assoc] at this

/-! ## Runs whose steps meet a condition -/

/-- The system with the steps of `M` that meet `C`. -/
def restrict (M : LabelledSystem σ α) (C : σ → α → Prop) : LabelledSystem σ α where
  init := M.init
  step s a t := M.step s a t ∧ C s a

theorem Run.of_restrict {C : σ → α → Prop} {s t : σ} {as : List α}
    (r : (M.restrict C).Run s as t) : M.Run s as t := by
  induction r with
  | nil => exact .nil _
  | cons h _ ih => exact .cons h.1 ih

/-- A weaker condition leaves more runs. -/
theorem Run.restrict_mono {C D : σ → α → Prop} (hCD : ∀ s a, C s a → D s a) {s t : σ} {as : List α}
    (r : (M.restrict C).Run s as t) : (M.restrict D).Run s as t := by
  induction r with
  | nil => exact .nil _
  | cons h _ ih => exact .cons ⟨h.1, hCD _ _ h.2⟩ ih

/-- Two conditions one after the other. -/
theorem Run.restrict_and {C D : σ → α → Prop} {s t : σ} {as : List α}
    (r : (M.restrict fun s a => C s a ∧ D s a).Run s as t) : ((M.restrict C).restrict D).Run s as t := by
  induction r with
  | nil => exact .nil _
  | cons h _ ih => exact .cons ⟨⟨h.1, h.2.1⟩, h.2.2⟩ ih

theorem Reachable.of_restrict {C : σ → α → Prop} {t : σ} (h : (M.restrict C).Reachable t) :
    M.Reachable t := by
  obtain ⟨s, as, hs, r⟩ := h
  exact ⟨s, as, hs, r.of_restrict⟩

/-! ## What every step of a run does -/

/-- Every step that `as` takes from `s` on does what `Q` says of it. -/
def AllSteps (M : LabelledSystem σ α) (Q : σ → α → σ → Prop) (s : σ) (as : List α) : Prop :=
  ∀ bs a cs u v, as = bs ++ a :: cs → M.Run s bs u → M.step u a v → Q u a v

/-- `P` holds in every state that `as` leads through from `s` on. -/
def Always (M : LabelledSystem σ α) (P : σ → Prop) (s : σ) (as : List α) : Prop :=
  ∀ bs cs u, as = bs ++ cs → M.Run s bs u → P u

theorem allSteps_nil {Q : σ → α → σ → Prop} {s : σ} : M.AllSteps Q s [] := by
  intro bs a cs u v h
  cases List.append_eq_nil_iff.1 h.symm with
  | intro _ hcons => cases hcons

theorem allSteps_cons_iff (hM : ∀ {s a t t'}, M.step s a t → M.step s a t' → t = t') {Q : σ → α → σ → Prop}
    {s t : σ} {a : α} {as : List α} (h : M.step s a t) :
    M.AllSteps Q s (a :: as) ↔ Q s a t ∧ M.AllSteps Q t as := by
  constructor
  · intro hall
    exact ⟨hall [] a as s t rfl (.nil s) h,
      fun bs b cs u v has r hstep => hall (a :: bs) b cs u v (by rw [has, List.cons_append]) (.cons h r) hstep⟩
  · rintro ⟨hfirst, hrest⟩ bs b cs u v has r hstep
    cases r with
    | nil =>
      cases has
      exact hM h hstep ▸ hfirst
    | cons h' r' =>
      rw [List.cons_append] at has
      injection has with hhead htail
      subst hhead
      exact hrest _ b cs u v htail (hM h h' ▸ r') hstep

theorem always_iff {P : σ → Prop} {s : σ} {as : List α} :
    M.Always P s as ↔ P s ∧ M.AllSteps (fun _ _ v => P v) s as := by
  constructor
  · intro h
    refine ⟨h [] as s rfl (.nil s), fun bs a cs u v has r hstep => h (bs ++ [a]) cs v ?_ (r.snoc hstep)⟩
    rw [has, List.append_assoc, List.singleton_append]
  · rintro ⟨hs, hall⟩ bs cs u has r
    obtain rfl | ⟨bs', a, rfl⟩ := List.eq_nil_or_concat bs
    · cases r
      exact hs
    · rw [List.concat_eq_append] at has r
      obtain ⟨w, hw, hlast⟩ := run_append_iff.1 r
      obtain ⟨x, hstep, hnil⟩ := run_cons_iff.1 hlast
      cases hnil
      exact hall bs' a cs w u (by rw [has, List.append_assoc, List.singleton_append]) hw hstep

/-- While `I` holds, a step does what `Q` says exactly when it meets `C`, and then keeps `I`: the runs all of whose
steps do what `Q` says are those all of whose steps meet `C`. -/
theorem Run.allSteps_iff (hM : ∀ {s a t t'}, M.step s a t → M.step s a t' → t = t') {Q : σ → α → σ → Prop}
    {C : σ → α → Prop} {I : σ → Prop} (hiff : ∀ s a t, I s → M.step s a t → (Q s a t ↔ C s a))
    (hkeep : ∀ s a t, I s → M.step s a t → C s a → I t) {s t : σ} {as : List α} (r : M.Run s as t) (hs : I s) :
    M.AllSteps Q s as ↔ (M.restrict C).Run s as t := by
  induction r with
  | nil s => exact ⟨fun _ => .nil s, fun _ => allSteps_nil⟩
  | cons h _ ih =>
    rw [allSteps_cons_iff hM h, hiff _ _ _ hs h]
    constructor
    · rintro ⟨hC, hrest⟩
      exact .cons ⟨h, hC⟩ ((ih (hkeep _ _ _ hs h hC)).1 hrest)
    · intro hrun
      obtain ⟨v, ⟨hstep, hC⟩, hrest⟩ := run_cons_iff.1 hrun
      rw [hM hstep h] at hrest
      exact ⟨hC, (ih (hkeep _ _ _ hs h hC)).2 hrest⟩

/-- `P` stays lost once it is lost, and while it holds a step keeps it exactly when it meets `C`, and then keeps `I`:
`P` holds at the end of a run exactly when all the steps of the run meet `C`. -/
theorem Run.end_iff (hM : ∀ {s a t t'}, M.step s a t → M.step s a t' → t = t') {P I : σ → Prop} {C : σ → α → Prop}
    (hlost : ∀ s a t, M.step s a t → P t → P s)
    (hiff : ∀ s a t, I s → P s → M.step s a t → (P t ↔ C s a))
    (hkeep : ∀ s a t, I s → P s → M.step s a t → C s a → I t)
    {s t : σ} {as : List α} (r : M.Run s as t) (hI : I s) (hP : P s) : P t ↔ (M.restrict C).Run s as t := by
  have hearlier : ∀ {u v : σ} {bs : List α}, M.Run u bs v → P v → P u := by
    intro u v bs rbs
    induction rbs with
    | nil => exact id
    | cons h _ ih => exact fun hv => hlost _ _ _ h (ih hv)
  have hall := r.allSteps_iff hM (Q := fun _ _ v => P v) (I := fun s => I s ∧ P s)
    (fun s a t hs hstep => hiff s a t hs.1 hs.2 hstep)
    (fun s a t hs hstep hC => ⟨hkeep s a t hs.1 hs.2 hstep hC, (hiff s a t hs.1 hs.2 hstep).2 hC⟩) ⟨hI, hP⟩
  rw [← hall]
  constructor
  · rintro hend bs a cs u v rfl rbs hstep
    obtain ⟨u', rbs', hrest⟩ := run_append_iff.1 r
    obtain rfl := rbs'.unique hM rbs
    obtain ⟨v', hstep', hcs⟩ := run_cons_iff.1 hrest
    obtain rfl := hM hstep' hstep
    exact hearlier hcs hend
  · exact fun hsteps => always_iff.2 ⟨hP, hsteps⟩ as [] t (List.append_nil as).symm r

end LabelledSystem

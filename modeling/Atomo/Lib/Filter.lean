import Mathlib.Algebra.Order.Field.Rat

/-!
# Lists changed entry by entry

Where the entries that pass a filter are kept, none of these is lost, and none is added exactly when no
other entry comes to pass. A partial map over a list has a value when it has one at every entry.
-/

namespace List

variable {α : Type*} {p : α → Bool} {f : α → Option α} {l : List α}

theorem filter_sublist_filterMap (hf : ∀ a ∈ l, p a = true → f a = some a) :
    l.filter p <+ (l.filterMap f).filter p := by
  induction l with
  | nil => exact Sublist.refl []
  | cons a l ih =>
    have hrest := ih fun b hb => hf b (mem_cons_of_mem a hb)
    cases hp : p a with
    | true =>
      rw [filterMap_cons_some (hf a mem_cons_self hp), filter_cons_of_pos hp, filter_cons_of_pos hp]
      exact hrest.cons_cons a
    | false =>
      rw [filter_cons_of_neg (Bool.not_eq_true _ ▸ hp)]
      cases ha : f a with
      | none =>
        rw [filterMap_cons_none ha]
        exact hrest
      | some b =>
        rw [filterMap_cons_some ha]
        exact hrest.trans ((sublist_cons_self b _).filter p)

/-- A map that changes entries outside of the filter only, and leaves them there. -/
theorem filter_map_eq_filter {g : α → α} (hg : ∀ a ∈ l, g a = a ∨ p a = false ∧ p (g a) = false) :
    (l.map g).filter p = l.filter p := by
  induction l with
  | nil => rfl
  | cons a l ih =>
    have hrest := ih fun b hb => hg b (mem_cons_of_mem a hb)
    rw [map_cons]
    rcases hg a mem_cons_self with hsame | ⟨hp, hp'⟩
    · rw [hsame, filter_cons, filter_cons, hrest]
    · rw [filter_cons_of_neg (Bool.not_eq_true _ ▸ hp'), filter_cons_of_neg (Bool.not_eq_true _ ▸ hp), hrest]

theorem filter_filterMap_eq_iff (hf : ∀ a ∈ l, p a = true → f a = some a) :
    (l.filterMap f).filter p = l.filter p ↔ ∀ a ∈ l, p a = false → ∀ b, f a = some b → p b = false := by
  induction l with
  | nil => simp
  | cons a l ih =>
    have hl : ∀ b ∈ l, p b = true → f b = some b := fun b hb => hf b (mem_cons_of_mem a hb)
    rw [forall_mem_cons]
    cases hp : p a with
    | true =>
      rw [filterMap_cons_some (hf a mem_cons_self hp), filter_cons_of_pos hp, filter_cons_of_pos hp, cons_inj_right,
        ih hl]
      exact ⟨fun h => ⟨fun hfalse => absurd hfalse (by simp), h⟩, fun h => h.2⟩
    | false =>
      rw [filter_cons_of_neg (Bool.not_eq_true _ ▸ hp)]
      cases ha : f a with
      | none =>
        rw [filterMap_cons_none ha, ih hl]
        exact ⟨fun h => ⟨fun _ b hb => absurd hb (by simp), h⟩, fun h => h.2⟩
      | some b =>
        rw [filterMap_cons_some ha]
        cases hb : p b with
        | true =>
          rw [filter_cons_of_pos hb]
          constructor
          · intro h
            have hlength := congrArg length h
            have hle := (filter_sublist_filterMap hl).length_le
            rw [length_cons] at hlength
            omega
          · intro h
            rw [h.1 rfl b rfl] at hb
            cases hb
        | false =>
          rw [filter_cons_of_neg (Bool.not_eq_true _ ▸ hb), ih hl]
          refine ⟨fun h => ⟨fun _ c hc => ?_, h⟩, fun h => h.2⟩
          rwa [← Option.some.inj hc]

/-- Two filters, one of which lets more pass, are the same once as many pass both. -/
theorem map_filter_eq_map_filter_iff {β : Type*} {q : α → Bool} {g : α → β} (hpq : ∀ a ∈ l, p a = true → q a = true) :
    (l.filter p).map g = (l.filter q).map g ↔ ∀ a ∈ l, q a = true → p a = true := by
  constructor
  · intro heq
    have hboth : (l.filter q).filter p = l.filter p := by
      rw [filter_filter]
      refine filter_congr fun a ha => ?_
      cases hp : p a with
      | true => rw [hpq a ha hp, Bool.and_true]
      | false => rw [Bool.false_and]
    have hlength : ((l.filter q).filter p).length = (l.filter q).length := by
      rw [hboth, ← length_map g, heq, length_map]
    intro a ha hq
    exact length_filter_eq_length_iff.1 hlength a (mem_filter.2 ⟨ha, hq⟩)
  · intro hqp
    congr 1
    refine filter_congr fun a ha => ?_
    rw [Bool.eq_iff_iff]
    exact ⟨hpq a ha, hqp a ha⟩

/-- A filter that lets more pass has the larger sum. -/
theorem sum_map_filter_le {q : α → Bool} {g : α → Int} (hpq : ∀ a ∈ l, p a = true → q a = true)
    (hg : ∀ a ∈ l, q a = true → 0 ≤ g a) : ((l.filter p).map g).sum ≤ ((l.filter q).map g).sum := by
  induction l with
  | nil => exact Int.le_refl 0
  | cons a l ih =>
    have hrest := ih (fun b hb => hpq b (mem_cons_of_mem a hb)) fun b hb => hg b (mem_cons_of_mem a hb)
    cases hq : q a with
    | true =>
      have ha := hg a mem_cons_self hq
      rw [filter_cons_of_pos hq]
      cases hp : p a with
      | true =>
        rw [filter_cons_of_pos hp, map_cons, map_cons, sum_cons, sum_cons]
        omega
      | false =>
        rw [filter_cons_of_neg (Bool.not_eq_true _ ▸ hp), map_cons, sum_cons]
        omega
    | false =>
      have hp : ¬p a = true := fun hp => Bool.noConfusion (hq.symm.trans (hpq a mem_cons_self hp))
      rw [filter_cons_of_neg hp, filter_cons_of_neg (Bool.not_eq_true _ ▸ hq)]
      exact hrest

/-! ## Partial maps -/

variable {β : Type*}

theorem isSome_mapM (f : α → Option β) (l : List α) : (l.mapM f).isSome = true ↔ ∀ x ∈ l, (f x).isSome = true := by
  induction l with
  | nil => simp
  | cons a l ih =>
    rw [mapM_cons, forall_mem_cons, ← ih]
    cases f a with
    | none => simp
    | some b => cases l.mapM f <;> simp

theorem mapM_eq_some_map {f : α → Option β} {g : α → β} (h : ∀ x ∈ l, f x = some (g x)) : l.mapM f = some (l.map g) := by
  induction l with
  | nil => rfl
  | cons a l ih =>
    rw [mapM_cons, h a mem_cons_self, ih fun x hx => h x (mem_cons_of_mem _ hx)]
    rfl

theorem mapM_congr {f g : α → Option β} (h : ∀ x ∈ l, f x = g x) : l.mapM f = l.mapM g := by
  induction l with
  | nil => rfl
  | cons a l ih => rw [mapM_cons, mapM_cons, h a mem_cons_self, ih fun x hx => h x (mem_cons_of_mem _ hx)]

/-- A partial map that leaves entries out, and what is made of the others. -/
theorem isSome_bind_filterMap {γ : Type*} {e : α → Option (Option β)} {g : List β → Option γ} {P : β → Prop}
    (hg : ∀ bs, (g bs).isSome = true ↔ ∀ b ∈ bs, P b) (l : List α) :
    (((l.mapM e).map (·.filterMap id)).bind g).isSome = true ↔ ∀ a ∈ l, ∃ r, e a = some r ∧ ∀ b ∈ r, P b := by
  have hbind : ∀ x : Option (List (Option β)), ((x.map (·.filterMap id)).bind g).isSome = true ↔
      ∃ rs, x = some rs ∧ ∀ b, some b ∈ rs → P b := by
    intro x
    cases x with
    | none => simp
    | some rs => simp [hg]
  rw [hbind]
  induction l with
  | nil => simp
  | cons a l ih =>
    rw [mapM_cons, forall_mem_cons]
    refine Iff.trans ?_ (and_congr Iff.rfl ih)
    cases e a with
    | none => simp
    | some r => cases l.mapM e <;> simp [eq_comm, or_imp, forall_and]

end List

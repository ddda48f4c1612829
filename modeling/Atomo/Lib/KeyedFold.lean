import Mathlib.Data.List.Perm.Basic
import Mathlib.Data.List.Nodup
import Mathlib.Logic.Function.Basic

/-!
# Folds by key

A list of events, each of which changes the state at its own key. What they make of a key are the events of that key
alone, so that lists which agree on the order of each key make the same (`run_of_perm`).
-/

namespace KeyedFold

variable {E K S : Type} [DecidableEq K] (key : E → K) (act : E → S → S)

/-- The states after some events. -/
def run (states : K → S) (events : List E) : K → S :=
  events.foldl (fun states e => Function.update states (key e) (act e (states (key e)))) states

/-- The events of a key. -/
def ofKey (k : K) (events : List E) : List E :=
  events.filter (key · = k)

variable {key act} {states : K → S} {events events' : List E} {k : K}

theorem run_append : run key act states (events ++ events') = run key act (run key act states events) events' :=
  List.foldl_append

theorem run_apply : run key act states events k = (ofKey key k events).foldl (fun s e => act e s) (states k) := by
  induction events generalizing states with
  | nil => rfl
  | cons e events ih =>
    have hstep : run key act states (e :: events) =
        run key act (Function.update states (key e) (act e (states (key e)))) events := rfl
    rw [hstep, ih]
    unfold ofKey
    by_cases hkey : key e = k
    · subst hkey
      simp
    · have hother : k ≠ key e := fun h => hkey h.symm
      simp [hkey, hother]

/-- Without an event of its own, a key keeps its state. -/
theorem run_of_forall_ne (h : ∀ e ∈ events, key e ≠ k) : run key act states events k = states k := by
  have hnone : ofKey key k events = [] := by
    apply List.filter_eq_nil_iff.2
    intro e he
    simpa using h e he
  rw [run_apply, hnone, List.foldl_nil]

/-- Where events have keys of their own, each key meets its event alone. -/
theorem run_of_nodup {e : E} (hnodup : (events.map key).Nodup) (he : e ∈ events) :
    run key act states events (key e) = act e (states (key e)) := by
  have hone : ofKey key (key e) events = [e] := by
    obtain ⟨before, after, rfl⟩ := List.append_of_mem he
    rw [List.map_append, List.map_cons, List.nodup_append, List.nodup_cons] at hnodup
    obtain ⟨-, ⟨hafter, -⟩, hbefore⟩ := hnodup
    unfold ofKey
    rw [List.filter_append, List.filter_cons_of_pos (by simp)]
    have hleft : before.filter (key · = key e) = [] := by
      apply List.filter_eq_nil_iff.2
      intro other hother
      simpa using hbefore (key other) (List.mem_map_of_mem hother) (key e) List.mem_cons_self
    have hright : after.filter (key · = key e) = [] := by
      apply List.filter_eq_nil_iff.2
      intro other hother
      have hne : key other ≠ key e := fun h => hafter (List.mem_map.2 ⟨other, hother, h⟩)
      simpa using hne
    rw [hleft, hright]
    rfl
  rw [run_apply, hone]
  rfl

/-- Permutations of each other are the same list when one is sorted and the other strictly so. -/
theorem eq_of_sorted {le : E → E → Prop} (hperm : events.Perm events') (hsorted : events.Pairwise le)
    (hstrict : events'.Pairwise fun a b => ¬le b a) : events = events' := by
  induction events' generalizing events with
  | nil => exact hperm.eq_nil
  | cons b rest ih =>
    cases events with
    | nil => exact absurd hperm.symm.eq_nil (List.cons_ne_nil b rest)
    | cons a others =>
      obtain ⟨ha, hothers⟩ := List.pairwise_cons.1 hsorted
      obtain ⟨hb, hrest⟩ := List.pairwise_cons.1 hstrict
      have heq : a = b := by
        rcases List.mem_cons.1 (hperm.subset List.mem_cons_self) with heq | hlater
        · exact heq
        · rcases List.mem_cons.1 (hperm.symm.subset List.mem_cons_self) with heq | hearlier
          · exact heq.symm
          · exact absurd (ha b hearlier) (hb a hlater)
      subst heq
      rw [ih hperm.cons_inv hothers hrest]

/-- A sorted list makes the same states as a permutation in which the events of each key are strictly sorted. -/
theorem run_of_perm (le : E → E → Prop) (hperm : events.Perm events') (hsorted : events.Pairwise le)
    (hstrict : events'.Pairwise fun a b => key a = key b → ¬le b a) :
    run key act states events = run key act states events' := by
  funext k
  have heq : ofKey key k events = ofKey key k events' := by
    apply eq_of_sorted (hperm.filter _) (hsorted.filter _)
    refine List.Pairwise.imp_of_mem (fun ha hb h => h ?_) (hstrict.filter _)
    rw [of_decide_eq_true (List.mem_filter.1 ha).2, of_decide_eq_true (List.mem_filter.1 hb).2]
  rw [run_apply, run_apply, heq]

end KeyedFold

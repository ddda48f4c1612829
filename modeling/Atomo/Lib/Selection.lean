import Mathlib.Data.List.Sort
import Mathlib.Data.List.Perm.Subperm

/-!
# The first entries of a list

What `take` has left of a list when entries behind it are filtered out, or when the list is sorted anew.
-/

namespace List

variable {α β : Type*}

/-- Entries that are filtered out behind the first ones are not missed. -/
theorem take_filter_of_forall {p : α → Bool} {l : List α} {n : Nat} (h : ∀ a ∈ l.take n, p a = true) :
    (l.filter p).take n = l.take n := by
  induction l generalizing n with
  | nil => rfl
  | cons a l ih =>
    cases n with
    | zero => rfl
    | succ n =>
      rw [take_succ_cons] at h ⊢
      rw [filter_cons_of_pos (h a mem_cons_self), take_succ_cons, ih fun b hb => h b (mem_cons_of_mem a hb)]

/-- Each of the first `n` entries comes strictly before all that are behind it. -/
def FirstPrecede [LT β] (key : α → β) : Nat → List α → Prop
  | 0, _ => True
  | _, [] => True
  | n + 1, a :: l => (∀ b ∈ l, key a < key b) ∧ FirstPrecede key n l

/-- Then they are the first ones however the list is sorted. -/
theorem FirstPrecede.take_eq [LinearOrder β] {key : α → β} {n : Nat} {l sorted : List α} (h : FirstPrecede key n l)
    (hperm : sorted.Perm l) (hsorted : sorted.Pairwise fun a b => key a ≤ key b) : sorted.take n = l.take n := by
  induction n generalizing l sorted with
  | zero => rfl
  | succ n ih =>
    cases l with
    | nil => rw [hperm.eq_nil]
    | cons a l =>
      obtain ⟨hbefore, hrest⟩ := h
      cases sorted with
      | nil => cases hperm.symm.eq_nil
      | cons b sorted =>
        obtain ⟨hle, hsorted'⟩ := pairwise_cons.1 hsorted
        have hsame : a = b := by
          rcases mem_cons.1 (hperm.mem_iff.2 mem_cons_self) with rfl | hin
          · rfl
          · rcases mem_cons.1 (hperm.mem_iff.1 mem_cons_self) with rfl | hin'
            · rfl
            · exact absurd (hle a hin) (not_le_of_gt (hbefore b hin'))
        subst hsame
        rw [take_succ_cons, take_succ_cons, ih hrest hperm.cons_inv hsorted']

theorem FirstPrecede.of_pairwise [LT β] {key : α → β} {l : List α} (h : l.Pairwise fun a b => key a < key b) (n : Nat) :
    FirstPrecede key n l := by
  induction l generalizing n with
  | nil => cases n <;> trivial
  | cons a l ih =>
    cases n with
    | zero => trivial
    | succ n =>
      obtain ⟨hbefore, hrest⟩ := pairwise_cons.1 h
      exact ⟨hbefore, ih hrest n⟩

/-- A sublist of a list without duplicates has the entries of the list that are in it. -/
theorem Sublist.filter_mem_eq [DecidableEq α] {l m : List α} (h : l.Sublist m) (hm : m.Nodup) :
    m.filter (· ∈ l) = l := by
  have hsub : l.Sublist (m.filter (· ∈ l)) := by
    have hown : l.filter (· ∈ l) = l := filter_eq_self.2 fun a ha => decide_eq_true ha
    have hfilter := h.filter (· ∈ l)
    rwa [hown] at hfilter
  have hle : (m.filter (· ∈ l)).length ≤ l.length := by
    apply (subperm_of_subset (hm.filter _) _).length_le
    intro a ha
    exact of_decide_eq_true (mem_filter.1 ha).2
  exact (hsub.eq_of_length_le hle).symm

/-- Two such sublists with the same entries are the same. -/
theorem Sublist.eq_of_mem_iff [DecidableEq α] {l l' m : List α} (h : l.Sublist m) (h' : l'.Sublist m) (hm : m.Nodup)
    (hmem : ∀ a, a ∈ l ↔ a ∈ l') : l = l' := by
  rw [← h.filter_mem_eq hm, ← h'.filter_mem_eq hm]
  apply filter_congr
  intro a _
  simp only [hmem]

/-- A list that is sorted strictly is not changed by sorting. -/
theorem eq_of_perm_of_pairwise [LinearOrder β] {key : α → β} {l sorted : List α}
    (h : l.Pairwise fun a b => key a < key b) (hperm : sorted.Perm l)
    (hsorted : sorted.Pairwise fun a b => key a ≤ key b) : sorted = l := by
  have htake := (FirstPrecede.of_pairwise h l.length).take_eq hperm hsorted
  rwa [take_length, take_of_length_le hperm.length_eq.le] at htake

end List

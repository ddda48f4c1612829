import Mathlib.Data.List.AList

/-!
# Sizes of association lists

How `insert` and `erase` change the number of entries of an `AList`, and which entries an `erase` leaves.
-/

namespace AList

variable {α : Type*} {β : α → Type*} [DecidableEq α] {a : α} {b : β a} {s : AList β}

omit [DecidableEq α] in
theorem length_keys (s : AList β) : s.keys.length = s.entries.length :=
  List.length_map _

theorem length_erase_of_mem (h : a ∈ s) :
    (s.erase a).entries.length + 1 = s.entries.length := by
  have hpos : 0 < s.keys.length := List.length_pos_of_mem h
  rw [← length_keys, ← length_keys, keys_erase, List.length_erase_of_mem h]
  omega

theorem length_erase_le : (s.erase a).entries.length ≤ s.entries.length := by
  rw [← length_keys, ← length_keys, keys_erase]
  exact List.length_erase_le

theorem length_insert_of_mem (h : a ∈ s) :
    (s.insert a b).entries.length = s.entries.length := by
  have hpos : 0 < s.keys.length := List.length_pos_of_mem h
  rw [← length_keys, ← length_keys, keys_insert, List.length_cons, List.length_erase_of_mem h]
  omega

theorem length_insert_of_not_mem (h : a ∉ s) :
    (s.insert a b).entries.length = s.entries.length + 1 := by
  rw [entries_insert_of_notMem h, List.length_cons]

/-- The entry of a key, and the others. -/
theorem perm_cons_erase (h : s.lookup a = some b) : s.entries.Perm (⟨a, b⟩ :: (s.erase a).entries) := by
  obtain ⟨b', l₁, l₂, hnot, heq, herase⟩ := List.exists_of_kerase (lookup_isSome.1 (by rw [h]; rfl) : a ∈ s.keys)
  have hb : b' = b := by
    have hmem : (⟨a, b'⟩ : Sigma β) ∈ s.entries := heq ▸ List.mem_append_right _ List.mem_cons_self
    exact Option.some.inj ((mem_lookup_iff.2 hmem).symm.trans h)
  change s.entries.Perm (⟨a, b⟩ :: List.kerase a s.entries)
  rw [herase, heq, hb]
  exact List.perm_middle

theorem erase_of_lookup_none (h : s.lookup a = none) : s.erase a = s :=
  ext (List.kerase_of_notMem_keys (lookup_eq_none.1 h))

end AList

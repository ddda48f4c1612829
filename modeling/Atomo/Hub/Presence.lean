import Mathlib.Data.List.AList
import Mathlib.Data.List.Dedup
import Mathlib.Data.List.Sort

/-!
# Presence

`Presence` of `presence.rs`: who is in which channel. Nothing in the hub looks into the map except
through `join`, `leave`, `subscribers` and `snapshot`; `Mem` is the membership they agree on.
-/

namespace Atomo.Hub

/-- `ClientId`, a `u64` that is never reused. -/
abbrev ClientId := Nat

/-- `Presence`: channel to client to principal id. -/
structure Presence where
  channels : AList fun _ : String => AList fun _ : ClientId => String

namespace Presence

def empty : Presence :=
  ⟨∅⟩

/-- `channels.get(channel)`, the empty map where there is none. -/
def members (p : Presence) (channel : String) : AList fun _ : ClientId => String :=
  (p.channels.lookup channel).getD ∅

/-- `join`: whether this is a new membership, and the map after it. -/
def join (p : Presence) (channel : String) (client : ClientId) (principalId : String) :
    Bool × Presence :=
  let members := p.members channel
  ((members.lookup client).isNone,
    ⟨p.channels.insert channel (members.insert client principalId)⟩)

/-- `leave`: whether the client had been a member, and the map after it. -/
def leave (p : Presence) (channel : String) (client : ClientId) : Bool × Presence :=
  match p.channels.lookup channel with
  | none => (false, p)
  | some members =>
    let rest := members.erase client
    ((members.lookup client).isSome,
      if rest.entries.isEmpty then ⟨p.channels.erase channel⟩
      else ⟨p.channels.insert channel rest⟩)

/-- The clients of a channel, in the order of the map. -/
def subscribers (p : Presence) (channel : String) : List ClientId :=
  (p.members channel).keys

/-- `snapshot`: the principal ids of a channel, sorted and without duplicates. -/
def snapshot (p : Presence) (channel : String) : List String :=
  (((p.members channel).entries.map (·.2)).dedup).insertionSort (· ≤ ·)

/-- `channel_count`. -/
def channelCount (p : Presence) : Nat :=
  p.channels.entries.length

/-- The client is in the channel. -/
def Mem (p : Presence) (channel : String) (client : ClientId) : Prop :=
  client ∈ p.members channel

/-- Every channel in the map has a member. -/
def NoEmpty (p : Presence) : Prop :=
  ∀ channel members, p.channels.lookup channel = some members → ∃ client, client ∈ members

variable {p : Presence} {channel x : String} {client c : ClientId}

theorem not_mem_empty : ¬ Mem empty channel client := by
  simp [Mem, members, empty]

theorem mem_join {principalId : String} :
    (p.join channel client principalId).2.Mem x c ↔ p.Mem x c ∨ x = channel ∧ c = client := by
  unfold Mem members join
  by_cases hx : x = channel
  · subst hx
    simp only [AList.lookup_insert, Option.getD_some, AList.mem_insert, members, true_and]
    exact or_comm
  · simp only [AList.lookup_insert_ne hx, hx, false_and, or_false]

theorem join_fst {principalId : String} :
    (p.join channel client principalId).1 = true ↔ ¬ p.Mem channel client := by
  unfold join Mem
  rw [Option.isNone_iff_eq_none, AList.lookup_eq_none]

theorem noEmpty_join {principalId : String} (h : p.NoEmpty) :
    (p.join channel client principalId).2.NoEmpty := by
  intro x ms hms
  by_cases hx : x = channel
  · subst hx
    simp only [join, AList.lookup_insert, Option.some.injEq] at hms
    subst hms
    exact ⟨client, by simp⟩
  · simp only [join, AList.lookup_insert_ne hx] at hms
    exact h x ms hms

theorem mem_leave :
    (p.leave channel client).2.Mem x c ↔ p.Mem x c ∧ ¬ (x = channel ∧ c = client) := by
  unfold leave
  split
  · next hnone =>
    refine ⟨fun h => ⟨h, ?_⟩, fun h => h.1⟩
    rintro ⟨rfl, rfl⟩
    simp [Mem, members, hnone] at h
  · next ms hms =>
    by_cases hx : x = channel
    · subst hx
      have hmem : p.Mem x c ↔ c ∈ ms := by simp [Mem, members, hms]
      have hrest : ∀ q : Presence, q.members x = ms.erase client →
          (q.Mem x c ↔ c ∈ ms ∧ ¬ c = client) := by
        intro q hq
        rw [Mem, hq, AList.mem_erase]
        exact and_comm
      simp only [true_and, hmem]
      split
      · next hempty =>
        refine hrest _ ?_
        have : ms.erase client = ∅ := AList.ext (List.isEmpty_iff.1 hempty)
        simp [members, this]
      · exact hrest _ (by simp [members])
    · have hother : ∀ q : Presence, q.members x = p.members x →
          (q.Mem x c ↔ p.Mem x c ∧ ¬ (x = channel ∧ c = client)) := by
        intro q hq
        simp [Mem, hq, hx]
      simp only
      split
      · exact hother _ (by simp [members, AList.lookup_erase_ne hx])
      · exact hother _ (by simp [members, AList.lookup_insert_ne hx])

theorem leave_fst : (p.leave channel client).1 = true ↔ p.Mem channel client := by
  unfold leave
  split
  · next hnone => simp [Mem, members, hnone]
  · next ms hms => simp [Mem, members, hms, AList.lookup_isSome]

theorem noEmpty_leave (h : p.NoEmpty) : (p.leave channel client).2.NoEmpty := by
  unfold leave
  split
  · exact h
  · next ms hms =>
    intro x ms' hms'
    simp only at hms'
    by_cases hx : x = channel
    · subst hx
      split at hms'
      · simp at hms'
      · next hne =>
        simp only [AList.lookup_insert, Option.some.injEq] at hms'
        subst hms'
        obtain ⟨e, rest, he⟩ := List.exists_cons_of_ne_nil (mt List.isEmpty_iff.2 hne)
        refine ⟨e.1, ?_⟩
        rw [AList.mem_keys, AList.keys, he]
        simp
    · refine h x ms' ?_
      split at hms'
      · simpa only [AList.lookup_erase_ne hx] using hms'
      · simpa only [AList.lookup_insert_ne hx] using hms'

end Presence

end Atomo.Hub

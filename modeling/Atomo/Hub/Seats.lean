import Atomo.Hub.Sessions
import Mathlib.Data.List.Range

/-!
# The seats of a session

The representation of `Sessions` over every sequence of joins and leaves, with an observer that notes the memberships
of a session as they begin. Slots are given in that order and none is given twice, so the next in join order is the
member who has been in the session longest, and a re-election finds it.
-/

namespace Atomo.Hub

/-! ## The representation -/

/-- All of the representation but the coordinator, which a leave writes last. -/
structure Session.Seated (s : Session) : Prop where
  clientId_eq : ∀ c m, s.members.lookup c = some m → m.clientId = c
  nodup : s.order.Nodup
  mem_order : ∀ c, c ∈ s.order ↔ c ∈ s.members
  slots : s.order.Pairwise fun c c' =>
    ∀ m m', s.members.lookup c = some m → s.members.lookup c' = some m' → m.slot < m'.slot
  below : ∀ c m, s.members.lookup c = some m → m.slot < s.nextSlot

/-- What is true of every stored session. -/
structure Session.Represented (s : Session) : Prop extends Session.Seated s where
  inhabited : ∃ c, c ∈ s.members
  coordinator : s.order.head? = some s.coordinator

section Session

variable {s : Session} {c : ClientId} {m : SessionMember}

/-- A list whose first element is the coordinator has a member. -/
theorem Session.Seated.represented (h : s.Seated) (hcoord : s.order.head? = some s.coordinator) : s.Represented where
  toSeated := h
  inhabited := ⟨s.coordinator, (h.mem_order _).1 (List.mem_of_head? hcoord)⟩
  coordinator := hcoord

theorem Session.Represented.wf (h : s.Represented) : s.WF where
  clientId_eq := h.clientId_eq
  mem_order := h.mem_order
  coordinator_mem := (h.mem_order _).1 (List.mem_of_head? h.coordinator)

theorem seated_newSession (c : ClientId) : (Sessions.newSession c).Seated where
  clientId_eq _ _ hm := by simp [Sessions.newSession] at hm
  nodup := List.nodup_nil
  mem_order := by simp [Sessions.newSession]
  slots := List.Pairwise.nil
  below _ _ hm := by simp [Sessions.newSession] at hm

/-- A new member takes the next slot, behind all others. -/
theorem Session.Seated.enroll (h : s.Seated) (hc : s.members.lookup c = none) (principalId : String) :
    (s.enroll c principalId).Seated := by
  have hnew : c ∉ s.order := fun hmem => AList.lookup_eq_none.1 hc ((h.mem_order c).1 hmem)
  have hold : ∀ c' ∈ s.order, (s.enroll c principalId).members.lookup c' = s.members.lookup c' := by
    intro c' hc'
    rw [enroll_lookup, if_neg fun heq : c' = c => hnew (heq ▸ hc')]
  refine ⟨fun c' m hm => ?_, ?_, fun c' => ?_, ?_, fun c' m hm => ?_⟩
  · rw [enroll_lookup] at hm
    split at hm
    · next heq => rw [← Option.some.inj hm, heq]
    · exact h.clientId_eq c' m hm
  · refine List.nodup_append.2 ⟨h.nodup, List.nodup_singleton c, ?_⟩
    intro a ha b hb heq
    rw [List.mem_singleton.1 hb] at heq
    exact hnew (heq ▸ ha)
  · simp only [Session.enroll, List.mem_append, List.mem_singleton, AList.mem_insert, h.mem_order c']
    exact or_comm
  · refine List.pairwise_append.2 ⟨?_, List.pairwise_singleton _ _, fun c' hc' c'' hc'' m m'' hm hm'' => ?_⟩
    · refine h.slots.imp_of_mem fun hc₁ hc₂ hlt m₁ m₂ hm₁ hm₂ => ?_
      rw [hold _ hc₁] at hm₁
      rw [hold _ hc₂] at hm₂
      exact hlt m₁ m₂ hm₁ hm₂
    · rw [hold c' hc'] at hm
      rw [List.mem_singleton.1 hc'', enroll_lookup, if_pos rfl] at hm''
      rw [← Option.some.inj hm'']
      exact h.below c' m hm
  · change m.slot < s.nextSlot + 1
    rw [enroll_lookup] at hm
    split at hm
    · rw [← Option.some.inj hm]
      exact Nat.lt_succ_self _
    · exact Nat.lt_succ_of_lt (h.below c' m hm)

theorem Session.Seated.remove (h : s.Seated) (c : ClientId) : (s.remove c).Seated := by
  have hlookup : ∀ {c' m}, (s.remove c).members.lookup c' = some m → s.members.lookup c' = some m := by
    intro c' m hm
    rw [remove_lookup] at hm
    split at hm
    · cases hm
    · exact hm
  refine ⟨fun c' m hm => h.clientId_eq c' m (hlookup hm), h.nodup.filter _, fun c' => ?_, ?_,
    fun c' m hm => h.below c' m (hlookup hm)⟩
  · rw [mem_remove, ← h.mem_order c']
    simp [Session.remove, and_comm]
  · exact (h.slots.filter _).imp fun hlt m₁ m₂ hm₁ hm₂ => hlt m₁ m₂ (hlookup hm₁) (hlookup hm₂)

/-- The first in join order has the least slot. -/
theorem Session.Seated.slot_of_head (h : s.Seated) {newId : ClientId} {rest : List ClientId}
    (horder : s.order = newId :: rest) {b : SessionMember} (hb : s.members.lookup newId = some b)
    (hm : s.members.lookup c = some m) (hne : m ≠ b) : b.slot < m.slot := by
  have hc : c ∈ newId :: rest := horder ▸ (h.mem_order c).2 (AList.lookup_isSome.1 (by rw [hm]; rfl))
  have hslots := h.slots
  rw [horder] at hslots
  rcases List.mem_cons.1 hc with rfl | hc
  · exact absurd (Option.some.inj (hm.symm.trans hb)) hne
  · exact List.rel_of_pairwise_cons hslots hc b m hb hm

end Session

/-! ## The observer -/

inductive SessionCall where
  | join (name : String) (client : ClientId) (principalId : String)
  | leave (name : String) (client : ClientId) (policy : CoordinatorLeavePolicy)

/-- The sessions, and of each one the memberships that have begun since it was created, with their slots. -/
structure SessionLog where
  sessions : Sessions
  begun : String → List (ClientId × Nat)

namespace SessionLog

def empty : SessionLog :=
  ⟨Sessions.empty, fun _ => []⟩

/-- What the observer notes of a call. -/
def call (r : SessionLog) : SessionCall → SessionLog
  | .join name client principalId =>
    let (outcome, sessions) := r.sessions.join name client principalId
    { sessions
      begun := if r.sessions.member name client = none then
          Function.update r.begun name (r.begun name ++ [(client, outcome.slot)])
        else r.begun }
  | .leave name client policy =>
    match r.sessions.leave name client policy with
    | (none, sessions) => { r with sessions }
    | (some outcome, sessions) =>
      { sessions
        begun := if outcome.removed then Function.update r.begun name [] else r.begun }

/-- After a sequence of calls. -/
def run (calls : List SessionCall) : SessionLog :=
  calls.foldl call empty

/-- The memberships of a stored session: their slots are all that it has given, in this order. -/
structure Noted (begun : List (ClientId × Nat)) (s : Session) : Prop where
  slots : begun.map (·.2) = List.range s.nextSlot
  members : ∀ c m, s.members.lookup c = some m → (c, m.slot) ∈ begun

/-- The invariant. -/
def Sound (r : SessionLog) : Prop :=
  ∀ name, match r.sessions.map.lookup name with
    | none => r.begun name = []
    | some s => s.Represented ∧ Noted (r.begun name) s

section Calls

variable {r : SessionLog}

theorem Sound.wf (h : r.Sound) : r.sessions.WF := by
  intro name s hs
  have hname := h name
  rw [hs] at hname
  exact hname.1.wf

/-- What a call leaves alone. -/
theorem Sound.of_other (h : r.Sound) (name : String) {sessions : Sessions} {begun : String → List (ClientId × Nat)}
    (hother : ∀ x, x ≠ name → sessions.map.lookup x = r.sessions.map.lookup x ∧ begun x = r.begun x)
    (hname : match sessions.map.lookup name with
      | none => begun name = []
      | some s => s.Represented ∧ Noted (begun name) s) : Sound ⟨sessions, begun⟩ := by
  intro x
  by_cases hx : x = name
  · rw [hx]
    exact hname
  · dsimp only
    rw [(hother x hx).1, (hother x hx).2]
    exact h x

/-- The session that a join works on. -/
theorem Sound.joined (h : r.Sound) (name : String) (c : ClientId) {s : Session}
    (hs : (r.sessions.map.lookup name).getD (Sessions.newSession c) = s) :
    s.Seated ∧ Noted (r.begun name) s ∧ (∀ c', r.sessions.member name c' = s.members.lookup c') ∧
      (s.Represented ∨ s.order = [] ∧ s.coordinator = c) := by
  have hname := h name
  cases hlookup : r.sessions.map.lookup name with
  | none =>
    rw [hlookup] at hs hname
    obtain rfl : Sessions.newSession c = s := hs
    have hnil : r.begun name = [] := hname
    refine ⟨seated_newSession c, ⟨by rw [hnil]; rfl, fun c' m hm => ?_⟩, fun c' => ?_, .inr ⟨rfl, rfl⟩⟩
    · simp [Sessions.newSession] at hm
    · simp [Sessions.member, hlookup, Sessions.newSession]
  | some s' =>
    rw [hlookup] at hs hname
    obtain rfl : s' = s := hs
    exact ⟨hname.1.toSeated, hname.2, member_of_lookup hlookup, .inl hname.1⟩

theorem Noted.enroll {begun : List (ClientId × Nat)} {s : Session} (h : Noted begun s) (c : ClientId)
    (principalId : String) :
    Noted (begun ++ [(c, s.nextSlot)]) (s.enroll c principalId) where
  slots := by
    rw [List.map_append, h.slots]
    exact (List.range_succ).symm
  members c' m hm := by
    rw [enroll_lookup] at hm
    split at hm
    · next heq =>
      rw [← Option.some.inj hm, heq]
      exact List.mem_append_right _ List.mem_cons_self
    · exact List.mem_append_left _ (h.members c' m hm)

theorem Noted.remove {begun : List (ClientId × Nat)} {s : Session} (h : Noted begun s) (c : ClientId) :
    Noted begun (s.remove c) where
  slots := h.slots
  members c' m hm := by
    rw [remove_lookup] at hm
    split at hm
    · cases hm
    · exact h.members c' m hm

theorem Sound.join (h : r.Sound) (name : String) (c : ClientId) (principalId : String) :
    (r.call (.join name c principalId)).Sound := by
  have hother : ∀ s, ∀ x, x ≠ name → (r.sessions.map.insert name s).lookup x = r.sessions.map.lookup x :=
    fun s x hx => AList.lookup_insert_ne hx
  unfold call Sessions.join
  simp only
  generalize hs : (r.sessions.map.lookup name).getD (Sessions.newSession c) = s
  obtain ⟨hseated, hnoted, hmember, hcoord⟩ := h.joined name c hs
  cases hm : s.members.lookup c with
  | some m =>
    have hrep : s.Represented := by
      refine hcoord.resolve_right fun hnil => ?_
      have hmem := (hseated.mem_order c).2 (AList.lookup_isSome.1 (by rw [hm]; rfl))
      rw [hnil.1] at hmem
      exact absurd hmem List.not_mem_nil
    have hne : r.sessions.member name c ≠ none := by
      rw [hmember, hm]
      exact Option.some_ne_none m
    refine h.of_other name (fun x hx => ⟨hother s x hx, by rw [if_neg hne]⟩) ?_
    dsimp only
    rw [AList.lookup_insert, if_neg hne]
    exact ⟨hrep, hnoted⟩
  | none =>
    have hnone : r.sessions.member name c = none := by rw [hmember, hm]
    refine h.of_other name (fun x hx => ⟨hother _ x hx, ?_⟩) ?_
    · rw [if_pos hnone, Function.update_of_ne hx]
    · dsimp only
      rw [AList.lookup_insert, if_pos hnone, Function.update_self]
      refine ⟨(hseated.enroll hm principalId).represented ?_, hnoted.enroll c principalId⟩
      change (s.order ++ [c]).head? = some s.coordinator
      rcases hcoord with hrep | ⟨hnil, hself⟩
      · rw [List.head?_append, hrep.coordinator]
        rfl
      · rw [hnil, hself]
        rfl

theorem Sound.leave (h : r.Sound) (name : String) (c : ClientId) (policy : CoordinatorLeavePolicy) :
    (r.call (.leave name c policy)).Sound := by
  unfold call
  simp only
  rcases leave_cases h.wf name c policy with ⟨heq, -⟩ | ⟨s, m, hs, hm, hleave⟩
  · rw [heq]
    exact h
  have hname := h name
  rw [hs] at hname
  obtain ⟨hrep, hnoted⟩ := hname
  have hremoved : ∀ x, x ≠ name → (r.sessions.map.erase name).lookup x = r.sessions.map.lookup x ∧
      Function.update r.begun name [] x = r.begun x :=
    fun x hx => ⟨AList.lookup_erase_ne hx, Function.update_of_ne hx _ _⟩
  have hkept : ∀ s', ∀ x, x ≠ name → (r.sessions.map.insert name s').lookup x = r.sessions.map.lookup x ∧
      r.begun x = r.begun x :=
    fun s' x hx => ⟨AList.lookup_insert_ne hx, rfl⟩
  rcases hleave with ⟨-, heq⟩ | ⟨hne, heq⟩ | ⟨-, -, heq⟩ | ⟨-, -, newId, rest, b, horder, -, heq⟩
  · rw [heq]
    refine h.of_other name hremoved ?_
    dsimp only
    rw [AList.lookup_erase, if_pos rfl, Function.update_self]
  · rw [heq]
    refine h.of_other name (hkept _) ?_
    dsimp only
    rw [AList.lookup_insert]
    refine ⟨(hrep.toSeated.remove c).represented ?_, hnoted.remove c⟩
    obtain ⟨rest, hcons⟩ := List.head?_eq_some_iff.1 hrep.coordinator
    change (s.order.filter (· ≠ c)).head? = some s.coordinator
    rw [hcons, List.filter_cons_of_pos (by simpa using hne)]
    rfl
  · rw [heq]
    refine h.of_other name hremoved ?_
    dsimp only
    rw [AList.lookup_erase, if_pos rfl, Function.update_self]
  · rw [heq]
    refine h.of_other name (hkept _) ?_
    dsimp only
    rw [AList.lookup_insert]
    have hseated : Session.Seated { s.remove c with coordinator := newId } := by
      obtain ⟨hid, hnodup, hmem, hslots, hbelow⟩ := hrep.toSeated.remove c
      exact ⟨hid, hnodup, hmem, hslots, hbelow⟩
    obtain ⟨hslots, hmembers⟩ := hnoted.remove c
    refine ⟨hseated.represented ?_, hslots, hmembers⟩
    change (s.remove c).order.head? = some newId
    rw [horder]
    rfl

/-- The invariant holds after every sequence of calls. -/
theorem sound_run (calls : List SessionCall) : (run calls).Sound := by
  unfold run
  have hempty : Sound empty := by
    intro name
    rfl
  generalize empty = r at hempty
  induction calls generalizing r with
  | nil => exact hempty
  | cons a calls ih =>
    refine ih _ ?_
    cases a with
    | join name c principalId => exact hempty.join name c principalId
    | leave name c policy => exact hempty.leave name c policy

end Calls

/-! ## What follows -/

/-- In a list of increasing values the lesser of two comes first. -/
theorem sublist_of_lt {α : Type} {f : α → Nat} {l : List α} (hl : (l.map f).Pairwise (· < ·)) {x y : α} (hx : x ∈ l)
    (hy : y ∈ l) (hlt : f x < f y) : [x, y].Sublist l := by
  induction l with
  | nil => exact absurd hx List.not_mem_nil
  | cons a l ih =>
    rw [List.map_cons, List.pairwise_cons] at hl
    rcases List.mem_cons.1 hx with rfl | hx'
    · rcases List.mem_cons.1 hy with rfl | hy'
      · exact absurd hlt (Nat.lt_irrefl _)
      · exact (List.singleton_sublist.2 hy').cons_cons x
    · rcases List.mem_cons.1 hy with rfl | hy'
      · have hless := hl.1 (f x) (List.mem_map_of_mem hx')
        omega
      · exact (ih hl.2 hx' hy').cons a

/-- After any sequence of calls every stored session is as represented, no slot has been given twice since it was
created, and a leave of a member never panics: where it elects, the new coordinator is the remaining member whose
membership began first. -/
theorem sessions_represented (calls : List SessionCall) :
    (∀ name s, (run calls).sessions.map.lookup name = some s → s.Represented) ∧
    (∀ name, (((run calls).begun name).map (·.2)).Nodup) ∧
    ∀ name c policy, (run calls).sessions.member name c ≠ none →
      ∃ o, ((run calls).sessions.leave name c policy).1 = some o ∧
        ∀ b, o.change = .reelected b → b ∈ o.remaining ∧ ∀ m ∈ o.remaining, m ≠ b →
          [(b.clientId, b.slot), (m.clientId, m.slot)].Sublist ((run calls).begun name) := by
  have hsound := sound_run calls
  refine ⟨fun name s hs => ?_, fun name => ?_, fun name c policy hmember => ?_⟩
  · have hname := hsound name
    rw [hs] at hname
    exact hname.1
  · have hname := hsound name
    cases hs : (run calls).sessions.map.lookup name with
    | none =>
      rw [hs] at hname
      have hnil : (run calls).begun name = [] := hname
      rw [hnil]
      exact List.nodup_nil
    | some s =>
      rw [hs] at hname
      rw [hname.2.slots]
      exact List.nodup_range
  · rcases leave_cases hsound.wf name c policy with ⟨-, hnone⟩ | ⟨s, m, hs, hm, hleave⟩
    · exact absurd hnone hmember
    have hname := hsound name
    rw [hs] at hname
    obtain ⟨hrep, hnoted⟩ := hname
    rcases hleave with ⟨-, heq⟩ | ⟨-, heq⟩ | ⟨-, -, heq⟩ | ⟨-, -, newId, rest, b, horder, hb, heq⟩
    · exact ⟨_, by rw [heq], fun b hb => by cases hb⟩
    · exact ⟨_, by rw [heq], fun b hb => by cases hb⟩
    · exact ⟨_, by rw [heq], fun b hb => by cases hb⟩
    · refine ⟨_, by rw [heq], fun b' hb' => ?_⟩
      cases hb'
      have hseated := hrep.toSeated.remove c
      have hbid := hseated.clientId_eq newId b hb
      have hnoted' := hnoted.remove c
      refine ⟨mem_roster.2 ⟨newId, hb⟩, fun m' hm' hne => ?_⟩
      obtain ⟨c', hc'⟩ := mem_roster.1 hm'
      have hlt := hseated.slot_of_head horder hb hc' hne
      have hsorted : (((run calls).begun name).map (·.2)).Pairwise (· < ·) := by
        rw [hnoted.slots]
        exact List.pairwise_lt_range
      rw [hbid, hseated.clientId_eq c' m' hc']
      exact sublist_of_lt hsorted (hnoted'.members newId b hb) (hnoted'.members c' m' hc') hlt

end SessionLog

end Atomo.Hub

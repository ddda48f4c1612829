import Atomo.Hub.Presence

/-!
# Coordinator sessions

`Sessions` of `sessions.rs`: rooms with one authoritative member. `join` and `leave` are described
once by what they do to the members and to the coordinator of every session; `WF` is what keeps the
two indexed accesses of a re-election from panicking.
-/

namespace Atomo.Hub

inductive CoordinatorLeavePolicy where
  | reelect
  | close
  deriving DecidableEq

structure SessionMember where
  clientId : ClientId
  principalId : String
  slot : Nat
  deriving DecidableEq

/-- `Session`: members in join order and by id, and the next slot. -/
structure Session where
  order : List ClientId
  members : AList fun _ : ClientId => SessionMember
  coordinator : ClientId
  nextSlot : Nat

/-- `Session::roster`: the members sorted by slot. -/
def Session.roster (s : Session) : List SessionMember :=
  (s.members.entries.map (·.2)).insertionSort fun m n => m.slot ≤ n.slot

/-- The part of `join` for a client that is not a member yet. -/
def Session.enroll (s : Session) (client : ClientId) (principalId : String) : Session :=
  { s with
    nextSlot := s.nextSlot + 1
    members := s.members.insert client ⟨client, principalId, s.nextSlot⟩
    order := s.order ++ [client] }

/-- The part of `leave` that removes the member. -/
def Session.remove (s : Session) (client : ClientId) : Session :=
  { s with
    members := s.members.erase client
    order := s.order.filter (· ≠ client) }

structure JoinOutcome where
  slot : Nat
  isCoordinator : Bool
  roster : List SessionMember

inductive CoordinatorChange where
  | none
  | reelected (newCoordinator : SessionMember)
  | closed

structure LeaveOutcome where
  member : SessionMember
  change : CoordinatorChange
  remaining : List SessionMember
  removed : Bool

/-- `Sessions`: all sessions of the hub, by name. -/
structure Sessions where
  map : AList fun _ : String => Session

namespace Sessions

def empty : Sessions :=
  ⟨∅⟩

/-- The session `or_insert_with` makes for its first joiner. -/
def newSession (client : ClientId) : Session where
  order := []
  members := ∅
  coordinator := client
  nextSlot := 0

/-- `join`: idempotent; the first joiner is the coordinator. -/
def join (ss : Sessions) (name : String) (client : ClientId) (principalId : String) :
    JoinOutcome × Sessions :=
  let session := (ss.map.lookup name).getD (newSession client)
  match session.members.lookup client with
  | some m => (⟨m.slot, session.coordinator = client, session.roster⟩,
      ⟨ss.map.insert name session⟩)
  | none =>
    let joined := session.enroll client principalId
    (⟨session.nextSlot, joined.coordinator = client, joined.roster⟩, ⟨ss.map.insert name joined⟩)

/-- `leave`: none if the client was not a member. -/
def leave (ss : Sessions) (name : String) (client : ClientId) (policy : CoordinatorLeavePolicy) :
    Option LeaveOutcome × Sessions :=
  match ss.map.lookup name with
  | none => (none, ss)
  | some session =>
    match session.members.lookup client with
    | none => (none, ss)
    | some member =>
      let rest := session.remove client
      if rest.members.entries.isEmpty then
        (some ⟨member, .none, [], true⟩, ⟨ss.map.erase name⟩)
      else if session.coordinator ≠ client then
        (some ⟨member, .none, rest.roster, false⟩, ⟨ss.map.insert name rest⟩)
      else
        match policy with
        | .close => (some ⟨member, .closed, rest.roster, true⟩, ⟨ss.map.erase name⟩)
        | .reelect =>
          -- `session.order[0]` and `session.members[&new_id]` panic where there is none
          match rest.order with
          | [] => (none, ss)
          | newId :: _ =>
            match rest.members.lookup newId with
            | none => (none, ss)
            | some newMember =>
              (some ⟨member, .reelected newMember, rest.roster, false⟩,
                ⟨ss.map.insert name { rest with coordinator := newId }⟩)

/-- `coordinator`. -/
def coordinator (ss : Sessions) (name : String) : Option ClientId :=
  (ss.map.lookup name).map (·.coordinator)

/-- `is_coordinator`. -/
def isCoordinator (ss : Sessions) (name : String) (client : ClientId) : Bool :=
  (ss.map.lookup name).any fun s => s.coordinator = client

/-- `member`. -/
def member (ss : Sessions) (name : String) (client : ClientId) : Option SessionMember :=
  (ss.map.lookup name).bind fun s => s.members.lookup client

/-- `roster`. -/
def roster (ss : Sessions) (name : String) : List SessionMember :=
  ((ss.map.lookup name).map Session.roster).getD []

/-- `count`. -/
def count (ss : Sessions) : Nat :=
  ss.map.entries.length

end Sessions

/-! ## The representation -/

/-- Members are filed under their own ids, the join order lists them, and the coordinator is one. -/
structure Session.WF (s : Session) : Prop where
  clientId_eq : ∀ c m, s.members.lookup c = some m → m.clientId = c
  mem_order : ∀ c, c ∈ s.order ↔ c ∈ s.members
  coordinator_mem : s.coordinator ∈ s.members

/-- Every session in the map is well formed, so none is empty. -/
def Sessions.WF (ss : Sessions) : Prop :=
  ∀ name s, ss.map.lookup name = some s → s.WF

theorem mem_roster {s : Session} {m : SessionMember} :
    m ∈ s.roster ↔ ∃ c, s.members.lookup c = some m := by
  unfold Session.roster
  rw [List.mem_insertionSort, List.mem_map]
  constructor
  · rintro ⟨⟨c, m'⟩, hmem, rfl⟩
    exact ⟨c, AList.mem_lookup_iff.2 hmem⟩
  · rintro ⟨c, h⟩
    exact ⟨⟨c, m⟩, AList.mem_lookup_iff.1 h, rfl⟩

/-- In a well-formed session the members of the roster carry their own ids. -/
theorem Session.WF.mem_roster_iff {s : Session} (h : s.WF) {m : SessionMember} :
    m ∈ s.roster ↔ s.members.lookup m.clientId = some m := by
  rw [mem_roster]
  constructor
  · rintro ⟨c, hc⟩
    rwa [h.clientId_eq c m hc]
  · intro hm
    exact ⟨_, hm⟩

/-! ## What a join does -/

/-- The effect of a join on the members and the coordinators. -/
structure JoinSpec (ss : Sessions) (name : String) (c : ClientId) (o : JoinOutcome)
    (ss' : Sessions) : Prop where
  wf : ss'.WF
  other : ∀ x, x ≠ name → ss'.map.lookup x = ss.map.lookup x
  member_self : ∃ m, ss'.member name c = some m ∧ ∀ m₀, ss.member name c = some m₀ → m = m₀
  member_other : ∀ c', c' ≠ c → ss'.member name c' = ss.member name c'
  coordinator : ∀ b, ss.coordinator name = some b → ss'.coordinator name = some b
  isCoordinator : o.isCoordinator = true ↔ ss'.coordinator name = some c
  roster : ∀ m, m ∈ o.roster ↔ ss'.member name m.clientId = some m

theorem Sessions.wf_insert {ss : Sessions} {name : String} {s : Session} (h : ss.WF) (hs : s.WF) :
    Sessions.WF ⟨ss.map.insert name s⟩ := by
  intro x s' hs'
  by_cases hx : x = name
  · subst hx
    rw [AList.lookup_insert] at hs'
    obtain rfl := Option.some.inj hs'
    exact hs
  · rw [AList.lookup_insert_ne hx] at hs'
    exact h x s' hs'

theorem Sessions.wf_erase {ss : Sessions} {name : String} (h : ss.WF) :
    Sessions.WF ⟨ss.map.erase name⟩ := by
  intro x s' hs'
  by_cases hx : x = name
  · subst hx
    rw [AList.lookup_erase] at hs'
    cases hs'
  · rw [AList.lookup_erase_ne hx] at hs'
    exact h x s' hs'

theorem Sessions.member_insert_self {ss : Sessions} {name : String} {s : Session} {c : ClientId} :
    Sessions.member ⟨ss.map.insert name s⟩ name c = s.members.lookup c := by
  simp [Sessions.member]

theorem Sessions.coordinator_insert_self {ss : Sessions} {name : String} {s : Session} :
    Sessions.coordinator ⟨ss.map.insert name s⟩ name = some s.coordinator := by
  simp [Sessions.coordinator]

/-- A session `join` can enroll `c` to: well formed, or new and waiting for `c`. -/
structure Session.Admits (s : Session) (c : ClientId) : Prop where
  clientId_eq : ∀ c' m, s.members.lookup c' = some m → m.clientId = c'
  mem_order : ∀ c', c' ∈ s.order ↔ c' ∈ s.members
  coordinator_mem : s.coordinator ∈ s.members ∨ s.coordinator = c

theorem enroll_lookup (s : Session) (c c' : ClientId) (principalId : String) :
    (s.enroll c principalId).members.lookup c' =
      if c' = c then some ⟨c, principalId, s.nextSlot⟩ else s.members.lookup c' := by
  unfold Session.enroll
  split
  · next hc =>
    subst hc
    exact AList.lookup_insert _
  · next hc => exact AList.lookup_insert_ne hc

theorem Session.Admits.wf_enroll {s : Session} {c : ClientId} (h : s.Admits c)
    (principalId : String) : (s.enroll c principalId).WF where
  clientId_eq c' m hm := by
    rw [enroll_lookup] at hm
    split at hm
    · next hc => rw [← Option.some.inj hm, hc]
    · exact h.clientId_eq c' m hm
  mem_order c' := by
    simp only [Session.enroll, List.mem_append, List.mem_singleton, AList.mem_insert,
      h.mem_order c']
    exact or_comm
  coordinator_mem := by
    simp only [Session.enroll, AList.mem_insert]
    exact h.coordinator_mem.symm

/-- The session `join` works on is admissible, and agrees with the map on members and coordinator. -/
theorem admits_of_lookup {ss : Sessions} (h : ss.WF) {name : String} {c : ClientId} {s : Session}
    (hs : (ss.map.lookup name).getD (Sessions.newSession c) = s) :
    s.Admits c ∧ (∀ c', ss.member name c' = s.members.lookup c') ∧
      (∀ b, ss.coordinator name = some b → s.coordinator = b) ∧
      (∀ m, s.members.lookup c = some m → s.WF) := by
  cases hlookup : ss.map.lookup name with
  | none =>
    rw [hlookup] at hs
    obtain rfl : Sessions.newSession c = s := hs
    refine ⟨⟨by simp [Sessions.newSession], by simp [Sessions.newSession], .inr rfl⟩, ?_, ?_, ?_⟩
    · simp [Sessions.member, hlookup, Sessions.newSession]
    · simp [Sessions.coordinator, hlookup]
    · simp [Sessions.newSession]
  | some s' =>
    rw [hlookup] at hs
    obtain rfl : s' = s := hs
    have hwf := h name s' hlookup
    refine ⟨⟨hwf.clientId_eq, hwf.mem_order, .inl hwf.coordinator_mem⟩, ?_, ?_, fun _ _ => hwf⟩
    · simp [Sessions.member, hlookup]
    · simp [Sessions.coordinator, hlookup]

theorem join_spec {ss : Sessions} (h : ss.WF) (name : String) (c : ClientId)
    (principalId : String) :
    JoinSpec ss name c (ss.join name c principalId).1 (ss.join name c principalId).2 := by
  unfold Sessions.join
  simp only
  generalize hs : (ss.map.lookup name).getD (Sessions.newSession c) = s
  obtain ⟨hadmits, hmember, hcoordinator, hwf_of⟩ := admits_of_lookup h hs
  split
  · next m hm =>
    have hwf := hwf_of m hm
    refine ⟨Sessions.wf_insert h hwf, fun x hx => AList.lookup_insert_ne hx, ⟨m, ?_, ?_⟩, ?_, ?_,
      ?_, ?_⟩
    · rw [Sessions.member_insert_self, hm]
    · intro m₀ hm₀
      rw [hmember, hm] at hm₀
      exact Option.some.inj hm₀
    · intro c' _
      rw [Sessions.member_insert_self, hmember]
    · intro b hb
      rw [Sessions.coordinator_insert_self, hcoordinator b hb]
    · simp [Sessions.coordinator_insert_self]
    · intro m'
      rw [Sessions.member_insert_self]
      exact hwf.mem_roster_iff
  · next hnone =>
    have hwf := hadmits.wf_enroll principalId
    refine ⟨Sessions.wf_insert h hwf, fun x hx => AList.lookup_insert_ne hx,
      ⟨⟨c, principalId, s.nextSlot⟩, ?_, ?_⟩, ?_, ?_, ?_, ?_⟩
    · rw [Sessions.member_insert_self, enroll_lookup, if_pos rfl]
    · intro m₀ hm₀
      rw [hmember, hnone] at hm₀
      cases hm₀
    · intro c' hc'
      rw [Sessions.member_insert_self, enroll_lookup, if_neg hc', hmember]
    · intro b hb
      rw [Sessions.coordinator_insert_self, ← hcoordinator b hb]
      rfl
    · simp [Sessions.coordinator_insert_self]
    · intro m'
      rw [Sessions.member_insert_self]
      exact hwf.mem_roster_iff

/-! ## What a leave does -/

/-- The effect of a leave on the members and the coordinators. -/
structure LeaveSpec (ss : Sessions) (name : String) (c : ClientId) (o : LeaveOutcome)
    (ss' : Sessions) : Prop where
  wf : ss'.WF
  member : ss.member name c = some o.member
  other : ∀ x, x ≠ name → ss'.map.lookup x = ss.map.lookup x
  remaining : ∀ m, m ∈ o.remaining ↔ m.clientId ≠ c ∧ ss.member name m.clientId = some m
  closed : o.change = .closed → ss'.map.lookup name = none
  member_of_open : o.change ≠ .closed →
    ∀ c', ss'.member name c' = if c' = c then none else ss.member name c'
  coordinator_of_none : o.change = .none → ∀ b,
    ss'.coordinator name = some b ↔ b ≠ c ∧ ss.coordinator name = some b
  coordinator_left : o.change ≠ .none → ss.coordinator name = some c
  reelected : ∀ b, o.change = .reelected b →
    ss'.coordinator name = some b.clientId ∧ ss'.member name b.clientId = some b

theorem remove_lookup (s : Session) (c c' : ClientId) :
    (s.remove c).members.lookup c' = if c' = c then none else s.members.lookup c' := by
  unfold Session.remove
  split
  · next hc =>
    subst hc
    exact AList.lookup_erase _ _
  · next hc => exact AList.lookup_erase_ne hc

theorem mem_remove {s : Session} {c c' : ClientId} :
    c' ∈ (s.remove c).members ↔ c' ≠ c ∧ c' ∈ s.members :=
  AList.mem_erase

/-- What remains of a session whose coordinator is still a member is well formed. -/
theorem Session.WF.remove {s : Session} (h : s.WF) {c b : ClientId}
    (hb : b ∈ (s.remove c).members) : ({ s.remove c with coordinator := b } : Session).WF where
  clientId_eq c' m hm := by
    have hm : (s.remove c).members.lookup c' = some m := hm
    rw [remove_lookup] at hm
    split at hm
    · cases hm
    · exact h.clientId_eq c' m hm
  mem_order c' := by
    have : c' ∈ s.order.filter (· ≠ c) ↔ c' ∈ (s.remove c).members := by
      rw [mem_remove, List.mem_filter, h.mem_order c']
      simp [and_comm]
    exact this
  coordinator_mem := hb

/-- The members a leave reports are the other members. -/
theorem mem_roster_remove {s : Session} (h : s.WF) {c : ClientId} {m : SessionMember} :
    m ∈ (s.remove c).roster ↔ m.clientId ≠ c ∧ s.members.lookup m.clientId = some m := by
  rw [mem_roster]
  constructor
  · rintro ⟨c', hc'⟩
    rw [remove_lookup] at hc'
    split at hc'
    · cases hc'
    · next hne =>
      rw [h.clientId_eq c' m hc']
      exact ⟨hne, hc'⟩
  · rintro ⟨hne, hm⟩
    exact ⟨_, by rw [remove_lookup, if_neg hne, hm]⟩

section

variable {ss : Sessions} {name : String} {s : Session} {c : ClientId} {m : SessionMember}

theorem member_of_lookup (hs : ss.map.lookup name = some s) (c' : ClientId) :
    ss.member name c' = s.members.lookup c' := by
  simp [Sessions.member, hs]

theorem coordinator_of_lookup (hs : ss.map.lookup name = some s) : ss.coordinator name = some s.coordinator := by
  simp [Sessions.coordinator, hs]

theorem mem_remaining (h : ss.WF) (hs : ss.map.lookup name = some s) (m' : SessionMember) :
    m' ∈ (s.remove c).roster ↔ m'.clientId ≠ c ∧ ss.member name m'.clientId = some m' := by
  rw [mem_roster_remove (h name s hs), member_of_lookup hs]

/-- The last member leaves; it was the coordinator. -/
theorem leaveSpec_last (h : ss.WF) (hs : ss.map.lookup name = some s) (hm : s.members.lookup c = some m)
    (hempty : (s.remove c).members.entries.isEmpty = true) :
    LeaveSpec ss name c ⟨m, .none, [], true⟩ ⟨ss.map.erase name⟩ := by
  have hrest : ∀ c', c' ∉ (s.remove c).members := by
    intro c' hc'
    rw [AList.mem_keys, AList.keys, List.isEmpty_iff.1 hempty] at hc'
    exact absurd hc' (List.not_mem_nil)
  have hcoord : s.coordinator = c := by
    by_contra hne
    exact hrest _ (mem_remove.2 ⟨hne, (h name s hs).coordinator_mem⟩)
  refine ⟨Sessions.wf_erase h, by rw [member_of_lookup hs, hm], fun x hx => AList.lookup_erase_ne hx, ?_,
    by simp, ?_, ?_, by simp, by simp⟩
  · intro m'
    rw [← mem_remaining h hs]
    simp only [List.not_mem_nil, false_iff]
    intro hm'
    obtain ⟨c', hc'⟩ := mem_roster.1 hm'
    exact hrest c' (AList.lookup_isSome.1 (by rw [hc']; rfl))
  · intro _ c'
    have hnone : (s.remove c).members.lookup c' = none := AList.lookup_eq_none.2 (hrest c')
    rw [remove_lookup] at hnone
    rw [member_of_lookup hs, hnone]
    simp [Sessions.member]
  · intro _ b
    simp only [Sessions.coordinator, AList.lookup_erase, Option.map_none, reduceCtorEq, false_iff, not_and]
    intro hb hb'
    rw [hs, Option.map_some, hcoord, Option.some.injEq] at hb'
    exact hb hb'.symm

/-- A member leaves that is not the coordinator. -/
theorem leaveSpec_stays (h : ss.WF) (hs : ss.map.lookup name = some s) (hm : s.members.lookup c = some m)
    (hne : s.coordinator ≠ c) :
    LeaveSpec ss name c ⟨m, .none, (s.remove c).roster, false⟩ ⟨ss.map.insert name (s.remove c)⟩ := by
  have hmem : s.coordinator ∈ (s.remove c).members := mem_remove.2 ⟨hne, (h name s hs).coordinator_mem⟩
  refine ⟨Sessions.wf_insert h ((h name s hs).remove hmem), by rw [member_of_lookup hs, hm],
    fun x hx => AList.lookup_insert_ne hx, mem_remaining h hs, by simp, ?_, ?_, by simp, by simp⟩
  · intro _ c'
    rw [Sessions.member_insert_self, remove_lookup, member_of_lookup hs]
  · intro _ b
    rw [Sessions.coordinator_insert_self, coordinator_of_lookup hs]
    constructor
    · intro hb
      obtain rfl : s.coordinator = b := Option.some.inj hb
      exact ⟨hne, rfl⟩
    · exact fun hb => hb.2

/-- The coordinator leaves and closes the session. -/
theorem leaveSpec_closed (h : ss.WF) (hs : ss.map.lookup name = some s) (hm : s.members.lookup c = some m)
    (hcoord : s.coordinator = c) :
    LeaveSpec ss name c ⟨m, .closed, (s.remove c).roster, true⟩ ⟨ss.map.erase name⟩ := by
  refine ⟨Sessions.wf_erase h, by rw [member_of_lookup hs, hm], fun x hx => AList.lookup_erase_ne hx,
    mem_remaining h hs, ?_, by simp, by simp, ?_, by simp⟩
  · intro _
    exact AList.lookup_erase _ _
  · intro _
    rw [coordinator_of_lookup hs, hcoord]

/-- The coordinator leaves and another member takes its place. -/
theorem leaveSpec_reelected (h : ss.WF) (hs : ss.map.lookup name = some s) (hm : s.members.lookup c = some m)
    (hcoord : s.coordinator = c) {newId : ClientId} {b : SessionMember}
    (hb : (s.remove c).members.lookup newId = some b) :
    LeaveSpec ss name c ⟨m, .reelected b, (s.remove c).roster, false⟩
      ⟨ss.map.insert name { s.remove c with coordinator := newId }⟩ := by
  have hin : newId ∈ (s.remove c).members := AList.lookup_isSome.1 (by rw [hb]; rfl)
  have hwf := (h name s hs).remove hin
  have hid : b.clientId = newId := hwf.clientId_eq newId b hb
  refine ⟨Sessions.wf_insert h hwf, by rw [member_of_lookup hs, hm], fun x hx => AList.lookup_insert_ne hx,
    mem_remaining h hs, by simp, ?_, by simp, ?_, ?_⟩
  · intro _ c'
    rw [Sessions.member_insert_self, member_of_lookup hs]
    exact remove_lookup s c c'
  · intro _
    rw [coordinator_of_lookup hs, hcoord]
  · intro b' hb'
    obtain rfl : b = b' := by simpa using hb'
    refine ⟨by rw [Sessions.coordinator_insert_self, hid], ?_⟩
    rw [Sessions.member_insert_self, hid]
    exact hb

/-- What `leave` does, case by case: it never panics. -/
theorem leave_cases (h : ss.WF) (name : String) (c : ClientId) (policy : CoordinatorLeavePolicy) :
    (ss.leave name c policy = (none, ss) ∧ ss.member name c = none) ∨
      ∃ s m, ss.map.lookup name = some s ∧ s.members.lookup c = some m ∧
        ((s.remove c).members.entries.isEmpty = true ∧
            ss.leave name c policy = (some ⟨m, .none, [], true⟩, ⟨ss.map.erase name⟩) ∨
          s.coordinator ≠ c ∧ ss.leave name c policy =
            (some ⟨m, .none, (s.remove c).roster, false⟩, ⟨ss.map.insert name (s.remove c)⟩) ∨
          s.coordinator = c ∧ policy = .close ∧
            ss.leave name c policy = (some ⟨m, .closed, (s.remove c).roster, true⟩, ⟨ss.map.erase name⟩) ∨
          s.coordinator = c ∧ policy = .reelect ∧ ∃ newId rest b, (s.remove c).order = newId :: rest ∧
            (s.remove c).members.lookup newId = some b ∧
            ss.leave name c policy = (some ⟨m, .reelected b, (s.remove c).roster, false⟩,
              ⟨ss.map.insert name { s.remove c with coordinator := newId }⟩)) := by
  unfold Sessions.leave
  split
  · next hnone => exact .inl ⟨rfl, by simp [Sessions.member, hnone]⟩
  next s hs =>
  split
  · next hnone => exact .inl ⟨rfl, by rw [member_of_lookup hs, hnone]⟩
  next m hm =>
  refine .inr ⟨s, m, hs, hm, ?_⟩
  simp only
  split
  · next hempty => exact .inl ⟨hempty, rfl⟩
  next hempty =>
  split
  · next hne => exact .inr (.inl ⟨hne, rfl⟩)
  next hcoord =>
  have hcoord : s.coordinator = c := not_not.1 hcoord
  split
  · exact .inr (.inr (.inl ⟨hcoord, rfl, rfl⟩))
  -- the next in join order is a member, so the re-election finds it
  have horder : ∀ c', c' ∈ (s.remove c).order ↔ c' ∈ (s.remove c).members := by
    intro c'
    rw [mem_remove, ← (h name s hs).mem_order c']
    simp [Session.remove, and_comm]
  split
  · next hnil =>
    obtain ⟨e, rest, he⟩ := List.exists_cons_of_ne_nil (mt List.isEmpty_iff.2 hempty)
    have hin : e.1 ∈ (s.remove c).members := by
      rw [AList.mem_keys, AList.keys, he]
      simp
    rw [← horder, hnil] at hin
    exact absurd hin (List.not_mem_nil)
  next newId tail hcons =>
  have hin : newId ∈ (s.remove c).members := (horder newId).1 (by simp [hcons])
  split
  · next hnone => exact absurd hin (AList.lookup_eq_none.1 hnone)
  · next b hb => exact .inr (.inr (.inr ⟨hcoord, rfl, newId, tail, b, hcons, hb, rfl⟩))

/-- `leave` changes nothing for a client that is not a member; for a member it does what `LeaveSpec`
says, and never panics. -/
theorem leave_spec (h : ss.WF) (name : String) (c : ClientId) (policy : CoordinatorLeavePolicy) :
    (ss.leave name c policy = (none, ss) ∧ ss.member name c = none) ∨
      ∃ o ss', ss.leave name c policy = (some o, ss') ∧ LeaveSpec ss name c o ss' ∧
        (policy = .reelect → o.change ≠ .closed) := by
  rcases leave_cases h name c policy with hnone | ⟨s, m, hs, hm, hleave⟩
  · exact .inl hnone
  rcases hleave with ⟨hempty, heq⟩ | ⟨hne, heq⟩ | ⟨hcoord, rfl, heq⟩ | ⟨hcoord, rfl, newId, rest, b, -, hb, heq⟩
  · exact .inr ⟨_, _, heq, leaveSpec_last h hs hm hempty, by simp⟩
  · exact .inr ⟨_, _, heq, leaveSpec_stays h hs hm hne, by simp⟩
  · exact .inr ⟨_, _, heq, leaveSpec_closed h hs hm hcoord, by simp⟩
  · exact .inr ⟨_, _, heq, leaveSpec_reelected h hs hm hcoord hb, by simp⟩

end

end Atomo.Hub

import Atomo.Hub.Reaping

/-!
# The tables of the hub mirror each other

A client's record lists its channels and its sessions; the presence map lists the clients of each
channel and the session map the members of each session. While an operation is under way the two
sides may differ by the pairs it has yet to settle, so the invariant `Mirror A B E` carries three
relations: `A` and `B` are the channel and session memberships that are about to be removed, `E` the
sessions that records still list although they have been closed. A nested disconnection keeps all
three, whatever they are (`onDisconnect_mirror`).
-/

namespace Atomo.Hub

variable {env : Env} {reap : ClientId → Worker → Worker} {w : Worker}

/-! ## The memberships -/

/-- The record of client `c` lists `x` in the given field. -/
def Worker.Lists (w : Worker) (field : ClientState → List String) (c : ClientId) (x : String) :
    Prop :=
  ∃ cs, w.clients.lookup c = some cs ∧ x ∈ field cs

/-- The client is a member of the session. -/
def Sessions.Mem (ss : Sessions) (session : String) (c : ClientId) : Prop :=
  ∃ m, ss.member session c = some m

variable {field : ClientState → List String} {id c : ClientId} {x : String}

theorem Worker.Lists.mem (h : w.Lists field c x) : c ∈ w.clients := by
  obtain ⟨cs, hcs, -⟩ := h
  exact AList.lookup_isSome.1 (by rw [hcs]; rfl)

theorem lists_eraseClient :
    (w.eraseClient id).Lists field c x ↔ w.Lists field c x ∧ c ≠ id := by
  unfold Worker.Lists Worker.eraseClient
  by_cases hc : c = id
  · subst hc
    simp [AList.lookup_erase]
  · simp [AList.lookup_erase_ne hc, hc]

theorem lists_modifyClient {f : ClientState → ClientState} :
    (w.modifyClient id f).Lists field c x ↔
      if c = id then ∃ cs, w.clients.lookup id = some cs ∧ x ∈ field (f cs)
      else w.Lists field c x := by
  unfold Worker.Lists
  rw [lookup_modifyClient]
  split
  · simp [Option.map_eq_some_iff]
  · rfl

theorem lists_modifyClient_of_eq {f : ClientState → ClientState} (hf : ∀ cs, field (f cs) = field cs) :
    (w.modifyClient id f).Lists field c x ↔ w.Lists field c x := by
  rw [lists_modifyClient]
  split
  · next hc =>
    subst hc
    simp only [hf]
    rfl
  · rfl

theorem lists_modifyClient_insert {f : ClientState → ClientState} {a : String}
    (hf : ∀ cs y, y ∈ field (f cs) ↔ y ∈ field cs ∨ y = a) (hid : id ∈ w.clients) :
    (w.modifyClient id f).Lists field c x ↔ w.Lists field c x ∨ c = id ∧ x = a := by
  obtain ⟨cs, hcs⟩ := Option.isSome_iff_exists.1 (AList.lookup_isSome.2 hid)
  rw [lists_modifyClient]
  unfold Worker.Lists
  split
  · next hc =>
    subst hc
    simp [hcs, hf]
  · next hc => simp [hc]

theorem lists_modifyClient_remove {f : ClientState → ClientState} {a : String}
    (hf : ∀ cs y, y ∈ field (f cs) ↔ y ∈ field cs ∧ y ≠ a) :
    (w.modifyClient id f).Lists field c x ↔ w.Lists field c x ∧ ¬ (c = id ∧ x = a) := by
  rw [lists_modifyClient]
  unfold Worker.Lists
  split
  · next hc =>
    subst hc
    simp only [hf, true_and]
    constructor
    · rintro ⟨cs, hcs, hx, hne⟩
      exact ⟨⟨cs, hcs, hx⟩, hne⟩
    · rintro ⟨⟨cs, hcs, hx⟩, hne⟩
      exact ⟨cs, hcs, hx, hne⟩
  · next hc => simp [hc]

theorem lists_dropSession {session : String} :
    (w.dropSession id session).Lists (·.sessions) c x ↔
      w.Lists (·.sessions) c x ∧ ¬ (c = id ∧ x = session) :=
  lists_modifyClient_remove fun cs y => by simp [List.mem_filter]

@[simp] theorem subscriptions_dropSession {session : String} :
    (w.dropSession id session).Lists (·.subscriptions) c x ↔ w.Lists (·.subscriptions) c x :=
  lists_modifyClient_of_eq fun _ => rfl

@[simp] theorem presence_dropSession {session : String} :
    (w.dropSession id session).presence = w.presence :=
  presence_modifyClient _ _ _

@[simp] theorem sessions_dropSession {session : String} :
    (w.dropSession id session).sessions = w.sessions :=
  sessions_modifyClient _ _ _

theorem Sessions.WF.clientId_eq {ss : Sessions} (h : ss.WF) {name : String} {m : SessionMember}
    (hm : ss.member name c = some m) : m.clientId = c := by
  unfold Sessions.member at hm
  obtain ⟨s, hs, hm⟩ := Option.bind_eq_some_iff.1 hm
  exact (h name s hs).clientId_eq c m hm

section Leave

variable {ss ss' : Sessions} {name : String} {o : LeaveOutcome}

theorem LeaveSpec.member_other (h : LeaveSpec ss name id o ss') (hx : x ≠ name) :
    ss'.member x c = ss.member x c := by
  unfold Sessions.member
  rw [h.other x hx]

theorem LeaveSpec.mem_of_open (h : LeaveSpec ss name id o ss') (hopen : o.change ≠ .closed) :
    ss'.Mem x c ↔ ss.Mem x c ∧ ¬ (c = id ∧ x = name) := by
  unfold Sessions.Mem
  by_cases hx : x = name
  · subst hx
    rw [h.member_of_open hopen]
    by_cases hc : c = id <;> simp [hc]
  · simp [h.member_other hx, hx]

theorem LeaveSpec.mem_of_closed (h : LeaveSpec ss name id o ss') (hclosed : o.change = .closed) :
    ss'.Mem x c ↔ ss.Mem x c ∧ x ≠ name := by
  unfold Sessions.Mem
  by_cases hx : x = name
  · subst hx
    simp [Sessions.member, h.closed hclosed]
  · simp [h.member_other hx, hx]

theorem LeaveSpec.mem_remaining (h : LeaveSpec ss name id o ss') (hwf : ss.WF) (hmem : ss.Mem name c)
    (hc : c ≠ id) : c ∈ o.remaining.map (·.clientId) := by
  obtain ⟨m, hm⟩ := hmem
  have hid := hwf.clientId_eq hm
  subst hid
  exact List.mem_map.2 ⟨m, (h.remaining m).2 ⟨hc, hm⟩, rfl⟩

/-- A coordinator stays one while others leave, and so do the members. -/
theorem LeaveSpec.keeps (h : LeaveSpec ss name id o ss') {session : String} {b : ClientId} (hne : id ≠ b)
    (hb : ss.coordinator session = some b) :
    ss'.coordinator session = some b ∧ ∀ c, c ≠ id → ss'.member session c = ss.member session c := by
  by_cases hx : session = name
  · subst hx
    have hnone : o.change = .none := by
      by_contra hchange
      have hleft := h.coordinator_left hchange
      rw [hb] at hleft
      exact hne (Option.some.inj hleft).symm
    have hopen : o.change ≠ .closed := by
      rw [hnone]
      exact CoordinatorChange.noConfusion
    exact ⟨(h.coordinator_of_none hnone b).2 ⟨hne.symm, hb⟩,
      fun c hc => (h.member_of_open hopen c).trans (if_neg hc)⟩
  · refine ⟨?_, fun c _ => h.member_other hx⟩
    rw [Sessions.coordinator, h.other session hx]
    exact hb

end Leave

/-! ## The invariant -/

/-- The records and the two maps agree, up to the pairs still to be settled. -/
structure Mirror (A B E : ClientId → String → Prop) (w : Worker) : Prop where
  subscribed : ∀ c x, w.Lists (·.subscriptions) c x → w.presence.Mem x c
  present : ∀ c x, w.presence.Mem x c → w.Lists (·.subscriptions) c x ∨ A c x
  joined : ∀ c x, w.Lists (·.sessions) c x → w.sessions.Mem x c ∨ E c x
  member : ∀ c x, w.sessions.Mem x c → w.Lists (·.sessions) c x ∨ B c x
  noEmpty : w.presence.NoEmpty
  wf : w.sessions.WF

variable {A B E A' B' E' : ClientId → String → Prop}

theorem Mirror.mono (h : Mirror A B E w) (hA : ∀ c x, A c x → A' c x) (hB : ∀ c x, B c x → B' c x)
    (hE : ∀ c x, E c x → E' c x) : Mirror A' B' E' w where
  subscribed := h.subscribed
  present c x hx := (h.present c x hx).imp_right (hA c x)
  joined c x hx := (h.joined c x hx).imp_right (hE c x)
  member c x hx := (h.member c x hx).imp_right (hB c x)
  noEmpty := h.noEmpty
  wf := h.wf

/-- Updates that leave the two maps alone, and the memberships that the records list. -/
theorem Mirror.of_lists {w' : Worker} (h : Mirror A B E w)
    (hsubscriptions : ∀ c x, w'.Lists (·.subscriptions) c x ↔ w.Lists (·.subscriptions) c x)
    (hsessions : ∀ c x, w'.Lists (·.sessions) c x ↔ w.Lists (·.sessions) c x)
    (hpresence : w'.presence = w.presence) (hmap : w'.sessions = w.sessions) :
    Mirror A B E w' where
  subscribed c x hx := by
    rw [hpresence]
    exact h.subscribed c x ((hsubscriptions c x).1 hx)
  present c x hx := by
    rw [hpresence] at hx
    exact (h.present c x hx).imp_left (hsubscriptions c x).2
  joined c x hx := by
    rw [hmap]
    exact h.joined c x ((hsessions c x).1 hx)
  member c x hx := by
    rw [hmap] at hx
    exact (h.member c x hx).imp_left (hsessions c x).2
  noEmpty := by
    rw [hpresence]
    exact h.noEmpty
  wf := by
    rw [hmap]
    exact h.wf

/-- Updates that touch none of the three tables. -/
theorem Mirror.congr {w' : Worker} (h : Mirror A B E w) (hclients : w'.clients = w.clients)
    (hpresence : w'.presence = w.presence) (hsessions : w'.sessions = w.sessions) :
    Mirror A B E w' := by
  refine h.of_lists (fun c x => ?_) (fun c x => ?_) hpresence hsessions <;>
    rw [Worker.Lists, hclients] <;> rfl

theorem Mirror.refreshSessionGauge (h : Mirror A B E w) : Mirror A B E w.refreshSessionGauge :=
  h.congr rfl rfl rfl

theorem Mirror.closeCounters (h : Mirror A B E w) :
    Mirror A B E w.countClosed.refreshChannelGauge :=
  h.congr rfl rfl rfl

theorem Mirror.record (h : Mirror A B E w) (a : Attempt) : Mirror A B E (w.record a) :=
  h.congr rfl rfl rfl

/-- The memberships of a client that is gone are all to be removed. -/
theorem Mirror.eraseClient {cs : ClientState} (h : Mirror A B E w)
    (hcs : w.clients.lookup id = some cs) :
    Mirror (fun c x => A c x ∨ c = id ∧ x ∈ cs.subscriptions)
      (fun c x => B c x ∨ c = id ∧ x ∈ cs.sessions) E (w.eraseClient id) where
  subscribed c x hx := h.subscribed c x (lists_eraseClient.1 hx).1
  present c x hx := by
    by_cases hc : c = id
    · subst hc
      rcases h.present c x hx with ⟨cs', hcs', hx⟩ | hx
      · obtain rfl := Option.some.inj (hcs.symm.trans hcs')
        exact .inr (.inr ⟨rfl, hx⟩)
      · exact .inr (.inl hx)
    · exact (h.present c x hx).imp (fun hx => lists_eraseClient.2 ⟨hx, hc⟩) .inl
  joined c x hx := h.joined c x (lists_eraseClient.1 hx).1
  member c x hx := by
    by_cases hc : c = id
    · subst hc
      rcases h.member c x hx with ⟨cs', hcs', hx⟩ | hx
      · obtain rfl := Option.some.inj (hcs.symm.trans hcs')
        exact .inr (.inr ⟨rfl, hx⟩)
      · exact .inr (.inl hx)
    · exact (h.member c x hx).imp (fun hx => lists_eraseClient.2 ⟨hx, hc⟩) .inl
  noEmpty := h.noEmpty
  wf := h.wf

/-- A channel membership that the record no longer lists is removed. -/
theorem Mirror.leavePresence {channel : String}
    (h : Mirror (fun c x => A c x ∨ c = id ∧ x = channel) B E w)
    (hgone : ¬ w.Lists (·.subscriptions) id channel) :
    Mirror A B E (w.setPresence (w.presence.leave channel id).2) where
  subscribed c x hx := by
    refine Presence.mem_leave.2 ⟨h.subscribed c x hx, ?_⟩
    rintro ⟨rfl, rfl⟩
    exact hgone hx
  present c x hx := by
    obtain ⟨hx, hne⟩ := Presence.mem_leave.1 hx
    rcases h.present c x hx with hx | hx | ⟨hc, hx⟩
    · exact .inl hx
    · exact .inr hx
    · exact absurd ⟨hx, hc⟩ hne
  joined := h.joined
  member := h.member
  noEmpty := Presence.noEmpty_leave h.noEmpty
  wf := h.wf

/-- Where a session has been closed, its record is dropped client by client. -/
theorem Mirror.dropClosed {session : String} {rest : List ClientId}
    (h : Mirror A B (fun c x => E c x ∨ x = session ∧ c ∈ id :: rest) w)
    (hclosed : ∀ c, ¬ w.sessions.Mem session c) :
    Mirror A B (fun c x => E c x ∨ x = session ∧ c ∈ rest) (w.dropSession id session) := by
  refine ⟨fun c x hx => ?_, fun c x hx => ?_, fun c x hx => ?_, fun c x hx => ?_, ?_, ?_⟩
  · rw [presence_dropSession]
    exact h.subscribed c x (subscriptions_dropSession.1 hx)
  · rw [presence_dropSession] at hx
    exact (h.present c x hx).imp_left subscriptions_dropSession.2
  · obtain ⟨hlists, hne⟩ := lists_dropSession.1 hx
    rw [sessions_dropSession]
    rcases h.joined c x hlists with hx | hx | ⟨hx, hc⟩
    · exact .inl hx
    · exact .inr (.inl hx)
    · rcases List.mem_cons.1 hc with hc | hc
      · exact absurd ⟨hc, hx⟩ hne
      · exact .inr (.inr ⟨hx, hc⟩)
  · rw [sessions_dropSession] at hx
    refine (h.member c x hx).imp_left fun hlists => lists_dropSession.2 ⟨hlists, ?_⟩
    rintro ⟨rfl, rfl⟩
    exact hclosed c hx
  · rw [presence_dropSession]
    exact h.noEmpty
  · rw [sessions_dropSession]
    exact h.wf

section LeaveSession

variable {session : String} {o : LeaveOutcome} {ss' : Sessions}

/-- The two sides of a session membership are removed together. -/
theorem Mirror.leftOpen (h : Mirror A (fun c x => B c x ∨ c = id ∧ x = session) E w)
    (hspec : LeaveSpec w.sessions session id o ss') (hopen : o.change ≠ .closed) :
    Mirror A B E ((w.setSessions ss').dropSession id session) := by
  refine ⟨fun c x hx => ?_, fun c x hx => ?_, fun c x hx => ?_, fun c x hx => ?_, ?_, ?_⟩
  · rw [presence_dropSession]
    exact h.subscribed c x ((subscriptions_dropSession (w := w.setSessions ss')).1 hx)
  · rw [presence_dropSession] at hx
    exact (h.present c x hx).imp_left subscriptions_dropSession.2
  · obtain ⟨hx, hne⟩ := lists_dropSession.1 hx
    rw [sessions_dropSession]
    exact (h.joined c x hx).imp_left fun hmem => (hspec.mem_of_open hopen).2 ⟨hmem, hne⟩
  · rw [sessions_dropSession] at hx
    obtain ⟨hx, hne⟩ := (hspec.mem_of_open hopen).1 hx
    rcases h.member c x hx with hx | hx | hx
    · exact .inl (lists_dropSession.2 ⟨hx, hne⟩)
    · exact .inr hx
    · exact absurd hx hne
  · rw [presence_dropSession]
    exact h.noEmpty
  · rw [sessions_dropSession]
    exact hspec.wf

/-- A closed session stays in the records of those that have not been told yet. -/
theorem Mirror.leftClosed (h : Mirror A (fun c x => B c x ∨ c = id ∧ x = session) E w)
    (hspec : LeaveSpec w.sessions session id o ss') (hclosed : o.change = .closed) :
    Mirror A B (fun c x => E c x ∨ x = session ∧ c ∈ o.remaining.map (·.clientId))
      ((w.setSessions ss').dropSession id session) := by
  refine ⟨fun c x hx => ?_, fun c x hx => ?_, fun c x hx => ?_, fun c x hx => ?_, ?_, ?_⟩
  · rw [presence_dropSession]
    exact h.subscribed c x ((subscriptions_dropSession (w := w.setSessions ss')).1 hx)
  · rw [presence_dropSession] at hx
    exact (h.present c x hx).imp_left subscriptions_dropSession.2
  · obtain ⟨hx, hne⟩ := lists_dropSession.1 hx
    rw [sessions_dropSession]
    rcases h.joined c x hx with hmem | hx
    · by_cases hxs : x = session
      · subst hxs
        exact .inr (.inr ⟨rfl, hspec.mem_remaining h.wf hmem fun hc => hne ⟨hc, rfl⟩⟩)
      · exact .inl ((hspec.mem_of_closed hclosed).2 ⟨hmem, hxs⟩)
    · exact .inr (.inl hx)
  · rw [sessions_dropSession] at hx
    obtain ⟨hx, hne⟩ := (hspec.mem_of_closed hclosed).1 hx
    rcases h.member c x hx with hx | hx | hx
    · exact .inl (lists_dropSession.2 ⟨hx, fun h => hne h.2⟩)
    · exact .inr hx
    · exact absurd hx.2 hne
  · rw [presence_dropSession]
    exact h.noEmpty
  · rw [sessions_dropSession]
    exact hspec.wf

end LeaveSession

/-! ## Operations -/

/-- The sessions are well formed and this one has no member; it stays so. -/
theorem stable_no_member (session : String) :
    Stable fun w => w.sessions.WF ∧ ∀ c, ¬ w.sessions.Mem session c where
  record _ _ h := h
  eraseClient _ _ h := h
  dropSession _ _ _ h := by rwa [sessions_dropSession]
  leavePresence _ _ _ h := h
  leaveSessions w id x h := by
    rcases leave_spec h.1 x id w.sessionPolicy with ⟨heq, -⟩ | ⟨o, ss', heq, hspec, -⟩
    · rwa [heq]
    · rw [heq]
      refine ⟨hspec.wf, fun c hc => h.2 c ?_⟩
      by_cases hopen : o.change = .closed
      · exact ((hspec.mem_of_closed hopen).1 hc).1
      · exact ((hspec.mem_of_open hopen).1 hc).1
  countClosed _ h := h
  refreshChannelGauge _ h := h
  refreshSessionGauge _ h := h

section Reap

variable (hkeeps : ∀ A B E, DeliverKeeps env reap (Mirror A B E)) (hstable : KeepsStable env reap)

include hkeeps hstable

theorem evictAll_mirror {session : String} (remaining : List SessionMember)
    (h : Mirror A B (fun c x => E c x ∨ x = session ∧ c ∈ remaining.map (·.clientId)) w)
    (hclosed : ∀ c, ¬ w.sessions.Mem session c) :
    Mirror A B E (evictAll env reap session remaining w) := by
  let P (rest : List SessionMember) (w : Worker) : Prop :=
    Mirror A B (fun c x => E c x ∨ x = session ∧ c ∈ rest.map (·.clientId)) w ∧
      (w.sessions.WF ∧ ∀ c, ¬ w.sessions.Mem session c)
  have hstep : ∀ m rest w, P (m :: rest) w → P rest (deliver env reap m.clientId
      (.sessionClosed session "coordinator_left") false (w.dropSession m.clientId session)) := by
    intro m rest w hw
    exact ((hkeeps _ _ _).and (hstable _ (stable_no_member session))) _ _ _ _
      ⟨hw.1.dropClosed hw.2.2, (stable_no_member session).dropSession w _ _ hw.2⟩
  have hfinal := foldl_consumes P hstep remaining ⟨h, h.wf, hclosed⟩
  exact hfinal.1.mono (fun _ _ h => h) (fun _ _ h => h) (by simp)

theorem leaveSession_mirror {session : String}
    (h : Mirror A (fun c x => B c x ∨ c = id ∧ x = session) E w) :
    Mirror A B E (leaveSession env reap id session w) := by
  unfold leaveSession
  rcases leave_spec h.wf session id w.sessionPolicy with ⟨heq, hnone⟩ | ⟨o, ss', heq, hspec, -⟩
  · rw [heq]
    refine ⟨h.subscribed, h.present, h.joined, fun c x hx => ?_, h.noEmpty, h.wf⟩
    rcases h.member c x hx with hx | hx | ⟨rfl, rfl⟩
    · exact .inl hx
    · exact .inr hx
    · obtain ⟨m, hm⟩ := hx
      rw [hnone] at hm
      cases hm
  · rw [heq]
    simp only
    apply Mirror.refreshSessionGauge
    split
    · next hclosed =>
      refine evictAll_mirror hkeeps hstable _ (h.leftClosed hspec hclosed) fun c hc => ?_
      rw [sessions_dropSession] at hc
      exact ((hspec.mem_of_closed hclosed).1 hc).2 rfl
    · next hreelected =>
      exact announceAll_keeps (DeliverKeeps.for (hkeeps _ _ _)) _ (by trivial) _ _ _
        (h.leftOpen hspec (by rw [hreelected]; exact CoordinatorChange.noConfusion))
    · next hnone =>
      exact deliverAll_keeps (hkeeps _ _ _) _ _
        (h.leftOpen hspec (by rw [hnone]; exact CoordinatorChange.noConfusion))

omit hstable in
theorem leaveChannelOf_mirror {who channel : String}
    (h : Mirror (fun c x => A c x ∨ c = id ∧ x = channel) B E w) (hgone : id ∉ w.clients) :
    Mirror A B E (leaveChannelOf env reap id who channel w) := by
  unfold leaveChannelOf
  simp only
  split
  · exact broadcastExcept_keeps (hkeeps _ _ _) _ _ _ (h.leavePresence fun hx => hgone hx.mem)
  · exact h.leavePresence fun hx => hgone hx.mem

theorem reapClient_mirror {cs : ClientState} (h : Mirror A B E w)
    (hcs : w.clients.lookup id = some cs) : Mirror A B E (reapClient env reap id cs w) := by
  let P (rest : List String) (w : Worker) : Prop :=
    Mirror (fun c x => A c x ∨ c = id ∧ x ∈ rest)
      (fun c x => B c x ∨ c = id ∧ x ∈ cs.sessions) E w ∧ id ∉ w.clients
  let Q (rest : List String) (w : Worker) : Prop :=
    Mirror A (fun c x => B c x ∨ c = id ∧ x ∈ rest) E w
  have hchannel : ∀ x rest w, P (x :: rest) w →
      P rest (leaveChannelOf env reap id cs.principal.id x w) := by
    rintro x rest w ⟨hw, hgone⟩
    refine ⟨leaveChannelOf_mirror hkeeps (hw.mono ?_ (fun _ _ h => h) fun _ _ h => h) hgone, ?_⟩
    · intro c y hy
      simp only [List.mem_cons] at hy
      tauto
    · exact leaveChannelOf_keeps (hstable _ (stable_not_mem id)) _ _ _ (fun h => h) hgone
  have hsession : ∀ x rest w, Q (x :: rest) w → Q rest (leaveSession env reap id x w) := by
    intro x rest w hw
    refine leaveSession_mirror hkeeps hstable (hw.mono (fun _ _ h => h) ?_ fun _ _ h => h)
    intro c y hy
    simp only [List.mem_cons] at hy
    tauto
  unfold reapClient
  simp only
  apply Mirror.closeCounters
  refine Mirror.mono (foldl_consumes Q hsession _ ?_) (fun _ _ h => h) (by simp) fun _ _ h => h
  refine Mirror.mono (foldl_consumes P hchannel _ ?_).1 (by simp) ?_ fun _ _ h => h
  · refine ⟨(h.eraseClient hcs).mono ?_ (fun _ _ h => h) fun _ _ h => h, ?_⟩
    · intro c x hx
      exact hx.imp_right fun hx => ⟨hx.1, (env.iterNames_perm _ _).mem_iff.2 hx.2⟩
    · simp [Worker.eraseClient]
  · intro c x hx
    exact hx.imp_right fun hx => ⟨hx.1, (env.iterNames_perm _ _).mem_iff.2 hx.2⟩

end Reap

theorem onDisconnect_mirror (env : Env) (fuel : Nat) (h : Mirror A B E w) :
    Mirror A B E (onDisconnect env fuel id w) := by
  induction fuel generalizing w id A B E with
  | zero => exact h
  | succ fuel ih =>
    have hkeeps : ∀ A B E, DeliverKeeps env (onDisconnect env fuel) (Mirror A B E) := fun A B E =>
      deliverKeeps (fun _ a _ hw => hw.record a) fun _ a _ _ hw => ih (hw.record a)
    unfold onDisconnect
    split
    · exact h
    · next cs hcs => exact reapClient_mirror hkeeps (keepsStable_onDisconnect env fuel) h hcs

end Atomo.Hub

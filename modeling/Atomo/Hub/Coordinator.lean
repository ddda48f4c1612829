import Atomo.Hub.Departures

/-!
# Coordinator announcements

A `SessionStart` tells its receiver whether it is the coordinator, and a `CoordinatorChanged` names
who is. `Told` says that the newest of these frames offered to a member was shed, or has been
enqueued and is right. It is kept by every operation that does not enqueue a late announcement, one
whose coordinator has been reaped while the loop that announces it was under way: the invariant
`Announced D` carries the pairs `D` still to be told, and `Chair` what the loop knows of the
coordinator it is announcing.
-/

namespace Atomo.Hub

variable {env : Env} {reap : ClientId → Worker → Worker} {w : Worker} {id c : ClientId}

/-! ## The frames that name a coordinator -/

/-- The frame names the coordinator of the session. -/
def ServerMsg.naming (session : String) : ServerMsg → Bool
  | .sessionStart s _ _ _ => s = session
  | .coordinatorChanged s _ _ => s = session
  | _ => false

/-- The newest frame naming the coordinator of the session that was offered to the client. -/
def lastNaming (log : List Attempt) (c : ClientId) (session : String) : Option Attempt :=
  log.find? fun a => a.target = c ∧ a.msg.naming session

/-- What the frame says about the coordinator is so. -/
def Names (ss : Sessions) (target : ClientId) : ServerMsg → Prop
  | .sessionStart s _ flag _ => flag = true ↔ ss.coordinator s = some target
  | .coordinatorChanged s slot id =>
    ∃ b m, ss.coordinator s = some b ∧ ss.member s b = some m ∧ slot = m.slot ∧ id = m.principalId
  | _ => True

/-- The newest frame was shed, or is enqueued and right. -/
def Told (w : Worker) (c : ClientId) (session : String) : Prop :=
  ∃ a, lastNaming w.log c session = some a ∧
    (a.outcome = .dropped ∨ a.outcome = .sent ∧ Names w.sessions c a.msg)

/-- The announcement of a coordinator whose receiver had been found closed was enqueued. -/
def Attempt.Misannounced (a : Attempt) : Prop :=
  a.late = true ∧ a.outcome = .sent

def Clean (log : List Attempt) : Prop :=
  ∀ a ∈ log, ¬ a.Misannounced

theorem lastNaming_cons_of_not {a : Attempt} {log : List Attempt} {session : String}
    (h : ¬ (a.target = c ∧ a.msg.naming session = true)) :
    lastNaming (a :: log) c session = lastNaming log c session := by
  unfold lastNaming
  rw [List.find?_cons_of_neg]
  simpa using h

theorem lastNaming_cons {a : Attempt} {log : List Attempt} {session : String}
    (h : a.msg.naming session = true) : lastNaming (a :: log) a.target session = some a := by
  unfold lastNaming
  rw [List.find?_cons_of_pos]
  simpa using h

/-- A frame stays right while its session has the same coordinator, with the same record. -/
theorem Names.congr {ss ss' : Sessions} {session : String} {msg : ServerMsg}
    (hmsg : msg.naming session = true) (hcoord : ss'.coordinator session = ss.coordinator session)
    (hmember : ∀ b, ss.coordinator session = some b → ss'.member session b = ss.member session b)
    (h : Names ss c msg) : Names ss' c msg := by
  cases msg with
  | sessionStart s slot flag members =>
    obtain rfl : s = session := by simpa [ServerMsg.naming] using hmsg
    show flag = true ↔ ss'.coordinator s = some c
    rw [hcoord]
    exact h
  | coordinatorChanged s slot id =>
    obtain rfl : s = session := by simpa [ServerMsg.naming] using hmsg
    obtain ⟨b, m, hb, hm, hslot, hid⟩ := h
    exact ⟨b, m, hcoord.trans hb, (hmember b hb).trans hm, hslot, hid⟩
  | _ => trivial

theorem Told.congr {w' : Worker} {session : String} (hlog : w'.log = w.log)
    (hcoord : w'.sessions.coordinator session = w.sessions.coordinator session)
    (hmember : ∀ b, w.sessions.coordinator session = some b →
      w'.sessions.member session b = w.sessions.member session b)
    (h : Told w c session) : Told w' c session := by
  obtain ⟨a, ha, htold⟩ := h
  refine ⟨a, by rw [hlog, ha], htold.imp_right fun hsent => ⟨hsent.1, ?_⟩⟩
  have hnaming := List.find?_some ha
  simp only [Bool.decide_and, Bool.decide_eq_true, Bool.and_eq_true] at hnaming
  exact hsent.2.congr hnaming.2 hcoord hmember

/-! ## The invariant -/

/-- Every connected member of a session has been told its coordinator, but for the pairs in `D`. -/
def Announced (D : ClientId → String → Prop) (w : Worker) : Prop :=
  ∀ c s, c ∈ w.clients → w.sessions.Mem s c → D c s ∨ Told w c s

/-- What operations keep, up to the pairs that have yet to be told: the invariant where no late
announcement has been enqueued so far. -/
structure Telling (k : Nat) (D : ClientId → String → Prop) (w : Worker) : Prop where
  wf : w.sessions.WF
  policy : w.sessionPolicy = .reelect
  card : w.card ≤ k
  announced : Clean w.log → Announced D w

variable {k : Nat} {D D' : ClientId → String → Prop}

theorem Telling.mono (h : Telling k D w) (hD : ∀ c s, c ∈ w.clients → D c s → D' c s) :
    Telling k D' w where
  wf := h.wf
  policy := h.policy
  card := h.card
  announced hclean c s hc hs := (h.announced hclean c s hc hs).imp_left (hD c s hc)

/-- Updates of the tables that leave the sessions alone and add no client. -/
theorem Telling.congr {w' : Worker} (h : Telling k D w) (hlog : w'.log = w.log)
    (hsessions : w'.sessions = w.sessions) (hpolicy : w'.sessionPolicy = w.sessionPolicy)
    (hcard : w'.card ≤ w.card) (hclients : ∀ c, c ∈ w'.clients → c ∈ w.clients) :
    Telling k D w' where
  wf := by rw [hsessions]; exact h.wf
  policy := hpolicy.trans h.policy
  card := hcard.trans h.card
  announced hclean c s hc hs := by
    rw [hlog] at hclean
    rw [hsessions] at hs
    refine (h.announced hclean c s (hclients c hc) hs).imp_right (Told.congr hlog ?_ fun b _ => ?_)
    · rw [hsessions]
    · rw [hsessions]

theorem Telling.refreshSessionGauge (h : Telling k D w) : Telling k D w.refreshSessionGauge :=
  h.congr rfl rfl rfl le_rfl fun _ hc => hc

theorem Telling.refreshChannelGauge (h : Telling k D w) : Telling k D w.refreshChannelGauge :=
  h.congr rfl rfl rfl le_rfl fun _ hc => hc

theorem Telling.setPresence (h : Telling k D w) (presence : Presence) :
    Telling k D (w.setPresence presence) :=
  h.congr rfl rfl rfl le_rfl fun _ hc => hc

theorem Clean.of_cons {a : Attempt} {log : List Attempt} (h : Clean (a :: log)) : Clean log :=
  fun b hb => h b (List.mem_cons_of_mem a hb)

/-- A delivery concerns its own receiver, and no other. -/
theorem Telling.record {a : Attempt} (h : Telling k D w) :
    Telling k (fun c s => D c s ∨ c = a.target ∧ a.msg.naming s = true) (w.record a) where
  wf := h.wf
  policy := h.policy
  card := h.card
  announced hclean c s hc hs := by
    by_cases hpair : a.target = c ∧ a.msg.naming s = true
    · exact .inl (.inr ⟨hpair.1.symm, hpair.2⟩)
    · refine (h.announced hclean.of_cons c s hc hs).imp .inl ?_
      rintro ⟨b, hb, htold⟩
      exact ⟨b, (lastNaming_cons_of_not hpair).trans hb, htold⟩

/-- A frame that is shed, or right, settles its pair. -/
theorem Telling.record_told {a : Attempt} {session : String}
    (h : Telling k (fun c s => D c s ∨ c = a.target ∧ s = session) w)
    (hmsg : ∀ s, a.msg.naming s = true ↔ s = session)
    (ha : Clean (a :: w.log) → a.outcome = .dropped ∨ a.outcome = .sent ∧
      Names w.sessions a.target a.msg) : Telling k D (w.record a) where
  wf := h.wf
  policy := h.policy
  card := h.card
  announced hclean c s hc hs := by
    by_cases hpair : c = a.target ∧ s = session
    · obtain ⟨rfl, rfl⟩ := hpair
      exact .inr ⟨a, lastNaming_cons ((hmsg s).2 rfl), ha hclean⟩
    · have hother : ¬ (a.target = c ∧ a.msg.naming s = true) := fun hboth =>
        hpair ⟨hboth.1.symm, (hmsg s).1 hboth.2⟩
      rcases h.announced hclean.of_cons c s hc hs with (hD | hD) | ⟨b, hb, htold⟩
      · exact .inl hD
      · exact absurd hD hpair
      · exact .inr ⟨b, (lastNaming_cons_of_not hother).trans hb, htold⟩

/-! ## Deliveries -/

/-- Reaping a client settles its pairs: it is gone. -/
def ReapTells (k : Nat) (reap : ClientId → Worker → Worker) : Prop :=
  ∀ D id w, Telling k (fun c s => D c s ∨ c = id) w → Telling k D (reap id w)

theorem deliver_quiet (env : Env) (hreap : ReapTells k reap) {msg : ServerMsg} (id : ClientId)
    (late : Bool) (hmsg : ∀ s, msg.naming s = false) (h : Telling k D w) :
    Telling k D (deliver env reap id msg late w) := by
  unfold deliver
  split
  · exact h
  · simp only
    split
    · refine hreap D id _ (h.record.mono fun c s _ hD => ?_)
      exact hD.imp_right fun hpair => hpair.1
    · refine h.record.mono fun c s _ hD => hD.resolve_right fun hpair => ?_
      have hnaming := hpair.2
      rw [hmsg] at hnaming
      cases hnaming

theorem deliverAll_quiet (hreap : ReapTells k reap) {msg : ServerMsg} {targets : List ClientId}
    (hmsg : ∀ s, msg.naming s = false) (h : Telling k D w) :
    Telling k D (deliverAll env reap msg targets w) :=
  foldl_keeps targets (fun _ _ _ hw => deliver_quiet env hreap _ _ hmsg hw) h

/-- The pair that a naming frame is about is settled, if the frame is right whenever it is not
late. -/
theorem deliver_naming (hreap : ReapTells k reap) {msg : ServerMsg} {late : Bool} (session : String)
    (hmsg : ∀ s, msg.naming s = true ↔ s = session)
    (hnames : late = false → Names w.sessions id msg)
    (h : Telling k (fun c s => D c s ∨ c = id ∧ s = session) w) :
    Telling k D (deliver env reap id msg late w) := by
  unfold deliver
  split
  · next hnone =>
    refine h.mono fun c s hc hD => hD.resolve_right ?_
    rintro ⟨rfl, -⟩
    exact AList.lookup_eq_none.1 hnone hc
  · simp only
    generalize houtcome : env.outcome w.log id msg = outcome
    cases outcome with
    | closed =>
      refine hreap D id _ (h.record.mono fun c s _ hD => ?_)
      rcases hD with (hD | hD) | hD
      · exact .inl hD
      · exact .inr hD.1
      · exact .inr hD.1
    | dropped => exact h.record_told (a := ⟨id, msg, .dropped, late⟩) hmsg fun _ => .inl rfl
    | sent =>
      refine h.record_told (a := ⟨id, msg, .sent, late⟩) hmsg fun hclean => .inr ⟨rfl, hnames ?_⟩
      have hhead : ¬ (late = true ∧ Delivery.sent = .sent) := hclean _ (List.mem_cons_self)
      simpa using hhead

/-! ## The coordinator that is being announced -/

/-- Since `base` deliveries had been made, the announced member has been found closed, or it is still
the coordinator, with the record it was elected with. -/
structure Chair (base : Nat) (b : SessionMember) (session : String) (w : Worker) : Prop where
  wf : w.sessions.WF
  base_le : base ≤ w.log.length
  chair : foundClosed base b.clientId w.log = true ∨
    w.sessions.coordinator session = some b.clientId ∧ w.sessions.member session b.clientId = some b

variable {base : Nat} {b : SessionMember} {session : String}

theorem Chair.later {w' : Worker} (h : Chair base b session w) (hw : Later w w')
    (hwf : w'.sessions.WF)
    (hcoord : foundClosed base b.clientId w.log = true ∨
      w'.sessions.coordinator session = w.sessions.coordinator session ∧
      w'.sessions.member session b.clientId = w.sessions.member session b.clientId) :
    Chair base b session w' := by
  obtain ⟨new, hnew⟩ := hw.log
  have hclosed : foundClosed base b.clientId w.log = true →
      foundClosed base b.clientId w'.log = true := by
    rw [hnew]
    exact foundClosed_append new h.base_le
  refine ⟨hwf, ?_, ?_⟩
  · rw [hnew, List.length_append]
    have := h.base_le
    omega
  · rcases h.chair with hfound | ⟨hc, hm⟩
    · exact .inl (hclosed hfound)
    · rcases hcoord with hfound | ⟨hc', hm'⟩
      · exact .inl (hclosed hfound)
      · exact .inr ⟨hc'.trans hc, hm'.trans hm⟩

theorem Chair.congr {w' : Worker} (h : Chair base b session w) (hw : Later w w')
    (hsessions : w'.sessions = w.sessions) : Chair base b session w' :=
  h.later hw (by rw [hsessions]; exact h.wf) (.inr (by rw [hsessions]; exact ⟨rfl, rfl⟩))

/-- A client other than the coordinator leaves. -/
theorem Chair.leave {x : String} (h : Chair base b session w)
    (hid : id ≠ b.clientId ∨ foundClosed base b.clientId w.log = true) :
    Chair base b session (w.setSessions (w.sessions.leave x id w.sessionPolicy).2) := by
  have hlater : Later w (w.setSessions (w.sessions.leave x id w.sessionPolicy).2) :=
    .of_eq rfl rfl rfl rfl rfl
  rcases leave_spec h.wf x id w.sessionPolicy with ⟨heq, -⟩ | ⟨o, ss', heq, hspec, -⟩
  · rw [heq] at hlater ⊢
    exact h.congr hlater rfl
  · rw [heq] at hlater ⊢
    refine h.later hlater hspec.wf ?_
    by_cases hfound : foundClosed base b.clientId w.log = true
    · exact .inl hfound
    · have hne := hid.resolve_right hfound
      obtain ⟨hcoord, hmember⟩ := h.chair.resolve_left hfound
      obtain ⟨hcoord', hmember'⟩ := hspec.keeps hne hcoord
      exact .inr ⟨hcoord'.trans hcoord.symm, hmember' b.clientId hne.symm⟩

/-- The client that leaves is not the announced one, unless that has been found closed. -/
def Chair.Spared (base : Nat) (b : SessionMember) (session : String) (id : ClientId) (w : Worker) :
    Prop :=
  Chair base b session w ∧ (id ≠ b.clientId ∨ foundClosed base b.clientId w.log = true)

theorem Chair.Spared.later {w' : Worker} (h : Chair.Spared base b session id w) (hw : Later w w')
    (hchair : Chair base b session w') : Chair.Spared base b session id w' := by
  obtain ⟨new, hnew⟩ := hw.log
  refine ⟨hchair, h.2.imp_right fun hfound => ?_⟩
  rw [hnew]
  exact foundClosed_append new h.1.base_le hfound

def ReapChairs (base : Nat) (b : SessionMember) (session : String)
    (reap : ClientId → Worker → Worker) : Prop :=
  ∀ id w, Chair.Spared base b session id w → Chair base b session (reap id w)

theorem deliver_chair (env : Env) (hreap : ReapChairs base b session reap) :
    DeliverKeeps env reap (Chair base b session) := by
  refine deliverKeeps (fun w a _ hw => hw.congr (later_record w a) rfl) fun w a hclosed _ hw => ?_
  refine hreap a.target _ ⟨hw.congr (later_record w a) rfl, ?_⟩
  by_cases ha : a.target = b.clientId
  · have hlength : (w.record a).log.length - base = w.log.length - base + 1 := by
      have hbase := hw.base_le
      have hcons : (w.record a).log.length = w.log.length + 1 := rfl
      omega
    right
    unfold foundClosed
    rw [hlength]
    show List.any (List.take _ (a :: w.log)) _ = true
    rw [List.take_succ_cons, List.any_cons, Bool.or_eq_true]
    exact .inl (by simp [ha, hclosed])
  · exact .inl ha

theorem onDisconnect_chair (base : Nat) (b : SessionMember) (session : String) (env : Env)
    (fuel : Nat) : ReapChairs base b session (onDisconnect env fuel) := by
  induction fuel with
  | zero => exact fun id w h => h.1
  | succ fuel ih =>
    intro id w h
    have hkeeps : DeliverKeeps env (onDisconnect env fuel) (Chair.Spared base b session id) :=
      fun c msg late w hw => hw.later (later_deliver env fuel c msg late w)
        (deliver_chair env ih c msg late w hw.1)
    have hdrop : ∀ (w : Worker) c x, Chair.Spared base b session id w →
        Chair.Spared base b session id (w.dropSession c x) := fun w c x hw =>
      have hlater := (later_stable w).dropSession w c x (.refl w)
      hw.later hlater (hw.1.congr hlater sessions_dropSession)
    unfold onDisconnect
    split
    · exact h.1
    · refine reapClient_keeps (P := Chair.Spared base b session id) ?_ ?_ ?_ fun w hw => ?_
      · intro w channel hw
        have hlater : Later w (w.setPresence (w.presence.leave channel id).2) :=
          .of_eq rfl rfl rfl rfl rfl
        exact leaveChannelOf_keeps hkeeps _ _ _ (fun _ => hw.later hlater (hw.1.congr hlater rfl)) hw
      · intro w x hw
        refine leaveSession_keeps hkeeps hdrop (fun w hw => ?_) _ _ (fun hw => ?_) hw
        · have hlater : Later w w.refreshSessionGauge := .of_eq rfl rfl rfl rfl rfl
          exact hw.later hlater (hw.1.congr hlater rfl)
        · exact hdrop _ _ _ (hw.later (.of_eq rfl rfl rfl rfl rfl) (hw.1.leave hw.2))
      · exact h.later (later_eraseClient w id) (h.1.congr (later_eraseClient w id) rfl)
      · exact hw.1.congr (.of_eq rfl rfl rfl rfl rfl) rfl

/-! ## Leaving a session -/

theorem Sessions.WF.exists_coordinator {ss : Sessions} (h : ss.WF) (hmem : ss.Mem session c) :
    ∃ b m, ss.coordinator session = some b ∧ ss.member session b = some m := by
  obtain ⟨m, hm⟩ := hmem
  obtain ⟨s, hs, -⟩ := Option.bind_eq_some_iff.1 hm
  obtain ⟨m', hm'⟩ := Option.isSome_iff_exists.1
    (AList.lookup_isSome.2 (h session s hs).coordinator_mem)
  refine ⟨s.coordinator, m', ?_, ?_⟩
  · unfold Sessions.coordinator
    rw [hs]
    rfl
  · unfold Sessions.member
    rw [hs]
    exact hm'

/-- A session whose coordinator stays: what its other members were told stays right. -/
theorem LeaveSpec.told {ss' : Sessions} {o : LeaveOutcome}
    (hspec : LeaveSpec w.sessions session id o ss') (hnone : o.change = .none)
    (hmem : ss'.Mem session c) (h : Told w c session) :
    Told (w.setSessions ss') c session := by
  have hopen : o.change ≠ .closed := by
    rw [hnone]
    exact CoordinatorChange.noConfusion
  obtain ⟨b, -, hcoord, -⟩ := hspec.wf.exists_coordinator hmem
  obtain ⟨hne, hcoord₀⟩ := (hspec.coordinator_of_none hnone _).1 hcoord
  refine Told.congr (w := w) rfl (hcoord.trans hcoord₀.symm) (fun b' hb' => ?_) h
  obtain rfl := Option.some.inj (hcoord₀.symm.trans hb')
  exact (hspec.member_of_open hopen _).trans (if_neg hne)

/-- After a member has left, those that remain are to be told of the re-election, if there was one. -/
theorem Telling.leave {ss' : Sessions} {o : LeaveOutcome} (h : Telling k D w)
    (hspec : LeaveSpec w.sessions session id o ss') (hopen : o.change ≠ .closed) :
    Telling k (fun c s => D c s ∨ o.change ≠ .none ∧ s = session ∧ c ∈ o.remaining.map (·.clientId))
      ((w.setSessions ss').dropSession id session) := by
  have hmid : Telling k
      (fun c s => D c s ∨ o.change ≠ .none ∧ s = session ∧ c ∈ o.remaining.map (·.clientId))
      (w.setSessions ss') := by
    refine ⟨hspec.wf, h.policy, h.card, fun hclean c s hc hs => ?_⟩
    obtain ⟨hmem, hne⟩ := (hspec.mem_of_open hopen).1 hs
    rcases h.announced hclean c s hc hmem with hD | htold
    · exact .inl (.inl hD)
    · by_cases hsession : s = session
      · subst hsession
        by_cases hchange : o.change = .none
        · exact .inr (hspec.told hchange hs htold)
        · have hremaining := hspec.mem_remaining h.wf hmem fun hcid => hne ⟨hcid, rfl⟩
          exact .inl (.inr ⟨hchange, rfl, hremaining⟩)
      · refine .inr (Told.congr (w := w) rfl ?_ (fun b _ => hspec.member_other hsession) htold)
        unfold Sessions.coordinator Worker.setSessions
        rw [hspec.other s hsession]
  have hlater := (later_stable (w.setSessions ss')).dropSession _ id session (.refl _)
  refine hmid.congr (log_modifyClient _ _ _) sessions_dropSession hlater.policy hlater.card ?_
  intro c hc
  by_contra hnot
  exact hlater.not_mem hnot hc

section LeaveSession

variable (hreap : ReapTells k reap)
  (hchairs : ∀ base b session, ReapChairs base b session reap)

include hreap hchairs

theorem announceAll_telling {left : ServerMsg} (hleft : ∀ s, left.naming s = false)
    (remaining : List SessionMember)
    (h : Telling k (fun c s => D c s ∨ s = session ∧ c ∈ remaining.map (·.clientId)) w)
    (hchair : Chair base b session w) :
    Telling k D (announceAll env reap session left b base remaining w) := by
  let P (rest : List SessionMember) (w : Worker) : Prop :=
    Telling k (fun c s => D c s ∨ s = session ∧ c ∈ rest.map (·.clientId)) w ∧
      Chair base b session w
  unfold announceAll
  refine (foldl_consumes P ?_ remaining ⟨h, hchair⟩).1.mono (by simp)
  rintro m rest w ⟨htelling, hchair⟩
  have htelling := deliver_quiet env hreap m.clientId false hleft htelling
  have hchair := deliver_chair env (hchairs base b session) m.clientId left false w hchair
  simp only
  generalize deliver env reap m.clientId left false w = w at htelling hchair ⊢
  refine ⟨deliver_naming hreap session ?_ ?_ ?_, deliver_chair env (hchairs _ _ _) _ _ _ _ hchair⟩
  · intro s
    simp [ServerMsg.naming, eq_comm]
  · intro hlate
    obtain ⟨hcoord, hmember⟩ := hchair.chair.resolve_left (by rw [hlate]; exact Bool.noConfusion)
    exact ⟨_, _, hcoord, hmember, rfl, rfl⟩
  · refine htelling.mono fun c s _ hD => ?_
    simp only [List.map_cons, List.mem_cons] at hD
    tauto

theorem leaveSession_telling (h : Telling k D w) :
    Telling k D (leaveSession env reap id session w) := by
  unfold leaveSession
  rcases leave_spec h.wf session id w.sessionPolicy with ⟨heq, -⟩ | ⟨o, ss', heq, hspec, hpolicy⟩
  · rw [heq]
    exact h
  · have hopen := hpolicy h.policy
    have hleave := h.leave hspec hopen
    rw [heq]
    simp only
    apply Telling.refreshSessionGauge
    split
    · next hclosed => exact absurd hclosed hopen
    · next b hreelected =>
      refine announceAll_telling hreap hchairs (fun _ => rfl) _ (hleave.mono ?_) ⟨?_, le_rfl, ?_⟩
      · exact fun c s _ hD => hD.imp_right fun hD => hD.2
      · rw [sessions_dropSession]
        exact hspec.wf
      · rw [sessions_dropSession]
        exact .inr (hspec.reelected b hreelected)
    · next hnone =>
      refine deliverAll_quiet hreap (fun _ => rfl) (hleave.mono fun c s _ hD => ?_)
      exact hD.resolve_right fun hD => hD.1 hnone

end LeaveSession

/-! ## Disconnections -/

theorem onDisconnect_telling (env : Env) (k : Nat) : ReapTells k (onDisconnect env k) := by
  induction k with
  | zero =>
    intro D id w h
    refine h.mono fun c s hc _ => ?_
    have hnone := lookup_of_card_zero (Nat.le_zero.1 h.card) c
    exact absurd hc (AList.lookup_eq_none.1 hnone)
  | succ k ih =>
    intro D id w h
    have hchairs := fun base b session => onDisconnect_chair base b session env k
    unfold onDisconnect
    split
    · next hnone =>
      refine h.mono fun c s hc hD => hD.resolve_right ?_
      rintro rfl
      exact AList.lookup_eq_none.1 hnone hc
    · next cs hcs =>
      have hcard := card_eraseClient (AList.lookup_isSome.1 (by rw [hcs]; rfl) : id ∈ w.clients)
      have herased : Telling k D (w.eraseClient id) := by
        refine ⟨h.wf, h.policy, ?_, fun hclean c s hc hs => ?_⟩
        · have hle := h.card
          omega
        · obtain ⟨hne, hc⟩ := AList.mem_erase.1 hc
          exact (h.announced hclean c s hc hs).imp_left fun hD => hD.resolve_right hne
      refine reapClient_keeps (P := Telling k D) (fun w channel hw => ?_) (fun w session hw => ?_)
        herased fun w hw => ?_
      · unfold leaveChannelOf
        simp only
        split
        · exact deliverAll_quiet ih (fun _ => rfl) (hw.setPresence _)
        · exact hw.setPresence _
      · exact leaveSession_telling ih hchairs hw
      · have hclosed : Telling k D w.countClosed.refreshChannelGauge :=
          hw.congr rfl rfl rfl le_rfl fun _ hc => hc
        exact ⟨hclosed.wf, hclosed.policy, hclosed.card.trans (Nat.le_succ k), hclosed.announced⟩

theorem disconnect_telling (env : Env) (k : Nat) : ReapTells k (disconnect env) := by
  intro D id w h
  show Telling k D (onDisconnect env w.card id w)
  rw [onDisconnect_congr env w.card k id w le_rfl h.card]
  exact onDisconnect_telling env k D id w h

theorem disconnect_chair (env : Env) : ReapChairs base b session (disconnect env) :=
  fun id w h => onDisconnect_chair base b session env w.card id w h

/-! ## Commands -/

theorem Telling.modifyClient (h : Telling k D w) (f : ClientState → ClientState) :
    Telling k D (w.modifyClient id f) := by
  refine h.congr (log_modifyClient _ _ _) (sessions_modifyClient _ _ _) ?_
    (card_modifyClient w id f).le fun c hc => ?_
  · unfold Worker.modifyClient
    split <;> rfl
  · rw [← AList.lookup_isSome, lookup_modifyClient] at hc
    rw [← AList.lookup_isSome]
    split at hc
    · next heq =>
      subst heq
      rwa [Option.isSome_map] at hc
    · exact hc

theorem allowJoin_telling (env : Env) (id : ClientId) (now : Nat) (h : Telling k D w) :
    Telling k D (allowJoin env id now w).2 := by
  unfold allowJoin
  split
  · exact h
  · split
    · exact h
    · simp only
      split
      · exact h.modifyClient _
      · exact deliver_quiet env (disconnect_telling env k) _ _ (fun _ => rfl) (h.modifyClient _)

theorem onSubscribe_telling (env : Env) {channel : String} {now : Nat} (h : Telling k D w) :
    Telling k D (onSubscribe env id channel now w) := by
  have hreap := disconnect_telling env k
  unfold onSubscribe
  have hallowed := allowJoin_telling env id now h
  generalize allowJoin env id now w = result at hallowed
  obtain ⟨allowed, w⟩ := result
  simp only at hallowed ⊢
  split
  · exact hallowed
  · split
    · exact hallowed
    · next cs _ =>
      have hjoined : Telling k D ((w.setPresence (w.presence.join channel id cs.principal.id).2).addSubscription
          id channel) := (hallowed.setPresence _).modifyClient _
      apply Telling.refreshChannelGauge
      split
      · exact deliverAll_quiet hreap (fun _ => rfl) (deliver_quiet env hreap _ _ (fun _ => rfl) hjoined)
      · exact deliver_quiet env hreap _ _ (fun _ => rfl) hjoined

theorem onUnsubscribe_telling (env : Env) {channel : String} (h : Telling k D w) :
    Telling k D (onUnsubscribe env id channel w) := by
  have hleft : Telling k D (w.dropSubscription id channel) := h.modifyClient _
  unfold onUnsubscribe leaveChannel
  simp only
  apply Telling.refreshChannelGauge
  split
  · exact deliverAll_quiet (disconnect_telling env k) (fun _ => rfl) (hleft.setPresence _)
  · exact hleft.setPresence _

/-- What the members of a session were told stays right when a client joins. -/
theorem JoinSpec.told {ss' : Sessions} {o : JoinOutcome}
    (hspec : JoinSpec w.sessions session id o ss') (hwf : w.sessions.WF) {s : String}
    (hmem : w.sessions.Mem s c)
    (h : Told w c s) : Told (w.setSessions ss') c s := by
  by_cases hs : s = session
  · subst hs
    obtain ⟨b, m, hcoord, hm⟩ := hwf.exists_coordinator hmem
    refine Told.congr (w := w) rfl ((hspec.coordinator b hcoord).trans hcoord.symm) (fun b' hb' => ?_) h
    obtain rfl := Option.some.inj (hcoord.symm.trans hb')
    by_cases hb : b = id
    · subst hb
      obtain ⟨m', hm', hsame⟩ := hspec.member_self
      exact hm'.trans (by rw [hsame m hm, hm])
    · exact hspec.member_other b hb
  · refine Told.congr (w := w) rfl ?_ (fun b _ => ?_) h
    · unfold Sessions.coordinator Worker.setSessions
      rw [hspec.other s hs]
    · unfold Sessions.member Worker.setSessions
      rw [hspec.other s hs]

/-- The newcomer is to be told. -/
theorem Telling.joinSession (h : Telling k D w) (principalId : String) :
    Telling k (fun c s => D c s ∨ c = id ∧ s = session)
      ((w.setSessions (w.sessions.join session id principalId).2).addSession id session) := by
  have hspec := join_spec h.wf session id principalId
  have hjoined : Telling k (fun c s => D c s ∨ c = id ∧ s = session)
      (w.setSessions (w.sessions.join session id principalId).2) := by
    refine ⟨hspec.wf, h.policy, h.card, fun hclean c s hc hs => ?_⟩
    rcases hspec.mem_iff.1 hs with hmem | hpair
    · exact (h.announced hclean c s hc hmem).imp .inl (hspec.told h.wf hmem)
    · exact .inl (.inr hpair)
  exact hjoined.modifyClient _

theorem onSessionJoin_telling (env : Env) {now : Nat} (h : Telling k D w) :
    Telling k D (onSessionJoin env id session now w) := by
  have hreap := disconnect_telling env k
  unfold onSessionJoin
  have hallowed := allowJoin_telling env id now h
  generalize allowJoin env id now w = result at hallowed
  obtain ⟨allowed, w⟩ := result
  simp only at hallowed ⊢
  split
  · exact hallowed
  · split
    · exact hallowed
    · next cs _ =>
      have hspec := join_spec hallowed.wf session id cs.principal.id
      apply Telling.refreshSessionGauge
      refine deliverAll_quiet hreap (fun _ => rfl) ?_
      refine deliver_naming hreap session ?_ (fun _ => ?_)
        (hallowed.joinSession cs.principal.id)
      · intro s
        simp [ServerMsg.naming, eq_comm]
      · show _ = true ↔ Sessions.coordinator _ session = some id
        rw [Worker.addSession, sessions_modifyClient]
        exact hspec.isCoordinator

theorem handle_telling (env : Env) {command : Command} (h : Telling k D w)
    (hcommand : ∀ id principal now, command ≠ .connect id principal now) :
    Telling k D (handle env w command) := by
  have hreap := disconnect_telling env k
  have hpublished : Telling k D w.countPublished := h.congr rfl rfl rfl le_rfl fun _ hc => hc
  cases command with
  | connect id principal now => exact absurd rfl (hcommand id principal now)
  | subscribe id channel now => exact onSubscribe_telling env h
  | unsubscribe id channel => exact onUnsubscribe_telling env h
  | publish id channel payload => exact deliverAll_quiet hreap (fun _ => rfl) hpublished
  | presence id channel => exact deliver_quiet env hreap _ _ (fun _ => rfl) h
  | sessionJoin id session now => exact onSessionJoin_telling env h
  | sessionLeave id session => exact leaveSession_telling hreap (fun _ _ _ => disconnect_chair env) h
  | toCoordinator id session payload =>
    unfold handle onToCoordinator
    simp only
    split
    · exact deliver_quiet env hreap _ _ (fun _ => rfl) hpublished
    · exact h
  | toMembers id session payload =>
    unfold handle onToMembers
    simp only
    split
    · exact deliver_quiet env hreap _ _ (fun _ => rfl) h
    · exact deliverAll_quiet hreap (fun _ => rfl) hpublished
  | disconnect id => exact hreap D id w (h.mono fun _ _ _ hD => .inl hD)

theorem onConnect_telling {principal : Principal} {now : Nat} (h : Telling k never w)
    (hconsistent : Consistent w) (hfresh : id ∉ w.clients) :
    Telling (k + 1) never (onConnect id principal now w) := by
  refine ⟨h.wf, h.policy, ?_, fun hclean c s hc hs => ?_⟩
  · have hlength : (onConnect id principal now w).card = w.card + 1 :=
      AList.length_insert_of_not_mem hfresh
    have hcard := h.card
    omega
  · have hlists := (hconsistent.mirror.member c s hs).resolve_right fun h => h
    exact h.announced hclean c s hlists.mem hs

/-- No member is in the dark: what holds between commands. -/
structure Attentive (w : Worker) : Prop extends Consistent w where
  telling : ∃ k, Telling k never w
  clean : Clean w.log

theorem attentive_inductive (env : Env) (rate : Option RateLimit) :
    ((system env .reelect rate).restrict fun _ turn =>
      ∀ a ∈ turn.attempts, ¬ a.Misannounced).Inductive Attentive where
  init w hw := by
    obtain rfl : w = .new .reelect rate := hw
    have hconsistent := new_consistent .reelect rate
    refine ⟨hconsistent, ⟨0, hconsistent.mirror.wf, rfl, le_rfl, fun _ c s hc _ => ?_⟩, ?_⟩
    · exact absurd hc (AList.notMem_empty c)
    · intro a ha
      cases ha
  step w turn w' h hstep := by
    obtain ⟨⟨hfresh, rfl, hlog⟩, hclean⟩ := hstep
    obtain ⟨k, hk⟩ := h.telling
    refine ⟨handle_consistent env h.toConsistent hfresh, ?_, ?_⟩
    · by_cases hconnect : ∃ id principal now, turn.command = .connect id principal now
      · obtain ⟨id, principal, now, hcommand⟩ := hconnect
        rw [hcommand] at hfresh ⊢
        exact ⟨k + 1, onConnect_telling hk h.toConsistent hfresh⟩
      · exact ⟨k, handle_telling env hk fun id principal now heq => hconnect ⟨id, principal, now, heq⟩⟩
    · rw [hlog]
      intro a ha
      rcases List.mem_append.1 ha with ha | ha
      · exact hclean a ha
      · exact h.clean a ha

/-- **No stale coordinator announcement.** In every run in which no announcement is enqueued for a
coordinator whose receiver has been found closed since its election, the newest frame naming the
coordinator that was offered to a member was shed, or is enqueued and names the coordinator. -/
theorem coordinator_announced {rate : Option RateLimit}
    (h : ((system env .reelect rate).restrict fun _ turn =>
      ∀ a ∈ turn.attempts, ¬ a.Misannounced).Reachable w)
    {m : SessionMember} (hm : w.sessions.member session c = some m) : Told w c session := by
  have hw := (attentive_inductive env rate).reachable h
  obtain ⟨k, hk⟩ := hw.telling
  have hlists := (hw.mirror.member c session ⟨m, hm⟩).resolve_right id
  exact (hk.announced hw.clean c session hlists.mem ⟨m, hm⟩).resolve_left id

/-! ## Three clients join a session, and its coordinator leaves -/

instance : DecidablePred Attempt.Misannounced := fun a =>
  inferInstanceAs (Decidable (a.late = true ∧ a.outcome = .sent))

instance (log : List Attempt) : Decidable (Clean log) :=
  inferInstanceAs (Decidable (∀ a ∈ log, ¬ a.Misannounced))

instance (w : Worker) (command : Command) : Decidable (command.Fresh w) :=
  match command with
  | .connect id _ _ => inferInstanceAs (Decidable (id ∉ w.clients))
  | .subscribe .. | .unsubscribe .. | .publish .. | .presence .. | .sessionJoin .. | .sessionLeave ..
  | .toCoordinator .. | .toMembers .. | .disconnect .. => isTrue trivial

/-- Each command of the list is fresh when its turn comes. -/
def freshAll (env : Env) : Worker → List Command → Bool
  | _, [] => true
  | w, command :: rest => decide (command.Fresh w) && freshAll env (handle env w command) rest

/-- A list of commands is a run of the hub, whose deliveries are those of the log. -/
theorem reachable_foldl {policy : CoordinatorLeavePolicy} {rate : Option RateLimit}
    {C : Attempt → Prop} (commands : List Command)
    (h : ((system env policy rate).restrict fun _ turn => ∀ a ∈ turn.attempts, C a).Reachable w)
    (hfresh : freshAll env w commands = true) (hC : ∀ a ∈ (commands.foldl (handle env) w).log, C a) :
    ((system env policy rate).restrict fun _ turn => ∀ a ∈ turn.attempts, C a).Reachable
      (commands.foldl (handle env) w) := by
  induction commands generalizing w with
  | nil => exact h
  | cons command rest ih =>
    rw [freshAll, Bool.and_eq_true, decide_eq_true_eq] at hfresh
    obtain ⟨turn, -, hstep⟩ := exists_turn env policy rate hfresh.1
    refine ih (h.step ⟨hstep, fun a ha => ?_⟩) hfresh.2 hC
    have hgrows : Grows (handle env w command) (rest.foldl (handle env) (handle env w command)) :=
      foldl_keeps rest (fun w' next _ hw' => ?_) ⟨[], rfl⟩
    · obtain ⟨new, hnew⟩ := hgrows
      apply hC
      rw [List.foldl_cons, hnew, hstep.2.2]
      exact List.mem_append_right _ (List.mem_append_left _ ha)
    · obtain ⟨new, hnew⟩ := handle_grows env w' next
      obtain ⟨old, hold⟩ := hw'
      exact ⟨new ++ old, by rw [hnew, hold, List.append_assoc]⟩

def departure : List Command :=
  [.connect 1 ⟨"ada"⟩ 0, .connect 2 ⟨"bo"⟩ 0, .connect 3 ⟨"cy"⟩ 0, .sessionJoin 1 "duel" 0,
    .sessionJoin 2 "duel" 0, .sessionJoin 3 "duel" 0, .sessionLeave 1 "duel"]

theorem coordinator_announced_departure :
    Told (departure.foldl (handle .open) (.new .reelect none)) 3 "duel" :=
  coordinator_announced (m := ⟨3, "cy", 2⟩)
    (reachable_foldl departure (.of_init rfl) (by decide) (by decide))
    (by decide)

/-- The receiver of client 2 closes once the six frames of the joins have been delivered. -/
def secondCloses : Env :=
  { Env.open with outcome := fun log id _ => if id = 2 ∧ 6 ≤ log.length then .closed else .sent }

/-- Client 2 is elected and found closed while its election is being announced; client 3 becomes the
coordinator, is told so, and is then told that client 2 is. -/
theorem coordinator_announced_stale :
    ¬ ∀ (env : Env) (rate : Option RateLimit) (w : Worker) (c : ClientId) (session : String)
      (m : SessionMember), (system env .reelect rate).Reachable w →
      w.sessions.member session c = some m → Told w c session := by
  intro hclaim
  have hreach : (system secondCloses .reelect none).Reachable
      (departure.foldl (handle secondCloses) (.new .reelect none)) :=
    (reachable_foldl (C := fun _ => True) departure (.of_init rfl) (by decide)
      fun _ _ => trivial).of_restrict
  obtain ⟨a, ha, htold⟩ := hclaim _ _ _ 3 "duel" ⟨3, "cy", 2⟩ hreach (by decide)
  have hlast : lastNaming (departure.foldl (handle secondCloses) (.new .reelect none)).log 3 "duel" =
      some ⟨3, .coordinatorChanged "duel" 1 "bo", .sent, true⟩ := by
    decide
  obtain rfl := Option.some.inj (hlast.symm.trans ha)
  rcases htold with hshed | ⟨-, b, m, hb, hm, hslot, -⟩
  · cases hshed
  · have hcoord : (departure.foldl (handle secondCloses)
        (.new .reelect none)).sessions.coordinator "duel" = some 3 := by
      decide
    have hmember : (departure.foldl (handle secondCloses)
        (.new .reelect none)).sessions.member "duel" 3 = some ⟨3, "cy", 2⟩ := by
      decide
    obtain rfl := Option.some.inj (hcoord.symm.trans hb)
    obtain rfl := Option.some.inj (hmember.symm.trans hm)
    cases hslot

end Atomo.Hub

import Atomo.Hub.Mirror

/-!
# Consistency of the hub between commands

The three tables mirror each other, the counters balance and the gauges show the sizes of the maps
(`Consistent`). An operation gives up at most the gauge of the map it is changing and refreshes it
at its end; the rest (`Core`) holds whenever it delivers, so that a disconnection in the middle keeps
it.
-/

namespace Atomo.Hub

variable {env : Env} {reap : ClientId → Worker → Worker} {w : Worker} {id c : ClientId}

/-! ## Counters and gauges -/

/-- Every connection opened is closed, open, or one of `d` that are being closed. -/
def Worker.Balanced (d : Nat) (w : Worker) : Prop :=
  w.stats.connectionsOpened = w.stats.connectionsClosed + w.card + d

def Worker.ClientGauge (w : Worker) : Prop :=
  w.stats.activeClients = w.card

def Worker.ChannelGauge (w : Worker) : Prop :=
  w.stats.activeChannels = w.presence.channelCount

def Worker.SessionGauge (w : Worker) : Prop :=
  w.stats.activeSessions = w.sessions.count

theorem stats_record (w : Worker) (a : Attempt) :
    (w.record a).stats.connectionsOpened = w.stats.connectionsOpened ∧
      (w.record a).stats.connectionsClosed = w.stats.connectionsClosed ∧
      (w.record a).stats.activeClients = w.stats.activeClients ∧
      (w.record a).stats.activeChannels = w.stats.activeChannels ∧
      (w.record a).stats.activeSessions = w.stats.activeSessions := by
  unfold Worker.record
  cases a.outcome <;> exact ⟨rfl, rfl, rfl, rfl, rfl⟩

theorem balanced_record {d : Nat} (h : w.Balanced d) (a : Attempt) : (w.record a).Balanced d := by
  obtain ⟨hopened, hclosed, -⟩ := stats_record w a
  unfold Worker.Balanced
  rw [hopened, hclosed]
  exact h

theorem clientGauge_record (h : w.ClientGauge) (a : Attempt) : (w.record a).ClientGauge :=
  (stats_record w a).2.2.1.trans h

theorem channelGauge_record (h : w.ChannelGauge) (a : Attempt) : (w.record a).ChannelGauge :=
  (stats_record w a).2.2.2.1.trans h

theorem sessionGauge_record (h : w.SessionGauge) (a : Attempt) : (w.record a).SessionGauge :=
  (stats_record w a).2.2.2.2.trans h

section ModifyClient

variable {f : ClientState → ClientState}

theorem balanced_modifyClient {d : Nat} (h : w.Balanced d) : (w.modifyClient id f).Balanced d := by
  unfold Worker.Balanced
  rw [stats_modifyClient, card_modifyClient]
  exact h

theorem clientGauge_modifyClient (h : w.ClientGauge) : (w.modifyClient id f).ClientGauge := by
  unfold Worker.ClientGauge
  rw [stats_modifyClient, card_modifyClient]
  exact h

theorem channelGauge_modifyClient (h : w.ChannelGauge) : (w.modifyClient id f).ChannelGauge := by
  unfold Worker.ChannelGauge
  rw [stats_modifyClient, presence_modifyClient]
  exact h

theorem sessionGauge_modifyClient (h : w.SessionGauge) : (w.modifyClient id f).SessionGauge := by
  unfold Worker.SessionGauge
  rw [stats_modifyClient, sessions_modifyClient]
  exact h

end ModifyClient

theorem onDisconnect_balanced (env : Env) (fuel : Nat) {d : Nat} (h : w.Balanced d) :
    (onDisconnect env fuel id w).Balanced d := by
  induction fuel generalizing w id d with
  | zero => exact h
  | succ fuel ih =>
    have hkeeps : ∀ d, DeliverKeeps env (onDisconnect env fuel) (Worker.Balanced d) := fun d =>
      deliverKeeps (fun _ a _ hw => balanced_record hw a) fun _ a _ _ hw => ih (balanced_record hw a)
    unfold onDisconnect
    split
    · exact h
    · next cs hcs =>
      have hcard := card_eraseClient (AList.lookup_isSome.1 (by rw [hcs]; rfl) : id ∈ w.clients)
      have herase : (w.eraseClient id).Balanced (d + 1) := by
        unfold Worker.Balanced at h ⊢
        simp only [Worker.eraseClient] at hcard ⊢
        omega
      refine reapClient_keeps ?_ ?_ herase fun w hw => ?_
      · intro w channel hw
        exact leaveChannelOf_keeps (hkeeps _) _ _ _ (fun h => h) hw
      · intro w session hw
        exact leaveSession_keeps (hkeeps _) (fun _ _ _ h => balanced_modifyClient h) (fun _ h => h)
          _ _ (fun h => balanced_modifyClient (w := w.setSessions _) h) hw
      · unfold Worker.Balanced at hw ⊢
        show w.stats.connectionsOpened = w.stats.connectionsClosed + 1 + w.card + d
        omega

theorem onDisconnect_clientGauge (env : Env) (fuel : Nat) (h : w.ClientGauge) :
    (onDisconnect env fuel id w).ClientGauge := by
  cases fuel with
  | zero => exact h
  | succ fuel =>
    unfold onDisconnect
    split
    · exact h
    · exact rfl

theorem onDisconnect_channelGauge (env : Env) (fuel : Nat) (h : w.ChannelGauge) :
    (onDisconnect env fuel id w).ChannelGauge := by
  cases fuel with
  | zero => exact h
  | succ fuel =>
    unfold onDisconnect
    split
    · exact h
    · exact rfl

theorem leaveSession_sessionGauge {session : String} (h : w.SessionGauge) :
    (leaveSession env reap id session w).SessionGauge := by
  unfold leaveSession
  split
  · exact h
  · exact rfl

theorem onDisconnect_sessionGauge (env : Env) (fuel : Nat) (h : w.SessionGauge) :
    (onDisconnect env fuel id w).SessionGauge := by
  induction fuel generalizing w id with
  | zero => exact h
  | succ fuel ih =>
    have hkeeps : DeliverKeeps env (onDisconnect env fuel) Worker.SessionGauge :=
      deliverKeeps (fun _ a _ hw => sessionGauge_record hw a) fun _ a _ _ hw =>
        ih (sessionGauge_record hw a)
    unfold onDisconnect
    split
    · exact h
    · refine reapClient_keeps (P := Worker.SessionGauge) ?_ ?_ h fun _ hw => hw
      · intro w channel hw
        exact leaveChannelOf_keeps hkeeps _ _ _ (fun h => h) hw
      · intro w session hw
        exact leaveSession_sessionGauge hw

/-! ## The invariant between commands -/

/-- No pair is left to be settled. -/
def never (_ : ClientId) (_ : String) : Prop :=
  False

/-- The part of the invariant that no operation gives up while it delivers. -/
structure Core (w : Worker) : Prop where
  mirror : Mirror never never never w
  balanced : w.Balanced 0
  clientGauge : w.ClientGauge

/-- What holds between two commands. -/
structure Consistent (w : Worker) : Prop extends Core w where
  channelGauge : w.ChannelGauge
  sessionGauge : w.SessionGauge

theorem mirror_deliver (env : Env) (A B E : ClientId → String → Prop) :
    DeliverKeeps env (disconnect env) (Mirror A B E) :=
  deliverKeeps (fun _ a _ h => h.record a) fun _ a _ _ h => onDisconnect_mirror env _ (h.record a)

theorem balanced_deliver (env : Env) : DeliverKeeps env (disconnect env) (Worker.Balanced 0) :=
  deliverKeeps (fun _ a _ h => balanced_record h a) fun _ a _ _ h =>
    onDisconnect_balanced env _ (balanced_record h a)

theorem clientGauge_deliver (env : Env) : DeliverKeeps env (disconnect env) Worker.ClientGauge :=
  deliverKeeps (fun _ a _ h => clientGauge_record h a) fun _ a _ _ h =>
    onDisconnect_clientGauge env _ (clientGauge_record h a)

theorem core_deliver (env : Env) : DeliverKeeps env (disconnect env) Core :=
  fun id msg late w h =>
    ⟨mirror_deliver env _ _ _ id msg late w h.mirror, balanced_deliver env id msg late w h.balanced,
      clientGauge_deliver env id msg late w h.clientGauge⟩

theorem channelGauge_deliver (env : Env) : DeliverKeeps env (disconnect env) Worker.ChannelGauge :=
  deliverKeeps (fun _ a _ h => channelGauge_record h a) fun _ a _ _ h =>
    onDisconnect_channelGauge env _ (channelGauge_record h a)

theorem sessionGauge_deliver (env : Env) : DeliverKeeps env (disconnect env) Worker.SessionGauge :=
  deliverKeeps (fun _ a _ h => sessionGauge_record h a) fun _ a _ _ h =>
    onDisconnect_sessionGauge env _ (sessionGauge_record h a)

theorem consistent_deliver (env : Env) : DeliverKeeps env (disconnect env) Consistent :=
  fun id msg late w h =>
    ⟨core_deliver env id msg late w h.toCore, channelGauge_deliver env id msg late w h.channelGauge,
      sessionGauge_deliver env id msg late w h.sessionGauge⟩

/-! ## Updates that commands make -/

theorem Consistent.setLimiter (h : Consistent w) (limiter : RateLimiter) :
    Consistent (w.modifyClient id fun cs => { cs with joinLimiter := some limiter }) where
  mirror := h.mirror.of_lists (fun _ _ => lists_modifyClient_of_eq fun _ => rfl)
    (fun _ _ => lists_modifyClient_of_eq fun _ => rfl) (presence_modifyClient _ _ _)
    (sessions_modifyClient _ _ _)
  balanced := balanced_modifyClient h.balanced
  clientGauge := clientGauge_modifyClient h.clientGauge
  channelGauge := channelGauge_modifyClient h.channelGauge
  sessionGauge := sessionGauge_modifyClient h.sessionGauge

section Lists

variable (w) (id c) (x : String)

theorem subscriptions_addSubscription (hid : id ∈ w.clients) (channel : String) :
    (w.addSubscription id channel).Lists (·.subscriptions) c x ↔
      w.Lists (·.subscriptions) c x ∨ c = id ∧ x = channel :=
  lists_modifyClient_insert (fun _ _ => List.mem_insert_iff.trans or_comm) hid

theorem sessions_addSubscription (channel : String) :
    (w.addSubscription id channel).Lists (·.sessions) c x ↔ w.Lists (·.sessions) c x :=
  lists_modifyClient_of_eq fun _ => rfl

theorem subscriptions_dropSubscription (channel : String) :
    (w.dropSubscription id channel).Lists (·.subscriptions) c x ↔
      w.Lists (·.subscriptions) c x ∧ ¬ (c = id ∧ x = channel) :=
  lists_modifyClient_remove fun cs y => by simp [List.mem_filter]

theorem sessions_dropSubscription (channel : String) :
    (w.dropSubscription id channel).Lists (·.sessions) c x ↔ w.Lists (·.sessions) c x :=
  lists_modifyClient_of_eq fun _ => rfl

theorem subscriptions_addSession (session : String) :
    (w.addSession id session).Lists (·.subscriptions) c x ↔ w.Lists (·.subscriptions) c x :=
  lists_modifyClient_of_eq fun _ => rfl

theorem sessions_addSession (hid : id ∈ w.clients) (session : String) :
    (w.addSession id session).Lists (·.sessions) c x ↔
      w.Lists (·.sessions) c x ∨ c = id ∧ x = session :=
  lists_modifyClient_insert (fun _ _ => List.mem_insert_iff.trans or_comm) hid

end Lists

/-- A client joins both sides of a channel. -/
theorem Mirror.subscribe {A B E : ClientId → String → Prop} (h : Mirror A B E w)
    (hid : id ∈ w.clients) (channel principalId : String) :
    Mirror A B E
      ((w.setPresence (w.presence.join channel id principalId).2).addSubscription id channel) := by
  have hsubs := fun c x => subscriptions_addSubscription
    (w.setPresence (w.presence.join channel id principalId).2) id c x hid channel
  have hsess := fun c x => sessions_addSubscription
    (w.setPresence (w.presence.join channel id principalId).2) id c x channel
  unfold Worker.addSubscription at hsubs hsess ⊢
  refine ⟨fun c x hx => ?_, fun c x hx => ?_, fun c x hx => ?_, fun c x hx => ?_, ?_, ?_⟩
  · rw [presence_modifyClient]
    refine Presence.mem_join.2 (((hsubs c x).1 hx).imp (h.subscribed c x) fun hx => ?_)
    exact ⟨hx.2, hx.1⟩
  · rw [presence_modifyClient] at hx
    rcases Presence.mem_join.1 hx with hx | ⟨hx, hc⟩
    · exact (h.present c x hx).imp_left fun hx => (hsubs c x).2 (.inl hx)
    · exact .inl ((hsubs c x).2 (.inr ⟨hc, hx⟩))
  · rw [sessions_modifyClient]
    exact h.joined c x ((hsess c x).1 hx)
  · rw [sessions_modifyClient] at hx
    exact (h.member c x hx).imp_left (hsess c x).2
  · rw [presence_modifyClient]
    exact Presence.noEmpty_join h.noEmpty
  · rw [sessions_modifyClient]
    exact h.wf

theorem JoinSpec.mem_iff {ss ss' : Sessions} {name x : String} {o : JoinOutcome}
    (h : JoinSpec ss name id o ss') : ss'.Mem x c ↔ ss.Mem x c ∨ c = id ∧ x = name := by
  unfold Sessions.Mem
  by_cases hx : x = name
  · subst hx
    by_cases hc : c = id
    · subst hc
      obtain ⟨m, hm, -⟩ := h.member_self
      simp [hm]
    · simp [h.member_other c hc, hc]
  · simp [Sessions.member, h.other x hx, hx]

/-- A client joins both sides of a session. -/
theorem Mirror.joinSession {A B E : ClientId → String → Prop} (h : Mirror A B E w)
    (hid : id ∈ w.clients) (session principalId : String) :
    Mirror A B E
      ((w.setSessions (w.sessions.join session id principalId).2).addSession id session) := by
  have hspec := join_spec h.wf session id principalId
  have hsubs := fun c x => subscriptions_addSession
    (w.setSessions (w.sessions.join session id principalId).2) id c x session
  have hsess := fun c x => sessions_addSession
    (w.setSessions (w.sessions.join session id principalId).2) id c x hid session
  unfold Worker.addSession at hsubs hsess ⊢
  refine ⟨fun c x hx => ?_, fun c x hx => ?_, fun c x hx => ?_, fun c x hx => ?_, ?_, ?_⟩
  · rw [presence_modifyClient]
    exact h.subscribed c x ((hsubs c x).1 hx)
  · rw [presence_modifyClient] at hx
    exact (h.present c x hx).imp_left (hsubs c x).2
  · rw [sessions_modifyClient]
    rcases (hsess c x).1 hx with hx | hx
    · exact (h.joined c x hx).imp_left fun hx => hspec.mem_iff.2 (.inl hx)
    · exact .inl (hspec.mem_iff.2 (.inr hx))
  · rw [sessions_modifyClient] at hx
    rcases hspec.mem_iff.1 hx with hx | hx
    · exact (h.member c x hx).imp_left fun hx => (hsess c x).2 (.inl hx)
    · exact .inl ((hsess c x).2 (.inr hx))
  · rw [presence_modifyClient]
    exact h.noEmpty
  · rw [sessions_modifyClient]
    exact hspec.wf

/-- A client leaves both sides of a channel. -/
theorem Mirror.unsubscribe {A B E : ClientId → String → Prop} (h : Mirror A B E w) (id : ClientId)
    (channel : String) :
    Mirror (fun c x => A c x ∨ c = id ∧ x = channel) B E (w.dropSubscription id channel) ∧
      ¬ (w.dropSubscription id channel).Lists (·.subscriptions) id channel := by
  have hsubs := fun c x => subscriptions_dropSubscription w id c x channel
  have hsess := fun c x => sessions_dropSubscription w id c x channel
  unfold Worker.dropSubscription at hsubs hsess ⊢
  refine ⟨⟨fun c x hx => ?_, fun c x hx => ?_, fun c x hx => ?_, fun c x hx => ?_, ?_, ?_⟩, ?_⟩
  · rw [presence_modifyClient]
    exact h.subscribed c x ((hsubs c x).1 hx).1
  · rw [presence_modifyClient] at hx
    by_cases hpair : c = id ∧ x = channel
    · exact .inr (.inr hpair)
    · exact (h.present c x hx).imp (fun hx => (hsubs c x).2 ⟨hx, hpair⟩) .inl
  · rw [sessions_modifyClient]
    exact h.joined c x ((hsess c x).1 hx)
  · rw [sessions_modifyClient] at hx
    exact (h.member c x hx).imp_left (hsess c x).2
  · rw [presence_modifyClient]
    exact h.noEmpty
  · rw [sessions_modifyClient]
    exact h.wf
  · intro hlists
    exact ((hsubs id channel).1 hlists).2 ⟨rfl, rfl⟩

theorem Consistent.subscribe (h : Consistent w) (hid : id ∈ w.clients)
    (channel principalId : String) :
    Core ((w.setPresence (w.presence.join channel id principalId).2).addSubscription id channel) ∧
      ((w.setPresence (w.presence.join channel id principalId).2).addSubscription id
        channel).SessionGauge :=
  ⟨⟨h.mirror.subscribe hid channel principalId,
    balanced_modifyClient (w := w.setPresence _) h.balanced,
    clientGauge_modifyClient (w := w.setPresence _) h.clientGauge⟩,
    sessionGauge_modifyClient (w := w.setPresence _) h.sessionGauge⟩

theorem Consistent.joinSession (h : Consistent w) (hid : id ∈ w.clients)
    (session principalId : String) :
    Core ((w.setSessions (w.sessions.join session id principalId).2).addSession id session) ∧
      ((w.setSessions (w.sessions.join session id principalId).2).addSession id
        session).ChannelGauge :=
  ⟨⟨h.mirror.joinSession hid session principalId,
    balanced_modifyClient (w := w.setSessions _) h.balanced,
    clientGauge_modifyClient (w := w.setSessions _) h.clientGauge⟩,
    channelGauge_modifyClient (w := w.setSessions _) h.channelGauge⟩

theorem Consistent.unsubscribe (h : Consistent w) (id : ClientId) (channel : String) :
    Core ((w.dropSubscription id channel).setPresence
        ((w.dropSubscription id channel).presence.leave channel id).2) ∧
      ((w.dropSubscription id channel).setPresence
        ((w.dropSubscription id channel).presence.leave channel id).2).SessionGauge := by
  obtain ⟨hmirror, hgone⟩ := h.mirror.unsubscribe id channel
  refine ⟨⟨hmirror.leavePresence hgone, ?_, ?_⟩, ?_⟩
  · exact balanced_modifyClient h.balanced
  · exact clientGauge_modifyClient h.clientGauge
  · exact sessionGauge_modifyClient h.sessionGauge

/-! ## Commands -/

theorem onConnect_consistent {principal : Principal} {now : Nat} (h : Consistent w)
    (hfresh : id ∉ w.clients) : Consistent (onConnect id principal now w) := by
  have hlength : (onConnect id principal now w).card = w.card + 1 :=
    AList.length_insert_of_not_mem hfresh
  have hlists : ∀ field c x,
      (∀ cs : ClientState, cs.subscriptions = [] → cs.sessions = [] → field cs = []) →
      ((onConnect id principal now w).Lists field c x ↔ w.Lists field c x) := by
    intro field c x hfield
    unfold Worker.Lists onConnect
    by_cases hc : c = id
    · subst hc
      simp [hfield, AList.lookup_eq_none.2 hfresh]
    · simp [AList.lookup_insert_ne hc]
  refine ⟨⟨?_, ?_, rfl⟩, h.channelGauge, h.sessionGauge⟩
  · exact h.mirror.of_lists (fun c x => hlists _ c x fun cs hsubs _ => hsubs)
      (fun c x => hlists _ c x fun cs _ hsess => hsess) rfl rfl
  · have hbalanced := h.balanced
    unfold Worker.Balanced at hbalanced ⊢
    rw [hlength]
    show w.stats.connectionsOpened + 1 = w.stats.connectionsClosed + (w.card + 1) + 0
    omega

theorem allowJoin_consistent (env : Env) (id : ClientId) (now : Nat) (h : Consistent w) :
    Consistent (allowJoin env id now w).2 := by
  unfold allowJoin
  split
  · exact h
  · split
    · exact h
    · simp only
      split
      · exact h.setLimiter _
      · exact consistent_deliver env _ _ _ _ (h.setLimiter _)

theorem refreshChannelGauge_consistent (h : Core w ∧ w.SessionGauge) :
    Consistent w.refreshChannelGauge :=
  ⟨⟨h.1.mirror.congr rfl rfl rfl, h.1.balanced, h.1.clientGauge⟩, rfl, h.2⟩

theorem refreshSessionGauge_consistent (h : Core w ∧ w.ChannelGauge) :
    Consistent w.refreshSessionGauge :=
  ⟨⟨h.1.mirror.congr rfl rfl rfl, h.1.balanced, h.1.clientGauge⟩, h.2, rfl⟩

theorem onSubscribe_consistent (env : Env) {channel : String} {now : Nat} (h : Consistent w) :
    Consistent (onSubscribe env id channel now w) := by
  unfold onSubscribe
  have hallowed := allowJoin_consistent env id now h
  generalize allowJoin env id now w = result at hallowed
  obtain ⟨allowed, w⟩ := result
  simp only at hallowed ⊢
  split
  · exact hallowed
  · split
    · exact hallowed
    · next cs hcs =>
      have hid : id ∈ w.clients := AList.lookup_isSome.1 (by rw [hcs]; rfl)
      have hkeeps := (core_deliver env).and (sessionGauge_deliver env)
      have hjoined := hallowed.subscribe hid channel cs.principal.id
      apply refreshChannelGauge_consistent
      split
      · exact broadcastExcept_keeps hkeeps _ _ _ (hkeeps _ _ _ _ hjoined)
      · exact hkeeps _ _ _ _ hjoined

theorem onUnsubscribe_consistent (env : Env) {channel : String} (h : Consistent w) :
    Consistent (onUnsubscribe env id channel w) := by
  unfold onUnsubscribe leaveChannel
  simp only
  have hleft := h.unsubscribe id channel
  apply refreshChannelGauge_consistent
  split
  · exact broadcastExcept_keeps ((core_deliver env).and (sessionGauge_deliver env)) _ _ _ hleft
  · exact hleft

theorem onSessionJoin_consistent (env : Env) {session : String} {now : Nat} (h : Consistent w) :
    Consistent (onSessionJoin env id session now w) := by
  unfold onSessionJoin
  have hallowed := allowJoin_consistent env id now h
  generalize allowJoin env id now w = result at hallowed
  obtain ⟨allowed, w⟩ := result
  simp only at hallowed ⊢
  split
  · exact hallowed
  · split
    · exact hallowed
    · next cs hcs =>
      have hid : id ∈ w.clients := AList.lookup_isSome.1 (by rw [hcs]; rfl)
      have hkeeps := (core_deliver env).and (channelGauge_deliver env)
      exact refreshSessionGauge_consistent (deliverAll_keeps hkeeps _ _
        (hkeeps _ _ _ _ (hallowed.joinSession hid session cs.principal.id)))

theorem leaveSession_consistent (env : Env) {session : String} (h : Consistent w) :
    Consistent (leaveSession env (disconnect env) id session w) where
  mirror := leaveSession_mirror (mirror_deliver env) (keepsStable_disconnect env)
    (h.mirror.mono (fun _ _ h => h) (fun _ _ h => .inl h) fun _ _ h => h)
  balanced := leaveSession_keeps (balanced_deliver env) (fun _ _ _ h => balanced_modifyClient h)
    (fun _ h => h) id session (fun h => balanced_modifyClient (w := w.setSessions _) h) h.balanced
  clientGauge := leaveSession_keeps (clientGauge_deliver env)
    (fun _ _ _ h => clientGauge_modifyClient h) (fun _ h => h) id session
    (fun h => clientGauge_modifyClient (w := w.setSessions _) h) h.clientGauge
  channelGauge := leaveSession_keeps (channelGauge_deliver env)
    (fun _ _ _ h => channelGauge_modifyClient h) (fun _ h => h) id session
    (fun h => channelGauge_modifyClient (w := w.setSessions _) h) h.channelGauge
  sessionGauge := leaveSession_sessionGauge h.sessionGauge

theorem Consistent.countPublished (h : Consistent w) : Consistent w.countPublished :=
  ⟨⟨h.mirror.congr rfl rfl rfl, h.balanced, h.clientGauge⟩, h.channelGauge, h.sessionGauge⟩

theorem disconnect_consistent (env : Env) (h : Consistent w) : Consistent (disconnect env id w) :=
  ⟨⟨onDisconnect_mirror env _ h.mirror, onDisconnect_balanced env _ h.balanced,
    onDisconnect_clientGauge env _ h.clientGauge⟩, onDisconnect_channelGauge env _ h.channelGauge,
    onDisconnect_sessionGauge env _ h.sessionGauge⟩

theorem handle_consistent (env : Env) {command : Command} (h : Consistent w)
    (hfresh : command.Fresh w) : Consistent (handle env w command) := by
  cases command with
  | connect id principal now => exact onConnect_consistent h hfresh
  | subscribe id channel now => exact onSubscribe_consistent env h
  | unsubscribe id channel => exact onUnsubscribe_consistent env h
  | publish id channel payload =>
    exact deliverAll_keeps (consistent_deliver env) _ _ h.countPublished
  | presence id channel => exact consistent_deliver env _ _ _ _ h
  | sessionJoin id session now => exact onSessionJoin_consistent env h
  | sessionLeave id session => exact leaveSession_consistent env h
  | toCoordinator id session payload =>
    unfold handle onToCoordinator
    simp only
    split
    · exact consistent_deliver env _ _ _ _ h.countPublished
    · exact h
  | toMembers id session payload =>
    unfold handle onToMembers
    simp only
    split
    · exact consistent_deliver env _ _ _ _ h
    · exact deliverAll_keeps (consistent_deliver env) _ _ h.countPublished
  | disconnect id => exact disconnect_consistent env h

/-- The deliveries made since `v`. -/
def Grows (v w : Worker) : Prop :=
  ∃ new, w.log = new ++ v.log

theorem grows_deliver (env : Env) (v : Worker) : DeliverKeeps env (disconnect env) (Grows v) := by
  refine keepsStable_disconnect env _ (.of_later fun w w' hw hgrows => ?_)
  obtain ⟨new, hnew⟩ := hw.log
  obtain ⟨old, hold⟩ := hgrows
  exact ⟨new ++ old, by rw [hnew, hold, List.append_assoc]⟩

theorem Grows.of_log {v w' : Worker} (h : Grows v w) (hlog : w'.log = w.log) : Grows v w' := by
  obtain ⟨new, hnew⟩ := h
  exact ⟨new, hlog.trans hnew⟩

/-! ## What commands keep -/

/-- `P` is kept by every delivery, and by the updates other than of memberships that commands make. -/
structure Routine (env : Env) (P : Worker → Prop) : Prop where
  deliver : DeliverKeeps env (disconnect env) P
  limit : ∀ w id limiter,
    P w → P (w.modifyClient id fun cs => { cs with joinLimiter := some limiter })
  dropSession : ∀ w id session, P w → P (w.dropSession id session)
  countPublished : ∀ w : Worker, P w → P w.countPublished
  refreshChannelGauge : ∀ w : Worker, P w → P w.refreshChannelGauge
  refreshSessionGauge : ∀ w : Worker, P w → P w.refreshSessionGauge

/-- `P` is kept by every delivery, and by the updates other than of memberships and limiters that commands make. -/
structure Regular (env : Env) (P : Worker → Prop) : Prop where
  deliver : DeliverKeeps env (disconnect env) P
  dropSession : ∀ w id session, P w → P (w.dropSession id session)
  countPublished : ∀ w : Worker, P w → P w.countPublished
  refreshChannelGauge : ∀ w : Worker, P w → P w.refreshChannelGauge
  refreshSessionGauge : ∀ w : Worker, P w → P w.refreshSessionGauge

/-- The client and the instant of a command that the throttle is asked for. -/
def Command.joins : Command → Option (ClientId × Nat)
  | .subscribe id _ now => some (id, now)
  | .sessionJoin id _ now => some (id, now)
  | _ => none

/-- `P` is kept by the change of memberships that the command, taken in `v`, makes itself. -/
def Command.Keeps (env : Env) (P : Worker → Prop) (v : Worker) : Command → Prop
  | .connect id principal now => P v → P (onConnect id principal now v)
  | .subscribe id channel _ => ∀ w who,
      P w → P ((w.setPresence (w.presence.join channel id who).2).addSubscription id channel)
  | .unsubscribe id channel => ∀ w, P w → P ((w.dropSubscription id channel).setPresence
      ((w.dropSubscription id channel).presence.leave channel id).2)
  | .sessionJoin id session _ => ∀ w who,
      P w → P ((w.setSessions (w.sessions.join session id who).2).addSession id session)
  | .sessionLeave id session => ∀ w, P w → P (w.leftSession id session)
  | .disconnect id => ∀ w, P w → P (Hub.disconnect env id w)
  | _ => True

section Keeps

variable {P : Worker → Prop}

theorem Routine.regular (h : Routine env P) : Regular env P where
  deliver := h.deliver
  dropSession := h.dropSession
  countPublished := h.countPublished
  refreshChannelGauge := h.refreshChannelGauge
  refreshSessionGauge := h.refreshSessionGauge

theorem allowJoin_keeps (h : Routine env P) (id : ClientId) (now : Nat) (hw : P w) : P (allowJoin env id now w).2 := by
  unfold allowJoin
  split
  · exact hw
  · split
    · exact hw
    · simp only
      split
      · exact h.limit _ _ _ hw
      · exact h.deliver _ _ _ _ (h.limit _ _ _ hw)

theorem onSubscribe_keeps (h : Regular env P) {channel : String} {now : Nat}
    (hjoin : (Command.subscribe id channel now).Keeps env P w) (hallowed : P (allowJoin env id now w).2) :
    P (onSubscribe env id channel now w) := by
  unfold onSubscribe
  generalize allowJoin env id now w = result at hallowed
  obtain ⟨allowed, w⟩ := result
  simp only at hallowed ⊢
  split
  · exact hallowed
  · split
    · exact hallowed
    · next cs _ =>
      have hdelivered := h.deliver id
        (.presence channel (Presence.snapshot (w.presence.join channel id cs.principal.id).2 channel))
        false _ (hjoin w cs.principal.id hallowed)
      rw [Worker.addSubscription, presence_modifyClient]
      apply h.refreshChannelGauge
      split
      · exact broadcastExcept_keeps h.deliver _ _ _ hdelivered
      · exact hdelivered

theorem onSessionJoin_keeps (h : Regular env P) {session : String} {now : Nat}
    (hjoin : (Command.sessionJoin id session now).Keeps env P w) (hallowed : P (allowJoin env id now w).2) :
    P (onSessionJoin env id session now w) := by
  unfold onSessionJoin
  generalize allowJoin env id now w = result at hallowed
  obtain ⟨allowed, w⟩ := result
  simp only at hallowed ⊢
  split
  · exact hallowed
  · split
    · exact hallowed
    · apply h.refreshSessionGauge
      exact deliverAll_keeps h.deliver _ _ (h.deliver _ _ _ _ (hjoin w _ hallowed))

/-- A command keeps what its own change of memberships keeps, and what the throttle keeps if it asks it. -/
theorem handle_keeps_of (h : Regular env P) {command : Command} (hkeeps : command.Keeps env P w)
    (hallowed : ∀ id now, command.joins = some (id, now) → P (allowJoin env id now w).2) (hw : P w) :
    P (handle env w command) := by
  cases command with
  | connect id principal now => exact hkeeps hw
  | subscribe id channel now => exact onSubscribe_keeps h hkeeps (hallowed id now rfl)
  | unsubscribe id channel =>
    have hleft := hkeeps w hw
    unfold handle onUnsubscribe leaveChannel
    simp only
    apply h.refreshChannelGauge
    split
    · exact broadcastExcept_keeps h.deliver _ _ _ hleft
    · exact hleft
  | publish id channel payload => exact deliverAll_keeps h.deliver _ _ (h.countPublished w hw)
  | presence id channel => exact h.deliver _ _ _ _ hw
  | sessionJoin id session now => exact onSessionJoin_keeps h hkeeps (hallowed id now rfl)
  | sessionLeave id session =>
    exact leaveSession_keeps h.deliver h.dropSession h.refreshSessionGauge _ _ (hkeeps w) hw
  | toCoordinator id session payload =>
    unfold handle onToCoordinator
    simp only
    split
    · exact h.deliver _ _ _ _ (h.countPublished w hw)
    · exact hw
  | toMembers id session payload =>
    unfold handle onToMembers
    simp only
    split
    · exact h.deliver _ _ _ _ hw
    · exact deliverAll_keeps h.deliver _ _ (h.countPublished w hw)
  | disconnect id => exact hkeeps w hw

/-- A command keeps what its own change of memberships keeps. -/
theorem handle_keeps (h : Routine env P) {command : Command} (hkeeps : command.Keeps env P w) (hw : P w) :
    P (handle env w command) :=
  handle_keeps_of h.regular hkeeps (fun id now _ => allowJoin_keeps h id now hw) hw

end Keeps

theorem grows_routine (env : Env) (v : Worker) : Routine env (Grows v) where
  deliver := grows_deliver env v
  limit _ _ _ h := h.of_log (log_modifyClient _ _ _)
  dropSession _ _ _ h := h.of_log (log_modifyClient _ _ _)
  countPublished _ h := h.of_log rfl
  refreshChannelGauge _ h := h.of_log rfl
  refreshSessionGauge _ h := h.of_log rfl

/-- A command adds its deliveries to the log, and changes nothing of what is there. -/
theorem handle_grows (env : Env) (w : Worker) (command : Command) :
    Grows w (handle env w command) := by
  refine handle_keeps (grows_routine env w) ?_ ⟨[], rfl⟩
  cases command with
  | connect id principal now => exact fun h => h.of_log rfl
  | subscribe id channel now => exact fun _ _ h => h.of_log (log_modifyClient _ _ _)
  | unsubscribe id channel => exact fun _ h => h.of_log (log_modifyClient _ _ _)
  | sessionJoin id session now => exact fun _ _ h => h.of_log (log_modifyClient _ _ _)
  | sessionLeave id session => exact fun _ h => h.of_log (log_modifyClient _ _ _)
  | disconnect id =>
    intro u h
    obtain ⟨new, hnew⟩ := (later_onDisconnect env u.card id u).log
    obtain ⟨old, hold⟩ := h
    refine ⟨new ++ old, ?_⟩
    rw [List.append_assoc, ← hold]
    exact hnew
  | _ => trivial

/-- Every command can be taken, in every state in which its id is fresh. -/
theorem exists_turn (env : Env) (policy : CoordinatorLeavePolicy) (rate : Option RateLimit)
    {command : Command} (hfresh : command.Fresh w) :
    ∃ turn : Turn, turn.command = command ∧
      (system env policy rate).step w turn (handle env w command) := by
  obtain ⟨new, hnew⟩ := handle_grows env w command
  exact ⟨⟨command, new⟩, rfl, hfresh, rfl, hnew⟩

theorem new_consistent (policy : CoordinatorLeavePolicy) (rate : Option RateLimit) :
    Consistent (Worker.new policy rate) := by
  have hlists : ∀ field c x, ¬ (Worker.new policy rate).Lists field c x := by
    rintro field c x ⟨cs, hcs, -⟩
    simp [Worker.new] at hcs
  refine ⟨⟨⟨?_, ?_, ?_, ?_, ?_, ?_⟩, rfl, rfl⟩, rfl, rfl⟩
  · exact fun c x hx => absurd hx (hlists _ c x)
  · exact fun c x hx => absurd hx Presence.not_mem_empty
  · exact fun c x hx => absurd hx (hlists _ c x)
  · rintro c x ⟨m, hm⟩
    simp [Sessions.member, Worker.new, Sessions.empty] at hm
  · intro x ms hms
    simp [Worker.new, Presence.empty] at hms
  · intro x s hs
    simp [Worker.new, Sessions.empty] at hs

theorem consistent_inductive (env : Env) (policy : CoordinatorLeavePolicy)
    (rate : Option RateLimit) : (system env policy rate).Inductive Consistent where
  init w hw := by
    subst hw
    exact new_consistent policy rate
  step w turn w' h hstep := by
    obtain ⟨hfresh, rfl, -⟩ := hstep
    exact handle_consistent env h hfresh

/-- **The hub's cross-map invariant.** After every command a client is in a channel, or a member of a
session, exactly when its record says so; no channel and no session is empty; and the counters and
gauges tell the sizes. -/
theorem tables_consistent {policy : CoordinatorLeavePolicy} {rate : Option RateLimit}
    (h : (system env policy rate).Reachable w) :
    (∀ c ch, c ∈ w.presence.members ch ↔
      ∃ cs, w.clients.lookup c = some cs ∧ ch ∈ cs.subscriptions) ∧
    (∀ c s, (∃ m, w.sessions.member s c = some m) ↔
      ∃ cs, w.clients.lookup c = some cs ∧ s ∈ cs.sessions) ∧
    (∀ ch members, w.presence.channels.lookup ch = some members → ∃ c, c ∈ members) ∧
    (∀ s session, w.sessions.map.lookup s = some session → ∃ c, c ∈ session.members) ∧
    w.stats.activeClients = w.clients.entries.length ∧
    w.stats.connectionsOpened = w.stats.connectionsClosed + w.stats.activeClients ∧
    w.stats.activeChannels = w.presence.channelCount ∧
    w.stats.activeSessions = w.sessions.count := by
  have hw := (consistent_inductive env policy rate).reachable h
  refine ⟨fun c ch => ⟨fun hc => ?_, hw.mirror.subscribed c ch⟩, fun c s => ⟨fun hc => ?_, fun hc => ?_⟩,
    hw.mirror.noEmpty, fun s session hs => ⟨_, (hw.mirror.wf s session hs).coordinator_mem⟩,
    hw.clientGauge, ?_, hw.channelGauge, hw.sessionGauge⟩
  · exact (hw.mirror.present c ch hc).resolve_right id
  · exact (hw.mirror.member c s hc).resolve_right id
  · exact (hw.mirror.joined c s hc).resolve_right id
  · have hbalanced := hw.balanced
    rw [hw.clientGauge]
    exact hbalanced

/-- Every queue has room, and the maps are iterated in their own order. -/
def Env.open : Env where
  outcome _ _ _ := .sent
  iterClients _ l := l
  iterNames _ l := l
  iterClients_perm _ _ := .refl _
  iterNames_perm _ _ := .refl _

/-- The hub with one client, who has subscribed to a channel. -/
def oneSubscriber : Worker :=
  handle .open (handle .open (.new .reelect none) (.connect 1 ⟨"ada"⟩ 0)) (.subscribe 1 "lobby" 0)

theorem tables_consistent_oneSubscriber :
    (system .open .reelect none).Reachable oneSubscriber ∧ 1 ∈ oneSubscriber.presence.members "lobby" := by
  have hfresh : (1 : ClientId) ∉ (Worker.new .reelect none).clients := AList.notMem_empty 1
  obtain ⟨_, -, hconnect⟩ := exists_turn .open .reelect none
    (show (Command.connect 1 ⟨"ada"⟩ 0).Fresh (.new .reelect none) from hfresh)
  obtain ⟨_, -, hsubscribe⟩ := exists_turn .open .reelect none
    (show (Command.subscribe 1 "lobby" 0).Fresh (handle .open _ (.connect 1 ⟨"ada"⟩ 0)) from trivial)
  have h : (system .open .reelect none).Reachable oneSubscriber :=
    ((LabelledSystem.Reachable.of_init rfl).step hconnect).step hsubscribe
  exact ⟨h, ((tables_consistent h).1 1 "lobby").2 ⟨_, rfl, by decide⟩⟩

end Atomo.Hub

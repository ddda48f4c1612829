import Atomo.Hub.Coordinator
import Atomo.Hub.Departures

/-!
# Relayed payloads

Who is enqueued the payload of a client: a publication, a frame for the coordinator of a session or one for its
members. The recipients are read off before the first delivery, and a delivery that finds its receiver closed may
change the very channel or session in the middle. A publication goes to subscribers only and a frame for the
coordinator to the coordinator only, whatever is reaped. A frame for the members goes on to them when the sender has
been found closed, and lost its session, in between (`confidential_iff`).
-/

namespace Atomo.Hub

variable (env : Env)

/-! ## The moments of a relay -/

/-- The deliveries of a loop over targets that find their target connected, each with the worker that it is made
in. -/
def moments (msg : ServerMsg) : List ClientId → Worker → List (Worker × Attempt)
  | [], _ => []
  | target :: targets, w =>
    let rest := moments msg targets (deliver env (disconnect env) target msg false w)
    match w.clients.lookup target with
    | none => rest
    | some _ => (w, ⟨target, msg, env.outcome w.log target msg, false⟩) :: rest

/-- The deliveries of a client's payload that a command makes. -/
def relays (w : Worker) : Command → List (Worker × Attempt)
  | .publish id channel payload =>
    moments env (.message channel ((w.clients.lookup id).map (·.principal.id)) payload)
      ((env.iterClients w.log (w.presence.subscribers channel)).filter (· ≠ id)) w.countPublished
  | .toCoordinator id session payload =>
    match w.sessions.member session id, w.sessions.coordinator session with
    | some sender, some coordinator =>
      moments env (.fromMember session sender.principalId sender.slot payload) [coordinator] w.countPublished
    | _, _ => []
  | .toMembers id session payload =>
    if w.sessions.isCoordinator session id then
      moments env (.fromCoordinator session payload)
        (((w.sessions.roster session).filter (·.clientId ≠ id)).map (·.clientId)) w.countPublished
    else []
  | _ => []

/-- The frames that carry the payload of a client. -/
def ServerMsg.isRelay : ServerMsg → Bool
  | .message _ _ _ | .fromMember _ _ _ _ | .fromCoordinator _ _ => true
  | _ => false

/-- What the worker `v`, in which a payload is delivered for a command, has to say to it: the recipient of a
publication subscribes to the channel; that of a frame for the coordinator is the coordinator, and the frame tells the
slot and the principal of the sender, a member; that of a frame for the members is a member and the sender the
coordinator. -/
def Allowed (v : Worker) (command : Command) (a : Attempt) : Prop :=
  match command with
  | .publish id channel payload =>
    (∃ sender, a.msg = .message channel sender payload) ∧ a.target ≠ id ∧ v.presence.Mem channel a.target
  | .toCoordinator id session payload =>
    v.sessions.coordinator session = some a.target ∧
      ∃ m, v.sessions.member session id = some m ∧ a.msg = .fromMember session m.principalId m.slot payload
  | .toMembers id session payload =>
    a.msg = .fromCoordinator session payload ∧ a.target ≠ id ∧ v.sessions.Mem session a.target ∧
      v.sessions.coordinator session = some id
  | _ => False

/-- Each payload that is enqueued is allowed, by the worker at that moment. -/
def Confidential (w : Worker) (turn : Turn) : Prop :=
  ∀ later a earlier, turn.attempts = later ++ a :: earlier → a.outcome = .sent → a.msg.isRelay = true →
    ∃ v, (v, a) ∈ relays env w turn.command ∧ v.log = earlier ++ w.log ∧ Allowed v turn.command a

/-- No frame for the members is enqueued once a delivery of the turn has found the receiver of its sender closed. -/
def SenderOpen (turn : Turn) : Prop :=
  match turn.command with
  | .toMembers id _ _ =>
    ∀ later a earlier, turn.attempts = later ++ a :: earlier → a.outcome = .sent → a.msg.isRelay = true →
      ∀ b ∈ earlier, b.target = id → b.outcome ≠ .closed
  | _ => True

/-! ## Where payloads come from -/

section

variable {env} {u w : Worker} {msg : ServerMsg} {a : Attempt}

/-- Since `u` no payload has been delivered. -/
def NoRelay (u w : Worker) : Prop :=
  ∃ new, w.log = new ++ u.log ∧ ∀ b ∈ new, b.msg.isRelay = false

theorem NoRelay.refl (w : Worker) : NoRelay w w :=
  ⟨[], rfl, nofun⟩

theorem NoRelay.of_log {w' : Worker} (h : NoRelay u w) (hlog : w'.log = w.log) : NoRelay u w' := by
  obtain ⟨new, hnew, hrelay⟩ := h
  exact ⟨new, hlog.trans hnew, hrelay⟩

theorem NoRelay.record (h : NoRelay u w) (ha : a.msg.isRelay = false) : NoRelay u (w.record a) := by
  obtain ⟨new, hnew, hrelay⟩ := h
  refine ⟨a :: new, congrArg (a :: ·) hnew, fun b hb => ?_⟩
  cases hb with
  | head => exact ha
  | tail _ hb => exact hrelay b hb

/-- Disconnections deliver no payload. -/
theorem steady_noRelay (u : Worker) : Steady (NoRelay u) where
  record w a hdeparting h := by
    refine h.record ?_
    cases hmsg : a.msg <;> rw [hmsg] at hdeparting <;> first | rfl | cases hdeparting
  eraseClient _ _ h := h.of_log rfl
  dropSession _ _ _ h := h.of_log (log_modifyClient _ _ _)
  leavePresence _ _ _ h := h.of_log rfl
  leaveSessions _ _ _ h := h.of_log rfl
  countClosed _ h := h.of_log rfl
  refreshChannelGauge _ h := h.of_log rfl
  refreshSessionGauge _ h := h.of_log rfl

theorem noRelay_deliver (env : Env) (u : Worker) :
    DeliverKeepsFor env (disconnect env) (fun msg => msg.isRelay = false) (NoRelay u) :=
  deliverKeepsFor (fun _ _ hmsg h => h.record hmsg) fun id _ h => (steady_noRelay u).disconnect id h

theorem noRelay_allowJoin (h : NoRelay u w) (id : ClientId) (now : Nat) : NoRelay u (allowJoin env id now w).2 := by
  unfold allowJoin
  split
  · exact h
  · split
    · exact h
    · dsimp only
      have hlimited : ∀ f, NoRelay u (w.modifyClient id f) := fun f => h.of_log (log_modifyClient _ _ _)
      split
      · exact hlimited _
      · exact noRelay_deliver env u id _ false _ rfl (hlimited _)

theorem noRelay_deliverAll {targets : List ClientId} (hmsg : msg.isRelay = false) (h : NoRelay u w) :
    NoRelay u (deliverAll env (disconnect env) msg targets w) :=
  deliverAll_keepsFor (noRelay_deliver env u) hmsg targets h

theorem noRelay_onSubscribe (h : NoRelay u w) (id : ClientId) (channel : String) (now : Nat) :
    NoRelay u (onSubscribe env id channel now w) := by
  unfold onSubscribe
  have hallowed : NoRelay u (allowJoin env id now w).2 := noRelay_allowJoin h id now
  generalize allowJoin env id now w = result at hallowed
  obtain ⟨allowed, w⟩ := result
  simp only at hallowed ⊢
  split
  · exact hallowed
  · split
    · exact hallowed
    · next cs _ =>
      have hjoined : NoRelay u
          ((w.setPresence (w.presence.join channel id cs.principal.id).2).addSubscription id channel) :=
        hallowed.of_log (log_modifyClient _ _ _)
      have hdelivered := fun msg hmsg => noRelay_deliver env u id msg false _ hmsg hjoined
      refine NoRelay.of_log ?_ rfl
      split
      · exact noRelay_deliverAll rfl (hdelivered _ rfl)
      · exact hdelivered _ rfl

theorem noRelay_onSessionJoin (h : NoRelay u w) (id : ClientId) (session : String) (now : Nat) :
    NoRelay u (onSessionJoin env id session now w) := by
  unfold onSessionJoin
  have hallowed : NoRelay u (allowJoin env id now w).2 := noRelay_allowJoin h id now
  generalize allowJoin env id now w = result at hallowed
  obtain ⟨allowed, w⟩ := result
  simp only at hallowed ⊢
  split
  · exact hallowed
  · split
    · exact hallowed
    · next cs _ =>
      have hjoined : NoRelay u
          ((w.setSessions (w.sessions.join session id cs.principal.id).2).addSession id session) :=
        hallowed.of_log (log_modifyClient _ _ _)
      refine NoRelay.of_log (noRelay_deliverAll rfl ?_) rfl
      exact noRelay_deliver env u id _ false _ rfl hjoined

/-- Only the commands of a payload deliver one. -/
theorem noRelay_handle (env : Env) (w : Worker) {command : Command}
    (hpublish : ∀ id channel payload, command ≠ .publish id channel payload)
    (hcoordinator : ∀ id session payload, command ≠ .toCoordinator id session payload)
    (hmembers : ∀ id session payload, command ≠ .toMembers id session payload) :
    NoRelay w (handle env w command) := by
  have hkeeps := noRelay_deliver env w
  have hrefl := NoRelay.refl w
  cases command with
  | connect id principal now => exact hrefl.of_log rfl
  | subscribe id channel now => exact noRelay_onSubscribe hrefl id channel now
  | unsubscribe id channel =>
    unfold handle onUnsubscribe leaveChannel
    refine NoRelay.of_log ?_ rfl
    have hleft : NoRelay w ((w.dropSubscription id channel).setPresence
        ((w.dropSubscription id channel).presence.leave channel id).2) := hrefl.of_log (log_modifyClient _ _ _)
    dsimp only
    split
    · exact noRelay_deliverAll rfl hleft
    · exact hleft
  | publish id channel payload => exact absurd rfl (hpublish id channel payload)
  | presence id channel => exact hkeeps id _ false w rfl hrefl
  | sessionJoin id session now => exact noRelay_onSessionJoin hrefl id session now
  | sessionLeave id session =>
    refine leaveSession_keepsFor (hkeeps.mono fun msg hmsg => ?_) ?_ ?_ id session (fun h => ?_) hrefl
    · cases msg <;> first | rfl | cases hmsg
    · exact fun v c x h => h.of_log (log_modifyClient _ _ _)
    · exact fun v h => h.of_log rfl
    · exact h.of_log (log_modifyClient _ _ _)
  | toCoordinator id session payload => exact absurd rfl (hcoordinator id session payload)
  | toMembers id session payload => exact absurd rfl (hmembers id session payload)
  | disconnect id => exact (steady_noRelay w).disconnect id hrefl

/-! ## The moments are those of the log -/

theorem deliver_cases (env : Env) (target : ClientId) (msg : ServerMsg) (w : Worker) :
    (w.clients.lookup target = none ∧ deliver env (disconnect env) target msg false w = w) ∨
    ∃ cs, w.clients.lookup target = some cs ∧
      NoRelay (w.record ⟨target, msg, env.outcome w.log target msg, false⟩)
        (deliver env (disconnect env) target msg false w) := by
  unfold deliver
  cases hlookup : w.clients.lookup target with
  | none => exact .inl ⟨rfl, rfl⟩
  | some cs =>
    refine .inr ⟨cs, rfl, ?_⟩
    dsimp only
    split
    · exact (steady_noRelay _).disconnect target (.refl _)
    · exact .refl _

/-- What holds before a loop and is kept by deliveries holds at each of its moments, at which one of the targets is
connected and is delivered the frame. -/
theorem moments_keeps {P : Worker → Prop} (hP : DeliverKeeps env (disconnect env) P) {targets : List ClientId}
    (hw : P w) {v : Worker} (h : (v, a) ∈ moments env msg targets w) :
    P v ∧ a.msg = msg ∧ a.target ∈ targets ∧ a.target ∈ v.clients := by
  induction targets generalizing w with
  | nil => cases h
  | cons target targets ih =>
    unfold moments at h
    dsimp only at h
    have hrest := ih (hP target msg false w hw)
    cases hlookup : w.clients.lookup target with
    | none =>
      rw [hlookup] at h
      obtain ⟨hv, hmsg, htarget, hmem⟩ := hrest h
      exact ⟨hv, hmsg, List.mem_cons_of_mem _ htarget, hmem⟩
    | some cs =>
      rw [hlookup] at h
      cases h with
      | head =>
        refine ⟨hw, rfl, List.mem_cons_self .., AList.lookup_isSome.1 ?_⟩
        rw [hlookup]
        rfl
      | tail _ h =>
        obtain ⟨hv, hmsg, htarget, hmem⟩ := hrest h
        exact ⟨hv, hmsg, List.mem_cons_of_mem _ htarget, hmem⟩

/-- A place in what has been put before a list is in front of the last element, or is that element. -/
theorem mem_or_eq_of_split {α : Type} {new later earlier base : List α} {a b : α}
    (h : new ++ b :: base = later ++ a :: (earlier ++ base)) : a ∈ new ∨ a = b ∧ earlier = [] := by
  obtain ⟨x, -, hx⟩ | ⟨x, hx, hrest⟩ := List.append_eq_append_iff.1 h
  · have hlength := congrArg List.length hx
    simp only [List.length_cons, List.length_append] at hlength
    have hxnil : x = [] := List.length_eq_zero_iff.1 (by omega)
    have hearlier : earlier = [] := List.length_eq_zero_iff.1 (by omega)
    subst hxnil hearlier
    injection hx with hba
    exact .inr ⟨hba.symm, rfl⟩
  · cases x with
    | nil =>
      injection hrest with hab hbase
      exact .inr ⟨hab, List.self_eq_append_left.1 hbase.symm⟩
    | cons c x =>
      injection hrest with hac
      subst hac
      rw [hx]
      exact .inl (by simp)

/-- Every payload that a loop delivers is one of its moments, at its place in the log. -/
theorem moments_complete {targets : List ClientId} {later earlier : List Attempt}
    (hlog : (deliverAll env (disconnect env) msg targets w).log = later ++ a :: (earlier ++ w.log))
    (ha : a.msg.isRelay = true) : ∃ v, (v, a) ∈ moments env msg targets w ∧ v.log = earlier ++ w.log := by
  induction targets generalizing w earlier with
  | nil =>
    have hlength := congrArg List.length hlog
    simp only [deliverAll, List.foldl_nil, List.length_append, List.length_cons] at hlength
    omega
  | cons target targets ih =>
    have hstep : deliverAll env (disconnect env) msg (target :: targets) w =
        deliverAll env (disconnect env) msg targets (deliver env (disconnect env) target msg false w) := rfl
    rw [hstep] at hlog
    unfold moments
    dsimp only
    obtain ⟨hlookup, hsame⟩ | ⟨cs, hlookup, new, hnew, hrelay⟩ := deliver_cases env target msg w
    · rw [hlookup, hsame]
      rw [hsame] at hlog
      exact ih hlog
    · rw [hlookup]
      dsimp only
      have hrecord : (w.record ⟨target, msg, env.outcome w.log target msg, false⟩).log =
          ⟨target, msg, env.outcome w.log target msg, false⟩ :: w.log := rfl
      rw [hrecord] at hnew
      have hgrows : Grows (deliver env (disconnect env) target msg false w)
          (deliverAll env (disconnect env) msg targets (deliver env (disconnect env) target msg false w)) :=
        deliverAll_keeps (grows_deliver env _) msg targets ⟨[], rfl⟩
      obtain ⟨rest, hrest⟩ := hgrows
      rw [hrest] at hlog
      -- what the first delivery has left ends with it, and holds no other payload
      have hfirst : ∀ later, (deliver env (disconnect env) target msg false w).log =
          later ++ a :: (earlier ++ w.log) →
          ∃ v, (v, a) ∈ (w, ⟨target, msg, env.outcome w.log target msg, false⟩) ::
            moments env msg targets (deliver env (disconnect env) target msg false w) ∧
            v.log = earlier ++ w.log := by
        intro later hlater
        rw [hnew] at hlater
        rcases mem_or_eq_of_split hlater with hmem | ⟨rfl, rfl⟩
        · rw [hrelay a hmem] at ha
          cases ha
        · exact ⟨w, List.mem_cons_self .., rfl⟩
      obtain ⟨x, -, hx⟩ | ⟨x, hx, hsplit⟩ := List.append_eq_append_iff.1 hlog
      · exact hfirst x hx
      · cases x with
        | nil => exact hfirst [] hsplit.symm
        | cons b x =>
          injection hsplit with hab hsplit
          subst hab
          have hlog' : (deliverAll env (disconnect env) msg targets
              (deliver env (disconnect env) target msg false w)).log =
              later ++ a :: (x ++ (deliver env (disconnect env) target msg false w).log) := by
            rw [hrest, hx]
            simp
          obtain ⟨v, hv, hvlog⟩ := ih hlog'
          exact ⟨v, List.mem_cons_of_mem _ hv, hvlog.trans hsplit.symm⟩

/-! ## The recipient of a payload -/

/-- What holds of the worker in the middle of a loop that `w` has started: the tables are in step, and whoever has
been found closed since is gone. -/
structure Midway (base : Nat) (v : Worker) : Prop where
  core : Core v
  gone : ∀ c, Gone c base v

theorem midway_deliver (env : Env) (base : Nat) : DeliverKeeps env (disconnect env) (Midway base) :=
  fun id msg late v h =>
    ⟨core_deliver env id msg late v h.core, fun c => gone_deliver c base env id msg late v (h.gone c)⟩

theorem Consistent.midway (h : Consistent w) : Midway w.log.length w.countPublished where
  core := h.countPublished.toCore
  gone c := ⟨le_rfl, fun hfound => by
    have hnone : foundClosed w.log.length c w.log = false := foundClosed_self
    rw [show w.countPublished.log = w.log from rfl, hnone] at hfound
    cases hfound⟩

/-- A connected client has not been found closed. -/
theorem Midway.holds {base : Nat} {c : ClientId} {Q : Worker → Prop} {v : Worker} (h : Midway base v)
    (hc : c ∈ v.clients) (huntil : Until (· = c) Q base v) : Q v := by
  refine huntil.holds.resolve_left ?_
  rintro ⟨d, rfl, hfound⟩
  exact (h.gone d).gone hfound hc

/-- Whoever is sent a publication subscribes to its channel at that moment. -/
theorem allowed_publish (hw : Consistent w) {id : ClientId} {channel payload : String} {v : Worker}
    (h : (v, a) ∈ relays env w (.publish id channel payload)) : Allowed v (.publish id channel payload) a := by
  have hlists : ∀ t ∈ (env.iterClients w.log (w.presence.subscribers channel)).filter (· ≠ id),
      t ≠ id ∧ w.Lists (·.subscriptions) t channel := by
    intro t ht
    obtain ⟨hmem, hne⟩ := List.mem_filter.1 ht
    have hpresent := (env.iterClients_perm _ _).mem_iff.1 hmem
    exact ⟨by simpa using hne, (hw.mirror.present t channel hpresent).resolve_right (fun h => h)⟩
  obtain ⟨hmidway, hmsg, htarget, hconnected⟩ := moments_keeps (midway_deliver env _) hw.midway h
  obtain ⟨hne, hlisted⟩ := hlists a.target htarget
  obtain ⟨huntil, -⟩ := moments_keeps ((watch_subscription a.target channel).deliver w.log.length env)
    (w := w.countPublished) ⟨le_rfl, .inr hlisted⟩ h
  exact ⟨⟨_, hmsg⟩, hne, hmidway.core.mirror.subscribed _ _ (hmidway.holds hconnected huntil)⟩

/-- The coordinator is sent a frame before anything else is done. -/
theorem allowed_toCoordinator {id : ClientId} {session payload : String} {v : Worker}
    (h : (v, a) ∈ relays env w (.toCoordinator id session payload)) :
    Allowed v (.toCoordinator id session payload) a := by
  unfold relays at h
  dsimp only at h
  split at h
  · next sender coordinator hmember hcoordinator =>
    unfold moments at h
    dsimp only at h
    split at h
    · cases h
    · rw [moments, List.mem_singleton] at h
      cases h
      exact ⟨hcoordinator, sender, hmember, rfl⟩
  · cases h

/-- Only their own departure ends that one client is the coordinator and another a member. -/
theorem watch_roles (id t : ClientId) (session : String) :
    Watch (fun c => c = t ∨ c = id) fun w =>
      w.sessions.WF ∧ w.sessions.coordinator session = some id ∧ w.sessions.Mem session t where
  record _ _ h := h
  eraseClient _ _ _ h := h
  dropSession _ _ _ h := by rwa [sessions_dropSession]
  leavePresence _ _ _ _ h := h
  leaveSessions w c x hc h := by
    rcases leave_spec h.1 x c w.sessionPolicy with ⟨heq, -⟩ | ⟨o, ss', heq, hspec, -⟩
    · rwa [heq]
    · rw [heq]
      obtain ⟨hcoordinator, hmember⟩ := hspec.keeps (fun hid => hc (.inr hid)) h.2.1
      obtain ⟨m, hm⟩ := h.2.2
      exact ⟨hspec.wf, hcoordinator, m, (hmember t fun ht => hc (.inl ht.symm)).trans hm⟩
  countClosed _ h := h
  refreshChannelGauge _ h := h
  refreshSessionGauge _ h := h

theorem mem_of_roster {ss : Sessions} (h : ss.WF) {session : String} {m : SessionMember}
    (hm : m ∈ ss.roster session) : ss.Mem session m.clientId := by
  unfold Sessions.roster at hm
  cases hs : ss.map.lookup session with
  | none =>
    rw [hs] at hm
    cases hm
  | some s =>
    rw [hs] at hm
    have hlookup := (h session s hs).mem_roster_iff.1 hm
    exact ⟨m, by rw [Sessions.member, hs]; exact hlookup⟩

/-- The coordinator of a session is connected. -/
theorem Core.coordinator_mem {v : Worker} (h : Core v) {session : String} {id : ClientId}
    (hid : v.sessions.coordinator session = some id) : id ∈ v.clients := by
  unfold Sessions.coordinator at hid
  obtain ⟨s, hs, rfl⟩ := Option.map_eq_some_iff.1 hid
  have hwf := h.mirror.wf session s hs
  obtain ⟨m, hm⟩ := Option.isSome_iff_exists.1 (AList.lookup_isSome.2 hwf.coordinator_mem)
  have hmem : v.sessions.Mem session s.coordinator := ⟨m, by rw [Sessions.member, hs]; exact hm⟩
  exact ((h.mirror.member _ _ hmem).resolve_right fun h => h).mem

/-- A frame for the members is allowed until its sender has been found closed. -/
theorem allowed_toMembers_iff (hw : Consistent w) {id : ClientId} {session payload : String} {v : Worker}
    (h : (v, a) ∈ relays env w (.toMembers id session payload)) :
    Allowed v (.toMembers id session payload) a ↔ foundClosed w.log.length id v.log = false := by
  unfold relays at h
  dsimp only at h
  split at h
  · next hcoordinator =>
    have hcoord : w.sessions.coordinator session = some id := by
      unfold Sessions.isCoordinator at hcoordinator
      unfold Sessions.coordinator
      cases hs : w.sessions.map.lookup session with
      | none =>
        rw [hs] at hcoordinator
        cases hcoordinator
      | some s =>
        rw [hs] at hcoordinator
        exact congrArg some (of_decide_eq_true hcoordinator)
    obtain ⟨hmidway, hmsg, htarget, hconnected⟩ := moments_keeps (midway_deliver env _) hw.midway h
    constructor
    · rintro ⟨-, -, -, hcoord'⟩
      by_contra hfound
      exact (hmidway.gone id).gone (by simpa using hfound) (hmidway.core.coordinator_mem hcoord')
    · intro hopen
      obtain ⟨m, hm, hid⟩ := List.mem_map.1 htarget
      obtain ⟨hroster, hne⟩ := List.mem_filter.1 hm
      have hne : a.target ≠ id := by simpa [hid] using hne
      have hmem : w.sessions.Mem session a.target := hid ▸ mem_of_roster hw.mirror.wf hroster
      obtain ⟨huntil, -⟩ := moments_keeps ((watch_roles id a.target session).deliver w.log.length env)
        (w := w.countPublished) ⟨le_rfl, .inr ⟨hw.mirror.wf, hcoord, hmem⟩⟩ h
      obtain ⟨-, hcoord', hmem'⟩ := huntil.holds.resolve_left (by
        rintro ⟨c, rfl | rfl, hfound⟩
        · exact (hmidway.gone _).gone hfound hconnected
        · rw [hopen] at hfound
          cases hfound)
      exact ⟨hmsg, hne, hmem', hcoord'⟩
  · cases h

/-! ## One command -/

/-- Every payload that a command has delivered is a moment of its relay. -/
theorem relays_complete {command : Command} {attempts later earlier : List Attempt}
    (hlog : (handle env w command).log = attempts ++ w.log) (hsplit : attempts = later ++ a :: earlier)
    (ha : a.msg.isRelay = true) : ∃ v, (v, a) ∈ relays env w command ∧ v.log = earlier ++ w.log := by
  have hplace : (handle env w command).log = later ++ a :: (earlier ++ w.log) := by
    rw [hlog, hsplit, List.append_assoc, List.cons_append]
  have hquiet : NoRelay w (handle env w command) → False := by
    rintro ⟨new, hnew, hrelay⟩
    rw [hlog] at hnew
    have hmem : a ∈ new := List.append_cancel_right hnew ▸ hsplit ▸ by simp
    rw [hrelay a hmem] at ha
    cases ha
  cases command with
  | publish id channel payload => exact moments_complete (w := w.countPublished) hplace ha
  | toCoordinator id session payload =>
    unfold handle onToCoordinator at hplace hquiet
    unfold relays
    dsimp only at hplace hquiet ⊢
    split
    · next sender coordinator hmember hcoordinator =>
      rw [hmember, hcoordinator] at hplace
      exact moments_complete (w := w.countPublished) hplace ha
    · next hnone =>
      split at hquiet
      · next hmember hcoordinator => exact absurd hcoordinator (hnone _ _ hmember)
      · exact (hquiet (.refl w)).elim
  | toMembers id session payload =>
    unfold handle onToMembers at hplace hquiet
    unfold relays
    dsimp only at hplace hquiet ⊢
    split
    · next hcoordinator =>
      rw [hcoordinator] at hplace
      exact moments_complete (w := w.countPublished) hplace ha
    · next hcoordinator =>
      rw [if_pos (by simpa using hcoordinator)] at hquiet
      exact (hquiet (noRelay_deliver env w id _ false w rfl (.refl w))).elim
  | _ =>
    refine (hquiet (noRelay_handle env w ?_ ?_ ?_)).elim <;>
      · intro _ _ _ h
        cases h

theorem foundClosed_append_self {earlier log : List Attempt} :
    foundClosed log.length c (earlier ++ log) = true ↔ ∃ b ∈ earlier, b.target = c ∧ b.outcome = .closed := by
  unfold foundClosed
  rw [List.length_append, Nat.add_sub_cancel, List.take_left, List.any_eq_true]
  simp

/-- A command keeps the payload to those it is for exactly when it is not a frame for the members that goes on after
its sender has been found closed. -/
theorem confidential_iff_senderOpen (hw : Consistent w) {turn : Turn}
    (hlog : (handle env w turn.command).log = turn.attempts ++ w.log) :
    Confidential env w turn ↔ SenderOpen turn := by
  obtain ⟨command, attempts⟩ := turn
  unfold Confidential SenderOpen
  dsimp only at hlog ⊢
  have hmoment : ∀ {later a earlier}, attempts = later ++ a :: earlier → a.msg.isRelay = true →
      ∃ v, (v, a) ∈ relays env w command ∧ v.log = earlier ++ w.log := fun hsplit ha =>
    relays_complete hlog hsplit ha
  cases command with
  | publish id channel payload =>
    refine iff_of_true (fun later a earlier hsplit _ ha => ?_) trivial
    obtain ⟨v, hv, hvlog⟩ := hmoment hsplit ha
    exact ⟨v, hv, hvlog, allowed_publish hw hv⟩
  | toCoordinator id session payload =>
    refine iff_of_true (fun later a earlier hsplit _ ha => ?_) trivial
    obtain ⟨v, hv, hvlog⟩ := hmoment hsplit ha
    exact ⟨v, hv, hvlog, allowed_toCoordinator hv⟩
  | toMembers id session payload =>
    constructor
    · intro h later a earlier hsplit hsent ha b hb htarget hclosed
      obtain ⟨v, hv, hvlog, hallowed⟩ := h later a earlier hsplit hsent ha
      have hopen := (allowed_toMembers_iff hw hv).1 hallowed
      rw [hvlog, foundClosed_append_self.2 ⟨b, hb, htarget, hclosed⟩] at hopen
      cases hopen
    · intro h later a earlier hsplit hsent ha
      obtain ⟨v, hv, hvlog⟩ := hmoment hsplit ha
      refine ⟨v, hv, hvlog, (allowed_toMembers_iff hw hv).2 ?_⟩
      rw [hvlog, ← Bool.not_eq_true, foundClosed_append_self]
      rintro ⟨b, hb, htarget, hclosed⟩
      exact h later a earlier hsplit hsent ha b hb htarget hclosed
  | _ =>
    refine iff_of_true (fun later a earlier hsplit _ ha => ?_) trivial
    obtain ⟨v, hv, -⟩ := hmoment hsplit ha
    cases hv

end

/-! ## Every run -/

theorem hub_step_unique {policy : CoordinatorLeavePolicy} {rate : Option RateLimit} {w v v' : Worker} {turn : Turn}
    (h : (system env policy rate).step w turn v) (h' : (system env policy rate).step w turn v') : v = v' :=
  h.2.1.trans h'.2.1.symm

/-- A run keeps every payload to those it is for exactly when none of its commands sends a frame for the members on
after the receiver of its sender has been found closed. -/
theorem confidential_iff (policy : CoordinatorLeavePolicy) (rate : Option RateLimit) (s₀ s : Worker)
    (turns : List Turn) (h₀ : (system env policy rate).init s₀) (r : (system env policy rate).Run s₀ turns s) :
    (system env policy rate).AllSteps (fun w turn _ => Confidential env w turn) s₀ turns ↔
      ((system env policy rate).restrict fun _ turn => SenderOpen turn).Run s₀ turns s := by
  have hinv := consistent_inductive env policy rate
  refine r.allSteps_iff (hub_step_unique env) (I := Consistent) (fun w turn v hw hstep => ?_)
    (fun w turn v hw hstep _ => hinv.step w turn v hw hstep) (hinv.init s₀ h₀)
  exact confidential_iff_senderOpen hw (hstep.2.1 ▸ hstep.2.2)

/-! ## A session of three -/

def duel : List Command :=
  [.connect 1 ⟨"ada"⟩ 0, .connect 2 ⟨"bo"⟩ 0, .connect 3 ⟨"cy"⟩ 0, .sessionJoin 1 "duel" 0,
    .sessionJoin 2 "duel" 0, .sessionJoin 3 "duel" 0, .toMembers 1 "duel" "go"]

/-- The coordinator sends to two members, whose queues have room. -/
theorem confidential_duel : ∃ turns,
    (system .open .close none).Run (.new .close none) turns (duel.foldl (handle .open) (.new .close none)) ∧
      (system .open .close none).AllSteps (fun w turn _ => Confidential .open w turn) (.new .close none) turns := by
  have hreach : ((system .open .close none).restrict fun _ turn =>
      ∀ a ∈ turn.attempts, a.outcome ≠ .closed).Reachable (duel.foldl (handle .open) (.new .close none)) :=
    reachable_foldl duel (.of_init rfl) (by decide) (by decide)
  obtain ⟨s₀, turns, h₀, r⟩ := hreach
  obtain rfl : s₀ = .new .close none := h₀
  have hopen : ∀ (w : Worker) (turn : Turn), (∀ a ∈ turn.attempts, a.outcome ≠ .closed) → SenderOpen turn := by
    rintro - ⟨command, attempts⟩ hnone
    cases command with
    | toMembers id session payload =>
      rintro later a earlier rfl - - b hb -
      exact hnone b (by simp [hb])
    | _ => trivial
  exact ⟨turns, r.of_restrict,
    (confidential_iff .open .close none _ _ turns rfl r.of_restrict).2 (r.restrict_mono hopen)⟩

/-- The receivers of clients 1 and 2 close once the six frames of the joins have been delivered. -/
def twoClose : Env :=
  { Env.open with outcome := fun log id _ => if id ≠ 3 ∧ 6 ≤ log.length then .closed else .sent }

/-- The coordinator is found closed while client 2 leaves in the middle of its relay; client 3 is told that the session
is closed, and then what the coordinator had to say. -/
theorem relayed_after_close :
    ¬ ∀ (env : Env) (policy : CoordinatorLeavePolicy) (rate : Option RateLimit) (s₀ s : Worker) (turns : List Turn),
      (system env policy rate).init s₀ → (system env policy rate).Run s₀ turns s →
      (system env policy rate).AllSteps (fun w turn _ => Confidential env w turn) s₀ turns := by
  intro hclaim
  have hreach : (system twoClose .close none).Reachable (duel.dropLast.foldl (handle twoClose) (.new .close none)) :=
    (reachable_foldl (C := fun _ => True) duel.dropLast (.of_init rfl) (by decide)
      fun _ _ => trivial).of_restrict
  obtain ⟨s₀, turns, h₀, r⟩ := hreach
  let turn : Turn :=
    { command := .toMembers 1 "duel" "go"
      attempts :=
        [⟨3, .fromCoordinator "duel" "go", .sent, false⟩, ⟨3, .memberLeft "duel" 1 "bo", .sent, false⟩,
          ⟨3, .sessionClosed "duel" "coordinator_left", .sent, false⟩,
          ⟨1, .memberLeft "duel" 1 "bo", .closed, false⟩,
          ⟨2, .fromCoordinator "duel" "go", .closed, false⟩] }
  let w := duel.dropLast.foldl (handle twoClose) (.new .close none)
  have hlog : (handle twoClose w turn.command).log = turn.attempts ++ w.log := by decide
  have hstep : (system twoClose .close none).step w turn (handle twoClose w turn.command) := ⟨trivial, rfl, hlog⟩
  have hconfidential := hclaim twoClose .close none s₀ _ (turns ++ [turn]) h₀ (r.snoc hstep)
    turns turn [] w _ rfl r hstep
  have hw : Consistent w := (consistent_inductive twoClose .close none).reachable ⟨s₀, turns, h₀, r⟩
  have hopen := (confidential_iff_senderOpen hw hlog).1 hconfidential
  exact hopen [] _ _ rfl rfl rfl ⟨1, .memberLeft "duel" 1 "bo", .closed, false⟩ (by simp) rfl rfl

end Atomo.Hub

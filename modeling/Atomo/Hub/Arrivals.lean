import Atomo.Hub.Coordinator

/-!
# Announced arrivals

`on_subscribe` and `on_session_join` deliver to the joiner before they tell the others of it, and a
delivery that finds a receiver closed may end the membership that is being announced. `arrivals`
lists the announcements of a command together with the worker each is made in (`handle_accounted`:
there are no others), and `genuine_iff_of_arrival` says for which of them the announced connection is
still a member: those before which neither the joiner, nor the coordinator whose departure closes the
session, has been found closed.
-/

namespace Atomo.Hub

variable {env : Env} {w v : Worker} {id c : ClientId} {base : Nat}

/-! ## The announcements of a command -/

/-- The frame announces an arrival. -/
def ServerMsg.Arriving : ServerMsg → Prop
  | .joined .. | .memberJoined .. => True
  | _ => False

/-- The announcement of an arrival: the worker it is made in, its receiver, its frame, and the
connection whose arrival it announces. -/
structure Arrival where
  worker : Worker
  target : ClientId
  msg : ServerMsg
  client : ClientId

namespace Arrival

/-- The delivery it is. -/
def attempt (env : Env) (m : Arrival) : Attempt :=
  ⟨m.target, m.msg, env.outcome m.worker.log m.target m.msg, false⟩

/-- The receiver's queue accepts the frame. -/
def Enqueued (env : Env) (m : Arrival) : Prop :=
  m.target ∈ m.worker.clients ∧ env.outcome m.worker.log m.target m.msg = .sent

/-- At that moment the announced connection is a member. -/
def Genuine (m : Arrival) : Prop :=
  match m.msg with
  | .joined channel _ => m.worker.presence.Mem channel m.client
  | .memberJoined session _ _ => m.worker.sessions.Mem session m.client
  | _ => False

/-- In a command taken in `w`, an earlier delivery has found the receiver of the joiner closed, or
that of the coordinator with whom the session closes. -/
def Late (w : Worker) (m : Arrival) : Prop :=
  foundClosed w.log.length m.client m.worker.log = true ∨
    match m.msg with
    | .memberJoined session _ _ => w.sessionPolicy = .close ∧
        ∃ b, w.sessions.coordinator session = some b ∧
          foundClosed w.log.length b m.worker.log = true
    | _ => False

/-- The delivery `a` is this announcement, and `w` is a later worker. -/
def Made (env : Env) (a : Attempt) (w : Worker) (m : Arrival) : Prop :=
  a = m.attempt env ∧ ∃ newer, w.log = newer ++ a :: m.worker.log

end Arrival

section Arrivals

variable (env : Env)

/-- The deliveries of `deliverAll`, each with the worker it is made in. -/
def sweep (client : ClientId) (msg : ServerMsg) : List ClientId → Worker → List Arrival
  | [], _ => []
  | target :: rest, w =>
    ⟨w, target, msg, client⟩ ::
      sweep client msg rest (deliver env (disconnect env) target msg false w)

/-- `on_subscribe` up to the snapshot for the joiner. -/
def snapshotSent (id : ClientId) (channel principalId : String) (w : Worker) : Worker :=
  let w := (w.setPresence (w.presence.join channel id principalId).2).addSubscription id channel
  deliver env (disconnect env) id (.presence channel (w.presence.snapshot channel)) false w

/-- `on_session_join` up to the roster for the joiner. -/
def rosterSent (id : ClientId) (session principalId : String) (w : Worker) : Worker :=
  let (outcome, sessions) := w.sessions.join session id principalId
  let w := (w.setSessions sessions).addSession id session
  deliver env (disconnect env) id (.sessionStart session outcome.slot outcome.isCoordinator
    (outcome.roster.map fun m => ⟨m.slot, m.principalId⟩)) false w

/-- The announcements of arrivals that a command makes. -/
def arrivals (w : Worker) : Command → List Arrival
  | .subscribe id channel now =>
    let (allowed, w) := allowJoin env id now w
    match allowed, w.clients.lookup id with
    | true, some cs =>
      let v := snapshotSent env id channel cs.principal.id w
      if (w.presence.join channel id cs.principal.id).1 then
        sweep env id (.joined channel cs.principal.id)
          ((env.iterClients v.log (v.presence.subscribers channel)).filter (· ≠ id)) v
      else []
    | _, _ => []
  | .sessionJoin id session now =>
    let (allowed, w) := allowJoin env id now w
    match allowed, w.clients.lookup id with
    | true, some cs =>
      let outcome := (w.sessions.join session id cs.principal.id).1
      sweep env id (.memberJoined session outcome.slot cs.principal.id)
        ((outcome.roster.map (·.clientId)).filter (· ≠ id)) (rosterSent env id session cs.principal.id w)
    | _, _ => []
  | _ => []

end Arrivals

/-! ## There are no others -/

/-- Since `v`, no arrival has been announced. -/
def Quietly (v w : Worker) : Prop :=
  ∃ new, w.log = new ++ v.log ∧ ∀ a ∈ new, ¬ a.msg.Arriving

/-- Since `v`, the arrivals announced are among `as`, each made where its delivery stands in the
log. -/
def Accounted (env : Env) (as : List Arrival) (v w : Worker) : Prop :=
  (∃ new, w.log = new ++ v.log) ∧ ∀ newer a older, w.log = newer ++ a :: older →
    v.log.length ≤ older.length → a.msg.Arriving →
      ∃ m ∈ as, a = m.attempt env ∧ m.worker.log = older ∧ m.target ∈ m.worker.clients

theorem Quietly.of_log {w' : Worker} (h : Quietly v w) (hlog : w'.log = w.log) : Quietly v w' := by
  obtain ⟨new, hnew, hquiet⟩ := h
  exact ⟨new, hlog.trans hnew, hquiet⟩

theorem Quietly.refl (w : Worker) : Quietly w w :=
  ⟨[], rfl, fun _ ha => absurd ha List.not_mem_nil⟩

theorem Quietly.record {a : Attempt} (h : Quietly v w) (ha : ¬ a.msg.Arriving) :
    Quietly v (w.record a) := by
  obtain ⟨new, hnew, hquiet⟩ := h
  refine ⟨a :: new, congrArg (a :: ·) hnew, fun b hb => ?_⟩
  rcases List.mem_cons.1 hb with rfl | hb
  · exact ha
  · exact hquiet b hb

theorem quietly_steady (v : Worker) : Steady (Quietly v) where
  record w a ha h := by
    refine h.record fun harriving => ?_
    cases hmsg : a.msg <;>
      simp [hmsg, ServerMsg.Departing, ServerMsg.OfSession, ServerMsg.Arriving] at ha harriving
  eraseClient _ _ h := h.of_log rfl
  dropSession _ _ _ h := h.of_log (log_modifyClient _ _ _)
  leavePresence _ _ _ h := h.of_log rfl
  leaveSessions _ _ _ h := h.of_log rfl
  countClosed _ h := h.of_log rfl
  refreshChannelGauge _ h := h.of_log rfl
  refreshSessionGauge _ h := h.of_log rfl

theorem quietly_deliver (env : Env) (v : Worker) :
    DeliverKeepsFor env (disconnect env) (fun msg => ¬ msg.Arriving) (Quietly v) :=
  deliverKeepsFor (fun _ _ ha h => h.record ha) fun id _ h => (quietly_steady v).disconnect id h

/-- What is logged over a longer log was delivered since. -/
theorem mem_of_suffix {new newer old older : List Attempt} {a : Attempt}
    (h : new ++ old = newer ++ a :: older) (hlength : old.length ≤ older.length) : a ∈ new := by
  rcases List.append_eq_append_iff.1 h with ⟨mid, rfl, hold⟩ | ⟨mid, rfl, hold⟩
  · have := congrArg List.length hold
    simp only [List.length_append, List.length_cons] at this
    omega
  · cases mid with
    | nil =>
      have := congrArg List.length hold
      simp only [List.length_append, List.length_cons, List.length_nil] at this
      omega
    | cons b mid =>
      obtain rfl : a = b := (List.cons.inj hold).1
      simp

theorem Quietly.accounted (h : Quietly v w) : Accounted env [] v w := by
  obtain ⟨new, hnew, hquiet⟩ := h
  refine ⟨⟨new, hnew⟩, fun newer a older hlog hlength harriving => ?_⟩
  exact absurd harriving (hquiet a (mem_of_suffix (hnew.symm.trans hlog) hlength))

theorem Accounted.quietly {u : Worker} {as : List Arrival} (h : Accounted env as u v)
    (hw : Quietly v w) : Accounted env as u w := by
  obtain ⟨⟨old, hold⟩, haccounted⟩ := h
  obtain ⟨new, hnew, hquiet⟩ := hw
  refine ⟨⟨new ++ old, by rw [hnew, hold, List.append_assoc]⟩, fun newer a older hlog => ?_⟩
  by_cases hlength : v.log.length ≤ older.length
  · intro _ harriving
    exact absurd harriving (hquiet a (mem_of_suffix (hnew.symm.trans hlog) hlength))
  · rcases List.append_eq_append_iff.1 (hnew.symm.trans hlog) with ⟨mid, -, hmid⟩ | ⟨mid, -, hmid⟩
    · exact haccounted mid a older hmid
    · cases mid with
      | nil => exact haccounted [] a older hmid.symm
      | cons b mid =>
        have hmid : older = mid ++ v.log := (List.cons.inj hmid).2
        rw [hmid, List.length_append] at hlength
        omega

theorem deliver_accounted {as : List Arrival} {target : ClientId} {msg : ServerMsg}
    (h : Accounted env as v w) :
    Accounted env (as ++ [⟨w, target, msg, c⟩]) v
      (deliver env (disconnect env) target msg false w) := by
  have hmono : Accounted env (as ++ [⟨w, target, msg, c⟩]) v w := by
    refine ⟨h.1, fun newer a older hlog hlength harriving => ?_⟩
    obtain ⟨m, hm, hmade⟩ := h.2 newer a older hlog hlength harriving
    exact ⟨m, List.mem_append_left _ hm, hmade⟩
  unfold deliver
  split
  · exact hmono
  · next hcs =>
    have hrecord : Accounted env (as ++ [⟨w, target, msg, c⟩]) v
        (w.record ⟨target, msg, env.outcome w.log target msg, false⟩) := by
      obtain ⟨⟨new, hnew⟩, haccounted⟩ := hmono
      refine ⟨⟨_ :: new, congrArg (_ :: ·) hnew⟩, fun newer a older hlog hlength harriving => ?_⟩
      cases newer with
      | nil =>
        obtain ⟨rfl, rfl⟩ := List.cons.inj hlog
        exact ⟨⟨w, target, msg, c⟩, by simp, rfl, rfl, AList.lookup_isSome.1 (by rw [hcs]; rfl)⟩
      | cons b newer => exact haccounted newer a older (List.cons.inj hlog).2 hlength harriving
    simp only
    split
    · exact hrecord.quietly ((quietly_steady _).disconnect target (.refl _))
    · exact hrecord

theorem sweep_accounted {as : List Arrival} {msg : ServerMsg} (targets : List ClientId)
    (h : Accounted env as v w) :
    Accounted env (as ++ sweep env c msg targets w) v
      (deliverAll env (disconnect env) msg targets w) := by
  unfold deliverAll
  induction targets generalizing as w with
  | nil => rwa [sweep, List.append_nil]
  | cons target rest ih =>
    have hnext : Accounted env (as ++ [⟨w, target, msg, c⟩]) v
        (deliver env (disconnect env) target msg false w) := deliver_accounted h
    have hrest := ih hnext
    rwa [List.append_assoc] at hrest

theorem quietly_allowJoin (env : Env) (id : ClientId) (now : Nat) (w : Worker) :
    Quietly w (allowJoin env id now w).2 := by
  unfold allowJoin
  split
  · exact .refl w
  · split
    · exact .refl w
    · simp only
      split
      · exact (Quietly.refl w).of_log (log_modifyClient _ _ _)
      · exact quietly_deliver env w _ _ _ _ (by exact fun h => h)
          ((Quietly.refl w).of_log (log_modifyClient _ _ _))

theorem Accounted.of_log {w' : Worker} {as : List Arrival} (h : Accounted env as v w)
    (hlog : w'.log = w.log) : Accounted env as v w' :=
  h.quietly ((Quietly.refl w).of_log hlog)

/-- What a subscription does: nothing but the answer of the join throttle; or the snapshot alone; or
the snapshot and an announcement to the others. -/
theorem onSubscribe_cases (env : Env) (w : Worker) (id : ClientId) (channel : String) (now : Nat) :
    (onSubscribe env id channel now w = (allowJoin env id now w).2 ∧
      arrivals env w (.subscribe id channel now) = []) ∨
    ∃ u cs v, (allowJoin env id now w).1 = true ∧ u = (allowJoin env id now w).2 ∧
      u.clients.lookup id = some cs ∧ v = snapshotSent env id channel cs.principal.id u ∧
      ((u.presence.Mem channel id ∧ onSubscribe env id channel now w = v.refreshChannelGauge ∧
          arrivals env w (.subscribe id channel now) = []) ∨
        ¬ u.presence.Mem channel id ∧
          onSubscribe env id channel now w =
            (deliverAll env (disconnect env) (.joined channel cs.principal.id)
              ((env.iterClients v.log (v.presence.subscribers channel)).filter (· ≠ id))
              v).refreshChannelGauge ∧
          arrivals env w (.subscribe id channel now) =
            sweep env id (.joined channel cs.principal.id)
              ((env.iterClients v.log (v.presence.subscribers channel)).filter (· ≠ id)) v) := by
  rw [arrivals, onSubscribe]
  generalize allowJoin env id now w = result
  obtain ⟨allowed, u⟩ := result
  simp only
  cases allowed with
  | false => exact .inl ⟨rfl, rfl⟩
  | true =>
    cases hcs : u.clients.lookup id with
    | none => exact .inl ⟨rfl, rfl⟩
    | some cs =>
      refine .inr ⟨u, cs, _, rfl, rfl, hcs, rfl, ?_⟩
      by_cases hmem : u.presence.Mem channel id
      · have hnewly : (u.presence.join channel id cs.principal.id).1 = false := by
          rw [← Bool.not_eq_true, Presence.join_fst]
          exact fun h => h hmem
        refine .inl ⟨hmem, ?_⟩
        simp only [hnewly]
        exact ⟨rfl, rfl⟩
      · have hnewly : (u.presence.join channel id cs.principal.id).1 = true :=
          Presence.join_fst.2 hmem
        refine .inr ⟨hmem, ?_⟩
        simp only [hnewly]
        exact ⟨rfl, rfl⟩

theorem onSubscribe_accounted (env : Env) (w : Worker) (id : ClientId) (channel : String)
    (now : Nat) :
    Accounted env (arrivals env w (.subscribe id channel now)) w (onSubscribe env id channel now w) := by
  have hquiet := quietly_allowJoin env id now w
  rcases onSubscribe_cases env w id channel now with
    ⟨hresult, hnone⟩ | ⟨u, cs, v, -, rfl, -, rfl, hcases⟩
  · rw [hresult, hnone]
    exact hquiet.accounted
  · have hsent : Quietly w (snapshotSent env id channel cs.principal.id (allowJoin env id now w).2) :=
      quietly_deliver env w _ _ _ _ (by exact fun h => h)
        (hquiet.of_log (log_modifyClient _ _ _))
    rcases hcases with ⟨-, hresult, hnone⟩ | ⟨-, hresult, hsweep⟩
    · rw [hresult, hnone]
      exact hsent.accounted.of_log rfl
    · rw [hresult, hsweep]
      exact (sweep_accounted (c := id) _ hsent.accounted).of_log rfl

theorem onSessionJoin_accounted (env : Env) (w : Worker) (id : ClientId) (session : String)
    (now : Nat) :
    Accounted env (arrivals env w (.sessionJoin id session now)) w
      (onSessionJoin env id session now w) := by
  rw [arrivals, onSessionJoin]
  have hquiet := quietly_allowJoin env id now w
  generalize allowJoin env id now w = result at hquiet ⊢
  obtain ⟨allowed, u⟩ := result
  simp only at hquiet ⊢
  cases allowed with
  | false => exact hquiet.accounted
  | true =>
    cases u.clients.lookup id with
    | none => exact hquiet.accounted
    | some cs =>
      simp only [Bool.not_true, Bool.false_eq_true, if_false]
      have hsent : Quietly w (rosterSent env id session cs.principal.id u) :=
        quietly_deliver env w _ _ _ _ (by exact fun h => h)
          (hquiet.of_log (log_modifyClient _ _ _))
      exact Accounted.of_log (sweep_accounted (c := id) _ hsent.accounted) rfl

/-- Every arrival that a command announces is among its announcements. -/
theorem handle_accounted (env : Env) (w : Worker) (command : Command) :
    Accounted env (arrivals env w command) w (handle env w command) := by
  have hrefl := Quietly.refl w
  have hdeliver := quietly_deliver env w
  cases command with
  | connect id principal now => exact (hrefl.of_log rfl).accounted
  | subscribe id channel now => exact onSubscribe_accounted env w id channel now
  | unsubscribe id channel =>
    refine Quietly.accounted ?_
    have hleft : Quietly w (w.dropSubscription id channel) := hrefl.of_log (log_modifyClient _ _ _)
    unfold handle onUnsubscribe leaveChannel
    simp only
    apply (quietly_steady w).refreshChannelGauge
    split
    · refine deliverAll_keepsFor hdeliver ?_ _ (hleft.of_log rfl)
      exact fun h => h
    · exact hleft.of_log rfl
  | publish id channel payload =>
    have hpublished : Quietly w (onPublish env id channel payload w) := by
      refine deliverAll_keepsFor hdeliver ?_ _ (hrefl.of_log rfl)
      exact fun h => h
    exact hpublished.accounted
  | presence id channel => exact (hdeliver _ _ _ _ (by exact fun h => h) hrefl).accounted
  | sessionJoin id session now => exact onSessionJoin_accounted env w id session now
  | sessionLeave id session =>
    refine Quietly.accounted (leaveSession_keepsFor
      (((quietly_steady w).deliver env).mono fun _ => ServerMsg.OfSession.departing)
      (quietly_steady w).dropSession
      (quietly_steady w).refreshSessionGauge id session (fun h => h.of_log ?_) hrefl)
    exact log_modifyClient _ _ _
  | toCoordinator id session payload =>
    refine Quietly.accounted ?_
    unfold handle onToCoordinator
    simp only
    split
    · exact hdeliver _ _ _ _ (by exact fun h => h) (hrefl.of_log rfl)
    · exact hrefl
  | toMembers id session payload =>
    refine Quietly.accounted ?_
    unfold handle onToMembers
    simp only
    split
    · exact hdeliver _ _ _ _ (by exact fun h => h) hrefl
    · exact deliverAll_keepsFor hdeliver (by exact fun h => h) _ (hrefl.of_log rfl)
  | disconnect id => exact ((quietly_steady w).disconnect id hrefl).accounted

/-! ## Which announcements are genuine -/

theorem sweep_forall {P : Worker → Prop} (hP : DeliverKeeps env (disconnect env) P)
    {msg : ServerMsg} (targets : List ClientId) (hw : P w) :
    ∀ m ∈ sweep env c msg targets w, m.msg = msg ∧ m.client = c ∧ P m.worker := by
  induction targets generalizing w with
  | nil =>
    intro m hm
    cases hm
  | cons target rest ih =>
    intro m hm
    rcases List.mem_cons.1 hm with rfl | hm
    · exact ⟨rfl, rfl, hw⟩
    · exact ih (hP target msg false w hw) m hm

/-- A join that is allowed has delivered nothing. -/
theorem allowJoin_allowed {now : Nat} (h : (allowJoin env id now w).1 = true) :
    (allowJoin env id now w).2.log = w.log ∧ (allowJoin env id now w).2.sessions = w.sessions ∧
      (allowJoin env id now w).2.presence = w.presence ∧ Later w (allowJoin env id now w).2 := by
  unfold allowJoin at h ⊢
  split at h
  · cases h
  · split at h
    · exact ⟨rfl, rfl, rfl, .refl w⟩
    · simp only at h ⊢
      split at h
      · next hallowed =>
        rw [if_pos hallowed]
        exact ⟨log_modifyClient _ _ _, sessions_modifyClient _ _ _, presence_modifyClient _ _ _,
          later_modifyClient w id fun _ => rfl⟩
      · cases h

/-- The joiner of a channel is a member of it until it is found closed. -/
theorem mem_iff_of_subscribed {channel : String}
    (huntil : Until (· = id) (fun w => w.Lists (·.subscriptions) id channel) base v)
    (hgone : Gone id base v) (hmirror : Mirror never never never v) :
    v.presence.Mem channel id ↔ foundClosed base id v.log ≠ true := by
  constructor
  · intro hmem hfound
    exact hgone.gone hfound ((hmirror.present id channel hmem).resolve_right fun h => h).mem
  · intro hfound
    refine hmirror.subscribed id channel (huntil.holds.resolve_left ?_)
    rintro ⟨_, rfl, hfound'⟩
    exact hfound hfound'

/-- The clients whose departure ends the membership: the member itself, and the coordinator if the
session closes with it. -/
def Essential (policy : CoordinatorLeavePolicy) (id b c : ClientId) : Prop :=
  c = id ∨ policy = .close ∧ c = b

/-- The client is a member of the session, whose coordinator is `b`. -/
structure Seated (policy : CoordinatorLeavePolicy) (session : String) (id b : ClientId) (w : Worker) :
    Prop where
  wf : w.sessions.WF
  sessionPolicy : w.sessionPolicy = policy
  mem : w.sessions.Mem session id
  coordinator : policy = .close → w.sessions.coordinator session = some b

variable {policy : CoordinatorLeavePolicy} {session : String} {b : ClientId}

theorem Seated.congr {w' : Worker} (h : Seated policy session id b w)
    (hsessions : w'.sessions = w.sessions) (hpolicy : w'.sessionPolicy = w.sessionPolicy) :
    Seated policy session id b w' where
  wf := by rw [hsessions]; exact h.wf
  sessionPolicy := hpolicy.trans h.sessionPolicy
  mem := by rw [hsessions]; exact h.mem
  coordinator hclose := by rw [hsessions]; exact h.coordinator hclose

theorem Seated.leave (h : Seated policy session id b w) {x : String}
    (hc : ¬ Essential policy id b c) :
    Seated policy session id b (w.setSessions (w.sessions.leave x c w.sessionPolicy).2) := by
  rcases leave_spec h.wf x c w.sessionPolicy with ⟨heq, -⟩ | ⟨o, ss', heq, hspec, hreelect⟩
  · rw [heq]
    exact h.congr rfl rfl
  · rw [heq]
    have hid : id ≠ c := fun heq => hc (.inl heq.symm)
    have hother : x = session → policy = .close → o.change = .none := by
      rintro rfl hclose
      by_contra hchange
      have hleft := hspec.coordinator_left hchange
      rw [h.coordinator hclose] at hleft
      exact hc (.inr ⟨hclose, (Option.some.inj hleft).symm⟩)
    refine ⟨hspec.wf, h.sessionPolicy, ?_, fun hclose => ?_⟩
    · show ss'.Mem session id
      by_cases hx : x = session
      · have hopen : o.change ≠ .closed := by
          cases hpolicy : policy with
          | reelect => exact hreelect (h.sessionPolicy.trans hpolicy)
          | close =>
            rw [hother hx hpolicy]
            exact CoordinatorChange.noConfusion
        exact (hspec.mem_of_open hopen).2 ⟨h.mem, fun hpair => hid hpair.1⟩
      · obtain ⟨m, hm⟩ := h.mem
        exact ⟨m, (hspec.member_other (Ne.symm hx)).trans hm⟩
    · show ss'.coordinator session = some b
      by_cases hx : x = session
      · subst hx
        refine (hspec.coordinator_of_none (hother rfl hclose) b).2 ⟨?_, h.coordinator hclose⟩
        exact fun heq => hc (.inr ⟨hclose, heq.symm⟩)
      · rw [← h.coordinator hclose]
        unfold Sessions.coordinator
        rw [hspec.other session (Ne.symm hx)]

theorem watch_seated (policy : CoordinatorLeavePolicy) (session : String) (id b : ClientId) :
    Watch (Essential policy id b) (Seated policy session id b) where
  record _ _ h := h.congr rfl rfl
  eraseClient _ _ _ h := h.congr rfl rfl
  dropSession w c x h :=
    h.congr sessions_dropSession ((later_stable w).dropSession w c x (.refl w)).policy
  leavePresence _ _ _ _ h := h.congr rfl rfl
  leaveSessions _ _ _ hc h := h.leave hc
  countClosed _ h := h.congr rfl rfl
  refreshChannelGauge _ h := h.congr rfl rfl
  refreshSessionGauge _ h := h.congr rfl rfl

/-- Under `Closed` nobody but `b` is the coordinator of the session. -/
structure Sole (session : String) (b : ClientId) (w : Worker) : Prop where
  wf : w.sessions.WF
  policy : w.sessionPolicy = .close
  coordinator : ∀ c, w.sessions.coordinator session = some c → c = b

theorem leave_of_close {ss ss' : Sessions} {name : String} {o : LeaveOutcome}
    (h : ss.leave name c .close = (some o, ss')) (m : SessionMember) : o.change ≠ .reelected m := by
  unfold Sessions.leave at h
  split at h
  · cases h
  · split at h
    · cases h
    · simp only at h
      split at h
      · cases h
        exact CoordinatorChange.noConfusion
      · split at h
        · cases h
          exact CoordinatorChange.noConfusion
        · cases h
          exact CoordinatorChange.noConfusion

theorem Sole.congr {w' : Worker} (h : Sole session b w) (hsessions : w'.sessions = w.sessions)
    (hpolicy : w'.sessionPolicy = w.sessionPolicy) : Sole session b w' where
  wf := by rw [hsessions]; exact h.wf
  policy := hpolicy.trans h.policy
  coordinator c hc := by
    rw [hsessions] at hc
    exact h.coordinator c hc

theorem Sole.leave (h : Sole session b w) (x : String) (c : ClientId) :
    Sole session b (w.setSessions (w.sessions.leave x c w.sessionPolicy).2) := by
  rcases leave_spec h.wf x c w.sessionPolicy with ⟨heq, -⟩ | ⟨o, ss', heq, hspec, -⟩
  · rw [heq]
    exact h.congr rfl rfl
  · have hstays := leave_of_close (h.policy ▸ heq)
    rw [heq]
    refine ⟨hspec.wf, h.policy, fun c' hc' => ?_⟩
    have hc' : ss'.coordinator session = some c' := hc'
    by_cases hx : x = session
    · subst hx
      cases hchange : o.change with
      | none => exact h.coordinator c' ((hspec.coordinator_of_none hchange c').1 hc').2
      | closed =>
        unfold Sessions.coordinator at hc'
        rw [hspec.closed hchange] at hc'
        cases hc'
      | reelected m => exact absurd hchange (hstays m)
    · unfold Sessions.coordinator at hc'
      rw [hspec.other session (Ne.symm hx)] at hc'
      exact h.coordinator c' hc'

theorem sole_stable (session : String) (b : ClientId) : Stable (Sole session b) where
  record _ _ h := h.congr rfl rfl
  eraseClient _ _ h := h.congr rfl rfl
  dropSession w c x h :=
    h.congr sessions_dropSession ((later_stable w).dropSession w c x (.refl w)).policy
  leavePresence _ _ _ h := h.congr rfl rfl
  leaveSessions _ c x h := h.leave x c
  countClosed _ h := h.congr rfl rfl
  refreshChannelGauge _ h := h.congr rfl rfl
  refreshSessionGauge _ h := h.congr rfl rfl

/-- The joiner of a session is a member of it until it is found closed, or the session closes. -/
theorem mem_iff_of_seated (huntil : Until (Essential policy id b) (Seated policy session id b) base v)
    (hgone : Gone id base v) (hcoordinator : Gone b base v)
    (hsole : policy = .close → Sole session b v) (hmirror : Mirror never never never v) :
    v.sessions.Mem session id ↔ ¬ FoundAny (Essential policy id b) base v.log := by
  have hlisted : ∀ c, v.sessions.Mem session c → c ∈ v.clients := fun c hc =>
    ((hmirror.member c session hc).resolve_right fun h => h).mem
  constructor
  · rintro hmem ⟨c, rfl | ⟨hclose, rfl⟩, hfound⟩
    · exact hgone.gone hfound (hlisted _ hmem)
    · obtain ⟨b', m, hb', hm⟩ := hmirror.wf.exists_coordinator hmem
      obtain rfl := (hsole hclose).coordinator b' hb'
      exact hcoordinator.gone hfound (hlisted b' ⟨m, hm⟩)
  · intro hfound
    exact (huntil.holds.resolve_left hfound).mem

theorem genuine_iff_of_subscribe {channel : String} {now : Nat} (h : Consistent w) :
    ∀ m ∈ arrivals env w (.subscribe id channel now), m.Genuine ↔ ¬ m.Late w := by
  intro m hm
  rcases onSubscribe_cases env w id channel now with
    ⟨-, hnone⟩ | ⟨u, cs, v, hallowed, hu, hcs, rfl, ⟨-, -, hnone⟩ | ⟨-, -, hsweep⟩⟩
  · rw [hnone] at hm
    exact absurd hm List.not_mem_nil
  · rw [hnone] at hm
    exact absurd hm List.not_mem_nil
  · have hconsistent := allowJoin_consistent env id now h
    obtain ⟨hlog, -⟩ := allowJoin_allowed hallowed
    rw [← hu] at hconsistent hlog
    have hid : id ∈ u.clients := AList.lookup_isSome.1 (by rw [hcs]; rfl)
    let P (v : Worker) : Prop :=
      Until (· = id) (fun v => v.Lists (·.subscriptions) id channel) w.log.length v ∧
        Gone id w.log.length v ∧ Mirror never never never v
    have hP : DeliverKeeps env (disconnect env) P :=
      ((watch_subscription id channel).deliver _ env).and
        ((gone_deliver id _ env).and (mirror_deliver env never never never))
    have hlog : ((u.setPresence (u.presence.join channel id cs.principal.id).2).addSubscription id
        channel).log = w.log := (log_modifyClient _ _ _).trans hlog
    have hsent : P (snapshotSent env id channel cs.principal.id u) := by
      refine hP _ _ _ _ ⟨⟨by rw [hlog], .inr ?_⟩, ⟨by rw [hlog], fun hfound => ?_⟩,
        (hconsistent.subscribe hid channel cs.principal.id).1.mirror⟩
      · exact (subscriptions_addSubscription (u.setPresence (u.presence.join channel id
          cs.principal.id).2) id id channel hid channel).2 (.inr ⟨rfl, rfl⟩)
      · rw [hlog, foundClosed_self] at hfound
        cases hfound
    rw [hsweep] at hm
    obtain ⟨hmsg, hclient, huntil, hgone, hmirror⟩ := sweep_forall hP _ hsent m hm
    unfold Arrival.Genuine Arrival.Late
    rw [hmsg, hclient]
    simp only [or_false]
    exact mem_iff_of_subscribed huntil hgone hmirror

theorem genuine_iff_of_sessionJoin {now : Nat} (h : Consistent w) :
    ∀ m ∈ arrivals env w (.sessionJoin id session now), m.Genuine ↔ ¬ m.Late w := by
  intro m hm
  rw [arrivals] at hm
  have hconsistent := allowJoin_consistent env id now h
  have hallowed := @allowJoin_allowed env w id now
  generalize allowJoin env id now w = result at hm hconsistent hallowed
  obtain ⟨allowed, u⟩ := result
  simp only at hm hconsistent hallowed
  cases allowed with
  | false => exact absurd hm List.not_mem_nil
  | true =>
    cases hcs : u.clients.lookup id with
    | none =>
      rw [hcs] at hm
      exact absurd hm List.not_mem_nil
    | some cs =>
      simp only [hcs] at hm
      obtain ⟨hlog, hsessions, -, hlater⟩ := hallowed rfl
      have hid : id ∈ u.clients := AList.lookup_isSome.1 (by rw [hcs]; rfl)
      have hspec := join_spec hconsistent.mirror.wf session id cs.principal.id
      have hmem := hspec.mem_iff.2 (.inr ⟨rfl, rfl⟩)
      obtain ⟨b, m₀, hb, hm₀⟩ := hspec.wf.exists_coordinator hmem
      have hbefore : ∀ b', w.sessions.coordinator session = some b' → b' = b := by
        intro b' hb'
        rw [← hsessions] at hb'
        exact Option.some.inj ((hspec.coordinator b' hb').symm.trans hb)
      have hafter : b = id ∨ w.sessions.coordinator session = some b := by
        by_cases hne : b = id
        · exact .inl hne
        · rw [hspec.member_other b hne] at hm₀
          obtain ⟨b', _, hb', -⟩ := hconsistent.mirror.wf.exists_coordinator ⟨m₀, hm₀⟩
          rw [hsessions] at hb'
          obtain rfl := hbefore b' hb'
          exact .inr hb'
      let P (v : Worker) : Prop :=
        Until (Essential w.sessionPolicy id b) (Seated w.sessionPolicy session id b) w.log.length v ∧
          Gone id w.log.length v ∧ Gone b w.log.length v ∧
          (w.sessionPolicy = .close → Sole session b v) ∧ Mirror never never never v
      have hsole : DeliverKeeps env (disconnect env) fun v =>
          w.sessionPolicy = .close → Sole session b v := fun c msg late v hv hclose =>
        keepsStable_disconnect env _ (sole_stable session b) c msg late v (hv hclose)
      have hP : DeliverKeeps env (disconnect env) P :=
        ((watch_seated w.sessionPolicy session id b).deliver _ env).and
          ((gone_deliver id _ env).and ((gone_deliver b _ env).and
            (hsole.and (mirror_deliver env never never never))))
      let joined := (u.setSessions (u.sessions.join session id cs.principal.id).2).addSession id session
      have hlog : joined.log = w.log := (log_modifyClient _ _ _).trans hlog
      have hmap : joined.sessions = (u.sessions.join session id cs.principal.id).2 :=
        sessions_modifyClient _ _ _
      have hpolicy : joined.sessionPolicy = w.sessionPolicy := by
        have hjoined : Later (u.setSessions (u.sessions.join session id cs.principal.id).2) joined :=
          later_modifyClient _ id fun _ => rfl
        exact hjoined.policy.trans hlater.policy
      have hgone : ∀ c, Gone c w.log.length joined := fun c =>
        ⟨by rw [hlog], fun hfound => by rw [hlog, foundClosed_self] at hfound; cases hfound⟩
      have hsent : P (rosterSent env id session cs.principal.id u) := by
        refine hP _ _ _ joined ⟨⟨by rw [hlog], .inr ?_⟩, hgone id, hgone b, fun hclose => ?_,
          (hconsistent.joinSession hid session cs.principal.id).1.mirror⟩
        · exact ⟨hmap ▸ hspec.wf, hpolicy, hmap ▸ hmem, fun _ => hmap ▸ hb⟩
        · refine ⟨hmap ▸ hspec.wf, hpolicy.trans hclose, fun c hc => ?_⟩
          rw [hmap, hb] at hc
          exact (Option.some.inj hc).symm
      obtain ⟨hmsg, hclient, huntil, hgone, hcoordinator, hsole, hmirror⟩ := sweep_forall hP _ hsent m hm
      unfold Arrival.Genuine Arrival.Late
      rw [hmsg, hclient]
      refine (mem_iff_of_seated huntil hgone hcoordinator hsole hmirror).trans (not_congr ?_)
      constructor
      · rintro ⟨c, rfl | ⟨hclose, rfl⟩, hfound⟩
        · exact .inl hfound
        · rcases hafter with rfl | hb
          · exact .inl hfound
          · exact .inr ⟨hclose, c, hb, hfound⟩
      · rintro (hfound | ⟨hclose, b', hb', hfound⟩)
        · exact ⟨id, .inl rfl, hfound⟩
        · exact ⟨b', .inr ⟨hclose, hbefore b' hb'⟩, hfound⟩

/-- The announced connection is still a member exactly when no delivery of the command has found it
closed yet, nor the coordinator with whom its session closes. -/
theorem genuine_iff_of_arrival (h : Consistent w) {command : Command} :
    ∀ m ∈ arrivals env w command, m.Genuine ↔ ¬ m.Late w := by
  cases command with
  | subscribe id channel now => exact genuine_iff_of_subscribe h
  | sessionJoin id session now => exact genuine_iff_of_sessionJoin h
  | _ => exact fun m hm => absurd hm List.not_mem_nil

/-- **No phantom arrivals.** Every `Joined` and `MemberJoined` of a command is one of its
`arrivals`, and all those that are enqueued announce a connection that is then a member, if and only
if none is enqueued late. -/
theorem arrivals_genuine {policy : CoordinatorLeavePolicy} {rate : Option RateLimit} {w' : Worker}
    {turn : Turn} (h : (system env policy rate).Reachable w)
    (hstep : (system env policy rate).step w turn w') :
    (∀ a ∈ turn.attempts, a.msg.Arriving →
      ∃ m ∈ arrivals env w turn.command, m.Made env a w') ∧
    ((∀ m ∈ arrivals env w turn.command, m.Enqueued env → m.Genuine) ↔
      ∀ m ∈ arrivals env w turn.command, m.Enqueued env → ¬ m.Late w) := by
  have hw := (consistent_inductive env policy rate).reachable h
  obtain ⟨-, rfl, hlog⟩ := hstep
  constructor
  · intro a ha harriving
    obtain ⟨newer, mid, hmid⟩ := List.append_of_mem ha
    have hsplit : (handle env w turn.command).log = newer ++ a :: (mid ++ w.log) := by
      rw [hlog, hmid, List.append_assoc, List.cons_append]
    obtain ⟨m, hm, hattempt, hmade, -⟩ := (handle_accounted env w turn.command).2 newer a _ hsplit
      (by simp) harriving
    exact ⟨m, hm, hattempt, newer, hmade ▸ hsplit⟩
  · exact forall₂_congr fun m hm => imp_congr_right fun _ => genuine_iff_of_arrival hw m hm

/-! ## A client joins a channel that another one is in -/

instance (env : Env) (m : Arrival) : Decidable (m.Enqueued env) :=
  inferInstanceAs (Decidable (_ ∧ _))

def opening : List Command :=
  [.connect 1 ⟨"ada"⟩ 0, .connect 2 ⟨"bo"⟩ 0, .subscribe 1 "room" 0]

theorem opening_reachable (env : Env)
    (hfresh : freshAll env (.new .reelect none) opening = true) :
    (system env .reelect none).Reachable (opening.foldl (handle env) (.new .reelect none)) :=
  (reachable_foldl (C := fun _ => True) opening (.of_init rfl) hfresh fun _ _ => trivial).of_restrict

theorem arrivals_genuine_secondClient :
    ∃ m ∈ arrivals .open (opening.foldl (handle .open) (.new .reelect none)) (.subscribe 2 "room" 0),
      m.Enqueued .open ∧ m.Genuine := by
  obtain ⟨turn, hcommand, hstep⟩ := exists_turn .open .reelect none
    (show (Command.subscribe 2 "room" 0).Fresh
      (opening.foldl (handle .open) (.new .reelect none)) from trivial)
  have hgenuine := (arrivals_genuine (opening_reachable .open (by decide)) hstep).2
  rw [hcommand] at hgenuine
  have henqueued : ∃ m ∈ arrivals .open (opening.foldl (handle .open) (.new .reelect none))
      (.subscribe 2 "room" 0), m.Enqueued .open := by
    decide
  obtain ⟨m, hm, hsent⟩ := henqueued
  refine ⟨m, hm, hsent, hgenuine.2 (fun m hm _ => ?_) m hm hsent⟩
  have hall : ∀ m ∈ arrivals .open (opening.foldl (handle .open) (.new .reelect none))
      (.subscribe 2 "room" 0), m.msg = .joined "room" "bo" ∧
        foundClosed (opening.foldl (handle .open) (.new .reelect none)).log.length m.client
          m.worker.log = false := by
    decide
  obtain ⟨hmsg, hfound⟩ := hall m hm
  unfold Arrival.Late
  rw [hmsg, hfound]
  simp

/-- The receiver of client 2 is closed. -/
def secondClosed : Env :=
  { Env.open with outcome := fun _ id _ => if id = 2 then .closed else .sent }

/-- Client 2 is reaped while it is sent the snapshot of its channel; client 1 is told that it left, and
then that it joined. -/
theorem arrivals_phantom :
    ¬ ∀ (env : Env) (policy : CoordinatorLeavePolicy) (rate : Option RateLimit) (w w' : Worker)
      (turn : Turn), (system env policy rate).Reachable w → (system env policy rate).step w turn w' →
      ∀ m ∈ arrivals env w turn.command, m.Enqueued env → m.Genuine := by
  intro hclaim
  obtain ⟨turn, hcommand, hstep⟩ := exists_turn secondClosed .reelect none
    (show (Command.subscribe 2 "room" 0).Fresh
      (opening.foldl (handle secondClosed) (.new .reelect none)) from trivial)
  have hgenuine := hclaim _ _ _ _ _ _ (opening_reachable secondClosed (by decide)) hstep
  rw [hcommand] at hgenuine
  have hphantom : ∃ m ∈ arrivals secondClosed
      (opening.foldl (handle secondClosed) (.new .reelect none)) (.subscribe 2 "room" 0),
      m.Enqueued secondClosed ∧ m.msg = .joined "room" "bo" ∧
        m.client ∉ m.worker.presence.members "room" := by
    decide
  obtain ⟨m, hm, henqueued, hmsg, hmem⟩ := hphantom
  have hgenuine := hgenuine m hm henqueued
  unfold Arrival.Genuine at hgenuine
  rw [hmsg] at hgenuine
  exact hmem hgenuine

end Atomo.Hub

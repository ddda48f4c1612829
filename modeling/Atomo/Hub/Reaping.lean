import Atomo.Hub.Worker
import Atomo.Lib.Assoc

/-!
# Reaping in the middle of an operation

Rules for the nested disconnections. What every delivery keeps, the loops over deliveries keep
(`deliverAll_keeps` and the lemmas after it); what each single update of a disconnection keeps, a
disconnection keeps, however deep it nests (`Stable.onDisconnect`). The recursion bound is immaterial:
any bound at least the number of clients gives the same result (`onDisconnect_eq_disconnect`), and
`disconnect_eq` is the recursion as the code has it.
-/

namespace Atomo.Hub

variable {env : Env} {reap : ClientId → Worker → Worker} {P : Worker → Prop} {w : Worker}

/-! ## What deliveries keep -/

/-- Every delivery keeps `P`. -/
def DeliverKeeps (env : Env) (reap : ClientId → Worker → Worker) (P : Worker → Prop) : Prop :=
  ∀ id msg late w, P w → P (deliver env reap id msg late w)

theorem deliverKeeps (hrecord : ∀ w a, a.outcome ≠ .closed → P w → P (w.record a))
    (hreap : ∀ w a, a.outcome = .closed → a.target ∈ w.clients → P w →
      P (reap a.target (w.record a))) : DeliverKeeps env reap P := by
  intro id msg late w hw
  unfold deliver
  split
  · exact hw
  · next cs hcs =>
    have hmem : id ∈ w.clients := AList.lookup_isSome.1 (by rw [hcs]; rfl)
    simp only
    split
    · next hclosed => exact hreap w ⟨id, msg, _, late⟩ hclosed hmem hw
    · next hopen => exact hrecord w ⟨id, msg, _, late⟩ hopen hw

theorem DeliverKeeps.and {Q : Worker → Prop} (h : DeliverKeeps env reap P)
    (k : DeliverKeeps env reap Q) : DeliverKeeps env reap fun w => P w ∧ Q w :=
  fun id msg late w hw => ⟨h id msg late w hw.1, k id msg late w hw.2⟩

/-- Every delivery of the frames `M` keeps `P`. -/
def DeliverKeepsFor (env : Env) (reap : ClientId → Worker → Worker) (M : ServerMsg → Prop)
    (P : Worker → Prop) : Prop :=
  ∀ id msg late w, M msg → P w → P (deliver env reap id msg late w)

variable {M : ServerMsg → Prop}

theorem DeliverKeeps.for (h : DeliverKeeps env reap P) : DeliverKeepsFor env reap M P :=
  fun id msg late w _ hw => h id msg late w hw

theorem DeliverKeepsFor.mono {N : ServerMsg → Prop} (h : DeliverKeepsFor env reap M P)
    (hN : ∀ msg, N msg → M msg) : DeliverKeepsFor env reap N P :=
  fun id msg late w hmsg hw => h id msg late w (hN msg hmsg) hw

theorem deliverKeepsFor (hrecord : ∀ w a, M a.msg → P w → P (w.record a))
    (hreap : ∀ id w, P w → P (reap id w)) : DeliverKeepsFor env reap M P := by
  intro id msg late w hmsg hw
  unfold deliver
  split
  · exact hw
  · simp only
    split
    · exact hreap _ _ (hrecord w ⟨id, msg, _, late⟩ hmsg hw)
    · exact hrecord w ⟨id, msg, _, late⟩ hmsg hw

theorem deliverAll_keepsFor (h : DeliverKeepsFor env reap M P) {msg : ServerMsg} (hmsg : M msg)
    (targets : List ClientId) (hw : P w) : P (deliverAll env reap msg targets w) := by
  unfold deliverAll
  induction targets generalizing w with
  | nil => exact hw
  | cons target targets ih => exact ih (h target msg false w hmsg hw)

theorem deliverAll_keeps (h : DeliverKeeps env reap P) (msg : ServerMsg) (targets : List ClientId)
    (hw : P w) : P (deliverAll env reap msg targets w) :=
  deliverAll_keepsFor (M := fun _ => True) h.for trivial targets hw

theorem broadcastExcept_keeps (h : DeliverKeeps env reap P) (channel : String) (except : ClientId)
    (msg : ServerMsg) (hw : P w) : P (broadcastExcept env reap channel except msg w) :=
  deliverAll_keeps h msg _ hw

/-- The frames that `leave_session` sends. -/
def ServerMsg.OfSession : ServerMsg → Prop
  | .memberLeft .. | .coordinatorChanged .. | .sessionClosed .. => True
  | _ => False

/-- The frames that disconnections send. -/
def ServerMsg.Departing : ServerMsg → Prop
  | .left .. => True
  | msg => msg.OfSession

theorem ServerMsg.OfSession.departing {msg : ServerMsg} (h : msg.OfSession) : msg.Departing := by
  cases msg <;> first | exact h | trivial

theorem evictAll_keeps (h : DeliverKeepsFor env reap ServerMsg.OfSession P)
    (hdrop : ∀ w id session, P w → P (w.dropSession id session)) (session : String)
    (remaining : List SessionMember) (hw : P w) : P (evictAll env reap session remaining w) := by
  unfold evictAll
  induction remaining generalizing w with
  | nil => exact hw
  | cons m remaining ih => exact ih (h _ _ _ _ trivial (hdrop w m.clientId session hw))

theorem announceAll_keeps (h : DeliverKeepsFor env reap ServerMsg.OfSession P) (session : String)
    {left : ServerMsg} (hleft : left.OfSession) (newCoord : SessionMember) (base : Nat)
    (remaining : List SessionMember) (hw : P w) :
    P (announceAll env reap session left newCoord base remaining w) := by
  unfold announceAll
  induction remaining generalizing w with
  | nil => exact hw
  | cons m remaining ih => exact ih (h _ _ _ _ trivial (h _ _ _ _ hleft hw))

/-- The state in which `leave_session` starts to deliver. -/
def Worker.leftSession (w : Worker) (id : ClientId) (session : String) : Worker :=
  (w.setSessions (w.sessions.leave session id w.sessionPolicy).2).dropSession id session

theorem leaveSession_keepsFor (h : DeliverKeepsFor env reap ServerMsg.OfSession P)
    (hdrop : ∀ w id session, P w → P (w.dropSession id session))
    (hgauge : ∀ w : Worker, P w → P w.refreshSessionGauge) (id : ClientId) (session : String)
    (hleft : P w → P (w.leftSession id session)) (hw : P w) :
    P (leaveSession env reap id session w) := by
  unfold leaveSession
  have hleft := hleft hw
  unfold Worker.leftSession at hleft
  split
  · exact hw
  · next outcome sessions hleave =>
    rw [hleave] at hleft
    apply hgauge
    split
    · exact evictAll_keeps h hdrop _ _ hleft
    · exact announceAll_keeps h _ (by trivial) _ _ _ hleft
    · exact deliverAll_keepsFor h (by trivial) _ hleft

theorem leaveSession_keeps (h : DeliverKeeps env reap P)
    (hdrop : ∀ w id session, P w → P (w.dropSession id session))
    (hgauge : ∀ w : Worker, P w → P w.refreshSessionGauge) (id : ClientId) (session : String)
    (hleft : P w → P (w.leftSession id session)) (hw : P w) :
    P (leaveSession env reap id session w) :=
  leaveSession_keepsFor h.for hdrop hgauge id session hleft hw

theorem leaveChannelOf_keepsFor (h : DeliverKeepsFor env reap ServerMsg.Departing P) (id : ClientId)
    (who channel : String) (hleave : P w → P (w.setPresence (w.presence.leave channel id).2))
    (hw : P w) : P (leaveChannelOf env reap id who channel w) := by
  unfold leaveChannelOf
  simp only
  split
  · exact deliverAll_keepsFor h (by trivial) _ (hleave hw)
  · exact hleave hw

theorem leaveChannelOf_keeps (h : DeliverKeeps env reap P) (id : ClientId) (who channel : String)
    (hleave : P w → P (w.setPresence (w.presence.leave channel id).2)) (hw : P w) :
    P (leaveChannelOf env reap id who channel w) :=
  leaveChannelOf_keepsFor h.for id who channel hleave hw

/-- A loop whose invariant speaks about the items still to come. -/
theorem foldl_consumes {α : Type} {f : Worker → α → Worker} (P : List α → Worker → Prop)
    (hf : ∀ x rest w, P (x :: rest) w → P rest (f w x)) (l : List α) (hw : P l w) :
    P [] (l.foldl f w) := by
  induction l generalizing w with
  | nil => exact hw
  | cons x rest ih => exact ih (hf x rest w hw)

theorem foldl_keeps {α : Type} {f : Worker → α → Worker} (l : List α)
    (hf : ∀ w, ∀ x ∈ l, P w → P (f w x)) (hw : P w) : P (l.foldl f w) := by
  induction l generalizing w with
  | nil => exact hw
  | cons x l ih =>
    rw [List.foldl_cons]
    exact ih (fun w y hy => hf w y (List.mem_cons_of_mem x hy)) (hf w x (List.mem_cons_self) hw)

/-- The two loops of a disconnection keep `P`, which its last updates turn into `Q`. -/
theorem reapClient_keeps {Q : Worker → Prop} {id : ClientId} {cs : ClientState}
    (hchannel : ∀ w channel, P w → P (leaveChannelOf env reap id cs.principal.id channel w))
    (hsession : ∀ w session, P w → P (leaveSession env reap id session w))
    (hw : P (w.eraseClient id)) (hclose : ∀ w : Worker, P w → Q w.countClosed.refreshChannelGauge) :
    Q (reapClient env reap id cs w) :=
  hclose _ (foldl_keeps _ (fun w session _ hw => hsession w session hw)
    (foldl_keeps _ (fun w channel _ hw => hchannel w channel hw) hw))

/-! ## What every update of a disconnection keeps -/

/-- `P` is kept by each single update that disconnections are made of. -/
structure Steady (P : Worker → Prop) : Prop where
  record : ∀ w a, a.msg.Departing → P w → P (w.record a)
  eraseClient : ∀ w id, P w → P (w.eraseClient id)
  dropSession : ∀ w id session, P w → P (w.dropSession id session)
  leavePresence : ∀ w id channel, P w → P (w.setPresence (w.presence.leave channel id).2)
  leaveSessions : ∀ w id session,
    P w → P (w.setSessions (w.sessions.leave session id w.sessionPolicy).2)
  countClosed : ∀ w : Worker, P w → P w.countClosed
  refreshChannelGauge : ∀ w : Worker, P w → P w.refreshChannelGauge
  refreshSessionGauge : ∀ w : Worker, P w → P w.refreshSessionGauge

theorem Steady.reapClient (h : Steady P) (hkeeps : DeliverKeepsFor env reap ServerMsg.Departing P)
    (id : ClientId) (cs : ClientState) (hw : P (w.eraseClient id)) :
    P (reapClient env reap id cs w) := by
  refine reapClient_keeps ?_ ?_ hw fun w hw => h.refreshChannelGauge _ (h.countClosed w hw)
  · intro w channel hw
    exact leaveChannelOf_keepsFor hkeeps _ _ _ (fun hw => h.leavePresence w _ _ hw) hw
  · intro w session hw
    exact leaveSession_keepsFor (hkeeps.mono fun _ => ServerMsg.OfSession.departing) h.dropSession h.refreshSessionGauge _ _
      (fun hw => h.dropSession _ _ _ (h.leaveSessions w _ _ hw)) hw

theorem Steady.onDisconnect (h : Steady P) (fuel : Nat) (id : ClientId) (hw : P w) :
    P (onDisconnect env fuel id w) := by
  induction fuel generalizing w id with
  | zero => exact hw
  | succ fuel ih =>
    unfold Hub.onDisconnect
    split
    · exact hw
    · exact h.reapClient (deliverKeepsFor h.record fun c _ => ih c) id _ (h.eraseClient w id hw)

theorem Steady.disconnect (h : Steady P) (id : ClientId) (hw : P w) : P (disconnect env id w) :=
  h.onDisconnect _ id hw

theorem Steady.deliver (h : Steady P) (env : Env) :
    DeliverKeepsFor env (Hub.disconnect env) ServerMsg.Departing P :=
  deliverKeepsFor h.record fun id _ hw => h.disconnect id hw

/-- `P` is kept by each of these updates, and by any delivery. -/
structure Stable (P : Worker → Prop) : Prop where
  record : ∀ w a, P w → P (w.record a)
  eraseClient : ∀ w id, P w → P (w.eraseClient id)
  dropSession : ∀ w id session, P w → P (w.dropSession id session)
  leavePresence : ∀ w id channel, P w → P (w.setPresence (w.presence.leave channel id).2)
  leaveSessions : ∀ w id session,
    P w → P (w.setSessions (w.sessions.leave session id w.sessionPolicy).2)
  countClosed : ∀ w : Worker, P w → P w.countClosed
  refreshChannelGauge : ∀ w : Worker, P w → P w.refreshChannelGauge
  refreshSessionGauge : ∀ w : Worker, P w → P w.refreshSessionGauge

theorem Stable.steady (h : Stable P) : Steady P where
  record w a _ := h.record w a
  eraseClient := h.eraseClient
  dropSession := h.dropSession
  leavePresence := h.leavePresence
  leaveSessions := h.leaveSessions
  countClosed := h.countClosed
  refreshChannelGauge := h.refreshChannelGauge
  refreshSessionGauge := h.refreshSessionGauge

theorem Stable.reapClient (h : Stable P) (hkeeps : DeliverKeeps env reap P) (id : ClientId)
    (cs : ClientState) (hw : P (w.eraseClient id)) : P (reapClient env reap id cs w) :=
  h.steady.reapClient hkeeps.for id cs hw

theorem Stable.onDisconnect (h : Stable P) (fuel : Nat) (id : ClientId) (hw : P w) :
    P (onDisconnect env fuel id w) :=
  h.steady.onDisconnect fuel id hw

theorem Stable.deliver (h : Stable P) (fuel : Nat) : DeliverKeeps env (Hub.onDisconnect env fuel) P :=
  deliverKeeps (fun w a _ hw => h.record w a hw) fun w a _ _ hw =>
    h.onDisconnect fuel _ (h.record w a hw)

/-- Every delivery, reaping included, keeps what each single update of a disconnection keeps. -/
def KeepsStable (env : Env) (reap : ClientId → Worker → Worker) : Prop :=
  ∀ P, Stable P → DeliverKeeps env reap P

theorem keepsStable_onDisconnect (env : Env) (fuel : Nat) :
    KeepsStable env (onDisconnect env fuel) :=
  fun _ h => h.deliver fuel

theorem Stable.disconnect (h : Stable P) (id : ClientId) (hw : P w) : P (disconnect env id w) :=
  h.onDisconnect _ id hw

theorem keepsStable_disconnect (env : Env) : KeepsStable env (disconnect env) :=
  fun _ h => deliverKeeps (fun w a _ hw => h.record w a hw) fun w a _ _ hw =>
    h.disconnect _ (h.record w a hw)

/-! ## Disconnections only take away -/

/-- The number of connected clients. -/
def Worker.card (w : Worker) : Nat :=
  w.clients.entries.length

theorem lookup_modifyClient (w : Worker) (id c : ClientId) (f : ClientState → ClientState) :
    (w.modifyClient id f).clients.lookup c =
      if c = id then (w.clients.lookup id).map f else w.clients.lookup c := by
  unfold Worker.modifyClient
  split
  · next cs hcs =>
    split
    · next hc =>
      subst hc
      rw [hcs]
      exact AList.lookup_insert _
    · next hc => exact AList.lookup_insert_ne hc
  · next hnone =>
    split
    · next hc =>
      subst hc
      rw [hnone]
      rfl
    · rfl

@[simp] theorem card_modifyClient (w : Worker) (id : ClientId) (f : ClientState → ClientState) :
    (w.modifyClient id f).card = w.card := by
  unfold Worker.modifyClient
  split
  · next cs hcs =>
    exact AList.length_insert_of_mem (AList.lookup_isSome.1 (by rw [hcs]; rfl))
  · rfl

@[simp] theorem presence_modifyClient (w : Worker) (id : ClientId) (f : ClientState → ClientState) :
    (w.modifyClient id f).presence = w.presence := by
  unfold Worker.modifyClient
  split <;> rfl

@[simp] theorem sessions_modifyClient (w : Worker) (id : ClientId) (f : ClientState → ClientState) :
    (w.modifyClient id f).sessions = w.sessions := by
  unfold Worker.modifyClient
  split <;> rfl

@[simp] theorem log_modifyClient (w : Worker) (id : ClientId) (f : ClientState → ClientState) :
    (w.modifyClient id f).log = w.log := by
  unfold Worker.modifyClient
  split <;> rfl

@[simp] theorem stats_modifyClient (w : Worker) (id : ClientId) (f : ClientState → ClientState) :
    (w.modifyClient id f).stats = w.stats := by
  unfold Worker.modifyClient
  split <;> rfl

/-- `w` has come after `v` by deliveries and disconnections only. -/
structure Later (v w : Worker) : Prop where
  log : ∃ new, w.log = new ++ v.log
  clients : ∀ c cs', w.clients.lookup c = some cs' →
    ∃ cs, v.clients.lookup c = some cs ∧ cs'.principal = cs.principal
  card : w.card ≤ v.card
  policy : w.sessionPolicy = v.sessionPolicy
  joinRate : w.joinRate = v.joinRate
  opened : w.stats.connectionsOpened = v.stats.connectionsOpened

theorem Later.refl (w : Worker) : Later w w where
  log := ⟨[], rfl⟩
  clients _ cs h := ⟨cs, h, rfl⟩
  card := le_rfl
  policy := rfl
  joinRate := rfl
  opened := rfl

theorem Later.trans {u v w : Worker} (huv : Later u v) (hvw : Later v w) : Later u w where
  log := by
    obtain ⟨l, hl⟩ := huv.log
    obtain ⟨m, hm⟩ := hvw.log
    exact ⟨m ++ l, by rw [hm, hl, List.append_assoc]⟩
  clients c cs h := by
    obtain ⟨cs₁, h₁, hp₁⟩ := hvw.clients c cs h
    obtain ⟨cs₂, h₂, hp₂⟩ := huv.clients c cs₁ h₁
    exact ⟨cs₂, h₂, hp₁.trans hp₂⟩
  card := hvw.card.trans huv.card
  policy := hvw.policy.trans huv.policy
  joinRate := hvw.joinRate.trans huv.joinRate
  opened := hvw.opened.trans huv.opened

/-- A client that has gone does not come back. -/
theorem Later.not_mem {v w : Worker} (h : Later v w) {c : ClientId} (hc : c ∉ v.clients) :
    c ∉ w.clients := by
  intro hmem
  obtain ⟨cs, hcs⟩ := Option.isSome_iff_exists.1 (AList.lookup_isSome.2 hmem)
  obtain ⟨cs', hcs', -⟩ := h.clients c cs hcs
  exact hc (AList.lookup_isSome.1 (by rw [hcs']; rfl))

theorem later_record (w : Worker) (a : Attempt) : Later w (w.record a) where
  log := ⟨[a], rfl⟩
  clients _ cs h := ⟨cs, h, rfl⟩
  card := le_rfl
  policy := rfl
  joinRate := rfl
  opened := by
    unfold Worker.record
    cases a.outcome <;> rfl

theorem later_modifyClient (w : Worker) (id : ClientId) {f : ClientState → ClientState}
    (hf : ∀ cs, (f cs).principal = cs.principal) : Later w (w.modifyClient id f) where
  log := ⟨[], log_modifyClient w id f⟩
  clients c cs' h := by
    rw [lookup_modifyClient] at h
    split at h
    · next hc =>
      obtain ⟨cs, hcs, rfl⟩ := Option.map_eq_some_iff.1 h
      exact ⟨cs, hc ▸ hcs, hf cs⟩
    · exact ⟨cs', h, rfl⟩
  card := (card_modifyClient w id f).le
  policy := by unfold Worker.modifyClient; split <;> rfl
  joinRate := by unfold Worker.modifyClient; split <;> rfl
  opened := by rw [stats_modifyClient]

theorem later_eraseClient (w : Worker) (id : ClientId) : Later w (w.eraseClient id) where
  log := ⟨[], rfl⟩
  clients c cs h := by
    have h : (w.clients.erase id).lookup c = some cs := h
    by_cases hc : c = id
    · subst hc
      rw [AList.lookup_erase] at h
      cases h
    · rw [AList.lookup_erase_ne hc] at h
      exact ⟨cs, h, rfl⟩
  card := AList.length_erase_le
  policy := rfl
  joinRate := rfl
  opened := rfl

/-- An update that touches none of the fields `Later` speaks about. -/
theorem Later.of_eq {v w : Worker} (hlog : w.log = v.log) (hclients : w.clients = v.clients)
    (hpolicy : w.sessionPolicy = v.sessionPolicy) (hrate : w.joinRate = v.joinRate)
    (hopened : w.stats.connectionsOpened = v.stats.connectionsOpened) : Later v w where
  log := ⟨[], hlog⟩
  clients _ cs h := ⟨cs, hclients ▸ h, rfl⟩
  card := (congrArg (fun s => s.entries.length) hclients).le
  policy := hpolicy
  joinRate := hrate
  opened := hopened

theorem later_stable (v : Worker) : Stable (Later v) where
  record w a h := h.trans (later_record w a)
  eraseClient w id h := h.trans (later_eraseClient w id)
  dropSession w id _ h := h.trans (later_modifyClient w id fun _ => rfl)
  leavePresence _ _ _ h := h.trans (.of_eq rfl rfl rfl rfl rfl)
  leaveSessions _ _ _ h := h.trans (.of_eq rfl rfl rfl rfl rfl)
  countClosed _ h := h.trans (.of_eq rfl rfl rfl rfl rfl)
  refreshChannelGauge _ h := h.trans (.of_eq rfl rfl rfl rfl rfl)
  refreshSessionGauge _ h := h.trans (.of_eq rfl rfl rfl rfl rfl)

/-- What time keeps, every update of a disconnection keeps. -/
theorem Stable.of_later (h : ∀ v w, Later v w → P v → P w) : Stable P where
  record w a := h _ _ (later_record w a)
  eraseClient w id := h _ _ (later_eraseClient w id)
  dropSession w id session := h _ _ ((later_stable w).dropSession w id session (.refl w))
  leavePresence w id channel := h _ _ ((later_stable w).leavePresence w id channel (.refl w))
  leaveSessions w id session := h _ _ ((later_stable w).leaveSessions w id session (.refl w))
  countClosed w := h _ _ ((later_stable w).countClosed w (.refl w))
  refreshChannelGauge w := h _ _ ((later_stable w).refreshChannelGauge w (.refl w))
  refreshSessionGauge w := h _ _ ((later_stable w).refreshSessionGauge w (.refl w))

theorem stable_not_mem (id : ClientId) : Stable fun w => id ∉ w.clients :=
  .of_later fun _ _ h => h.not_mem

theorem later_onDisconnect (env : Env) (fuel : Nat) (id : ClientId) (w : Worker) :
    Later w (onDisconnect env fuel id w) :=
  (later_stable w).onDisconnect fuel id (.refl w)

theorem later_deliver (env : Env) (fuel : Nat) (id : ClientId) (msg : ServerMsg) (late : Bool)
    (w : Worker) : Later w (deliver env (onDisconnect env fuel) id msg late w) :=
  (later_stable w).deliver fuel id msg late w (.refl w)

/-! ## The recursion bound -/

/-- Two ways of reaping that agree on workers with at most `k` clients, the first of which never adds
a client. -/
structure AgreeTo (k : Nat) (reap reap' : ClientId → Worker → Worker) : Prop where
  eq : ∀ id w, w.card ≤ k → reap id w = reap' id w
  card_le : ∀ id w, (reap id w).card ≤ w.card

variable {reap' : ClientId → Worker → Worker} {k : Nat}

/-- Two loops whose bodies agree while the number of clients is at most `k`. -/
theorem foldl_congr_card {α : Type} {f g : Worker → α → Worker} (l : List α)
    (heq : ∀ w x, w.card ≤ k → f w x = g w x) (hle : ∀ w x, (f w x).card ≤ w.card)
    (hw : w.card ≤ k) : l.foldl f w = l.foldl g w := by
  induction l generalizing w with
  | nil => rfl
  | cons x l ih =>
    rw [List.foldl_cons, List.foldl_cons, ← heq w x hw]
    exact ih ((hle w x).trans hw)

theorem deliver_congr (h : AgreeTo k reap reap') (id : ClientId) (msg : ServerMsg) (late : Bool)
    (hw : w.card ≤ k) : deliver env reap id msg late w = deliver env reap' id msg late w := by
  unfold deliver
  split
  · rfl
  · simp only
    split
    · exact h.eq _ _ hw
    · rfl

theorem deliverKeeps_card (hle : ∀ id w, (reap id w).card ≤ w.card) (n : Nat) :
    DeliverKeeps env reap fun w => w.card ≤ n :=
  deliverKeeps (fun _ _ _ hw => hw) fun w a _ _ hw => (hle a.target (w.record a)).trans hw

theorem card_deliver_le (h : AgreeTo k reap reap') (id : ClientId) (msg : ServerMsg) (late : Bool)
    (w : Worker) : (deliver env reap id msg late w).card ≤ w.card :=
  deliverKeeps_card h.card_le w.card id msg late w le_rfl

theorem deliverAll_congr (h : AgreeTo k reap reap') (msg : ServerMsg) (targets : List ClientId)
    (hw : w.card ≤ k) : deliverAll env reap msg targets w = deliverAll env reap' msg targets w :=
  foldl_congr_card targets (fun _ _ hv => deliver_congr h _ _ _ hv)
    (fun v _ => card_deliver_le h _ _ _ v) hw

theorem leaveChannelOf_congr (h : AgreeTo k reap reap') (id : ClientId) (who channel : String)
    (hw : w.card ≤ k) :
    leaveChannelOf env reap id who channel w = leaveChannelOf env reap' id who channel w := by
  unfold leaveChannelOf
  simp only
  split
  · exact deliverAll_congr h _ _ hw
  · rfl

theorem leaveSession_congr (h : AgreeTo k reap reap') (id : ClientId) (session : String)
    (hw : w.card ≤ k) :
    leaveSession env reap id session w = leaveSession env reap' id session w := by
  unfold leaveSession
  split
  · rfl
  · next outcome sessions _ =>
    have hw : ((w.setSessions sessions).dropSession id session).card ≤ k := by
      rw [Worker.dropSession, card_modifyClient]
      exact hw
    simp only
    refine congrArg Worker.refreshSessionGauge ?_
    split
    · refine foldl_congr_card _ (fun v m hv => ?_) (fun v m => ?_) hw
      · exact deliver_congr h _ _ _ (by rw [Worker.dropSession, card_modifyClient]; exact hv)
      · exact (card_deliver_le h _ _ _ _).trans (card_modifyClient v _ _).le
    · refine foldl_congr_card _ (fun v m hv => ?_) (fun v m => ?_) hw
      · simp only
        rw [← deliver_congr h m.clientId _ false hv]
        exact deliver_congr h _ _ _ ((card_deliver_le h _ _ _ v).trans hv)
      · exact (card_deliver_le h _ _ _ _).trans (card_deliver_le h _ _ _ v)
    · exact deliverAll_congr h _ _ hw

theorem card_leaveChannelOf_le (h : AgreeTo k reap reap') (id : ClientId) (who channel : String)
    (w : Worker) : (leaveChannelOf env reap id who channel w).card ≤ w.card :=
  leaveChannelOf_keeps (deliverKeeps_card h.card_le w.card) id who channel (fun hw => hw) le_rfl

theorem card_leaveSession_le (h : AgreeTo k reap reap') (id : ClientId) (session : String)
    (w : Worker) : (leaveSession env reap id session w).card ≤ w.card := by
  have hdrop : ∀ (v : Worker) c x, v.card ≤ w.card → (v.dropSession c x).card ≤ w.card :=
    fun v c x hv => (card_modifyClient v c _).le.trans hv
  exact leaveSession_keeps (deliverKeeps_card h.card_le w.card) hdrop (fun _ hv => hv) id session
    (fun hw => hdrop (w.setSessions _) id session hw) le_rfl

theorem foldl_card_le {α : Type} {f : Worker → α → Worker} (l : List α)
    (hle : ∀ w x, (f w x).card ≤ w.card) (w : Worker) : (l.foldl f w).card ≤ w.card :=
  foldl_keeps (P := fun v => v.card ≤ w.card) l (fun v x _ hv => (hle v x).trans hv) le_rfl

theorem card_eraseClient {w : Worker} {id : ClientId} (h : id ∈ w.clients) :
    (w.eraseClient id).card + 1 = w.card :=
  AList.length_erase_of_mem h

theorem lookup_of_card_zero (h : w.card = 0) (id : ClientId) : w.clients.lookup id = none := by
  have hnil : w.clients.entries = [] := List.length_eq_zero_iff.1 h
  rw [AList.lookup_eq_none, AList.mem_keys, AList.keys, hnil]
  simp

theorem reapClient_congr {id : ClientId} {cs : ClientState}
    (h : AgreeTo (w.eraseClient id).card reap reap') :
    reapClient env reap id cs w = reapClient env reap' id cs w := by
  unfold reapClient
  simp only
  rw [← foldl_congr_card _ (fun v channel hv => leaveChannelOf_congr h id _ channel hv)
      (fun v channel => card_leaveChannelOf_le h id _ channel v) le_rfl,
    ← foldl_congr_card _ (fun v session hv => leaveSession_congr h id session hv)
      (fun v session => card_leaveSession_le h id session v)
      (foldl_card_le _ (fun v channel => card_leaveChannelOf_le h id _ channel v) _)]

/-- Beyond the number of clients the bound does not matter. -/
theorem onDisconnect_congr (env : Env) (fuel fuel' : Nat) (id : ClientId) (w : Worker)
    (h : w.card ≤ fuel) (h' : w.card ≤ fuel') :
    onDisconnect env fuel id w = onDisconnect env fuel' id w := by
  induction fuel generalizing fuel' id w with
  | zero =>
    have hnone := lookup_of_card_zero (Nat.le_zero.1 h) id
    cases fuel' with
    | zero => rfl
    | succ fuel' => rw [onDisconnect, onDisconnect, hnone]
  | succ fuel ih =>
    cases fuel' with
    | zero => rw [onDisconnect, onDisconnect, lookup_of_card_zero (Nat.le_zero.1 h') id]
    | succ fuel' =>
      rw [onDisconnect, onDisconnect]
      split
      · rfl
      · next cs hcs =>
        have hcard := card_eraseClient (AList.lookup_isSome.1 (by rw [hcs]; rfl) : id ∈ w.clients)
        apply reapClient_congr
        exact
          { eq := fun c v hv => ih fuel' c v (by omega) (by omega)
            card_le := fun c v => (later_onDisconnect env fuel c v).card }

/-- `on_disconnect` as the code has it: the nested disconnections are disconnections themselves. -/
theorem disconnect_eq (env : Env) (id : ClientId) (w : Worker) :
    disconnect env id w =
      match w.clients.lookup id with
      | none => w
      | some cs => reapClient env (disconnect env) id cs w := by
  show onDisconnect env w.card id w = _
  rw [onDisconnect_congr env w.card (w.card + 1) id w le_rfl (Nat.le_succ _), onDisconnect]
  cases hcs : w.clients.lookup id with
  | none => rfl
  | some cs =>
    have hcard := card_eraseClient (AList.lookup_isSome.1 (by rw [hcs]; rfl) : id ∈ w.clients)
    apply reapClient_congr
    exact
      { eq := fun c v hv => onDisconnect_congr env w.card v.card c v (by omega) le_rfl
        card_le := fun c v => (later_onDisconnect env w.card c v).card }

/-- A client that is disconnected has gone. -/
theorem onDisconnect_gone {fuel : Nat} (id : ClientId) (hfuel : w.card ≤ fuel) :
    id ∉ (onDisconnect env fuel id w).clients := by
  cases fuel with
  | zero => exact AList.lookup_eq_none.1 (lookup_of_card_zero (Nat.le_zero.1 hfuel) id)
  | succ fuel =>
    rw [onDisconnect]
    split
    · next hnone => exact AList.lookup_eq_none.1 hnone
    · next cs _ =>
      have hlater : Later (w.eraseClient id) (reapClient env (onDisconnect env fuel) id cs w) :=
        (later_stable _).reapClient ((later_stable _).deliver fuel) id cs (.refl _)
      exact hlater.not_mem (by simp [Worker.eraseClient])

end Atomo.Hub

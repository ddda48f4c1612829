import Atomo.Hub.Consistency

/-!
# Departures

In the middle of an operation a client departs only because its receiver has been found closed.
`Watch.deliver` is the rule for what then follows: a property that only the departure of certain
clients can end holds until the receiver of one of them has been found closed. `gone_deliver` is the
converse for the client itself: once found closed, it is gone.
-/

namespace Atomo.Hub

variable {env : Env} {reap : ClientId → Worker → Worker} {w : Worker} {id c : ClientId} {base : Nat}
  {S : ClientId → Prop} {Q : Worker → Prop}

/-! ## Receivers found closed -/

theorem foundClosed_append {log : List Attempt} (new : List Attempt)
    (hbase : base ≤ log.length) (h : foundClosed base c log = true) :
    foundClosed base c (new ++ log) = true := by
  unfold foundClosed at h ⊢
  rw [List.any_eq_true] at h ⊢
  obtain ⟨a, ha, hclosed⟩ := h
  refine ⟨a, ?_, hclosed⟩
  have hlength : (new ++ log).length - base = new.length + (log.length - base) := by
    rw [List.length_append]
    omega
  rw [hlength, List.take_length_add_append]
  exact List.mem_append_right new ha

theorem foundClosed_cons {a : Attempt} {log : List Attempt} (hbase : base ≤ log.length) :
    foundClosed base c (a :: log) = true ↔
      a.target = c ∧ a.outcome = .closed ∨ foundClosed base c log = true := by
  have hlength : (a :: log).length - base = log.length - base + 1 := by
    rw [List.length_cons]
    omega
  unfold foundClosed
  rw [hlength, List.take_succ_cons, List.any_cons, Bool.or_eq_true]
  simp

theorem foundClosed_self {log : List Attempt} : foundClosed log.length c log = false := by
  unfold foundClosed
  rw [Nat.sub_self, List.take_zero]
  rfl

/-- Since `base` deliveries had been made, the receiver of one of `S` has been found closed. -/
def FoundAny (S : ClientId → Prop) (base : Nat) (log : List Attempt) : Prop :=
  ∃ c, S c ∧ foundClosed base c log = true

theorem FoundAny.append {log : List Attempt} (h : FoundAny S base log) (hbase : base ≤ log.length)
    (new : List Attempt) : FoundAny S base (new ++ log) := by
  obtain ⟨c, hc, hfound⟩ := h
  exact ⟨c, hc, foundClosed_append new hbase hfound⟩

theorem FoundAny.later {w' : Worker} (h : FoundAny S base w.log) (hbase : base ≤ w.log.length)
    (hw : Later w w') : FoundAny S base w'.log := by
  obtain ⟨new, hnew⟩ := hw.log
  rw [hnew]
  exact h.append hbase new

theorem Later.length_le {w' : Worker} (hw : Later w w') : w.log.length ≤ w'.log.length := by
  obtain ⟨new, hnew⟩ := hw.log
  rw [hnew, List.length_append]
  omega

/-! ## What only certain departures end -/

/-- Of the updates that disconnections are made of, only those for a client of `S` can end `Q`. -/
structure Watch (S : ClientId → Prop) (Q : Worker → Prop) : Prop where
  record : ∀ w a, Q w → Q (w.record a)
  eraseClient : ∀ w id, ¬ S id → Q w → Q (w.eraseClient id)
  dropSession : ∀ w id session, Q w → Q (w.dropSession id session)
  leavePresence : ∀ w id channel, ¬ S id → Q w → Q (w.setPresence (w.presence.leave channel id).2)
  leaveSessions : ∀ w id session, ¬ S id →
    Q w → Q (w.setSessions (w.sessions.leave session id w.sessionPolicy).2)
  countClosed : ∀ w : Worker, Q w → Q w.countClosed
  refreshChannelGauge : ∀ w : Worker, Q w → Q w.refreshChannelGauge
  refreshSessionGauge : ∀ w : Worker, Q w → Q w.refreshSessionGauge

/-- One of `S` has been found closed since, or `Q` still holds. -/
structure Until (S : ClientId → Prop) (Q : Worker → Prop) (base : Nat) (w : Worker) : Prop where
  base_le : base ≤ w.log.length
  holds : FoundAny S base w.log ∨ Q w

theorem Until.later {w' : Worker} (h : Until S Q base w) (hw : Later w w')
    (hQ : FoundAny S base w.log ∨ (Q w → Q w')) : Until S Q base w' where
  base_le := h.base_le.trans hw.length_le
  holds := by
    rcases h.holds with hfound | hq
    · exact .inl (hfound.later h.base_le hw)
    · rcases hQ with hfound | hQ
      · exact .inl (hfound.later h.base_le hw)
      · exact .inr (hQ hq)

/-- The client that leaves is not of `S`, unless one of `S` has been found closed. -/
def Until.Spared (S : ClientId → Prop) (Q : Worker → Prop) (base : Nat) (id : ClientId)
    (w : Worker) : Prop :=
  Until S Q base w ∧ (¬ S id ∨ FoundAny S base w.log)

theorem Until.Spared.later {w' : Worker} (h : Until.Spared S Q base id w) (hw : Later w w')
    (huntil : Until S Q base w') : Until.Spared S Q base id w' :=
  ⟨huntil, h.2.imp_right fun hfound => hfound.later h.1.base_le hw⟩

/-- An update for the client that leaves. -/
theorem Until.Spared.leave {w' : Worker} (h : Until.Spared S Q base id w) (hw : Later w w')
    (hQ : ¬ S id → Q w → Q w') : Until.Spared S Q base id w' :=
  h.later hw (h.1.later hw (h.2.symm.imp_right hQ))

def ReapSpares (S : ClientId → Prop) (Q : Worker → Prop) (base : Nat)
    (reap : ClientId → Worker → Worker) : Prop :=
  ∀ id w, Until.Spared S Q base id w → Until S Q base (reap id w)

theorem Watch.deliver_of_reap (h : Watch S Q) (hreap : ReapSpares S Q base reap) :
    DeliverKeeps env reap (Until S Q base) := by
  have hrecord : ∀ w a, Until S Q base w → Until S Q base (w.record a) := fun w a hw =>
    hw.later (later_record w a) (.inr (h.record w a))
  refine deliverKeeps (fun w a _ hw => hrecord w a hw) fun w a hclosed _ hw => ?_
  refine hreap a.target _ ⟨hrecord w a hw, ?_⟩
  by_cases ha : S a.target
  · exact .inr ⟨a.target, ha, (foundClosed_cons hw.base_le).2 (.inl ⟨rfl, hclosed⟩)⟩
  · exact .inl ha

theorem Watch.onDisconnect (h : Watch S Q) (base : Nat) (env : Env) (fuel : Nat) :
    ReapSpares S Q base (onDisconnect env fuel) := by
  induction fuel with
  | zero => exact fun id w hw => hw.1
  | succ fuel ih =>
    intro id w hw
    have hkeeps : DeliverKeeps env (Hub.onDisconnect env fuel) (Until.Spared S Q base id) :=
      fun c msg late w hw => hw.later (later_deliver env fuel c msg late w)
        (h.deliver_of_reap ih c msg late w hw.1)
    have hdrop : ∀ (w : Worker) c x, Until.Spared S Q base id w →
        Until.Spared S Q base id (w.dropSession c x) := fun w c x hw =>
      have hlater := (later_stable w).dropSession w c x (.refl w)
      hw.later hlater (hw.1.later hlater (.inr (h.dropSession w c x)))
    unfold Hub.onDisconnect
    split
    · exact hw.1
    · refine reapClient_keeps (P := Until.Spared S Q base id) ?_ ?_ ?_ fun w hw => ?_
      · intro w channel hw
        exact leaveChannelOf_keeps hkeeps _ _ _
          (fun _ => hw.leave (.of_eq rfl rfl rfl rfl rfl) (h.leavePresence w id channel)) hw
      · intro w session hw
        refine leaveSession_keeps hkeeps hdrop (fun w hw => ?_) _ _ (fun hw => ?_) hw
        · have hlater : Later w w.refreshSessionGauge := .of_eq rfl rfl rfl rfl rfl
          exact hw.later hlater (hw.1.later hlater (.inr (h.refreshSessionGauge w)))
        · exact hdrop _ _ _ (hw.leave (.of_eq rfl rfl rfl rfl rfl) (h.leaveSessions w id session))
      · exact hw.leave (later_eraseClient w id) (h.eraseClient w id)
      · exact hw.1.later (.of_eq rfl rfl rfl rfl rfl)
          (.inr fun hq => h.refreshChannelGauge _ (h.countClosed w hq))

theorem Watch.disconnect (h : Watch S Q) (base : Nat) (env : Env) :
    ReapSpares S Q base (disconnect env) :=
  fun id w hw => h.onDisconnect base env w.card id w hw

theorem Watch.deliver (h : Watch S Q) (base : Nat) (env : Env) :
    DeliverKeeps env (Hub.disconnect env) (Until S Q base) :=
  h.deliver_of_reap (h.disconnect base env)

/-! ## Who has been found closed is gone -/

/-- Once found closed, the client is gone. -/
structure Gone (c : ClientId) (base : Nat) (w : Worker) : Prop where
  base_le : base ≤ w.log.length
  gone : foundClosed base c w.log = true → c ∉ w.clients

theorem Gone.congr {w' : Worker} (h : Gone c base w) (hw : Later w w') (hlog : w'.log = w.log) :
    Gone c base w' where
  base_le := h.base_le.trans hw.length_le
  gone hfound := hw.not_mem (h.gone (hlog ▸ hfound))

theorem Gone.of_record {a : Attempt} (h : Gone c base w) (ha : ¬ (a.target = c ∧ a.outcome = .closed))
    (hfound : foundClosed base c (w.record a).log = true) : c ∉ w.clients :=
  h.gone (((foundClosed_cons h.base_le).1 hfound).resolve_left ha)

theorem gone_onDisconnect (c : ClientId) (base : Nat) (env : Env) (k : Nat) :
    ∀ id w, w.card ≤ k → base ≤ w.log.length →
      (id ≠ c → foundClosed base c w.log = true → c ∉ w.clients) →
      Gone c base (onDisconnect env k id w) := by
  induction k with
  | zero =>
    intro id w hcard hbase _
    exact ⟨hbase, fun _ => AList.lookup_eq_none.1 (lookup_of_card_zero (Nat.le_zero.1 hcard) c)⟩
  | succ k ih =>
    intro id w hcard hbase hother
    have hkeeps : DeliverKeeps env (onDisconnect env k) fun w => Gone c base w ∧ w.card ≤ k := by
      refine deliverKeeps ?_ ?_
      · intro w a hopen hw
        exact ⟨⟨hw.1.base_le.trans (later_record w a).length_le,
          hw.1.of_record fun ha => hopen ha.2⟩, hw.2⟩
      · intro w a _ _ hw
        exact ⟨ih _ _ hw.2 (hw.1.base_le.trans (later_record w a).length_le)
            fun hne => hw.1.of_record fun ha => hne ha.1,
          (later_onDisconnect env k a.target (w.record a)).card.trans hw.2⟩
    unfold onDisconnect
    split
    · next hnone =>
      refine ⟨hbase, fun hfound => ?_⟩
      by_cases hid : id = c
      · subst hid
        exact AList.lookup_eq_none.1 hnone
      · exact hother hid hfound
    · next cs hcs =>
      have hlt := card_eraseClient (AList.lookup_isSome.1 (by rw [hcs]; rfl) : id ∈ w.clients)
      have hcongr : ∀ {w w' : Worker}, Gone c base w ∧ w.card ≤ k → Later w w' → w'.log = w.log →
          Gone c base w' ∧ w'.card ≤ k := fun hw hlater hlog =>
        ⟨hw.1.congr hlater hlog, hlater.card.trans hw.2⟩
      have hdrop : ∀ (w : Worker) c' x, Gone c base w ∧ w.card ≤ k →
          Gone c base (w.dropSession c' x) ∧ (w.dropSession c' x).card ≤ k := fun w c' x hw =>
        hcongr hw ((later_stable w).dropSession w c' x (.refl w)) (log_modifyClient _ _ _)
      refine reapClient_keeps (P := fun w => Gone c base w ∧ w.card ≤ k) ?_ ?_ ⟨⟨hbase, ?_⟩, ?_⟩
        fun w hw => hw.1.congr (.of_eq rfl rfl rfl rfl rfl) rfl
      · intro w channel hw
        exact leaveChannelOf_keeps hkeeps _ _ _
          (fun hw => hcongr hw (.of_eq rfl rfl rfl rfl rfl) rfl) hw
      · intro w session hw
        refine leaveSession_keeps hkeeps hdrop
          (fun w hw => hcongr hw (.of_eq rfl rfl rfl rfl rfl) rfl) _ _ (fun hw => ?_) hw
        exact hdrop _ _ _ (hcongr hw (.of_eq rfl rfl rfl rfl rfl) rfl)
      · intro hfound
        by_cases hid : id = c
        · subst hid
          simp [Worker.eraseClient]
        · exact (later_eraseClient w id).not_mem (hother hid hfound)
      · omega

theorem gone_deliver (c : ClientId) (base : Nat) (env : Env) :
    DeliverKeeps env (disconnect env) (Gone c base) := by
  refine deliverKeeps (fun w a hopen hw => ⟨hw.base_le.trans (later_record w a).length_le, ?_⟩)
    fun w a _ _ hw => ?_
  · exact hw.of_record fun ha => hopen ha.2
  · exact gone_onDisconnect c base env _ _ _ le_rfl (hw.base_le.trans (later_record w a).length_le)
      fun hne => hw.of_record fun ha => hne ha.1

theorem gone_routine (c : ClientId) (base : Nat) (env : Env) : Routine env (Gone c base) where
  deliver := gone_deliver c base env
  limit w id _ h := h.congr (later_modifyClient w id fun _ => rfl) (log_modifyClient _ _ _)
  dropSession w id _ h := h.congr (later_modifyClient w id fun _ => rfl) (log_modifyClient _ _ _)
  countPublished _ h := h.congr (.of_eq rfl rfl rfl rfl rfl) rfl
  refreshChannelGauge _ h := h.congr (.of_eq rfl rfl rfl rfl rfl) rfl
  refreshSessionGauge _ h := h.congr (.of_eq rfl rfl rfl rfl rfl) rfl

/-- A client found closed during a command is gone after it. -/
theorem handle_gone (c : ClientId) (env : Env) (w : Worker) (command : Command) :
    Gone c w.log.length (handle env w command) := by
  have hmodify : ∀ (u u' : Worker) id f, (∀ cs, (f cs).principal = cs.principal) →
      u.clients = u'.clients → u.log = u'.log → Gone c w.log.length u →
      Gone c w.log.length (u'.modifyClient id f) := by
    intro u u' id f hf hclients hlog h
    refine ⟨by rw [log_modifyClient, ← hlog]; exact h.base_le, fun hfound => ?_⟩
    rw [log_modifyClient, ← hlog] at hfound
    exact (later_modifyClient u' id hf).not_mem (hclients ▸ h.gone hfound)
  have hstart : ∀ u : Worker, u.log = w.log → Gone c w.log.length u := fun u hlog =>
    ⟨hlog ▸ le_rfl, fun hfound => by rw [hlog, foundClosed_self] at hfound; cases hfound⟩
  refine handle_keeps (gone_routine c _ env) ?_ (hstart w rfl)
  cases command with
  | connect id principal now => exact fun _ => hstart _ rfl
  | subscribe id channel now => exact fun u who h => hmodify u _ _ _ (fun _ => rfl) rfl rfl h
  | unsubscribe id channel =>
    intro u h
    have h' : Gone c w.log.length (u.dropSubscription id channel) :=
      hmodify u u id _ (fun _ => rfl) rfl rfl h
    exact h'.congr (.of_eq rfl rfl rfl rfl rfl) rfl
  | sessionJoin id session now => exact fun u who h => hmodify u _ _ _ (fun _ => rfl) rfl rfl h
  | sessionLeave id session => exact fun u h => hmodify u _ _ _ (fun _ => rfl) rfl rfl h
  | disconnect id =>
    intro u h
    exact gone_onDisconnect c _ env _ id u le_rfl h.base_le fun _ => h.gone
  | _ => trivial

/-! ## Who stays in a channel -/

/-- The command itself takes the client out of the channel. -/
def Command.Ends (c : ClientId) (channel : String) : Command → Prop
  | .unsubscribe id x => id = c ∧ x = channel
  | .disconnect id => id = c
  | _ => False

/-- Only the client's own departure takes a channel off its record. -/
theorem watch_subscription (id : ClientId) (channel : String) :
    Watch (· = id) fun w => w.Lists (·.subscriptions) id channel where
  record _ _ h := h
  eraseClient _ _ hne h := lists_eraseClient.2 ⟨h, fun heq => hne heq.symm⟩
  dropSession _ _ _ h := subscriptions_dropSession.2 h
  leavePresence _ _ _ _ h := h
  leaveSessions _ _ _ _ h := h
  countClosed _ h := h
  refreshChannelGauge _ h := h
  refreshSessionGauge _ h := h

theorem until_routine (c : ClientId) (channel : String) (base : Nat) (env : Env) :
    Routine env (Until (· = c) (fun w => w.Lists (·.subscriptions) c channel) base) where
  deliver := (watch_subscription c channel).deliver base env
  limit w id _ h := h.later (later_modifyClient w id fun _ => rfl)
    (.inr fun h => (lists_modifyClient_of_eq (by exact fun _ => rfl)).2 h)
  dropSession w id _ h := h.later (later_modifyClient w id fun _ => rfl)
    (.inr subscriptions_dropSession.2)
  countPublished _ h := h.later (.of_eq rfl rfl rfl rfl rfl) (.inr fun h => h)
  refreshChannelGauge _ h := h.later (.of_eq rfl rfl rfl rfl rfl) (.inr fun h => h)
  refreshSessionGauge _ h := h.later (.of_eq rfl rfl rfl rfl rfl) (.inr fun h => h)

/-- A subscriber stays one through every command that does not take it out, until it is found
closed. -/
theorem handle_until {channel : String} (env : Env) (command : Command) (hfresh : command.Fresh w)
    (hends : ¬ command.Ends c channel) (h : w.Lists (·.subscriptions) c channel) :
    Until (· = c) (fun w => w.Lists (·.subscriptions) c channel) w.log.length
      (handle env w command) := by
  have hmodify : ∀ (u u' : Worker) id f, (∀ cs, (f cs).principal = cs.principal) →
      (u.Lists (·.subscriptions) c channel → (u'.modifyClient id f).Lists (·.subscriptions) c channel) →
      Later u u' →
      Until (· = c) (fun w => w.Lists (·.subscriptions) c channel) w.log.length u →
      Until (· = c) (fun w => w.Lists (·.subscriptions) c channel) w.log.length
        (u'.modifyClient id f) :=
    fun u u' id f hf hlists hlater hu => hu.later (hlater.trans (later_modifyClient u' id hf)) (.inr hlists)
  refine handle_keeps (until_routine c channel _ env) ?_ ⟨le_rfl, .inr h⟩
  cases command with
  | connect id principal now =>
    refine fun _ => ⟨le_rfl, .inr ?_⟩
    obtain ⟨cs, hcs, hx⟩ := h
    refine ⟨cs, ?_, hx⟩
    have hne : c ≠ id := by
      rintro rfl
      exact hfresh (AList.lookup_isSome.1 (by rw [hcs]; rfl))
    exact (AList.lookup_insert_ne hne).trans hcs
  | subscribe id x now =>
    refine fun u who => hmodify u _ _ _ (fun _ => rfl) (fun hu => ?_) (.of_eq rfl rfl rfl rfl rfl)
    rw [lists_modifyClient]
    split
    · next hc =>
      obtain ⟨cs, hcs, hx⟩ := hu
      exact ⟨cs, hc ▸ hcs, List.mem_insert_of_mem hx⟩
    · exact hu
  | unsubscribe id x =>
    intro u hu
    have hstays : u.Lists (·.subscriptions) c channel →
        (u.dropSubscription id x).Lists (·.subscriptions) c channel := by
      refine fun h => (subscriptions_dropSubscription u id c channel x).2 ⟨h, ?_⟩
      rintro ⟨rfl, rfl⟩
      exact hends ⟨rfl, rfl⟩
    have h' : Until (· = c) (fun w => w.Lists (·.subscriptions) c channel) w.log.length
        (u.dropSubscription id x) :=
      hu.later (later_modifyClient u id fun _ => rfl) (.inr hstays)
    exact h'.later (.of_eq rfl rfl rfl rfl rfl) (.inr fun h => h)
  | sessionJoin id session now =>
    exact fun u who => hmodify u _ _ _ (fun _ => rfl)
      (fun h => (subscriptions_addSession _ id c channel session).2 h) (.of_eq rfl rfl rfl rfl rfl)
  | sessionLeave id session =>
    exact fun u => hmodify u _ _ _ (fun _ => rfl) (fun h => subscriptions_dropSession.2 h)
      (.of_eq rfl rfl rfl rfl rfl)
  | disconnect id =>
    intro u hu
    exact (watch_subscription c channel).disconnect _ env id u ⟨hu, .inl hends⟩
  | _ => trivial

end Atomo.Hub

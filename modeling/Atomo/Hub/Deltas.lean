import Atomo.Hub.Arrivals

/-!
# Presence deltas

A subscriber keeps its own picture of a channel: it starts from the snapshot it was sent on
subscribing, adds who joins and takes away who leaves (`picture`). Memberships are kept for each
connection and announced for each principal, so the picture is right as long as whoever leaves leaves
with all its connections, and no arrival is announced late. `Leaving` says what has been told of the
departures of an operation under way: `D` are those still to be told.
-/

namespace Atomo.Hub

variable {env : Env} {reap : ClientId → Worker → Worker} {u v w : Worker} {id c : ClientId}
  {channel who : String} {base : Nat}

/-! ## Members and their principals -/

/-- The connection is in the channel under this principal. -/
def Presence.Holds (p : Presence) (channel : String) (c : ClientId) (who : String) : Prop :=
  (p.members channel).lookup c = some who

theorem Presence.Holds.mem {p : Presence} (h : p.Holds channel c who) : p.Mem channel c :=
  AList.lookup_isSome.1 (by rw [h]; rfl)

theorem Presence.Mem.exists_holds {p : Presence} (h : p.Mem channel c) :
    ∃ who, p.Holds channel c who :=
  Option.isSome_iff_exists.1 (AList.lookup_isSome.2 h)

theorem mem_snapshot {p : Presence} : who ∈ p.snapshot channel ↔ ∃ c, p.Holds channel c who := by
  unfold Presence.snapshot Presence.Holds
  rw [List.mem_insertionSort, List.mem_dedup, List.mem_map]
  constructor
  · rintro ⟨⟨c, who'⟩, hmem, rfl⟩
    exact ⟨c, AList.mem_lookup_iff.2 hmem⟩
  · rintro ⟨c, h⟩
    exact ⟨⟨c, who⟩, AList.mem_lookup_iff.1 h, rfl⟩

theorem holds_join {p : Presence} {x principalId : String} :
    (p.join x id principalId).2.Holds channel c who ↔
      if channel = x ∧ c = id then who = principalId else p.Holds channel c who := by
  unfold Presence.Holds Presence.members Presence.join
  by_cases hx : channel = x
  · subst hx
    by_cases hc : c = id
    · subst hc
      simp [AList.lookup_insert, eq_comm]
    · simp [AList.lookup_insert, AList.lookup_insert_ne hc, hc, Presence.members]
  · simp [AList.lookup_insert_ne hx, hx]

theorem holds_leave {p : Presence} {x : String} :
    (p.leave x id).2.Holds channel c who ↔ p.Holds channel c who ∧ ¬ (channel = x ∧ c = id) := by
  have hmem : (p.leave x id).2.Mem channel c ↔ _ := Presence.mem_leave
  by_cases hpair : channel = x ∧ c = id
  · refine iff_of_false (fun h => ?_) fun h => h.2 hpair
    exact (hmem.1 h.mem).2 hpair
  · simp only [hpair, not_false_eq_true, and_true]
    unfold Presence.Holds Presence.members Presence.leave
    split
    · rfl
    · next ms hms =>
      simp only
      by_cases hx : channel = x
      · subst hx
        have hc : c ≠ id := fun hc => hpair ⟨rfl, hc⟩
        split
        · next hempty =>
          have hnil : ms.erase id = ∅ := AList.ext (List.isEmpty_iff.1 hempty)
          have hlookup : ms.lookup c = none := by
            rw [← AList.lookup_erase_ne hc, hnil]
            rfl
          simp [hms, hlookup]
        · simp [hms, AList.lookup_insert, AList.lookup_erase_ne hc]
      · split
        · simp [AList.lookup_erase_ne hx]
        · simp [AList.lookup_insert_ne hx]

/-- Memberships are filed under the principal of their connection. -/
def Named (w : Worker) : Prop :=
  ∀ x c who cs, w.presence.Holds x c who → w.clients.lookup c = some cs → who = cs.principal.id

theorem Named.later {w' : Worker} (h : Named w) (hw : Later w w')
    (hpresence : ∀ x c who, w'.presence.Holds x c who → w.presence.Holds x c who) : Named w' := by
  intro x c who cs hholds hcs
  obtain ⟨cs₀, hcs₀, hprincipal⟩ := hw.clients c cs hcs
  rw [hprincipal]
  exact h x c who cs₀ (hpresence x c who hholds) hcs₀

theorem named_steady : Stable Named where
  record w a h := h.later (later_record w a) fun _ _ _ h => h
  eraseClient w id h := h.later (later_eraseClient w id) fun _ _ _ h => h
  dropSession w id x h := h.later ((later_stable w).dropSession w id x (.refl w)) fun _ _ _ hh => by
    rwa [presence_dropSession] at hh
  leavePresence _ _ _ h := h.later (.of_eq rfl rfl rfl rfl rfl) fun _ _ _ hh => (holds_leave.1 hh).1
  leaveSessions _ _ _ h := h.later (.of_eq rfl rfl rfl rfl rfl) fun _ _ _ h => h
  countClosed _ h := h.later (.of_eq rfl rfl rfl rfl rfl) fun _ _ _ h => h
  refreshChannelGauge _ h := h.later (.of_eq rfl rfl rfl rfl rfl) fun _ _ _ h => h
  refreshSessionGauge _ h := h.later (.of_eq rfl rfl rfl rfl rfl) fun _ _ _ h => h

/-! ## What a subscriber is told of departures -/

/-- The subscriber is connected, and in the channel. -/
def Hears (s : ClientId) (channel : String) (w : Worker) : Prop :=
  s ∈ w.clients ∧ w.presence.Mem channel s

/-- Between `v` and `w` connections have only left the channel. Of those that have, the subscriber has
been told, but for the ones in `D`, and it has been told of no others. -/
structure Leaving (s : ClientId) (channel : String) (D : ClientId → String → Prop) (v w : Worker) :
    Prop where
  named : Named w
  kept : ∀ c who, w.presence.Holds channel c who → v.presence.Holds channel c who
  told : ∃ new, w.log = new ++ v.log ∧
    (∀ c who, v.presence.Holds channel c who → w.presence.Holds channel c who ∨ D c who ∨
      ¬ Hears s channel w ∨ ∃ a ∈ new, a.target = s ∧ a.msg = .left channel who) ∧
    ∀ a ∈ new, a.target = s → ∀ who, a.msg = .left channel who →
      ∃ c, v.presence.Holds channel c who ∧ ¬ w.presence.Mem channel c

variable {s : ClientId} {D D' : ClientId → String → Prop}

theorem Leaving.refl (h : Named w) : Leaving s channel D w w where
  named := h
  kept _ _ h := h
  told := ⟨[], rfl, fun _ _ h => .inl h, fun _ ha => absurd ha List.not_mem_nil⟩

theorem Hears.later {w' : Worker} (h : Hears s channel w') (hw : Later w w')
    (hpresence : ∀ c who, w'.presence.Holds channel c who → w.presence.Holds channel c who) :
    Hears s channel w := by
  refine ⟨?_, ?_⟩
  · by_contra hgone
    exact hw.not_mem hgone h.1
  · obtain ⟨who, hwho⟩ := h.2.exists_holds
    exact (hpresence s who hwho).mem

/-- Updates that deliver nothing. -/
theorem Leaving.later {w' : Worker} (h : Leaving s channel D v w) (hw : Later w w')
    (hlog : w'.log = w.log) (hnamed : Named w')
    (hpresence : ∀ c who, w'.presence.Holds channel c who → w.presence.Holds channel c who)
    (hD : ∀ c who, w.presence.Holds channel c who ∨ D c who → Hears s channel w' →
      w'.presence.Holds channel c who ∨ D' c who) : Leaving s channel D' v w' where
  named := hnamed
  kept c who hholds := h.kept c who (hpresence c who hholds)
  told := by
    obtain ⟨new, hnew, hleft, hsound⟩ := h.told
    refine ⟨new, hlog.trans hnew, fun c who hholds => ?_, fun a ha htarget who hmsg => ?_⟩
    · by_cases hhears : Hears s channel w'
      · rcases hleft c who hholds with hheld | hD' | hdeaf | htold
        · exact (hD c who (.inl hheld) hhears).imp_right .inl
        · exact (hD c who (.inr hD') hhears).imp_right .inl
        · exact absurd (hhears.later hw hpresence) hdeaf
        · exact .inr (.inr (.inr htold))
      · exact .inr (.inr (.inl hhears))
    · obtain ⟨c, hc, hgone⟩ := hsound a ha htarget who hmsg
      refine ⟨c, hc, fun hmem => hgone ?_⟩
      obtain ⟨who', hwho'⟩ := hmem.exists_holds
      exact (hpresence c who' hwho').mem

/-- Updates that deliver nothing and end no membership. -/
theorem Leaving.congr {w' : Worker} (h : Leaving s channel D v w) (hw : Later w w')
    (hlog : w'.log = w.log) (hpresence : w'.presence = w.presence) : Leaving s channel D v w' :=
  h.later hw hlog (h.named.later hw fun _ _ _ hholds => hpresence ▸ hholds)
    (fun _ _ hholds => hpresence ▸ hholds) fun _ _ hheld _ => hpresence ▸ hheld

theorem Leaving.mono (h : Leaving s channel D v w)
    (hD : ∀ c who, Hears s channel w → D c who → D' c who) : Leaving s channel D' v w :=
  h.later (.refl w) rfl h.named (fun _ _ h => h) fun c who hheld hhears =>
    hheld.imp_right (hD c who hhears)

theorem Leaving.refreshChannelGauge (h : Leaving s channel D v w) :
    Leaving s channel D v w.refreshChannelGauge :=
  h.congr (.of_eq rfl rfl rfl rfl rfl) rfl rfl

/-- A delivery tells the subscriber what its frame says, if it is the receiver. -/
theorem Leaving.record {a : Attempt}
    (h : Leaving s channel (fun c who => D c who ∨ a.target = s ∧ a.msg = .left channel who) v w)
    (ha : ∀ who, a.target = s → a.msg = .left channel who →
      ∃ c, v.presence.Holds channel c who ∧ ¬ w.presence.Mem channel c) :
    Leaving s channel D v (w.record a) where
  named := named_steady.record w a h.named
  kept := h.kept
  told := by
    obtain ⟨new, hnew, hleft, hsound⟩ := h.told
    refine ⟨a :: new, congrArg (a :: ·) hnew, fun c who hholds => ?_, fun b hb htarget who hmsg => ?_⟩
    · rcases hleft c who hholds with hheld | (hD | hpair) | hdeaf | ⟨b, hb, htold⟩
      · exact .inl hheld
      · exact .inr (.inl hD)
      · exact .inr (.inr (.inr ⟨a, List.mem_cons_self, hpair⟩))
      · exact .inr (.inr (.inl hdeaf))
      · exact .inr (.inr (.inr ⟨b, List.mem_cons_of_mem a hb, htold⟩))
    · rcases List.mem_cons.1 hb with rfl | hb
      · exact ha who htarget hmsg
      · exact hsound b hb htarget who hmsg

def ReapLeaves (s : ClientId) (channel : String) (reap : ClientId → Worker → Worker) : Prop :=
  ∀ D v id w, Leaving s channel D v w → Leaving s channel D v (reap id w)

theorem deliver_leaving (env : Env) (hreap : ReapLeaves s channel reap) {target : ClientId}
    {msg : ServerMsg} {late : Bool}
    (hsound : ∀ who, target = s → msg = .left channel who →
      ∃ c, v.presence.Holds channel c who ∧ ¬ w.presence.Mem channel c)
    (h : Leaving s channel (fun c who => D c who ∨ target = s ∧ msg = .left channel who) v w) :
    Leaving s channel D v (deliver env reap target msg late w) := by
  unfold deliver
  split
  · next hnone =>
    refine h.mono fun c who hhears hD => hD.resolve_right ?_
    rintro ⟨rfl, -⟩
    exact AList.lookup_eq_none.1 hnone hhears.1
  · have hrecord := Leaving.record (a := ⟨target, msg, env.outcome w.log target msg, late⟩) h hsound
    simp only
    split
    · exact hreap D v target _ hrecord
    · exact hrecord

/-- Frames that tell nobody of a departure from the channel. -/
theorem deliver_leaving_other (env : Env) (hreap : ReapLeaves s channel reap) :
    DeliverKeepsFor env reap (fun msg => ∀ who, msg ≠ .left channel who) (Leaving s channel D v) := by
  intro target msg late w hmsg h
  refine deliver_leaving env hreap (fun who _ heq => absurd heq (hmsg who)) (h.mono ?_)
  exact fun c who _ hD => .inl hD

/-- A property of the channel that only joins can end. -/
theorem stable_of_holds {P : (ClientId → String → Prop) → Prop}
    (hP : ∀ (h h' : ClientId → String → Prop), (∀ c who, h' c who → h c who) → P h → P h') :
    Stable fun w => P (w.presence.Holds channel) where
  record _ _ h := h
  eraseClient _ _ h := h
  dropSession _ _ _ h := by rwa [presence_dropSession]
  leavePresence _ _ _ h := hP _ _ (fun _ _ hh => (holds_leave.1 hh).1) h
  leaveSessions _ _ _ h := h
  countClosed _ h := h
  refreshChannelGauge _ h := h
  refreshSessionGauge _ h := h

theorem stable_gone (channel : String) (id : ClientId) :
    Stable fun w => ∀ who, ¬ w.presence.Holds channel id who :=
  stable_of_holds (P := fun holds => ∀ who, ¬ holds id who)
    fun _ _ hsub h who hholds => h who (hsub id who hholds)

/-- A connection that has left the channel is announced to those that remain. -/
theorem deliverAll_left (env : Env) (hreap : ReapLeaves s channel reap)
    (hstable : KeepsStable env reap) (targets : List ClientId)
    (hv : v.presence.Holds channel id who) (hw : ∀ p, ¬ w.presence.Holds channel id p)
    (h : Leaving s channel (fun c p => D c p ∨ s ∈ targets ∧ c = id ∧ p = who) v w) :
    Leaving s channel D v (deliverAll env reap (.left channel who) targets w) := by
  let P (rest : List ClientId) (w : Worker) : Prop :=
    Leaving s channel (fun c p => D c p ∨ s ∈ rest ∧ c = id ∧ p = who) v w ∧
      ∀ p, ¬ w.presence.Holds channel id p
  unfold deliverAll
  refine (foldl_consumes P ?_ targets ⟨h, hw⟩).1.mono fun c p _ hD => ?_
  · rintro target rest w ⟨hleaving, hgone⟩
    have hnext : Leaving s channel (fun c p => D c p ∨ s ∈ rest ∧ c = id ∧ p = who) v
        (deliver env reap target (.left channel who) false w) := by
      refine deliver_leaving env hreap (fun who' _ heq => ?_) (hleaving.mono fun c p _ hD => ?_)
      · obtain rfl : who = who' := by injection heq
        refine ⟨id, hv, fun hmem => ?_⟩
        obtain ⟨p, hp⟩ := hmem.exists_holds
        exact hgone p hp
      · rcases hD with hD | ⟨hs, rfl, rfl⟩
        · exact .inl (.inl hD)
        · rcases List.mem_cons.1 hs with rfl | hs
          · exact .inr ⟨rfl, rfl⟩
          · exact .inl (.inr ⟨hs, rfl, rfl⟩)
    exact ⟨hnext, hstable _ (stable_gone channel id) target _ false w hgone⟩
  · exact hD.resolve_right fun hpair => List.not_mem_nil hpair.1

/-- A connection leaves a channel, and those that remain are told. -/
theorem leaveChannelOf_leaving (env : Env) (hreap : ReapLeaves s channel reap)
    (hstable : KeepsStable env reap) {x : String} (h : Leaving s channel D v w)
    (hwho : ∀ p, w.presence.Holds channel id p → p = who) :
    Leaving s channel D v (leaveChannelOf env reap id who x w) := by
  have hsub : ∀ c p, (w.presence.leave x id).2.Holds channel c p → w.presence.Holds channel c p :=
    fun c p hholds => (holds_leave.1 hholds).1
  have hnamed := named_steady.leavePresence w id x h.named
  have hlater : Later w (w.setPresence (w.presence.leave x id).2) := .of_eq rfl rfl rfl rfl rfl
  unfold leaveChannelOf
  simp only
  by_cases hx : channel = x
  · subst hx
    by_cases hmem : w.presence.Mem channel id
    · obtain ⟨p, hp⟩ := hmem.exists_holds
      obtain rfl := hwho p hp
      rw [if_pos (Presence.leave_fst.2 hmem)]
      refine deliverAll_left env hreap hstable _ (h.kept id p hp) (fun q hq => ?_)
        (h.later hlater rfl hnamed hsub fun c q hheld hhears => ?_)
      · exact (holds_leave.1 hq).2 ⟨rfl, rfl⟩
      · rcases hheld with hholds | hD
        · by_cases hc : c = id
          · subst hc
            have hs : s ≠ c := by
              rintro rfl
              exact (Presence.mem_leave.1 hhears.2).2 ⟨rfl, rfl⟩
            refine .inr (.inr ⟨?_, rfl, hwho q hholds⟩)
            rw [List.mem_filter]
            exact ⟨(env.iterClients_perm _ _).mem_iff.2 hhears.2, by simpa using hs⟩
          · exact .inl (holds_leave.2 ⟨hholds, fun hpair => hc hpair.2⟩)
        · exact .inr (.inl hD)
    · rw [if_neg fun hleft => hmem (Presence.leave_fst.1 hleft)]
      refine h.later hlater rfl hnamed hsub fun c q hheld _ => hheld.imp_left fun hholds => ?_
      refine holds_leave.2 ⟨hholds, ?_⟩
      rintro ⟨-, rfl⟩
      exact hmem hholds.mem
  · have hkept : Leaving s channel D v (w.setPresence (w.presence.leave x id).2) :=
      h.later hlater rfl hnamed hsub fun c q hheld _ => hheld.imp_left fun hholds =>
        holds_leave.2 ⟨hholds, fun hpair => hx hpair.1⟩
    split
    · refine deliverAll_keepsFor (deliver_leaving_other env hreap) (fun p heq => hx ?_) _ hkept
      injection heq with heq _
      exact heq.symm
    · exact hkept

theorem leaveSession_leaving (env : Env) (hreap : ReapLeaves s channel reap) {session : String}
    (h : Leaving s channel D v w) : Leaving s channel D v (leaveSession env reap id session w) := by
  have hdrop : ∀ (w : Worker) c x, Leaving s channel D v w → Leaving s channel D v (w.dropSession c x) :=
    fun w c x hw => hw.congr ((later_stable w).dropSession w c x (.refl w)) (log_modifyClient _ _ _)
      presence_dropSession
  refine leaveSession_keepsFor ((deliver_leaving_other env hreap).mono fun msg hmsg who heq => ?_) hdrop
    (fun w hw => hw.congr (.of_eq rfl rfl rfl rfl rfl) rfl rfl) id session (fun hw => ?_) h
  · rw [heq] at hmsg
    exact hmsg
  · exact hdrop _ _ _ (hw.congr (.of_eq rfl rfl rfl rfl rfl) rfl rfl)

theorem onDisconnect_leaving (s : ClientId) (channel : String) (env : Env) (fuel : Nat) :
    ReapLeaves s channel (onDisconnect env fuel) := by
  induction fuel with
  | zero => exact fun D v id w h => h
  | succ fuel ih =>
    intro D v id w h
    have hstable := keepsStable_onDisconnect env fuel
    unfold onDisconnect
    split
    · exact h
    · next cs hcs =>
      have hnamed : Stable fun w => ∀ p, w.presence.Holds channel id p → p = cs.principal.id :=
        stable_of_holds (P := fun holds => ∀ p, holds id p → p = cs.principal.id)
          fun _ _ hsub h p hp => h p (hsub id p hp)
      refine reapClient_keeps (P := fun w => Leaving s channel D v w ∧
        ∀ p, w.presence.Holds channel id p → p = cs.principal.id) ?_ ?_ ⟨?_, ?_⟩
        fun w hw => hw.1.congr (.of_eq rfl rfl rfl rfl rfl) rfl rfl
      · rintro w x ⟨hw, hwho⟩
        exact ⟨leaveChannelOf_leaving env ih hstable hw hwho,
          leaveChannelOf_keeps (hstable _ hnamed) _ _ _ (hnamed.leavePresence w id x) hwho⟩
      · rintro w x ⟨hw, hwho⟩
        refine ⟨leaveSession_leaving env ih hw, leaveSession_keeps (hstable _ hnamed) hnamed.dropSession
          hnamed.refreshSessionGauge _ _ (fun hwho => ?_) hwho⟩
        exact hnamed.dropSession _ _ _ (hnamed.leaveSessions w id x hwho)
      · exact h.congr (later_eraseClient w id) rfl rfl
      · exact fun p hp => h.named channel id p cs hp hcs

theorem disconnect_leaving (s : ClientId) (channel : String) (env : Env) :
    ReapLeaves s channel (disconnect env) :=
  fun D v id w h => onDisconnect_leaving s channel env w.card D v id w h

/-! ## What a subscriber is told of an arrival -/

theorem deliver_tells (env : Env) (target : ClientId) (msg : ServerMsg) (late : Bool) (w : Worker) :
    (target ∉ w.clients ∧ deliver env (disconnect env) target msg late w = w) ∨
      ∃ newer a, (deliver env (disconnect env) target msg late w).log = newer ++ a :: w.log ∧
        a.target = target ∧ a.msg = msg := by
  unfold deliver
  split
  · next hnone => exact .inl ⟨AList.lookup_eq_none.1 hnone, rfl⟩
  · right
    simp only
    split
    · obtain ⟨newer, hnewer⟩ := (later_onDisconnect env _ target
        (w.record ⟨target, msg, env.outcome w.log target msg, late⟩)).log
      exact ⟨newer, _, hnewer, rfl, rfl⟩
    · exact ⟨[], _, rfl, rfl, rfl⟩

/-- The first delivery after a log is the only one there. -/
theorem first_unique {log newer newer' : List Attempt} {a b : Attempt}
    (h : newer ++ a :: log = newer' ++ b :: log) : a = b :=
  (List.cons.inj (List.append_inj_right' h rfl)).1

theorem deliver_first (env : Env) {target : ClientId} {msg : ServerMsg} {late : Bool}
    {newer : List Attempt} {a : Attempt} (newer' : List Attempt)
    (h : newer' ++ (deliver env (disconnect env) target msg late w).log = newer ++ a :: w.log)
    (htarget : target ∈ w.clients) : a.msg = msg := by
  rcases deliver_tells env target msg late w with ⟨hgone, -⟩ | ⟨new, b, hlog, -, hmsg⟩
  · exact absurd htarget hgone
  · rw [hlog, ← List.append_assoc] at h
    rw [← first_unique h, hmsg]

theorem later_deliverAll (env : Env) (msg : ServerMsg) (targets : List ClientId) (w : Worker) :
    Later w (deliverAll env (disconnect env) msg targets w) :=
  deliverAll_keeps (keepsStable_disconnect env _ (later_stable w)) msg targets (.refl w)

/-- Everyone on the list is told, unless it is gone. -/
theorem deliverAll_tells (env : Env) (msg : ServerMsg) (targets : List ClientId) (w : Worker)
    (hs : s ∈ targets) : s ∉ (deliverAll env (disconnect env) msg targets w).clients ∨
      ∃ new, (deliverAll env (disconnect env) msg targets w).log = new ++ w.log ∧
        ∃ a ∈ new, a.target = s ∧ a.msg = msg := by
  induction targets generalizing w with
  | nil => exact absurd hs List.not_mem_nil
  | cons target rest ih =>
    have hlater := later_deliverAll env msg rest (deliver env (disconnect env) target msg false w)
    obtain ⟨old, hold⟩ := (keepsStable_disconnect env _ (later_stable w) target msg false w (.refl w)).log
    show _ ∉ (deliverAll env (disconnect env) msg rest _).clients ∨ ∃ new,
      (deliverAll env (disconnect env) msg rest _).log = _ ∧ _
    rcases List.mem_cons.1 hs with rfl | hs
    · rcases deliver_tells env s msg false w with ⟨hgone, -⟩ | ⟨newer, a, hlog, ha⟩
      · have hdeaf := keepsStable_disconnect env _ (stable_not_mem s) s msg false w hgone
        exact .inl (hlater.not_mem hdeaf)
      · obtain ⟨last, hlast⟩ := hlater.log
        refine .inr ⟨last ++ newer ++ [a], ?_, a, by simp, ha⟩
        rw [hlast, hlog]
        simp
    · refine (ih _ hs).imp_right ?_
      rintro ⟨new, hnew, a, ha, htold⟩
      refine ⟨new ++ old, ?_, a, List.mem_append_left _ ha, htold⟩
      rw [hnew, hold, List.append_assoc]

theorem deliverAll_leaving (env : Env) {msg : ServerMsg} (hmsg : ∀ who, msg ≠ .left channel who)
    (targets : List ClientId) (h : Leaving s channel D v w) :
    Leaving s channel D v (deliverAll env (disconnect env) msg targets w) :=
  deliverAll_keepsFor (deliver_leaving_other env (disconnect_leaving s channel env)) hmsg targets h

theorem sweep_leaving (env : Env) {msg : ServerMsg} (hmsg : ∀ who, msg ≠ .left channel who)
    (targets : List ClientId) (h : Named w) :
    ∀ m ∈ sweep env c msg targets w,
      Leaving s channel D m.worker (deliverAll env (disconnect env) msg targets w) := by
  induction targets generalizing w with
  | nil =>
    intro m hm
    cases hm
  | cons target rest ih =>
    intro m hm
    rcases List.mem_cons.1 hm with rfl | hm
    · exact deliverAll_leaving env hmsg (target :: rest) (.refl h)
    · exact ih (keepsStable_disconnect env _ named_steady target msg false w h) m hm

theorem allowJoin_leaving (env : Env) (id : ClientId) (now : Nat) (h : Leaving s channel D v w) :
    Leaving s channel D v (allowJoin env id now w).2 := by
  have hlimited : ∀ limiter, Leaving s channel D v
      (w.modifyClient id fun cs => { cs with joinLimiter := some limiter }) := fun limiter =>
    h.congr (later_modifyClient w id fun _ => rfl) (log_modifyClient _ _ _) (presence_modifyClient _ _ _)
  unfold allowJoin
  split
  · exact h
  · split
    · exact h
    · simp only
      split
      · exact hlimited _
      · exact deliver_leaving_other env (disconnect_leaving s channel env) id _ false _
          (fun _ => ServerMsg.noConfusion) (hlimited _)

theorem later_subscribe (w : Worker) (id : ClientId) (x who : String) :
    Later w ((w.setPresence (w.presence.join x id who).2).addSubscription id x) :=
  have hjoin : Later w (w.setPresence (w.presence.join x id who).2) := .of_eq rfl rfl rfl rfl rfl
  hjoin.trans (later_modifyClient _ id fun _ => rfl)

theorem holds_subscribe {x p : String} :
    ((w.setPresence (w.presence.join x id who).2).addSubscription id x).presence.Holds channel c p ↔
      if channel = x ∧ c = id then p = who else w.presence.Holds channel c p := by
  rw [Worker.addSubscription, presence_modifyClient]
  exact holds_join

/-- A connection is filed under its own principal. -/
theorem named_subscribe {cs : ClientState} {x : String} (h : Named w)
    (hcs : w.clients.lookup id = some cs) :
    Named ((w.setPresence (w.presence.join x id cs.principal.id).2).addSubscription id x) := by
  intro y c who cs' hholds hcs'
  obtain ⟨cs₀, hcs₀, hprincipal⟩ := (later_subscribe w id x cs.principal.id).clients c cs' hcs'
  rw [hprincipal]
  rcases ite_prop_iff_or.1 (holds_subscribe.1 hholds) with ⟨⟨-, rfl⟩, rfl⟩ | ⟨-, hholds⟩
  · obtain rfl := Option.some.inj (hcs.symm.trans hcs₀)
    rfl
  · exact h y c who cs₀ hholds hcs₀

theorem leaveChannel_eq {cs : ClientState} {x : String} (hcs : w.clients.lookup id = some cs) :
    leaveChannel env id x w = leaveChannelOf env (disconnect env) id cs.principal.id x w := by
  unfold leaveChannel leaveChannelOf
  rw [hcs]
  simp only [Option.map_some]
  cases (w.presence.leave x id).1 <;> rfl

theorem leaveChannel_none {x : String} (hcs : w.clients.lookup id = none) :
    leaveChannel env id x w = w.setPresence (w.presence.leave x id).2 := by
  unfold leaveChannel
  rw [hcs]
  simp only [Option.map_none]
  cases (w.presence.leave x id).1 <;> rfl

theorem onConnect_leaving {principal : Principal} {now : Nat} (h : Consistent w) (hnamed : Named w)
    (hfresh : id ∉ w.clients) : Leaving s channel never w (onConnect id principal now w) where
  named x c who cs hholds hcs := by
    have hne : c ≠ id := by
      rintro rfl
      exact hfresh ((h.mirror.present c x hholds.mem).resolve_right fun h => h).mem
    have hcs : (w.clients.insert id _).lookup c = some cs := hcs
    rw [AList.lookup_insert_ne hne] at hcs
    exact hnamed x c who cs hholds hcs
  kept _ _ h := h
  told := ⟨[], rfl, fun _ _ h => .inl h, fun _ ha => absurd ha List.not_mem_nil⟩

theorem onUnsubscribe_leaving (env : Env) {x : String} (h : Consistent w) (hnamed : Named w) :
    Leaving s channel never w (onUnsubscribe env id x w) := by
  have hlater : Later w (w.dropSubscription id x) := later_modifyClient w id fun _ => rfl
  have hleft : Leaving s channel never w (w.dropSubscription id x) :=
    (Leaving.refl hnamed).congr hlater (log_modifyClient _ _ _) (presence_modifyClient _ _ _)
  unfold onUnsubscribe
  apply Leaving.refreshChannelGauge
  cases hcs : (w.dropSubscription id x).clients.lookup id with
  | some cs =>
    rw [leaveChannel_eq hcs]
    exact leaveChannelOf_leaving env (disconnect_leaving s channel env) (keepsStable_disconnect env)
      hleft fun p hp => hleft.named channel id p cs hp hcs
  | none =>
    have hgone : ¬ w.presence.Mem x id := fun hmem => by
      obtain ⟨cs, hcs', -⟩ := (h.mirror.present id x hmem).resolve_right fun h => h
      rw [Worker.dropSubscription, lookup_modifyClient, if_pos rfl, hcs'] at hcs
      cases hcs
    have hpresence : (w.dropSubscription id x).presence = w.presence := presence_modifyClient _ _ _
    rw [leaveChannel_none hcs]
    refine hleft.later (.of_eq rfl rfl rfl rfl rfl) rfl (named_steady.leavePresence _ id x hleft.named)
      (fun c p hp => (holds_leave.1 hp).1) fun c p hheld _ => hheld.imp_left fun hholds => ?_
    refine holds_leave.2 ⟨hholds, ?_⟩
    rintro ⟨rfl, rfl⟩
    exact hgone (hpresence ▸ hholds.mem)

/-- A subscription to another channel. -/
theorem onSubscribe_leaving (env : Env) {x : String} {now : Nat} (hnamed : Named w)
    (hx : channel ≠ x) : Leaving s channel never w (onSubscribe env id x now w) := by
  have hallow : Leaving s channel never w (allowJoin env id now w).2 :=
    allowJoin_leaving env id now (.refl hnamed)
  rcases onSubscribe_cases env w id x now with
    ⟨hresult, -⟩ | ⟨u, cs, v, -, hu, hcs, rfl, hcases⟩
  · rw [hresult]
    exact hallow
  · rw [← hu] at hallow
    have hsame : ∀ c p, ((u.setPresence (u.presence.join x id cs.principal.id).2).addSubscription id
        x).presence.Holds channel c p ↔ u.presence.Holds channel c p := fun c p =>
      holds_subscribe.trans (by rw [if_neg fun hpair => hx hpair.1])
    have hjoined := hallow.later (later_subscribe u id x cs.principal.id) (log_modifyClient _ _ _)
      (named_subscribe hallow.named hcs) (fun c p => (hsame c p).1)
      fun c p hheld _ => hheld.imp_left (hsame c p).2
    have hsent : Leaving s channel never w (snapshotSent env id x cs.principal.id u) :=
      deliver_leaving_other env (disconnect_leaving s channel env) _ _ _ _
        (fun _ => ServerMsg.noConfusion) hjoined
    rcases hcases with ⟨-, hresult, -⟩ | ⟨-, hresult, -⟩
    · rw [hresult]
      exact hsent.refreshChannelGauge
    · rw [hresult]
      exact (deliverAll_leaving env (fun _ => ServerMsg.noConfusion) _ hsent).refreshChannelGauge

theorem onSessionJoin_leaving (env : Env) {session : String} {now : Nat} (hnamed : Named w) :
    Leaving s channel never w (onSessionJoin env id session now w) := by
  have hallow : Leaving s channel never w (allowJoin env id now w).2 :=
    allowJoin_leaving env id now (.refl hnamed)
  unfold onSessionJoin
  generalize allowJoin env id now w = result at hallow ⊢
  obtain ⟨allowed, u⟩ := result
  simp only at hallow ⊢
  split
  · exact hallow
  · split
    · exact hallow
    · next cs _ =>
      have hset : Leaving s channel never w
          (u.setSessions (u.sessions.join session id cs.principal.id).2) :=
        hallow.congr (.of_eq rfl rfl rfl rfl rfl) rfl rfl
      have hjoined : Leaving s channel never w ((u.setSessions (u.sessions.join session id
          cs.principal.id).2).addSession id session) :=
        hset.congr (later_modifyClient _ id fun _ => rfl) (log_modifyClient _ _ _)
          (presence_modifyClient _ _ _)
      have hstarted := deliver_leaving_other env (disconnect_leaving s channel env) id
        (.sessionStart session (u.sessions.join session id cs.principal.id).1.slot
          (u.sessions.join session id cs.principal.id).1.isCoordinator
          ((u.sessions.join session id cs.principal.id).1.roster.map fun m => ⟨m.slot, m.principalId⟩))
        false _ (fun _ => ServerMsg.noConfusion) hjoined
      exact (deliverAll_leaving env (fun _ => ServerMsg.noConfusion) _ hstarted).congr
        (.of_eq rfl rfl rfl rfl rfl) rfl rfl

/-- Every command but a subscription, from one state between commands to the next. -/
theorem handle_leaving (env : Env) {command : Command} (h : Consistent w) (hnamed : Named w)
    (hfresh : command.Fresh w) (hcommand : ∀ id now, command ≠ .subscribe id channel now) :
    Leaving s channel never w (handle env w command) := by
  have hrefl : Leaving s channel never w w := .refl hnamed
  have hreap := disconnect_leaving s channel env
  have hother := deliver_leaving_other (D := never) (v := w) env hreap
  have hpublished : Leaving s channel never w w.countPublished :=
    hrefl.congr (.of_eq rfl rfl rfl rfl rfl) rfl rfl
  cases command with
  | connect id principal now => exact onConnect_leaving h hnamed hfresh
  | subscribe id x now =>
    refine onSubscribe_leaving env hnamed ?_
    rintro rfl
    exact hcommand id now rfl
  | unsubscribe id x => exact onUnsubscribe_leaving env h hnamed
  | publish id x payload =>
    exact deliverAll_leaving env (fun _ => ServerMsg.noConfusion) _ hpublished
  | presence id x => exact hother _ _ _ _ (fun _ => ServerMsg.noConfusion) hrefl
  | sessionJoin id session now => exact onSessionJoin_leaving env hnamed
  | sessionLeave id session => exact leaveSession_leaving env hreap hrefl
  | toCoordinator id session payload =>
    unfold handle onToCoordinator
    simp only
    split
    · exact hother _ _ _ _ (fun _ => ServerMsg.noConfusion) hpublished
    · exact hrefl
  | toMembers id session payload =>
    unfold handle onToMembers
    simp only
    split
    · exact hother _ _ _ _ (fun _ => ServerMsg.noConfusion) hrefl
    · exact deliverAll_leaving env (fun _ => ServerMsg.noConfusion) _ hpublished
  | disconnect id => exact hreap _ _ id w hrefl

theorem ne_append_cons (log newer : List Attempt) (a : Attempt) : log ≠ newer ++ a :: log := by
  intro h
  have := congrArg List.length h
  simp only [List.length_append, List.length_cons] at this
  omega

/-- A join that is not let in is refused before anything else is delivered. -/
theorem allowJoin_first {now : Nat} {newer : List Attempt} {a : Attempt}
    (h : (allowJoin env id now w).2.log = newer ++ a :: w.log) :
    a.msg = .error "join rate limit exceeded" := by
  unfold allowJoin at h
  split at h
  · exact absurd h (ne_append_cons _ _ _)
  · next cs hcs =>
    split at h
    · exact absurd h (ne_append_cons _ _ _)
    · next limiter _ =>
      simp only at h
      have hid : id ∈ (w.modifyClient id fun cs =>
          { cs with joinLimiter := some (limiter.tryAcquire now).2 }).clients := by
        refine AList.lookup_isSome.1 ?_
        rw [lookup_modifyClient, if_pos rfl, hcs]
        rfl
      have hlog : (w.modifyClient id fun cs =>
          { cs with joinLimiter := some (limiter.tryAcquire now).2 }).log = w.log :=
        log_modifyClient _ _ _
      split at h
      · rw [hlog] at h
        exact absurd h (ne_append_cons _ _ _)
      · rw [← hlog] at h
        exact deliver_first env [] h hid

/-! ## What a command does to a channel -/

/-- The client is in the channel under this principal, or the command lets it in. -/
def Attends (env : Env) (w : Worker) (command : Command) (channel : String) (c : ClientId)
    (who : String) : Prop :=
  w.presence.Holds channel c who ∨ ∃ now cs, command = .subscribe c channel now ∧
    (allowJoin env c now w).1 = true ∧ w.clients.lookup c = some cs ∧ cs.principal.id = who

/-- A command, as a subscriber of the channel hears of it: `v` is the state in which the client that
subscribes, if one does, has entered. -/
structure Relay (env : Env) (s : ClientId) (channel : String) (command : Command) (w v w' : Worker) :
    Prop where
  log : v.log = w.log
  leaving : Leaving s channel never v w'
  holds : ∀ c who, w.presence.Holds channel c who → v.presence.Holds channel c who
  entered : ∀ c who, v.presence.Holds channel c who → Attends env w command channel c who
  stays : ∀ c who, v.presence.Holds channel c who → ¬ command.Ends c channel →
    foundClosed w.log.length c w'.log = true ∨ w'.presence.Holds channel c who
  announced : ∀ c who, v.presence.Holds channel c who → ¬ w.presence.Mem channel c → c ≠ s →
    ¬ Hears s channel w' ∨
      ∃ new, w'.log = new ++ w.log ∧ ∃ a ∈ new, a.target = s ∧ a.msg = .joined channel who
  arriving : ∀ m ∈ arrivals env w command, ∀ who, m.msg = .joined channel who →
    (∀ p, m.worker.presence.Holds channel m.client p → p = who) ∧
      v.presence.Holds channel m.client who ∧ Leaving s channel never m.worker w'
  snapshot : ∀ now newer a members, command = .subscribe s channel now →
    w'.log = newer ++ a :: w.log → a.msg = .presence channel members →
      members = v.presence.snapshot channel ∧ v.presence.Mem channel s

/-- A subscriber that none but its own departure can take out of the channel. -/
theorem Until.holds_of_leaving {w' : Worker}
    (h : Until (· = c) (fun w => w.Lists (·.subscriptions) c channel) base w') (hw' : Consistent w')
    (hleaving : Leaving s channel never v w') (hv : v.presence.Holds channel c who) :
    foundClosed base c w'.log = true ∨ w'.presence.Holds channel c who := by
  rcases h.holds with ⟨c', rfl, hfound⟩ | hlists
  · exact .inl hfound
  · obtain ⟨p, hp⟩ := (hw'.mirror.subscribed c channel hlists).exists_holds
    obtain rfl : p = who := Option.some.inj ((hleaving.kept c p hp).symm.trans hv)
    exact .inr hp

/-- A command that lets nobody in. -/
theorem Relay.of_leaving {command : Command} {w' : Worker} (hw : Consistent w) (hw' : Consistent w')
    (h : Leaving s channel never w w')
    (hstays : ∀ c, w.Lists (·.subscriptions) c channel → ¬ command.Ends c channel →
      Until (· = c) (fun w => w.Lists (·.subscriptions) c channel) w.log.length w')
    (harrivals : ∀ m ∈ arrivals env w command, ∀ who, m.msg ≠ .joined channel who)
    (hsnapshot : ∀ now newer a members, command = .subscribe s channel now →
      w'.log = newer ++ a :: w.log → a.msg ≠ .presence channel members) :
    Relay env s channel command w w w' where
  log := rfl
  leaving := h
  holds _ _ h := h
  entered _ _ h := .inl h
  stays c _ hholds hends :=
    have hlists := (hw.mirror.present c channel hholds.mem).resolve_right fun h => h
    (hstays c hlists hends).holds_of_leaving hw' h hholds
  announced _ _ h hnot _ := absurd h.mem hnot
  arriving m hm who hmsg := absurd hmsg (harrivals m hm who)
  snapshot now newer a members hcommand hlog hmsg :=
    absurd hmsg (hsnapshot now newer a members hcommand hlog)

theorem sweep_msg {msg : ServerMsg} {targets : List ClientId} :
    ∀ m ∈ sweep env c msg targets w, m.msg = msg ∧ m.client = c := fun m hm =>
  have h := sweep_forall (P := fun _ => True) (fun _ _ _ _ _ => trivial) targets trivial m hm
  ⟨h.1, h.2.1⟩

theorem not_joined_of_arrival {command : Command}
    (hcommand : ∀ id now, command ≠ .subscribe id channel now) :
    ∀ m ∈ arrivals env w command, ∀ who, m.msg ≠ .joined channel who := by
  intro m hm who hmsg
  cases command with
  | subscribe id x now =>
    rcases onSubscribe_cases env w id x now with
      ⟨-, hnone⟩ | ⟨u, cs, v, -, -, -, -, ⟨-, -, hnone⟩ | ⟨-, -, hsweep⟩⟩
    · rw [hnone] at hm
      exact List.not_mem_nil hm
    · rw [hnone] at hm
      exact List.not_mem_nil hm
    · rw [hsweep] at hm
      rw [(sweep_msg m hm).1] at hmsg
      obtain rfl : x = channel := by injection hmsg
      exact hcommand id now rfl
  | sessionJoin id session now =>
    rw [arrivals] at hm
    generalize allowJoin env id now w = result at hm
    obtain ⟨allowed, u⟩ := result
    simp only at hm
    split at hm
    · rw [(sweep_msg m hm).1] at hmsg
      cases hmsg
    · exact List.not_mem_nil hm
  | _ => exact List.not_mem_nil hm

/-- A subscription that is let in: `joined` is the worker once the client is entered as `name`, `v` is the worker once
the snapshot has been sent. -/
structure Welcome (env : Env) (s : ClientId) (channel : String) (id : ClientId) (now : Nat) (name : String)
    (w joined v : Worker) : Prop where
  log : joined.log = w.log
  sent : Leaving s channel never joined v
  stays : ∀ c, joined.presence.Mem channel c →
    Until (· = c) (fun w => w.Lists (·.subscriptions) c channel) w.log.length v
  present : ∀ p, joined.presence.Holds channel id p ↔ p = name
  holds : ∀ c who, w.presence.Holds channel c who → joined.presence.Holds channel c who
  entered : ∀ c who, joined.presence.Holds channel c who → w.presence.Holds channel c who ∨ c = id ∧ who = name
  attends : ∀ c who, joined.presence.Holds channel c who → Attends env w (.subscribe id channel now) channel c who
  snapshot : ∀ (w' : Worker) newer a members, id = s → (∃ new, w'.log = new ++ v.log) → w'.log = newer ++ a :: w.log →
    a.msg = .presence channel members → members = joined.presence.snapshot channel ∧ joined.presence.Mem channel s

theorem welcome_of_allowed (env : Env) {now : Nat} {cs : ClientState} (hw : Consistent w) (hnamed : Named w)
    (hallowed : (allowJoin env id now w).1 = true) (hu : u = (allowJoin env id now w).2)
    (hcs : u.clients.lookup id = some cs) (hv : v = snapshotSent env id channel cs.principal.id u) :
    ∃ joined, Welcome env s channel id now cs.principal.id w joined v := by
  have hallow : Leaving s channel never w (allowJoin env id now w).2 :=
    allowJoin_leaving env id now (.refl hnamed)
  obtain ⟨hlog, -, hpresence, hlater⟩ := allowJoin_allowed hallowed
  have hconsistent := allowJoin_consistent env id now hw
  rw [← hu] at hallow hlog hpresence hlater hconsistent
  obtain ⟨cs₀, hcs₀, hprincipal⟩ := hlater.clients id cs hcs
  have hid : id ∈ u.clients := AList.lookup_isSome.1 (by rw [hcs]; rfl)
  have hmirror := (hconsistent.subscribe hid channel cs.principal.id).1.mirror
  have hsubscribed := (subscriptions_addSubscription (u.setPresence (u.presence.join channel id
    cs.principal.id).2) id id channel hid channel).2 (.inr ⟨rfl, rfl⟩)
  have hlog : ((u.setPresence (u.presence.join channel id cs.principal.id).2).addSubscription id
      channel).log = w.log := (log_modifyClient _ _ _).trans hlog
  have hjoined : ∀ c who, ((u.setPresence (u.presence.join channel id
      cs.principal.id).2).addSubscription id channel).presence.Holds channel c who ↔
      if channel = channel ∧ c = id then who = cs.principal.id
      else w.presence.Holds channel c who := fun c who => by rw [holds_subscribe, hpresence]
  have hjoinedNamed := named_subscribe (x := channel) hallow.named hcs
  unfold snapshotSent at hv
  simp only at hv
  generalize (u.setPresence (u.presence.join channel id cs.principal.id).2).addSubscription id
    channel = joined at hlog hv hjoined hmirror hsubscribed hjoinedNamed
  have hentered : ∀ c who, joined.presence.Holds channel c who → w.presence.Holds channel c who ∨
      c = id ∧ who = cs.principal.id := by
    intro c who hholds
    rcases ite_prop_iff_or.1 ((hjoined c who).1 hholds) with ⟨⟨-, rfl⟩, rfl⟩ | ⟨-, hholds⟩
    · exact .inr ⟨rfl, rfl⟩
    · exact .inl hholds
  refine ⟨joined, hlog, ?_, fun c hmem => ?_, fun p => ?_, fun c who hholds => ?_, hentered,
    fun c who hholds => ?_, ?_⟩
  · rw [hv]
    exact deliver_leaving_other env (disconnect_leaving s channel env) _ _ _ _
      (fun _ => ServerMsg.noConfusion) (.refl hjoinedNamed)
  · rw [hv]
    refine (watch_subscription c channel).deliver _ env _ _ _ _ ⟨hlog ▸ le_rfl, .inr ?_⟩
    exact (hmirror.present c channel hmem).resolve_right fun h => h
  · rw [hjoined, if_pos ⟨rfl, rfl⟩]
  · refine (hjoined c who).2 ?_
    split
    · next hpair =>
      obtain ⟨-, rfl⟩ := hpair
      rw [hprincipal]
      exact hnamed channel c who cs₀ hholds hcs₀
    · exact hholds
  · refine (hentered c who hholds).imp_right ?_
    rintro ⟨rfl, rfl⟩
    exact ⟨now, cs₀, rfl, hallowed, hcs₀, by rw [hprincipal]⟩
  · rintro w' newer a members rfl ⟨new, hnew⟩ hfirst hmsg
    rw [hnew, hv, ← hlog] at hfirst
    rw [deliver_first env new hfirst hsubscribed.mem] at hmsg
    injection hmsg with _ hmembers
    exact ⟨hmembers.symm, hmirror.subscribed id channel hsubscribed⟩

/-- A client that is in the channel already is sent its snapshot, and nobody is told. -/
theorem Welcome.relay_member {now : Nat} {name : String} {joined w' : Worker}
    (h : Welcome env s channel id now name w joined v) (hw' : Consistent w') (hmem : w.presence.Mem channel id)
    (hresult : w' = v.refreshChannelGauge) (hnone : arrivals env w (.subscribe id channel now) = []) :
    Relay env s channel (.subscribe id channel now) w joined w' := by
  have hlast : Leaving s channel never joined w' := hresult ▸ h.sent.refreshChannelGauge
  refine ⟨h.log, hlast, h.holds, h.attends, fun c who hheld _ => ?_, ?_, fun m hm => ?_,
    fun now' newer a members hcommand => h.snapshot w' newer a members (by injection hcommand) ⟨[], ?_⟩⟩
  · refine Until.holds_of_leaving ?_ hw' hlast hheld
    rw [hresult]
    exact (h.stays c hheld.mem).later (.of_eq rfl rfl rfl rfl rfl) (.inr fun h => h)
  · rintro c who hheld hnot -
    rcases h.entered c who hheld with hwas | ⟨rfl, -⟩
    · exact absurd hwas.mem hnot
    · exact absurd hmem hnot
  · rw [hnone] at hm
    exact absurd hm List.not_mem_nil
  · rw [hresult]
    rfl

/-- A client that is new to the channel is sent its snapshot, and the other subscribers are told. -/
theorem Welcome.relay_newcomer {now : Nat} {name : String} {joined w' : Worker} {targets : List ClientId}
    (h : Welcome env s channel id now name w joined v) (hw' : Consistent w')
    (htargets : targets = (env.iterClients v.log (v.presence.subscribers channel)).filter (· ≠ id))
    (hresult : w' = (deliverAll env (disconnect env) (.joined channel name) targets v).refreshChannelGauge)
    (hsweep : arrivals env w (.subscribe id channel now) = sweep env id (.joined channel name) targets v) :
    Relay env s channel (.subscribe id channel now) w joined w' := by
  have hrest : Leaving s channel never v (deliverAll env (disconnect env) (.joined channel name) targets v) :=
    deliverAll_leaving env (fun _ => ServerMsg.noConfusion) targets (.refl h.sent.named)
  have hall : Leaving s channel never joined (deliverAll env (disconnect env) (.joined channel name) targets v) :=
    deliverAll_leaving env (fun _ => ServerMsg.noConfusion) targets h.sent
  have hlast : Leaving s channel never joined w' := hresult ▸ hall.refreshChannelGauge
  have hsole : DeliverKeeps env (disconnect env) fun v => ∀ p, v.presence.Holds channel id p → p = name :=
    keepsStable_disconnect env _ (stable_of_holds
      (P := fun holds => ∀ p, holds id p → p = name)
      fun _ _ hsub h p hp => h p (hsub id p hp))
  refine ⟨h.log, hlast, h.holds, h.attends, fun c who hheld _ => ?_, ?_, fun m hm who hmsg => ?_,
    fun now' newer a members hcommand => h.snapshot w' newer a members (by injection hcommand) ?_⟩
  · refine Until.holds_of_leaving ?_ hw' hlast hheld
    rw [hresult]
    exact (deliverAll_keeps ((watch_subscription c channel).deliver _ env) _ _
      (h.stays c hheld.mem)).later (.of_eq rfl rfl rfl rfl rfl) (.inr fun h => h)
  · intro c who hheld hnot hc
    obtain ⟨rfl, rfl⟩ := (h.entered c who hheld).resolve_left fun hwas => hnot hwas.mem
    rw [hresult]
    by_cases hs : s ∈ targets
    · obtain ⟨old, hold, -⟩ := h.sent.told
      refine (deliverAll_tells env (.joined channel who) targets v hs).imp
        (fun hgone hhears => hgone hhears.1) ?_
      rintro ⟨new, hnew, a, ha, htold⟩
      refine ⟨new ++ old, ?_, a, List.mem_append_left _ ha, htold⟩
      show (deliverAll _ _ _ targets v).log = _
      rw [hnew, hold, h.log, List.append_assoc]
    · refine .inl fun hhears => hs ?_
      obtain ⟨p, hp⟩ := hhears.2.exists_holds
      rw [htargets]
      refine List.mem_filter.2 ⟨(env.iterClients_perm _ _).mem_iff.2 (hrest.kept s p hp).mem, ?_⟩
      simpa using hc.symm
  · rw [hsweep] at hm
    have hprincipal : ∀ p, v.presence.Holds channel id p → p = name := fun p hp =>
      (h.present p).1 (h.sent.kept id p hp)
    obtain ⟨hmsg', hclient, hsole⟩ := sweep_forall hsole targets hprincipal m hm
    rw [hmsg'] at hmsg
    obtain rfl : name = who := by injection hmsg
    rw [hclient, hresult]
    refine ⟨hsole, (h.present name).2 rfl, ?_⟩
    exact (sweep_leaving env (fun _ => ServerMsg.noConfusion) targets h.sent.named m
      hm).refreshChannelGauge
  · obtain ⟨new, hnew⟩ := (later_deliverAll env (.joined channel name) targets v).log
    exact ⟨new, hresult ▸ hnew⟩

theorem onSubscribe_relay (env : Env) {now : Nat} (hw : Consistent w) (hnamed : Named w) :
    ∃ v, Relay env s channel (.subscribe id channel now) w v (onSubscribe env id channel now w) := by
  have hw' : Consistent (onSubscribe env id channel now w) := onSubscribe_consistent env hw
  have hallow : Leaving s channel never w (allowJoin env id now w).2 :=
    allowJoin_leaving env id now (.refl hnamed)
  rcases onSubscribe_cases env w id channel now with
    ⟨hresult, hnone⟩ | ⟨u, cs, v, hallowed, hu, hcs, hv, hcases⟩
  · refine ⟨w, .of_leaving hw hw' (hresult ▸ hallow) (fun c hlists hends => ?_) (fun m hm => ?_)
      fun _ newer a members _ hlog hmsg => ?_⟩
    · exact handle_until env (.subscribe id channel now) trivial hends hlists
    · rw [hnone] at hm
      exact absurd hm List.not_mem_nil
    · rw [hresult] at hlog
      rw [allowJoin_first hlog] at hmsg
      cases hmsg
  · obtain ⟨joined, h⟩ := welcome_of_allowed (s := s) env hw hnamed hallowed hu hcs hv
    have hpresence := (allowJoin_allowed hallowed).2.2.1
    rw [← hu] at hpresence
    rcases hcases with ⟨hmem, hresult, hnone⟩ | ⟨-, hresult, hsweep⟩
    · exact ⟨joined, h.relay_member hw' (hpresence ▸ hmem) hresult hnone⟩
    · exact ⟨joined, h.relay_newcomer hw' rfl hresult hsweep⟩

theorem handle_relay (env : Env) (s : ClientId) (channel : String) {command : Command}
    (hw : Consistent w) (hnamed : Named w) (hfresh : command.Fresh w) :
    ∃ v, Relay env s channel command w v (handle env w command) := by
  by_cases hcommand : ∃ id now, command = .subscribe id channel now
  · obtain ⟨id, now, rfl⟩ := hcommand
    exact onSubscribe_relay env hw hnamed
  · have hne : ∀ id now, command ≠ .subscribe id channel now := fun id now heq =>
      hcommand ⟨id, now, heq⟩
    exact ⟨w, .of_leaving hw (handle_consistent env hw hfresh) (handle_leaving env hw hnamed hfresh hne)
      (fun c hlists hends => handle_until env command hfresh hends hlists) (not_joined_of_arrival hne)
      fun now _ _ _ heq => absurd heq (hne s now)⟩

end Atomo.Hub

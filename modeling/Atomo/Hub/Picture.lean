import Atomo.Hub.Deltas
import Mathlib.Data.Finset.Dedup
import Mathlib.Data.Finset.Erase
import Mathlib.Data.Finset.Insert

/-!
# A subscriber's picture of a channel

A subscriber starts from the snapshot it was sent and applies each delta: who joins is added, who leaves
is taken away (`pictureOf`). Deltas name principals and the channel is kept by connection, so the
picture is the channel's snapshot as long as the connections of one principal leave together and no
arrival is announced late (`Turn.Orderly`).
-/

namespace Atomo.Hub

variable {env : Env} {w v w' : Worker} {s c : ClientId} {channel who : String} {turn : Turn}
  {start : Finset String} {log : List Attempt}

/-! ## Deltas -/

/-- One frame: set insertion, set removal. -/
def applyDelta (channel : String) (picture : Finset String) : ServerMsg → Finset String
  | .joined x who => if x = channel then insert who picture else picture
  | .left x who => if x = channel then picture.erase who else picture
  | _ => picture

/-- What `s` makes of the deliveries of `log`, the newest first, from the picture `start`. -/
def pictureOf (s : ClientId) (channel : String) (start : Finset String) (log : List Attempt) :
    Finset String :=
  log.foldr (fun a picture =>
    if a.target = s ∧ a.outcome = .sent then applyDelta channel picture a.msg else picture) start

/-- The frame has reached `s`. -/
def Attempt.Tells (s : ClientId) (msg : ServerMsg) (a : Attempt) : Prop :=
  a.target = s ∧ a.outcome = .sent ∧ a.msg = msg

theorem pictureOf_append (newer older : List Attempt) :
    pictureOf s channel start (newer ++ older) =
      pictureOf s channel (pictureOf s channel start older) newer :=
  List.foldr_append

theorem mem_applyDelta {msg : ServerMsg} :
    who ∈ applyDelta channel start msg ↔
      msg = .joined channel who ∨ who ∈ start ∧ msg ≠ .left channel who := by
  cases msg with
  | joined x p =>
    by_cases hx : x = channel
    · simp [applyDelta, hx, eq_comm]
    · simp [applyDelta, hx]
  | left x p =>
    by_cases hx : x = channel
    · simp [applyDelta, hx, and_comm, eq_comm]
    · simp [applyDelta, hx]
  | _ => simp [applyDelta]

theorem mem_pictureOf_cons {a : Attempt} :
    who ∈ pictureOf s channel start (a :: log) ↔ a.Tells s (.joined channel who) ∨
      who ∈ pictureOf s channel start log ∧ ¬ a.Tells s (.left channel who) := by
  unfold pictureOf Attempt.Tells
  rw [List.foldr_cons]
  split
  · next hsent => simp [mem_applyDelta, hsent.1, hsent.2]
  · next hnot => grind

/-- While nobody of this name is told to leave, whoever was there or has joined is there. -/
theorem mem_pictureOf_of_not_left (hleft : ∀ a ∈ log, ¬ a.Tells s (.left channel who)) :
    who ∈ pictureOf s channel start log ↔
      who ∈ start ∨ ∃ a ∈ log, a.Tells s (.joined channel who) := by
  induction log with
  | nil => simp [pictureOf]
  | cons a log ih =>
    have hrest := ih fun b hb => hleft b (List.mem_cons_of_mem a hb)
    rw [mem_pictureOf_cons, hrest, List.exists_mem_cons_iff]
    have hself := hleft a List.mem_cons_self
    tauto

/-- Whoever was there has left since, and whoever has joined has left since it did. -/
theorem not_mem_pictureOf
    (hstart : who ∈ start → ∃ a ∈ log, a.Tells s (.left channel who))
    (hjoined : ∀ newer a older, log = newer ++ a :: older → a.Tells s (.joined channel who) →
      ∃ b ∈ newer, b.Tells s (.left channel who)) :
    who ∉ pictureOf s channel start log := by
  induction log with
  | nil =>
    intro hmem
    obtain ⟨a, ha, -⟩ := hstart hmem
    exact List.not_mem_nil ha
  | cons a log ih =>
    rw [mem_pictureOf_cons]
    rintro (hjoins | ⟨hmem, hstays⟩)
    · obtain ⟨b, hb, -⟩ := hjoined [] a log rfl hjoins
      exact List.not_mem_nil hb
    · refine ih (fun hwho => ?_) (fun newer b older hlog hb => ?_) hmem
      · obtain ⟨b, hb, hleaves⟩ := hstart hwho
        rcases List.mem_cons.1 hb with rfl | hb
        · exact absurd hleaves hstays
        · exact ⟨b, hb, hleaves⟩
      · obtain ⟨d, hd, hleaves⟩ := hjoined (a :: newer) b older (by rw [hlog]; rfl) hb
        rcases List.mem_cons.1 hd with rfl | hd
        · exact absurd hleaves hstays
        · exact ⟨d, hd, hleaves⟩

/-! ## Turns -/

/-- The turn takes the client out of the channel: by its command, or because its receiver is found
closed. -/
def Turn.Departs (channel : String) (c : ClientId) (turn : Turn) : Prop :=
  turn.command.Ends c channel ∨ ∃ a ∈ turn.attempts, a.target = c ∧ a.outcome = .closed

/-- The subscriber does not leave, and none of its frames is shed. -/
structure Turn.Heard (s : ClientId) (channel : String) (turn : Turn) : Prop where
  stays : ¬ turn.Departs channel s
  unshed : ∀ a ∈ turn.attempts, a.target = s → a.outcome ≠ .dropped

/-- The connections of one principal leave the channel together, and the subscriber is told of no
arrival late. -/
structure Turn.Orderly (env : Env) (s : ClientId) (channel : String) (w : Worker) (turn : Turn) :
    Prop where
  together : ∀ c c' who, Attends env w turn.command channel c who →
    Attends env w turn.command channel c' who → turn.Departs channel c → turn.Departs channel c'
  prompt : ∀ m ∈ arrivals env w turn.command, ∀ who, m.target = s → m.msg = .joined channel who →
    m.Enqueued env → ¬ m.Late w

theorem Turn.Heard.tells (h : turn.Heard s channel) {a : Attempt} {msg : ServerMsg}
    (ha : a ∈ turn.attempts) (htarget : a.target = s) (hmsg : a.msg = msg) : a.Tells s msg := by
  refine ⟨htarget, ?_, hmsg⟩
  cases houtcome : a.outcome with
  | sent => rfl
  | dropped => exact absurd houtcome (h.unshed a ha htarget)
  | closed => exact absurd (.inr ⟨a, ha, htarget, houtcome⟩) h.stays

theorem foundClosed_since {new old : List Attempt} :
    foundClosed old.length c (new ++ old) = true ↔ ∃ a ∈ new, a.target = c ∧ a.outcome = .closed := by
  unfold foundClosed
  rw [List.length_append, Nat.add_sub_cancel, List.take_left, List.any_eq_true]
  simp

/-- Whom a command takes out of the channel is not in it afterwards. -/
theorem handle_ends (env : Env) {command : Command} (hw : Consistent w) (hfresh : command.Fresh w)
    (hends : command.Ends c channel) : ¬ (handle env w command).presence.Mem channel c := by
  have hw' := handle_consistent env hw hfresh
  cases command with
  | unsubscribe id x =>
    obtain ⟨rfl, rfl⟩ := hends
    intro hmem
    obtain ⟨p, hp⟩ := hmem.exists_holds
    have hgone : ∀ p, ¬ ((w.dropSubscription id x).setPresence
        ((w.dropSubscription id x).presence.leave x id).2).presence.Holds x id p := fun p hp =>
      (holds_leave.1 hp).2 ⟨rfl, rfl⟩
    revert hp
    unfold handle onUnsubscribe leaveChannel
    simp only
    split
    · exact deliverAll_keeps (keepsStable_disconnect env _ (stable_gone x id)) _ _ hgone p
    · exact hgone p
  | disconnect id =>
    obtain rfl : id = c := hends
    intro hmem
    have hlists := (hw'.mirror.present id channel hmem).resolve_right fun h => h
    exact onDisconnect_gone id le_rfl hlists.mem
  | _ => exact absurd hends fun h => h

theorem handle_departs (hw : Consistent w) (hfresh : turn.command.Fresh w)
    (hlog : (handle env w turn.command).log = turn.attempts ++ w.log) (hdeparts : turn.Departs channel c) :
    ¬ (handle env w turn.command).presence.Mem channel c := by
  have hw' := handle_consistent env hw hfresh
  rcases hdeparts with hends | hclosed
  · exact handle_ends env hw hfresh hends
  · intro hmem
    have hlists := (hw'.mirror.present c channel hmem).resolve_right fun h => h
    refine (handle_gone c env w turn.command).gone ?_ hlists.mem
    rw [hlog]
    exact foundClosed_since.2 hclosed

theorem Relay.stays_of_not_departs (h : Relay env s channel turn.command w v w')
    (hlog : w'.log = turn.attempts ++ w.log) (hheld : v.presence.Holds channel c who)
    (hstays : ¬ turn.Departs channel c) : w'.presence.Holds channel c who := by
  refine (h.stays c who hheld fun hends => hstays (.inl hends)).resolve_left fun hfound => ?_
  rw [hlog, foundClosed_since] at hfound
  exact hstays (.inr hfound)

/-- A subscriber that does not leave still hears the channel. -/
theorem Turn.Heard.hears (h : turn.Heard s channel)
    (hrelay : Relay env s channel turn.command w v w') (hlog : w'.log = turn.attempts ++ w.log)
    (hw' : Consistent w') (hs : v.presence.Mem channel s) : Hears s channel w' := by
  obtain ⟨p, hp⟩ := hs.exists_holds
  have hmem := (hrelay.stays_of_not_departs hlog hp h.stays).mem
  exact ⟨((hw'.mirror.present s channel hmem).resolve_right fun h => h).mem, hmem⟩

/-- One turn: a picture of the channel as it is when the client that subscribes has entered becomes
the snapshot at the end. -/
theorem mem_pictureOf_turn (hw : Consistent w) (hfresh : turn.command.Fresh w)
    (hrelay : Relay env s channel turn.command w v (handle env w turn.command))
    (hlog : (handle env w turn.command).log = turn.attempts ++ w.log)
    (hheard : turn.Heard s channel) (horderly : turn.Orderly env s channel w)
    (hs : v.presence.Mem channel s)
    (hknown : ∀ c who, v.presence.Holds channel c who →
      who ∈ start ∨ ∃ a ∈ turn.attempts, a.Tells s (.joined channel who))
    (hstart : ∀ who ∈ start, ∃ c, v.presence.Holds channel c who) :
    who ∈ pictureOf s channel start turn.attempts ↔
      who ∈ (handle env w turn.command).presence.snapshot channel := by
  have hw' := handle_consistent env hw hfresh
  have hhears := hheard.hears hrelay hlog hw' hs
  obtain ⟨new, hnew, hleft, hsound⟩ := hrelay.leaving.told
  rw [hrelay.log, hlog, List.append_cancel_right_eq] at hnew
  subst hnew
  rw [mem_snapshot]
  by_cases hin : ∃ c, (handle env w turn.command).presence.Holds channel c who
  · obtain ⟨c, hc⟩ := hin
    have hheld := hrelay.leaving.kept c who hc
    refine iff_of_true ((mem_pictureOf_of_not_left fun a ha hleaves => ?_).2 (hknown c who hheld)) ⟨c, hc⟩
    -- who is told to leave leaves with all its connections, and `c` has not left
    obtain ⟨c₁, hc₁, hgone⟩ := hsound a ha hleaves.1 who hleaves.2.2
    have hdeparts : turn.Departs channel c₁ := by
      by_contra hstays
      exact hgone (hrelay.stays_of_not_departs hlog hc₁ hstays).mem
    have hdeparts := horderly.together c₁ c who (hrelay.entered c₁ who hc₁) (hrelay.entered c who hheld)
      hdeparts
    exact handle_departs hw hfresh hlog hdeparts hc.mem
  · refine iff_of_false (not_mem_pictureOf (fun hwho => ?_) fun newer a older hsplit htold => ?_) hin
    · obtain ⟨c, hc⟩ := hstart who hwho
      rcases hleft c who hc with hheld | hnever | hdeaf | ⟨a, ha, htarget, hmsg⟩
      · exact absurd ⟨c, hheld⟩ hin
      · exact absurd hnever fun h => h
      · exact absurd hhears hdeaf
      · exact ⟨a, ha, hheard.tells ha htarget hmsg⟩
    · -- an arrival that is not late announces a connection that is there, and that has left since
      have hlog' : (handle env w turn.command).log = newer ++ a :: (older ++ w.log) := by
        rw [hlog, hsplit, List.append_assoc, List.cons_append]
      obtain ⟨m, hm, rfl, hmade, htarget⟩ :=
        (handle_accounted env w turn.command).2 newer a _ hlog' (by simp)
          (by rw [htold.2.2]; trivial)
      obtain ⟨hnamed, -, hleaving⟩ := hrelay.arriving m hm who htold.2.2
      have hgenuine : m.Genuine := (genuine_iff_of_arrival hw m hm).2
        (horderly.prompt m hm who htold.1 htold.2.2 ⟨htarget, htold.2.1⟩)
      unfold Arrival.Genuine at hgenuine
      rw [show m.msg = .joined channel who from htold.2.2] at hgenuine
      obtain ⟨p, hp⟩ := Presence.Mem.exists_holds hgenuine
      obtain rfl := hnamed p hp
      obtain ⟨since, hsince, hleft, -⟩ := hleaving.told
      rw [hmade, hlog'] at hsince
      have hsince : since = newer ++ [m.attempt env] := by
        rw [← List.append_cancel_right_eq, ← hsince, List.append_assoc]
        rfl
      rcases hleft m.client p hp with hheld | hnever | hdeaf | ⟨b, hb, htarget, hmsg⟩
      · exact absurd ⟨_, hheld⟩ hin
      · exact absurd hnever fun h => h
      · exact absurd hhears hdeaf
      · rw [hsince, List.mem_append, List.mem_singleton] at hb
        rcases hb with hb | rfl
        · refine ⟨b, hb, hheard.tells (hsplit ▸ List.mem_append_left _ hb) htarget hmsg⟩
        · rw [htold.2.2] at hmsg
          cases hmsg

/-! ## Runs -/

theorem named_inductive (env : Env) (policy : CoordinatorLeavePolicy) (rate : Option RateLimit) :
    (system env policy rate).Inductive fun w => Consistent w ∧ Named w := by
  refine (consistent_inductive env policy rate).and (fun w hw => ?_) fun w turn w' hw hnamed hstep => ?_
  · subst hw
    intro x c who cs hholds
    exact absurd hholds.mem Presence.not_mem_empty
  · obtain ⟨hfresh, rfl, -⟩ := hstep
    obtain ⟨v, hrelay⟩ := handle_relay env 0 "" hw hnamed hfresh
    exact hrelay.leaving.named

/-- The picture of one that stays in the channel is the channel's snapshot again after each turn. -/
theorem pictureOf_turn (hw : Consistent w) (hnamed : Named w) (hfresh : turn.command.Fresh w)
    (hlog : (handle env w turn.command).log = turn.attempts ++ w.log)
    (hheard : turn.Heard s channel) (horderly : turn.Orderly env s channel w)
    (hs : w.presence.Mem channel s) :
    pictureOf s channel (w.presence.snapshot channel).toFinset turn.attempts =
        ((handle env w turn.command).presence.snapshot channel).toFinset ∧
      (handle env w turn.command).presence.Mem channel s := by
  obtain ⟨v, hrelay⟩ := handle_relay env s channel hw hnamed hfresh
  obtain ⟨p, hp⟩ := hs.exists_holds
  have hentered := (hrelay.holds s p hp).mem
  have hhears := hheard.hears hrelay hlog (handle_consistent env hw hfresh) hentered
  refine ⟨Finset.ext fun who => ?_, hhears.2⟩
  rw [mem_pictureOf_turn hw hfresh hrelay hlog hheard horderly hentered, List.mem_toFinset]
  · intro c who hheld
    rw [List.mem_toFinset, mem_snapshot]
    by_cases hmem : w.presence.Mem channel c
    · obtain ⟨q, hq⟩ := hmem.exists_holds
      obtain rfl : q = who := Option.some.inj ((hrelay.holds c q hq).symm.trans hheld)
      exact .inl ⟨c, hq⟩
    · have hc : c ≠ s := by
        rintro rfl
        exact hmem hs
      rcases hrelay.announced c who hheld hmem hc with hdeaf | ⟨new, hnew, a, ha, htarget, hmsg⟩
      · exact absurd hhears hdeaf
      · rw [hlog, List.append_cancel_right_eq] at hnew
        exact .inr ⟨a, hnew ▸ ha, hheard.tells (hnew ▸ ha) htarget hmsg⟩
  · intro who hwho
    rw [List.mem_toFinset, mem_snapshot] at hwho
    obtain ⟨c, hc⟩ := hwho
    exact ⟨c, hrelay.holds c who hc⟩

/-- What `s` makes of its subscription is the snapshot at its end. -/
theorem pictureOf_subscription {now : Nat} {members : List String} {newer : List Attempt}
    (hw : Consistent w) (hnamed : Named w) (hcommand : turn.command = .subscribe s channel now)
    (hattempts : turn.attempts = newer ++ [⟨s, .presence channel members, .sent, false⟩])
    (hlog : (handle env w turn.command).log = turn.attempts ++ w.log)
    (hheard : turn.Heard s channel) (horderly : turn.Orderly env s channel w) :
    pictureOf s channel members.toFinset newer =
        ((handle env w turn.command).presence.snapshot channel).toFinset ∧
      (handle env w turn.command).presence.Mem channel s := by
  have hfresh : turn.command.Fresh w := by
    rw [hcommand]
    trivial
  obtain ⟨v, hrelay⟩ := handle_relay env s channel hw hnamed hfresh
  obtain ⟨hmembers, hs⟩ := hrelay.snapshot now newer ⟨s, .presence channel members, .sent, false⟩
    members hcommand (by rw [hlog, hattempts, List.append_assoc, List.singleton_append]) rfl
  have hfirst : pictureOf s channel members.toFinset turn.attempts =
      pictureOf s channel members.toFinset newer := by
    rw [hattempts, pictureOf_append]
    simp [pictureOf, applyDelta]
  refine ⟨Finset.ext fun who => ?_, (hheard.hears hrelay hlog (handle_consistent env hw hfresh) hs).2⟩
  rw [← hfirst, mem_pictureOf_turn hw hfresh hrelay hlog hheard horderly hs, List.mem_toFinset]
  · intro c who hheld
    rw [List.mem_toFinset, hmembers, mem_snapshot]
    exact .inl ⟨c, hheld⟩
  · intro who hwho
    rw [List.mem_toFinset, hmembers, mem_snapshot] at hwho
    exact hwho

/-- The deliveries of a run, the newest first. -/
def deliveries (turns : List Turn) : List Attempt :=
  turns.reverse.flatMap Turn.attempts

theorem deliveries_snoc (turns : List Turn) (turn : Turn) :
    deliveries (turns ++ [turn]) = turn.attempts ++ deliveries turns := by
  rw [deliveries, List.reverse_append, List.reverse_singleton, List.flatMap_append,
    List.flatMap_singleton, deliveries]

/-- **Presence deltas.** As long as the connections of one principal leave together and no arrival is
announced late, a subscriber that starts from its snapshot and applies each delta has the channel's
snapshot in every later state, until it leaves. -/
theorem presence_deltas {policy : CoordinatorLeavePolicy} {rate : Option RateLimit} {w₀ w₁ w₂ : Worker}
    {turns : List Turn} {now : Nat} {members : List String} {newer : List Attempt}
    (h : (system env policy rate).Reachable w₀)
    (hstep : ((system env policy rate).restrict fun w turn =>
      turn.Heard s channel ∧ turn.Orderly env s channel w).step w₀ turn w₁)
    (hcommand : turn.command = .subscribe s channel now)
    (hattempts : turn.attempts = newer ++ [⟨s, .presence channel members, .sent, false⟩])
    (hrun : ((system env policy rate).restrict fun w turn =>
      turn.Heard s channel ∧ turn.Orderly env s channel w).Run w₁ turns w₂) :
    pictureOf s channel members.toFinset (deliveries turns ++ newer) =
      (w₂.presence.snapshot channel).toFinset := by
  have hw₀ := (named_inductive env policy rate).reachable h
  obtain ⟨⟨hfresh, rfl, hlog⟩, hheard, horderly⟩ := hstep
  obtain ⟨hstart, hmem⟩ :=
    pictureOf_subscription hw₀.1 hw₀.2 hcommand hattempts hlog hheard horderly
  have hgood : ∀ bs u, (system env policy rate).Run (handle env w₀ turn.command) bs u →
      Consistent u ∧ Named u := fun bs u hbs =>
    (named_inductive env policy rate).reachable ((h.step ⟨hfresh, rfl, hlog⟩).run hbs)
  refine (hrun.history (P := fun turns w => w.presence.Mem channel s ∧
    pictureOf s channel members.toFinset (deliveries turns ++ newer) =
      (w.presence.snapshot channel).toFinset) ⟨hmem, by simpa [deliveries] using hstart⟩ ?_).2
  rintro bs u next u' hbs ⟨hs, hpicture⟩ ⟨⟨hfresh, rfl, hlog⟩, hheard, horderly⟩
  have hu := hgood bs u hbs.of_restrict
  obtain ⟨hnext, hs'⟩ := pictureOf_turn hu.1 hu.2 hfresh hlog hheard horderly hs
  refine ⟨hs', ?_⟩
  rw [deliveries_snoc, List.append_assoc, pictureOf_append, hpicture, hnext]

/-! ## Two connections of one principal -/

instance (c : ClientId) (channel : String) (command : Command) : Decidable (command.Ends c channel) :=
  match command with
  | .unsubscribe id x => inferInstanceAs (Decidable (id = c ∧ x = channel))
  | .disconnect id => inferInstanceAs (Decidable (id = c))
  | .connect .. | .subscribe .. | .publish .. | .presence .. | .sessionJoin .. | .sessionLeave ..
  | .toCoordinator .. | .toMembers .. => isFalse fun h => h

instance : Decidable (turn.Departs channel c) :=
  inferInstanceAs (Decidable (_ ∨ _))

instance : Decidable (turn.Heard s channel) :=
  decidable_of_iff (¬ turn.Departs channel s ∧ ∀ a ∈ turn.attempts, a.target = s → a.outcome ≠ .dropped)
    ⟨fun h => ⟨h.1, h.2⟩, fun h => ⟨h.1, h.2⟩⟩

/-- The turn in which `w` takes the command. -/
def turnOf (env : Env) (w : Worker) (command : Command) : Turn :=
  ⟨command, (handle env w command).log.take ((handle env w command).log.length - w.log.length)⟩

def turnsOf (env : Env) : Worker → List Command → List Turn
  | _, [] => []
  | w, command :: rest => turnOf env w command :: turnsOf env (handle env w command) rest

theorem step_turnOf (policy : CoordinatorLeavePolicy) (rate : Option RateLimit) {command : Command}
    (hfresh : command.Fresh w) :
    (system env policy rate).step w (turnOf env w command) (handle env w command) := by
  obtain ⟨new, hnew⟩ := handle_grows env w command
  refine ⟨hfresh, rfl, ?_⟩
  rw [turnOf, hnew, List.length_append, Nat.add_sub_cancel, List.take_left]

theorem run_turnsOf {policy : CoordinatorLeavePolicy} {rate : Option RateLimit} (commands : List Command)
    (hfresh : freshAll env w commands = true)
    (hheard : ∀ turn ∈ turnsOf env w commands, turn.Heard s channel) :
    ((system env policy rate).restrict fun _ turn => turn.Heard s channel).Run w
      (turnsOf env w commands) (commands.foldl (handle env) w) := by
  induction commands generalizing w with
  | nil => exact .nil w
  | cons command rest ih =>
    rw [freshAll, Bool.and_eq_true, decide_eq_true_eq] at hfresh
    refine .cons ⟨step_turnOf policy rate hfresh.1, hheard _ List.mem_cons_self⟩ (ih hfresh.2 ?_)
    exact fun turn hturn => hheard turn (List.mem_cons_of_mem _ hturn)

/-- Three connections, of two principals. -/
def threeConnected : Worker :=
  [Command.connect 1 ⟨"ada"⟩ 0, .connect 2 ⟨"bo"⟩ 0, .connect 3 ⟨"bo"⟩ 0].foldl (handle .open)
    (.new .reelect none)

theorem threeConnected_reachable : (system .open .reelect none).Reachable threeConnected :=
  (reachable_foldl (C := fun _ => True) _ (.of_init rfl) (by decide)
    fun _ _ => trivial).of_restrict

/-- With its first connection in the channel, `bo` leaves it with its second. -/
theorem presence_deltas_twoConnections :
    ¬ ∀ (env : Env) (policy : CoordinatorLeavePolicy) (rate : Option RateLimit) (s : ClientId)
      (channel : String) (w₀ w₁ w₂ : Worker) (turn : Turn) (turns : List Turn) (now : Nat)
      (members : List String) (newer : List Attempt), (system env policy rate).Reachable w₀ →
      ((system env policy rate).restrict fun _ turn => turn.Heard s channel).step w₀ turn w₁ →
      turn.command = .subscribe s channel now →
      turn.attempts = newer ++ [⟨s, .presence channel members, .sent, false⟩] →
      ((system env policy rate).restrict fun _ turn => turn.Heard s channel).Run w₁ turns w₂ →
      pictureOf s channel members.toFinset (deliveries turns ++ newer) =
        (w₂.presence.snapshot channel).toFinset := by
  intro hclaim
  have hwrong := hclaim .open .reelect none 1 "room" threeConnected _ _
    (turnOf .open threeConnected (.subscribe 1 "room" 0)) _ 0 ["ada"] [] threeConnected_reachable
    ⟨step_turnOf .reelect none trivial, by decide⟩ rfl (by decide)
    (run_turnsOf [.subscribe 2 "room" 0, .subscribe 3 "room" 0, .disconnect 2] (by decide)
      (by decide))
  revert hwrong
  decide

/-- The second client subscribes, and nobody leaves. -/
theorem presence_deltas_secondClient :
    ∃ (turns : List Turn) (w : Worker), pictureOf 1 "room" ["ada"].toFinset (deliveries turns ++ []) =
      (w.presence.snapshot "room").toFinset ∧ "bo" ∈ w.presence.snapshot "room" := by
  have hstep : ∀ (w : Worker) command, command.Fresh w → (∀ c, ¬ command.Ends c "room") →
      (∀ a ∈ (turnOf .open w command).attempts, a.outcome = .sent) →
      (∀ m ∈ arrivals .open w command, foundClosed w.log.length m.client m.worker.log = false) →
      ((system .open .reelect none).restrict fun w turn => turn.Heard 1 "room" ∧
        turn.Orderly .open 1 "room" w).step w (turnOf .open w command) (handle .open w command) := by
    intro w command hfresh hends hsent hfound
    have hstays : ∀ c, ¬ (turnOf .open w command).Departs "room" c := by
      rintro c (hends' | ⟨a, ha, -, hclosed⟩)
      · exact hends c hends'
      · rw [hsent a ha] at hclosed
        cases hclosed
    refine ⟨step_turnOf .reelect none hfresh, ⟨hstays 1, fun a ha _ => by rw [hsent a ha]; decide⟩,
      fun c _ _ _ _ hdeparts => absurd hdeparts (hstays c), fun m hm who _ hmsg _ hlate => ?_⟩
    unfold Arrival.Late at hlate
    rw [hmsg, hfound m hm] at hlate
    simp at hlate
  refine ⟨_, _, presence_deltas threeConnected_reachable (hstep threeConnected (.subscribe 1 "room" 0)
    trivial (fun _ h => h) (by decide) (by decide)) rfl (by decide)
    (.single (hstep _ (.subscribe 2 "room" 0) trivial (fun _ h => h) (by decide)
      (by decide))), by decide⟩

end Atomo.Hub

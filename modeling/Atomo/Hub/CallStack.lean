import Atomo.Hub.Reaping
import Atomo.Lib.TaskStack

/-!
# The calls of a reaping

`deliver`, `broadcast_except`, `leave_session` and `on_disconnect` call each other. Here the calls are tasks on a stack,
and a step does what the code does between two calls. Every call comes to its end (`reaping_ends`): a disconnection
takes its client from the map before it calls anything, and everything else calls deliveries only.
-/

namespace Atomo.Hub

/-- A call, or what is left of one. -/
inductive Task where
  | deliver (id : ClientId) (msg : ServerMsg) (late : Bool)
  | broadcastExcept (channel : String) (except : ClientId) (msg : ServerMsg)
  | leaveChannelOf (id : ClientId) (who channel : String)
  | evict (session : String) (m : SessionMember)
  | announceChange (session : String) (newCoord : SessionMember) (base : Nat) (m : SessionMember)
  | leaveSession (id : ClientId) (session : String)
  | refreshSessionGauge
  | leaveSessions (id : ClientId) (sessions : List String)
  | countClosed
  | onDisconnect (id : ClientId)

section Steps

variable (env : Env)

/-- The frames that tell the remaining members of a leave. -/
def toldTasks (w : Worker) (session : String) (left : ServerMsg) (remaining : List SessionMember) : CoordinatorChange → List Task
  | .closed => remaining.map (.evict session)
  | .reelected newCoord => remaining.flatMap fun m =>
      [.deliver m.clientId left false, .announceChange session newCoord w.log.length m]
  | .none => remaining.map fun m => .deliver m.clientId left false

/-- One step of a task: the client that is removed from the map, the state, and the calls that are made. -/
def taskStep : Task → Worker → Option ClientId × Worker × List Task
  | .deliver id msg late, w =>
    match w.clients.lookup id with
    | none => (none, w, [])
    | some _ =>
      let outcome := env.outcome w.log id msg
      let w := w.record ⟨id, msg, outcome, late⟩
      match outcome with
      | .closed => (none, w, [.onDisconnect id])
      | _ => (none, w, [])
  | .broadcastExcept channel except msg, w =>
    (none, w, ((env.iterClients w.log (w.presence.subscribers channel)).filter (· ≠ except)).map fun target =>
      .deliver target msg false)
  | .leaveChannelOf id who channel, w =>
    let (removed, presence) := w.presence.leave channel id
    (none, w.setPresence presence, if removed then [.broadcastExcept channel id (.left channel who)] else [])
  | .evict session m, w =>
    (none, w.dropSession m.clientId session, [.deliver m.clientId (.sessionClosed session "coordinator_left") false])
  | .announceChange session newCoord base m, w =>
    (none, w, [.deliver m.clientId (.coordinatorChanged session newCoord.slot newCoord.principalId)
      (foundClosed base newCoord.clientId w.log)])
  | .leaveSession id session, w =>
    match w.sessions.leave session id w.sessionPolicy with
    | (none, _) => (none, w, [])
    | (some outcome, sessions) =>
      let w := (w.setSessions sessions).dropSession id session
      let left := ServerMsg.memberLeft session outcome.member.slot outcome.member.principalId
      (none, w, toldTasks w session left outcome.remaining outcome.change ++ [.refreshSessionGauge])
  | .refreshSessionGauge, w => (none, w.refreshSessionGauge, [])
  | .leaveSessions id sessions, w => (none, w, (env.iterNames w.log sessions).map (.leaveSession id))
  | .countClosed, w => (none, w.countClosed.refreshChannelGauge, [])
  | .onDisconnect id, w =>
    match w.clients.lookup id with
    | none => (none, w, [])
    | some cs =>
      let w := w.eraseClient id
      (some id, w, (env.iterNames w.log cs.subscriptions).map (.leaveChannelOf id cs.principal.id) ++
        [.leaveSessions id cs.sessions, .countClosed])

/-- The machine that makes the calls. -/
def callStack : TaskStack Worker Task ClientId :=
  ⟨taskStep env⟩

/-- What a task does in the end. -/
def Task.run : Task → Worker → Worker
  | .deliver id msg late => Hub.deliver env (disconnect env) id msg late
  | .broadcastExcept channel except msg => Hub.broadcastExcept env (disconnect env) channel except msg
  | .leaveChannelOf id who channel => Hub.leaveChannelOf env (disconnect env) id who channel
  | .evict session m => fun w =>
    Hub.deliver env (disconnect env) m.clientId (.sessionClosed session "coordinator_left") false (w.dropSession m.clientId session)
  | .announceChange session newCoord base m => fun w =>
    Hub.deliver env (disconnect env) m.clientId (.coordinatorChanged session newCoord.slot newCoord.principalId)
      (foundClosed base newCoord.clientId w.log) w
  | .leaveSession id session => Hub.leaveSession env (disconnect env) id session
  | .refreshSessionGauge => Worker.refreshSessionGauge
  | .leaveSessions id sessions => fun w =>
    (env.iterNames w.log sessions).foldl (fun w session => Hub.leaveSession env (disconnect env) id session w) w
  | .countClosed => fun w => w.countClosed.refreshChannelGauge
  | .onDisconnect id => disconnect env id

end Steps

/-! ## The steps and the functions -/

section

variable {env : Env} {w : Worker}

/-- A task does what its step does and then what the calls do that it makes. -/
theorem run_eq (t : Task) (w : Worker) :
    t.run env w = (taskStep env t w).2.2.foldl (fun w t => t.run env w) (taskStep env t w).2.1 := by
  cases t with
  | deliver id msg late =>
    change Hub.deliver env (disconnect env) id msg late w = _
    rw [Hub.deliver, taskStep]
    cases w.clients.lookup id with
    | none => rfl
    | some cs =>
      dsimp only
      cases env.outcome w.log id msg <;> rfl
  | broadcastExcept channel except msg =>
    rw [taskStep, List.foldl_map]
    rfl
  | leaveChannelOf id who channel =>
    change Hub.leaveChannelOf env (disconnect env) id who channel w = _
    rw [Hub.leaveChannelOf, taskStep]
    dsimp only
    split <;> rfl
  | evict session m => rfl
  | announceChange session newCoord base m => rfl
  | leaveSession id session =>
    change Hub.leaveSession env (disconnect env) id session w = _
    rw [Hub.leaveSession, taskStep]
    rcases w.sessions.leave session id w.sessionPolicy with ⟨_ | outcome, sessions⟩
    · rfl
    · dsimp only
      rw [List.foldl_append]
      refine congrArg Worker.refreshSessionGauge ?_
      cases outcome.change with
      | closed =>
        change evictAll _ _ _ _ _ = List.foldl _ _ (outcome.remaining.map _)
        rw [evictAll, List.foldl_map]
        rfl
      | reelected newCoord =>
        change announceAll _ _ _ _ _ _ _ _ = List.foldl _ _ (outcome.remaining.flatMap _)
        rw [announceAll, List.foldl_flatMap]
        rfl
      | none =>
        change deliverAll _ _ _ _ _ = List.foldl _ _ (outcome.remaining.map _)
        rw [deliverAll, List.foldl_map, List.foldl_map]
        rfl
  | refreshSessionGauge => rfl
  | leaveSessions id sessions =>
    rw [taskStep, List.foldl_map]
    rfl
  | countClosed => rfl
  | onDisconnect id =>
    change disconnect env id w = _
    rw [disconnect_eq, taskStep]
    cases w.clients.lookup id with
    | none => rfl
    | some cs =>
      dsimp only
      rw [reapClient, List.foldl_append, List.foldl_map]
      rfl

theorem agreeTo_disconnect (env : Env) (k : Nat) : AgreeTo k (disconnect env) (disconnect env) where
  eq _ _ _ := rfl
  card_le id w := (later_onDisconnect env _ id w).card

/-- A step adds no client. -/
theorem card_taskStep_le (env : Env) (t : Task) (w : Worker) : (taskStep env t w).2.1.card ≤ w.card := by
  cases t with
  | deliver id msg late =>
    rw [taskStep]
    cases w.clients.lookup id with
    | none => exact le_rfl
    | some cs =>
      dsimp only
      cases env.outcome w.log id msg <;> exact le_rfl
  | evict session m => exact (card_modifyClient w _ _).le
  | leaveSession id session =>
    rw [taskStep]
    rcases w.sessions.leave session id w.sessionPolicy with ⟨_ | outcome, sessions⟩
    · exact le_rfl
    · exact (card_modifyClient (w.setSessions sessions) _ _).le
  | onDisconnect id =>
    rw [taskStep]
    cases hcs : w.clients.lookup id with
    | none => exact le_rfl
    | some cs =>
      have hcard := card_eraseClient (AList.lookup_isSome.1 (by rw [hcs]; rfl) : id ∈ w.clients)
      dsimp only
      omega
  | broadcastExcept channel except msg => exact le_rfl
  | leaveChannelOf id who channel => exact le_rfl
  | announceChange session newCoord base m => exact le_rfl
  | refreshSessionGauge => exact le_rfl
  | leaveSessions id sessions => exact le_rfl
  | countClosed => exact le_rfl

theorem card_run_le (env : Env) (t : Task) (w : Worker) : (t.run env w).card ≤ w.card := by
  have hagree := agreeTo_disconnect env w.card
  cases t with
  | deliver id msg late => exact card_deliver_le hagree id msg late w
  | broadcastExcept channel except msg =>
    exact broadcastExcept_keeps (deliverKeeps_card hagree.card_le w.card) channel except msg le_rfl
  | leaveChannelOf id who channel => exact card_leaveChannelOf_le hagree id who channel w
  | evict session m => exact (card_deliver_le hagree _ _ _ _).trans (card_modifyClient w _ _).le
  | announceChange session newCoord base m => exact card_deliver_le hagree _ _ _ w
  | leaveSession id session => exact card_leaveSession_le hagree id session w
  | refreshSessionGauge => exact le_rfl
  | leaveSessions id sessions => exact foldl_card_le _ (fun v session => card_leaveSession_le hagree id session v) w
  | countClosed => exact le_rfl
  | onDisconnect id => exact hagree.card_le id w

/-! ## Every call comes to its end -/

/-- The task comes to its end where at most `k` clients are connected. -/
def EndsTo (env : Env) (k : Nat) (t : Task) : Prop :=
  ∀ w : Worker, w.card ≤ k → ∃ es, (callStack env).Does t w es (t.run env w)

/-- A task comes to its end where the calls do that it makes. -/
theorem exists_does {k : Nat} {t : Task} (hcard : (taskStep env t w).2.1.card ≤ k)
    (hcalls : ∀ t' ∈ (taskStep env t w).2.2, EndsTo env k t') : ∃ es, (callStack env).Does t w es (t.run env w) := by
  obtain ⟨es, hes⟩ := TaskStack.exists_doesAll (M := callStack env) (card_run_le env) hcalls hcard
  rw [← run_eq] at hes
  exact ⟨_, TaskStack.does_of_step hes⟩

theorem EndsTo.of_calls {k : Nat} {t : Task} (h : ∀ w, ∀ t' ∈ (taskStep env t w).2.2, EndsTo env k t') : EndsTo env k t :=
  fun w hw => exists_does ((card_taskStep_le env t w).trans hw) (h w)

/-- What does not begin with a disconnection comes to its end where disconnections do. -/
theorem endsTo_of_onDisconnect {k : Nat} (h : ∀ id, EndsTo env k (.onDisconnect id)) (t : Task) : EndsTo env k t := by
  have hdeliver : ∀ id msg late, EndsTo env k (.deliver id msg late) := by
    refine fun id msg late => .of_calls fun w t' ht' => ?_
    rw [taskStep] at ht'
    cases hcs : w.clients.lookup id with
    | none =>
      rw [hcs] at ht'
      cases ht'
    | some cs =>
      rw [hcs] at ht'
      dsimp only at ht'
      split at ht'
      · rw [List.mem_singleton.1 ht']
        exact h id
      · cases ht'
  have hbroadcast : ∀ channel except msg, EndsTo env k (.broadcastExcept channel except msg) := by
    refine fun channel except msg => .of_calls fun w t' ht' => ?_
    obtain ⟨target, -, rfl⟩ := List.mem_map.1 ht'
    exact hdeliver target msg false
  have hevict : ∀ session m, EndsTo env k (.evict session m) := by
    refine fun session m => .of_calls fun w t' ht' => ?_
    rw [List.mem_singleton.1 ht']
    exact hdeliver _ _ _
  have hannounce : ∀ session newCoord base m, EndsTo env k (.announceChange session newCoord base m) := by
    refine fun session newCoord base m => .of_calls fun w t' ht' => ?_
    rw [List.mem_singleton.1 ht']
    exact hdeliver _ _ _
  have hgauge : EndsTo env k .refreshSessionGauge := .of_calls fun w t' ht' => by cases ht'
  have hleave : ∀ id session, EndsTo env k (.leaveSession id session) := by
    refine fun id session => .of_calls fun w t' ht' => ?_
    rw [taskStep] at ht'
    rcases houtcome : w.sessions.leave session id w.sessionPolicy with ⟨_ | outcome, sessions⟩
    all_goals rw [houtcome] at ht'
    · cases ht'
    · dsimp only at ht'
      rcases List.mem_append.1 ht' with ht' | ht'
      · cases hchange : outcome.change with
        | closed =>
          rw [hchange] at ht'
          obtain ⟨m, -, rfl⟩ := List.mem_map.1 ht'
          exact hevict session m
        | reelected newCoord =>
          rw [hchange] at ht'
          obtain ⟨m, -, ht'⟩ := List.mem_flatMap.1 ht'
          rcases List.mem_cons.1 ht' with rfl | ht'
          · exact hdeliver _ _ _
          · rw [List.mem_singleton.1 ht']
            exact hannounce _ _ _ _
        | none =>
          rw [hchange] at ht'
          obtain ⟨m, -, rfl⟩ := List.mem_map.1 ht'
          exact hdeliver _ _ _
      · rw [List.mem_singleton.1 ht']
        exact hgauge
  cases t with
  | deliver id msg late => exact hdeliver id msg late
  | broadcastExcept channel except msg => exact hbroadcast channel except msg
  | leaveChannelOf id who channel =>
    refine .of_calls fun w t' ht' => ?_
    rw [taskStep] at ht'
    dsimp only at ht'
    split at ht'
    · rw [List.mem_singleton.1 ht']
      exact hbroadcast _ _ _
    · cases ht'
  | evict session m => exact hevict session m
  | announceChange session newCoord base m => exact hannounce session newCoord base m
  | leaveSession id session => exact hleave id session
  | refreshSessionGauge => exact hgauge
  | leaveSessions id sessions =>
    refine .of_calls fun w t' ht' => ?_
    obtain ⟨session, -, rfl⟩ := List.mem_map.1 ht'
    exact hleave id session
  | countClosed => exact .of_calls fun w t' ht' => by cases ht'
  | onDisconnect id => exact h id

/-- However many clients are connected, every task comes to its end: a disconnection makes its calls with one client
less. -/
theorem endsTo (env : Env) (k : Nat) (t : Task) : EndsTo env k t := by
  induction k generalizing t with
  | zero =>
    refine endsTo_of_onDisconnect (fun id w hw => exists_does ((card_taskStep_le env _ w).trans hw) fun t' ht' => ?_) t
    rw [taskStep, lookup_of_card_zero (Nat.le_zero.1 hw) id] at ht'
    cases ht'
  | succ k ih =>
    refine endsTo_of_onDisconnect (fun id w hw => ?_) t
    cases hcs : w.clients.lookup id with
    | none =>
      refine exists_does ((card_taskStep_le env _ w).trans hw) fun t' ht' => ?_
      rw [taskStep, hcs] at ht'
      cases ht'
    | some cs =>
      have hcard := card_eraseClient (AList.lookup_isSome.1 (by rw [hcs]; rfl) : id ∈ w.clients)
      refine exists_does (k := k) ?_ fun t' _ => ih t'
      rw [taskStep, hcs]
      dsimp only
      omega

/-! ## What is counted -/

/-- The disconnections on the stack that have yet to be counted. -/
def uncounted (ts : List Task) : Nat :=
  ts.countP fun
    | .countClosed => true
    | _ => false

theorem uncounted_append (ts ts' : List Task) : uncounted (ts ++ ts') = uncounted ts + uncounted ts' :=
  List.countP_append

theorem uncounted_map {α : Type} {f : α → Task} (hf : ∀ a, f a ≠ .countClosed) (l : List α) : uncounted (l.map f) = 0 := by
  refine List.countP_eq_zero.2 fun t ht => ?_
  obtain ⟨a, -, rfl⟩ := List.mem_map.1 ht
  have hne := hf a
  cases hfa : f a <;> simp_all

theorem uncounted_toldTasks (w : Worker) (session : String) (left : ServerMsg) (remaining : List SessionMember)
    (change : CoordinatorChange) : uncounted (toldTasks w session left remaining change) = 0 := by
  cases change with
  | closed => exact uncounted_map (fun m => by simp) remaining
  | reelected newCoord =>
    refine List.countP_eq_zero.2 fun t ht => ?_
    obtain ⟨m, -, ht⟩ := List.mem_flatMap.1 ht
    rcases List.mem_cons.1 ht with rfl | ht
    · simp
    · rw [List.mem_singleton.1 ht]
      simp
  | none => exact uncounted_map (fun m => by simp) remaining

/-- What the steps of some calls do to the clients and to the count of closed connections. -/
structure Counted (w : Worker) (ts : List Task) (removed : List ClientId) (w' : Worker) (ts' : List Task) : Prop where
  nodup : removed.Nodup
  connected : ∀ c ∈ removed, c ∈ w.clients
  remaining : ∀ c, c ∈ w'.clients ↔ c ∈ w.clients ∧ c ∉ removed
  count : w'.stats.connectionsClosed + uncounted ts' = w.stats.connectionsClosed + uncounted ts + removed.length

theorem Counted.refl (w : Worker) (ts : List Task) : Counted w ts [] w ts where
  nodup := List.nodup_nil
  connected _ hc := absurd hc List.not_mem_nil
  remaining c := by simp
  count := rfl

theorem Counted.trans {w' w'' : Worker} {ts ts' ts'' : List Task} {removed removed' : List ClientId}
    (h : Counted w ts removed w' ts') (h' : Counted w' ts' removed' w'' ts'') :
    Counted w ts (removed ++ removed') w'' ts'' where
  nodup := by
    refine List.nodup_append.2 ⟨h.nodup, h'.nodup, fun c hc c' hc' heq => ?_⟩
    exact ((h.remaining c').1 (h'.connected c' hc')).2 (heq ▸ hc)
  connected c hc := by
    rcases List.mem_append.1 hc with hc | hc
    · exact h.connected c hc
    · exact ((h.remaining c).1 (h'.connected c hc)).1
  remaining c := by
    rw [h'.remaining, h.remaining, List.mem_append, not_or, and_assoc]
  count := by
    rw [h'.count, h.count, List.length_append]
    omega

/-- A step that removes nobody and counts nothing. -/
theorem Counted.of_eq {w' : Worker} {t : Task} {calls ts : List Task} (hkeys : ∀ c, c ∈ w'.clients ↔ c ∈ w.clients)
    (hclosed : w'.stats.connectionsClosed = w.stats.connectionsClosed) (ht : uncounted [t] = 0) (hcalls : uncounted calls = 0) :
    Counted w (t :: ts) [] w' (calls ++ ts) where
  nodup := List.nodup_nil
  connected _ hc := absurd hc List.not_mem_nil
  remaining c := by simp [hkeys c]
  count := by
    rw [hclosed, uncounted_append, hcalls, ← List.singleton_append, uncounted_append, ht]
    rfl

theorem mem_modifyClient (w : Worker) (id c : ClientId) (f : ClientState → ClientState) :
    c ∈ (w.modifyClient id f).clients ↔ c ∈ w.clients := by
  rw [← AList.lookup_isSome, ← AList.lookup_isSome, lookup_modifyClient]
  split
  · next heq => rw [heq, Option.isSome_map]
  · rfl

theorem counted_step (env : Env) (t : Task) (w : Worker) (ts : List Task) :
    Counted w (t :: ts) (taskStep env t w).1.toList (taskStep env t w).2.1 ((taskStep env t w).2.2 ++ ts) := by
  cases t with
  | deliver id msg late =>
    rw [taskStep]
    cases w.clients.lookup id with
    | none => exact .of_eq (fun _ => Iff.rfl) rfl rfl rfl
    | some cs =>
      dsimp only
      cases houtcome : env.outcome w.log id msg with
      | sent => exact .of_eq (fun _ => Iff.rfl) rfl rfl rfl
      | dropped => exact .of_eq (fun _ => Iff.rfl) rfl rfl rfl
      | closed => exact .of_eq (fun _ => Iff.rfl) rfl rfl rfl
  | broadcastExcept channel except msg =>
    exact .of_eq (fun _ => Iff.rfl) rfl rfl (uncounted_map (fun target => by simp) _)
  | leaveChannelOf id who channel =>
    rw [taskStep]
    dsimp only
    split
    · exact .of_eq (fun _ => Iff.rfl) rfl rfl rfl
    · exact .of_eq (fun _ => Iff.rfl) rfl rfl rfl
  | evict session m => exact .of_eq (fun c => mem_modifyClient w _ c _) (by simp [taskStep, Worker.dropSession]) rfl rfl
  | announceChange session newCoord base m => exact .of_eq (fun _ => Iff.rfl) rfl rfl rfl
  | leaveSession id session =>
    rw [taskStep]
    rcases w.sessions.leave session id w.sessionPolicy with ⟨_ | outcome, sessions⟩
    · exact .of_eq (fun _ => Iff.rfl) rfl rfl rfl
    · dsimp only
      refine .of_eq (fun c => mem_modifyClient (w.setSessions sessions) _ c _) ?_ rfl ?_
      · simp [Worker.dropSession, Worker.setSessions]
      · rw [uncounted_append, uncounted_toldTasks]
        rfl
  | refreshSessionGauge => exact .of_eq (fun _ => Iff.rfl) rfl rfl rfl
  | leaveSessions id sessions => exact .of_eq (fun _ => Iff.rfl) rfl rfl (uncounted_map (fun session => by simp) _)
  | countClosed =>
    refine ⟨List.nodup_nil, fun c hc => absurd hc List.not_mem_nil, fun c => ?_, ?_⟩
    · simp [taskStep, Worker.countClosed, Worker.refreshChannelGauge]
    · change w.stats.connectionsClosed + 1 + uncounted ts = w.stats.connectionsClosed + uncounted ([.countClosed] ++ ts) + 0
      rw [uncounted_append]
      have hone : uncounted [.countClosed] = 1 := rfl
      omega
  | onDisconnect id =>
    rw [taskStep]
    cases hcs : w.clients.lookup id with
    | none => exact .of_eq (fun _ => Iff.rfl) rfl rfl rfl
    | some cs =>
      dsimp only
      refine ⟨List.nodup_singleton id, fun c hc => ?_, fun c => ?_, ?_⟩
      · rw [List.mem_singleton.1 hc]
        exact AList.lookup_isSome.1 (by rw [hcs]; rfl)
      · simp [Worker.eraseClient, and_comm]
      · have hzero : uncounted ((env.iterNames (w.eraseClient id).log cs.subscriptions).map
            (.leaveChannelOf id cs.principal.id)) = 0 := uncounted_map (fun channel => by simp) _
        have htwo : uncounted [.leaveSessions id cs.sessions, .countClosed] = 1 := rfl
        have hnone : uncounted [.onDisconnect id] = 0 := rfl
        rw [uncounted_append, uncounted_append, hzero, htwo, ← List.singleton_append, uncounted_append, hnone]
        change w.stats.connectionsClosed + _ = w.stats.connectionsClosed + _ + 1
        omega

/-- The clients that the steps remove, in this order. -/
def removedIn (es : List (Option ClientId)) : List ClientId :=
  es.flatMap Option.toList

theorem counted_run {c c' : Worker × List Task} {es : List (Option ClientId)} (r : (callStack env).system.Run c es c') :
    Counted c.1 c.2 (removedIn es) c'.1 c'.2 := by
  induction r with
  | nil c => exact .refl c.1 c.2
  | cons hstep _ ih =>
    obtain ⟨t, ts, hstack, rfl, rfl⟩ := hstep
    rw [removedIn, List.flatMap_cons, hstack]
    exact (counted_step env t _ ts).trans ih

/-! ## Reaping -/

/-- The call comes to its end, with this result, and no run of it goes on for longer. The clients that it removes are
those that are connected before and not after, none is removed twice, and each is counted. -/
structure Reaps (env : Env) (w : Worker) (t : Task) (w' : Worker) : Prop where
  ends : ∃ es, (callStack env).Does t w es w' ∧
    (∀ es' c, (callStack env).system.Run (w, [t]) es' c → es' <+: es) ∧
    (removedIn es).Nodup ∧ (∀ c, c ∈ removedIn es ↔ c ∈ w.clients ∧ c ∉ w'.clients) ∧
    w'.stats.connectionsClosed = w.stats.connectionsClosed + (removedIn es).length

theorem reaps (env : Env) (w : Worker) {t : Task} (ht : uncounted [t] = 0) : Reaps env w t (t.run env w) := by
  obtain ⟨es, hes⟩ := endsTo env w.card t w le_rfl
  have hcounted : Counted w [t] (removedIn es) (t.run env w) [] := counted_run (hes [])
  refine ⟨es, hes, fun es' c r => TaskStack.DoesAll.labels_within hes r, hcounted.nodup, fun c => ?_, ?_⟩
  · rw [hcounted.remaining]
    constructor
    · exact fun hc => ⟨hcounted.connected c hc, fun hrest => hrest.2 hc⟩
    · rintro ⟨hc, hgone⟩
      by_contra hnot
      exact hgone ⟨hc, hnot⟩
  · have hcount := hcounted.count
    rw [ht] at hcount
    exact hcount

/-- Whatever the state of the hub and whichever receivers are closed, a call of each of the four comes to its end, what it
leaves is what the function gives, and every client that it removes is removed once and counted once. -/
theorem reaping_ends (env : Env) (w : Worker) (id except : ClientId) (channel session : String) (msg : ServerMsg) (late : Bool) :
    Reaps env w (.deliver id msg late) (deliver env (disconnect env) id msg late w) ∧
    Reaps env w (.broadcastExcept channel except msg) (broadcastExcept env (disconnect env) channel except msg w) ∧
    Reaps env w (.leaveSession id session) (leaveSession env (disconnect env) id session w) ∧
    Reaps env w (.onDisconnect id) (disconnect env id w) :=
  ⟨reaps env w rfl, reaps env w rfl, reaps env w rfl, reaps env w rfl⟩

end

end Atomo.Hub

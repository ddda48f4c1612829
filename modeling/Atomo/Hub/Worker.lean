import Atomo.Hub.RateLimit
import Atomo.Hub.Sessions
import Atomo.Lib.LabelledSystem

/-!
# The hub

`Worker` of `hub.rs`: the task that owns all realtime state and handles one command at a time.
A delivery that finds its receiver closed disconnects that client on the spot, in the middle of
whatever operation was delivering, so `deliver`, `broadcast_except`, `leave_session` and
`on_disconnect` call each other. The first three take the disconnection as an argument, and
`on_disconnect` is defined by recursion on a bound for the number of connected clients, which every
nested disconnection lowers.

The outside world is `Env`: what each delivery finds the receiver's queue to be, and the order in
which each `HashMap` and `HashSet` is iterated. `log` records every delivery made so far; the code
keeps no such record, and nothing but `Env` looks at it.
-/

namespace Atomo.Hub

structure Principal where
  id : String
  deriving DecidableEq

structure MemberInfo where
  slot : Nat
  id : String
  deriving DecidableEq

/-- `ServerMsg`; a payload is the text of its JSON. -/
inductive ServerMsg where
  | message (channel : String) (sender : Option String) (payload : String)
  | joined (channel who : String)
  | left (channel who : String)
  | presence (channel : String) (members : List String)
  | error (message : String)
  | sessionStart (session : String) (slot : Nat) (coordinator : Bool) (members : List MemberInfo)
  | memberJoined (session : String) (slot : Nat) (id : String)
  | memberLeft (session : String) (slot : Nat) (id : String)
  | coordinatorChanged (session : String) (slot : Nat) (id : String)
  | sessionClosed (session reason : String)
  | fromMember (session sender : String) (slot : Nat) (payload : String)
  | fromCoordinator (session payload : String)
  deriving DecidableEq

/-- `Delivery` of `client.rs`. -/
inductive Delivery where
  | sent
  | dropped
  | closed
  deriving DecidableEq

/-- One `try_deliver`. `late` marks the announcement of a coordinator whose receiver has been found
closed since its election; the code has no such mark. -/
structure Attempt where
  target : ClientId
  msg : ServerMsg
  outcome : Delivery
  late : Bool
  deriving DecidableEq

/-- What the hub meets outside: the state of each receiver's queue at each delivery, and iteration
orders. All may depend on everything delivered before. -/
structure Env where
  outcome : List Attempt → ClientId → ServerMsg → Delivery
  iterClients : List Attempt → List ClientId → List ClientId
  iterNames : List Attempt → List String → List String
  iterClients_perm : ∀ log l, (iterClients log l).Perm l
  iterNames_perm : ∀ log l, (iterNames log l).Perm l

structure ClientState where
  principal : Principal
  subscriptions : List String
  sessions : List String
  joinLimiter : Option RateLimiter

structure Stats where
  messagesPublished : Nat := 0
  messagesDelivered : Nat := 0
  droppedFrames : Nat := 0
  connectionsOpened : Nat := 0
  connectionsClosed : Nat := 0
  activeClients : Nat := 0
  activeChannels : Nat := 0
  activeSessions : Nat := 0

/-- `Worker`, with the log of its deliveries, the newest first. -/
structure Worker where
  clients : AList fun _ : ClientId => ClientState
  presence : Presence
  sessions : Sessions
  sessionPolicy : CoordinatorLeavePolicy
  joinRate : Option RateLimit
  stats : Stats
  log : List Attempt

namespace Worker

/-- `Worker::new`. -/
def new (sessionPolicy : CoordinatorLeavePolicy) (joinRate : Option RateLimit) : Worker where
  clients := ∅
  presence := .empty
  sessions := .empty
  sessionPolicy
  joinRate
  stats := {}
  log := []

/-! ## State updates -/

/-- `clients.get_mut(&id)` followed by a change of the entry. -/
def modifyClient (w : Worker) (id : ClientId) (f : ClientState → ClientState) : Worker :=
  match w.clients.lookup id with
  | some cs => { w with clients := w.clients.insert id (f cs) }
  | none => w

def addSubscription (w : Worker) (id : ClientId) (channel : String) : Worker :=
  w.modifyClient id fun cs => { cs with subscriptions := cs.subscriptions.insert channel }

def dropSubscription (w : Worker) (id : ClientId) (channel : String) : Worker :=
  w.modifyClient id fun cs => { cs with subscriptions := cs.subscriptions.filter (· ≠ channel) }

def addSession (w : Worker) (id : ClientId) (session : String) : Worker :=
  w.modifyClient id fun cs => { cs with sessions := cs.sessions.insert session }

def dropSession (w : Worker) (id : ClientId) (session : String) : Worker :=
  w.modifyClient id fun cs => { cs with sessions := cs.sessions.filter (· ≠ session) }

def eraseClient (w : Worker) (id : ClientId) : Worker :=
  { w with clients := w.clients.erase id }

def setPresence (w : Worker) (presence : Presence) : Worker :=
  { w with presence }

def setSessions (w : Worker) (sessions : Sessions) : Worker :=
  { w with sessions }

/-- The record of a delivery, and its counter. -/
def record (w : Worker) (a : Attempt) : Worker :=
  { w with
    log := a :: w.log
    stats :=
      match a.outcome with
      | .sent => { w.stats with messagesDelivered := w.stats.messagesDelivered + 1 }
      | .dropped => { w.stats with droppedFrames := w.stats.droppedFrames + 1 }
      | .closed => w.stats }

def refreshChannelGauge (w : Worker) : Worker :=
  { w with stats := { w.stats with activeChannels := w.presence.channelCount } }

def refreshSessionGauge (w : Worker) : Worker :=
  { w with stats := { w.stats with activeSessions := w.sessions.count } }

def countPublished (w : Worker) : Worker :=
  { w with stats := { w.stats with messagesPublished := w.stats.messagesPublished + 1 } }

/-- The two counters `on_disconnect` writes at its end. -/
def countClosed (w : Worker) : Worker :=
  { w with
    stats := { w.stats with
      connectionsClosed := w.stats.connectionsClosed + 1
      activeClients := w.clients.entries.length } }

end Worker

/-! ## Delivery and disconnection -/

section Operations

variable (env : Env) (reap : ClientId → Worker → Worker)

/-- `deliver`: a client whose receiver is closed is reaped. -/
def deliver (id : ClientId) (msg : ServerMsg) (late : Bool) (w : Worker) : Worker :=
  match w.clients.lookup id with
  | none => w
  | some _ =>
    let outcome := env.outcome w.log id msg
    let w := w.record ⟨id, msg, outcome, late⟩
    match outcome with
    | .closed => reap id w
    | _ => w

/-- Deliver one frame to each client of a list that was read off before. -/
def deliverAll (msg : ServerMsg) (targets : List ClientId) (w : Worker) : Worker :=
  targets.foldl (fun w target => deliver env reap target msg false w) w

/-- `broadcast_except`. -/
def broadcastExcept (channel : String) (except : ClientId) (msg : ServerMsg) (w : Worker) :
    Worker :=
  deliverAll env reap msg
    ((env.iterClients w.log (w.presence.subscribers channel)).filter (· ≠ except)) w

/-- The loop of `leave_session` under `Closed`: evict each remaining member and tell it why. -/
def evictAll (session : String) (remaining : List SessionMember) (w : Worker) : Worker :=
  remaining.foldl
    (fun w m =>
      deliver env reap m.clientId (.sessionClosed session "coordinator_left") false
        (w.dropSession m.clientId session)) w

/-- Since `base` deliveries had been made, one has found the receiver of `client` closed. -/
def foundClosed (base : Nat) (client : ClientId) (log : List Attempt) : Bool :=
  (log.take (log.length - base)).any fun a => a.target = client ∧ a.outcome = .closed

/-- The loop of `leave_session` under `Reelected`: to each remaining member, that one left and who
is coordinator now. `base` counts the deliveries made before the loop. -/
def announceAll (session : String) (left : ServerMsg) (newCoord : SessionMember) (base : Nat)
    (remaining : List SessionMember) (w : Worker) : Worker :=
  remaining.foldl
    (fun w m =>
      let w := deliver env reap m.clientId left false w
      deliver env reap m.clientId
        (.coordinatorChanged session newCoord.slot newCoord.principalId)
        (foundClosed base newCoord.clientId w.log) w) w

/-- `leave_session`. -/
def leaveSession (id : ClientId) (session : String) (w : Worker) : Worker :=
  match w.sessions.leave session id w.sessionPolicy with
  | (none, _) => w
  | (some outcome, sessions) =>
    let w := (w.setSessions sessions).dropSession id session
    let left := ServerMsg.memberLeft session outcome.member.slot outcome.member.principalId
    let w :=
      match outcome.change with
      | .closed => evictAll env reap session outcome.remaining w
      | .reelected newCoord =>
        announceAll env reap session left newCoord w.log.length outcome.remaining w
      | .none => deliverAll env reap left (outcome.remaining.map SessionMember.clientId) w
    w.refreshSessionGauge

/-- The part of `on_disconnect` that leaves one channel. -/
def leaveChannelOf (id : ClientId) (who channel : String) (w : Worker) : Worker :=
  let (removed, presence) := w.presence.leave channel id
  let w := w.setPresence presence
  if removed then broadcastExcept env reap channel id (.left channel who) w else w

/-- `on_disconnect` of a connected client. -/
def reapClient (id : ClientId) (cs : ClientState) (w : Worker) : Worker :=
  let w := w.eraseClient id
  let w := (env.iterNames w.log cs.subscriptions).foldl
    (fun w channel => leaveChannelOf env reap id cs.principal.id channel w) w
  let w := (env.iterNames w.log cs.sessions).foldl
    (fun w session => leaveSession env reap id session w) w
  w.countClosed.refreshChannelGauge

end Operations

/-- `on_disconnect`, nested at most `fuel` deep. -/
def onDisconnect (env : Env) : Nat → ClientId → Worker → Worker
  | 0, _, w => w
  | fuel + 1, id, w =>
    match w.clients.lookup id with
    | none => w
    | some cs => reapClient env (onDisconnect env fuel) id cs w

/-- `on_disconnect`: the nesting cannot be deeper than there are clients. -/
def disconnect (env : Env) (id : ClientId) (w : Worker) : Worker :=
  onDisconnect env w.clients.entries.length id w

/-! ## Commands -/

/-- `Command`; an arrival at the join throttle carries its instant. -/
inductive Command where
  | connect (id : ClientId) (principal : Principal) (now : Nat)
  | subscribe (id : ClientId) (channel : String) (now : Nat)
  | unsubscribe (id : ClientId) (channel : String)
  | publish (id : ClientId) (channel payload : String)
  | presence (id : ClientId) (channel : String)
  | sessionJoin (id : ClientId) (session : String) (now : Nat)
  | sessionLeave (id : ClientId) (session : String)
  | toCoordinator (id : ClientId) (session payload : String)
  | toMembers (id : ClientId) (session payload : String)
  | disconnect (id : ClientId)
  deriving DecidableEq

section Commands

variable (env : Env)

/-- `on_connect`. -/
def onConnect (id : ClientId) (principal : Principal) (now : Nat) (w : Worker) : Worker :=
  let cs : ClientState :=
    { principal
      subscriptions := []
      sessions := []
      joinLimiter := w.joinRate.map fun limit => .new limit now }
  let w := { w with clients := w.clients.insert id cs }
  { w with
    stats := { w.stats with
      connectionsOpened := w.stats.connectionsOpened + 1
      activeClients := w.clients.entries.length } }

/-- `allow_join`: charge one token; a refusal is told to the client. -/
def allowJoin (id : ClientId) (now : Nat) (w : Worker) : Bool × Worker :=
  match w.clients.lookup id with
  | none => (false, w)
  | some cs =>
    match cs.joinLimiter with
    | none => (true, w)
    | some limiter =>
      let (allowed, limiter) := limiter.tryAcquire now
      let w := w.modifyClient id fun cs => { cs with joinLimiter := some limiter }
      if allowed then
        (true, w)
      else
        (false, deliver env (disconnect env) id (.error "join rate limit exceeded") false w)

/-- `on_subscribe`. -/
def onSubscribe (id : ClientId) (channel : String) (now : Nat) (w : Worker) : Worker :=
  let (allowed, w) := allowJoin env id now w
  if !allowed then
    w
  else
    match w.clients.lookup id with
    | none => w
    | some cs =>
      let principalId := cs.principal.id
      let (newly, presence) := w.presence.join channel id principalId
      let w := (w.setPresence presence).addSubscription id channel
      let w := deliver env (disconnect env) id (.presence channel (w.presence.snapshot channel))
        false w
      let w :=
        if newly then broadcastExcept env (disconnect env) channel id (.joined channel principalId) w
        else w
      w.refreshChannelGauge

/-- `leave_channel`. -/
def leaveChannel (id : ClientId) (channel : String) (w : Worker) : Worker :=
  let principalId := (w.clients.lookup id).map (·.principal.id)
  let (removed, presence) := w.presence.leave channel id
  let w := w.setPresence presence
  match removed, principalId with
  | true, some who => broadcastExcept env (disconnect env) channel id (.left channel who) w
  | _, _ => w

/-- `on_unsubscribe`. -/
def onUnsubscribe (id : ClientId) (channel : String) (w : Worker) : Worker :=
  (leaveChannel env id channel (w.dropSubscription id channel)).refreshChannelGauge

/-- `on_publish`: no self-echo. -/
def onPublish (id : ClientId) (channel payload : String) (w : Worker) : Worker :=
  let w := w.countPublished
  let sender := (w.clients.lookup id).map (·.principal.id)
  deliverAll env (disconnect env) (.message channel sender payload)
    ((env.iterClients w.log (w.presence.subscribers channel)).filter (· ≠ id)) w

/-- `on_presence`. -/
def onPresence (id : ClientId) (channel : String) (w : Worker) : Worker :=
  deliver env (disconnect env) id (.presence channel (w.presence.snapshot channel)) false w

/-- `on_session_join`. -/
def onSessionJoin (id : ClientId) (session : String) (now : Nat) (w : Worker) : Worker :=
  let (allowed, w) := allowJoin env id now w
  if !allowed then
    w
  else
    match w.clients.lookup id with
    | none => w
    | some cs =>
      let principalId := cs.principal.id
      let (outcome, sessions) := w.sessions.join session id principalId
      let w := (w.setSessions sessions).addSession id session
      let members := outcome.roster.map fun m => ⟨m.slot, m.principalId⟩
      let w := deliver env (disconnect env) id
        (.sessionStart session outcome.slot outcome.isCoordinator members) false w
      let others := (outcome.roster.map (·.clientId)).filter (· ≠ id)
      let w := deliverAll env (disconnect env) (.memberJoined session outcome.slot principalId)
        others w
      w.refreshSessionGauge

/-- `on_to_coordinator`. -/
def onToCoordinator (id : ClientId) (session payload : String) (w : Worker) : Worker :=
  match w.sessions.member session id, w.sessions.coordinator session with
  | some sender, some coordinator =>
    deliver env (disconnect env) coordinator
      (.fromMember session sender.principalId sender.slot payload) false w.countPublished
  | _, _ => w

/-- `on_to_members`: rejected unless the sender is the coordinator. -/
def onToMembers (id : ClientId) (session payload : String) (w : Worker) : Worker :=
  if !w.sessions.isCoordinator session id then
    deliver env (disconnect env) id
      (.error ("not the coordinator of session '" ++ session ++ "'")) false w
  else
    let w := w.countPublished
    let targets := ((w.sessions.roster session).filter (·.clientId ≠ id)).map (·.clientId)
    deliverAll env (disconnect env) (.fromCoordinator session payload) targets w

/-- One turn of `run`. -/
def handle (w : Worker) : Command → Worker
  | .connect id principal now => onConnect id principal now w
  | .subscribe id channel now => onSubscribe env id channel now w
  | .unsubscribe id channel => onUnsubscribe env id channel w
  | .publish id channel payload => onPublish env id channel payload w
  | .presence id channel => onPresence env id channel w
  | .sessionJoin id session now => onSessionJoin env id session now w
  | .sessionLeave id session => leaveSession env (disconnect env) id session w
  | .toCoordinator id session payload => onToCoordinator env id session payload w
  | .toMembers id session payload => onToMembers env id session payload w
  | .disconnect id => disconnect env id w

/-- The hub hands out a new id for each connection. -/
def Command.Fresh (w : Worker) : Command → Prop
  | .connect id _ _ => id ∉ w.clients
  | _ => True

/-- One turn of the hub, as seen from outside: the command, and the deliveries made for it, the
newest first. -/
structure Turn where
  command : Command
  attempts : List Attempt

/-- The hub, from its start on. -/
def system (policy : CoordinatorLeavePolicy) (rate : Option RateLimit) :
    LabelledSystem Worker Turn where
  init w := w = .new policy rate
  step w turn w' :=
    turn.command.Fresh w ∧ w' = handle env w turn.command ∧ w'.log = turn.attempts ++ w.log

end Commands

end Atomo.Hub

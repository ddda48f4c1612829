import Atomo.Data.Json
import Atomo.Lib.LabelledSystem
import Mathlib.Logic.Function.Basic

/-!
# The realtime client

`RealtimeClient` of `realtime.ts`: one socket is held in `ws`, frames that cannot be sent wait in the outbox until a
socket opens, and a socket that opens is subscribed to every channel that has handlers. `onclose` lets go of whatever
socket is held, also when the event is that of an older one: a new socket is then orphaned, and the next `connect`
opens another beside it. While no such event comes, the client keeps one socket in step with
its handlers (`one_socket_in_step`). What is published is relayed in order in every run (`relayed_inductive`).
-/

namespace Atomo.Sdk

/-! ## The code -/

/-- The frames of the client; what goes over the socket is their JSON. -/
inductive Frame where
  | subscribe (channel : String)
  | unsubscribe (channel : String)
  | publish (channel : String) (payload : Json)
  | presence (channel : String)
  deriving DecidableEq

/-- `ServerFrame`. -/
inductive ServerFrame where
  | message (channel : String) (sender : Option String) (payload : Json)
  | joined (channel who : String)
  | left (channel who : String)
  | presence (channel : String) (members : List String)
  | error (message : String)

/-- `WebSocket.readyState`. -/
inductive ReadyState where
  | connecting
  | opened
  | closing
  | closed
  deriving DecidableEq

/-- `readyState <= OPEN`. -/
def ReadyState.live : ReadyState → Bool
  | .connecting | .opened => true
  | .closing | .closed => false

/-- `RealtimeClient`, with the states of all the sockets it has made, in order, and the delays of the timers that are
set. A set of handlers is the list of their names. `sent` lists what has been sent on each socket and `published` what
`publish` has been called with, the oldest first; the code keeps neither. -/
structure RealtimeClient where
  reconnect : Bool
  reconnectBaseMs : Nat
  ws : Option Nat
  closedByUser : Bool
  reconnectAttempts : Nat
  outbox : List Frame
  handlers : List (String × List Nat)
  members : String → Option (List String)
  sockets : List ReadyState
  timers : List Nat
  sent : List (Nat × Frame)
  published : List Frame

namespace RealtimeClient

/-- The constructor, with `config.reconnect` and `config.reconnectBaseMs`. -/
def create (reconnect : Option Bool) (reconnectBaseMs : Option Nat) : RealtimeClient where
  reconnect := reconnect.getD true
  reconnectBaseMs := reconnectBaseMs.getD 500
  ws := none
  closedByUser := false
  reconnectAttempts := 0
  outbox := []
  handlers := []
  members _ := none
  sockets := []
  timers := []
  sent := []
  published := []

/-- The channels that have handlers. -/
def channels (s : RealtimeClient) : List String :=
  s.handlers.map Prod.fst

/-- The socket that is held, if it is open. -/
def openSocket (s : RealtimeClient) : Option Nat :=
  s.ws.filter fun i => s.sockets[i]? = some .opened

/-- `isOpen`. -/
def isOpen (s : RealtimeClient) : Bool :=
  s.openSocket.isSome

/-- `raw`. -/
def raw (s : RealtimeClient) (frame : Frame) : RealtimeClient :=
  match s.openSocket with
  | some i => { s with sent := s.sent ++ [(i, frame)] }
  | none => { s with outbox := s.outbox ++ [frame] }

/-- `connect`, up to the events of the socket. -/
def connect (s : RealtimeClient) : RealtimeClient :=
  if s.ws.any fun i => s.sockets[i]?.any ReadyState.live then s
  else
    { s with
      closedByUser := false
      ws := some s.sockets.length
      sockets := s.sockets ++ [.connecting] }

/-- `onopen` of socket `i`. -/
def onopen (s : RealtimeClient) (i : Nat) : RealtimeClient :=
  let s := { s with sockets := s.sockets.set i .opened, reconnectAttempts := 0 }
  let s := s.channels.foldl (fun s channel => s.raw (.subscribe channel)) s
  { s with sent := s.sent ++ s.outbox.map fun frame => (i, frame), outbox := [] }

/-- `onclose` of socket `i`. -/
def onclose (s : RealtimeClient) (i : Nat) : RealtimeClient :=
  let s := { s with sockets := s.sockets.set i .closed, ws := none }
  if s.closedByUser || !s.reconnect then s
  else
    { s with
      reconnectAttempts := s.reconnectAttempts + 1
      timers := s.timers ++ [min (s.reconnectBaseMs * 2 ^ s.reconnectAttempts) 10000] }

/-- `handlers.get(channel)`. -/
def handlersOf (s : RealtimeClient) (channel : String) : Option (List Nat) :=
  (s.handlers.find? (·.1 = channel)).map Prod.snd

/-- The entry of a channel becomes `set`. -/
def setHandlers (s : RealtimeClient) (channel : String) (set : List Nat) : RealtimeClient :=
  { s with handlers := s.handlers.map fun entry => if entry.1 = channel then (channel, set) else entry }

/-- The first part of `subscribe`. -/
def addHandler (s : RealtimeClient) (channel : String) (handler : Nat) : RealtimeClient :=
  match s.handlersOf channel with
  | none => { s with handlers := s.handlers ++ [(channel, [handler])] }
  | some set => s.setHandlers channel (if handler ∈ set then set else set ++ [handler])

/-- `subscribe`. -/
def subscribe (s : RealtimeClient) (channel : String) (handler : Nat) : RealtimeClient :=
  let firstForChannel := (s.handlersOf channel).isNone
  let s := (s.addHandler channel handler).connect
  if firstForChannel && s.isOpen then s.raw (.subscribe channel) else s

/-- The function that `subscribe` returns. -/
def unsubscribe (s : RealtimeClient) (channel : String) (handler : Nat) : RealtimeClient :=
  match s.handlersOf channel with
  | none => s
  | some set =>
    let set := set.filter (· ≠ handler)
    if set = [] then
      let s := { s with
        handlers := s.handlers.filter (·.1 ≠ channel)
        members := Function.update s.members channel none }
      if s.isOpen then s.raw (.unsubscribe channel) else s
    else s.setHandlers channel set

/-- `publish`. -/
def publish (s : RealtimeClient) (channel : String) (payload : Json) : RealtimeClient :=
  let frame := Frame.publish channel payload
  { s with published := s.published ++ [frame] }.connect.raw frame

/-- `requestPresence`. -/
def requestPresence (s : RealtimeClient) (channel : String) : RealtimeClient :=
  s.connect.raw (.presence channel)

/-- `close`: of a socket that is closing or closed it changes nothing. -/
def close (s : RealtimeClient) : RealtimeClient :=
  let sockets :=
    match s.ws with
    | some i => s.sockets.modify i fun state => if state.live then .closing else state
    | none => s.sockets
  { s with closedByUser := true, sockets, ws := none }

/-- `membersOf`. -/
def membersOf (s : RealtimeClient) (channel : String) : List String :=
  (s.members channel).getD []

/-- `dispatch`, but for the handlers that it calls. -/
def dispatch (s : RealtimeClient) : ServerFrame → RealtimeClient
  | .message _ _ _ | .error _ => s
  | .joined channel who =>
    let set := s.membersOf channel
    { s with members := Function.update s.members channel (some (if who ∈ set then set else set ++ [who])) }
  | .left channel who =>
    { s with members := Function.update s.members channel (some ((s.membersOf channel).filter (· ≠ who))) }
  | .presence channel members => { s with members := Function.update s.members channel (some members.eraseDups) }

/-! ## Runs -/

/-- What happens: the calls, the events of each socket made so far, and a timer that fires. A socket is `closing` once
its peer has begun to close it; its event comes later. -/
inductive Act where
  | connect
  | subscribe (channel : String) (handler : Nat)
  | unsubscribe (channel : String) (handler : Nat)
  | publish (channel : String) (payload : Json)
  | requestPresence (channel : String)
  | close
  | opens (socket : Nat)
  | receives (socket : Nat) (frame : ServerFrame)
  | closing (socket : Nat)
  | closes (socket : Nat)
  | timer (delay : Nat)

/-- What the events need. -/
def Enabled (s : RealtimeClient) : Act → Prop
  | .opens i => s.sockets[i]? = some .connecting
  | .receives i _ => s.sockets[i]? = some .opened
  | .closing i => s.sockets[i]? = some .opened
  | .closes i => ∃ state, s.sockets[i]? = some state ∧ state ≠ .closed
  | .timer delay => delay ∈ s.timers
  | _ => True

def next (s : RealtimeClient) : Act → RealtimeClient
  | .connect => s.connect
  | .subscribe channel handler => s.subscribe channel handler
  | .unsubscribe channel handler => s.unsubscribe channel handler
  | .publish channel payload => s.publish channel payload
  | .requestPresence channel => s.requestPresence channel
  | .close => s.close
  | .opens i => s.onopen i
  | .receives _ frame => s.dispatch frame
  | .closing i => { s with sockets := s.sockets.set i .closing }
  | .closes i => s.onclose i
  | .timer delay => { s with timers := s.timers.erase delay }.connect

/-- A client from its construction on. -/
def system : LabelledSystem RealtimeClient Act where
  init s := ∃ reconnect reconnectBaseMs, s = create reconnect reconnectBaseMs
  step s a s' := s.Enabled a ∧ s' = s.next a

end RealtimeClient

/-! ## What is claimed of it -/

def Frame.isPublish : Frame → Bool
  | .publish _ _ => true
  | _ => false

/-- The channels that these frames leave subscribed. -/
def subscribedBy (frames : List Frame) : List String :=
  frames.foldl
    (fun channels frame =>
      match frame with
      | .subscribe channel => channels ++ [channel]
      | .unsubscribe channel => channels.filter (· ≠ channel)
      | _ => channels) []

namespace RealtimeClient

def Live (s : RealtimeClient) (i : Nat) : Prop :=
  ∃ state, s.sockets[i]? = some state ∧ state.live = true

/-- The frames sent on a socket. -/
def framesOn (s : RealtimeClient) (i : Nat) : List Frame :=
  (s.sent.filter (·.1 = i)).map Prod.snd

/-- At most one socket is connecting or open. -/
def OneSocket (s : RealtimeClient) : Prop :=
  ∀ i j, s.Live i → s.Live j → i = j

/-- On an open socket the channels with handlers are subscribed, and no others. -/
def InStep (s : RealtimeClient) : Prop :=
  ∀ i, s.sockets[i]? = some .opened → ∀ channel, channel ∈ subscribedBy (s.framesOn i) ↔ channel ∈ s.channels

/-- The frames of `publish` that have been sent, on whatever socket, in order. -/
def relayed (s : RealtimeClient) : List Frame :=
  (s.sent.map Prod.snd).filter Frame.isPublish

/-- No close event comes while another socket is held that is connecting or open. -/
def NotLate (s : RealtimeClient) : Act → Prop
  | .closes i => ∀ j, s.ws = some j → j ≠ i → ¬ s.Live j
  | _ => True

/-! ## Frames -/

section

variable {s s' : RealtimeClient} {i j : Nat} {frame : Frame} {channel : String} {wanted : String → Prop}

theorem subscribedBy_append (frames : List Frame) (frame : Frame) :
    subscribedBy (frames ++ [frame]) =
      match frame with
      | .subscribe channel => subscribedBy frames ++ [channel]
      | .unsubscribe channel => (subscribedBy frames).filter (· ≠ channel)
      | _ => subscribedBy frames := by
  unfold subscribedBy
  rw [List.foldl_append]
  rfl

/-- Frames that change no subscription. -/
def Passing (frame : Frame) : Prop :=
  ∀ frames, subscribedBy (frames ++ [frame]) = subscribedBy frames

theorem passing_publish (channel : String) (payload : Json) : Passing (.publish channel payload) :=
  fun frames => subscribedBy_append frames _

theorem passing_presence (channel : String) : Passing (.presence channel) :=
  fun frames => subscribedBy_append frames _

theorem subscribedBy_passing (frames : List Frame) {rest : List Frame} (h : ∀ frame ∈ rest, Passing frame) :
    subscribedBy (frames ++ rest) = subscribedBy frames := by
  induction rest generalizing frames with
  | nil => rw [List.append_nil]
  | cons frame rest ih =>
    rw [← List.singleton_append, ← List.append_assoc, ih _ fun f hf => h f (List.mem_cons_of_mem _ hf)]
    exact h frame (List.mem_cons_self ..) frames

theorem subscribedBy_subscribes (frames : List Frame) (channels : List String) :
    subscribedBy (frames ++ channels.map Frame.subscribe) = subscribedBy frames ++ channels := by
  induction channels generalizing frames with
  | nil => simp
  | cons channel channels ih =>
    rw [List.map_cons, ← List.singleton_append, ← List.append_assoc, ih, subscribedBy_append, List.append_assoc]
    rfl

theorem framesOn_append (frames : List Frame) :
    framesOn { s with sent := s.sent ++ frames.map (Prod.mk i) } j =
      if i = j then s.framesOn j ++ frames else s.framesOn j := by
  unfold framesOn
  rw [List.filter_append, List.map_append, List.filter_map]
  by_cases hij : i = j <;> simp [hij, Function.comp_def]

theorem openSocket_eq_some : s.openSocket = some i ↔ s.ws = some i ∧ s.sockets[i]? = some .opened := by
  unfold openSocket
  rw [Option.filter_eq_some_iff]
  simp

/-! ## The invariant -/

/-- Every live socket is the one that is held, a connecting socket has been sent nothing, an open one is subscribed to
what is `wanted`, and only frames that change no subscription wait in the outbox. -/
structure Tidy (s : RealtimeClient) (wanted : String → Prop) : Prop where
  held : ∀ i, s.Live i → s.ws = some i
  logged : ∀ entry ∈ s.sent, entry.1 < s.sockets.length
  unsent : ∀ i, s.sockets[i]? = some .connecting → s.framesOn i = []
  inStep : ∀ i, s.sockets[i]? = some .opened → ∀ channel, channel ∈ subscribedBy (s.framesOn i) ↔ wanted channel
  outbox : ∀ frame ∈ s.outbox, Passing frame

theorem live_opened (h : s.sockets[i]? = some .opened) : s.Live i :=
  ⟨_, h, rfl⟩

theorem live_connecting (h : s.sockets[i]? = some .connecting) : s.Live i :=
  ⟨_, h, rfl⟩

theorem Tidy.isOpen_iff (h : s.Tidy wanted) : s.isOpen = true ↔ ∃ i : Nat, s.sockets[i]? = some ReadyState.opened := by
  unfold isOpen
  rw [Option.isSome_iff_exists]
  constructor
  · rintro ⟨i, hi⟩
    exact ⟨i, (openSocket_eq_some.1 hi).2⟩
  · rintro ⟨i, hi⟩
    exact ⟨i, openSocket_eq_some.2 ⟨h.held i (live_opened hi), hi⟩⟩

/-- While no socket is open, whatever may be wanted. -/
theorem Tidy.of_not_open (h : s.Tidy wanted) (hopen : s.isOpen = false) (wanted' : String → Prop) : s.Tidy wanted' where
  held := h.held
  logged := h.logged
  unsent := h.unsent
  inStep i hi := by
    rw [h.isOpen_iff.2 ⟨i, hi⟩] at hopen
    cases hopen
  outbox := h.outbox

theorem Tidy.congr (h : s.Tidy wanted) {wanted' : String → Prop}
    (hwanted : ∀ channel, wanted channel ↔ wanted' channel) : s.Tidy wanted' :=
  ⟨h.held, h.logged, h.unsent, fun i hi channel => (h.inStep i hi channel).trans (hwanted channel), h.outbox⟩

theorem Tidy.same (h : s.Tidy wanted) (hws : s'.ws = s.ws) (hsockets : s'.sockets = s.sockets)
    (hsent : s'.sent = s.sent) (houtbox : s'.outbox = s.outbox) : s'.Tidy wanted := by
  obtain ⟨held, logged, unsent, inStep, outbox⟩ := h
  unfold Live framesOn at *
  constructor <;> simpa only [Live, framesOn, hws, hsockets, hsent, houtbox]

/-- Frames are sent on the open socket, and change what is wanted as they change what is subscribed. -/
theorem Tidy.send (h : s.Tidy wanted) (hopen : s.openSocket = some i) (frames : List Frame) (wanted' : String → Prop)
    (hwanted : ∀ before, (∀ channel, channel ∈ subscribedBy before ↔ wanted channel) →
      ∀ channel, channel ∈ subscribedBy (before ++ frames) ↔ wanted' channel) :
    Tidy { s with sent := s.sent ++ frames.map (Prod.mk i) } wanted' where
  held := h.held
  logged entry hentry := by
    rcases List.mem_append.1 hentry with hentry | hentry
    · exact h.logged entry hentry
    · obtain ⟨_, _, rfl⟩ := List.mem_map.1 hentry
      exact (List.getElem?_eq_some_iff.1 (openSocket_eq_some.1 hopen).2).1
  unsent j hj := by
    have hne : i ≠ j := by
      rintro rfl
      rw [(openSocket_eq_some.1 hopen).2] at hj
      cases hj
    rw [framesOn_append, if_neg hne]
    exact h.unsent j hj
  inStep j hj := by
    have hij : i = j := by
      have hheld := h.held j (live_opened hj)
      rw [(openSocket_eq_some.1 hopen).1] at hheld
      exact Option.some.inj hheld
    rw [framesOn_append, if_pos hij]
    exact hwanted _ (h.inStep j hj)
  outbox := h.outbox

theorem Tidy.raw (h : s.Tidy wanted) (hframe : Passing frame) : (s.raw frame).Tidy wanted := by
  unfold RealtimeClient.raw
  split
  · next i hi => exact h.send hi [frame] _ fun before hbefore channel => by rw [hframe before]; exact hbefore channel
  · refine ⟨h.held, h.logged, h.unsent, h.inStep, fun f hf => ?_⟩
    rcases List.mem_append.1 hf with hf | hf
    · exact h.outbox f hf
    · exact List.mem_singleton.1 hf ▸ hframe

theorem Tidy.raw_subscribe (h : s.Tidy wanted) (hopen : s.isOpen = true) :
    (s.raw (.subscribe channel)).Tidy fun c => wanted c ∨ c = channel := by
  obtain ⟨i, hi⟩ := Option.isSome_iff_exists.1 hopen
  unfold RealtimeClient.raw
  rw [hi]
  refine h.send hi [.subscribe channel] _ fun before hbefore c => ?_
  rw [subscribedBy_append, List.mem_append, List.mem_singleton, hbefore c]

theorem Tidy.raw_unsubscribe (h : s.Tidy wanted) (hopen : s.isOpen = true) :
    (s.raw (.unsubscribe channel)).Tidy fun c => wanted c ∧ c ≠ channel := by
  obtain ⟨i, hi⟩ := Option.isSome_iff_exists.1 hopen
  unfold RealtimeClient.raw
  rw [hi]
  refine h.send hi [.unsubscribe channel] _ fun before hbefore c => ?_
  rw [subscribedBy_append, List.mem_filter, hbefore c]
  simp

/-! ## One step -/

theorem Tidy.create (reconnect : Option Bool) (reconnectBaseMs : Option Nat) :
    (create reconnect reconnectBaseMs).Tidy wanted where
  held := by
    rintro i ⟨state, hstate, -⟩
    cases hstate
  logged _ hentry := by cases hentry
  unsent _ hi := by cases hi
  inStep _ hi := by cases hi
  outbox _ hframe := by cases hframe

theorem holds_live_iff :
    (s.ws.any fun i => s.sockets[i]?.any ReadyState.live) = true ↔ ∃ i, s.ws = some i ∧ s.Live i := by
  unfold Live
  cases s.ws with
  | none => simp
  | some i => cases h : s.sockets[i]? <;> simp [h]

/-- No new socket is made while one is live: it would be held. -/
theorem Tidy.connect (h : s.Tidy wanted) : s.connect.Tidy wanted := by
  unfold RealtimeClient.connect
  split
  · exact h
  next hnone =>
  have hdead : ∀ i, ¬ s.Live i := fun i hi => hnone (holds_live_iff.2 ⟨i, h.held i hi, hi⟩)
  have hnew : ∀ i state, (s.sockets ++ [ReadyState.connecting])[i]? = some state → state.live = true →
      i = s.sockets.length ∧ state = .connecting := by
    intro i state hstate hlive
    rcases Nat.lt_trichotomy i s.sockets.length with hlt | rfl | hgt
    · rw [List.getElem?_append_left hlt] at hstate
      exact absurd ⟨state, hstate, hlive⟩ (hdead i)
    · simp at hstate
      exact ⟨rfl, hstate.symm⟩
    · rw [List.getElem?_eq_none (by simp; omega)] at hstate
      cases hstate
  constructor
  · rintro i ⟨state, hstate, hlive⟩
    rw [(hnew i state hstate hlive).1]
  · intro entry hentry
    have := h.logged entry hentry
    simp
    omega
  · intro i hi
    have hlast := (hnew i _ hi rfl).1
    unfold framesOn
    rw [List.map_eq_nil_iff, List.filter_eq_nil_iff]
    intro entry hentry
    have := h.logged entry hentry
    simp
    omega
  · intro i hi
    cases (hnew i _ hi rfl).2
  · exact h.outbox

/-- Sockets cease to be live. -/
theorem Tidy.ceased (h : s.Tidy wanted) (hlength : s'.sockets.length = s.sockets.length)
    (hlive : ∀ (i : Nat) (state : ReadyState), s'.sockets[i]? = some state → state.live = true →
      s.sockets[i]? = some state)
    (hheld : ∀ i, s'.Live i → s'.ws = some i) (hsent : s'.sent = s.sent) (houtbox : s'.outbox = s.outbox) :
    s'.Tidy wanted := by
  have hframes : ∀ i, s'.framesOn i = s.framesOn i := fun i => by unfold framesOn; rw [hsent]
  constructor
  · exact hheld
  · rw [hsent, hlength]
    exact h.logged
  · intro i hi
    rw [hframes]
    exact h.unsent i (hlive i _ hi rfl)
  · intro i hi
    rw [hframes]
    exact h.inStep i (hlive i _ hi rfl)
  · rw [houtbox]
    exact h.outbox

theorem getElem?_set_dead {state state' : ReadyState} (hstate : state.live = false)
    (h : (s.sockets.set i state)[j]? = some state') (hlive : state'.live = true) :
    j ≠ i ∧ s.sockets[j]? = some state' := by
  rw [List.getElem?_set] at h
  split at h
  · split at h
    · cases h
      rw [hstate] at hlive
      cases hlive
    · cases h
  · next hne => exact ⟨fun hji => hne hji.symm, h⟩

theorem getElem?_modify_closing {state : ReadyState}
    (h : (s.sockets.modify i fun state => if state.live then .closing else state)[j]? = some state)
    (hlive : state.live = true) : j ≠ i ∧ s.sockets[j]? = some state := by
  have hdead : ∀ old : ReadyState, (if old.live then ReadyState.closing else old).live = false := by
    intro old
    cases old <;> rfl
  rw [List.getElem?_modify] at h
  obtain ⟨old, hold, rfl⟩ := Option.map_eq_some_iff.1 h
  by_cases hij : i = j
  · rw [if_pos hij, hdead] at hlive
    cases hlive
  · rw [if_neg hij]
    exact ⟨fun hji => hij hji.symm, hold⟩

theorem Tidy.closing (h : s.Tidy wanted) : Tidy { s with sockets := s.sockets.set i .closing } wanted := by
  refine h.ceased (List.length_set ..) (fun j state hj hlive => (getElem?_set_dead rfl hj hlive).2) ?_ rfl rfl
  rintro j ⟨state, hj, hlive⟩
  exact h.held j ⟨state, (getElem?_set_dead rfl hj hlive).2, hlive⟩

/-- The held socket is closed, so that none is live. -/
theorem Tidy.close (h : s.Tidy wanted) : s.close.Tidy wanted := by
  unfold RealtimeClient.close
  cases hws : s.ws with
  | none =>
    refine h.ceased rfl (fun _ _ hj _ => hj) (fun j hj => ?_) rfl rfl
    have := h.held j hj
    rw [hws] at this
    cases this
  | some i =>
    refine h.ceased (List.length_modify ..) (fun j state hj hlive => (getElem?_modify_closing hj hlive).2) ?_ rfl rfl
    rintro j ⟨state, hj, hlive⟩
    obtain ⟨hne, hj⟩ := getElem?_modify_closing hj hlive
    have := h.held j ⟨state, hj, hlive⟩
    rw [hws] at this
    exact absurd (Option.some.inj this).symm hne

/-- The event of a socket other than the held one may come, once the held one is not live. -/
theorem Tidy.onclose (h : s.Tidy wanted) (hlate : s.NotLate (.closes i)) : (s.onclose i).Tidy wanted := by
  suffices hclosed : Tidy { s with sockets := s.sockets.set i .closed, ws := none } wanted by
    unfold RealtimeClient.onclose
    dsimp only
    split
    · exact hclosed
    · exact hclosed.same rfl rfl rfl rfl
  refine h.ceased (List.length_set ..) (fun j state hj hlive => (getElem?_set_dead rfl hj hlive).2) ?_ rfl rfl
  rintro j ⟨state, hj, hlive⟩
  obtain ⟨hne, hj⟩ := getElem?_set_dead rfl hj hlive
  exact absurd ⟨state, hj, hlive⟩ (hlate j (h.held j ⟨state, hj, hlive⟩) hne)

theorem foldl_raw (hopen : s.openSocket = some i) (channels : List String) :
    channels.foldl (fun s channel => s.raw (.subscribe channel)) s =
      { s with sent := s.sent ++ (channels.map Frame.subscribe).map (Prod.mk i) } := by
  induction channels generalizing s with
  | nil => simp
  | cons channel channels ih =>
    have hraw : s.raw (.subscribe channel) = { s with sent := s.sent ++ [(i, .subscribe channel)] } := by
      unfold RealtimeClient.raw
      rw [hopen]
    rw [List.foldl_cons, hraw, ih (by exact hopen)]
    simp

theorem openSocket_opened (hheld : s.ws = some i) (hi : i < s.sockets.length) :
    openSocket { s with sockets := s.sockets.set i .opened, reconnectAttempts := 0 } = some i :=
  openSocket_eq_some.2 ⟨hheld, List.getElem?_set_self hi⟩

theorem onopen_eq (hheld : s.ws = some i) (hi : i < s.sockets.length) :
    s.onopen i =
      { s with
        sockets := s.sockets.set i .opened
        reconnectAttempts := 0
        sent := s.sent ++ (s.channels.map Frame.subscribe ++ s.outbox).map (Prod.mk i)
        outbox := [] } := by
  unfold onopen
  dsimp only
  rw [foldl_raw (openSocket_opened hheld hi), List.map_append, ← List.append_assoc]
  rfl

/-- The socket that opens is subscribed to every channel with handlers; what waits changes no subscription. -/
theorem Tidy.onopen (h : s.Tidy wanted) (hi : s.sockets[i]? = some .connecting) :
    (s.onopen i).Tidy (· ∈ s.channels) := by
  have hheld := h.held i (live_connecting hi)
  have hlt := (List.getElem?_eq_some_iff.1 hi).1
  have hset : ∀ j, (s.sockets.set i .opened)[j]? = if i = j then some .opened else s.sockets[j]? := by
    intro j
    rw [List.getElem?_set, if_pos hlt]
  have hother : ∀ j, i ≠ j → ¬ s.Live j := fun j hne hj =>
    hne (Option.some.inj (hheld.symm.trans (h.held j hj)))
  have hopened : Tidy { s with sockets := s.sockets.set i .opened, reconnectAttempts := 0 } fun _ => False := by
    refine ⟨?_, ?_, ?_, ?_, h.outbox⟩
    · rintro j ⟨state, hj, hlive⟩
      by_cases hij : i = j
      · exact hij ▸ hheld
      · rw [hset, if_neg hij] at hj
        exact absurd ⟨state, hj, hlive⟩ (hother j hij)
    · intro entry hentry
      rw [List.length_set]
      exact h.logged entry hentry
    · intro j hj
      rw [hset] at hj
      split at hj
      · cases hj
      · next hij => exact absurd (live_connecting hj) (hother j hij)
    · intro j hj channel
      by_cases hij : i = j
      · have hnone : s.framesOn j = [] := h.unsent j (hij ▸ hi)
        show channel ∈ subscribedBy (s.framesOn j) ↔ False
        rw [hnone]
        exact List.mem_nil_iff channel
      · rw [hset, if_neg hij] at hj
        exact absurd (live_opened hj) (hother j hij)
  have hsent := hopened.send (openSocket_opened hheld hlt) (s.channels.map .subscribe ++ s.outbox)
    (· ∈ s.channels) fun before hbefore channel => by
      rw [← List.append_assoc, subscribedBy_passing _ h.outbox, subscribedBy_subscribes, List.mem_append,
        hbefore channel]
      exact iff_of_eq (false_or (channel ∈ s.channels))
  rw [onopen_eq hheld hlt]
  exact ⟨hsent.held, hsent.logged, hsent.unsent, hsent.inStep, fun _ hframe => by cases hframe⟩

@[simp] theorem channels_connect : s.connect.channels = s.channels := by
  unfold RealtimeClient.connect
  split <;> rfl

@[simp] theorem channels_raw : (s.raw frame).channels = s.channels := by
  unfold RealtimeClient.raw
  split <;> rfl

@[simp] theorem channels_setHandlers (set : List Nat) : (s.setHandlers channel set).channels = s.channels := by
  unfold channels setHandlers
  rw [List.map_map]
  refine List.map_congr_left fun entry _ => ?_
  by_cases hentry : entry.1 = channel <;> simp [hentry]

theorem handlersOf_isNone : (s.handlersOf channel).isNone = true ↔ channel ∉ s.channels := by
  unfold handlersOf channels
  rw [Option.isNone_iff_eq_none, Option.map_eq_none_iff, List.find?_eq_none, List.mem_map]
  simp only [decide_eq_true_eq]
  constructor
  · rintro hnone ⟨entry, hentry, heq⟩
    exact hnone entry hentry heq
  · exact fun hnone entry hentry heq => hnone ⟨entry, hentry, heq⟩

theorem mem_channels_addHandler (handler : Nat) (c : String) :
    c ∈ (s.addHandler channel handler).channels ↔ c ∈ s.channels ∨ c = channel := by
  unfold addHandler
  cases hset : s.handlersOf channel with
  | none => simp [channels]
  | some set =>
    have hmem : channel ∈ s.channels := by
      by_contra hmem
      rw [Option.isNone_iff_eq_none.1 (handlersOf_isNone.2 hmem)] at hset
      cases hset
    rw [channels_setHandlers]
    exact ⟨.inl, fun h => h.elim id fun hc => hc ▸ hmem⟩

/-- What the first subscription to a channel adds to what is wanted, it sends, unless no socket is open. -/
theorem Tidy.subscribe (h : s.Tidy (· ∈ s.channels)) (channel : String) (handler : Nat) :
    (s.subscribe channel handler).Tidy (· ∈ (s.subscribe channel handler).channels) := by
  have hconnect : (s.addHandler channel handler).connect.Tidy (· ∈ s.channels) := by
    refine Tidy.connect ?_
    unfold addHandler
    split
    · exact h.same rfl rfl rfl rfl
    · exact h.same rfl rfl rfl rfl
  have hchannels : ∀ c, c ∈ s.channels ∨ c = channel ↔ c ∈ (s.addHandler channel handler).connect.channels := by
    intro c
    rw [channels_connect]
    exact (mem_channels_addHandler handler c).symm
  unfold RealtimeClient.subscribe
  dsimp only
  split
  · next hfirst =>
    rw [channels_raw]
    exact (hconnect.raw_subscribe (Bool.and_eq_true_iff.1 hfirst).2).congr hchannels
  · next hfirst =>
    by_cases hopen : (s.addHandler channel handler).connect.isOpen = true
    · have hmem : channel ∈ s.channels := by
        by_contra hmem
        exact hfirst (Bool.and_eq_true_iff.2 ⟨handlersOf_isNone.2 hmem, hopen⟩)
      exact hconnect.congr fun c => Iff.trans ⟨.inl, fun h => h.elim id fun hc => hc ▸ hmem⟩ (hchannels c)
    · exact hconnect.of_not_open (Bool.eq_false_iff.2 hopen) _

theorem Tidy.unsubscribe (h : s.Tidy (· ∈ s.channels)) (channel : String) (handler : Nat) :
    (s.unsubscribe channel handler).Tidy (· ∈ (s.unsubscribe channel handler).channels) := by
  unfold RealtimeClient.unsubscribe
  split
  · exact h
  next set _ =>
  dsimp only
  split
  · have hrest : Tidy
        { s with
          handlers := s.handlers.filter (·.1 ≠ channel)
          members := Function.update s.members channel none } (· ∈ s.channels) :=
      h.same rfl rfl rfl rfl
    split
    · next hopen =>
      rw [channels_raw]
      refine (hrest.raw_unsubscribe hopen).congr fun c => ?_
      simp [channels]
    · next hopen => exact hrest.of_not_open (Bool.eq_false_iff.2 hopen) _
  · rw [channels_setHandlers]
    exact h.same rfl rfl rfl rfl

theorem tidy_inductive : (system.restrict NotLate).Inductive fun s => s.Tidy (· ∈ s.channels) where
  init := by
    rintro s ⟨reconnect, reconnectBaseMs, rfl⟩
    exact (Tidy.create reconnect reconnectBaseMs).congr fun _ => (List.mem_nil_iff _).symm
  step := by
    rintro s a s' h ⟨⟨henabled, rfl⟩, hlate⟩
    cases a with
    | connect => exact h.connect.congr fun c => by rw [next, channels_connect]
    | subscribe channel handler => exact h.subscribe channel handler
    | unsubscribe channel handler => exact h.unsubscribe channel handler
    | publish channel payload =>
      have hlogged : Tidy { s with published := s.published ++ [.publish channel payload] } (· ∈ s.channels) :=
        h.same rfl rfl rfl rfl
      have hraw := hlogged.connect.raw (passing_publish channel payload)
      exact hraw.congr fun c => by rw [next, publish, channels_raw, channels_connect]; rfl
    | requestPresence channel =>
      have hraw := h.connect.raw (passing_presence channel)
      exact hraw.congr fun c => by rw [next, requestPresence, channels_raw, channels_connect]
    | close => exact h.close
    | opens i =>
      have heq := onopen_eq (h.held i (live_connecting henabled)) (List.getElem?_eq_some_iff.1 henabled).1
      exact (h.onopen henabled).congr fun c => by rw [next, heq]; rfl
    | receives i frame => cases frame <;> exact h.same rfl rfl rfl rfl
    | closing i => exact h.closing
    | closes i =>
      refine (h.onclose hlate).congr fun c => ?_
      rw [next, onclose]
      split <;> rfl
    | timer delay =>
      have hset : Tidy { s with timers := s.timers.erase delay } (· ∈ s.channels) := h.same rfl rfl rfl rfl
      exact hset.connect.congr fun c => by rw [next, channels_connect]; rfl

/-! ## What is published -/

/-- The publishes that have been sent, and those that wait after them. -/
def tracked (s : RealtimeClient) : List Frame :=
  s.relayed ++ s.outbox.filter Frame.isPublish

/-- What is published has been sent or waits, in order, and nothing waits while the held socket is open. -/
structure Relaying (s : RealtimeClient) : Prop where
  inOrder : s.tracked = s.published
  flushed : s.isOpen = true → s.outbox = []

theorem Relaying.relayed_prefix (h : s.Relaying) : s.relayed <+: s.published :=
  h.inOrder ▸ List.prefix_append ..

theorem Relaying.same (h : s.Relaying) (hsent : s'.sent = s.sent) (houtbox : s'.outbox = s.outbox)
    (hpublished : s'.published = s.published) (hopen : s'.isOpen = true → s.isOpen = true) : s'.Relaying where
  inOrder := by
    have hinOrder := h.inOrder
    unfold tracked relayed at *
    rw [hsent, houtbox, hpublished, hinOrder]
  flushed hs' := houtbox ▸ h.flushed (hopen hs')

theorem tracked_raw (h : frame.isPublish = true → s.isOpen = true → s.outbox = []) :
    (s.raw frame).tracked = s.tracked ++ [frame].filter Frame.isPublish := by
  unfold RealtimeClient.raw
  split
  · next i hi =>
    have hrest : s.outbox.filter Frame.isPublish ++ [frame].filter Frame.isPublish =
        [frame].filter Frame.isPublish ++ s.outbox.filter Frame.isPublish := by
      cases hframe : frame.isPublish with
      | false => simp [hframe]
      | true => simp [h hframe (Option.isSome_iff_exists.2 ⟨i, hi⟩)]
    unfold tracked relayed
    rw [List.append_assoc, hrest]
    simp
  · unfold tracked relayed
    simp

theorem flushed_raw (h : s.isOpen = true → s.outbox = []) :
    (s.raw frame).isOpen = true → (s.raw frame).outbox = [] := by
  unfold RealtimeClient.raw
  split
  · exact h
  · next hnone =>
    intro hopen
    have : s.isOpen = true := hopen
    rw [isOpen, hnone] at this
    cases this

theorem isOpen_connect (h : s.connect.isOpen = true) : s.isOpen = true := by
  unfold RealtimeClient.connect at h
  split at h
  · exact h
  · obtain ⟨i, hi⟩ := Option.isSome_iff_exists.1 h
    obtain ⟨hws, hstate⟩ := openSocket_eq_some.1 hi
    obtain rfl := Option.some.inj hws
    simp at hstate

theorem connect_keeps : s.connect.sent = s.sent ∧ s.connect.outbox = s.outbox ∧ s.connect.published = s.published := by
  unfold RealtimeClient.connect
  split <;> exact ⟨rfl, rfl, rfl⟩

theorem published_raw : (s.raw frame).published = s.published := by
  unfold RealtimeClient.raw
  split <;> rfl

theorem Relaying.connect (h : s.Relaying) : s.connect.Relaying :=
  h.same connect_keeps.1 connect_keeps.2.1 connect_keeps.2.2 isOpen_connect

theorem Relaying.raw (h : s.Relaying) (hframe : frame.isPublish = false) : (s.raw frame).Relaying where
  inOrder := by
    rw [tracked_raw fun hpublish => absurd hpublish (by simp [hframe]), h.inOrder, published_raw]
    simp [hframe]
  flushed := flushed_raw h.flushed

/-- A frame that is published while others wait goes after them, and none waits while the held socket is open. -/
theorem Relaying.raw_published (h : s.Relaying) (hsent : s'.sent = s.sent) (houtbox : s'.outbox = s.outbox)
    (hpublished : s'.published = s.published ++ [frame]) (hopen : s'.isOpen = true → s.isOpen = true)
    (hframe : frame.isPublish = true) : (s'.raw frame).Relaying := by
  have hflushed : s'.isOpen = true → s'.outbox = [] := fun hs' => houtbox ▸ h.flushed (hopen hs')
  refine ⟨?_, flushed_raw hflushed⟩
  have htracked : s'.tracked = s.published := by
    rw [← h.inOrder]
    unfold tracked relayed
    rw [hsent, houtbox]
  rw [tracked_raw fun _ => hflushed, htracked, published_raw, hpublished, List.filter_cons_of_pos hframe]
  rfl

theorem Relaying.subscribe (h : s.Relaying) (channel : String) (handler : Nat) :
    (s.subscribe channel handler).Relaying := by
  have hadd : (s.addHandler channel handler).Relaying := by
    unfold addHandler
    split <;> exact h.same rfl rfl rfl id
  unfold RealtimeClient.subscribe
  dsimp only
  split
  · exact hadd.connect.raw rfl
  · exact hadd.connect

theorem Relaying.unsubscribe (h : s.Relaying) (channel : String) (handler : Nat) :
    (s.unsubscribe channel handler).Relaying := by
  unfold RealtimeClient.unsubscribe
  split
  · exact h
  dsimp only
  split
  · split
    · exact Relaying.raw (h.same rfl rfl rfl id) rfl
    · exact h.same rfl rfl rfl id
  · exact h.same rfl rfl rfl id

theorem foldl_raw_tracked (s : RealtimeClient) (channels : List String) :
    (channels.foldl (fun s channel => s.raw (.subscribe channel)) s).tracked = s.tracked ∧
      (channels.foldl (fun s channel => s.raw (.subscribe channel)) s).published = s.published := by
  induction channels generalizing s with
  | nil => exact ⟨rfl, rfl⟩
  | cons channel channels ih =>
    have hraw : (s.raw (.subscribe channel)).tracked = s.tracked := by
      rw [tracked_raw fun hpublish => by cases hpublish]
      exact List.append_nil _
    exact ⟨(ih _).1.trans hraw, (ih _).2.trans published_raw⟩

/-- A socket that opens empties the outbox, whether it is the one held or not. -/
theorem Relaying.onopen (h : s.Relaying) (i : Nat) : (s.onopen i).Relaying ∧ (s.onopen i).outbox = [] := by
  let opened : RealtimeClient := { s with sockets := s.sockets.set i .opened, reconnectAttempts := 0 }
  obtain ⟨htracked, hpublished⟩ := opened.foldl_raw_tracked s.channels
  refine ⟨⟨?_, fun _ => rfl⟩, rfl⟩
  refine Eq.trans ?_ (htracked.trans (h.inOrder.trans hpublished.symm))
  unfold RealtimeClient.onopen tracked relayed
  simp [Function.comp_def, channels, opened]

/-- In every run what is published is sent in order, and nothing twice. -/
theorem relaying_inductive : system.Inductive Relaying where
  init := by
    rintro s ⟨reconnect, reconnectBaseMs, rfl⟩
    exact ⟨rfl, fun _ => rfl⟩
  step := by
    rintro s a s' h ⟨henabled, rfl⟩
    cases a with
    | connect => exact h.connect
    | subscribe channel handler => exact h.subscribe channel handler
    | unsubscribe channel handler => exact h.unsubscribe channel handler
    | publish channel payload =>
      exact h.raw_published connect_keeps.1 connect_keeps.2.1 connect_keeps.2.2 isOpen_connect rfl
    | requestPresence channel => exact h.connect.raw rfl
    | close => exact h.same rfl rfl rfl nofun
    | opens i => exact (h.onopen i).1
    | receives i frame => cases frame <;> exact h.same rfl rfl rfl id
    | closing i =>
      refine h.same rfl rfl rfl fun hopen => ?_
      obtain ⟨j, hj⟩ := Option.isSome_iff_exists.1 hopen
      obtain ⟨hws, hstate⟩ := openSocket_eq_some.1 hj
      exact Option.isSome_iff_exists.2 ⟨j, openSocket_eq_some.2 ⟨hws, (getElem?_set_dead rfl hstate rfl).2⟩⟩
    | closes i =>
      unfold next onclose
      dsimp only
      split <;> exact h.same rfl rfl rfl nofun
    | timer delay => exact Relaying.connect (h.same rfl rfl rfl id)

/-! ## Runs without a late close event -/

theorem Tidy.oneSocket (h : s.Tidy wanted) : s.OneSocket :=
  fun i j hi hj => Option.some.inj ((h.held i hi).symm.trans (h.held j hj))

theorem Relaying.opened (h : s.Relaying) (i : Nat) : (s.onopen i).relayed = (s.onopen i).published := by
  obtain ⟨hopened, hempty⟩ := h.onopen i
  have hinOrder := hopened.inOrder
  unfold tracked at hinOrder
  rwa [hempty, List.filter_nil, List.append_nil] at hinOrder

/-- While no close event comes late, at most one socket is live, and where it is open the channels with handlers are
subscribed on it. What is published is sent in order, nothing twice, and all of it once a socket opens. -/
theorem one_socket_in_step (s : RealtimeClient) (h : (system.restrict NotLate).Reachable s) :
    s.OneSocket ∧ s.InStep ∧ s.relayed <+: s.published ∧
      ∀ i s', system.step s (.opens i) s' → s'.relayed = s'.published := by
  have htidy := tidy_inductive.reachable h
  have hrelaying := relaying_inductive.reachable h.of_restrict
  refine ⟨htidy.oneSocket, htidy.inStep, hrelaying.relayed_prefix, ?_⟩
  rintro i _ ⟨-, rfl⟩
  exact hrelaying.opened i

end

/-! ## A client that loses its connection, and one that is closed and connected again -/

/-- A channel is subscribed, the peer closes the socket, a frame is published meanwhile, and the timer reconnects. -/
theorem one_socket_in_step_reconnected : ∃ s : RealtimeClient, s.OneSocket ∧ s.InStep ∧
    s.relayed = [.publish "room" (.string "hi"), .publish "room" (.string "again")] ∧
    s.framesOn 1 = [.subscribe "room", .publish "room" (.string "again")] := by
  have r : (system.restrict NotLate).Run (create none none)
      [.subscribe "room" 0, .publish "room" (.string "hi"), .opens 0, .closing 0, .closes 0,
        .publish "room" (.string "again"), .timer 500, .opens 1] _ :=
    .cons ⟨⟨trivial, rfl⟩, trivial⟩ <| .cons ⟨⟨trivial, rfl⟩, trivial⟩ <| .cons ⟨⟨rfl, rfl⟩, trivial⟩ <|
    .cons ⟨⟨rfl, rfl⟩, trivial⟩ <|
    .cons ⟨⟨⟨_, rfl, nofun⟩, rfl⟩, fun j hj hne => absurd (Option.some.inj hj).symm hne⟩ <|
    .cons ⟨⟨trivial, rfl⟩, trivial⟩ <| .cons ⟨⟨List.mem_singleton.2 rfl, rfl⟩, trivial⟩ <|
    .single ⟨⟨rfl, rfl⟩, trivial⟩
  obtain ⟨hone, hstep, -, -⟩ := one_socket_in_step _ ⟨_, _, ⟨none, none, rfl⟩, r⟩
  exact ⟨_, hone, hstep, rfl, rfl⟩

/-- A client is closed and connected again before the close event of its first socket comes: the timer opens a third
socket beside the second. -/
theorem two_sockets : ¬ ∀ s : RealtimeClient, system.Reachable s → s.OneSocket ∧ s.InStep ∧ s.relayed <+: s.published ∧
    ∀ i s', system.step s (.opens i) s' → s'.relayed = s'.published := by
  intro h
  have r : system.Run (create none none) [.connect, .opens 0, .close, .connect, .closes 0, .timer 500] _ :=
    .cons ⟨trivial, rfl⟩ <| .cons ⟨rfl, rfl⟩ <| .cons ⟨trivial, rfl⟩ <| .cons ⟨trivial, rfl⟩ <|
    .cons ⟨⟨_, rfl, nofun⟩, rfl⟩ <| .single ⟨List.mem_singleton.2 rfl, rfl⟩
  have hone := (h _ ⟨_, _, ⟨none, none, rfl⟩, r⟩).1
  have heq := hone 1 2 ⟨.connecting, rfl, rfl⟩ ⟨.connecting, rfl, rfl⟩
  cases heq

end RealtimeClient

end Atomo.Sdk

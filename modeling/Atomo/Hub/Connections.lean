import Atomo.Hub.Worker
import Mathlib.Data.List.Count

/-!
# The sockets of the relay

`ConnLimiter`, `ws_handler` and `pump` of the relay's `main.rs`. A slot is taken in the handler and given back where
the request is refused or where its socket closes. An upgrade that fails ends the request before `pump` starts, and
its slot stays taken: the counts are those of the requests in progress exactly while no upgrade has failed
(`accounted_iff`).
-/

namespace Atomo.Hub

/-- The addresses that hold a slot with how many they hold, and the cap. -/
structure ConnLimiter (ι : Type) where
  counts : ι → Option UInt32
  max : UInt32

namespace ConnLimiter

variable {ι : Type} [DecidableEq ι] (l : ConnLimiter ι) (ip : ι)

def set (count : Option UInt32) : ConnLimiter ι :=
  { l with counts := Function.update l.counts ip count }

def tryAcquire : Bool × ConnLimiter ι :=
  if l.max = 0 then (true, l)
  else
    let count := (l.counts ip).getD 0
    if l.max ≤ count then (false, l.set ip (some count))
    else (true, l.set ip (some (count + 1)))

/-- The subtraction wraps around, as it does in a release build. -/
def release : ConnLimiter ι :=
  if l.max = 0 then l
  else
    match l.counts ip with
    | none => l
    | some count =>
      let count := count - 1
      l.set ip (if count = 0 then none else some count)

end ConnLimiter

/-! ## Requests -/

structure RealtimeClaims where
  sub : String
  sid : Option String

/-- `verify` against the clock, and whether a request may come without a token. -/
structure RelayConfig where
  verify : Int → String → Option RealtimeClaims
  allowAnon : Bool
  maxConnPerIp : UInt32

/-- A request that has been answered with an upgrade, and is `open` once `pump` has its socket. -/
structure Socket (ι : Type) where
  ip : ι
  principal : Principal
  session : Option String
  isOpen : Bool
  deriving DecidableEq

inductive WsReply (ι : Type) where
  | tooManyRequests (text : String)
  | unauthorized (text : String)
  | onUpgrade (socket : Socket ι)

structure RelayState (ι : Type) where
  conns : ConnLimiter ι
  anonCounter : Nat
  live : List (Socket ι)

inductive RelayAct (ι : Type) where
  | request (ip : ι) (token : Option String) (now : Int)
  | upgraded (socket : Socket ι)
  | upgradeFailed (socket : Socket ι)
  | closed (socket : Socket ι)

namespace RelayState

variable {ι : Type} [DecidableEq ι] (cfg : RelayConfig) (s : RelayState ι)

/-- Who a request is from, or why it is refused. -/
def authenticate (token : Option String) (now : Int) : Except String (Principal × Option String) :=
  match token with
  | some token =>
    match cfg.verify now token with
    | some claims => .ok (⟨claims.sub⟩, claims.sid)
    | none => .error "realtime auth failed: invalid or expired token"
  | none =>
    if cfg.allowAnon then .ok (⟨"anon:" ++ toString s.anonCounter⟩, none)
    else .error "realtime auth required: pass ?token=<jwt>"

def wsHandler (ip : ι) (token : Option String) (now : Int) : WsReply ι × RelayState ι :=
  match s.conns.tryAcquire ip with
  | (false, conns) => (.tooManyRequests "too many connections from this address", { s with conns })
  | (true, conns) =>
    match s.authenticate cfg token now with
    | .error text => (.unauthorized text, { s with conns := conns.release ip })
    | .ok (principal, session) =>
      let socket := { ip, principal, session, isOpen := false }
      (.onUpgrade socket,
        { conns
          anonCounter := if token.isNone then s.anonCounter + 1 else s.anonCounter
          live := socket :: s.live })

/-- The end of `pump`. -/
def pumpEnds (socket : Socket ι) : RelayState ι :=
  { s with conns := s.conns.release socket.ip, live := s.live.erase socket }

def step : RelayAct ι → Option (RelayState ι)
  | .request ip token now => some (s.wsHandler cfg ip token now).2
  | .upgraded socket =>
    if socket ∈ s.live ∧ socket.isOpen = false then
      some { s with live := { socket with isOpen := true } :: s.live.erase socket }
    else none
  | .upgradeFailed socket =>
    -- the callback of `on_upgrade` is dropped
    if socket ∈ s.live ∧ socket.isOpen = false then some { s with live := s.live.erase socket } else none
  | .closed socket => if socket ∈ s.live ∧ socket.isOpen then some (s.pumpEnds socket) else none

/-- How many slots an address should hold. -/
def held (ip : ι) : Nat :=
  s.live.countP fun socket => socket.ip = ip

end RelayState

/-- The relay from its start on. -/
def relay (ι : Type) [DecidableEq ι] (cfg : RelayConfig) : LabelledSystem (RelayState ι) (RelayAct ι) where
  init s := s = { conns := { counts := fun _ => none, max := cfg.maxConnPerIp }, anonCounter := 1, live := [] }
  step s a t := s.step cfg a = some t

/-! ## Counts -/

/-- The map has `f ip` for an address, and no entry for nothing. -/
structure ConnLimiter.Records {ι : Type} (l : ConnLimiter ι) (f : ι → Nat) : Prop where
  le : ∀ ip, f ip ≤ l.max.toNat
  counts : ∀ ip, l.counts ip = if f ip = 0 then none else some (UInt32.ofNat (f ip))

/-- The recorded counts are those of the requests in progress, within the cap, and each of these has a count to give
back. -/
structure RelayState.Accounted {ι : Type} [DecidableEq ι] (cfg : RelayConfig) (s : RelayState ι) : Prop where
  records : s.conns.Records s.held
  capped : ∀ ip, s.held ip ≤ cfg.maxConnPerIp.toNat
  releasable : ∀ socket ∈ s.live, ∃ count, s.conns.counts socket.ip = some count ∧ 0 < count

/-- How many upgrades of an address have failed. -/
def failedUpgrades {ι : Type} [DecidableEq ι] (as : List (RelayAct ι)) (ip : ι) : Nat :=
  as.countP fun
    | .upgradeFailed socket => socket.ip = ip
    | _ => false

section

variable {ι : Type} [DecidableEq ι] {l l' : ConnLimiter ι} {f g : ι → Nat} {ip : ι}

theorem toNat_ofNat_of_le {n : Nat} {m : UInt32} (h : n ≤ m.toNat) : (UInt32.ofNat n).toNat = n :=
  UInt32.toNat_ofNat_of_lt' (Nat.lt_of_le_of_lt h m.toNat_lt)

namespace ConnLimiter

omit [DecidableEq ι] in
theorem Records.getD (h : l.Records f) (ip : ι) : ((l.counts ip).getD 0).toNat = f ip := by
  rw [h.counts]
  split
  · rename_i hzero
    exact hzero.symm
  · exact toNat_ofNat_of_le (h.le ip)

omit [DecidableEq ι] in
theorem Records.unique (h : l.Records f) (h' : l.Records g) : f = g := by
  funext ip
  rw [← h.getD, h'.getD]

theorem Records.set (h : l.Records f) {n : Nat} (hn : n ≤ l.max.toNat) {count : Option UInt32}
    (hcount : count = if n = 0 then none else some (UInt32.ofNat n)) :
    (l.set ip count).Records (Function.update f ip n) := by
  constructor
  · intro ip'
    by_cases hip : ip' = ip
    · subst hip
      rw [Function.update_self]
      exact hn
    · rw [Function.update_of_ne hip]
      exact h.le ip'
  · intro ip'
    unfold ConnLimiter.set
    dsimp only
    by_cases hip : ip' = ip
    · subst hip
      rw [Function.update_self, Function.update_self, hcount]
    · rw [Function.update_of_ne hip, Function.update_of_ne hip]
      exact h.counts ip'

@[simp] theorem set_max (count : Option UInt32) : (l.set ip count).max = l.max := rfl

/-- A slot is given exactly below the cap. -/
theorem Records.tryAcquire (h : l.Records f) (hmax : l.max ≠ 0) (ip : ι) :
    (l.tryAcquire ip).2.max = l.max ∧
      if f ip < l.max.toNat then
        (l.tryAcquire ip).1 = true ∧ (l.tryAcquire ip).2.Records (Function.update f ip (f ip + 1))
      else (l.tryAcquire ip).1 = false ∧ (l.tryAcquire ip).2.Records f := by
  have hcount := h.getD ip
  have hle := h.le ip
  unfold ConnLimiter.tryAcquire
  rw [if_neg hmax]
  dsimp only
  by_cases hroom : f ip < l.max.toNat
  · have hbelow : ¬l.max ≤ (l.counts ip).getD 0 := by
      rw [UInt32.le_iff_toNat_le, hcount]
      omega
    rw [if_neg hbelow, if_pos hroom]
    refine ⟨rfl, rfl, h.set hroom ?_⟩
    rw [if_neg (Nat.succ_ne_zero _)]
    congr 1
    apply UInt32.toNat.inj
    have hlt := l.max.toNat_lt
    rw [UInt32.toNat_add, hcount, toNat_ofNat_of_le (m := l.max) hroom, UInt32.toNat_one,
      Nat.mod_eq_of_lt (by omega)]
  · have hfull : l.max ≤ (l.counts ip).getD 0 := by
      rw [UInt32.le_iff_toNat_le, hcount]
      omega
    rw [if_pos hfull, if_neg hroom]
    refine ⟨rfl, rfl, ?_⟩
    have hset : (l.set ip (some ((l.counts ip).getD 0))).Records (Function.update f ip (f ip)) := by
      refine h.set hle ?_
      have hpos : f ip ≠ 0 := by
        have hne : l.max.toNat ≠ 0 := fun hzero => hmax (UInt32.toNat.inj hzero)
        omega
      rw [if_neg hpos]
      congr 1
      apply UInt32.toNat.inj
      rw [hcount, toNat_ofNat_of_le hle]
    rwa [Function.update_eq_self] at hset

/-- A slot that is held is given back. -/
theorem Records.release (h : l.Records f) (hmax : l.max ≠ 0) {ip : ι} (hpos : 0 < f ip) :
    (l.release ip).max = l.max ∧ (l.release ip).Records (Function.update f ip (f ip - 1)) := by
  have hle := h.le ip
  have hentry : l.counts ip = some (UInt32.ofNat (f ip)) := by
    rw [h.counts, if_neg (by omega)]
  unfold ConnLimiter.release
  rw [if_neg hmax, hentry]
  dsimp only
  have hone : (1 : UInt32) ≤ UInt32.ofNat (f ip) := by
    rw [UInt32.le_iff_toNat_le, toNat_ofNat_of_le hle]
    exact hpos
  have hcount : (UInt32.ofNat (f ip) - 1).toNat = f ip - 1 := by
    rw [UInt32.toNat_sub_of_le _ _ hone, toNat_ofNat_of_le hle, UInt32.toNat_one]
  refine ⟨rfl, h.set (by omega) ?_⟩
  have hzero : UInt32.ofNat (f ip) - 1 = 0 ↔ f ip - 1 = 0 := by
    rw [← UInt32.toNat_inj, hcount]
    rfl
  have hsome : UInt32.ofNat (f ip) - 1 = UInt32.ofNat (f ip - 1) := by
    apply UInt32.toNat.inj
    rw [hcount, toNat_ofNat_of_le (m := l.max) (by omega)]
  rw [if_congr hzero rfl rfl, hsome]

end ConnLimiter

/-! ## Steps -/

variable {cfg : RelayConfig} {s s' s₀ : RelayState ι} {lost : ι → Nat} {socket : Socket ι}

/-- The limiter has what the requests in progress hold, and what has been lost besides. -/
structure RelayState.Records (cfg : RelayConfig) (s : RelayState ι) (lost : ι → Nat) : Prop where
  max : s.conns.max = cfg.maxConnPerIp
  counts : s.conns.Records fun ip => s.held ip + lost ip

theorem held_cons (h : s'.live = socket :: s.live) :
    (fun ip => s'.held ip + lost ip) =
      Function.update (fun ip => s.held ip + lost ip) socket.ip (s.held socket.ip + lost socket.ip + 1) := by
  funext ip
  unfold RelayState.held
  rw [h, List.countP_cons]
  by_cases hip : ip = socket.ip
  · subst hip
    rw [Function.update_self, if_pos (decide_eq_true rfl)]
    omega
  · rw [Function.update_of_ne hip, if_neg (by simpa using Ne.symm hip)]
    rfl

theorem held_erase (t : RelayState ι) (hmem : socket ∈ s.live) (ip : ι) (h : t.live = s.live.erase socket) :
    t.held ip + (if socket.ip = ip then 1 else 0) = s.held ip := by
  unfold RelayState.held
  rw [h, List.countP_erase]
  by_cases hip : socket.ip = ip
  · subst hip
    have hpos : 0 < s.live.countP fun other => other.ip = socket.ip :=
      List.countP_pos_iff.2 ⟨socket, hmem, decide_eq_true rfl⟩
    rw [if_pos ⟨hmem, decide_eq_true rfl⟩, if_pos rfl]
    omega
  · rw [if_neg (fun h => hip (of_decide_eq_true h.2)), if_neg hip]
    omega

theorem held_pos (hmem : socket ∈ s.live) : 0 < s.held socket.ip :=
  List.countP_pos_iff.2 ⟨socket, hmem, decide_eq_true rfl⟩

theorem RelayState.Records.wsHandler (h : s.Records cfg lost) (hmax : cfg.maxConnPerIp ≠ 0) (ip : ι) (token : Option String)
    (now : Int) : (s.wsHandler cfg ip token now).2.Records cfg lost := by
  have hmax' : s.conns.max ≠ 0 := h.max ▸ hmax
  have hacquire := h.counts.tryAcquire hmax' ip
  unfold RelayState.wsHandler
  generalize s.conns.tryAcquire ip = taken at hacquire ⊢
  obtain ⟨given, conns⟩ := taken
  obtain ⟨hsame, hcase⟩ := hacquire
  dsimp only at hsame hcase
  have hcap : conns.max = cfg.maxConnPerIp := hsame.trans h.max
  split_ifs at hcase with hroom
  · obtain ⟨hgiven, hcounts⟩ := hcase
    subst hgiven
    dsimp only
    split
    · -- the slot goes back at once
      have hpos : 0 < Function.update (fun ip => s.held ip + lost ip) ip (s.held ip + lost ip + 1) ip := by
        rw [Function.update_self]
        omega
      have hback := hcounts.release (hcap ▸ hmax) hpos
      refine ⟨hback.1.trans hcap, ?_⟩
      have hrecords := hback.2
      rw [Function.update_self, Function.update_idem, Nat.add_sub_cancel, Function.update_eq_self] at hrecords
      exact hrecords
    · refine ⟨hcap, ?_⟩
      rw [held_cons (s := s) rfl]
      exact hcounts
  · obtain ⟨hgiven, hcounts⟩ := hcase
    subst hgiven
    exact ⟨hcap, hcounts⟩

theorem RelayState.Records.pumpEnds (h : s.Records cfg lost) (hmax : cfg.maxConnPerIp ≠ 0) (hmem : socket ∈ s.live) :
    (s.pumpEnds socket).Records cfg lost := by
  have hpos := held_pos hmem
  have hcount : 0 < s.held socket.ip + lost socket.ip := by omega
  have hback := h.counts.release (h.max ▸ hmax) hcount
  refine ⟨hback.1.trans h.max, ?_⟩
  have hcounts := hback.2
  suffices hsame : (fun ip => (s.pumpEnds socket).held ip + lost ip) =
      Function.update (fun ip => s.held ip + lost ip) socket.ip (s.held socket.ip + lost socket.ip - 1) by
    rw [hsame]
    exact hcounts
  funext ip
  have herase := held_erase (s.pumpEnds socket) hmem ip rfl
  by_cases hip : ip = socket.ip
  · subst hip
    rw [if_pos rfl] at herase
    rw [Function.update_self]
    omega
  · rw [if_neg (Ne.symm hip)] at herase
    rw [Function.update_of_ne hip]
    omega

/-- Every step but a failed upgrade keeps the counts, and a failed upgrade loses a slot. -/
theorem RelayState.Records.step (h : s.Records cfg lost) (hmax : cfg.maxConnPerIp ≠ 0) {a : RelayAct ι}
    (hstep : s.step cfg a = some s') : s'.Records cfg fun ip => lost ip + failedUpgrades [a] ip := by
  cases a with
  | request ip token now =>
    cases hstep
    exact h.wsHandler hmax ip token now
  | upgraded socket =>
    unfold RelayState.step at hstep
    dsimp only at hstep
    split_ifs at hstep with hlive
    cases hstep
    refine ⟨h.max, ?_⟩
    convert h.counts using 1
    funext ip
    have herase := held_erase { s with live := s.live.erase socket } hlive.1 ip rfl
    unfold RelayState.held at herase ⊢
    dsimp only at herase ⊢
    rw [List.countP_cons]
    have hnone : failedUpgrades [.upgraded socket] ip = 0 := rfl
    rw [hnone]
    by_cases hip : socket.ip = ip
    · rw [if_pos hip] at herase
      rw [if_pos (decide_eq_true hip)]
      omega
    · rw [if_neg hip] at herase
      rw [if_neg (by simpa using hip)]
      omega
  | upgradeFailed socket =>
    unfold RelayState.step at hstep
    dsimp only at hstep
    split_ifs at hstep with hlive
    cases hstep
    refine ⟨h.max, ?_⟩
    convert h.counts using 1
    funext ip
    have herase := held_erase { s with live := s.live.erase socket } hlive.1 ip rfl
    have hlost : failedUpgrades [.upgradeFailed socket] ip = if socket.ip = ip then 1 else 0 := by
      unfold failedUpgrades
      rw [List.countP_singleton]
      by_cases hip : socket.ip = ip
      · rw [if_pos hip, if_pos (decide_eq_true hip)]
      · rw [if_neg hip, if_neg (by simpa using hip)]
    rw [hlost]
    omega
  | closed socket =>
    unfold RelayState.step at hstep
    dsimp only at hstep
    split_ifs at hstep with hlive
    cases hstep
    exact h.pumpEnds hmax hlive.1

theorem records_of_run {as : List (RelayAct ι)} (hmax : cfg.maxConnPerIp ≠ 0) (h₀ : (relay ι cfg).init s₀)
    (r : (relay ι cfg).Run s₀ as s) : s.Records cfg (failedUpgrades as) := by
  refine r.history (P := fun as s => s.Records cfg (failedUpgrades as)) ?_ ?_
  · subst h₀
    exact ⟨rfl, ⟨fun _ => Nat.zero_le _, fun _ => rfl⟩⟩
  · intro bs t a t' _ ih hstep
    have hnext := ih.step hmax hstep
    convert hnext using 2
    unfold failedUpgrades
    exact List.countP_append

/-- With a cap, the recorded counts are those of the requests in progress after every run in which no upgrade has
failed, and after no other. -/
theorem accounted_iff (cfg : RelayConfig) (hmax : cfg.maxConnPerIp ≠ 0) (s₀ s : RelayState ι) (as : List (RelayAct ι))
    (h₀ : (relay ι cfg).init s₀) (r : (relay ι cfg).Run s₀ as s) :
    s.Accounted cfg ↔ ∀ socket, .upgradeFailed socket ∉ as := by
  have hrecords := records_of_run hmax h₀ r
  constructor
  · intro h socket hmem
    have hsame := congrFun (h.records.unique hrecords.counts) socket.ip
    have hpos : 0 < failedUpgrades as socket.ip :=
      List.countP_pos_iff.2 ⟨.upgradeFailed socket, hmem, decide_eq_true rfl⟩
    omega
  · intro hnone
    have hzero : ∀ ip, failedUpgrades as ip = 0 := by
      intro ip
      refine List.countP_eq_zero.2 fun a ha hfailed => ?_
      cases a with
      | upgradeFailed socket => exact hnone socket ha
      | request ip token now => cases hfailed
      | upgraded socket => cases hfailed
      | closed socket => cases hfailed
    have hcounts : s.conns.Records s.held := by
      have hcounts := hrecords.counts
      simp only [hzero, Nat.add_zero] at hcounts
      exact hcounts
    refine ⟨hcounts, fun ip => hrecords.max ▸ hcounts.le ip, fun socket hmem => ?_⟩
    have hpos := held_pos hmem
    refine ⟨UInt32.ofNat (s.held socket.ip), ?_, ?_⟩
    · rw [hcounts.counts, if_neg (by omega)]
    · rw [UInt32.lt_iff_toNat_lt, toNat_ofNat_of_le (hcounts.le socket.ip)]
      exact hpos

end

/-! ## One address, one slot -/

def oneSlot : RelayConfig where
  verify _ token := if token = "t" then some ⟨"ann", none⟩ else none
  allowAnon := false
  maxConnPerIp := 1

def relayStart : RelayState Nat :=
  { conns := { counts := fun _ => none, max := 1 }, anonCounter := 1, live := [] }

def annsSocket (isOpen : Bool) : Socket Nat :=
  { ip := 7, principal := ⟨"ann"⟩, session := none, isOpen }

/-- A socket that opens and closes, between a request over the cap and one that is refused. -/
theorem accounted_after_close : ∃ s : RelayState Nat, s.Accounted oneSlot ∧ s.live = [] := by
  have r : (relay Nat oneSlot).Run relayStart
      [.request 7 (some "t") 0, .request 7 (some "t") 0, .upgraded (annsSocket false), .closed (annsSocket true),
        .request 7 none 0] _ :=
    .cons rfl (.cons rfl (.cons rfl (.cons rfl (.single rfl))))
  refine ⟨_, (accounted_iff oneSlot (by decide) relayStart _ _ rfl r).2 ?_, rfl⟩
  intro socket hmem
  simp at hmem

/-- After one failed upgrade the address is locked out. -/
theorem slot_leaked : ¬∀ s : RelayState Nat, (relay Nat oneSlot).Reachable s → s.Accounted oneSlot := by
  intro h
  have r : (relay Nat oneSlot).Run relayStart [.request 7 (some "t") 0, .upgradeFailed (annsSocket false)] _ :=
    .cons rfl (.single rfl)
  have haccounted := h _ ⟨relayStart, _, rfl, r⟩
  have hcounts := haccounted.records.counts 7
  exact absurd hcounts (by decide)

end Atomo.Hub

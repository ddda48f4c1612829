import Atomo.Jobs.Store

/-!
# Refreshing an access token

`refresh_access_token` reads the session of the token twice, reads the user and then rotates the token with an
`UPDATE` by the session's id. Each statement is a step, and any number of calls are under way. A token is
accepted twice exactly when some rotation replaces a token that is no longer the one presented
(`single_use_iff`).
-/

namespace Atomo.Auth

open Jobs (Uuids)

/-- A row of `sessions`, as far as the refresh reads and writes it. -/
structure Session where
  id : String
  userId : String
  token : String
  expiresAt : Int
  isRevoked : Bool
  deriving DecidableEq

/-- `Duration::hours(24)`, in microseconds. -/
def sessionMicros : Int := 86400000000

def Session.rotate (token : String) (now : Int) (x : Session) : Session :=
  { x with token, expiresAt := now + sessionMicros }

def Session.revoke (x : Session) : Session :=
  { x with isRevoked := true }

/-- A call of `refresh_access_token` before its first statement, and after each of its three `SELECT`s. -/
inductive RefreshCall where
  | start (token : String)
  | found (token sessionId userId : String)
  | valid (token sessionId userId : String)
  | user (token sessionId : String)
  deriving DecidableEq

/-- The token that was presented and the session that it was found in. -/
def RefreshCall.session : RefreshCall → Option (String × String)
  | .start _ => none
  | .found token sessionId _ | .valid token sessionId _ | .user token sessionId => some (token, sessionId)

/-- The sessions, the users, the calls under way, and the tokens of the calls that have returned new ones. -/
structure AuthStore where
  sessions : List Session
  users : List String
  drawn : Nat
  calls : Nat → Option RefreshCall
  accepted : List String

inductive AuthAct where
  | issue (userId : String) (now : Int)
  | revoke (sessionId : String)
  | users (ids : List String)
  | begin (i : Nat) (token : String)
  | find (i : Nat)
  | check (i : Nat) (now : Int)
  | user (i : Nat)
  | rotate (i : Nat) (now : Int)
  | fail (i : Nat)

namespace AuthStore

variable (u : Uuids) (s : AuthStore)

def setCall (i : Nat) (c : Option RefreshCall) : AuthStore :=
  { s with calls := Function.update s.calls i c }

/-- `create_session`. -/
def issue (userId : String) (now : Int) : AuthStore :=
  { s with
    drawn := s.drawn + 2
    sessions := s.sessions ++ [{
      id := u.draw s.drawn
      userId
      token := u.draw (s.drawn + 1)
      expiresAt := now + sessionMicros
      isRevoked := false }] }

/-- `SELECT … FROM sessions WHERE token = $1 AND is_revoked = false`. -/
def find (i : Nat) (token : String) : AuthStore :=
  match s.sessions.find? fun x => x.token = token ∧ x.isRevoked = false with
  | some x => s.setCall i (some (.found token x.id x.userId))
  | none => s.setCall i none

/-- `SELECT expires_at > NOW() FROM sessions WHERE token = $1`; the call also fails where there is no row. -/
def check (i : Nat) (now : Int) (token sessionId userId : String) : AuthStore :=
  match s.sessions.find? fun x => x.token = token with
  | some x => s.setCall i (if now < x.expiresAt then some (.valid token sessionId userId) else none)
  | none => s.setCall i none

/-- `UPDATE sessions SET token = $1, expires_at = $2 WHERE id = $3`. -/
def rotate (i : Nat) (now : Int) (token sessionId : String) : AuthStore :=
  { s.setCall i none with
    drawn := s.drawn + 1
    sessions := Table.update (·.id = sessionId) (Session.rotate (u.draw s.drawn) now) s.sessions
    accepted := s.accepted ++ [token] }

def step : AuthAct → Option AuthStore
  | .issue userId now => some (s.issue u userId now)
  | .revoke sessionId => some { s with sessions := Table.update (·.id = sessionId) Session.revoke s.sessions }
  | .users ids => some { s with users := ids }
  | .begin i token => if (s.calls i).isNone then some (s.setCall i (some (.start token))) else none
  | .find i =>
    match s.calls i with
    | some (.start token) => some (s.find i token)
    | _ => none
  | .check i now =>
    match s.calls i with
    | some (.found token sessionId userId) => some (s.check i now token sessionId userId)
    | _ => none
  | .user i =>
    match s.calls i with
    | some (.valid token sessionId userId) =>
      some (s.setCall i (if userId ∈ s.users then some (.user token sessionId) else none))
    | _ => none
  | .rotate i now =>
    match s.calls i with
    | some (.user token sessionId) => some (s.rotate u i now token sessionId)
    | _ => none
  | .fail i => if (s.calls i).isSome then some (s.setCall i none) else none

end AuthStore

/-- Logins, revocations and refreshes from the empty table on. -/
def refreshes (u : Uuids) : LabelledSystem AuthStore AuthAct where
  init s := s.sessions = [] ∧ s.accepted = [] ∧ ∀ i, s.calls i = none
  step s a t := s.step u a = some t

/-! ## What the calls keep -/

def Drawn (u : Uuids) (n : Nat) (id : String) : Prop :=
  ∃ k < n, id = u.draw k

def Carries (s : AuthStore) (sessionId token : String) : Prop :=
  ∃ x ∈ s.sessions, x.id = sessionId ∧ x.token = token

/-- The rotation of a call replaces the token that the call has presented. -/
def Current (s : AuthStore) : AuthAct → Prop
  | .rotate i _ => ∀ token sessionId, s.calls i = some (.user token sessionId) → Carries s sessionId token
  | _ => True

structure AuthStore.Sound (u : Uuids) (s : AuthStore) : Prop where
  ids : (s.sessions.map Session.id).Nodup
  drawn : ∀ x ∈ s.sessions, Drawn u s.drawn x.id ∧ Drawn u s.drawn x.token
  tokens : ∀ x ∈ s.sessions, ∀ y ∈ s.sessions, x.token = y.token → x.id = y.id
  gone : ∀ token ∈ s.accepted, Drawn u s.drawn token ∧ ∀ x ∈ s.sessions, x.token ≠ token
  calls : ∀ i c, s.calls i = some c → ∀ token sessionId, c.session = some (token, sessionId) →
    Drawn u s.drawn token ∧ ∀ x ∈ s.sessions, x.token = token → x.id = sessionId

/-- The token of a call is still that of its session, or another call has been accepted with it. -/
def Pending (s : AuthStore) : Prop :=
  ∀ i c, s.calls i = some c → ∀ token sessionId, c.session = some (token, sessionId) →
    Carries s sessionId token ∨ token ∈ s.accepted

section

variable {u : Uuids} {s s' : AuthStore} {i : Nat} {token sessionId : String}

theorem Drawn.mono {m n : Nat} (h : Drawn u m token) (hle : m ≤ n) : Drawn u n token := by
  obtain ⟨k, hk, hid⟩ := h
  exact ⟨k, by omega, hid⟩

theorem Drawn.ne {n k : Nat} (h : Drawn u n token) (hk : n ≤ k) : token ≠ u.draw k := by
  obtain ⟨l, hl, hid⟩ := h
  intro hsame
  have hcase := u.injective (hid.symm.trans hsame)
  omega

theorem setCall_calls {c : Option RefreshCall} {j : Nat} {d : RefreshCall} (h : (s.setCall i c).calls j = some d) :
    c = some d ∨ s.calls j = some d := by
  unfold AuthStore.setCall at h
  dsimp only at h
  by_cases hji : j = i
  · subst hji
    rw [Function.update_self] at h
    exact .inl h
  · rw [Function.update_of_ne hji] at h
    exact .inr h

/-- A call goes on with the token and session that it has, or ends. -/
theorem AuthStore.Sound.setCall (h : s.Sound u) {c : Option RefreshCall}
    (hc : ∀ d, c = some d → ∀ token sessionId, d.session = some (token, sessionId) →
      Drawn u s.drawn token ∧ ∀ x ∈ s.sessions, x.token = token → x.id = sessionId) : (s.setCall i c).Sound u := by
  refine ⟨h.ids, h.drawn, h.tokens, h.gone, fun j d hd => ?_⟩
  cases setCall_calls hd with
  | inl hnew => exact hc d hnew
  | inr hold => exact h.calls j d hold

theorem Pending.setCall (h : Pending s) {c : Option RefreshCall}
    (hc : ∀ d, c = some d → ∀ token sessionId, d.session = some (token, sessionId) →
      Carries s sessionId token ∨ token ∈ s.accepted) : Pending (s.setCall i c) := by
  intro j d hd
  cases setCall_calls hd with
  | inl hnew => exact hc d hnew
  | inr hold => exact h j d hold

/-! ### The statements -/

theorem AuthStore.Sound.issue (h : s.Sound u) (userId : String) (now : Int) : (s.issue u userId now).Sound u := by
  have hle : s.drawn ≤ s.drawn + 2 := Nat.le_add_right _ _
  have hid : Drawn u (s.drawn + 2) (u.draw s.drawn) := ⟨_, by omega, rfl⟩
  have htoken : Drawn u (s.drawn + 2) (u.draw (s.drawn + 1)) := ⟨_, by omega, rfl⟩
  refine ⟨?_, fun x hx => ?_, fun x hx y hy hsame => ?_, fun token ht => ?_, fun j c hc token sessionId hcall => ?_⟩
  · dsimp only [AuthStore.issue]
    rw [List.map_append, List.map_singleton, List.nodup_append]
    refine ⟨h.ids, List.nodup_singleton _, fun d hd d' hd' hsame => ?_⟩
    obtain ⟨x, hx, rfl⟩ := List.mem_map.1 hd
    rw [List.mem_singleton.1 hd'] at hsame
    exact (h.drawn x hx).1.ne (Nat.le_refl _) hsame
  · cases List.mem_append.1 hx with
    | inl hold => exact ⟨(h.drawn x hold).1.mono hle, (h.drawn x hold).2.mono hle⟩
    | inr hnew =>
      rw [List.mem_singleton.1 hnew]
      exact ⟨hid, htoken⟩
  · cases List.mem_append.1 hx with
    | inl hold =>
      cases List.mem_append.1 hy with
      | inl hold' => exact h.tokens x hold y hold' hsame
      | inr hnew' =>
        rw [List.mem_singleton.1 hnew'] at hsame
        exact absurd hsame ((h.drawn x hold).2.ne (Nat.le_succ _))
    | inr hnew =>
      rw [List.mem_singleton.1 hnew] at hsame ⊢
      cases List.mem_append.1 hy with
      | inl hold' => exact absurd hsame.symm ((h.drawn y hold').2.ne (Nat.le_succ _))
      | inr hnew' => rw [List.mem_singleton.1 hnew']
  · refine ⟨(h.gone token ht).1.mono hle, fun x hx => ?_⟩
    cases List.mem_append.1 hx with
    | inl hold => exact (h.gone token ht).2 x hold
    | inr hnew =>
      rw [List.mem_singleton.1 hnew]
      exact ((h.gone token ht).1.ne (Nat.le_succ _)).symm
  · obtain ⟨hdrawn, howner⟩ := h.calls j c hc token sessionId hcall
    refine ⟨hdrawn.mono hle, fun x hx hsame => ?_⟩
    cases List.mem_append.1 hx with
    | inl hold => exact howner x hold hsame
    | inr hnew =>
      rw [List.mem_singleton.1 hnew] at hsame
      exact absurd hsame.symm (hdrawn.ne (Nat.le_succ _))

/-- A session that may have been revoked has kept its id and its token. -/
theorem mem_revoke {sessions : List Session} {p : Session → Bool} {x : Session}
    (hx : x ∈ Table.update p Session.revoke sessions) : ∃ x₀ ∈ sessions, x.id = x₀.id ∧ x.token = x₀.token := by
  cases Table.mem_update_cases hx with
  | inl hmissed => exact ⟨x, hmissed.1, rfl, rfl⟩
  | inr hhit =>
    obtain ⟨x₀, h₀, -, rfl⟩ := hhit
    exact ⟨x₀, h₀, rfl, rfl⟩

theorem AuthStore.Sound.revoke (h : s.Sound u) (p : Session → Bool) :
    ({ s with sessions := Table.update p Session.revoke s.sessions } : AuthStore).Sound u := by
  refine ⟨?_, fun x hx => ?_, fun x hx y hy hsame => ?_, fun token ht => ⟨(h.gone token ht).1, fun x hx => ?_⟩,
    fun j c hc token sessionId hcall => ⟨(h.calls j c hc token sessionId hcall).1, fun x hx hsame => ?_⟩⟩
  · dsimp only
    rw [Table.map_update (f := Session.revoke) fun _ => rfl]
    exact h.ids
  · obtain ⟨x₀, h₀, hid, htoken⟩ := mem_revoke hx
    rw [hid, htoken]
    exact h.drawn x₀ h₀
  · obtain ⟨x₀, h₀, hid, htoken⟩ := mem_revoke hx
    obtain ⟨y₀, k₀, hid', htoken'⟩ := mem_revoke hy
    rw [hid, hid']
    exact h.tokens x₀ h₀ y₀ k₀ (by rw [← htoken, ← htoken', hsame])
  · obtain ⟨x₀, h₀, -, htoken⟩ := mem_revoke hx
    rw [htoken]
    exact (h.gone token ht).2 x₀ h₀
  · obtain ⟨x₀, h₀, hid, htoken⟩ := mem_revoke hx
    rw [hid]
    exact (h.calls j c hc token sessionId hcall).2 x₀ h₀ (htoken.symm.trans hsame)

/-- A rotated session has the new token, and the others are left alone. -/
theorem mem_rotate {sessions : List Session} {x : Session} {new : String} {now : Int}
    (hx : x ∈ Table.update (fun y : Session => decide (y.id = sessionId)) (Session.rotate new now) sessions) :
    (x ∈ sessions ∧ x.id ≠ sessionId) ∨ x.token = new ∧ x.id = sessionId := by
  cases Table.mem_update_cases hx with
  | inl hmissed => exact .inl ⟨hmissed.1, of_decide_eq_false hmissed.2⟩
  | inr hhit =>
    obtain ⟨x₀, -, hp, rfl⟩ := hhit
    exact .inr ⟨rfl, of_decide_eq_true hp⟩

theorem AuthStore.Sound.rotate (h : s.Sound u) (hi : s.calls i = some (.user token sessionId)) (now : Int) :
    (s.rotate u i now token sessionId).Sound u := by
  have hle : s.drawn ≤ s.drawn + 1 := Nat.le_succ _
  have hnew : Drawn u (s.drawn + 1) (u.draw s.drawn) := ⟨_, by omega, rfl⟩
  obtain ⟨hdrawn, howner⟩ := h.calls i _ hi token sessionId rfl
  refine ⟨?_, fun x hx => ?_, fun x hx y hy hsame => ?_, fun t ht => ?_, fun j c hc t id hcall => ?_⟩
  · dsimp only [AuthStore.rotate]
    rw [Table.map_update (f := Session.rotate (u.draw s.drawn) now) fun _ => rfl]
    exact h.ids
  · have hid : x.id ∈ s.sessions.map Session.id := by
      have hmem := List.mem_map_of_mem (f := Session.id) hx
      dsimp only [AuthStore.rotate] at hmem
      rwa [Table.map_update (f := Session.rotate (u.draw s.drawn) now) fun _ => rfl] at hmem
    obtain ⟨x₀, h₀, hsame⟩ := List.mem_map.1 hid
    refine ⟨hsame ▸ (h.drawn x₀ h₀).1.mono hle, ?_⟩
    rcases mem_rotate hx with ⟨hmem, -⟩ | ⟨htoken, -⟩
    · exact (h.drawn x hmem).2.mono hle
    · exact htoken ▸ hnew
  · rcases mem_rotate hx with ⟨hmem, -⟩ | ⟨htoken, hid⟩
    · rcases mem_rotate hy with ⟨hmem', -⟩ | ⟨htoken', -⟩
      · exact h.tokens x hmem y hmem' hsame
      · exact absurd (hsame.trans htoken') ((h.drawn x hmem).2.ne (Nat.le_refl _))
    · rcases mem_rotate hy with ⟨hmem', -⟩ | ⟨-, hid'⟩
      · exact absurd (hsame.symm.trans htoken) ((h.drawn y hmem').2.ne (Nat.le_refl _))
      · rw [hid, hid']
  · have hold : Drawn u s.drawn t ∧ ∀ x ∈ s.sessions, x.id ≠ sessionId → x.token ≠ t := by
      cases List.mem_append.1 ht with
      | inl hbefore => exact ⟨(h.gone t hbefore).1, fun x hx _ => (h.gone t hbefore).2 x hx⟩
      | inr hnow =>
        rw [List.mem_singleton.1 hnow]
        exact ⟨hdrawn, fun x hx hne hsame => hne (howner x hx hsame)⟩
    refine ⟨hold.1.mono hle, fun x hx => ?_⟩
    rcases mem_rotate hx with ⟨hmem, hne⟩ | ⟨htoken, -⟩
    · exact hold.2 x hmem hne
    · rw [htoken]
      exact (hold.1.ne (Nat.le_refl _)).symm
  · cases setCall_calls hc with
    | inl hcase => cases hcase
    | inr hcall' =>
      obtain ⟨hdrawn', howner'⟩ := h.calls j c hcall' t id hcall
      refine ⟨hdrawn'.mono hle, fun x hx hsame => ?_⟩
      rcases mem_rotate hx with ⟨hmem, -⟩ | ⟨htoken, -⟩
      · exact howner' x hmem hsame
      · exact absurd (hsame.symm.trans htoken) (hdrawn'.ne (Nat.le_refl _))

/-- What the first `SELECT` finds. -/
theorem find_cases (s : AuthStore) (i : Nat) (token : String) :
    (∃ x ∈ s.sessions, x.token = token ∧ s.find i token = s.setCall i (some (.found token x.id x.userId))) ∨
      s.find i token = s.setCall i none := by
  unfold AuthStore.find
  split
  · rename_i x hfound
    have hmatch := List.find?_some hfound
    rw [decide_eq_true_iff] at hmatch
    exact .inl ⟨x, List.mem_of_find?_eq_some hfound, hmatch.1, rfl⟩
  · exact .inr rfl

/-- The second `SELECT` lets the call go on or ends it. -/
theorem check_cases (s : AuthStore) (i : Nat) (now : Int) (token sessionId userId : String) :
    s.check i now token sessionId userId = s.setCall i (some (.valid token sessionId userId)) ∨
      s.check i now token sessionId userId = s.setCall i none := by
  unfold AuthStore.check
  split
  · split_ifs
    · exact .inl rfl
    · exact .inr rfl
  · exact .inr rfl

theorem AuthStore.Sound.drop (h : s.Sound u) (i : Nat) : (s.setCall i none).Sound u :=
  h.setCall fun _ hd => nomatch hd

theorem Pending.drop (h : Pending s) (i : Nat) : Pending (s.setCall i none) :=
  h.setCall fun _ hd => nomatch hd

/-- A call that keeps its token and session. -/
theorem AuthStore.Sound.advance (h : s.Sound u) {c d : RefreshCall} (hi : s.calls i = some c)
    (hsession : d.session = c.session) : (s.setCall i (some d)).Sound u := by
  refine h.setCall fun e he token sessionId hcall => ?_
  rw [← Option.some.inj he, hsession] at hcall
  exact h.calls i c hi token sessionId hcall

theorem Pending.advance (h : Pending s) {c d : RefreshCall} (hi : s.calls i = some c)
    (hsession : d.session = c.session) : Pending (s.setCall i (some d)) := by
  refine h.setCall fun e he token sessionId hcall => ?_
  rw [← Option.some.inj he, hsession] at hcall
  exact h i c hi token sessionId hcall

theorem Carries.revoke (h : Carries s sessionId token) (p : Session → Bool) :
    Carries { s with sessions := Table.update p Session.revoke s.sessions } sessionId token := by
  obtain ⟨x, hx, hid, htoken⟩ := h
  cases hp : p x with
  | true => exact ⟨_, Table.mem_update_of hx hp, hid, htoken⟩
  | false => exact ⟨x, Table.mem_update_of_not hx hp, hid, htoken⟩

/-- A rotation of the token presented is an acceptance of every call that waits with it. -/
theorem Pending.rotate (hp : Pending s) (h : s.Sound u) (hcarries : Carries s sessionId token) (now : Int) :
    Pending (s.rotate u i now token sessionId) := by
  intro j c hc t id hcall
  have hold : Carries s id t ∨ t ∈ s.accepted := by
    cases setCall_calls hc with
    | inl hcase => cases hcase
    | inr hcall' => exact hp j c hcall' t id hcall
  cases hold with
  | inr haccepted => exact .inr (List.mem_append_left _ haccepted)
  | inl hother =>
    obtain ⟨x, hx, hid, htoken⟩ := hother
    by_cases hsame : id = sessionId
    · obtain ⟨y, hy, hid', htoken'⟩ := hcarries
      have heq := Table.eq_of_key h.ids hx hy (by rw [hid, hid', hsame])
      refine .inr (List.mem_append_right _ (List.mem_singleton.2 ?_))
      rw [← htoken, ← htoken', heq]
    · refine .inl ⟨x, Table.mem_update_of_not hx (decide_eq_false ?_), hid, htoken⟩
      rw [hid]
      exact hsame

/-! ### The runs -/

theorem sound_refreshes (u : Uuids) : (refreshes u).Inductive (AuthStore.Sound u) where
  init s hs := by
    obtain ⟨hsessions, haccepted, hcalls⟩ := hs
    refine ⟨by rw [hsessions]; exact List.nodup_nil, fun x hx => ?_, fun x hx => ?_, fun t ht => ?_, fun i c hc => ?_⟩
    · rw [hsessions] at hx
      cases hx
    · rw [hsessions] at hx
      cases hx
    · rw [haccepted] at ht
      cases ht
    · rw [hcalls i] at hc
      cases hc
  step s a s' h hstep := by
    change s.step u a = some s' at hstep
    unfold AuthStore.step at hstep
    cases a with
    | issue userId now =>
      cases hstep
      exact h.issue userId now
    | revoke sessionId =>
      cases hstep
      exact h.revoke _
    | users ids =>
      cases hstep
      exact ⟨h.ids, h.drawn, h.tokens, h.gone, h.calls⟩
    | begin i token =>
      dsimp only at hstep
      split_ifs at hstep
      cases hstep
      refine h.setCall fun d hd t id hcall => ?_
      rw [← Option.some.inj hd] at hcall
      cases hcall
    | find i =>
      dsimp only at hstep
      split at hstep
      · rename_i token hi
        cases hstep
        rcases find_cases s i token with ⟨x, hx, htoken, heq⟩ | heq
        · rw [heq]
          refine h.setCall fun d hd t id hcall => ?_
          rw [← Option.some.inj hd] at hcall
          cases hcall
          exact ⟨htoken ▸ (h.drawn x hx).2, fun y hy hsame => h.tokens y hy x hx (hsame.trans htoken.symm)⟩
        · rw [heq]
          exact h.drop i
      · cases hstep
    | check i now =>
      dsimp only at hstep
      split at hstep
      · rename_i token id userId hi
        cases hstep
        rcases check_cases s i now token id userId with heq | heq
        · rw [heq]
          exact h.advance hi rfl
        · rw [heq]
          exact h.drop i
      · cases hstep
    | user i =>
      dsimp only at hstep
      split at hstep
      · rename_i token id userId hi
        cases hstep
        split_ifs
        · exact h.advance hi rfl
        · exact h.drop i
      · cases hstep
    | rotate i now =>
      dsimp only at hstep
      split at hstep
      · rename_i token id hi
        cases hstep
        exact h.rotate hi now
      · cases hstep
    | fail i =>
      dsimp only at hstep
      split_ifs at hstep
      cases hstep
      exact h.drop i

/-- A step accepts a token only when it is a rotation. -/
theorem step_cases {a : AuthAct} (hstep : s.step u a = some s') :
    (∃ i now token sessionId, a = .rotate i now ∧ s.calls i = some (.user token sessionId) ∧
      s' = s.rotate u i now token sessionId) ∨
    Current s a ∧ s'.accepted = s.accepted ∧ (Pending s → Pending s') := by
  unfold AuthStore.step at hstep
  cases a with
  | issue userId now =>
    cases hstep
    refine .inr ⟨trivial, rfl, fun hp i c hc token sessionId hcall => ?_⟩
    cases hp i c hc token sessionId hcall with
    | inl hcarries =>
      obtain ⟨x, hx, hrest⟩ := hcarries
      exact .inl ⟨x, List.mem_append_left _ hx, hrest⟩
    | inr haccepted => exact .inr haccepted
  | revoke sessionId =>
    cases hstep
    refine .inr ⟨trivial, rfl, fun hp i c hc token id hcall => ?_⟩
    cases hp i c hc token id hcall with
    | inl hcarries => exact .inl (hcarries.revoke _)
    | inr haccepted => exact .inr haccepted
  | users ids =>
    cases hstep
    exact .inr ⟨trivial, rfl, fun hp => hp⟩
  | begin i token =>
    dsimp only at hstep
    split_ifs at hstep
    cases hstep
    refine .inr ⟨trivial, rfl, fun hp => hp.setCall fun d hd t id hcall => ?_⟩
    rw [← Option.some.inj hd] at hcall
    cases hcall
  | find i =>
    dsimp only at hstep
    split at hstep
    · rename_i token hi
      cases hstep
      right
      rcases find_cases s i token with ⟨x, hx, htoken, heq⟩ | heq
      · rw [heq]
        refine ⟨trivial, rfl, fun hp => hp.setCall fun d hd t id hcall => ?_⟩
        rw [← Option.some.inj hd] at hcall
        cases hcall
        exact .inl ⟨x, hx, rfl, htoken⟩
      · rw [heq]
        exact ⟨trivial, rfl, fun hp => hp.drop i⟩
    · cases hstep
  | check i now =>
    dsimp only at hstep
    split at hstep
    · rename_i token id userId hi
      cases hstep
      right
      rcases check_cases s i now token id userId with heq | heq
      · rw [heq]
        exact ⟨trivial, rfl, fun hp => hp.advance hi rfl⟩
      · rw [heq]
        exact ⟨trivial, rfl, fun hp => hp.drop i⟩
    · cases hstep
  | user i =>
    dsimp only at hstep
    split at hstep
    · rename_i token id userId hi
      cases hstep
      refine .inr ⟨trivial, rfl, fun hp => ?_⟩
      split_ifs
      · exact hp.advance hi rfl
      · exact hp.drop i
    · cases hstep
  | rotate i now =>
    dsimp only at hstep
    split at hstep
    · rename_i token sessionId hi
      cases hstep
      exact .inl ⟨i, now, token, sessionId, rfl, hi, rfl⟩
    · cases hstep
  | fail i =>
    dsimp only at hstep
    split_ifs at hstep
    cases hstep
    exact .inr ⟨trivial, rfl, fun hp => hp.drop i⟩

theorem nodup_append_singleton_iff {l : List String} : (l ++ [token]).Nodup ↔ l.Nodup ∧ token ∉ l := by
  rw [List.nodup_append]
  constructor
  · intro h
    exact ⟨h.1, fun hmem => h.2.2 token hmem token (List.mem_singleton_self token) rfl⟩
  · intro h
    refine ⟨h.1, List.nodup_singleton token, fun t ht t' ht' hsame => ?_⟩
    rw [List.mem_singleton.1 ht'] at hsame
    exact h.2 (hsame ▸ ht)

/-- While no token is accepted twice, a step accepts none twice exactly when its rotation replaces the token that
was presented. -/
theorem nodup_step_iff (h : s.Sound u) (hp : Pending s) (hnodup : s.accepted.Nodup) {a : AuthAct}
    (hstep : s.step u a = some s') : (s'.accepted.Nodup ↔ Current s a) ∧ (Current s a → Pending s') := by
  rcases step_cases hstep with ⟨i, now, token, sessionId, rfl, hi, rfl⟩ | ⟨hcurrent, haccepted, hpending⟩
  · have hcurrent : Current s (.rotate i now) ↔ Carries s sessionId token := by
      constructor
      · intro hc
        exact hc token sessionId hi
      · intro hc t id hcase
        rw [hi] at hcase
        cases hcase
        exact hc
    rw [hcurrent]
    refine ⟨?_, fun hc => hp.rotate h hc now⟩
    refine nodup_append_singleton_iff.trans ⟨fun hboth => ?_, fun hcarries => ⟨hnodup, fun hmem => ?_⟩⟩
    · cases hp i _ hi token sessionId rfl with
      | inl hcarries => exact hcarries
      | inr hmem => exact absurd hmem hboth.2
    · obtain ⟨x, hx, -, htoken⟩ := hcarries
      exact (h.gone token hmem).2 x hx htoken
  · rw [haccepted]
    exact ⟨⟨fun _ => hcurrent, fun _ => hnodup⟩, fun _ => hpending hp⟩

theorem step_unique {s t t' : AuthStore} {a : AuthAct} (h : (refreshes u).step s a t) (h' : (refreshes u).step s a t') :
    t = t' := by
  change s.step u a = some t at h
  change s.step u a = some t' at h'
  exact Option.some.inj (h.symm.trans h')

theorem accepted_sublist {a : AuthAct} (hstep : s.step u a = some s') : s.accepted.Sublist s'.accepted := by
  rcases step_cases hstep with ⟨i, now, token, sessionId, -, -, rfl⟩ | ⟨-, haccepted, -⟩
  · exact List.sublist_append_left _ _
  · rw [haccepted]

/-- No token is accepted twice in a run, nor is one left in the table after it is accepted, exactly when every
rotation of the run replaces the token that its call has presented. -/
theorem single_use_iff (u : Uuids) (s₀ s : AuthStore) (as : List AuthAct) (h₀ : (refreshes u).init s₀)
    (r : (refreshes u).Run s₀ as s) :
    (s.accepted.Nodup ∧ ∀ token ∈ s.accepted, ∀ x ∈ s.sessions, x.token ≠ token) ↔
      ((refreshes u).restrict Current).Run s₀ as s := by
  have hgone : ∀ token ∈ s.accepted, ∀ x ∈ s.sessions, x.token ≠ token := by
    intro token ht
    exact (((sound_refreshes u).reachable ⟨s₀, as, h₀, r⟩).gone token ht).2
  rw [and_iff_left hgone]
  refine r.end_iff step_unique (P := fun s => s.accepted.Nodup) (I := fun s => s.Sound u ∧ Pending s) ?_ ?_ ?_ ?_ ?_
  · exact fun t a t' hstep hnodup => hnodup.sublist (accepted_sublist hstep)
  · exact fun t a t' ht hnodup hstep => (nodup_step_iff ht.1 ht.2 hnodup hstep).1
  · exact fun t a t' ht hnodup hstep hcurrent =>
      ⟨(sound_refreshes u).step t a t' ht.1 hstep, (nodup_step_iff ht.1 ht.2 hnodup hstep).2 hcurrent⟩
  · refine ⟨(sound_refreshes u).init s₀ h₀, fun i c hc => ?_⟩
    rw [h₀.2.2 i] at hc
    cases hc
  · rw [h₀.2.1]
    exact List.nodup_nil

end

def noSessions : AuthStore :=
  ⟨[], ["ann"], 0, fun _ => none, []⟩

/-- One call after the login. -/
def refreshedOnce : List AuthAct :=
  [.issue "ann" 0, .begin 0 "x", .find 0, .check 0 5, .user 0, .rotate 0 5]

/-- Two calls with one token, each past its reads before the other rotates. -/
def refreshedTwice : List AuthAct :=
  [.issue "ann" 0, .begin 0 "x", .begin 1 "x", .find 0, .find 1, .check 0 5, .check 1 5, .user 0, .user 1,
    .rotate 0 5, .rotate 1 6]

theorem refreshed_once : ∃ s, s.accepted = ["x"] ∧ ((refreshes default).restrict Current).Run noSessions refreshedOnce s := by
  have r : (refreshes default).Run noSessions refreshedOnce _ :=
    .cons rfl (.cons rfl (.cons rfl (.cons rfl (.cons rfl (.single rfl)))))
  refine ⟨_, rfl, (single_use_iff default _ _ _ ⟨rfl, rfl, fun _ => rfl⟩ r).1 ⟨?_, ?_⟩⟩
  · exact List.nodup_singleton "x"
  · decide

theorem accepted_twice : ¬∀ s, (refreshes default).Reachable s → s.accepted.Nodup := by
  intro h
  have r : (refreshes default).Run noSessions refreshedTwice _ :=
    .cons rfl (.cons rfl (.cons rfl (.cons rfl (.cons rfl (.cons rfl (.cons rfl (.cons rfl (.cons rfl
      (.cons rfl (.single rfl))))))))))
  have hnodup := h _ ⟨noSessions, refreshedTwice, ⟨rfl, rfl, fun _ => rfl⟩, r⟩
  change ["x", "x"].Nodup at hnodup
  exact absurd hnodup (by decide)

end Atomo.Auth

import Atomo.Hub.Consistency
import Mathlib.Tactic.Linarith
import Mathlib.Tactic.NormNum
import Mathlib.Tactic.Positivity

/-!
# The join throttle over a run

While the rate is not negative a token bucket lets no more through in a window than its burst and what the window
refills: the tokens that are left, and the refill up to the end of the window, are what may still be taken
(`RateLimiter.admits_le_tokens`). In the hub the subscriptions and session joins of a client take from one bucket,
which nothing else touches (`Limited`), so the bound is theirs (`joins_throttled`).
-/

namespace Atomo.Hub

/-! ## Definitions -/

/-- The seconds between two instants. -/
def seconds (a b : Nat) : ℚ :=
  ((b - a : Nat) : ℚ) / 1000000000

namespace RateLimiter

/-- The limiter after it was asked at these instants. -/
def after (rl : RateLimiter) (times : List Nat) : RateLimiter :=
  times.foldl (fun rl t => (rl.tryAcquire t).2) rl

/-- How often it says yes from instant `a` to instant `b`. -/
def admits (a b : Nat) : RateLimiter → List Nat → Nat
  | _, [] => 0
  | rl, t :: times =>
    (if a ≤ t ∧ t ≤ b ∧ (rl.tryAcquire t).1 = true then 1 else 0) + admits a b (rl.tryAcquire t).2 times

/-- It has the parameters of its limit, and its tokens are in range. -/
structure Sound (limit : RateLimit) (rl : RateLimiter) : Prop where
  burst : rl.burst = limit.burst
  perSec : rl.perSec = limit.perSec
  lower : 0 ≤ rl.tokens
  upper : rl.tokens ≤ limit.burst

end RateLimiter

/-- The instant that a command carries. -/
def Command.instant : Command → Option Nat
  | .connect _ _ now => some now
  | .subscribe _ _ now => some now
  | .sessionJoin _ _ now => some now
  | _ => none

/-- The id of a new connection. -/
def Command.connects : Command → Option ClientId
  | .connect id _ _ => some id
  | _ => none

/-- The instant of a join of the client. -/
def Command.joinTime (id : ClientId) (c : Command) : Option Nat :=
  (c.joins.filter (·.1 = id)).map (·.2)

/-- The command is a join of the client from instant `a` to instant `b`, and it is let through. -/
def Command.admitted (env : Env) (id : ClientId) (a b : Nat) (w : Worker) (c : Command) : Bool :=
  (c.joinTime id).any fun now => a ≤ now ∧ now ≤ b ∧ (allowJoin env id now w).1 = true

/-- How many joins of the client are let through from instant `a` to instant `b`. -/
def admitted (env : Env) (id : ClientId) (a b : Nat) : Worker → List Command → Nat
  | _, [] => 0
  | w, c :: commands => (c.admitted env id a b w).toNat + admitted env id a b (handle env w c) commands

/-- Who is in which channel and session, by the maps and by the records of the clients. -/
structure SameMemberships (w w' : Worker) : Prop where
  presence : w'.presence = w.presence
  sessions : w'.sessions = w.sessions
  clients : ∀ c, (w'.clients.lookup c).map (fun cs => (cs.principal, cs.subscriptions, cs.sessions)) =
    (w.clients.lookup c).map fun cs => (cs.principal, cs.subscriptions, cs.sessions)

/-! ## The bucket -/

theorem seconds_nonneg (a b : Nat) : 0 ≤ seconds a b := by
  unfold seconds
  positivity

theorem seconds_add {a b c : Nat} (hab : a ≤ b) (hbc : b ≤ c) : seconds a b + seconds b c = seconds a c := by
  unfold seconds
  rw [← add_div, ← Nat.cast_add]
  congr 2
  omega

theorem seconds_mono {a b c : Nat} (hab : a ≤ b) : seconds b c ≤ seconds a c := by
  unfold seconds
  gcongr

namespace RateLimiter

section

variable {limit : RateLimit} {rl : RateLimiter}

theorem Sound.new (limit : RateLimit) (now : Nat) : (RateLimiter.new limit now).Sound limit :=
  ⟨rfl, rfl, Nat.cast_nonneg _, le_refl _⟩

theorem last_tryAcquire (t : Nat) : (rl.tryAcquire t).2.last = t := by
  unfold tryAcquire
  dsimp only
  split <;> rfl

/-- What is left and what was taken is what there was, with the refill, or the burst. -/
theorem tokens_tryAcquire (rl : RateLimiter) (t : Nat) :
    (rl.tryAcquire t).2.tokens + (if (rl.tryAcquire t).1 = true then 1 else 0) =
    min (rl.tokens + seconds rl.last t * rl.perSec) rl.burst := by
  unfold tryAcquire seconds
  dsimp only
  split
  · simp
  · simp

theorem Sound.tryAcquire (h : rl.Sound limit) (hrate : 0 ≤ limit.perSec) (t : Nat) :
    (rl.tryAcquire t).2.Sound limit := by
  have hrefill : 0 ≤ seconds rl.last t * rl.perSec := mul_nonneg (seconds_nonneg _ _) (h.perSec ▸ hrate)
  have hmin : 0 ≤ min (rl.tokens + seconds rl.last t * rl.perSec) rl.burst :=
    le_min (add_nonneg h.lower hrefill) (h.burst ▸ Nat.cast_nonneg _)
  have hupper : min (rl.tokens + seconds rl.last t * rl.perSec) rl.burst ≤ limit.burst :=
    (min_le_right _ _).trans h.burst.le
  have htokens := tokens_tryAcquire rl t
  unfold RateLimiter.tryAcquire seconds at *
  dsimp only at *
  split
  next hone => exact ⟨h.burst, h.perSec, sub_nonneg.2 hone, (sub_le_self _ zero_le_one).trans hupper⟩
  next => exact ⟨h.burst, h.perSec, hmin, hupper⟩

theorem Sound.after (h : rl.Sound limit) (hrate : 0 ≤ limit.perSec) (times : List Nat) : (rl.after times).Sound limit := by
  induction times generalizing rl with
  | nil => exact h
  | cons t times ih => exact ih (h.tryAcquire hrate t)

theorem past_of_sorted {b t : Nat} {times : List Nat} (ht : b < t) (hsorted : (t :: times).Pairwise (· ≤ ·)) :
    ∀ t' ∈ t :: times, b < t' :=
  List.forall_mem_cons.2 ⟨ht, fun t' ht' => Nat.lt_of_lt_of_le ht ((List.pairwise_cons.1 hsorted).1 t' ht')⟩

/-- Past the end of the window nothing counts. -/
theorem admits_eq_zero {a b : Nat} {times : List Nat} (h : ∀ t ∈ times, b < t) : rl.admits a b times = 0 := by
  induction times generalizing rl with
  | nil => rfl
  | cons t times ih =>
    rw [List.forall_mem_cons] at h
    have hnot : ¬(a ≤ t ∧ t ≤ b ∧ (rl.tryAcquire t).1 = true) := fun hand => absurd hand.2.1 (by omega)
    rw [admits, if_neg hnot, ih h.2]

/-- A request in the window takes from what there is, with the refill. -/
theorem admits_cons_le (h : rl.Sound limit) {a b t : Nat} {times : List Nat}
    (hnext : ((rl.tryAcquire t).2.admits a b times : ℚ) ≤ (rl.tryAcquire t).2.tokens + limit.perSec * seconds t b) :
    (rl.admits a b (t :: times) : ℚ) ≤
      min (rl.tokens + limit.perSec * seconds rl.last t) limit.burst + limit.perSec * seconds t b := by
  have htokens := tokens_tryAcquire rl t
  have hone : (if a ≤ t ∧ t ≤ b ∧ (rl.tryAcquire t).1 = true then (1 : ℚ) else 0) ≤
      if (rl.tryAcquire t).1 = true then 1 else 0 := by
    split
    next hand => rw [if_pos hand.2.2]
    next => split <;> norm_num
  rw [admits, Nat.cast_add, Nat.cast_ite, Nat.cast_one, Nat.cast_zero]
  rw [h.perSec, h.burst, mul_comm (seconds _ _)] at htokens
  linarith

/-- No more is let through than the tokens that are left and the refill up to the end of the window. -/
theorem admits_le_tokens (h : rl.Sound limit) (hrate : 0 ≤ limit.perSec) (a b : Nat) {times : List Nat}
    (hsorted : (rl.last :: times).Pairwise (· ≤ ·)) :
    (rl.admits a b times : ℚ) ≤ rl.tokens + limit.perSec * seconds rl.last b := by
  induction times generalizing rl with
  | nil => simpa [admits] using add_nonneg h.lower (mul_nonneg hrate (seconds_nonneg _ _))
  | cons t times ih =>
    rw [List.pairwise_cons] at hsorted
    have hlast : rl.last ≤ t := hsorted.1 t List.mem_cons_self
    by_cases hwindow : t ≤ b
    · have hnext := ih (h.tryAcquire hrate t) (by rw [last_tryAcquire]; exact hsorted.2)
      rw [last_tryAcquire] at hnext
      have hcons := admits_cons_le h hnext
      have hmin : min (rl.tokens + limit.perSec * seconds rl.last t) limit.burst ≤
          rl.tokens + limit.perSec * seconds rl.last t := min_le_left _ _
      have hsum : limit.perSec * seconds rl.last t + limit.perSec * seconds t b = limit.perSec * seconds rl.last b := by
        rw [← mul_add, seconds_add hlast hwindow]
      linarith
    · have hzero : rl.admits a b (t :: times) = 0 := admits_eq_zero (past_of_sorted (by omega) hsorted.2)
      rw [hzero, Nat.cast_zero]
      exact add_nonneg h.lower (mul_nonneg hrate (seconds_nonneg _ _))

/-- No more is let through in a window than the burst and the refill of the window. -/
theorem admits_le (h : rl.Sound limit) (hrate : 0 ≤ limit.perSec) (a b : Nat) {times : List Nat}
    (hsorted : (rl.last :: times).Pairwise (· ≤ ·)) :
    (rl.admits a b times : ℚ) ≤ limit.burst + limit.perSec * seconds a b := by
  have hbound : (0 : ℚ) ≤ limit.burst + limit.perSec * seconds a b :=
    add_nonneg (Nat.cast_nonneg _) (mul_nonneg hrate (seconds_nonneg _ _))
  induction times generalizing rl with
  | nil => simpa [admits] using hbound
  | cons t times ih =>
    rw [List.pairwise_cons] at hsorted
    have hsorted' : ((rl.tryAcquire t).2.last :: times).Pairwise (· ≤ ·) := by
      rw [last_tryAcquire]
      exact hsorted.2
    by_cases hwindow : a ≤ t
    · by_cases hend : t ≤ b
      · -- the window begins with the burst at most
        have hnext := admits_le_tokens (h.tryAcquire hrate t) hrate a b hsorted'
        rw [last_tryAcquire] at hnext
        have hcons := admits_cons_le h hnext
        have hmin : min (rl.tokens + limit.perSec * seconds rl.last t) limit.burst ≤ (limit.burst : ℚ) := min_le_right _ _
        have hrest : limit.perSec * seconds t b ≤ limit.perSec * seconds a b :=
          mul_le_mul_of_nonneg_left (seconds_mono hwindow) hrate
        linarith
      · have hzero : rl.admits a b (t :: times) = 0 := admits_eq_zero (past_of_sorted (by omega) hsorted.2)
        rw [hzero, Nat.cast_zero]
        exact hbound
    · have hnot : ¬(a ≤ t ∧ t ≤ b ∧ (rl.tryAcquire t).1 = true) := fun hand => hwindow hand.1
      rw [admits, if_neg hnot, Nat.zero_add]
      exact ih (h.tryAcquire hrate t) hsorted'

end

end RateLimiter

/-! ## The limiter of a client -/

/-- Of the client's limiter `Q` holds, while it is connected. -/
def Limited (id : ClientId) (Q : Option RateLimiter → Prop) (w : Worker) : Prop :=
  ∀ cs, w.clients.lookup id = some cs → Q cs.joinLimiter

section

variable {env : Env} {id : ClientId} {Q : Option RateLimiter → Prop} {w : Worker}

theorem Limited.modifyClient (h : Limited id Q w) (c : ClientId) {f : ClientState → ClientState}
    (hf : ∀ cs, (f cs).joinLimiter = cs.joinLimiter) : Limited id Q (w.modifyClient c f) := by
  intro cs hcs
  rw [lookup_modifyClient] at hcs
  split at hcs
  next heq =>
    subst heq
    obtain ⟨cs', hcs', rfl⟩ := Option.map_eq_some_iff.1 hcs
    rw [hf]
    exact h cs' hcs'
  next => exact h cs hcs

theorem limited_stable (id : ClientId) (Q : Option RateLimiter → Prop) : Stable (Limited id Q) where
  record _ _ h := h
  eraseClient w c h := by
    intro cs hcs
    obtain ⟨cs', hcs', hlimiter⟩ : ∃ cs', w.clients.lookup id = some cs' ∧ cs'.joinLimiter = cs.joinLimiter := by
      by_cases heq : id = c
      · subst heq
        have hnone : (w.clients.erase id).lookup id = some cs := hcs
        rw [AList.lookup_erase] at hnone
        cases hnone
      · exact ⟨cs, (AList.lookup_erase_ne heq).symm.trans hcs, rfl⟩
    exact hlimiter ▸ h cs' hcs'
  dropSession _ c _ h := h.modifyClient c fun _ => rfl
  leavePresence _ _ _ h := h
  leaveSessions _ _ _ h := h
  countClosed _ h := h
  refreshChannelGauge _ h := h
  refreshSessionGauge _ h := h

theorem limited_regular (env : Env) (id : ClientId) (Q : Option RateLimiter → Prop) : Regular env (Limited id Q) where
  deliver := keepsStable_disconnect env _ (limited_stable id Q)
  dropSession := (limited_stable id Q).dropSession
  countPublished _ h := h
  refreshChannelGauge _ h := h
  refreshSessionGauge _ h := h

/-- What a command does of its own leaves the limiters alone, unless it connects the client. -/
theorem limited_keeps {c : Command} (hconnects : c.connects ≠ some id) : c.Keeps env (Limited id Q) w := by
  cases c with
  | connect other principal now =>
    intro h cs hcs
    have hne : id ≠ other := fun heq => hconnects (by rw [heq]; rfl)
    exact h cs ((AList.lookup_insert_ne hne).symm.trans hcs)
  | subscribe other channel now =>
    intro w who h
    refine Limited.modifyClient ?_ other ?_
    · exact h
    · exact fun _ => rfl
  | unsubscribe other channel =>
    intro w h
    refine Limited.modifyClient h other ?_
    exact fun _ => rfl
  | sessionJoin other session now =>
    intro w who h
    refine Limited.modifyClient ?_ other ?_
    · exact h
    · exact fun _ => rfl
  | sessionLeave other session =>
    intro w h
    refine Limited.modifyClient ?_ other ?_
    · exact h
    · exact fun _ => rfl
  | disconnect other => exact fun w h => (limited_stable id Q).disconnect other h
  | _ => trivial

/-- The throttle of one client leaves the limiters of the others alone. -/
theorem limited_allowJoin_ne {other : ClientId} (hne : id ≠ other) (now : Nat) (h : Limited id Q w) :
    Limited id Q (allowJoin env other now w).2 := by
  have hmodify : ∀ limiter : RateLimiter,
      Limited id Q (w.modifyClient other fun cs => { cs with joinLimiter := some limiter }) := by
    intro limiter cs hcs
    rw [lookup_modifyClient, if_neg hne] at hcs
    exact h cs hcs
  unfold allowJoin
  split
  · exact h
  · split
    · exact h
    · dsimp only
      split
      · exact hmodify _
      · exact (limited_regular env id Q).deliver _ _ _ _ (hmodify _)

/-- The throttle of a client asks its limiter. -/
theorem allowJoin_limited (env : Env) {l : RateLimiter} (now : Nat) (h : Limited id (· = some l) w) :
    ((allowJoin env id now w).1 = true → (l.tryAcquire now).1 = true) ∧
      Limited id (· = some (l.tryAcquire now).2) (allowJoin env id now w).2 := by
  unfold allowJoin
  split
  next hnone => exact ⟨nofun, fun cs hcs => by rw [hnone] at hcs; cases hcs⟩
  next cs hcs =>
    rw [h cs hcs]
    have hmodify : Limited id (· = some (l.tryAcquire now).2)
        (w.modifyClient id fun cs => { cs with joinLimiter := some (l.tryAcquire now).2 }) := by
      intro cs' hcs'
      rw [lookup_modifyClient, if_pos rfl] at hcs'
      obtain ⟨_, -, rfl⟩ := Option.map_eq_some_iff.1 hcs'
      rfl
    dsimp only
    split
    next hallowed => exact ⟨fun _ => hallowed, hmodify⟩
    next => exact ⟨nofun, (limited_regular env id _).deliver _ _ _ _ hmodify⟩

/-- A command that is no join of the client, and does not connect it, leaves its limiter alone. -/
theorem Limited.handle {c : Command} (h : Limited id Q w) (hconnects : c.connects ≠ some id)
    (hjoins : c.joinTime id = none) : Limited id Q (handle env w c) := by
  refine handle_keeps_of (limited_regular env id Q) (limited_keeps hconnects) (fun other now hother => ?_) h
  refine limited_allowJoin_ne (fun heq => ?_) now h
  simp [Command.joinTime, hother, heq] at hjoins

/-- After a join of the client its limiter is as the throttle left it. -/
theorem limited_handle_join {c : Command} {now : Nat} (hjoins : c.joinTime id = some now)
    (hallowed : Limited id Q (allowJoin env id now w).2) : Limited id Q (handle env w c) := by
  cases c with
  | subscribe other channel time =>
    obtain ⟨rfl, rfl⟩ : other = id ∧ time = now := by simpa [Command.joinTime, Command.joins] using hjoins
    exact onSubscribe_keeps (limited_regular env other _) (limited_keeps (by nofun)) hallowed
  | sessionJoin other session time =>
    obtain ⟨rfl, rfl⟩ : other = id ∧ time = now := by simpa [Command.joinTime, Command.joins] using hjoins
    exact onSessionJoin_keeps (limited_regular env other _) (limited_keeps (by nofun)) hallowed
  | _ => cases hjoins

theorem joinRate_modifyClient (w : Worker) (c : ClientId) (f : ClientState → ClientState) :
    (w.modifyClient c f).joinRate = w.joinRate := by
  unfold Worker.modifyClient
  split <;> rfl

theorem joinRate_routine (env : Env) (rate : Option RateLimit) : Routine env fun w => w.joinRate = rate where
  deliver := keepsStable_disconnect env _ (.of_later fun _ _ hlater h => hlater.joinRate.trans h)
  limit _ _ _ h := (joinRate_modifyClient _ _ _).trans h
  dropSession _ _ _ h := (joinRate_modifyClient _ _ _).trans h
  countPublished _ h := h
  refreshChannelGauge _ h := h
  refreshSessionGauge _ h := h

/-- No command changes the configured limit. -/
theorem joinRate_handle (env : Env) (w : Worker) (c : Command) : (handle env w c).joinRate = w.joinRate := by
  refine handle_keeps (joinRate_routine env w.joinRate) ?_ rfl
  cases c with
  | connect other principal now => exact id
  | subscribe other channel now => exact fun u who h => (joinRate_modifyClient _ _ _).trans h
  | unsubscribe other channel => exact fun u h => (joinRate_modifyClient _ _ _).trans h
  | sessionJoin other session now => exact fun u who h => (joinRate_modifyClient _ _ _).trans h
  | sessionLeave other session => exact fun u h => (joinRate_modifyClient _ _ _).trans h
  | disconnect other => exact fun u h => (later_onDisconnect env u.card other u).joinRate.trans h
  | _ => trivial

/-! ## Joins in a window -/

/-- The joins of a client that are let through are among those that its limiter says yes to. -/
theorem admitted_le_admits {l : RateLimiter} {commands : List Command} (a b : Nat) (h : Limited id (· = some l) w)
    (hconnects : ∀ c ∈ commands, c.connects ≠ some id) :
    admitted env id a b w commands ≤ l.admits a b (commands.filterMap (Command.joinTime id)) := by
  induction commands generalizing w l with
  | nil => exact Nat.le_refl 0
  | cons c commands ih =>
    rw [List.forall_mem_cons] at hconnects
    rw [admitted]
    cases hjoins : c.joinTime id with
    | none =>
      have hzero : (c.admitted env id a b w).toNat = 0 := by simp [Command.admitted, hjoins]
      rw [hzero, Nat.zero_add, List.filterMap_cons_none hjoins]
      exact ih (h.handle hconnects.1 hjoins) hconnects.2
    | some now =>
      obtain ⟨hallowed, hnext⟩ := allowJoin_limited env now h
      rw [List.filterMap_cons_some hjoins, RateLimiter.admits]
      refine Nat.add_le_add ?_ (ih (limited_handle_join hjoins hnext) hconnects.2)
      unfold Command.admitted
      rw [hjoins, Option.any_some]
      split
      · exact Bool.toNat_le _
      next hnot =>
        rw [decide_eq_false fun hand => hnot ⟨hand.1, hand.2.1, hallowed hand.2.2⟩]
        exact Nat.le_refl 0

/-- The joins of a client are among the commands that carry an instant. -/
theorem joinTimes_sublist (id : ClientId) (commands : List Command) :
    (commands.filterMap (Command.joinTime id)).Sublist (commands.filterMap Command.instant) := by
  induction commands with
  | nil => exact .slnil
  | cons c commands ih =>
    cases hjoins : c.joinTime id with
    | none =>
      rw [List.filterMap_cons_none hjoins]
      exact ih.trans ((List.sublist_cons_self c commands).filterMap _)
    | some now =>
      have hinstant : c.instant = some now := by
        cases c with
        | subscribe other channel time =>
          obtain ⟨-, rfl⟩ : other = id ∧ time = now := by simpa [Command.joinTime, Command.joins] using hjoins
          rfl
        | sessionJoin other session time =>
          obtain ⟨-, rfl⟩ : other = id ∧ time = now := by simpa [Command.joinTime, Command.joins] using hjoins
          rfl
        | _ => cases hjoins
      rw [List.filterMap_cons_some hjoins, List.filterMap_cons_some hinstant]
      exact ih.cons_cons now

/-- The throttle does not know a client that is not connected. -/
theorem allowJoin_unknown (now : Nat) (h : Limited id (fun _ => False) w) : allowJoin env id now w = (false, w) := by
  have hnone : w.clients.lookup id = none := Option.eq_none_iff_forall_ne_some.2 fun cs hcs => h cs hcs
  unfold allowJoin
  rw [hnone]

/-- What a client begins with once it is connected. -/
theorem limited_connect {limit : RateLimit} (hlimit : w.joinRate = some limit) (principal : Principal) (now : Nat) :
    Limited id (· = some (.new limit now)) (handle env w (.connect id principal now)) := by
  intro cs hcs
  have hinsert : cs = ⟨principal, [], [], w.joinRate.map fun limit => .new limit now⟩ :=
    (Option.some.inj ((AList.lookup_insert w.clients).symm.trans hcs)).symm
  rw [hinsert, hlimit]
  rfl

/-- A client that is not connected yet has the whole of its bucket before it. -/
theorem admitted_le {limit : RateLimit} (hrate : 0 ≤ limit.perSec) {commands : List Command} (a b : Nat)
    (hw : Limited id (fun _ => False) w) (hlimit : w.joinRate = some limit)
    (hsorted : (commands.filterMap Command.instant).Pairwise (· ≤ ·))
    (hfresh : (commands.filterMap Command.connects).Nodup) :
    (admitted env id a b w commands : ℚ) ≤ limit.burst + limit.perSec * seconds a b := by
  have hbound : (0 : ℚ) ≤ limit.burst + limit.perSec * seconds a b :=
    add_nonneg (Nat.cast_nonneg _) (mul_nonneg hrate (seconds_nonneg _ _))
  induction commands generalizing w with
  | nil => simpa [admitted] using hbound
  | cons c commands ih =>
    have hsorted' := hsorted.sublist ((List.sublist_cons_self c commands).filterMap _)
    have hfresh' := hfresh.sublist ((List.sublist_cons_self c commands).filterMap _)
    have hzero : (c.admitted env id a b w).toNat = 0 := by
      unfold Command.admitted
      cases c.joinTime id with
      | none => rfl
      | some now => simp [allowJoin_unknown now hw]
    rw [admitted, hzero, Nat.zero_add]
    by_cases hconnects : c.connects = some id
    · cases c with
      | connect other principal now =>
        cases hconnects
        have hrest : ∀ c ∈ commands, c.connects ≠ some id := fun c hc heq =>
          (List.nodup_cons.1 hfresh).1 (List.mem_filterMap.2 ⟨c, hc, heq⟩)
        refine (Nat.cast_le.2 (admitted_le_admits a b (limited_connect hlimit principal now) hrest)).trans ?_
        have htimes := hsorted.sublist ((joinTimes_sublist id commands).cons_cons now)
        exact RateLimiter.admits_le (.new limit now) hrate a b htimes
      | _ => cases hconnects
    · refine ih ?_ ((joinRate_handle env w c).trans hlimit) hsorted' hfresh'
      cases hjoins : c.joinTime id with
      | none => exact hw.handle hconnects hjoins
      | some now =>
        refine limited_handle_join hjoins ?_
        rw [allowJoin_unknown now hw]
        exact hw

/-! ## Refusals -/

theorem SameMemberships.refl (w : Worker) : SameMemberships w w :=
  ⟨rfl, rfl, fun _ => rfl⟩

theorem sameMemberships_limit (w : Worker) (id : ClientId) (limiter : RateLimiter) :
    SameMemberships w (w.modifyClient id fun cs => { cs with joinLimiter := some limiter }) where
  presence := presence_modifyClient _ _ _
  sessions := sessions_modifyClient _ _ _
  clients c := by
    rw [lookup_modifyClient]
    split
    next heq =>
      rw [heq, Option.map_map]
      rfl
    next => rfl

/-- A refused join changes no membership, or it finds that the receiver of its client is closed, and disconnects it. -/
theorem handle_refused {c : Command} {now : Nat} (hjoins : c.joins = some (id, now))
    (hrefused : (allowJoin env id now w).1 = false) :
    SameMemberships w (handle env w c) ∨
      env.outcome w.log id (.error "join rate limit exceeded") = .closed ∧
        ∃ v, SameMemberships w v ∧ handle env w c = disconnect env id v := by
  have hhandle : handle env w c = (allowJoin env id now w).2 := by
    cases c with
    | subscribe other channel time =>
      cases hjoins
      simp [handle, onSubscribe, hrefused]
    | sessionJoin other session time =>
      cases hjoins
      simp [handle, onSessionJoin, hrefused]
    | _ => cases hjoins
  rw [hhandle]
  unfold allowJoin at hrefused ⊢
  cases hcs : w.clients.lookup id with
  | none => exact .inl (.refl w)
  | some cs =>
    rw [hcs] at hrefused
    cases hlimiter : cs.joinLimiter with
    | none => simp [hlimiter] at hrefused
    | some limiter =>
      simp only [hlimiter] at hrefused ⊢
      cases hasked : (limiter.tryAcquire now).1 with
      | true => simp [hasked] at hrefused
      | false =>
        have hsame := sameMemberships_limit w id (limiter.tryAcquire now).2
        have hlookup : (w.modifyClient id fun cs =>
            { cs with joinLimiter := some (limiter.tryAcquire now).2 }).clients.lookup id =
              some { cs with joinLimiter := some (limiter.tryAcquire now).2 } := by
          rw [lookup_modifyClient, if_pos rfl, hcs]
          rfl
        simp only [Bool.false_eq_true, if_false, deliver, hlookup, log_modifyClient]
        split
        next hclosed =>
          refine .inr ⟨hclosed, Worker.record _ _, ?_, rfl⟩
          exact ⟨hsame.presence, hsame.sessions, hsame.clients⟩
        next => exact .inl ⟨hsame.presence, hsame.sessions, hsame.clients⟩

end

/-! ## The bound -/

/-- At a rate that is not negative the tokens stay between none and the burst, and in no window are there more joins
than the burst and what the window refills; the same holds of the subscriptions and session joins of a client in the
hub. A refused join changes no membership, or disconnects a client whose receiver is closed. -/
theorem joins_throttled (limit : RateLimit) (hrate : 0 ≤ limit.perSec) :
    (∀ start times, (start :: times).Pairwise (· ≤ ·) →
      (∀ before, before <+: times → 0 ≤ ((RateLimiter.new limit start).after before).tokens ∧
        ((RateLimiter.new limit start).after before).tokens ≤ limit.burst) ∧
      ∀ a b, ((RateLimiter.new limit start).admits a b times : ℚ) ≤ limit.burst + limit.perSec * seconds a b) ∧
    (∀ env policy commands, (commands.filterMap Command.instant).Pairwise (· ≤ ·) →
      (commands.filterMap Command.connects).Nodup →
      ∀ id a b, (admitted env id a b (.new policy (some limit)) commands : ℚ) ≤
        limit.burst + limit.perSec * seconds a b) ∧
    ∀ env w c id now, Command.joins c = some (id, now) → (allowJoin env id now w).1 = false →
      SameMemberships w (handle env w c) ∨
        env.outcome w.log id (.error "join rate limit exceeded") = .closed ∧
          ∃ v, SameMemberships w v ∧ handle env w c = disconnect env id v := by
  refine ⟨fun start times hsorted => ⟨fun before _ => ?_, fun a b => ?_⟩, ?_, fun env w c id now => handle_refused⟩
  · have hsound := (RateLimiter.Sound.new limit start).after hrate before
    exact ⟨hsound.lower, hsound.upper⟩
  · exact RateLimiter.admits_le (.new limit start) hrate a b hsorted
  · intro env policy commands hsorted hfresh id a b
    refine admitted_le hrate a b (fun cs hcs => ?_) rfl hsorted hfresh
    exact absurd hcs (by simp [Worker.new])

theorem joins_throttled_second :
    ((RateLimiter.new ⟨2, 1⟩ 0).admits 0 1000000000 [0, 0, 0, 500000000] : ℚ) ≤ 2 + 1 * seconds 0 1000000000 :=
  ((joins_throttled ⟨2, 1⟩ zero_le_one).1 0 [0, 0, 0, 500000000] (by decide)).2 0 1000000000

/-- A client that has hung up, which the hub notices at the next frame that it refuses. -/
def Env.hungUp : Env where
  outcome _ _ msg := if msg = .error "join rate limit exceeded" then .closed else .sent
  iterClients _ l := l
  iterNames _ l := l
  iterClients_perm _ _ := .refl _
  iterNames_perm _ _ := .refl _

/-- The hub with one client that may join once. -/
def oneConnected : Worker :=
  handle .hungUp (.new .reelect (some ⟨1, 0⟩)) (.connect 1 ⟨"ada"⟩ 0)

/-- The client has subscribed to a channel, and may not join another one. -/
def oneThrottled : Worker :=
  handle .hungUp oneConnected (.subscribe 1 "lobby" 0)

theorem tryAcquire_full : (RateLimiter.new ⟨1, 0⟩ 0).tryAcquire 0 = (true, ⟨1, 0, 0, 0⟩) := by
  simp [RateLimiter.new, RateLimiter.tryAcquire]

theorem tryAcquire_empty : (RateLimiter.mk 1 0 0 0).tryAcquire 0 = (false, ⟨1, 0, 0, 0⟩) := by
  simp [RateLimiter.tryAcquire]

/-- The hub lets the one join through. -/
theorem oneThrottled_eq : oneThrottled =
    (deliver .hungUp (disconnect .hungUp) 1 (.presence "lobby" ["ada"]) false
      (((oneConnected.modifyClient 1 fun cs => { cs with joinLimiter := some ⟨1, 0, 0, 0⟩ }).setPresence
        (Presence.empty.join "lobby" 1 "ada").2).addSubscription 1 "lobby")).refreshChannelGauge := by
  have hallow : allowJoin .hungUp 1 0 oneConnected =
      (true, oneConnected.modifyClient 1 fun cs => { cs with joinLimiter := some ⟨1, 0, 0, 0⟩ }) := by
    have hlookup : oneConnected.clients.lookup 1 = some ⟨⟨"ada"⟩, [], [], some (.new ⟨1, 0⟩ 0)⟩ := rfl
    unfold allowJoin
    rw [hlookup]
    simp [tryAcquire_full]
  change onSubscribe .hungUp 1 "lobby" 0 oneConnected = _
  unfold onSubscribe
  rw [hallow]
  rfl

theorem oneThrottled_refuses : allowJoin .hungUp 1 0 oneThrottled =
    (false, deliver .hungUp (disconnect .hungUp) 1 (.error "join rate limit exceeded") false
      (oneThrottled.modifyClient 1 fun cs => { cs with joinLimiter := some ⟨1, 0, 0, 0⟩ })) := by
  have hlookup : oneThrottled.clients.lookup 1 = some ⟨⟨"ada"⟩, ["lobby"], [], some ⟨1, 0, 0, 0⟩⟩ := by
    rw [oneThrottled_eq]
    rfl
  unfold allowJoin
  rw [hlookup]
  simp [tryAcquire_empty]

/-- At a negative rate tokens are owed, and a refused join may end the memberships that there were. -/
theorem not_throttled :
    ((RateLimiter.new ⟨1, -1⟩ 0).after [2000000000]).tokens < 0 ∧
      (allowJoin .hungUp 1 0 oneThrottled).1 = false ∧ 1 ∈ oneThrottled.presence.members "lobby" ∧
      1 ∉ (handle .hungUp oneThrottled (.subscribe 1 "board" 0)).presence.members "lobby" := by
  refine ⟨?_, congrArg Prod.fst oneThrottled_refuses, ?_, ?_⟩
  · norm_num [RateLimiter.after, RateLimiter.tryAcquire, RateLimiter.new]
  · rw [oneThrottled_eq]
    decide
  · change 1 ∉ (onSubscribe .hungUp 1 "board" 0 oneThrottled).presence.members "lobby"
    unfold onSubscribe
    rw [oneThrottled_refuses, oneThrottled_eq]
    decide

end Atomo.Hub

import Mathlib.Data.List.Basic
import Mathlib.Data.List.Count
import Mathlib.Logic.Function.Basic

/-!
# The fixed-window limiter

`RateLimiter` of the server's `rate_limit.rs`. The window of an address is opened by the first check after the last
one has run out, so two windows are at least `window_secs` apart and an interval of that length meets two of them at
most. The hint of a refusal is computed from whole seconds, so it may name an instant past the end of the window; what
is left of the next window by then is another matter (`hint_not_kept`).
-/

namespace Atomo.Server

/-! ## The code -/

/-- `TokenBucket`. Instants count nanoseconds. -/
structure TokenBucket where
  tokens : Nat
  lastRefill : Nat
  deriving DecidableEq

structure RateLimiter (Ip : Type) where
  state : Ip → Option TokenBucket
  maxRequests : Nat
  windowSecs : Nat

/-- The nanoseconds of a number of seconds. -/
def nanos (secs : Nat) : Nat :=
  secs * 1000000000

/-- `now.duration_since(since).as_secs()`. -/
def elapsedSecs (since now : Nat) : Nat :=
  (now - since) / 1000000000

/-- `RateLimiter::new`. -/
def RateLimiter.new {Ip : Type} (maxRequests windowSecs : Nat) : RateLimiter Ip where
  state _ := none
  maxRequests
  windowSecs

/-- What `check` does to the bucket of the address. -/
def TokenBucket.check (bucket : TokenBucket) (maxRequests windowSecs now : Nat) : Except Nat Unit × TokenBucket :=
  let elapsed := elapsedSecs bucket.lastRefill now
  let bucket := if windowSecs ≤ elapsed then ⟨maxRequests, now⟩ else bucket
  if 0 < bucket.tokens then (.ok (), { bucket with tokens := bucket.tokens - 1 })
  else (.error (max (windowSecs - elapsed) 1), bucket)

/-! ## Runs -/

/-- A call of `check`, with the instant that it reads off. -/
structure Check (Ip : Type) where
  ip : Ip
  now : Nat
  deriving DecidableEq

namespace RateLimiter

variable {Ip : Type}

/-- The bucket that `entry(ip).or_insert(..)` finds. -/
def bucket (rl : RateLimiter Ip) (c : Check Ip) : TokenBucket :=
  (rl.state c.ip).getD ⟨rl.maxRequests, c.now⟩

theorem bucket_of_some {rl : RateLimiter Ip} {c : Check Ip} {b : TokenBucket} (h : rl.state c.ip = some b) :
    rl.bucket c = b := by
  simp [bucket, h]

/-- No bucket holds more than it is refilled with. -/
def Capped (rl : RateLimiter Ip) : Prop :=
  ∀ ip b, rl.state ip = some b → b.tokens ≤ rl.maxRequests

theorem Capped.bucket {rl : RateLimiter Ip} (h : rl.Capped) (c : Check Ip) :
    (rl.bucket c).tokens ≤ rl.maxRequests := by
  unfold RateLimiter.bucket
  cases hstate : rl.state c.ip with
  | none => exact Nat.le_refl _
  | some b => exact h c.ip b hstate

/-- No window has been opened after this instant. -/
def OpenedBy (rl : RateLimiter Ip) (now : Nat) : Prop :=
  ∀ ip b, rl.state ip = some b → b.lastRefill ≤ now

theorem new_capped (maxRequests windowSecs : Nat) : (new maxRequests windowSecs : RateLimiter Ip).Capped :=
  nofun

theorem new_openedBy (maxRequests windowSecs : Nat) : (new maxRequests windowSecs : RateLimiter Ip).OpenedBy 0 :=
  nofun

variable [DecidableEq Ip]

/-- `RateLimiter::check`. -/
def check (rl : RateLimiter Ip) (c : Check Ip) : Except Nat Unit × RateLimiter Ip :=
  let (answer, bucket) := (rl.bucket c).check rl.maxRequests rl.windowSecs c.now
  (answer, { rl with state := Function.update rl.state c.ip (some bucket) })

/-- Checks one after the other, each with its answer. -/
def answers (rl : RateLimiter Ip) : List (Check Ip) → List (Check Ip × Except Nat Unit)
  | [] => []
  | c :: checks => (c, (rl.check c).1) :: answers (rl.check c).2 checks

end RateLimiter

/-- The check succeeds, at an instant of `[start, stop)`. -/
def granted {Ip : Type} (start stop : Nat) (a : Check Ip × Except Nat Unit) : Bool :=
  start ≤ a.1.now && a.1.now < stop && a.2.isOk

/-- The checks of an address that succeed in `[start, stop)`. -/
def RateLimiter.grants {Ip : Type} [DecidableEq Ip] (rl : RateLimiter Ip) (checks : List (Check Ip)) (ip : Ip)
    (start stop : Nat) : Nat :=
  (rl.answers checks).countP fun a => a.1.ip = ip && granted start stop a

/-! ## One bucket -/

namespace TokenBucket

variable {bucket : TokenBucket} {maxRequests windowSecs now : Nat}

/-- What `check` can do: it refuses in a window that is used up, or it takes a token, of this window or of the next. -/
theorem check_cases (bucket : TokenBucket) (maxRequests windowSecs now : Nat) :
    (elapsedSecs bucket.lastRefill now < windowSecs ∧
      ((bucket.tokens = 0 ∧ bucket.check maxRequests windowSecs now =
          (.error (windowSecs - elapsedSecs bucket.lastRefill now), bucket)) ∨
        (0 < bucket.tokens ∧ bucket.check maxRequests windowSecs now =
          (.ok (), ⟨bucket.tokens - 1, bucket.lastRefill⟩)))) ∨
    (windowSecs ≤ elapsedSecs bucket.lastRefill now ∧
      ((maxRequests = 0 ∧ bucket.check maxRequests windowSecs now = (.error 1, ⟨0, now⟩)) ∨
        (0 < maxRequests ∧ bucket.check maxRequests windowSecs now = (.ok (), ⟨maxRequests - 1, now⟩)))) := by
  unfold TokenBucket.check
  rcases Nat.lt_or_ge (elapsedSecs bucket.lastRefill now) windowSecs with hlt | hle
  · refine .inl ⟨hlt, ?_⟩
    rcases Nat.eq_zero_or_pos bucket.tokens with hzero | hpos
    · left
      have hmax : max (windowSecs - elapsedSecs bucket.lastRefill now) 1 =
          windowSecs - elapsedSecs bucket.lastRefill now := by omega
      simp [hzero, Nat.not_le.2 hlt, hmax]
    · right
      simp [hpos, Nat.not_le.2 hlt]
  · refine .inr ⟨hle, ?_⟩
    rcases Nat.eq_zero_or_pos maxRequests with hzero | hpos
    · left
      simp [hzero, hle]
    · right
      simp [hpos, hle]

end TokenBucket

/-! ## One address -/

namespace RateLimiter

variable {Ip : Type} [DecidableEq Ip] {rl rl' : RateLimiter Ip} {c : Check Ip} {checks : List (Check Ip)} {ip : Ip}
  {b : TokenBucket}

@[simp] theorem check_maxRequests (rl : RateLimiter Ip) (c : Check Ip) :
    (rl.check c).2.maxRequests = rl.maxRequests :=
  rfl

@[simp] theorem check_windowSecs (rl : RateLimiter Ip) (c : Check Ip) :
    (rl.check c).2.windowSecs = rl.windowSecs :=
  rfl

theorem check_state_self (rl : RateLimiter Ip) (c : Check Ip) :
    (rl.check c).2.state c.ip = some ((rl.bucket c).check rl.maxRequests rl.windowSecs c.now).2 := by
  simp [check]

theorem check_state_of_ne (rl : RateLimiter Ip) (h : c.ip ≠ ip) : (rl.check c).2.state ip = rl.state ip := by
  simp [check, Function.update_of_ne h.symm]

/-- Two limiters with the same bucket for an address. -/
structure Agree (ip : Ip) (rl rl' : RateLimiter Ip) : Prop where
  state : rl.state ip = rl'.state ip
  maxRequests : rl.maxRequests = rl'.maxRequests
  windowSecs : rl.windowSecs = rl'.windowSecs

theorem Agree.check (h : Agree c.ip rl rl') :
    (rl.check c).1 = (rl'.check c).1 ∧ Agree c.ip (rl.check c).2 (rl'.check c).2 := by
  have hbucket : rl.bucket c = rl'.bucket c := by
    unfold bucket
    rw [h.state, h.maxRequests]
  refine ⟨?_, ?_, h.maxRequests, h.windowSecs⟩
  · unfold RateLimiter.check
    dsimp only
    rw [hbucket, h.maxRequests, h.windowSecs]
  · rw [check_state_self, check_state_self, hbucket, h.maxRequests, h.windowSecs]

/-- The answers of an address depend on its own checks only. -/
theorem Agree.answers (h : Agree ip rl rl') (checks : List (Check Ip)) :
    (rl.answers checks).filter (·.1.ip = ip) = rl'.answers (checks.filter (·.ip = ip)) := by
  induction checks generalizing rl rl' with
  | nil => rfl
  | cons c checks ih =>
    by_cases hip : c.ip = ip
    · subst hip
      obtain ⟨hanswer, hnext⟩ := h.check
      simp [RateLimiter.answers, hanswer, ih hnext]
    · have hnext : Agree ip (rl.check c).2 rl' :=
        ⟨(check_state_of_ne rl hip).trans h.state, h.maxRequests, h.windowSecs⟩
      simp [RateLimiter.answers, hip, ih hnext]

theorem answers_filter (rl : RateLimiter Ip) (ip : Ip) (checks : List (Check Ip)) :
    (rl.answers checks).filter (·.1.ip = ip) = rl.answers (checks.filter (·.ip = ip)) :=
  Agree.answers ⟨rfl, rfl, rfl⟩ checks

/-! ## The bound -/

theorem answers_cons (rl : RateLimiter Ip) (c : Check Ip) (checks : List (Check Ip)) :
    rl.answers (c :: checks) = (c, (rl.check c).1) :: (rl.check c).2.answers checks :=
  rfl

/-- The successes among the checks of one address. -/
theorem grants_eq (rl : RateLimiter Ip) (checks : List (Check Ip)) (ip : Ip) (start stop : Nat) :
    rl.grants checks ip start stop = (rl.answers (checks.filter (·.ip = ip))).countP (granted start stop) := by
  rw [← answers_filter, List.countP_filter]
  unfold grants
  congr 1
  funext a
  exact Bool.and_comm _ _

theorem countP_granted_cons_le (rl : RateLimiter Ip) (c : Check Ip) (checks : List (Check Ip)) (start stop : Nat) :
    (rl.answers (c :: checks)).countP (granted start stop) ≤
      ((rl.check c).2.answers checks).countP (granted start stop) + 1 := by
  rw [answers_cons, List.countP_cons]
  split <;> omega

theorem countP_granted_cons_of_not {start stop : Nat}
    (h : c.now < start ∨ stop ≤ c.now ∨ ∃ secs, (rl.check c).1 = .error secs) (checks : List (Check Ip)) :
    (rl.answers (c :: checks)).countP (granted start stop) =
      ((rl.check c).2.answers checks).countP (granted start stop) := by
  rw [answers_cons, List.countP_cons_of_neg]
  unfold granted
  rcases h with hbefore | hafter | ⟨secs, herror⟩
  · simp [Nat.not_le.2 hbefore]
  · simp [Nat.not_lt.2 hafter]
  · simp [herror, Except.isOk, Except.toBool]

/-- Nothing is granted in an interval that is over. -/
theorem countP_granted_of_late {start stop : Nat} (h : ∀ c ∈ checks, stop ≤ c.now) :
    (rl.answers checks).countP (granted start stop) = 0 := by
  induction checks generalizing rl with
  | nil => rfl
  | cons c checks ih =>
    rw [countP_granted_cons_of_not (.inr (.inl (h c List.mem_cons_self)))]
    exact ih fun d hd => h d (List.mem_cons_of_mem c hd)

/-- What a check of an address with a bucket does: it refuses, it takes a token of the window, or it opens the next
window. -/
theorem check_spec (hstate : rl.state c.ip = some b) :
    (elapsedSecs b.lastRefill c.now < rl.windowSecs ∧ b.tokens = 0 ∧
      (rl.check c).1 = .error (rl.windowSecs - elapsedSecs b.lastRefill c.now) ∧ (rl.check c).2.state c.ip = some b) ∨
    (elapsedSecs b.lastRefill c.now < rl.windowSecs ∧ 0 < b.tokens ∧ (rl.check c).1 = .ok () ∧
      (rl.check c).2.state c.ip = some ⟨b.tokens - 1, b.lastRefill⟩) ∨
    (rl.windowSecs ≤ elapsedSecs b.lastRefill c.now ∧ rl.maxRequests = 0 ∧ (rl.check c).1 = .error 1 ∧
      (rl.check c).2.state c.ip = some ⟨0, c.now⟩) ∨
    (rl.windowSecs ≤ elapsedSecs b.lastRefill c.now ∧ 0 < rl.maxRequests ∧ (rl.check c).1 = .ok () ∧
      (rl.check c).2.state c.ip = some ⟨rl.maxRequests - 1, c.now⟩) := by
  have hanswer : (rl.check c).1 = (b.check rl.maxRequests rl.windowSecs c.now).1 := by
    simp [RateLimiter.check, bucket_of_some hstate]
  rw [check_state_self, bucket_of_some hstate, hanswer]
  rcases b.check_cases rl.maxRequests rl.windowSecs c.now with ⟨hlt, ⟨hzero, h⟩ | ⟨hpos, h⟩⟩ | ⟨hle, ⟨hzero, h⟩ | ⟨hpos, h⟩⟩
  · exact .inl ⟨hlt, hzero, congrArg Prod.fst h, congrArg (some ·.2) h⟩
  · exact .inr (.inl ⟨hlt, hpos, congrArg Prod.fst h, congrArg (some ·.2) h⟩)
  · exact .inr (.inr (.inl ⟨hle, hzero, congrArg Prod.fst h, congrArg (some ·.2) h⟩))
  · exact .inr (.inr (.inr ⟨hle, hpos, congrArg Prod.fst h, congrArg (some ·.2) h⟩))

/-- A window that was opened in the interval lasts until its end, so its tokens are all there are. -/
theorem countP_granted_of_opened {start : Nat} (hstate : rl.state ip = some b) (hips : ∀ c ∈ checks, c.ip = ip)
    (hsorted : checks.Pairwise (·.now ≤ ·.now)) (hstart : start ≤ b.lastRefill)
    (hlast : ∀ c ∈ checks, b.lastRefill ≤ c.now) :
    (rl.answers checks).countP (granted start (start + nanos rl.windowSecs)) ≤ b.tokens := by
  induction checks generalizing rl b with
  | nil => exact Nat.zero_le _
  | cons c checks ih =>
    rw [List.forall_mem_cons] at hips hlast
    rw [List.pairwise_cons] at hsorted
    obtain rfl := hips.1
    rcases Nat.lt_or_ge c.now (start + nanos rl.windowSecs) with hin | hout
    · have hunder : elapsedSecs b.lastRefill c.now < rl.windowSecs := by
        unfold elapsedSecs
        unfold nanos at hin
        omega
      have hcount := countP_granted_cons_le rl c checks start (start + nanos rl.windowSecs)
      rcases check_spec hstate with ⟨-, -, herror, hnext⟩ | ⟨-, hpos, -, hnext⟩ | ⟨hle, -⟩ | ⟨hle, -⟩
      · rw [countP_granted_cons_of_not (.inr (.inr ⟨_, herror⟩))]
        exact ih hnext hips.2 hsorted.2 hstart hlast.2
      · have htail := ih hnext hips.2 hsorted.2 hstart hlast.2
        rw [check_windowSecs] at htail
        dsimp only at htail
        omega
      · omega
      · omega
    · have hlate : ∀ d ∈ c :: checks, start + nanos rl.windowSecs ≤ d.now :=
        List.forall_mem_cons.2 ⟨hout, fun d hd => Nat.le_trans hout (hsorted.1 d hd)⟩
      rw [countP_granted_of_late hlate]
      exact Nat.zero_le _

/-- From the start of the interval on, a window that is older can be followed by one more. -/
theorem countP_granted_of_open {start : Nat} (hstate : rl.state ip = some b) (hips : ∀ c ∈ checks, c.ip = ip)
    (hsorted : checks.Pairwise (·.now ≤ ·.now)) (hstart : ∀ c ∈ checks, start ≤ c.now) :
    (rl.answers checks).countP (granted start (start + nanos rl.windowSecs)) ≤ b.tokens + rl.maxRequests := by
  induction checks generalizing rl b with
  | nil => exact Nat.zero_le _
  | cons c checks ih =>
    rw [List.forall_mem_cons] at hips hstart
    rw [List.pairwise_cons] at hsorted
    obtain rfl := hips.1
    have hcount := countP_granted_cons_le rl c checks start (start + nanos rl.windowSecs)
    rcases check_spec hstate with ⟨-, -, herror, hnext⟩ | ⟨-, hpos, -, hnext⟩ | ⟨-, -, herror, hnext⟩ | ⟨-, hpos, -, hnext⟩
    · rw [countP_granted_cons_of_not (.inr (.inr ⟨_, herror⟩))]
      exact ih hnext hips.2 hsorted.2 hstart.2
    · have htail := ih hnext hips.2 hsorted.2 hstart.2
      rw [check_windowSecs, check_maxRequests] at htail
      dsimp only at htail
      omega
    · rw [countP_granted_cons_of_not (.inr (.inr ⟨_, herror⟩))]
      have htail := countP_granted_of_opened hnext hips.2 hsorted.2 hstart.1 hsorted.1
      rw [check_windowSecs] at htail
      dsimp only at htail
      omega
    · have htail := countP_granted_of_opened hnext hips.2 hsorted.2 hstart.1 hsorted.1
      rw [check_windowSecs] at htail
      dsimp only at htail
      omega

theorem Capped.check (h : rl.Capped) (c : Check Ip) : (rl.check c).2.Capped := by
  intro ip b hstate
  rw [check_maxRequests]
  by_cases hip : c.ip = ip
  · subst hip
    rw [check_state_self, Option.some_inj] at hstate
    have hbucket := h.bucket c
    rcases (rl.bucket c).check_cases rl.maxRequests rl.windowSecs c.now with
      ⟨-, ⟨-, hcheck⟩ | ⟨-, hcheck⟩⟩ | ⟨-, ⟨-, hcheck⟩ | ⟨-, hcheck⟩⟩ <;> rw [hcheck] at hstate <;> subst hstate
    · exact hbucket
    · dsimp only
      omega
    · exact Nat.zero_le _
    · exact Nat.sub_le _ _
  · rw [check_state_of_ne rl hip] at hstate
    exact h ip b hstate

/-- The limiter once `or_insert` has made a bucket for the address. -/
def entered (rl : RateLimiter Ip) (c : Check Ip) : RateLimiter Ip :=
  { rl with state := Function.update rl.state c.ip (some ⟨rl.maxRequests, c.now⟩) }

theorem entered_state (rl : RateLimiter Ip) (c : Check Ip) :
    (rl.entered c).state c.ip = some ⟨rl.maxRequests, c.now⟩ :=
  Function.update_self ..

theorem check_of_none (hstate : rl.state c.ip = none) : rl.check c = (rl.entered c).check c := by
  simp [check, bucket, entered, hstate]

/-- An interval as long as a window meets two windows at most. -/
theorem countP_granted_le (h : rl.Capped) (start : Nat) (hips : ∀ c ∈ checks, c.ip = ip)
    (hsorted : checks.Pairwise (·.now ≤ ·.now)) :
    (rl.answers checks).countP (granted start (start + nanos rl.windowSecs)) ≤ 2 * rl.maxRequests := by
  induction checks generalizing rl with
  | nil => exact Nat.zero_le _
  | cons c checks ih =>
    rcases Nat.lt_or_ge c.now start with hbefore | hfrom
    · rw [countP_granted_cons_of_not (.inl hbefore)]
      rw [List.forall_mem_cons] at hips
      rw [List.pairwise_cons] at hsorted
      exact ih (h.check c) hips.2 hsorted.2
    · have hstart : ∀ d ∈ c :: checks, start ≤ d.now := by
        rw [List.pairwise_cons] at hsorted
        exact List.forall_mem_cons.2 ⟨hfrom, fun d hd => Nat.le_trans hfrom (hsorted.1 d hd)⟩
      obtain rfl := hips c List.mem_cons_self
      cases hstate : rl.state c.ip with
      | none =>
        have hcount := countP_granted_of_open (entered_state rl c) hips hsorted hstart
        rw [answers_cons, check_of_none hstate, ← answers_cons]
        have hmax : (rl.entered c).maxRequests = rl.maxRequests := rfl
        rw [hmax] at hcount
        exact Nat.le_trans hcount (Nat.le_of_eq (Nat.two_mul _).symm)
      | some b =>
        have hcount := countP_granted_of_open hstate hips hsorted hstart
        have htokens := h c.ip b hstate
        omega

/-! ## The hint -/

theorem OpenedBy.check {now : Nat} (h : rl.OpenedBy now) (hnow : now ≤ c.now) : (rl.check c).2.OpenedBy c.now := by
  intro ip b hstate
  by_cases hip : c.ip = ip
  · subst hip
    have hbucket : (rl.bucket c).lastRefill ≤ c.now := by
      unfold RateLimiter.bucket
      cases hfound : rl.state c.ip with
      | none => exact Nat.le_refl _
      | some found => exact Nat.le_trans (h c.ip found hfound) hnow
    rw [check_state_self, Option.some_inj] at hstate
    rcases (rl.bucket c).check_cases rl.maxRequests rl.windowSecs c.now with
      ⟨-, ⟨-, hcheck⟩ | ⟨-, hcheck⟩⟩ | ⟨-, ⟨-, hcheck⟩ | ⟨-, hcheck⟩⟩ <;> rw [hcheck] at hstate <;> subst hstate
    · exact hbucket
    · exact hbucket
    · exact Nat.le_refl _
    · exact Nat.le_refl _
  · rw [check_state_of_ne rl hip] at hstate
    exact Nat.le_trans (h ip b hstate) hnow

/-- The window of an address is used up, and has run out at an instant. -/
def SpentUntil (rl : RateLimiter Ip) (ip : Ip) (stop : Nat) : Prop :=
  ∃ b, rl.state ip = some b ∧ b.tokens = 0 ∧ b.lastRefill + nanos rl.windowSecs ≤ stop

/-- A refusal names an instant at which the window has run out. -/
theorem spentUntil_of_refused {secs : Nat} (hmax : 0 < rl.maxRequests) (hopened : rl.OpenedBy c.now)
    (h : (rl.check c).1 = .error secs) : (rl.check c).2.SpentUntil c.ip (c.now + nanos secs) := by
  cases hstate : rl.state c.ip with
  | none =>
    rw [check_of_none hstate] at h
    rcases check_spec (entered_state rl c) with ⟨-, hzero, -⟩ | ⟨-, -, hok, -⟩ | ⟨-, hzero, -⟩ | ⟨-, -, hok, -⟩
    · dsimp only at hzero
      omega
    · rw [hok] at h
      cases h
    · dsimp only [entered] at hzero
      omega
    · rw [hok] at h
      cases h
  | some b =>
    have hb := hopened c.ip b hstate
    rcases check_spec hstate with ⟨hlt, hzero, herror, hnext⟩ | ⟨-, -, hok, -⟩ | ⟨-, hzero, -⟩ | ⟨-, -, hok, -⟩
    · refine ⟨b, hnext, hzero, ?_⟩
      rw [herror, Except.error.injEq] at h
      rw [check_windowSecs]
      unfold nanos
      unfold elapsedSecs at hlt h
      omega
    · rw [hok] at h
      cases h
    · omega
    · rw [hok] at h
      cases h

theorem SpentUntil.check {stop : Nat} (h : rl.SpentUntil ip stop) (hmax : 0 < rl.maxRequests)
    (hrefused : c.ip = ip → (rl.check c).1.isOk = false) : (rl.check c).2.SpentUntil ip stop := by
  obtain ⟨b, hstate, hzero, hstop⟩ := h
  by_cases hip : c.ip = ip
  · subst hip
    have hnot := hrefused rfl
    rcases check_spec hstate with ⟨-, -, -, hnext⟩ | ⟨-, hpos, -⟩ | ⟨-, hmaxzero, -⟩ | ⟨-, -, hok, -⟩
    · exact ⟨b, hnext, hzero, hstop⟩
    · omega
    · omega
    · rw [hok] at hnot
      cases hnot
  · exact ⟨b, (check_state_of_ne rl hip).trans hstate, hzero, hstop⟩

/-- Once the window has run out, a check opens the next. -/
theorem SpentUntil.granted {stop : Nat} (h : rl.SpentUntil c.ip stop) (hmax : 0 < rl.maxRequests) (hstop : stop ≤ c.now) :
    (rl.check c).1 = .ok () := by
  obtain ⟨b, hstate, hzero, hover⟩ := h
  have hrun : rl.windowSecs ≤ elapsedSecs b.lastRefill c.now := by
    unfold nanos at hover
    unfold elapsedSecs
    omega
  rcases check_spec hstate with ⟨hlt, -⟩ | ⟨hlt, -⟩ | ⟨-, hmaxzero, -⟩ | ⟨-, -, hok, -⟩
  · omega
  · omega
  · omega
  · exact hok

/-- Through checks that leave the window used up, to the first after it. -/
theorem SpentUntil.answers {stop : Nat} {between after : List (Check Ip × Except Nat Unit)}
    {a : Check Ip × Except Nat Unit} (h : rl.SpentUntil ip stop) (hmax : 0 < rl.maxRequests)
    (hanswers : rl.answers checks = between ++ a :: after) (hip : a.1.ip = ip) (hstop : stop ≤ a.1.now)
    (hrefused : ∀ x ∈ between, x.1.ip = ip → x.2.isOk = false) : a.2 = .ok () := by
  induction between generalizing rl checks with
  | nil =>
    cases checks with
    | nil => cases hanswers
    | cons c checks =>
      rw [answers_cons, List.nil_append] at hanswers
      injection hanswers with ha
      subst ha hip
      exact h.granted hmax hstop
  | cons x between ih =>
    cases checks with
    | nil => cases hanswers
    | cons c checks =>
      rw [answers_cons, List.cons_append] at hanswers
      injection hanswers with hx hrest
      subst hx
      rw [List.forall_mem_cons] at hrefused
      exact ih (h.check hmax hrefused.1) hmax hrest hrefused.2

/-- Where a run of checks comes to one of its answers. -/
theorem answers_reach {now : Nat} {before after : List (Check Ip × Except Nat Unit)} {a : Check Ip × Except Nat Unit}
    (hopened : rl.OpenedBy now) (hsorted : checks.Pairwise (·.now ≤ ·.now)) (hnow : ∀ c ∈ checks, now ≤ c.now)
    (hanswers : rl.answers checks = before ++ a :: after) :
    ∃ (rl' : RateLimiter Ip) (rest : List (Check Ip)), rl'.maxRequests = rl.maxRequests ∧ rl'.OpenedBy a.1.now ∧
      (rl'.check a.1).1 = a.2 ∧ (rl'.check a.1).2.answers rest = after := by
  induction before generalizing rl checks now with
  | nil =>
    cases checks with
    | nil => cases hanswers
    | cons c checks =>
      rw [answers_cons, List.nil_append] at hanswers
      injection hanswers with ha hafter
      subst ha
      exact ⟨rl, checks, rfl, fun ip b hstate => Nat.le_trans (hopened ip b hstate) (hnow c List.mem_cons_self), rfl, hafter⟩
  | cons x before ih =>
    cases checks with
    | nil => cases hanswers
    | cons c checks =>
      rw [answers_cons, List.cons_append] at hanswers
      injection hanswers with hx hrest
      rw [List.pairwise_cons] at hsorted
      obtain ⟨rl', rest, hmax, hreach⟩ :=
        ih (hopened.check (hnow c List.mem_cons_self)) hsorted.2 hsorted.1 hrest
      exact ⟨rl', rest, hmax, hreach⟩

end RateLimiter

/-! ## The limiter -/

/-- After a refusal of an address, `a` is the first check of it that comes as late as the refusal asks. -/
structure Retry {Ip : Type} (answers : List (Check Ip × Except Nat Unit)) (ip : Ip) (refused : Check Ip) (secs : Nat)
    (between : List (Check Ip × Except Nat Unit)) (a : Check Ip × Except Nat Unit) : Prop where
  order : ∃ before after, answers = before ++ (refused, .error secs) :: (between ++ a :: after)
  refusedIp : refused.ip = ip
  retriedIp : a.1.ip = ip
  late : refused.now + nanos secs ≤ a.1.now
  first : ∀ x ∈ between, x.1.ip = ip → x.1.now < refused.now + nanos secs

/-- Over checks at any instants that do not go back, an interval of the length of the window sees at most twice the
maximum of one address succeed, an address is not affected by others, and a check that comes as late as a refusal asks
succeeds, if none of the address has succeeded since the refusal. -/
theorem checks_bounded {Ip : Type} [DecidableEq Ip] (maxRequests windowSecs : Nat) (checks : List (Check Ip))
    (hsorted : checks.Pairwise (·.now ≤ ·.now)) (ip : Ip) :
    (∀ start, (RateLimiter.new maxRequests windowSecs).grants checks ip start (start + nanos windowSecs) ≤
      2 * maxRequests) ∧
    ((RateLimiter.new maxRequests windowSecs).answers checks).filter (·.1.ip = ip) =
      (RateLimiter.new maxRequests windowSecs).answers (checks.filter (·.ip = ip)) ∧
    (0 < maxRequests → ∀ refused secs between a,
      Retry ((RateLimiter.new maxRequests windowSecs).answers checks) ip refused secs between a →
      a.2 = .ok () ∨ ∃ x ∈ between, x.1.ip = ip ∧ x.2 = .ok ()) := by
  refine ⟨fun start => ?_, RateLimiter.answers_filter _ ip checks, fun hmax refused secs between a h => ?_⟩
  · rw [RateLimiter.grants_eq]
    have hips : ∀ c ∈ checks.filter (·.ip = ip), c.ip = ip := fun c hc => by simpa using (List.mem_filter.1 hc).2
    exact RateLimiter.countP_granted_le (RateLimiter.new_capped maxRequests windowSecs) start hips (hsorted.filter _)
  · obtain ⟨before, after, horder⟩ := h.order
    obtain ⟨rl, rest, hrl, hopened, hrefused, hrest⟩ :=
      RateLimiter.answers_reach (RateLimiter.new_openedBy maxRequests windowSecs) hsorted
        (fun c _ => Nat.zero_le c.now) horder
    have hpos : 0 < rl.maxRequests := by rwa [hrl]
    have hspent := RateLimiter.spentUntil_of_refused hpos hopened hrefused
    dsimp only at hspent hrest
    rw [h.refusedIp] at hspent
    by_cases hsome : ∃ x ∈ between, x.1.ip = ip ∧ x.2 = .ok ()
    · exact .inr hsome
    · refine .inl (hspent.answers hpos hrest h.retriedIp h.late fun x hx hip => ?_)
      cases hx2 : x.2 with
      | error secs => rfl
      | ok u => exact absurd ⟨x, hx, hip, hx2⟩ hsome

/-- Two checks an instant apart in a window of a second for one request. -/
theorem checks_bounded_two :
    [(⟨1, 0⟩ : Check Nat), ⟨1, 5⟩].Pairwise (·.now ≤ ·.now) ∧
      (RateLimiter.new 1 1).grants [(⟨1, 0⟩ : Check Nat), ⟨1, 5⟩] 1 0 (0 + nanos 1) ≤ 2 * 1 := by
  have hsorted : [(⟨1, 0⟩ : Check Nat), ⟨1, 5⟩].Pairwise (·.now ≤ ·.now) := by simp
  exact ⟨hsorted, (checks_bounded 1 1 _ hsorted 1).1 0⟩

/-- A refusal 0.9 seconds into a window of a second asks for another second. The window is over 0.1 seconds later; a
check that comes then opens the next and takes its only token, so the one that waits is refused again. -/
theorem hint_not_kept :
    ¬∀ (maxRequests windowSecs : Nat) (checks : List (Check Nat)), checks.Pairwise (·.now ≤ ·.now) →
      0 < maxRequests → ∀ refused secs between a,
        Retry ((RateLimiter.new maxRequests windowSecs).answers checks) 1 refused secs between a → a.2 = .ok () := by
  intro h
  have hretry : Retry ((RateLimiter.new 1 1).answers
      [(⟨1, 0⟩ : Check Nat), ⟨1, 900000000⟩, ⟨1, 1000000000⟩, ⟨1, 1900000000⟩]) 1 ⟨1, 900000000⟩ 1
      [(⟨1, 1000000000⟩, .ok ())] (⟨1, 1900000000⟩, .error 1) := by
    refine ⟨⟨[(⟨1, 0⟩, .ok ())], [], rfl⟩, rfl, rfl, Nat.le_refl _, fun x hx _ => ?_⟩
    rw [List.mem_singleton.1 hx]
    decide
  have hok := h 1 1 _ (by simp) Nat.one_pos _ _ _ _ hretry
  cases hok

end Atomo.Server

import Mathlib.Algebra.Order.Field.Rat

/-!
# The join throttle

`RateLimiter` of `rate_limit.rs`, a token bucket. Instants count nanoseconds; the `f64` token count
and rate are rationals.
-/

namespace Atomo.Hub

structure RateLimit where
  burst : Nat
  perSec : ℚ

structure RateLimiter where
  burst : ℚ
  perSec : ℚ
  tokens : ℚ
  last : Nat

/-- `RateLimiter::new`: a fresh client starts with its whole burst. -/
def RateLimiter.new (limit : RateLimit) (now : Nat) : RateLimiter where
  burst := limit.burst
  perSec := limit.perSec
  tokens := limit.burst
  last := now

/-- `try_acquire`: refill for the elapsed time, then take one token if there is one. -/
def RateLimiter.tryAcquire (rl : RateLimiter) (now : Nat) : Bool × RateLimiter :=
  let elapsed : ℚ := ((now - rl.last : Nat) : ℚ) / 1000000000
  let tokens := min (rl.tokens + elapsed * rl.perSec) rl.burst
  if 1 ≤ tokens then
    (true, { rl with last := now, tokens := tokens - 1 })
  else
    (false, { rl with last := now, tokens })

end Atomo.Hub

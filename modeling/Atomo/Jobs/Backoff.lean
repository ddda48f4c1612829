import Atomo.Jobs.Store

/-!
# The backoff

`backoff_secs` in the arithmetic of its own words, where a subtraction below zero and a shift of all the bits are
errors, and a product that is too large is the largest word. Nothing of it overflows and the delay is that of the store
(`backoffSecs_toNat`), which never decreases with the attempts. It is the power of two that the comment promises as long
as the shift is not cut, or where the cut makes no difference (`documented_iff`); with the constants of the store it
always is (`decideOnFail_delay`).
-/

namespace Atomo.Jobs

/-! ## The delay in exact numbers -/

/-- The delay of the comment, `base · 2^(attempts - 1)` under the cap. -/
def documentedSecs (attempts baseSecs capSecs : Nat) : Nat :=
  min capSecs (baseSecs * 2 ^ (attempts - 1))

section

variable {attempts later base cap : Nat}

/-- The first attempt is the shift by nothing. -/
theorem backoffSecs_eq (hcap : cap < 2 ^ 64) :
    backoffSecs attempts base cap = min cap (base * 2 ^ min (attempts - 1) 20) := by
  unfold backoffSecs saturatingMul
  split
  · rename_i hfirst
    rw [Nat.sub_eq_zero_of_le hfirst, Nat.zero_min, Nat.pow_zero, Nat.mul_one, Nat.min_comm]
  · dsimp only
    generalize base * 2 ^ min (attempts - 1) 20 = product
    omega

theorem backoffSecs_mono (hcap : cap < 2 ^ 64) (h : attempts ≤ later) :
    backoffSecs attempts base cap ≤ backoffSecs later base cap := by
  have hshift : 2 ^ min (attempts - 1) 20 ≤ 2 ^ min (later - 1) 20 :=
    Nat.pow_le_pow_right (by omega) (by omega)
  have hproduct := Nat.mul_le_mul_left base hshift
  rw [backoffSecs_eq hcap, backoffSecs_eq hcap]
  exact Nat.le_min.2 ⟨Nat.min_le_left .., Nat.le_trans (Nat.min_le_right ..) hproduct⟩

/-- Past the cut the power goes on and the shift does not. -/
theorem backoffSecs_documented_iff (hcap : cap < 2 ^ 64) :
    backoffSecs attempts base cap = documentedSecs attempts base cap ↔
      attempts ≤ 21 ∨ cap ≤ base * 2 ^ 20 ∨ base = 0 := by
  rw [backoffSecs_eq hcap]
  unfold documentedSecs
  by_cases hcut : attempts ≤ 21
  · simp only [hcut, true_or, iff_true]
    rw [Nat.min_eq_left (by omega : attempts - 1 ≤ 20)]
  · rw [Nat.min_eq_right (by omega : 20 ≤ attempts - 1)]
    by_cases hbase : base = 0
    · simp [hbase]
    · have hpower : 2 ^ 21 ≤ 2 ^ (attempts - 1) := Nat.pow_le_pow_right (by omega) (by omega)
      have hproduct := Nat.mul_le_mul_left base hpower
      generalize base * 2 ^ (attempts - 1) = product at hproduct ⊢
      omega

end

/-- A retry of the store waits for as long as the comment says. -/
theorem decideOnFail_delay {attempts maxAttempts delay : Nat} {retryable : Bool}
    (h : decideOnFail attempts maxAttempts retryable defaultBaseBackoffSecs defaultCapBackoffSecs = .retry delay) :
    delay = documentedSecs attempts defaultBaseBackoffSecs defaultCapBackoffSecs := by
  unfold decideOnFail at h
  split at h
  · cases h
  · cases h
    exact (backoffSecs_documented_iff (by decide)).2 (.inr (.inl (by decide)))

/-! ## The words -/

namespace Word

/-- `-` of `u32`. -/
def sub (a b : UInt32) : Option UInt32 :=
  if b ≤ a then some (a - b) else none

/-- `<<` of `u64`. -/
def shl (a : UInt64) (shift : UInt32) : Option UInt64 :=
  if shift < 64 then some (a <<< shift.toUInt64) else none

/-- `u64::saturating_mul`. -/
def saturatingMul (a b : UInt64) : UInt64 :=
  if a.toNat * b.toNat < 2 ^ 64 then a * b else .ofNat (2 ^ 64 - 1)

/-- `backoff_secs`. -/
def backoffSecs (attempts : UInt32) (baseSecs capSecs : UInt64) : Option UInt64 := do
  if attempts ≤ 1 then
    return min baseSecs capSecs
  let shift := min (← sub attempts 1) 20
  return min (saturatingMul baseSecs (← shl 1 shift)) capSecs

theorem saturatingMul_toNat (a b : UInt64) :
    (saturatingMul a b).toNat = min (a.toNat * b.toNat) (2 ^ 64 - 1) := by
  unfold saturatingMul
  split
  · rename_i hfits
    rw [UInt64.toNat_mul, Nat.mod_eq_of_lt hfits]
    omega
  · rename_i hlarge
    rw [UInt64.toNat_ofNat_of_lt' (by decide)]
    omega

/-- A one that is shifted by less than all the bits is a power of two. -/
theorem shl_one {shift : UInt32} (h : shift.toNat ≤ 20) :
    ∃ power, shl 1 shift = some power ∧ power.toNat = 2 ^ shift.toNat := by
  have hshift : shift < 64 := UInt32.lt_iff_toNat_lt.2 (by simp only [UInt32.reduceToNat]; omega)
  have hsmall : 2 ^ shift.toNat < 2 ^ 64 := Nat.pow_lt_pow_right (by omega) (by omega)
  refine ⟨1 <<< shift.toUInt64, if_pos hshift, ?_⟩
  rw [UInt64.toNat_shiftLeft, UInt32.toNat_toUInt64, Nat.mod_eq_of_lt (by omega : shift.toNat < 64)]
  simp only [UInt64.toNat_one, Nat.one_shiftLeft]
  exact Nat.mod_eq_of_lt hsmall

/-- Nothing overflows, and the delay is that of the exact numbers. -/
theorem backoffSecs_toNat (attempts : UInt32) (base cap : UInt64) :
    ∃ secs, backoffSecs attempts base cap = some secs ∧
      secs.toNat = Jobs.backoffSecs attempts.toNat base.toNat cap.toNat := by
  have hone : attempts ≤ 1 ↔ attempts.toNat ≤ 1 := UInt32.le_iff_toNat_le
  unfold backoffSecs Jobs.backoffSecs
  by_cases hfirst : attempts ≤ 1
  · rw [if_pos hfirst, if_pos (hone.1 hfirst)]
    exact ⟨_, rfl, UInt64.toNat_min base cap⟩
  · have hsub : sub attempts 1 = some (attempts - 1) :=
      if_pos (UInt32.le_of_lt (UInt32.not_le.1 hfirst))
    have hcount : (attempts - 1).toNat = attempts.toNat - 1 := by
      rw [UInt32.toNat_sub_of_le _ _ (UInt32.le_of_lt (UInt32.not_le.1 hfirst)), UInt32.toNat_one]
    have hshift : (min (attempts - 1) 20).toNat = min (attempts.toNat - 1) 20 := by
      rw [UInt32.toNat_min, hcount]
      rfl
    have hsmall : (min (attempts - 1) 20).toNat ≤ 20 := by omega
    obtain ⟨power, hshl, hpower⟩ := shl_one hsmall
    rw [if_neg hfirst, if_neg (hfirst ∘ hone.2), hsub]
    simp only [Option.pure_def, Option.bind_eq_bind, Option.bind_some, hshl]
    refine ⟨_, rfl, ?_⟩
    rw [UInt64.toNat_min, saturatingMul_toNat, hpower, hshift]
    rfl

/-- What is said of the backoff: nothing overflows, and the delay is the documented one, which the cap bounds and which
later attempts never shorten. Where the product is too large for a word it is the cap. -/
structure Documented (attempts : UInt32) (base cap : UInt64) : Prop where
  delay : ∃ secs, backoffSecs attempts base cap = some secs ∧
    secs.toNat = documentedSecs attempts.toNat base.toNat cap.toNat
  nondecreasing : ∀ later, attempts ≤ later → ∀ secs ∈ backoffSecs attempts base cap,
    ∀ secs' ∈ backoffSecs later base cap, secs ≤ secs'
  capped : ∀ secs ∈ backoffSecs attempts base cap, secs ≤ cap
  saturated : 2 ^ 64 ≤ base.toNat * 2 ^ (attempts.toNat - 1) → backoffSecs attempts base cap = some cap

section

variable {attempts later : UInt32} {base cap secs secs' : UInt64}

theorem toNat_of_backoffSecs (h : secs ∈ backoffSecs attempts base cap) :
    secs.toNat = Jobs.backoffSecs attempts.toNat base.toNat cap.toNat := by
  obtain ⟨secs', hsecs, hdelay⟩ := backoffSecs_toNat attempts base cap
  cases hsecs.symm.trans h
  exact hdelay

theorem backoffSecs_mono (h : attempts ≤ later) (hsecs : secs ∈ backoffSecs attempts base cap)
    (hsecs' : secs' ∈ backoffSecs later base cap) : secs ≤ secs' := by
  rw [UInt64.le_iff_toNat_le, toNat_of_backoffSecs hsecs, toNat_of_backoffSecs hsecs']
  exact Jobs.backoffSecs_mono cap.toNat_lt (UInt32.le_iff_toNat_le.1 h)

theorem backoffSecs_le_cap (h : secs ∈ backoffSecs attempts base cap) : secs ≤ cap := by
  rw [UInt64.le_iff_toNat_le, toNat_of_backoffSecs h, Jobs.backoffSecs_eq cap.toNat_lt]
  exact Nat.min_le_left ..

end

/-- The backoff is the documented one exactly where the shift is not cut, where the cut shift reaches the cap, and where
there is nothing to shift. -/
theorem documented_iff (attempts : UInt32) (base cap : UInt64) :
    Documented attempts base cap ↔ attempts.toNat ≤ 21 ∨ cap.toNat ≤ base.toNat * 2 ^ 20 ∨ base = 0 := by
  have hzero : base = 0 ↔ base.toNat = 0 := UInt64.toNat_inj.symm
  rw [hzero, ← backoffSecs_documented_iff cap.toNat_lt]
  constructor
  · intro h
    obtain ⟨secs, hsecs, hdelay⟩ := h.delay
    exact (toNat_of_backoffSecs hsecs).symm.trans hdelay
  · intro h
    obtain ⟨secs, hsecs, hdelay⟩ := backoffSecs_toNat attempts base cap
    rw [h] at hdelay
    refine ⟨⟨secs, hsecs, hdelay⟩, fun _ hlater _ hnow _ hthen => backoffSecs_mono hlater hnow hthen,
      fun _ hnow => backoffSecs_le_cap hnow, fun hlarge => ?_⟩
    have hcap : secs.toNat = cap.toNat := by
      have hword := cap.toNat_lt
      rw [hdelay]
      exact Nat.min_eq_left (by omega)
    rw [hsecs, UInt64.toNat_inj.1 hcap]

/-- The twenty-second failure waits for half of what the comment says. -/
theorem backoff_cut : ¬ ∀ (attempts : UInt32) (base cap : UInt64), Documented attempts base cap := by
  intro h
  obtain ⟨secs, hsecs, hdelay⟩ := (h 22 1 (2 ^ 21)).delay
  have hcut : backoffSecs 22 1 (2 ^ 21) = some (2 ^ 20) := by decide
  cases hcut.symm.trans hsecs
  revert hdelay
  decide

end Word

end Atomo.Jobs

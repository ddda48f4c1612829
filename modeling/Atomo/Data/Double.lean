import Atomo.Data.Json
import Mathlib.Algebra.Order.Field.Rat
import Mathlib.Tactic.Linarith

/-!
# Integers as doubles

`Number::as_f64` of an integer rounds to 53 bits, to an even significand where two are as near. It
keeps the order: of two integers the greater never becomes the smaller double.
-/

namespace Atomo

/-- The multiple of `unit` nearest to `n`, the even one where two are as near. -/
def roundEven (unit n : Nat) : Nat :=
  if 2 * (n % unit) < unit ∨ (2 * (n % unit) = unit ∧ n / unit % 2 = 0) then n / unit * unit
  else (n / unit + 1) * unit

theorem le_roundEven (unit n : Nat) : n / unit * unit ≤ roundEven unit n := by
  unfold roundEven
  split
  · exact Nat.le_refl _
  · exact Nat.mul_le_mul_right unit (Nat.le_succ _)

theorem roundEven_le (unit n : Nat) : roundEven unit n ≤ (n / unit + 1) * unit := by
  unfold roundEven
  split
  · exact Nat.mul_le_mul_right unit (Nat.le_succ _)
  · exact Nat.le_refl _

theorem roundEven_mono {unit m n : Nat} (h : m ≤ n) : roundEven unit m ≤ roundEven unit n := by
  cases Nat.lt_or_eq_of_le (Nat.div_le_div_right (c := unit) h) with
  | inl hlt =>
    calc roundEven unit m ≤ (m / unit + 1) * unit := roundEven_le unit m
      _ ≤ n / unit * unit := Nat.mul_le_mul_right unit hlt
      _ ≤ roundEven unit n := le_roundEven unit n
  | inr heq =>
    -- the quotients are the same, so the order is that of the remainders
    have hm := Nat.div_add_mod m unit
    have hn := Nat.div_add_mod n unit
    unfold roundEven
    rw [heq] at hm ⊢
    split
    · split
      · exact Nat.le_refl _
      · exact Nat.mul_le_mul_right unit (Nat.le_succ _)
    · rw [if_neg]
      omega

theorem doubleOfNat_eq (n : Nat) : doubleOfNat n = (roundEven (2 ^ (n.log2 - 52)) n : Nat) := by
  unfold doubleOfNat roundEven
  rw [Nat.cast_ite]
  push_cast
  rfl

@[simp] theorem doubleOfNat_zero : doubleOfNat 0 = 0 := by
  decide +kernel

theorem doubleOfNat_nonneg (n : Nat) : 0 ≤ doubleOfNat n := by
  rw [doubleOfNat_eq]
  exact Nat.cast_nonneg _

/-- Rounding does not pass the next power of two. -/
theorem doubleOfNat_le_pow (n : Nat) : doubleOfNat n ≤ ((2 ^ (n.log2 + 1) : Nat) : ℚ) := by
  rw [doubleOfNat_eq, Nat.cast_le]
  refine (roundEven_le _ n).trans ?_
  obtain ⟨k, hk⟩ := Nat.pow_dvd_pow 2 (show n.log2 - 52 ≤ n.log2 + 1 by omega)
  rw [hk, Nat.mul_comm _ k]
  apply Nat.mul_le_mul_right
  apply Nat.succ_le_of_lt
  apply Nat.div_lt_of_lt_mul
  rw [← hk]
  exact Nat.lt_log2_self

theorem pow_le_doubleOfNat {n : Nat} (h : n ≠ 0) : ((2 ^ n.log2 : Nat) : ℚ) ≤ doubleOfNat n := by
  rw [doubleOfNat_eq, Nat.cast_le]
  refine le_trans ?_ (le_roundEven _ n)
  obtain ⟨k, hk⟩ := Nat.pow_dvd_pow 2 (show n.log2 - 52 ≤ n.log2 by omega)
  rw [hk, Nat.mul_comm _ k]
  apply Nat.mul_le_mul_right
  rw [Nat.le_div_iff_mul_le (Nat.two_pow_pos _), Nat.mul_comm, ← hk]
  exact Nat.log2_self_le h

theorem doubleOfNat_mono {m n : Nat} (h : m ≤ n) : doubleOfNat m ≤ doubleOfNat n := by
  by_cases hm : m = 0
  · rw [hm, doubleOfNat_zero]
    exact doubleOfNat_nonneg n
  have hn : n ≠ 0 := by omega
  have hlog : m.log2 ≤ n.log2 := (Nat.le_log2 hn).2 ((Nat.log2_self_le hm).trans h)
  cases Nat.lt_or_eq_of_le hlog with
  | inl hlt =>
    refine (doubleOfNat_le_pow m).trans (le_trans ?_ (pow_le_doubleOfNat hn))
    exact Nat.cast_le.2 (Nat.pow_le_pow_right (by omega) hlt)
  | inr heq =>
    rw [doubleOfNat_eq, doubleOfNat_eq, heq, Nat.cast_le]
    exact roundEven_mono h

/-- The double nearest to an integer. -/
def doubleOfInt (i : Int) : ℚ :=
  if i < 0 then -doubleOfNat (-i).toNat else doubleOfNat i.toNat

theorem doubleOfInt_natCast (n : Nat) : doubleOfInt n = doubleOfNat n := by
  unfold doubleOfInt
  rw [if_neg (by omega), Int.toNat_natCast]

theorem doubleOfInt_mono {i j : Int} (h : i ≤ j) : doubleOfInt i ≤ doubleOfInt j := by
  unfold doubleOfInt
  split
  · split
    · exact neg_le_neg (doubleOfNat_mono (by omega))
    · exact (neg_nonpos.2 (doubleOfNat_nonneg _)).trans (doubleOfNat_nonneg _)
  · rw [if_neg (by omega)]
    exact doubleOfNat_mono (by omega)

theorem Number.asF64_ofInt (i : Int64) : (Number.ofInt i.toInt).asF64 = doubleOfInt i.toInt := by
  have hmin := i.le_toInt
  have hmax := i.toInt_lt
  unfold Number.ofInt doubleOfInt
  by_cases h : 0 ≤ i.toInt
  · have hsize : i.toInt.toNat < 2 ^ 64 := by omega
    rw [if_pos h, if_neg (by omega), Number.asF64, UInt64.toNat_ofNat_of_lt' hsize]
  · have hneg : i.toInt < 0 := by omega
    rw [if_neg h, if_pos hneg, Number.asF64, Int64.ofInt_toInt, if_pos hneg]

end Atomo

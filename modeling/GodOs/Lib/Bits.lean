import Mathlib

/-!
# Bit fields of natural numbers

Masks, shifts and alignment of machine words, restated as division and
remainder so that linear arithmetic can finish a proof.
-/

namespace Lib.Bits

/-- A mask of `width` bits from bit `low` selects that field in place. -/
theorem and_field (word low width : Nat) :
    word &&& ((2 ^ width - 1) * 2 ^ low) = word / 2 ^ low % 2 ^ width * 2 ^ low := by
  apply Nat.eq_of_testBit_eq
  intro bit
  rw [Nat.testBit_and, Nat.testBit_mul_two_pow, Nat.testBit_mul_two_pow,
    Nat.testBit_two_pow_sub_one, Nat.testBit_mod_two_pow, Nat.testBit_div_two_pow]
  by_cases above : low ≤ bit
  · simp only [above, decide_true, Bool.true_and, Nat.sub_add_cancel]
    rw [Bool.and_comm]
  · simp [above]

/-- A mask of the low bits is a remainder. -/
theorem and_low (word width : Nat) : word &&& (2 ^ width - 1) = word % 2 ^ width :=
  Nat.and_two_pow_sub_one_eq_mod word width

/-- A one-bit mask. -/
theorem and_bit (word bit : Nat) : word &&& 2 ^ bit = word / 2 ^ bit % 2 * 2 ^ bit := by
  simpa using and_field word bit 1

/-- A one-bit mask vanishes exactly when the bit is clear. -/
theorem and_bit_eq_zero {word bit : Nat} : word &&& 2 ^ bit = 0 ↔ word / 2 ^ bit % 2 = 0 := by
  rw [and_bit]
  simp

/-- Setting low bits of an aligned word adds them. -/
theorem or_low {word low width : Nat} (aligned : 2 ^ width ∣ word) (small : low < 2 ^ width) :
    word ||| low = word + low := by
  obtain ⟨quotient, rfl⟩ := aligned
  exact (Nat.two_pow_add_eq_or_of_lt small quotient).symm

/-- Clearing the low bits of a word rounds it down to a multiple. -/
theorem align_down {word width size : Nat} (fits : word < 2 ^ (width + size)) :
    word &&& ((2 ^ size - 1) * 2 ^ width) = word / 2 ^ width * 2 ^ width := by
  rw [and_field, Nat.mod_eq_of_lt]
  exact Nat.div_lt_of_lt_mul (by rwa [← pow_add])

end Lib.Bits

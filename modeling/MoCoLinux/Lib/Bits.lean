import Mathlib.Algebra.Group.Nat.Defs
import Mathlib.Data.Nat.Bitwise

/-!
# Masks
-/

namespace Bits

theorem and_highMask {a w s : Nat} (h : a < 2 ^ w) : a &&& (2 ^ (w - s) - 1) <<< s = a / 2 ^ s * 2 ^ s := by
  have hr : a / 2 ^ s * 2 ^ s = (a >>> s) <<< s := by rw [Nat.shiftLeft_eq, Nat.shiftRight_eq_div_pow]
  rw [hr]
  refine Nat.eq_of_testBit_eq fun i => ?_
  rw [Nat.testBit_and, Nat.testBit_shiftLeft, Nat.testBit_shiftLeft, Nat.testBit_shiftRight,
    Nat.testBit_two_pow_sub_one]
  by_cases hi : s ≤ i
  · by_cases hw : i < w
    · simp [hi, Nat.add_sub_cancel' hi]
      omega
    · have hhigh : a.testBit i = false :=
        Nat.testBit_lt_two_pow (Nat.lt_of_lt_of_le h (Nat.pow_le_pow_right (by decide) (by omega)))
      simp [hi, Nat.add_sub_cancel' hi, hhigh]
  · simp [hi]

theorem or_shiftLeft {a b i : Nat} (h : b < 2 ^ i) : b ||| a <<< i = b + a * 2 ^ i := by
  rw [Nat.or_comm, ← Nat.shiftLeft_add_eq_or_of_lt h, Nat.add_comm, Nat.shiftLeft_eq]

end Bits

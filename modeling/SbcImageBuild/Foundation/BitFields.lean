import Mathlib.Algebra.Group.Nat.Defs
import Mathlib.Tactic.Common

/-!
# Bit fields

Words that are put together from fields at fixed places, and the fields read back.
-/
namespace BitFields

/-- The `n` bits of a word from bit `lo` on. -/
def field (lo n w : ℕ) : ℕ := w >>> lo &&& 2 ^ n - 1

theorem testBit_field (lo n w i : ℕ) :
    (field lo n w).testBit i = (w.testBit (lo + i) && decide (i < n)) := by
  simp [field, Nat.testBit_mod_two_pow, Bool.and_comm]

theorem field_lt (lo n w : ℕ) : field lo n w < 2 ^ n := by
  rw [field, Nat.and_two_pow_sub_one_eq_mod]
  exact Nat.mod_lt _ (Nat.two_pow_pos n)

/-- Fields are read one by one from the words that are combined. -/
@[simp] theorem field_or (lo n v w : ℕ) : field lo n (v ||| w) = field lo n v ||| field lo n w := by
  apply Nat.eq_of_testBit_eq
  intro i
  simp only [testBit_field, Nat.testBit_or, Bool.and_or_distrib_right]

/-- A field that is put at its place is read there, cut to its width. -/
theorem field_shiftLeft_self (lo n v : ℕ) : field lo n (v <<< lo) = v % 2 ^ n := by
  rw [field, Nat.and_two_pow_sub_one_eq_mod, Nat.shiftLeft_shiftRight]

theorem field_shiftLeft_of_lt {lo n v : ℕ} (h : v < 2 ^ n) : field lo n (v <<< lo) = v := by
  rw [field_shiftLeft_self, Nat.mod_eq_of_lt h]

/-- Nothing is read below the place of a field. -/
theorem field_shiftLeft_above {lo n k : ℕ} (v : ℕ) (h : lo + n ≤ k) :
    field lo n (v <<< k) = 0 := by
  apply Nat.eq_of_testBit_eq
  intro i
  rw [testBit_field, Nat.testBit_shiftLeft, Nat.zero_testBit]
  by_cases hi : i < n
  · simp [show ¬ k ≤ lo + i by omega]
  · simp [hi]

/-- Nothing is read above a field that keeps to its width. -/
theorem field_of_lt {lo n v m : ℕ} (h : v < 2 ^ m) (hm : m ≤ lo) : field lo n v = 0 := by
  apply Nat.eq_of_testBit_eq
  intro i
  have hsmall : v < 2 ^ (lo + i) :=
    Nat.lt_of_lt_of_le h (Nat.pow_le_pow_right (by omega) (by omega))
  rw [testBit_field, Nat.testBit_lt_two_pow hsmall, Nat.zero_testBit, Bool.false_and]

theorem field_shiftLeft_below {lo n k v m : ℕ} (h : v < 2 ^ m) (hk : k + m ≤ lo) :
    field lo n (v <<< k) = 0 := by
  refine field_of_lt (m := k + m) ?_ hk
  rw [Nat.shiftLeft_eq, Nat.pow_add, Nat.mul_comm]
  exact Nat.mul_lt_mul_of_pos_left h (Nat.two_pow_pos k)

theorem field_zero_of_lt {n v : ℕ} (h : v < 2 ^ n) : field 0 n v = v := by
  have hshift : field 0 n (v <<< 0) = v := field_shiftLeft_of_lt h
  rwa [Nat.shiftLeft_zero] at hshift

/-- A word cut to its width keeps the fields inside. -/
theorem field_mod {lo n m : ℕ} (w : ℕ) (h : lo + n ≤ m) :
    field lo n (w % 2 ^ m) = field lo n w := by
  apply Nat.eq_of_testBit_eq
  intro i
  rw [testBit_field, testBit_field, Nat.testBit_mod_two_pow]
  by_cases hi : i < n
  · simp [hi, show lo + i < m by omega]
  · simp [hi]

end BitFields

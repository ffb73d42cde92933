import Mathlib.Algebra.Order.Ring.Int
import Mathlib.Tactic.Ring
import Mathlib.Tactic.Linarith

/-!
# Signed machine words

The value a register of `w + 1` bits holds after an operation whose exact result is an integer.
-/
namespace SignedWord

/-- The representative of `n` between `-2 ^ w` and `2 ^ w`. -/
def wrap (w : ℕ) (n : ℤ) : ℤ := n.bmod (2 ^ (w + 1))

theorem wrap_eq_iff {w : ℕ} {n m : ℤ} :
    wrap w n = m ↔ -2 ^ w ≤ m ∧ m < 2 ^ w ∧ (2 ^ (w + 1) : ℤ) ∣ n - m := by
  have hpos : 0 < 2 ^ (w + 1) := Nat.two_pow_pos _
  have half : ((2 ^ (w + 1) : ℕ) : ℤ) = 2 * 2 ^ w := by push_cast; ring
  rw [wrap, Int.bmod_eq_iff hpos, half, show (2 ^ (w + 1) : ℤ) = 2 * 2 ^ w by ring]
  generalize (2 ^ w : ℤ) = k
  constructor
  · intro ⟨low, high, k, hk⟩
    exact ⟨by omega, by omega, -k, by linarith⟩
  · intro ⟨low, high, k, hk⟩
    exact ⟨by omega, by omega, -k, by linarith⟩

theorem wrap_bounds (w : ℕ) (n : ℤ) : -2 ^ w ≤ wrap w n ∧ wrap w n < 2 ^ w :=
  have h := wrap_eq_iff.mp (rfl : wrap w n = wrap w n)
  ⟨h.1, h.2.1⟩

/-- A result in range is exact. -/
theorem wrap_of_fits {w : ℕ} {n : ℤ} (low : -2 ^ w ≤ n) (high : n < 2 ^ w) : wrap w n = n :=
  wrap_eq_iff.mpr ⟨low, high, by simp⟩

theorem wrap_eq_self_iff {w : ℕ} {n : ℤ} : wrap w n = n ↔ -2 ^ w ≤ n ∧ n < 2 ^ w := by
  rw [wrap_eq_iff]
  simp

/-! Intermediate results may overflow: only the last one has to be in range. -/

@[simp] theorem wrap_wrap (w : ℕ) (n : ℤ) : wrap w (wrap w n) = wrap w n := Int.bmod_bmod

@[simp] theorem wrap_add_left (w : ℕ) (n m : ℤ) : wrap w (wrap w n + m) = wrap w (n + m) :=
  Int.bmod_add_bmod

@[simp] theorem wrap_add_right (w : ℕ) (n m : ℤ) : wrap w (n + wrap w m) = wrap w (n + m) :=
  Int.add_bmod_bmod

@[simp] theorem wrap_sub_left (w : ℕ) (n m : ℤ) : wrap w (wrap w n - m) = wrap w (n - m) :=
  Int.bmod_sub_bmod

@[simp] theorem wrap_sub_right (w : ℕ) (n m : ℤ) : wrap w (n - wrap w m) = wrap w (n - m) :=
  Int.sub_bmod_bmod

@[simp] theorem wrap_mul_left (w : ℕ) (n m : ℤ) : wrap w (wrap w n * m) = wrap w (n * m) :=
  Int.bmod_mul_bmod

attribute [irreducible] wrap

end SignedWord

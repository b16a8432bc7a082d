import Mathlib.Data.Nat.Bitwise

/-! # Intervals and common prefixes

Which bits are fixed over an interval of naturals: those above the highest bit
in which the two ends differ. The number just below the midpoint of the block
and the midpoint itself show that every bit from there down takes both values.
-/

namespace Exoverifier.Library

variable {n x y v : ℕ}

theorem div_two_pow_congr (h : ∀ i, n ≤ i → x.testBit i = y.testBit i) :
    x / 2 ^ n = y / 2 ^ n := by
  refine Nat.eq_of_testBit_eq fun i => ?_
  rw [Nat.testBit_div_two_pow, Nat.testBit_div_two_pow]
  exact h _ (by omega)

theorem testBit_congr_of_div (h : x / 2 ^ n = y / 2 ^ n) {i : ℕ} (hi : n ≤ i) :
    x.testBit i = y.testBit i := by
  obtain ⟨k, rfl⟩ := Nat.exists_eq_add_of_le hi
  rw [Nat.add_comm, ← Nat.testBit_div_two_pow, ← Nat.testBit_div_two_pow, h]

/-- Between two numbers with a common prefix every number has that prefix. -/
theorem testBit_of_between (h : x / 2 ^ n = y / 2 ^ n) (hx : x ≤ v) (hy : v ≤ y) {i : ℕ}
    (hi : n ≤ i) : v.testBit i = x.testBit i := by
  have hlow : x / 2 ^ n ≤ v / 2 ^ n := Nat.div_le_div_right hx
  have hhigh : v / 2 ^ n ≤ y / 2 ^ n := Nat.div_le_div_right hy
  exact testBit_congr_of_div (by omega) hi

theorem mod_two_pow_succ_eq (x n : ℕ) :
    x % 2 ^ (n + 1) = x % 2 ^ n + 2 ^ n * (x.testBit n).toNat := by
  rw [Nat.toNat_testBit, pow_succ, Nat.mod_mul]

/-- Below and at the highest differing bit both values of a bit occur. -/
theorem exists_between_testBit (hcommon : x / 2 ^ (n + 1) = y / 2 ^ (n + 1))
    (hx : x.testBit n = false) (hy : y.testBit n = true) {i : ℕ} (hi : i ≤ n) (b : Bool) :
    ∃ v, x ≤ v ∧ v ≤ y ∧ v.testBit i = b := by
  have hpos : 0 < 2 ^ n := Nat.two_pow_pos n
  have hsucc : 2 ^ (n + 1) = 2 ^ n + 2 ^ n := by rw [pow_succ, Nat.mul_two]
  have hxmod := mod_two_pow_succ_eq x n
  have hymod := mod_two_pow_succ_eq y n
  have hxlow : x % 2 ^ n < 2 ^ n := Nat.mod_lt _ hpos
  have hxdiv := Nat.div_add_mod x (2 ^ (n + 1))
  have hydiv := Nat.div_add_mod y (2 ^ (n + 1))
  rw [hx, Bool.toNat_false, Nat.mul_zero] at hxmod
  rw [hy, Bool.toNat_true, Nat.mul_one] at hymod
  rw [hcommon] at hxdiv
  generalize hP : 2 ^ (n + 1) * (y / 2 ^ (n + 1)) = P at hxdiv hydiv
  -- `low` ends in a zero and ones, `high` in a one and zeros
  have hlow : (P + (2 ^ n - 1)).testBit i = decide (i < n) := by
    rw [← hP, Nat.testBit_two_pow_mul_add _ (by omega), if_pos (by omega),
      Nat.testBit_two_pow_sub_one]
  have hhigh : (P + 2 ^ n).testBit i = decide (n = i) := by
    rw [← hP, Nat.testBit_two_pow_mul_add _ (by omega), if_pos (by omega), Nat.testBit_two_pow]
  by_cases hb : decide (i < n) = b
  · exact ⟨P + (2 ^ n - 1), by omega, by omega, hlow.trans hb⟩
  · refine ⟨P + 2 ^ n, by omega, by omega, hhigh.trans ?_⟩
    have hcompl : decide (n = i) = !decide (i < n) := by
      rw [← decide_not]
      exact decide_eq_decide.2 (by omega)
    rw [hcompl]
    exact (Bool.eq_not_of_ne (Ne.symm hb)).symm

end Exoverifier.Library

import Mathlib.Data.List.Forall2
import Mathlib.Data.Nat.Bitwise

/-! # Numerals

A list spells a number when its entries, lowest first, stand in a given relation
to the bits of the number and there are no further bits. What the relation is
does not matter here; for circuits it says which value an expression has.
-/

namespace Exoverifier.Library

variable {β : Type} {R : β → Bool → Prop}

/-- The entries of the list relate to the bits of the number, lowest first. -/
def Spells (R : β → Bool → Prop) : List β → ℕ → Prop
  | [], x => x = 0
  | b :: v, x => R b (x.testBit 0) ∧ Spells R v (x / 2)

/-! ## Halves -/

theorem mod_two_pow_succ_div (x n : ℕ) : x % 2 ^ (n + 1) / 2 = x / 2 % 2 ^ n := by
  rw [Nat.pow_succ', Nat.mod_mul_right_div_self]

theorem testBit_zero_mod (x n : ℕ) : (x % 2 ^ (n + 1)).testBit 0 = x.testBit 0 := by
  rw [Nat.testBit_mod_two_pow]
  simp

theorem testBit_zero_eq_toNat (x : ℕ) : (x.testBit 0).toNat = x % 2 := by
  rw [Nat.testBit_zero]
  cases Nat.mod_two_eq_zero_or_one x with
  | inl h => simp [h]
  | inr h => simp [h]

/-- One full adder at the lowest bits adds the halves up to half of the sum. -/
theorem half_add_carry (x y : ℕ) (c : Bool) :
    (x + y + c.toNat).testBit 0 = (x.testBit 0 ^^ y.testBit 0 ^^ c) ∧
      x / 2 + y / 2 + (Bool.atLeastTwo (x.testBit 0) (y.testBit 0) c).toNat =
        (x + y + c.toNat) / 2 := by
  rw [Nat.testBit_zero, Nat.testBit_zero, Nat.testBit_zero]
  constructor
  · cases Nat.mod_two_eq_zero_or_one x <;> cases Nat.mod_two_eq_zero_or_one y <;>
      cases c <;> simp [*, Nat.add_mod]
  · cases Nat.mod_two_eq_zero_or_one x <;> cases Nat.mod_two_eq_zero_or_one y <;>
      cases c <;> simp [*, Bool.atLeastTwo] <;> omega

/-! ## Spelling -/

theorem spells_cons {b : β} {v : List β} {r : Bool} {y : ℕ} (hb : R b r) (hv : Spells R v y) :
    Spells R (b :: v) (2 * y + r.toNat) := by
  constructor
  · have hr : (2 * y + r.toNat).testBit 0 = r := by
      rw [Nat.testBit_zero]
      cases r <;> simp [Nat.add_mod]
    rwa [hr]
  · have hy : (2 * y + r.toNat) / 2 = y := by
      cases r <;> (simp; try omega)
    rwa [hy]

theorem Spells.mono {R' : β → Bool → Prop} {v : List β} {x : ℕ}
    (hR : ∀ b r, R b r → R' b r) (h : Spells R v x) : Spells R' v x := by
  induction v generalizing x with
  | nil => exact h
  | cons b v ih => exact ⟨hR _ _ h.1, ih h.2⟩

theorem Spells.lt {v : List β} {x : ℕ} (h : Spells R v x) : x < 2 ^ v.length := by
  induction v generalizing x with
  | nil => exact h ▸ Nat.one_pos
  | cons b v ih =>
      have hhalf := ih h.2
      rw [List.length_cons, Nat.pow_succ]
      omega

theorem spells_iff {v : List β} {x : ℕ} :
    Spells R v x ↔ x < 2 ^ v.length ∧ ∀ (i : ℕ) (h : i < v.length), R v[i] (x.testBit i) := by
  induction v generalizing x with
  | nil =>
      show x = 0 ↔ x < 1 ∧ _
      simp
  | cons b v ih =>
      have hlt : x < 2 ^ (b :: v).length ↔ x / 2 < 2 ^ v.length := by
        rw [List.length_cons, Nat.pow_succ, Nat.div_lt_iff_lt_mul Nat.two_pos]
      rw [Spells, ih, hlt]
      constructor
      · intro ⟨hb, hx, hv⟩
        refine ⟨hx, fun i hi => ?_⟩
        cases i with
        | zero => exact hb
        | succ i =>
            have h := hv i (Nat.lt_of_succ_lt_succ hi)
            rwa [Nat.testBit_div_two] at h
      · intro ⟨hx, hv⟩
        refine ⟨hv 0 (Nat.succ_pos _), hx, fun i hi => ?_⟩
        rw [Nat.testBit_div_two]
        exact hv (i + 1) (Nat.succ_lt_succ hi)

theorem Spells.append {v w : List β} {x y : ℕ} (hv : Spells R v x) (hw : Spells R w y) :
    Spells R (v ++ w) (x + 2 ^ v.length * y) := by
  induction v generalizing x with
  | nil =>
      rw [show x = 0 from hv]
      simpa using hw
  | cons b v ih =>
      have hpow : x + 2 ^ (b :: v).length * y = x + 2 * (2 ^ v.length * y) := by
        rw [List.length_cons, Nat.pow_succ', Nat.mul_assoc]
      rw [hpow]
      constructor
      · rw [Nat.testBit_zero, Nat.add_mul_mod_self_left, ← Nat.testBit_zero]
        exact hv.1
      · rw [Nat.add_mul_div_left _ _ Nat.two_pos]
        exact ih hv.2

theorem Spells.take {v : List β} {x : ℕ} (h : Spells R v x) (n : ℕ) :
    Spells R (v.take n) (x % 2 ^ n) := by
  induction v generalizing n x with
  | nil =>
      rw [show x = 0 from h, Nat.zero_mod, List.take_nil]
      rfl
  | cons b v ih =>
      cases n with
      | zero => exact Nat.mod_one x
      | succ n =>
          constructor
          · rw [testBit_zero_mod]
            exact h.1
          · rw [mod_two_pow_succ_div]
            exact ih h.2 n

theorem Spells.drop {v : List β} {x : ℕ} (h : Spells R v x) (n : ℕ) :
    Spells R (v.drop n) (x / 2 ^ n) := by
  induction n generalizing v x with
  | zero => simpa using h
  | succ n ih =>
      cases v with
      | nil =>
          rw [show x = 0 from h, Nat.zero_div]
          rfl
      | cons b v =>
          rw [Nat.pow_succ', ← Nat.div_div_eq_div_mul]
          exact ih h.2

theorem Spells.dropLast {v : List β} {x : ℕ} (h : Spells R v x) :
    Spells R v.dropLast (x % 2 ^ (v.length - 1)) := by
  rw [List.dropLast_eq_take]
  exact h.take _

/-- The highest entry belongs to the highest bit. -/
theorem Spells.of_snoc {v : List β} {b : β} {x : ℕ} (h : Spells R (v ++ [b]) x) :
    Spells R v (x % 2 ^ v.length) ∧ R b (x.testBit v.length) := by
  constructor
  · simpa using h.take v.length
  · have hlast := (spells_iff.1 h).2 v.length (by simp)
    simpa using hlast

/-- A list that spells a number relates to a list of bits, all of which are set
or none of which are set exactly at the two ends. -/
theorem Spells.exists_bits {v : List β} {x : ℕ} (h : Spells R v x) :
    ∃ rs, List.Forall₂ R v rs ∧ rs.all id = decide (x + 1 = 2 ^ v.length) ∧
      rs.any id = decide (x ≠ 0) := by
  induction v generalizing x with
  | nil => exact ⟨[], .nil, by simp [show x = 0 from h], by simp [show x = 0 from h]⟩
  | cons b v ih =>
      obtain ⟨rs, hrs, hall, hany⟩ := ih h.2
      refine ⟨x.testBit 0 :: rs, .cons h.1 hrs, ?_, ?_⟩
      · rw [List.all_cons, hall, List.length_cons, Nat.pow_succ, id, Nat.testBit_zero,
          ← Bool.decide_and, decide_eq_decide]
        omega
      · rw [List.any_cons, hany, id, Nat.testBit_zero, ← Bool.decide_or, decide_eq_decide]
        omega

end Exoverifier.Library

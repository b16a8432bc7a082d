import Mathlib.Data.Num.Lemmas

/-! # Counters and hashes

Types whose values are allocated one after the other, and types with a hash that
tells their values apart.
-/

namespace Exoverifier

/-- A linear order that is counted through from an initial element. -/
class Counter (α : Type) extends LinearOrder α where
  toNat : α → ℕ
  init : α
  next : α → α
  toNat_next : ∀ x, toNat (next x) = toNat x + 1
  toNat_init : toNat init = 0
  le_iff_toNat_le : ∀ x y : α, x ≤ y ↔ toNat x ≤ toNat y

namespace Counter

variable {α : Type} [Counter α]

theorem lt_iff_toNat_lt {x y : α} : x < y ↔ toNat x < toNat y := by
  rw [← not_le, le_iff_toNat_le, not_le]

theorem toNat_injective : Function.Injective (toNat : α → ℕ) := by
  intro x y h
  exact le_antisymm ((le_iff_toNat_le x y).2 h.le) ((le_iff_toNat_le y x).2 h.ge)

theorem not_lt_init (x : α) : ¬ x < init := by
  rw [lt_iff_toNat_lt, toNat_init]
  exact Nat.not_lt_zero _

theorem lt_next_iff {x y : α} : x < next y ↔ x < y ∨ x = y := by
  rw [lt_iff_toNat_lt, toNat_next, Nat.lt_succ_iff_lt_or_eq, lt_iff_toNat_lt,
    toNat_injective.eq_iff]

theorem strongInductionOn {p : α → Prop} (n : α) (h : ∀ n, (∀ m, m < n → p m) → p n) : p n := by
  induction hn : toNat n using Nat.strong_induction_on generalizing n with
  | h k ih =>
      subst hn
      exact h n fun m hm => ih (toNat m) (lt_iff_toNat_lt.1 hm) m rfl

end Counter

instance : Counter PosNum where
  toNat x := (x.pred' : ℕ)
  init := 1
  next := PosNum.succ
  toNat_next x := by
    have hpos := PosNum.cast_pos (α := ℕ) x
    rw [PosNum.pred'_to_nat, PosNum.pred'_to_nat, PosNum.succ_to_nat]
    exact (Nat.succ_pred_eq_of_pos hpos).symm
  toNat_init := rfl
  le_iff_toNat_le x y := by
    have hx := PosNum.cast_pos (α := ℕ) x
    have hy := PosNum.cast_pos (α := ℕ) y
    rw [PosNum.pred'_to_nat, PosNum.pred'_to_nat, ← PosNum.cast_le (α := ℕ),
      Nat.pred_eq_sub_one, Nat.pred_eq_sub_one]
    omega

class PerfectHashable (α : Type) where
  hash : α → PosNum
  hash_inj : ∀ {x y : α}, hash x = hash y ↔ x = y

instance : PerfectHashable PosNum where
  hash := id
  hash_inj := Iff.rfl

instance : PerfectHashable Bool where
  hash b := bif b then 1 else 2
  hash_inj {x y} := by cases x <;> cases y <;> decide

end Exoverifier

import Mathlib.Data.BitVec

/-! # Carries of a ripple adder

How the carry into a bit depends on the bits below it: it reads nothing else,
and raising bits of either summand can only raise it. An adder with a carry-in
covers both sums and differences.
-/

namespace Exoverifier.Library

open BitVec

variable {w : ℕ}

/-- The sum of two words and a carry-in. -/
def addCarry (c : Bool) (x y : BitVec w) : BitVec w := x + y + (BitVec.ofBool c).setWidth w

theorem addCarry_false (x y : BitVec w) : addCarry false x y = x + y := by
  simp [addCarry]

/-- Adding a complement with a carry-in subtracts. -/
theorem addCarry_true_not (x y : BitVec w) : addCarry true x (~~~y) = x - y := by
  have hone : (BitVec.ofBool true).setWidth w = 1#w := by
    cases w with
    | zero => exact Subsingleton.elim _ _
    | succ w => simp [BitVec.ofBool]
  rw [addCarry, hone, BitVec.sub_eq_add_neg, BitVec.neg_eq_not_add, BitVec.add_assoc]

theorem getLsbD_addCarry (c : Bool) (x y : BitVec w) {i : ℕ} (hi : i < w) :
    (addCarry c x y).getLsbD i = (x.getLsbD i ^^ (y.getLsbD i ^^ carry i x y c)) :=
  BitVec.getLsbD_add_add_bool hi x y c

/-- The carry into bit `i` reads only the bits below `i`. -/
theorem carry_congr {x x' y y' : BitVec w} (c : Bool) {i : ℕ}
    (hx : ∀ j < i, x.getLsbD j = x'.getLsbD j) (hy : ∀ j < i, y.getLsbD j = y'.getLsbD j) :
    carry i x y c = carry i x' y' c := by
  induction i with
  | zero => simp
  | succ i ih =>
      rw [carry_succ, carry_succ, hx i (by omega), hy i (by omega),
        ih (fun j hj => hx j (by omega)) (fun j hj => hy j (by omega))]

private theorem atLeastTwo_le : ∀ a b c a' b' c' : Bool, (a = true → a' = true) →
    (b = true → b' = true) → (c = true → c' = true) →
    a.atLeastTwo b c = true → a'.atLeastTwo b' c' = true := by
  decide

/-- Raising bits of the summands can only raise a carry. -/
theorem carry_mono {x x' y y' : BitVec w} (c : Bool) {i : ℕ}
    (hx : ∀ j < i, x.getLsbD j = true → x'.getLsbD j = true)
    (hy : ∀ j < i, y.getLsbD j = true → y'.getLsbD j = true) :
    carry i x y c = true → carry i x' y' c = true := by
  induction i with
  | zero => simp
  | succ i ih =>
      rw [carry_succ, carry_succ]
      exact atLeastTwo_le _ _ _ _ _ _ (hx i (by omega)) (hy i (by omega))
        (ih (fun j hj => hx j (by omega)) (fun j hj => hy j (by omega)))

/-- A sum bit whose summand bits are fixed and whose two extreme carries agree
is the same for everything in between. -/
theorem getLsbD_addCarry_of_between {lo lo' x y hi hi' : BitVec w} (c : Bool) {i : ℕ} (h : i < w)
    (hx : ∀ j < i, lo.getLsbD j = true → x.getLsbD j = true)
    (hy : ∀ j < i, lo'.getLsbD j = true → y.getLsbD j = true)
    (hx' : ∀ j < i, x.getLsbD j = true → hi.getLsbD j = true)
    (hy' : ∀ j < i, y.getLsbD j = true → hi'.getLsbD j = true)
    (hxi : x.getLsbD i = lo.getLsbD i) (hyi : y.getLsbD i = lo'.getLsbD i)
    (hhi : hi.getLsbD i = lo.getLsbD i) (hhi' : hi'.getLsbD i = lo'.getLsbD i)
    (hsum : (addCarry c hi hi').getLsbD i = (addCarry c lo lo').getLsbD i) :
    (addCarry c x y).getLsbD i = (addCarry c lo lo').getLsbD i := by
  have hcarry : carry i hi hi' c = carry i lo lo' c := by
    rw [getLsbD_addCarry c _ _ h, getLsbD_addCarry c _ _ h, hhi, hhi'] at hsum
    exact Bool.xor_right_inj.1 (Bool.xor_right_inj.1 hsum)
  have hlow := carry_mono c hx hy
  have hhigh := carry_mono c hx' hy'
  rw [getLsbD_addCarry c _ _ h, getLsbD_addCarry c _ _ h, hxi, hyi]
  rw [hcarry] at hhigh
  have heq : carry i x y c = carry i lo lo' c := Bool.eq_iff_iff.2 ⟨hhigh, hlow⟩
  rw [heq]

/-- Changing only bit `i` of the first summand changes bit `i` of the sum. -/
theorem getLsbD_addCarry_ne {x x' y : BitVec w} (c : Bool) {i : ℕ} (h : i < w)
    (hlow : ∀ j < i, x.getLsbD j = x'.getLsbD j) (hne : x.getLsbD i ≠ x'.getLsbD i) :
    (addCarry c x y).getLsbD i ≠ (addCarry c x' y).getLsbD i := by
  rw [getLsbD_addCarry c _ _ h, getLsbD_addCarry c _ _ h,
    carry_congr c hlow (fun _ _ => rfl)]
  exact fun heq => hne (Bool.xor_left_inj.1 heq)

theorem addCarry_comm (c : Bool) (x y : BitVec w) : addCarry c x y = addCarry c y x := by
  rw [addCarry, addCarry, BitVec.add_comm x y]

end Exoverifier.Library

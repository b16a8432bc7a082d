import Mathlib

/-! # The two orders on words

Unsigned and signed comparisons read through `toNat` and `toInt`, so that a
statement that mixes them becomes linear arithmetic with one case split per
word. The overflow tests are the ones that compare a wrapped result with an
operand.
-/

namespace Exoverifier.Library

variable {w : ℕ}

def bvumin (x y : BitVec w) : BitVec w := if x ≤ y then x else y

def bvumax (x y : BitVec w) : BitVec w := if x ≤ y then y else x

def bvsmin (x y : BitVec w) : BitVec w := if x.sle y then x else y

def bvsmax (x y : BitVec w) : BitVec w := if x.sle y then y else x

/-- The signed value is the unsigned one, or a power of two below it. -/
theorem toInt_cases (x : BitVec w) :
    x.toInt = x.toNat ∧ 2 * x.toNat < 2 ^ w ∨
      x.toInt = x.toNat - ((2 ^ w : ℕ) : ℤ) ∧ 2 ^ w ≤ 2 * x.toNat ∧ x.toNat < 2 ^ w := by
  have hlt := x.isLt
  have hcond := x.toInt_eq_toNat_cond
  split at hcond
  · exact Or.inl ⟨hcond, by omega⟩
  · exact Or.inr ⟨hcond, by omega, hlt⟩

theorem bvumin_cases (x y : BitVec w) :
    bvumin x y = x ∧ x.toNat ≤ y.toNat ∨ bvumin x y = y ∧ y.toNat ≤ x.toNat := by
  by_cases h : x ≤ y
  · exact Or.inl ⟨if_pos h, h⟩
  · have hle : ¬ x.toNat ≤ y.toNat := h
    exact Or.inr ⟨if_neg h, by omega⟩

theorem bvumax_cases (x y : BitVec w) :
    bvumax x y = x ∧ y.toNat ≤ x.toNat ∨ bvumax x y = y ∧ x.toNat ≤ y.toNat := by
  by_cases h : x ≤ y
  · exact Or.inr ⟨if_pos h, h⟩
  · have hle : ¬ x.toNat ≤ y.toNat := h
    exact Or.inl ⟨if_neg h, by omega⟩

theorem bvsmin_cases (x y : BitVec w) :
    bvsmin x y = x ∧ x.toInt ≤ y.toInt ∨ bvsmin x y = y ∧ y.toInt ≤ x.toInt := by
  by_cases h : x.sle y = true
  · exact Or.inl ⟨if_pos h, BitVec.sle_iff_toInt_le.1 h⟩
  · have hle : ¬ x.toInt ≤ y.toInt := fun hxy => h (BitVec.sle_iff_toInt_le.2 hxy)
    exact Or.inr ⟨if_neg h, by omega⟩

theorem bvsmax_cases (x y : BitVec w) :
    bvsmax x y = x ∧ y.toInt ≤ x.toInt ∨ bvsmax x y = y ∧ x.toInt ≤ y.toInt := by
  by_cases h : x.sle y = true
  · exact Or.inr ⟨if_pos h, BitVec.sle_iff_toInt_le.1 h⟩
  · have hle : ¬ x.toInt ≤ y.toInt := fun hxy => h (BitVec.sle_iff_toInt_le.2 hxy)
    exact Or.inl ⟨if_neg h, by omega⟩

@[simp]
theorem toNat_bvumin (x y : BitVec w) : (bvumin x y).toNat = min x.toNat y.toNat := by
  rcases bvumin_cases x y with ⟨h, hle⟩ | ⟨h, hle⟩ <;> rw [h] <;> omega

@[simp]
theorem toNat_bvumax (x y : BitVec w) : (bvumax x y).toNat = max x.toNat y.toNat := by
  rcases bvumax_cases x y with ⟨h, hle⟩ | ⟨h, hle⟩ <;> rw [h] <;> omega

@[simp]
theorem toInt_bvsmin (x y : BitVec w) : (bvsmin x y).toInt = min x.toInt y.toInt := by
  rcases bvsmin_cases x y with ⟨h, hle⟩ | ⟨h, hle⟩ <;> rw [h] <;> omega

@[simp]
theorem toInt_bvsmax (x y : BitVec w) : (bvsmax x y).toInt = max x.toInt y.toInt := by
  rcases bvsmax_cases x y with ⟨h, hle⟩ | ⟨h, hle⟩ <;> rw [h] <;> omega

theorem toNat_add_cases (x y : BitVec w) :
    (x + y).toNat = x.toNat + y.toNat ∧ x.toNat + y.toNat < 2 ^ w ∨
      (x + y).toNat + 2 ^ w = x.toNat + y.toNat := by
  have hx := x.isLt
  have hy := y.isLt
  rw [BitVec.toNat_add]
  by_cases h : x.toNat + y.toNat < 2 ^ w
  · exact Or.inl ⟨Nat.mod_eq_of_lt h, h⟩
  · refine Or.inr ?_
    rw [Nat.mod_eq_sub_mod (by omega), Nat.mod_eq_of_lt (by omega)]
    omega

theorem toNat_sub_cases (x y : BitVec w) :
    (x - y).toNat + y.toNat = x.toNat ∨ (x - y).toNat + y.toNat = x.toNat + 2 ^ w := by
  have hadd := toNat_add_cases (x - y) y
  rw [BitVec.sub_add_cancel] at hadd
  omega

/-! ## Comparison bit by bit -/

theorem toNat_le_of_bits {x y : BitVec w}
    (h : ∀ i < w, x.getLsbD i = true → y.getLsbD i = true) : x.toNat ≤ y.toNat := by
  have hand : x &&& y = x := by
    refine BitVec.eq_of_getLsbD_eq fun i hi => ?_
    rw [BitVec.getLsbD_and]
    cases hx : x.getLsbD i with
    | true => rw [h i hi hx, Bool.and_self]
    | false => exact Bool.false_and _
  calc
    x.toNat = (x &&& y).toNat := by rw [hand]
    _ = x.toNat &&& y.toNat := BitVec.toNat_and x y
    _ ≤ y.toNat := Nat.and_le_right

theorem msb_eq_true_iff_toNat (x : BitVec w) (hw : 0 < w) : x.msb = true ↔ 2 ^ w ≤ 2 * x.toNat := by
  rw [BitVec.msb_eq_decide, decide_eq_true_iff]
  have hpow : 2 ^ w = 2 * 2 ^ (w - 1) := by rw [← pow_succ', Nat.sub_add_cancel hw]
  omega

theorem toInt_nonneg_iff (x : BitVec w) : 0 ≤ x.toInt ↔ x.msb = false := by
  rw [BitVec.msb_eq_toInt, decide_eq_false_iff_not]
  omega

/-- In the signed order a larger sign bit is smaller and the other bits compare
as they do in the unsigned order. -/
theorem toInt_le_of_bits {x y : BitVec w} (hmsb : y.msb = true → x.msb = true)
    (h : ∀ i < w - 1, x.getLsbD i = true → y.getLsbD i = true) : x.toInt ≤ y.toInt := by
  rcases Nat.eq_zero_or_pos w with rfl | hw
  · rw [BitVec.of_length_zero (x := x), BitVec.of_length_zero (x := y)]
  have hx := toInt_cases x
  have hy := toInt_cases y
  have hxmsb := msb_eq_true_iff_toNat x hw
  have hymsb := msb_eq_true_iff_toNat y hw
  by_cases heq : x.msb = y.msb
  · have hle : x.toNat ≤ y.toNat := by
      refine toNat_le_of_bits fun i hi hxi => ?_
      by_cases hlast : i = w - 1
      · rw [hlast, ← BitVec.msb_eq_getLsbD_last] at hxi ⊢
        rw [← heq, hxi]
      · exact h i (by omega) hxi
    rw [heq] at hxmsb
    have hiff := hxmsb.symm.trans hymsb
    omega
  · have hxt : x.msb = true := by
      cases hv : y.msb with
      | true => exact hmsb hv
      | false =>
          rw [hv] at heq
          exact eq_true_of_ne_false heq
    have hyf : ¬ y.msb = true := by
      intro hyt
      exact heq (hxt.trans hyt.symm)
    rw [hxmsb] at hxt
    rw [hymsb] at hyf
    omega

/-! ## Overflow tests -/

/-- The wrapped sum has moved the wrong way from the first operand. -/
def signedAddOverflows (a b : BitVec w) : Bool :=
  let res := a + b
  if b.slt 0#w then a.slt res else res.slt a

/-- The wrapped difference has moved the wrong way from the first operand. -/
def signedSubOverflows (a b : BitVec w) : Bool :=
  let res := a - b
  if b.slt 0#w then res.slt a else a.slt res

theorem toInt_add_of_not_overflows {a b : BitVec w} (h : signedAddOverflows a b = false) :
    (a + b).toInt = a.toInt + b.toInt := by
  have ha := toInt_cases a
  have hb := toInt_cases b
  have hres := toInt_cases (a + b)
  have hadd := toNat_add_cases a b
  simp only [signedAddOverflows, BitVec.slt_iff_toInt_lt, BitVec.toInt_zero] at h
  split at h
  · rw [Bool.eq_false_iff, ne_eq, BitVec.slt_iff_toInt_lt] at h
    omega
  · rw [Bool.eq_false_iff, ne_eq, BitVec.slt_iff_toInt_lt] at h
    omega

theorem toInt_sub_of_not_overflows {a b : BitVec w} (h : signedSubOverflows a b = false) :
    (a - b).toInt = a.toInt - b.toInt := by
  have ha := toInt_cases a
  have hb := toInt_cases b
  have hres := toInt_cases (a - b)
  have hsub := toNat_sub_cases a b
  simp only [signedSubOverflows, BitVec.slt_iff_toInt_lt, BitVec.toInt_zero] at h
  split at h
  · rw [Bool.eq_false_iff, ne_eq, BitVec.slt_iff_toInt_lt] at h
    omega
  · rw [Bool.eq_false_iff, ne_eq, BitVec.slt_iff_toInt_lt] at h
    omega

/-! ## Shifts -/

/-- Shifting left is monotone in the word and in the amount as long as the
greatest shifted word does not pass the top bit. -/
theorem toNat_shiftLeft_between {lo x hi : BitVec w} {l s h : ℕ} (hlo : lo.toNat ≤ x.toNat)
    (hhi : x.toNat ≤ hi.toNat) (hls : l ≤ s) (hsh : s ≤ h) (hw : h < w)
    (hmax : hi.toNat ≤ 2 ^ (w - 1 - h)) :
    (lo <<< l).toNat ≤ (x <<< s).toNat ∧ (x <<< s).toNat ≤ (hi <<< h).toNat := by
  have hlow : lo.toNat * 2 ^ l ≤ x.toNat * 2 ^ s :=
    Nat.mul_le_mul hlo (Nat.pow_le_pow_right (by omega) hls)
  have hhigh : x.toNat * 2 ^ s ≤ hi.toNat * 2 ^ h :=
    Nat.mul_le_mul hhi (Nat.pow_le_pow_right (by omega) hsh)
  have hbound : hi.toNat * 2 ^ h < 2 ^ w := by
    calc
      hi.toNat * 2 ^ h ≤ 2 ^ (w - 1 - h) * 2 ^ h := Nat.mul_le_mul_right _ hmax
      _ = 2 ^ (w - 1) := by rw [← pow_add, Nat.sub_add_cancel (by omega)]
      _ < 2 ^ w := Nat.pow_lt_pow_right (by omega) (by omega)
  simp only [BitVec.toNat_shiftLeft, Nat.shiftLeft_eq]
  rw [Nat.mod_eq_of_lt (by omega), Nat.mod_eq_of_lt (by omega), Nat.mod_eq_of_lt hbound]
  exact ⟨hlow, hhigh⟩

theorem toNat_ushiftRight_between {lo x hi : BitVec w} {l s h : ℕ} (hlo : lo.toNat ≤ x.toNat)
    (hhi : x.toNat ≤ hi.toNat) (hls : l ≤ s) (hsh : s ≤ h) :
    (lo >>> h).toNat ≤ (x >>> s).toNat ∧ (x >>> s).toNat ≤ (hi >>> l).toNat := by
  simp only [BitVec.toNat_ushiftRight, Nat.shiftRight_eq_div_pow]
  exact ⟨Nat.div_le_div hlo (Nat.pow_le_pow_right (by omega) hsh) (by positivity),
    Nat.div_le_div hhi (Nat.pow_le_pow_right (by omega) hls) (by positivity)⟩

theorem toInt_sshiftRight_le {x y : BitVec w} (h : x.toInt ≤ y.toInt) (s : ℕ) :
    (x.sshiftRight s).toInt ≤ (y.sshiftRight s).toInt := by
  rw [BitVec.toInt_sshiftRight, BitVec.toInt_sshiftRight, Int.shiftRight_eq_div_pow,
    Int.shiftRight_eq_div_pow]
  exact Int.ediv_le_ediv (by positivity) h

end Exoverifier.Library

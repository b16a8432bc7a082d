import Mathlib.Tactic.Ring
import Exoverifier.Library.Loop
import Exoverifier.Tnum.Arith
import Exoverifier.Tnum.Wiring

/-! # Multiplication

The product of the values is certain and is added once at the end; the loop
only accumulates, in a tnum of its own, what unknown bits can add to it. The
invariant bounds the difference between any concrete product and the product of
the values by that accumulator, while the first factor is shifted out.
-/

namespace Exoverifier

open Library

variable {N : ℕ}

/-- The variables the loop of `tnum-mul` assigns. -/
structure MulState (N : ℕ) where
  a : Tnum N
  b : Tnum N
  accM : Tnum N

def mulGuard (s : MulState N) : Bool := s.a.value != 0#N || s.a.mask != 0#N

def mulStep (s : MulState N) : MulState N :=
  let accM :=
    if s.a.value &&& 1#N ≠ 0#N then tnumAdd s.accM ⟨0#N, s.b.mask⟩
    else if s.a.mask &&& 1#N ≠ 0#N then tnumAdd s.accM ⟨0#N, s.b.value ||| s.b.mask⟩
    else s.accM
  ⟨tnumRshift s.a 1#N, tnumLshift s.b 1#N, accM⟩

def mulInit (a b : Tnum N) : MulState N := ⟨a, b, ⟨0#N, 0#N⟩⟩

/-- `none` stands for the failed assertion of a loop out of fuel. -/
def tnumMul (a b : Tnum N) : Option (Tnum N) := do
  let accV := a.value * b.value
  let s ← whileFuel mulGuard mulStep (N + 1) (mulInit a b)
  return tnumAdd ⟨accV, 0#N⟩ s.accM

/-! ## Products and their halves -/

theorem eq_double_half (x : BitVec N) :
    x = (x >>> 1) * BitVec.ofNat N 2 + (if x.getLsbD 0 then 1#N else 0#N) := by
  have hhalf : x >>> 1 = BitVec.ofNat N (x.toNat / 2) := by
    refine BitVec.eq_of_toNat_eq ?_
    rw [BitVec.toNat_ushiftRight, BitVec.toNat_ofNat, Nat.shiftRight_one, Nat.mod_eq_of_lt]
    exact Nat.lt_of_le_of_lt (Nat.div_le_self _ _) x.isLt
  have hlow : (if x.getLsbD 0 then 1#N else 0#N) = BitVec.ofNat N (x.toNat % 2) := by
    rw [BitVec.getLsbD, Nat.testBit_zero]
    rcases Nat.mod_two_eq_zero_or_one x.toNat with h | h <;> simp [h]
  calc
    x = BitVec.ofNat N x.toNat := by simp
    _ = BitVec.ofNat N (x.toNat / 2 * 2 + x.toNat % 2) := by rw [Nat.div_add_mod']
    _ = _ := by rw [BitVec.ofNat_add, BitVec.ofNat_mul, hhalf, hlow]

/-- What the lowest bit of a factor contributes to a product. -/
def lowProduct (x y : BitVec N) : BitVec N := if x.getLsbD 0 then y else 0#N

theorem mul_eq_halve (x y : BitVec N) :
    x * y = (x >>> 1) * (y <<< 1) + lowProduct x y := by
  have hdouble : y <<< 1 = BitVec.ofNat N 2 * y := by
    rw [BitVec.shiftLeft_eq_mul_twoPow, BitVec.mul_comm, twoPow_eq_ofNat, pow_one]
  have hlow : lowProduct x y = (if x.getLsbD 0 then 1#N else 0#N) * y := by
    rw [lowProduct]
    split
    · exact (BitVec.one_mul y).symm
    · exact BitVec.zero_mul.symm
  calc
    x * y = ((x >>> 1) * BitVec.ofNat N 2 + (if x.getLsbD 0 then 1#N else 0#N)) * y := by
      rw [← eq_double_half]
    _ = _ := by rw [hdouble, hlow, BitVec.add_mul, BitVec.mul_assoc]

/-! ## What one iteration may add -/

theorem contains_zero_of_value_zero (m : BitVec N) : TnumContains ⟨0#N, m⟩ 0#N :=
  tnumContains_value _

theorem valid_of_value_zero (m : BitVec N) : TnumValid ⟨0#N, m⟩ := BitVec.zero_and

/-- A representative exceeds the value by unknown bits only. -/
theorem sub_value_contains {b : Tnum N} (hb : TnumValid b) {y : BitVec N}
    (hy : TnumContains b y) : TnumContains ⟨0#N, b.mask⟩ (y - b.value) := by
  have hsplit : y = (y &&& b.mask) + b.value := by
    have hdisjoint : (y &&& b.mask) &&& b.value = 0#N := by
      rw [BitVec.and_assoc, BitVec.and_comm b.mask, show b.value &&& b.mask = 0#N from hb,
        BitVec.and_zero]
    rw [BitVec.add_eq_or_of_and_eq_zero _ _ hdisjoint]
    refine BitVec.eq_of_getLsbD_eq fun i hi => ?_
    have hv := tnumValid_iff.1 hb i hi
    have hc := tnumContains_iff.1 hy i hi
    rw [BitVec.getLsbD_or, BitVec.getLsbD_and]
    revert hv hc
    generalize b.mask.getLsbD i = bm, b.value.getLsbD i = bv, y.getLsbD i = u
    revert bm bv u
    decide
  have hdiff : y - b.value = y &&& b.mask := (BitVec.eq_sub_iff_add_eq.2 hsplit.symm).symm
  rw [hdiff, tnumContains_iff]
  intro i _
  rw [BitVec.getLsbD_and, BitVec.getLsbD_zero]
  cases b.mask.getLsbD i <;> simp

theorem top_contains {b : Tnum N} {y : BitVec N} (hy : TnumContains b y) :
    TnumContains ⟨0#N, b.value ||| b.mask⟩ y := by
  rw [tnumContains_iff] at hy ⊢
  intro i hi
  have hc := hy i hi
  rw [BitVec.getLsbD_or, BitVec.getLsbD_zero]
  revert hc
  generalize b.mask.getLsbD i = bm, b.value.getLsbD i = bv, y.getLsbD i = u
  revert bm bv u
  decide

theorem tnumAdd_contains_zero {t : Tnum N} (ht : TnumValid t) {d : BitVec N}
    (hd : TnumContains t d) (m e : BitVec N) (he : TnumContains ⟨0#N, m⟩ e) :
    TnumContains (tnumAdd t ⟨0#N, m⟩) (d + e) :=
  tnumAdd_contains ht (valid_of_value_zero m) hd he

/-- The accumulator absorbs the difference of the two lowest-bit contributions:
the one of the concrete factors and the one of the values. -/
theorem mulStep_accM_contains {s : MulState N} (ha : TnumValid s.a) (hb : TnumValid s.b)
    (hacc : TnumValid s.accM) {x y d : BitVec N} (hx : TnumContains s.a x)
    (hy : TnumContains s.b y) (hd : TnumContains s.accM d) :
    TnumContains (mulStep s).accM (d + (lowProduct x y - lowProduct s.a.value s.b.value)) := by
  cases N with
  | zero => exact tnumContains_iff.2 fun i hi => absurd hi (by omega)
  | succ n =>
      have hvalid := tnumValid_iff.1 ha 0 (by omega)
      have hbit := tnumContains_iff.1 hx 0 (by omega)
      simp only [mulStep, and_one_ne_zero_iff, lowProduct]
      cases hv : s.a.value.getLsbD 0 with
      | true =>
          -- a certain one: both factors have the bit, and only `b` is uncertain
          have hm : s.a.mask.getLsbD 0 = false := by
            cases h : s.a.mask.getLsbD 0 with
            | true => exact absurd (hv.symm.trans (hvalid h)) (by decide)
            | false => rfl
          have hx0 : x.getLsbD 0 = true := by
            rw [hv, hm] at hbit
            exact (hbit.resolve_left (by decide)).symm
          simp only [hx0, if_true]
          exact tnumAdd_contains_zero hacc hd _ _ (sub_value_contains hb hy)
      | false =>
          simp only [Bool.false_eq_true, if_false, BitVec.sub_zero]
          cases hm : s.a.mask.getLsbD 0 with
          | true =>
              simp only [if_true]
              refine tnumAdd_contains_zero hacc hd _ _ ?_
              split
              · exact top_contains hy
              · exact contains_zero_of_value_zero _
          | false =>
              have hx0 : x.getLsbD 0 = false := by
                rw [hv, hm] at hbit
                exact (hbit.resolve_left (by decide)).symm
              simp only [hx0, Bool.false_eq_true, if_false, BitVec.add_zero]
              exact hd

/-! ## The loop invariant -/

/-- Every tnum of the state is valid, and what is left of the difference between
the product of `x` and `y` and the product of the values is bounded by the
accumulator and the remaining factors. -/
structure MulInv (a b : Tnum N) (x y : BitVec N) (s : MulState N) : Prop where
  validA : TnumValid s.a
  validB : TnumValid s.b
  validAcc : TnumValid s.accM
  balance : ∃ x' y' d, TnumContains s.a x' ∧ TnumContains s.b y' ∧ TnumContains s.accM d ∧
    x * y - a.value * b.value = d + (x' * y' - s.a.value * s.b.value)

theorem mulInv_init {a b : Tnum N} (ha : TnumValid a) (hb : TnumValid b) {x y : BitVec N}
    (hx : TnumContains a x) (hy : TnumContains b y) : MulInv a b x y (mulInit a b) :=
  ⟨ha, hb, valid_of_value_zero _, x, y, 0#N, hx, hy, contains_zero_of_value_zero _,
    (BitVec.zero_add _).symm⟩

theorem mulStep_accM_valid {s : MulState N} (h : TnumValid s.accM) :
    TnumValid (mulStep s).accM := by
  simp only [mulStep]
  split
  · exact tnumAdd_valid _ _
  · split
    · exact tnumAdd_valid _ _
    · exact h

theorem MulInv.step {a b : Tnum N} {x y : BitVec N} {s : MulState N} (h : MulInv a b x y s) :
    MulInv a b x y (mulStep s) := by
  obtain ⟨x', y', d, hx, hy, hd, hbalance⟩ := h.balance
  refine ⟨tnumRshift_valid h.validA _, tnumLshift_valid h.validB _, mulStep_accM_valid h.validAcc,
    x' >>> 1#N, y' <<< 1#N, _, tnumRshift_contains h.validA _ hx, tnumLshift_contains h.validB _ hy,
    mulStep_accM_contains h.validA h.validB h.validAcc hx hy hd, ?_⟩
  have hvalueA : (mulStep s).a.value = s.a.value >>> 1 := shiftRight_one _
  have hvalueB : (mulStep s).b.value = s.b.value <<< 1 := shiftLeft_one _
  rw [hbalance, mul_eq_halve x' y', mul_eq_halve s.a.value s.b.value, hvalueA, hvalueB,
    shiftRight_one, shiftLeft_one]
  ring

/-- When the first factor is used up the accumulator alone bounds the difference. -/
theorem MulInv.final {a b : Tnum N} {x y : BitVec N} {s : MulState N} (h : MulInv a b x y s)
    (hstop : mulGuard s = false) :
    TnumContains (tnumAdd ⟨a.value * b.value, 0#N⟩ s.accM) (x * y) := by
  obtain ⟨x', y', d, hx, -, hd, hbalance⟩ := h.balance
  have hzero : s.a.value = 0#N ∧ s.a.mask = 0#N := by simpa [mulGuard] using hstop
  have hx0 : x' = 0#N := by
    refine BitVec.eq_of_getLsbD_eq fun i hi => ?_
    have hbit := tnumContains_iff.1 hx i hi
    rw [hzero.1, hzero.2, BitVec.getLsbD_zero] at hbit
    rw [BitVec.getLsbD_zero]
    exact (hbit.resolve_left (by decide)).symm
  have hdiff : x * y = a.value * b.value + d := by
    rw [hzero.1, hx0, BitVec.zero_mul, BitVec.zero_mul, BitVec.sub_self, BitVec.add_zero] at hbalance
    rw [← hbalance]
    ring
  have hvalid : TnumValid ⟨a.value * b.value, 0#N⟩ := BitVec.and_zero
  rw [hdiff]
  exact tnumAdd_contains hvalid h.validAcc (tnumContains_value _) hd

/-! ## Whole runs -/

theorem mulStep_iterate_a (s : MulState N) (j : ℕ) :
    (mulStep^[j] s).a = s.a.map (fun x => x >>> j) := by
  induction j with
  | zero => simp [Tnum.map]
  | succ j ih =>
      rw [Function.iterate_succ_apply']
      simp only [mulStep, tnumRshift, ih, Tnum.map, shiftRight_one, BitVec.shiftRight_add]

theorem mulGuard_iterate (a b : Tnum N) : mulGuard (mulStep^[N] (mulInit a b)) = false := by
  have hzero : ∀ x : BitVec N, x >>> N = 0#N := by
    intro x
    refine BitVec.eq_of_getLsbD_eq fun i _ => ?_
    rw [BitVec.getLsbD_ushiftRight, BitVec.getLsbD_zero, BitVec.getLsbD_of_ge x _ (by omega)]
  rw [mulGuard, mulStep_iterate_a]
  simp [Tnum.map, hzero]

theorem mulInv_iterate {a b : Tnum N} {x y : BitVec N} {k : ℕ}
    (hk : ExitsAfter mulGuard mulStep (mulInit a b) k) (h : MulInv a b x y (mulInit a b)) :
    MulInv a b x y (mulStep^[k] (mulInit a b)) :=
  hk.invariant (P := fun _ => MulInv a b x y) h fun _ _ _ _ ht => ht.step

/-- The multiplication loop stops after at most `N` iterations, so it never runs
out of fuel; its result is valid and contains every product. -/
theorem tnumMul_sound {a b : Tnum N} (ha : TnumValid a) (hb : TnumValid b) :
    ∃ k ≤ N, ExitsAfter mulGuard mulStep (mulInit a b) k ∧
      ∃ t, tnumMul a b = some t ∧
        t = tnumAdd ⟨a.value * b.value, 0#N⟩ (mulStep^[k] (mulInit a b)).accM ∧
        TnumValid t ∧
        ∀ x y, TnumContains a x → TnumContains b y → TnumContains t (x * y) := by
  obtain ⟨k, hkN, hk⟩ := exists_exitsAfter (mulGuard_iterate a b)
  refine ⟨k, hkN, hk, _, ?_, rfl, tnumAdd_valid _ _, ?_⟩
  · simp only [tnumMul, whileFuel_eq hk (by omega : k < N + 1)]
    rfl
  · intro x y hx hy
    exact (mulInv_iterate hk (mulInv_init ha hb hx hy)).final hk.stops

theorem tnumMul_sound_four :
    ∃ k ≤ 4, ExitsAfter mulGuard mulStep (mulInit ⟨1#4, 2#4⟩ ⟨4#4, 1#4⟩) k ∧
      ∃ t, tnumMul ⟨1#4, 2#4⟩ ⟨4#4, 1#4⟩ = some t ∧
        t = tnumAdd ⟨1#4 * 4#4, 0#4⟩ (mulStep^[k] (mulInit ⟨1#4, 2#4⟩ ⟨4#4, 1#4⟩)).accM ∧
        TnumValid t ∧
        ∀ x y, TnumContains ⟨1#4, 2#4⟩ x → TnumContains ⟨4#4, 1#4⟩ y → TnumContains t (x * y) :=
  tnumMul_sound (by decide) (by decide)

end Exoverifier

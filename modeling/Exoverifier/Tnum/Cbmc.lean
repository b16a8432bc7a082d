import Exoverifier.Tnum.Shift

/-! # The functions of `tnum.c`

The C file works on 64-bit words with shift amounts in a byte. Where its text
is the one of `tnum.rkt` (addition, subtraction, the bitwise operators, the
intersection, the inclusion test and the body of the multiplication loop) the
generic function at width 64 is its model. The functions whose text differs are
given here and shown to compute the same.
-/

namespace Exoverifier.Cbmc

open Library

def tnumContains (a : Tnum 64) (constant : BitVec 64) : Bool :=
  (a.mask ||| ~~~(a.value ^^^ constant)) + 1#64 == 0#64

def tnumConst (value : BitVec 64) : Tnum 64 := ⟨value, 0#64⟩

def tnumLshift (a : Tnum 64) (shift : BitVec 8) : Tnum 64 := ⟨a.value <<< shift, a.mask <<< shift⟩

def tnumRshift (a : Tnum 64) (shift : BitVec 8) : Tnum 64 := ⟨a.value >>> shift, a.mask >>> shift⟩

def tnumUnion (a b : Tnum 64) : Tnum 64 :=
  let v := a.value ||| b.value
  let mu := a.mask ||| b.mask ||| (a.value ^^^ b.value)
  ⟨v &&& ~~~mu, mu⟩

/-- The variables the loops of `tnum_shl` and `tnum_lshr` assign. -/
structure LoopState where
  a : Tnum 64
  b : Tnum 64
  amt : BitVec 8

def loopStep (shift : Tnum 64 → BitVec 8 → Tnum 64) (s : LoopState) : LoopState :=
  let a := if s.b.mask &&& 1#64 ≠ 0#64 then tnumUnion s.a (shift s.a s.amt) else s.a
  let a := if s.b.value &&& 1#64 ≠ 0#64 then shift a s.amt else a
  ⟨a, tnumRshift s.b 1#8, s.amt <<< 1⟩

/-- The common text of the two shifts: six iterations, whatever the amount. -/
def tnumShiftBy (shift : Tnum 64 → BitVec 8 → Tnum 64) (a b : Tnum 64) (insnBitness : BitVec 8) :
    Tnum 64 :=
  let b := tnumAnd b (tnumConst (insnBitness.setWidth 64 - 1#64))
  ((loopStep shift)^[6] ⟨a, b, 1#8⟩).a

def tnumShl (a b : Tnum 64) (insnBitness : BitVec 8) : Tnum 64 :=
  tnumShiftBy tnumLshift a b insnBitness

def tnumLshr (a b : Tnum 64) (insnBitness : BitVec 8) : Tnum 64 :=
  tnumShiftBy tnumRshift a b insnBitness

/-! ## Agreement with the generic functions -/

theorem tnumContains_eq_true_iff {a : Tnum 64} {c : BitVec 64} :
    tnumContains a c = true ↔ TnumContains a c := by
  have hneg : ∀ x : BitVec 64, x + 1#64 = 0#64 ↔ ~~~x = 0#64 := by
    intro x
    rw [BitVec.not_eq_comm]
    exact (eq_neg_iff_add_eq_zero (a := x) (b := 1#64)).symm
  rw [tnumContains, beq_iff_eq, hneg]
  rfl

theorem tnumConst_eq (value : BitVec 64) : tnumConst value = Exoverifier.tnumConst value := by
  rw [tnumConst, Exoverifier.tnumConst, BitVec.xor_self]

/-- Where the union is known both values agree, so either may stand for it. -/
theorem tnumUnion_eq (a b : Tnum 64) : tnumUnion a b = Exoverifier.tnumUnion a b := by
  have hvalue : (a.value ||| b.value) &&& ~~~(a.mask ||| b.mask ||| (a.value ^^^ b.value)) =
      a.value &&& ~~~(a.mask ||| b.mask ||| (a.value ^^^ b.value)) := by
    refine BitVec.eq_of_getLsbD_eq fun i hi => ?_
    simp only [BitVec.getLsbD_and, BitVec.getLsbD_or, BitVec.getLsbD_xor, BitVec.getLsbD_not,
      decide_eq_true hi]
    generalize a.mask.getLsbD i = am, b.mask.getLsbD i = bm, a.value.getLsbD i = av,
      b.value.getLsbD i = bv
    revert am bm av bv
    decide
  simp only [tnumUnion, Exoverifier.tnumUnion, hvalue]

theorem tnumLshift_eq {amt : BitVec 8} {amt' : BitVec 64} (h : amt.toNat = amt'.toNat)
    (a : Tnum 64) : tnumLshift a amt = Exoverifier.tnumLshift a amt' := by
  simp only [tnumLshift, Exoverifier.tnumLshift, BitVec.shiftLeft_eq', h]

theorem tnumRshift_eq {amt : BitVec 8} {amt' : BitVec 64} (h : amt.toNat = amt'.toNat)
    (a : Tnum 64) : tnumRshift a amt = Exoverifier.tnumRshift a amt' := by
  simp only [tnumRshift, Exoverifier.tnumRshift, BitVec.ushiftRight_eq', h]

/-! ## The fixed loop against the fuelled one -/

/-- After `j` iterations the two loops hold the same tnums and the same amount,
one in a byte and one in a word. -/
structure Agrees (j : ℕ) (s : LoopState) (s' : ShiftState 64) : Prop where
  a : s.a = s'.a
  b : s.b = s'.b
  amt : s.amt.toNat = 2 ^ j
  amt' : s'.amt.toNat = 2 ^ j

variable {shift : Tnum 64 → BitVec 8 → Tnum 64} {shift' : Tnum 64 → BitVec 64 → Tnum 64}

theorem Agrees.step
    (hshift : ∀ a (amt : BitVec 8) (amt' : BitVec 64), amt.toNat = amt'.toNat →
      shift a amt = shift' a amt')
    {j : ℕ} (hj : j < 6) {s : LoopState} {s' : ShiftState 64} (h : Agrees j s s') :
    Agrees (j + 1) (loopStep shift s) (shiftStep shift' s') := by
  have hshift' : ∀ a, shift a s.amt = shift' a s'.amt :=
    fun a => hshift a _ _ (h.amt.trans h.amt'.symm)
  have hbound : 2 ^ (j + 1) < 2 ^ 8 := Nat.pow_lt_pow_right (by omega) (by omega)
  refine ⟨?_, ?_, ?_, ?_⟩
  · simp only [loopStep, shiftStep, h.a, h.b, hshift', tnumUnion_eq]
  · simp only [loopStep, shiftStep, h.b]
    exact tnumRshift_eq rfl s'.b
  · simp only [loopStep, BitVec.toNat_shiftLeft, h.amt, Nat.shiftLeft_eq, ← pow_succ]
    exact Nat.mod_eq_of_lt hbound
  · have hone : (1#64).toNat = 1 := rfl
    simp only [shiftStep, BitVec.shiftLeft_eq', BitVec.toNat_shiftLeft, h.amt', Nat.shiftLeft_eq,
      hone, ← pow_succ]
    exact Nat.mod_eq_of_lt (by omega)

theorem agrees_iterate
    (hshift : ∀ a (amt : BitVec 8) (amt' : BitVec 64), amt.toNat = amt'.toNat →
      shift a amt = shift' a amt')
    (a b : Tnum 64) {j : ℕ} (hj : j ≤ 6) :
    Agrees j ((loopStep shift)^[j] ⟨a, b, 1#8⟩) ((shiftStep shift')^[j] ⟨a, b, 1#64⟩) := by
  induction j with
  | zero => exact ⟨rfl, rfl, rfl, rfl⟩
  | succ j ih =>
      rw [Function.iterate_succ_apply', Function.iterate_succ_apply']
      exact (ih (by omega)).step hshift (by omega)

/-- The six iterations return what the fuelled loop returns, at every bitness
the word has. -/
theorem tnumShiftBy_eq
    (hshift : ∀ a (amt : BitVec 8) (amt' : BitVec 64), amt.toNat = amt'.toNat →
      shift a amt = shift' a amt')
    (a b : Tnum 64) {m : ℕ} (hm : m ≤ 6) :
    Exoverifier.tnumShiftBy shift' a b (2 ^ m) =
      some (tnumShiftBy shift a b (BitVec.ofNat 8 (2 ^ m))) := by
  have hbitness : (BitVec.ofNat 8 (2 ^ m)).setWidth 64 = BitVec.ofNat 64 (2 ^ m) := by
    have hbound : 2 ^ m ≤ 2 ^ 6 := Nat.pow_le_pow_right (by omega) hm
    refine BitVec.eq_of_toNat_eq ?_
    rw [BitVec.toNat_setWidth, BitVec.toNat_ofNat, BitVec.toNat_ofNat,
      Nat.mod_eq_of_lt (by omega : 2 ^ m < 2 ^ 8)]
  have hlow : tnumAnd b (tnumConst ((BitVec.ofNat 8 (2 ^ m)).setWidth 64 - 1#64)) =
      lowAmount b (2 ^ m) := by
    rw [hbitness, tnumConst_eq, lowAmount]
  rw [tnumShiftBy_eq_iterate a b (show m ≤ log2 64 from hm) hm, tnumShiftBy, hlow,
    (agrees_iterate hshift a _ (Nat.le_refl 6)).a]

theorem tnumShl_eq (a b : Tnum 64) {m : ℕ} (hm : m ≤ 6) :
    Exoverifier.tnumShl a b (2 ^ m) = some (tnumShl a b (BitVec.ofNat 8 (2 ^ m))) :=
  tnumShiftBy_eq (fun a _ _ h => tnumLshift_eq h a) a b hm

theorem tnumLshr_eq (a b : Tnum 64) {m : ℕ} (hm : m ≤ 6) :
    Exoverifier.tnumLshr a b (2 ^ m) = some (tnumLshr a b (BitVec.ofNat 8 (2 ^ m))) :=
  tnumShiftBy_eq (fun a _ _ h => tnumRshift_eq h a) a b hm

/-! ## The shifts as a whole -/

/-- At a power-of-two width the shifts by an unknown amount give the best tnum
of all shifts by the amount modulo the width, and at width 64 the fixed loops
of the C file give the same tnums. -/
theorem tnumShifts_best {N : ℕ} (hN : isPow2 N = true) {a b : Tnum N} (ha : TnumValid a)
    (hb : TnumValid b) :
    (∃ t, Exoverifier.tnumShl a b N = some t ∧
        BestTnum t (Set.image2 (fun x y : BitVec N => x <<< (y.toNat % N)) a.points b.points)) ∧
      (∃ t, Exoverifier.tnumLshr a b N = some t ∧
        BestTnum t (Set.image2 (fun x y : BitVec N => x >>> (y.toNat % N)) a.points b.points)) ∧
      (∃ t, tnumAshr a b N = some t ∧
        BestTnum t (Set.image2 (fun x y : BitVec N => x.sshiftRight (y.toNat % N)) a.points b.points)) ∧
      ∀ c d : Tnum 64, Exoverifier.tnumShl c d 64 = some (tnumShl c d 64#8) ∧
        Exoverifier.tnumLshr c d 64 = some (tnumLshr c d 64#8) := by
  obtain ⟨m, rfl⟩ := isPow2_iff.1 hN
  have hm : m ≤ log2 (2 ^ m) := by rw [log2_two_pow]
  obtain ⟨shl, hshl, vshl, eshl⟩ := tnumShiftBy_exact shiftFamily_shl ha hb hm
  obtain ⟨lshr, hlshr, vlshr, elshr⟩ := tnumShiftBy_exact shiftFamily_lshr ha hb hm
  obtain ⟨ashr, hashr, vashr, eashr⟩ := tnumShiftBy_exact shiftFamily_ashr ha hb hm
  exact ⟨⟨shl, hshl, eshl.best vshl⟩, ⟨lshr, hlshr, elshr.best vlshr⟩,
    ⟨ashr, hashr, eashr.best vashr⟩,
    fun c d => ⟨tnumShl_eq c d (Nat.le_refl 6), tnumLshr_eq c d (Nat.le_refl 6)⟩⟩

theorem tnumShifts_best_four :
    (∃ t, Exoverifier.tnumShl ⟨1#4, 8#4⟩ ⟨1#4, 6#4⟩ 4 = some t ∧
        BestTnum t (Set.image2 (fun x y : BitVec 4 => x <<< (y.toNat % 4))
          (Tnum.points ⟨1#4, 8#4⟩) (Tnum.points ⟨1#4, 6#4⟩))) ∧
      (∃ t, Exoverifier.tnumLshr ⟨1#4, 8#4⟩ ⟨1#4, 6#4⟩ 4 = some t ∧
        BestTnum t (Set.image2 (fun x y : BitVec 4 => x >>> (y.toNat % 4))
          (Tnum.points ⟨1#4, 8#4⟩) (Tnum.points ⟨1#4, 6#4⟩))) ∧
      (∃ t, tnumAshr ⟨1#4, 8#4⟩ ⟨1#4, 6#4⟩ 4 = some t ∧
        BestTnum t (Set.image2 (fun x y : BitVec 4 => x.sshiftRight (y.toNat % 4))
          (Tnum.points ⟨1#4, 8#4⟩) (Tnum.points ⟨1#4, 6#4⟩))) ∧
      ∀ c d : Tnum 64, Exoverifier.tnumShl c d 64 = some (tnumShl c d 64#8) ∧
        Exoverifier.tnumLshr c d 64 = some (tnumLshr c d 64#8) :=
  tnumShifts_best (N := 4) (isPow2_iff.2 ⟨2, rfl⟩) (by decide) (by decide)

end Exoverifier.Cbmc

import Exoverifier.Tnum.Arith
import Exoverifier.Tnum.Wiring

/-! # The low half of a 64-bit tnum

Casting to the low bytes, clearing and replacing the low half. The low half is
also read as a tnum of width 32, so that facts about 32-bit words apply to it.
-/

namespace Exoverifier

open Library

variable {N : ℕ}

def tnumCast (a : Tnum N) (size : BitVec N) : Tnum N :=
  ⟨a.value &&& ((1#N <<< (size * 8#N)) - 1#N), a.mask &&& ((1#N <<< (size * 8#N)) - 1#N)⟩

def tnumSubreg (a : Tnum N) : Tnum N := tnumCast a 4#N

def tnumClearSubreg (a : Tnum N) : Tnum N := tnumLshift (tnumRshift a 32#N) 32#N

def tnumSubregIsConst (a : Tnum N) : Bool := (tnumSubreg a).mask == 0#N

def tnumConstSubreg (a : Tnum 64) (value : BitVec 32) : Tnum 64 :=
  tnumOr (tnumClearSubreg a) (tnumConst (value.setWidth 64))

/-- The low half as a tnum of its own. -/
def lowTnum (a : Tnum 64) : Tnum 32 := ⟨a.value.setWidth 32, a.mask.setWidth 32⟩

/-! ## Bits -/

theorem getLsbD_low (x : BitVec 64) {i : ℕ} (hi : i < 32) :
    (x.setWidth 32).getLsbD i = x.getLsbD i := by
  rw [BitVec.getLsbD_setWidth, decide_eq_true hi, Bool.true_and]

theorem getLsbD_zext (x : BitVec 32) {i : ℕ} (hi : i < 64) :
    (x.setWidth 64).getLsbD i = (decide (i < 32) && x.getLsbD i) := by
  rw [BitVec.getLsbD_setWidth, decide_eq_true hi, Bool.true_and]
  by_cases h : i < 32
  · rw [decide_eq_true h, Bool.true_and]
  · rw [decide_eq_false h, Bool.false_and, BitVec.getLsbD_of_ge x i (by omega)]

theorem low_zext (x : BitVec 32) : (x.setWidth 64).setWidth 32 = x := by
  rw [BitVec.setWidth_setWidth_of_le x (by omega), BitVec.setWidth_eq]

theorem subreg_bits (a : Tnum 64) {i : ℕ} (hi : i < 64) :
    (tnumSubreg a).value.getLsbD i = (decide (i < 32) && a.value.getLsbD i) ∧
      (tnumSubreg a).mask.getLsbD i = (decide (i < 32) && a.mask.getLsbD i) := by
  have hlow : (1#64 <<< (4#64 * 8#64)) - 1#64 = BitVec.ofNat 64 (2 ^ 32) - 1#64 := by decide
  simp only [tnumSubreg, tnumCast, hlow, BitVec.getLsbD_and, getLsbD_two_pow_sub_one 32 hi,
    Bool.and_comm, and_self]

theorem clearSubreg_bits (a : Tnum 64) {i : ℕ} (hi : i < 64) :
    (tnumClearSubreg a).value.getLsbD i = (!decide (i < 32) && a.value.getLsbD i) ∧
      (tnumClearSubreg a).mask.getLsbD i = (!decide (i < 32) && a.mask.getLsbD i) := by
  have hclear : ∀ x : BitVec 64, (x >>> 32#64 <<< 32#64).getLsbD i =
      (!decide (i < 32) && x.getLsbD i) := by
    intro x
    rw [BitVec.shiftLeft_eq', BitVec.ushiftRight_eq', BitVec.getLsbD_shiftLeft,
      BitVec.getLsbD_ushiftRight, decide_eq_true hi, Bool.true_and]
    by_cases h : i < 32
    · simp [h]
    · have hsub : 32 + (i - 32) = i := by omega
      simp [h, hsub]
  exact ⟨hclear a.value, hclear a.mask⟩

theorem low_bits (a : Tnum 64) {i : ℕ} (hi : i < 32) :
    (lowTnum a).value.getLsbD i = a.value.getLsbD i ∧
      (lowTnum a).mask.getLsbD i = a.mask.getLsbD i :=
  ⟨getLsbD_low a.value hi, getLsbD_low a.mask hi⟩

/-! ## Membership -/

theorem lowTnum_valid {a : Tnum 64} (ha : TnumValid a) : TnumValid (lowTnum a) := by
  refine tnumValid_iff.2 fun i hi => ?_
  rw [(low_bits a hi).1, (low_bits a hi).2]
  exact tnumValid_iff.1 ha i (by omega)

theorem lowTnum_contains {a : Tnum 64} {x : BitVec 64} (hx : TnumContains a x) :
    TnumContains (lowTnum a) (x.setWidth 32) := by
  refine tnumContains_iff.2 fun i hi => ?_
  rw [(low_bits a hi).1, (low_bits a hi).2, getLsbD_low x hi]
  exact tnumContains_iff.1 hx i (by omega)

theorem tnumSubreg_valid {a : Tnum 64} (ha : TnumValid a) : TnumValid (tnumSubreg a) := by
  refine tnumValid_iff.2 fun i hi => ?_
  rw [(subreg_bits a hi).1, (subreg_bits a hi).2]
  have hbit := tnumValid_iff.1 ha i hi
  revert hbit
  generalize a.mask.getLsbD i = am, a.value.getLsbD i = av, decide (i < 32) = d
  revert am av d
  decide

/-- No bit of the upper half can be set. -/
def HighZero (b : Tnum 64) : Prop :=
  ∀ i < 64, 32 ≤ i → b.mask.getLsbD i = false ∧ b.value.getLsbD i = false

theorem tnumSubreg_highZero (a : Tnum 64) : HighZero (tnumSubreg a) := by
  intro i hi hge
  rw [(subreg_bits a hi).1, (subreg_bits a hi).2, decide_eq_false (by omega), Bool.false_and,
    Bool.false_and]
  exact ⟨rfl, rfl⟩

/-- With its upper half zero, a tnum is known by its low half. -/
theorem HighZero.contains_iff {b : Tnum 64} (hb : HighZero b) {x : BitVec 32} :
    TnumContains b (x.setWidth 64) ↔ TnumContains (lowTnum b) x := by
  rw [tnumContains_iff, tnumContains_iff]
  constructor
  · intro h i hi
    have hbit := h i (by omega)
    rw [getLsbD_zext x (by omega), decide_eq_true hi, Bool.true_and] at hbit
    rwa [(low_bits b hi).1, (low_bits b hi).2]
  · intro h i hi
    rw [getLsbD_zext x hi]
    by_cases hlow : i < 32
    · have hbit := h i hlow
      rw [(low_bits b hlow).1, (low_bits b hlow).2] at hbit
      rwa [decide_eq_true hlow, Bool.true_and]
    · exact Or.inr (by rw [decide_eq_false hlow, Bool.false_and, (hb i hi (by omega)).2])

/-- A tnum inside one whose upper half is zero has that property. -/
theorem HighZero.of_subset {a b : Tnum 64} (ha : HighZero a)
    (hsub : ∀ y, TnumContains b y → TnumContains a y) : HighZero b := by
  intro i hi hge
  have htop := tnumContains_iff.1 (hsub _ (tnumContains_top b)) i hi
  rw [(ha i hi hge).1, (ha i hi hge).2, getLsbD_top] at htop
  have hor := (htop.resolve_left (by decide)).symm
  rw [Bool.or_eq_false_iff] at hor
  exact ⟨hor.2, hor.1⟩

theorem lowTnum_subreg (a : Tnum 64) : lowTnum (tnumSubreg a) = lowTnum a := by
  have hvalue : (lowTnum (tnumSubreg a)).value = (lowTnum a).value :=
    BitVec.eq_of_getLsbD_eq fun i hi => by
      rw [(low_bits _ hi).1, (low_bits _ hi).1, (subreg_bits a (by omega)).1, decide_eq_true hi,
        Bool.true_and]
  have hmask : (lowTnum (tnumSubreg a)).mask = (lowTnum a).mask :=
    BitVec.eq_of_getLsbD_eq fun i hi => by
      rw [(low_bits _ hi).2, (low_bits _ hi).2, (subreg_bits a (by omega)).2, decide_eq_true hi,
        Bool.true_and]
  exact congrArg₂ Tnum.mk hvalue hmask

/-- The words of the low half are the zero-extended words of the 32-bit reading. -/
theorem tnumSubreg_contains_iff {a : Tnum 64} {x : BitVec 32} :
    TnumContains (tnumSubreg a) (x.setWidth 64) ↔ TnumContains (lowTnum a) x := by
  rw [(tnumSubreg_highZero a).contains_iff, lowTnum_subreg]

theorem tnumSubreg_contains {a : Tnum 64} {x : BitVec 64} (hx : TnumContains a x) :
    TnumContains (tnumSubreg a) ((x.setWidth 32).setWidth 64) :=
  tnumSubreg_contains_iff.2 (lowTnum_contains hx)

/-- Zero extension of every word of a tnum. -/
def Tnum.zext (t : Tnum 32) : Tnum 64 := ⟨t.value.setWidth 64, t.mask.setWidth 64⟩

theorem lowTnum_zext (t : Tnum 32) : lowTnum t.zext = t :=
  congrArg₂ Tnum.mk (low_zext t.value) (low_zext t.mask)

theorem zext_highZero (t : Tnum 32) : HighZero t.zext := by
  have hzero : ∀ x : BitVec 32, ∀ i < 64, 32 ≤ i → (x.setWidth 64).getLsbD i = false := by
    intro x i hi hge
    rw [getLsbD_zext x hi, decide_eq_false (by omega), Bool.false_and]
  exact fun i hi hge => ⟨hzero t.mask i hi hge, hzero t.value i hi hge⟩

theorem zext_contains_iff {t : Tnum 32} {x : BitVec 32} :
    TnumContains t.zext (x.setWidth 64) ↔ TnumContains t x := by
  rw [(zext_highZero t).contains_iff, lowTnum_zext]

theorem zext_valid {t : Tnum 32} (ht : TnumValid t) : TnumValid t.zext := by
  refine tnumValid_iff.2 fun i hi => ?_
  by_cases hlow : i < 32
  · have hbit := tnumValid_iff.1 ht i hlow
    rwa [← lowTnum_zext t, (low_bits _ hlow).1, (low_bits _ hlow).2] at hbit
  · exact fun _ => (zext_highZero t i hi (by omega)).2

/-! ## Bitwise operators on members -/

theorem tnumAnd_valid (a b : Tnum N) : TnumValid (tnumAnd a b) := by
  refine tnumValid_iff.2 fun i hi => ?_
  simp only [tnumAnd, BitVec.getLsbD_and, BitVec.getLsbD_or, BitVec.getLsbD_not, decide_eq_true hi]
  generalize a.mask.getLsbD i = am, b.mask.getLsbD i = bm, a.value.getLsbD i = av,
    b.value.getLsbD i = bv
  revert am bm av bv
  decide

theorem tnumOr_valid (a b : Tnum N) : TnumValid (tnumOr a b) := by
  refine tnumValid_iff.2 fun i hi => ?_
  simp only [tnumOr, BitVec.getLsbD_and, BitVec.getLsbD_or, BitVec.getLsbD_not, decide_eq_true hi]
  generalize a.mask.getLsbD i = am, b.mask.getLsbD i = bm, a.value.getLsbD i = av,
    b.value.getLsbD i = bv
  revert am bm av bv
  decide

theorem tnumXor_valid (a b : Tnum N) : TnumValid (tnumXor a b) := valid_of_masked _ _

theorem tnumIntersect_valid (a b : Tnum N) : TnumValid (tnumIntersect a b) := valid_of_masked _ _

theorem tnumConst_contains (x : BitVec N) : TnumContains (tnumConst x) x :=
  tnumContains_value (tnumConst x)

theorem tnumConst_valid (x : BitVec N) : TnumValid (tnumConst x) := by
  rw [tnumConst, BitVec.xor_self]
  exact BitVec.and_zero

theorem tnumAnd_contains {a b : Tnum N} (ha : TnumValid a) (hb : TnumValid b) {x y : BitVec N}
    (hx : TnumContains a x) (hy : TnumContains b y) : TnumContains (tnumAnd a b) (x &&& y) := by
  refine tnumContains_iff.2 fun i hi => ?_
  have hva := tnumValid_iff.1 ha i hi
  have hvb := tnumValid_iff.1 hb i hi
  have hxi := tnumContains_iff.1 hx i hi
  have hyi := tnumContains_iff.1 hy i hi
  simp only [tnumAnd, BitVec.getLsbD_and, BitVec.getLsbD_or, BitVec.getLsbD_not, decide_eq_true hi]
  revert hva hvb hxi hyi
  generalize a.mask.getLsbD i = am, b.mask.getLsbD i = bm, a.value.getLsbD i = av,
    b.value.getLsbD i = bv, x.getLsbD i = p, y.getLsbD i = q
  revert am bm av bv p q
  decide

theorem tnumOr_contains {a b : Tnum N} (ha : TnumValid a) (hb : TnumValid b) {x y : BitVec N}
    (hx : TnumContains a x) (hy : TnumContains b y) : TnumContains (tnumOr a b) (x ||| y) := by
  refine tnumContains_iff.2 fun i hi => ?_
  have hva := tnumValid_iff.1 ha i hi
  have hvb := tnumValid_iff.1 hb i hi
  have hxi := tnumContains_iff.1 hx i hi
  have hyi := tnumContains_iff.1 hy i hi
  simp only [tnumOr, BitVec.getLsbD_and, BitVec.getLsbD_or, BitVec.getLsbD_not, decide_eq_true hi]
  revert hva hvb hxi hyi
  generalize a.mask.getLsbD i = am, b.mask.getLsbD i = bm, a.value.getLsbD i = av,
    b.value.getLsbD i = bv, x.getLsbD i = p, y.getLsbD i = q
  revert am bm av bv p q
  decide

theorem tnumXor_contains {a b : Tnum N} {x y : BitVec N}
    (hx : TnumContains a x) (hy : TnumContains b y) : TnumContains (tnumXor a b) (x ^^^ y) := by
  refine tnumContains_iff.2 fun i hi => ?_
  have hxi := tnumContains_iff.1 hx i hi
  have hyi := tnumContains_iff.1 hy i hi
  simp only [tnumXor, BitVec.getLsbD_and, BitVec.getLsbD_or, BitVec.getLsbD_xor,
    BitVec.getLsbD_not, decide_eq_true hi]
  revert hxi hyi
  generalize a.mask.getLsbD i = am, b.mask.getLsbD i = bm, a.value.getLsbD i = av,
    b.value.getLsbD i = bv, x.getLsbD i = p, y.getLsbD i = q
  revert am bm av bv p q
  decide

/-! ## Intersection and replacement of the low half -/

/-- Two valid tnums with a common word agree on their known bits, so that the
intersection takes, bit by bit, exactly the common values. -/
theorem tnumIntersect_bit_iff {a b : Tnum N} (ha : TnumValid a) (hb : TnumValid b)
    {x : BitVec N} (hxa : TnumContains a x) (hxb : TnumContains b x) {i : ℕ} (hi : i < N)
    (q : Bool) :
    ((tnumIntersect a b).mask.getLsbD i = true ∨ (tnumIntersect a b).value.getLsbD i = q) ↔
      (a.mask.getLsbD i = true ∨ a.value.getLsbD i = q) ∧
        (b.mask.getLsbD i = true ∨ b.value.getLsbD i = q) := by
  have hva := tnumValid_iff.1 ha i hi
  have hvb := tnumValid_iff.1 hb i hi
  have hia := tnumContains_iff.1 hxa i hi
  have hib := tnumContains_iff.1 hxb i hi
  simp only [tnumIntersect, BitVec.getLsbD_and, BitVec.getLsbD_or, BitVec.getLsbD_not,
    decide_eq_true hi]
  revert hva hvb hia hib
  generalize a.mask.getLsbD i = am, b.mask.getLsbD i = bm, a.value.getLsbD i = av,
    b.value.getLsbD i = bv, x.getLsbD i = p
  revert am bm av bv p q
  decide

theorem tnumIntersect_contains_iff {a b : Tnum N} (ha : TnumValid a) (hb : TnumValid b)
    {x : BitVec N} (hxa : TnumContains a x) (hxb : TnumContains b x) {y : BitVec N} :
    TnumContains (tnumIntersect a b) y ↔ TnumContains a y ∧ TnumContains b y := by
  have hbit := fun i (hi : i < N) => tnumIntersect_bit_iff ha hb hxa hxb hi (y.getLsbD i)
  rw [tnumContains_iff, tnumContains_iff, tnumContains_iff]
  exact ⟨fun h => ⟨fun i hi => ((hbit i hi).1 (h i hi)).1, fun i hi => ((hbit i hi).1 (h i hi)).2⟩,
    fun h i hi => (hbit i hi).2 ⟨h.1 i hi, h.2 i hi⟩⟩

/-- Joining the upper half of `a` with a tnum `b` whose upper half is a known
zero reads the upper half of `a` and the lower half of `b`. -/
theorem splice_contains_iff {a b : Tnum 64} (ha : TnumValid a) (hb : TnumValid b)
    (hhigh : HighZero b) {y : BitVec 64} :
    TnumContains (tnumOr (tnumClearSubreg a) b) y ↔
      (∀ i < 64, 32 ≤ i → a.mask.getLsbD i = true ∨ a.value.getLsbD i = y.getLsbD i) ∧
        TnumContains (lowTnum b) (y.setWidth 32) := by
  have hbit : ∀ i < 64, ((tnumOr (tnumClearSubreg a) b).mask.getLsbD i = true ∨
        (tnumOr (tnumClearSubreg a) b).value.getLsbD i = y.getLsbD i) ↔
      if i < 32 then b.mask.getLsbD i = true ∨ b.value.getLsbD i = y.getLsbD i
      else a.mask.getLsbD i = true ∨ a.value.getLsbD i = y.getLsbD i := by
    intro i hi
    have hva := tnumValid_iff.1 ha i hi
    have hvb := tnumValid_iff.1 hb i hi
    have hhi := hhigh i hi
    simp only [tnumOr, BitVec.getLsbD_and, BitVec.getLsbD_or, BitVec.getLsbD_not,
      decide_eq_true hi, (clearSubreg_bits a hi).1, (clearSubreg_bits a hi).2]
    by_cases hlow : i < 32
    · rw [if_pos hlow, decide_eq_true hlow]
      revert hvb
      generalize a.mask.getLsbD i = am, b.mask.getLsbD i = bm, a.value.getLsbD i = av,
        b.value.getLsbD i = bv, y.getLsbD i = q
      revert am bm av bv q
      decide
    · rw [if_neg hlow, decide_eq_false hlow, (hhi (by omega)).1, (hhi (by omega)).2]
      revert hva
      generalize a.mask.getLsbD i = am, a.value.getLsbD i = av, y.getLsbD i = q
      revert am av q
      decide
  rw [tnumContains_iff, tnumContains_iff]
  constructor
  · intro h
    refine ⟨fun i hi hge => ?_, fun i hi => ?_⟩
    · have hi' := (hbit i hi).1 (h i hi)
      rwa [if_neg (by omega)] at hi'
    · have hi' := (hbit i (by omega)).1 (h i (by omega))
      rw [if_pos hi] at hi'
      rwa [(low_bits b hi).1, (low_bits b hi).2, getLsbD_low y hi]
  · rintro ⟨hupper, hlower⟩ i hi
    rw [hbit i hi]
    split
    · have hi' := hlower i (by assumption)
      rwa [(low_bits b (by assumption)).1, (low_bits b (by assumption)).2,
        getLsbD_low y (by assumption)] at hi'
    · exact hupper i hi (by omega)

/-- Replacing the low half by a constant. -/
theorem tnumConstSubreg_contains {a : Tnum 64} (ha : TnumValid a) {x : BitVec 64}
    (hx : TnumContains a x) : TnumContains (tnumConstSubreg a (x.setWidth 32)) x := by
  have hhigh : HighZero (tnumConst ((x.setWidth 32).setWidth 64)) := by
    intro i hi hge
    have hzero : ((x.setWidth 32).setWidth 64).getLsbD i = false := by
      rw [getLsbD_zext _ hi, decide_eq_false (by omega), Bool.false_and]
    refine ⟨?_, hzero⟩
    rw [tnumConst, BitVec.xor_self, BitVec.getLsbD_zero]
  refine (splice_contains_iff ha (tnumConst_valid _) hhigh).2
    ⟨fun i hi _ => tnumContains_iff.1 hx i hi, ?_⟩
  have hlow := lowTnum_contains (tnumConst_contains ((x.setWidth 32).setWidth 64))
  rwa [low_zext] at hlow

end Exoverifier

import Exoverifier.Verifier.Scalar

/-! # Soundness of the scalar bounds

Each function sends contained operands to a state that nearly contains the
concrete result, which is all the synchronisation that follows asks for. The
32-bit shifts are stated for the zero-extended result.
-/

namespace Exoverifier

open Library

namespace RegState

/-! ## Zero extension -/

theorem toInt_zext (x : BitVec 32) : (x.setWidth 64).toInt = x.toNat := by
  have hx := x.isLt
  have hcases := toInt_cases (x.setWidth 64)
  rw [toNat_zext] at hcases
  omega

/-- The 64-bit bounds read off the 32-bit ones contain the zero-extended word
even when the signed maximum has wrapped. -/
theorem zext_bounds_contains {r : RegState} {top x : BitVec 32} (h : r.bounds32.Near top x) :
    r.zext32To64.bounds.Contains (x.setWidth 64) := by
  obtain ⟨humin, humax, hsmin, hsmax⟩ := h
  have hxi := toInt_cases x
  have hlt := x.isLt
  have hmax : ((uMax 32).setWidth 64).toInt = 2 ^ 32 - 1 := by decide
  have hsext : ∀ c : BitVec 32, (c.signExtend 64).toInt = c.toInt := fun c =>
    BitVec.toInt_signExtend_of_le (by omega)
  rw [Bounds.contains_iff]
  simp only [zext32To64, regAssign32Into64, toNat_zext, toInt_zext, Bool.and_eq_true,
    BitVec.sle_iff_toInt_le, BitVec.toInt_zero]
  refine ⟨⟨humin, humax⟩, ?_, ?_⟩
  · split
    · rw [hsext]
      omega
    · rw [BitVec.toInt_zero]
      omega
  · split
    · rw [hsext]
      omega
    · rw [hmax]
      omega

theorem Near.zext {r : RegState} {x : BitVec 64} (h : r.Near x) :
    r.zext32To64.Near ((x.setWidth 32).setWidth 64) := by
  refine ⟨tnumSubreg_valid h.valid, tnumSubreg_contains h.contains,
    (zext_bounds_contains h.bounds32).near _, ?_⟩
  have hbounds := h.bounds32
  rw [low_zext]
  rwa [← lowTnum_subreg] at hbounds

theorem Contains.zext {r : RegState} {x : BitVec 64} (h : r.Contains x) :
    r.zext32To64.Contains ((x.setWidth 32).setWidth 64) := by
  refine ⟨tnumSubreg_contains h.1, zext_bounds_contains (h.2.2.near 0#32), ?_⟩
  rw [low_zext]
  exact h.2.2

theorem Invariants.zext {r : RegState} (h : r.Invariants) : r.zext32To64.Invariants := by
  rw [invariants_iff] at *
  refine ⟨fun _ => ?_, fun hmin => ?_⟩
  · have hhigh := tnumSubreg_highZero r.varOff 63 (by omega) (by omega)
    rw [toInt_nonneg_iff, BitVec.msb_eq_getLsbD_last, getLsbD_top]
    exact Bool.or_eq_false_iff.2 ⟨hhigh.2, hhigh.1⟩
  · have hlow := lowTnum_subreg r.varOff
    simp only [zext32To64, regAssign32Into64, hlow]
    exact h.2 hmin

/-! ## Bitwise operators -/

/-- A low half with no unknown bit is its constant, so recording the constant
leaves the tnum as it is. -/
theorem tnumConstSubreg_of_isConst {a : Tnum 64} (ha : TnumValid a)
    (hconst : tnumSubregIsConst a = true) :
    tnumConstSubreg a ((tnumSubreg a).value.setWidth 32) = a := by
  have hmask := beq_iff_eq.1 hconst
  have hbits : ∀ i < 64, (tnumConstSubreg a ((tnumSubreg a).value.setWidth 32)).value.getLsbD i =
        a.value.getLsbD i ∧
      (tnumConstSubreg a ((tnumSubreg a).value.setWidth 32)).mask.getLsbD i =
        a.mask.getLsbD i := by
    intro i hi
    have hvalid := tnumValid_iff.1 ha i hi
    have hlow := (subreg_bits a hi).2
    rw [hmask, BitVec.getLsbD_zero] at hlow
    simp only [tnumConstSubreg, tnumOr, tnumConst, BitVec.xor_self, BitVec.or_zero,
      BitVec.getLsbD_and, BitVec.getLsbD_or, BitVec.getLsbD_not, decide_eq_true hi,
      getLsbD_zext _ hi, (clearSubreg_bits a hi).1, (clearSubreg_bits a hi).2]
    by_cases h : i < 32
    · rw [getLsbD_low _ h, (subreg_bits a hi).1]
      rw [decide_eq_true h] at hlow ⊢
      revert hlow
      generalize a.mask.getLsbD i = am, a.value.getLsbD i = av
      revert am av
      decide
    · rw [decide_eq_false h]
      revert hvalid
      generalize a.mask.getLsbD i = am, a.value.getLsbD i = av
      revert am av
      simp
  exact congrArg₂ Tnum.mk (BitVec.eq_of_getLsbD_eq fun i hi => (hbits i hi).1)
    (BitVec.eq_of_getLsbD_eq fun i hi => (hbits i hi).2)

theorem eq_value_of_isConst {N : ℕ} {a : Tnum N} (hmask : a.mask = 0#N) {z : BitVec N}
    (hz : TnumContains a z) : a.value = z := by
  refine BitVec.eq_of_getLsbD_eq fun i hi => ?_
  have hbit := tnumContains_iff.1 hz i hi
  rw [hmask, BitVec.getLsbD_zero] at hbit
  exact hbit.resolve_left (by decide)

/-- A state whose known low half is recorded as a constant, or whose 32-bit
bounds are replaced by near ones, differs in near 32-bit bounds only. -/
theorem markReg32Known_or {r : RegState} {z : BitVec 64} (hv : TnumValid r.varOff)
    (hz : TnumContains r.varOff z) {b : Bounds 32}
    (hb : b.Near (lowTnum r.varOff).top (z.setWidth 32)) (known : Bool) :
    ∃ b', (if known && tnumSubregIsConst r.varOff then
          r.markReg32Known ((tnumSubreg r.varOff).value.setWidth 32)
        else { r with bounds32 := b }) = { r with bounds32 := b' } ∧
      b'.Near (lowTnum r.varOff).top (z.setWidth 32) := by
  split
  · rename_i hknown
    have hconst := (Bool.and_eq_true_iff.1 hknown).2
    have hsubreg := tnumSubreg_contains_iff.2 (lowTnum_contains hz)
    have hvalue := eq_value_of_isConst (beq_iff_eq.1 hconst) hsubreg
    refine ⟨Bounds.known (z.setWidth 32), ?_, (Bounds.known_contains _).near _⟩
    rw [markReg32Known, tnumConstSubreg_of_isConst hv hconst, hvalue, low_zext]
  · exact ⟨b, rfl, hb⟩

theorem markRegKnown_or {r : RegState} {z : BitVec 64} (hv : TnumValid r.varOff)
    (hz : TnumContains r.varOff z) {b : Bounds 64} (hb : b.Near r.varOff.top z)
    (hb32 : r.bounds32.Near (lowTnum r.varOff).top (z.setWidth 32)) (known : Bool) :
    (if known && tnumIsConst r.varOff then r.markRegKnown r.varOff.value
      else updateRegBounds { r with bounds := b }).Near z := by
  split
  · rename_i hknown
    have hconst := (Bool.and_eq_true_iff.1 hknown).2
    have hvalue := eq_value_of_isConst (beq_iff_eq.1 hconst) hz
    rw [hvalue]
    exact Contains.near ⟨tnumConst_contains z, Bounds.known_contains z, Bounds.known_contains _⟩
      (tnumConst_valid z)
  · exact Near.updateRegBounds ⟨hv, hz, hb, hb32⟩

/-- The low half of the greatest word is the greatest word of the low half. -/
theorem subreg_top (a : Tnum 64) :
    ((tnumSubreg a).value ||| (tnumSubreg a).mask).setWidth 32 = (lowTnum a).top := by
  rw [BitVec.setWidth_or, ← lowTnum_subreg]
  rfl

theorem subreg_value (a : Tnum 64) :
    (tnumSubreg a).value.setWidth 32 = (lowTnum a).value :=
  congrArg Tnum.value (lowTnum_subreg a)

/-- What the bounds of a bitwise operator are computed from: bounds of both
operands, and the tnum of the result, whose greatest word is not negative when
both signed minima are not. -/
structure BitwiseArgs {w : ℕ} (dst src : Bounds w) (t : Tnum w) (x y z : BitVec w) : Prop where
  left : dst.Contains x
  right : src.Contains y
  valid : TnumValid t
  result : TnumContains t z
  sign : 0 ≤ dst.smin.toInt → 0 ≤ src.smin.toInt → 0 ≤ t.top.toInt

section Bitwise

variable {dst src : RegState} {x y z : BitVec 64}

theorem scalar32MinMaxAnd_near (hv : TnumValid dst.varOff) (hz : TnumContains dst.varOff (x &&& y))
    (h : BitwiseArgs dst.bounds32 src.bounds32 (lowTnum dst.varOff) (x.setWidth 32)
      (y.setWidth 32) ((x &&& y).setWidth 32)) :
    ∃ b, scalar32MinMaxAnd dst src = { dst with bounds32 := b } ∧
      b.Near (lowTnum dst.varOff).top ((x &&& y).setWidth 32) := by
  have hresult := h.result
  rw [BitVec.setWidth_and] at hresult
  have hnear := h.left.and h.right h.valid hresult h.sign
  rw [← BitVec.setWidth_and, ← subreg_value] at hnear
  exact markReg32Known_or hv hz hnear _

theorem scalarMinMaxAnd_near (h : BitwiseArgs dst.bounds src.bounds dst.varOff x y (x &&& y))
    (h32 : dst.bounds32.Near (lowTnum dst.varOff).top ((x &&& y).setWidth 32)) :
    (scalarMinMaxAnd dst src).Near (x &&& y) :=
  markRegKnown_or h.valid h.result (h.left.and h.right h.valid h.result h.sign) h32 _

theorem scalar32MinMaxOr_near (hv : TnumValid dst.varOff) (hz : TnumContains dst.varOff (x ||| y))
    (h : BitwiseArgs dst.bounds32 src.bounds32 (lowTnum dst.varOff) (x.setWidth 32)
      (y.setWidth 32) ((x ||| y).setWidth 32)) :
    ∃ b, scalar32MinMaxOr dst src = { dst with bounds32 := b } ∧
      b.Near (lowTnum dst.varOff).top ((x ||| y).setWidth 32) := by
  have hresult := h.result
  rw [BitVec.setWidth_or] at hresult
  have hcontains := h.left.or h.right hresult h.sign
  rw [← BitVec.setWidth_or, ← subreg_top] at hcontains
  exact markReg32Known_or hv hz (hcontains.near _) _

theorem scalarMinMaxOr_near (h : BitwiseArgs dst.bounds src.bounds dst.varOff x y (x ||| y))
    (h32 : dst.bounds32.Near (lowTnum dst.varOff).top ((x ||| y).setWidth 32)) :
    (scalarMinMaxOr dst src).Near (x ||| y) :=
  markRegKnown_or h.valid h.result ((h.left.or h.right h.result h.sign).near _) h32 _

theorem scalar32MinMaxXor_near (hv : TnumValid dst.varOff) (hz : TnumContains dst.varOff z)
    (h : BitwiseArgs dst.bounds32 src.bounds32 (lowTnum dst.varOff) (x.setWidth 32)
      (y.setWidth 32) (z.setWidth 32)) :
    ∃ b, scalar32MinMaxXor dst src = { dst with bounds32 := b } ∧
      b.Near (lowTnum dst.varOff).top (z.setWidth 32) := by
  have hcontains := Bounds.xor_contains dst.bounds32 src.bounds32 h.valid h.result h.sign
  rw [← subreg_value, ← subreg_top] at hcontains
  exact markReg32Known_or hv hz (hcontains.near _) _

theorem scalarMinMaxXor_near (h : BitwiseArgs dst.bounds src.bounds dst.varOff x y z)
    (h32 : dst.bounds32.Near (lowTnum dst.varOff).top (z.setWidth 32)) :
    (scalarMinMaxXor dst src).Near z :=
  markRegKnown_or h.valid h.result
    ((Bounds.xor_contains dst.bounds src.bounds h.valid h.result h.sign).near _) h32 _

end Bitwise

/-! ## Shifts -/

section Shifts

variable {dst src : RegState} {x : BitVec 64} {s : ℕ}

/-- The unsigned bounds of a left shift, when the guard of the source lets them through. -/
theorem shl_between {w : ℕ} {b : Bounds w} {x : BitVec w} (hx : b.Contains x)
    {lo hi last : BitVec w} (hlo : lo.toNat ≤ s) (hhi : s ≤ hi.toNat) (hlast : last.toNat = w - 1)
    (hle : hi.toNat ≤ last.toNat) (hw : 0 < w) (hmax : ¬ 1#w <<< (last - hi) < b.umax) :
    (b.umin <<< lo).toNat ≤ (x <<< s).toNat ∧ (x <<< s).toNat ≤ (b.umax <<< hi).toNat := by
  obtain ⟨hu, -⟩ := Bounds.contains_iff.1 hx
  have hsub : (last - hi).toNat = w - 1 - hi.toNat := by
    have hcases := toNat_sub_cases last hi
    have hlt := (last - hi).isLt
    have hhilt := hi.isLt
    omega
  rw [BitVec.shiftLeft_eq', hsub, BitVec.lt_def, toNat_one_shiftLeft (by omega)] at hmax
  rw [BitVec.shiftLeft_eq', BitVec.shiftLeft_eq']
  exact toNat_shiftLeft_between hu.1 hu.2 hlo hhi (by omega) (by omega)

theorem lsh32Bounds_contains (hx : dst.bounds32.Contains (x.setWidth 32)) {lo hi : BitVec 32}
    (hlo : lo.toNat ≤ s) (hhi : s ≤ hi.toNat) :
    (dst.lsh32Bounds lo hi).bounds32.Contains ((x <<< s).setWidth 32) := by
  by_cases hs : s < 32
  · rw [BitVec.setWidth_shiftLeft_of_le (by omega)]
    have hfull := Bounds.contains_iff.1 (Bounds.unbounded_contains (x.setWidth 32 <<< s))
    rw [Bounds.contains_iff]
    simp only [lsh32Bounds]
    refine ⟨?_, hfull.2⟩
    split
    · exact hfull.1
    · rename_i hno
      rw [not_or, BitVec.lt_def] at hno
      exact shl_between hx hlo hhi rfl (by omega) (by omega) hno.2
  · have hno : 31#32 < hi := by
      rw [BitVec.lt_def]
      have h31 : (31#32).toNat = 31 := rfl
      omega
    simp only [lsh32Bounds, hno, true_or, if_true]
    exact Bounds.unbounded_contains _

/-- Shifting by 32 moves the signed low half up. -/
theorem toInt_shiftLeft_32 (x : BitVec 64) :
    (x <<< 32).toInt = (x.setWidth 32).toInt * 2 ^ 32 := by
  have hshift : (x <<< 32).toNat = (x.setWidth 32).toNat * 2 ^ 32 := by
    rw [BitVec.toNat_shiftLeft, Nat.shiftLeft_eq, BitVec.toNat_setWidth,
      show 2 ^ 64 = 2 ^ 32 * 2 ^ 32 from rfl, Nat.mul_mod_mul_right]
  have hlow := toInt_cases (x.setWidth 32)
  have hcases := toInt_cases (x <<< 32)
  omega

theorem toInt_sext_shiftLeft_32 (c : BitVec 32) :
    (c.signExtend 64 <<< 32#64).toInt = c.toInt * 2 ^ 32 := by
  have hlow : (c.signExtend 64).setWidth 32 = c := by
    refine BitVec.eq_of_getLsbD_eq fun i hi => ?_
    rw [getLsbD_low _ hi, BitVec.getLsbD_signExtend, decide_eq_true (by omega), Bool.true_and,
      if_pos hi]
  rw [BitVec.shiftLeft_eq', show (32#64).toNat = 32 from rfl, toInt_shiftLeft_32, hlow]

theorem lsh64Bounds_contains (hx : dst.Contains x) {lo hi : BitVec 64} (hlo : lo.toNat ≤ s)
    (hhi : s ≤ hi.toNat) (hlt : hi.toNat < 64) :
    (dst.lsh64Bounds lo hi).bounds.Contains (x <<< s) := by
  have hfull := Bounds.contains_iff.1 (Bounds.unbounded_contains (x <<< s))
  have hlow := (Bounds.contains_iff.1 hx.2.2).2
  have hhalf : lo = 32#64 → hi = 32#64 → (x <<< s).toInt = (x.setWidth 32).toInt * 2 ^ 32 := by
    rintro rfl rfl
    have hs : s = 32 := Nat.le_antisymm hhi hlo
    rw [hs, toInt_shiftLeft_32]
  rw [Bounds.contains_iff]
  simp only [lsh64Bounds]
  refine ⟨?_, ?_, ?_⟩
  · split
    · exact hfull.1
    · rename_i hmax
      exact shl_between hx.2.1 hlo hhi rfl (by rw [show (63#64).toNat = 63 from rfl]; omega)
        (by omega) hmax
  · split
    · rename_i hcond
      rw [toInt_sext_shiftLeft_32, hhalf hcond.1 hcond.2.1]
      omega
    · exact hfull.2.1
  · split
    · rename_i hcond
      rw [toInt_sext_shiftLeft_32, hhalf hcond.1 hcond.2.1]
      omega
    · exact hfull.2.2

/-- After a 32-bit shift only the low half of a state is refined. -/
theorem near_of_low {r : RegState} {z : BitVec 64} (hv : TnumValid r.varOff)
    (hz : TnumContains r.varOff z) (hb32 : r.bounds32.Contains (z.setWidth 32)) :
    r.markReg64Unbounded.updateReg32Bounds.Near z := by
  rw [updateReg32Bounds_eq]
  exact ⟨hv, hz, (Bounds.unbounded_contains z).near _,
    (hb32.near _).update (lowTnum_valid hv) (lowTnum_contains hz)⟩

variable {y : BitVec 64}

/-- The tnum of a 32-bit shift by an unknown amount. -/
theorem shift_subreg {shift : Tnum 64 → BitVec 64 → Tnum 64} {f : BitVec 64 → ℕ → BitVec 64}
    (hf : ShiftFamily shift f) {a b : Tnum 64} (ha : TnumValid a) (hb : TnumValid b)
    (hx : TnumContains a x) (hy : TnumContains b y) (hs : (y.setWidth 32).toNat < 32) :
    ∃ t, tnumShiftBy shift (tnumSubreg a) (tnumSubreg b) 32 = some t ∧ TnumValid t ∧
      TnumContains t (f ((x.setWidth 32).setWidth 64) (y.setWidth 32).toNat) := by
  obtain ⟨t, ht, hv, hexact⟩ := tnumShiftBy_exact hf (tnumSubreg_valid ha) (tnumSubreg_valid hb)
    (m := 5) (by decide)
  have hz := hexact.contains (Set.mem_image2_of_mem (tnumSubreg_contains hx)
    (tnumSubreg_contains hy))
  simp only [toNat_zext, Nat.mod_eq_of_lt (by omega : (y.setWidth 32).toNat < 2 ^ 5)] at hz
  exact ⟨t, ht, hv, hz⟩

theorem shift_full {shift : Tnum 64 → BitVec 64 → Tnum 64} {f : BitVec 64 → ℕ → BitVec 64}
    (hf : ShiftFamily shift f) {a b : Tnum 64} (ha : TnumValid a) (hb : TnumValid b)
    (hx : TnumContains a x) (hy : TnumContains b y) (hs : y.toNat < 64) :
    ∃ t, tnumShiftBy shift a b 64 = some t ∧ TnumValid t ∧ TnumContains t (f x y.toNat) := by
  obtain ⟨t, ht, hv, hexact⟩ := tnumShiftBy_exact hf ha hb (m := 6) (by decide)
  have hz := hexact.contains (Set.mem_image2_of_mem hx hy)
  simp only [Nat.mod_eq_of_lt (by omega : y.toNat < 2 ^ 6)] at hz
  exact ⟨t, ht, hv, hz⟩

theorem scalar32MinMaxLsh_near (hv : TnumValid dst.varOff) (hx : dst.Contains x)
    (hvs : TnumValid src.varOff) (hy : src.Contains y) (hs : (y.setWidth 32).toNat < 32) :
    ∃ r, scalar32MinMaxLsh dst src = some r ∧
      r.Near ((x.setWidth 32 <<< (y.setWidth 32).toNat).setWidth 64) := by
  obtain ⟨t, ht, hvt, hz⟩ := shift_subreg shiftFamily_shl hv hvs hx.1 hy.1 hs
  have hlow := lsh32Bounds_contains hx.2.2 hy.2.2.1 hy.2.2.2.1
  have hzsub := tnumSubreg_contains hz
  rw [BitVec.setWidth_shiftLeft_of_le (by omega), low_zext] at hzsub
  refine ⟨_, by simp only [scalar32MinMaxLsh, tnumShl, ht]; rfl, ?_⟩
  refine near_of_low (tnumSubreg_valid hvt) hzsub ?_
  rw [BitVec.setWidth_shiftLeft_of_le (by omega)] at hlow
  rw [low_zext]
  exact hlow

theorem scalarMinMaxLsh_near (hv : TnumValid dst.varOff) (hx : dst.Contains x)
    (hvs : TnumValid src.varOff) (hy : src.Contains y) (hmax : src.bounds.umax.toNat < 64) :
    ∃ r, scalarMinMaxLsh dst src = some r ∧ r.Near (x <<< y.toNat) := by
  have hylo : src.bounds.umin.toNat ≤ y.toNat := hy.2.1.1
  have hyhi : y.toNat ≤ src.bounds.umax.toNat := hy.2.1.2.1
  obtain ⟨t, ht, hvt, hz⟩ := shift_full shiftFamily_shl hv hvs hx.1 hy.1 (by omega)
  have hbounds := lsh64Bounds_contains hx hylo hyhi hmax
  have hbounds32 : ((dst.lsh64Bounds src.bounds.umin src.bounds.umax).lsh32Bounds
      (src.bounds.umin.setWidth 32) (src.bounds.umax.setWidth 32)).bounds32.Contains
        ((x <<< y.toNat).setWidth 32) := by
    refine lsh32Bounds_contains hx.2.2 ?_ ?_ <;>
      rw [BitVec.toNat_setWidth, Nat.mod_eq_of_lt (by omega)]
    · exact hylo
    · exact hyhi
  refine ⟨_, by simp only [scalarMinMaxLsh, tnumShl, lsh32Bounds, lsh64Bounds, ht]; rfl, ?_⟩
  exact Near.updateRegBounds ⟨hvt, hz, hbounds.near _, hbounds32.near _⟩

theorem scalar32MinMaxRsh_near (hv : TnumValid dst.varOff) (hx : dst.Contains x)
    (hvs : TnumValid src.varOff) (hy : src.Contains y) (hs : (y.setWidth 32).toNat < 32) :
    ∃ r, scalar32MinMaxRsh dst src = some r ∧
      r.Near ((x.setWidth 32 >>> (y.setWidth 32).toNat).setWidth 64) := by
  obtain ⟨t, ht, hvt, hz⟩ := shift_subreg shiftFamily_lshr hv hvs hx.1 hy.1 hs
  rw [← BitVec.setWidth_ushiftRight (by omega)] at hz
  have hbetween := toNat_ushiftRight_between hx.2.2.1 hx.2.2.2.1 hy.2.2.1 hy.2.2.2.1
  refine ⟨_, by simp only [scalar32MinMaxRsh, tnumLshr, ht]; rfl, ?_⟩
  refine near_of_low hvt hz ?_
  rw [low_zext, Bounds.contains_iff]
  exact ⟨hbetween, Bounds.sMin_le _, Bounds.le_sMax _⟩

theorem scalarMinMaxRsh_near (hv : TnumValid dst.varOff) (hx : dst.Contains x)
    (hvs : TnumValid src.varOff) (hy : src.Contains y) (hs : y.toNat < 64) :
    ∃ r, scalarMinMaxRsh dst src = some r ∧ r.Near (x >>> y.toNat) := by
  obtain ⟨t, ht, hvt, hz⟩ := shift_full shiftFamily_lshr hv hvs hx.1 hy.1 hs
  have hbetween := toNat_ushiftRight_between hx.2.1.1 hx.2.1.2.1 hy.2.1.1 hy.2.1.2.1
  refine ⟨_, by simp only [scalarMinMaxRsh, tnumLshr, ht]; rfl, ?_⟩
  refine Near.updateRegBounds ⟨hvt, hz, Bounds.Contains.near ?_ _,
    (Bounds.unbounded_contains _).near _⟩
  rw [Bounds.contains_iff]
  exact ⟨hbetween, Bounds.sMin_le _, Bounds.le_sMax _⟩

/-- An arithmetic shift of the low half is shifted as a word of 32 bits. -/
theorem tnumArshift_subreg {a : Tnum 64} (ha : TnumValid a) (hx : TnumContains a x)
    (amt : BitVec 32) :
    TnumValid (tnumArshift (tnumSubreg a) (amt.setWidth 64) 32) ∧
      TnumContains (tnumArshift (tnumSubreg a) (amt.setWidth 64) 32)
        (((x.setWidth 32).sshiftRight amt.toNat).setWidth 64) := by
  have heq : tnumArshift (tnumSubreg a) (amt.setWidth 64) 32 =
      ((lowTnum a).map fun v => v.sshiftRight amt.toNat).zext := by
    rw [← lowTnum_subreg]
    simp only [tnumArshift, low_zext, BitVec.sshiftRight_eq']
    rfl
  have hwire := wiring_sshiftRight (N := 32) amt.toNat
  rw [heq, zext_contains_iff]
  exact ⟨zext_valid (hwire.valid (lowTnum_valid ha)),
    hwire.contains (lowTnum_valid ha) (lowTnum_contains hx)⟩

theorem scalar32MinMaxArsh_near (hv : TnumValid dst.varOff) (hx : dst.Contains x)
    (hy : src.Contains y) (hconst : src.bounds32.umin = src.bounds32.umax) :
    ∃ r, scalar32MinMaxArsh dst src = some r ∧
      r.Near (((x.setWidth 32).sshiftRight (y.setWidth 32).toNat).setWidth 64) := by
  have hamt : src.bounds32.umin = y.setWidth 32 :=
    BitVec.le_antisymm hy.2.2.1 (hconst ▸ hy.2.2.2.1)
  obtain ⟨hvt, hz⟩ := tnumArshift_subreg hv hx.1 src.bounds32.umin
  refine ⟨_, by simp only [scalar32MinMaxArsh, guard, hconst, if_true]; rfl, ?_⟩
  rw [hamt] at hz hvt
  rw [← hconst, hamt]
  refine near_of_low hvt hz ?_
  obtain ⟨-, hsmin, hsmax⟩ := Bounds.contains_iff.1 hx.2.2
  have hfull := Bounds.contains_iff.1 (Bounds.unbounded_contains
    ((x.setWidth 32).sshiftRight (y.setWidth 32).toNat))
  rw [low_zext, Bounds.contains_iff]
  exact ⟨hfull.1, toInt_sshiftRight_le hsmin _, toInt_sshiftRight_le hsmax _⟩

theorem scalarMinMaxArsh_near (hv : TnumValid dst.varOff) (hx : dst.Contains x)
    (hy : src.Contains y) (hconst : src.bounds.umin = src.bounds.umax) :
    ∃ r, scalarMinMaxArsh dst src = some r ∧ r.Near (x.sshiftRight y.toNat) := by
  have hamt : src.bounds.umin = y := BitVec.le_antisymm hy.2.1.1 (hconst ▸ hy.2.1.2.1)
  have hwire := wiring_sshiftRight (N := 64) y.toNat
  have hvt := hwire.valid hv
  have hz := hwire.contains hv hx.1
  rw [← tnumArshift_eq_map] at hvt hz
  refine ⟨_, by simp only [scalarMinMaxArsh, guard, hconst, if_true]; rfl, ?_⟩
  rw [← hconst, hamt]
  obtain ⟨-, hsmin, hsmax⟩ := Bounds.contains_iff.1 hx.2.1
  have hfull := Bounds.contains_iff.1 (Bounds.unbounded_contains (x.sshiftRight y.toNat))
  refine Near.updateRegBounds ⟨hvt, hz, Bounds.Contains.near ?_ _,
    (Bounds.unbounded_contains _).near _⟩
  rw [Bounds.contains_iff]
  exact ⟨hfull.1, toInt_sshiftRight_le hsmin _, toInt_sshiftRight_le hsmax _⟩

end Shifts

end RegState

end Exoverifier

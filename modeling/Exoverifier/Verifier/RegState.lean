import Exoverifier.Tnum.Range
import Exoverifier.Tnum.Subreg
import Exoverifier.Verifier.Bounds

/-! # Register states

What the verifier knows about one register: a tnum and bounds for the 64-bit
value, and bounds for its low 32 bits. The functions that refine a state keep
the three views in step; each writes fields that no other line of it reads, so
the writes are modelled as one update of the record.
-/

namespace Exoverifier

open Library

/-- `bpf-reg-state`: `bounds` holds `umin-val`, `umax-val`, `smin-val` and
`smax-val`, and `bounds32` their 32-bit counterparts. -/
structure RegState where
  varOff : Tnum 64
  bounds : Bounds 64
  bounds32 : Bounds 32
  deriving DecidableEq, Repr

namespace RegState

def unknown : RegState := ⟨tnumUnknown 64, Bounds.unbounded 64, Bounds.unbounded 32⟩

def Contains (env : RegState) (conc : BitVec 64) : Prop :=
  TnumContains env.varOff conc ∧ env.bounds.Contains conc ∧
    env.bounds32.Contains (conc.setWidth 32)

instance (env : RegState) (conc : BitVec 64) : Decidable (env.Contains conc) :=
  inferInstanceAs (Decidable (_ ∧ _ ∧ _))

/-- If the register is known positive, then the tnum must be similarly bounded. -/
def Invariants (reg : RegState) : Prop :=
  ((0#64).sle reg.bounds.smin = true → reg.varOff.mask ||| reg.varOff.value < sMin 64) ∧
    ((0#32).sle reg.bounds32.smin = true →
      (reg.varOff.mask ||| reg.varOff.value).setWidth 32 < sMin 32)

instance (reg : RegState) : Decidable reg.Invariants := inferInstanceAs (Decidable (_ ∧ _))

/-! ## Assigning whole views -/

def regAssign32Into64 (reg : RegState) : RegState :=
  let smax :=
    if (0#32).sle reg.bounds32.smin && (0#32).sle reg.bounds32.smax then
      reg.bounds32.smax.signExtend 64
    else (uMax 32).setWidth 64
  let smin := if (0#32).sle reg.bounds32.smin then reg.bounds32.smin.signExtend 64 else 0#64
  { reg with
    bounds := ⟨reg.bounds32.umin.setWidth 64, reg.bounds32.umax.setWidth 64, smin, smax⟩ }

def markRegKnown (_reg : RegState) (imm : BitVec 64) : RegState :=
  ⟨tnumConst imm, Bounds.known imm, Bounds.known (imm.setWidth 32)⟩

def markReg32Known (reg : RegState) (imm : BitVec 32) : RegState :=
  { reg with varOff := tnumConstSubreg reg.varOff imm, bounds32 := Bounds.known imm }

def zext32To64 (reg : RegState) : RegState :=
  regAssign32Into64 { reg with varOff := tnumSubreg reg.varOff }

def markReg64Unbounded (reg : RegState) : RegState := { reg with bounds := Bounds.unbounded 64 }

def markReg32Unbounded (reg : RegState) : RegState := { reg with bounds32 := Bounds.unbounded 32 }

def markRegUnbounded (reg : RegState) : RegState := reg.markReg64Unbounded.markReg32Unbounded

def markRegUnknown (reg : RegState) : RegState :=
  markRegUnbounded { reg with varOff := tnumUnknown 64 }

/-! ## Refining the views by each other -/

def updateReg32Bounds (reg : RegState) : RegState :=
  let var32Off := tnumSubreg reg.varOff
  { reg with
    bounds32 :=
      { smin := bvsmax reg.bounds32.smin
          ((var32Off.value ||| (var32Off.mask &&& (sMin 32).signExtend 64)).setWidth 32)
        smax := bvsmin reg.bounds32.smax
          ((var32Off.value ||| (var32Off.mask &&& (sMax 32).signExtend 64)).setWidth 32)
        umin := bvumax reg.bounds32.umin (var32Off.value.setWidth 32)
        umax := bvumin reg.bounds32.umax ((var32Off.value ||| var32Off.mask).setWidth 32) } }

def updateReg64Bounds (reg : RegState) : RegState :=
  { reg with bounds := reg.bounds.update reg.varOff }

def updateRegBounds (reg : RegState) : RegState := reg.updateReg32Bounds.updateReg64Bounds

def reg32DeduceBounds (reg : RegState) : RegState := { reg with bounds32 := reg.bounds32.deduce }

def reg64DeduceBounds (reg : RegState) : RegState := { reg with bounds := reg.bounds.deduce }

def regDeduceBounds (reg : RegState) : RegState := reg.reg32DeduceBounds.reg64DeduceBounds

/-- Refine tnum based on the unsigned 32- and 64-bit bounds. `none` stands for
the failure branch of the search in `tnum-range`. -/
def regBoundOffset (reg : RegState) : Option RegState := do
  let range64 ← tnumRange reg.bounds.umin reg.bounds.umax
  let var64Off := tnumIntersect reg.varOff range64
  let range32 ← tnumRange (reg.bounds32.umin.setWidth 64) (reg.bounds32.umax.setWidth 64)
  let var32Off := tnumIntersect (tnumSubreg reg.varOff) range32
  return { reg with varOff := tnumOr (tnumClearSubreg var64Off) var32Off }

/-! ## The low half -/

theorem updateReg32Bounds_eq (reg : RegState) :
    reg.updateReg32Bounds = { reg with bounds32 := reg.bounds32.update (lowTnum reg.varOff) } := by
  have hbits : ∀ i < 32, ∀ c : BitVec 32,
      (((tnumSubreg reg.varOff).value |||
        ((tnumSubreg reg.varOff).mask &&& c.signExtend 64)).setWidth 32).getLsbD i =
      ((lowTnum reg.varOff).value ||| ((lowTnum reg.varOff).mask &&& c)).getLsbD i := by
    intro i hi c
    have hext : (c.signExtend 64).getLsbD i = c.getLsbD i := by
      rw [BitVec.getLsbD_signExtend, decide_eq_true (by omega : i < 64), Bool.true_and, if_pos hi]
    rw [getLsbD_low _ hi]
    simp only [BitVec.getLsbD_or, BitVec.getLsbD_and, hext,
      (subreg_bits reg.varOff (by omega : i < 64)).1, (subreg_bits reg.varOff (by omega : i < 64)).2,
      (low_bits reg.varOff hi).1, (low_bits reg.varOff hi).2, decide_eq_true hi, Bool.true_and]
  have hextreme := fun c : BitVec 32 => BitVec.eq_of_getLsbD_eq fun i hi => hbits i hi c
  have hlow := lowTnum_subreg reg.varOff
  have hvalue : (tnumSubreg reg.varOff).value.setWidth 32 = (lowTnum reg.varOff).value :=
    congrArg Tnum.value hlow
  have hmask : (tnumSubreg reg.varOff).mask.setWidth 32 = (lowTnum reg.varOff).mask :=
    congrArg Tnum.mask hlow
  simp only [updateReg32Bounds, Bounds.update, hextreme, BitVec.setWidth_or, hvalue, hmask]

end RegState

end Exoverifier

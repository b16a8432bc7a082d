import Exoverifier.Tnum.Shift
import Exoverifier.Verifier.Sync

/-! # Bounds of the results of scalar instructions

One function for each operation and width. Every function takes the state of
the destination and the state of the source and returns the new state of the
destination. In the source code every field of the second state is read before
it is written, so both arguments may also be one object.
-/

namespace Exoverifier

open Library

namespace RegState

/-! ## Addition and subtraction -/

def scalarMinMaxAdd (dst src : RegState) : RegState :=
  { dst with bounds := dst.bounds.add src.bounds }

def scalar32MinMaxAdd (dst src : RegState) : RegState :=
  { dst with bounds32 := dst.bounds32.add src.bounds32 }

def scalarMinMaxSub (dst src : RegState) : RegState :=
  { dst with bounds := dst.bounds.sub src.bounds }

def scalar32MinMaxSub (dst src : RegState) : RegState :=
  { dst with bounds32 := dst.bounds32.sub src.bounds32 }

/-! ## Bitwise operators

The tnum of the destination is already the one of the result. -/

def scalar32MinMaxAnd (dst src : RegState) : RegState :=
  let var32Off := tnumSubreg dst.varOff
  if tnumSubregIsConst src.varOff && tnumSubregIsConst dst.varOff then
    dst.markReg32Known (var32Off.value.setWidth 32)
  else
    { dst with bounds32 := Bounds.and (var32Off.value.setWidth 32) dst.bounds32 src.bounds32 }

def scalarMinMaxAnd (dst src : RegState) : RegState :=
  if tnumIsConst src.varOff && tnumIsConst dst.varOff then dst.markRegKnown dst.varOff.value
  else
    updateRegBounds { dst with bounds := Bounds.and dst.varOff.value dst.bounds src.bounds }

def scalar32MinMaxOr (dst src : RegState) : RegState :=
  let var32Off := tnumSubreg dst.varOff
  if tnumSubregIsConst src.varOff && tnumSubregIsConst dst.varOff then
    dst.markReg32Known (var32Off.value.setWidth 32)
  else
    { dst with
      bounds32 :=
        Bounds.or ((var32Off.value ||| var32Off.mask).setWidth 32) dst.bounds32 src.bounds32 }

def scalarMinMaxOr (dst src : RegState) : RegState :=
  if tnumIsConst src.varOff && tnumIsConst dst.varOff then dst.markRegKnown dst.varOff.value
  else
    updateRegBounds
      { dst with bounds := Bounds.or (dst.varOff.value ||| dst.varOff.mask) dst.bounds src.bounds }

def scalar32MinMaxXor (dst src : RegState) : RegState :=
  let var32Off := tnumSubreg dst.varOff
  if tnumSubregIsConst src.varOff && tnumSubregIsConst dst.varOff then
    dst.markReg32Known (var32Off.value.setWidth 32)
  else
    { dst with
      bounds32 := Bounds.xor (var32Off.value.setWidth 32)
        ((var32Off.value ||| var32Off.mask).setWidth 32) dst.bounds32 src.bounds32 }

def scalarMinMaxXor (dst src : RegState) : RegState :=
  if tnumIsConst src.varOff && tnumIsConst dst.varOff then dst.markRegKnown dst.varOff.value
  else
    updateRegBounds
      { dst with
        bounds := Bounds.xor dst.varOff.value (dst.varOff.value ||| dst.varOff.mask) dst.bounds
          src.bounds }

/-! ## Shifts

`none` stands for a failed assertion of the tnum shift, and for arithmetic
shifts also for a state the source assumes away. -/

/-- `__scalar32_min_max_lsh` -/
def lsh32Bounds (dst : RegState) (uminVal umaxVal : BitVec 32) : RegState :=
  let unsigned :=
    if 31#32 < umaxVal ∨ 1#32 <<< (31#32 - umaxVal) < dst.bounds32.umax then (0#32, uMax 32)
    else (dst.bounds32.umin <<< uminVal, dst.bounds32.umax <<< umaxVal)
  { dst with bounds32 := ⟨unsigned.1, unsigned.2, sMin 32, sMax 32⟩ }

/-- `__scalar64_min_max_lsh` -/
def lsh64Bounds (dst : RegState) (uminVal umaxVal : BitVec 64) : RegState :=
  let smax :=
    if uminVal = 32#64 ∧ umaxVal = 32#64 ∧ (0#32).sle dst.bounds32.smax = true then
      dst.bounds32.smax.signExtend 64 <<< 32#64
    else sMax 64
  let smin :=
    if uminVal = 32#64 ∧ umaxVal = 32#64 ∧ (0#32).sle dst.bounds32.smin = true then
      dst.bounds32.smin.signExtend 64 <<< 32#64
    else sMin 64
  let unsigned :=
    if 1#64 <<< (63#64 - umaxVal) < dst.bounds.umax then (0#64, uMax 64)
    else (dst.bounds.umin <<< uminVal, dst.bounds.umax <<< umaxVal)
  { dst with bounds := ⟨unsigned.1, unsigned.2, smin, smax⟩ }

def scalar32MinMaxLsh (dst src : RegState) : Option RegState := do
  let umaxVal := src.bounds32.umax
  let uminVal := src.bounds32.umin
  let dstSubreg := tnumSubreg dst.varOff
  let srcSubreg := tnumSubreg src.varOff
  let t ← tnumShl dstSubreg srcSubreg 32
  let dst := { dst.lsh32Bounds uminVal umaxVal with varOff := tnumSubreg t }
  return dst.markReg64Unbounded.updateReg32Bounds

def scalarMinMaxLsh (dst src : RegState) : Option RegState := do
  let umaxVal := src.bounds.umax
  let uminVal := src.bounds.umin
  let dst := dst.lsh64Bounds uminVal umaxVal
  let dst := dst.lsh32Bounds (uminVal.setWidth 32) (umaxVal.setWidth 32)
  let t ← tnumShl dst.varOff src.varOff 64
  return updateRegBounds { dst with varOff := t }

def scalar32MinMaxRsh (dst src : RegState) : Option RegState := do
  let dstSubreg := tnumSubreg dst.varOff
  let srcSubreg := tnumSubreg src.varOff
  let umaxVal := src.bounds32.umax
  let uminVal := src.bounds32.umin
  let t ← tnumLshr dstSubreg srcSubreg 32
  let dst :=
    { dst with
      varOff := t
      bounds32 :=
        ⟨dst.bounds32.umin >>> umaxVal, dst.bounds32.umax >>> uminVal, sMin 32, sMax 32⟩ }
  return dst.markReg64Unbounded.updateReg32Bounds

def scalarMinMaxRsh (dst src : RegState) : Option RegState := do
  let umaxVal := src.bounds.umax
  let uminVal := src.bounds.umin
  let t ← tnumLshr dst.varOff src.varOff 64
  let dst :=
    { dst with
      varOff := t
      bounds := ⟨dst.bounds.umin >>> umaxVal, dst.bounds.umax >>> uminVal, sMin 64, sMax 64⟩ }
  return dst.markReg32Unbounded.updateRegBounds

def scalar32MinMaxArsh (dst src : RegState) : Option RegState := do
  let uminVal := src.bounds32.umin
  guard (src.bounds32.umin = src.bounds32.umax)
  let dst :=
    { dst with
      varOff := tnumArshift (tnumSubreg dst.varOff) (uminVal.setWidth 64) 32
      bounds32 := ⟨0#32, uMax 32, dst.bounds32.smin.sshiftRight' uminVal,
        dst.bounds32.smax.sshiftRight' uminVal⟩ }
  return dst.markReg64Unbounded.updateReg32Bounds

def scalarMinMaxArsh (dst src : RegState) : Option RegState := do
  let uminVal := src.bounds.umin
  guard (src.bounds.umin = src.bounds.umax)
  let dst :=
    { dst with
      varOff := tnumArshift dst.varOff uminVal 64
      bounds := ⟨0#64, uMax 64, dst.bounds.smin.sshiftRight' uminVal,
        dst.bounds.smax.sshiftRight' uminVal⟩ }
  return dst.markReg32Unbounded.updateRegBounds

end RegState

end Exoverifier

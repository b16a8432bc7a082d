import Exoverifier.Verifier.ScalarSound

/-! # One instruction through the verifier

The verifier environment maps every register to its state, and an instruction
overwrites the state of its destination. The source holds the two states by
reference, so that a write is seen by a later read of the other operand when
both operands are one register; here both are read from the environment again
after each write. The states of different registers are assumed to be different
objects, as in a fresh environment: then a write to one register changes no other.
-/

namespace Exoverifier

open Library

inductive Reg where
  | r0 | r1 | r2 | r3 | r4 | r5 | r6 | r7 | r8 | r9 | r10 | ax
  deriving DecidableEq, Repr

instance : Fintype Reg where
  elems := {.r0, .r1, .r2, .r3, .r4, .r5, .r6, .r7, .r8, .r9, .r10, .ax}
  complete r := by cases r <;> decide

inductive BpfClass where
  | alu | alu64
  deriving DecidableEq, Repr

inductive BpfOp where
  | add | sub | mul | div | or | and | lsh | rsh | neg | mod | xor | mov | arsh | endian
  deriving DecidableEq, Repr

/-- An arithmetic instruction whose source operand is a register. -/
structure Insn where
  cls : BpfClass
  op : BpfOp
  dst : Reg
  src : Reg
  deriving DecidableEq, Repr

abbrev VerifierEnv : Type := Reg → RegState

namespace VerifierEnv

def Contains (env : VerifierEnv) (cpu : Reg → BitVec 64) : Prop := ∀ r, (env r).Contains (cpu r)

def Invariants (env : VerifierEnv) : Prop := ∀ r, (env r).Invariants

def Valid (env : VerifierEnv) : Prop := ∀ r, TnumValid (env r).varOff

instance (env : VerifierEnv) (cpu : Reg → BitVec 64) : Decidable (env.Contains cpu) :=
  inferInstanceAs (Decidable (∀ r, (env r).Contains (cpu r)))

instance (env : VerifierEnv) : Decidable env.Invariants :=
  inferInstanceAs (Decidable (∀ r, (env r).Invariants))

instance (env : VerifierEnv) : Decidable env.Valid :=
  inferInstanceAs (Decidable (∀ r, TnumValid (env r).varOff))

/-- Overwrite the destination by a function of both operands as they are now. -/
def write (f : RegState → RegState → RegState) (dst src : Reg) (env : VerifierEnv) : VerifierEnv :=
  Function.update env dst (f (env dst) (env src))

def setVarOff (f : Tnum 64 → Tnum 64 → Tnum 64) (dst src : RegState) : RegState :=
  { dst with varOff := f dst.varOff src.varOff }

def markRegUnknown (env : VerifierEnv) (r : Reg) : VerifierEnv :=
  Function.update env r (env r).markRegUnknown

/-! ## The transfer function -/

/-- The bound checks the three shifts share. -/
def adjustShift (shift32 shift64 : RegState → RegState → Option RegState) (env : VerifierEnv)
    (insn : Insn) (dst src : Reg) : Option VerifierEnv :=
  let bitness := if insn.cls = .alu64 then 64#64 else 32#64
  let umaxVal := (env src).bounds.umax
  if bitness ≤ umaxVal then some (env.markRegUnknown insn.dst)
  else
    let shift := if insn.cls = .alu64 then shift64 else shift32
    (shift (env dst) (env src)).map (Function.update env dst)

/-- The case analysis on the opcode. `none` stands for a failed assertion. -/
def adjustOp (env : VerifierEnv) (insn : Insn) (dst src : Reg) : Option VerifierEnv :=
  match insn.op with
  | .mov => some (env.write (fun _ src => src) dst src)
  | .add =>
      let env := env.write RegState.scalar32MinMaxAdd dst src
      let env := env.write RegState.scalarMinMaxAdd dst src
      some (env.write (setVarOff tnumAdd) dst src)
  | .sub =>
      let env := env.write RegState.scalar32MinMaxSub dst src
      let env := env.write RegState.scalarMinMaxSub dst src
      some (env.write (setVarOff tnumSub) dst src)
  | .and =>
      let env := env.write (setVarOff tnumAnd) dst src
      let env := env.write RegState.scalar32MinMaxAnd dst src
      some (env.write RegState.scalarMinMaxAnd dst src)
  | .or =>
      let env := env.write (setVarOff tnumOr) dst src
      let env := env.write RegState.scalar32MinMaxOr dst src
      some (env.write RegState.scalarMinMaxOr dst src)
  | .xor =>
      let env := env.write (setVarOff tnumXor) dst src
      let env := env.write RegState.scalar32MinMaxXor dst src
      some (env.write RegState.scalarMinMaxXor dst src)
  | .lsh => adjustShift RegState.scalar32MinMaxLsh RegState.scalarMinMaxLsh env insn dst src
  | .rsh => adjustShift RegState.scalar32MinMaxRsh RegState.scalarMinMaxRsh env insn dst src
  | .arsh => adjustShift RegState.scalar32MinMaxArsh RegState.scalarMinMaxArsh env insn dst src
  | _ => none

def adjustScalarMinMaxVals (env : VerifierEnv) (insn : Insn) (dst src : Reg) :
    Option VerifierEnv := do
  let env ← env.adjustOp insn dst src
  let env := if insn.cls = .alu64 then env else Function.update env dst (env dst).zext32To64
  if insn.op = .mov then return env
  else
    let reg ← (env dst).sync
    return Function.update env dst reg

def adjustRegMinMaxVals (env : VerifierEnv) (insn : Insn) : Option VerifierEnv :=
  env.adjustScalarMinMaxVals insn insn.dst insn.src

end VerifierEnv

end Exoverifier

import Exoverifier.Bpf.Cfg
import Exoverifier.Se.Value

/-! # Symbolic evaluation

The evaluator of `bpf/se/basic.lean`. It walks over every path of a program up
to a number of steps and builds one condition: each check along a path is an
assertion under the assumptions that lead there. Each step is given the
evaluator of the steps after it.
-/

namespace Exoverifier.Bpf.Se

open Cfg Library Smt UnorderedMap

structure SymState (β η : Type) where
  assumptions : β
  assertions : β
  current : η
  regs : List.Vector (SymValue β) nregs
  nextRng : ℕ

variable {χ η β γ : Type} [SmtFactory β γ]

/-- Add an assertion under the assumptions. -/
def assert (c : β) (s : SymState β η) : StateM γ (SymState β η) := do
  let c' ← mkImplies s.assumptions c
  let assertions' ← mkAnd s.assertions c'
  return { s with assertions := assertions' }

def assume (c : β) (s : SymState β η) : StateM γ (SymState β η) := do
  let c' ← mkAnd c s.assumptions
  return { s with assumptions := c' }

/-- The condition that rejects the path. -/
def die : StateM γ β := mkFalse

/-- The condition that the path is never taken. -/
def infeasible (s : SymState β η) : StateM γ β := mkNot s.assumptions

section Steps

variable (k : SymState β η → StateM γ β)

/-- Arithmetic on a register and an operand. -/
def stepAlu64 (op : ALU) (dst : Reg) (src : SymValue β) (next : η) (s : SymState β η) :
    StateM γ β := do
  let check ← SymValue.doALUCheck op (s.regs.get dst.toFin) src
  let s' ← assert check s
  let val ← SymValue.doALU op (s.regs.get dst.toFin) src
  k { s' with regs := s.regs.set dst.toFin val, current := next }

def stepAlu64X (op : ALU) (dst src : Reg) (next : η) (s : SymState β η) : StateM γ β :=
  stepAlu64 k op dst (s.regs.get src.toFin) next s

def stepAlu64K (op : ALU) (dst : Reg) (imm : BitVec 64) (next : η) (s : SymState β η) :
    StateM γ β := do
  let const ← SymValue.mkScalar imm
  stepAlu64 k op dst const next s

/-- Both sides of a branch are walked, each under its own assumption. -/
def stepJmp64 (op : JMP) (dst : Reg) (src : SymValue β) (ifTrue ifFalse : η)
    (s : SymState β η) : StateM γ β := do
  let check ← SymValue.doJMP64Check op (s.regs.get dst.toFin) src
  let s' ← assert check s
  let cond ← SymValue.doJMP64 op (s'.regs.get dst.toFin) src
  let ncond ← mkNot cond
  let truestate ← assume cond s'
  let trueCondition ← k { truestate with current := ifTrue }
  let falsestate ← assume ncond s'
  let falseCondition ← k { falsestate with current := ifFalse }
  mkAnd trueCondition falseCondition

def stepJmp64X (op : JMP) (dst src : Reg) (ifTrue ifFalse : η) (s : SymState β η) :
    StateM γ β :=
  stepJmp64 k op dst (s.regs.get src.toFin) ifTrue ifFalse s

def stepJmp64K (op : JMP) (dst : Reg) (imm : BitVec 64) (ifTrue ifFalse : η)
    (s : SymState β η) : StateM γ β := do
  let const ← SymValue.mkScalar imm
  stepJmp64 k op dst const ifTrue ifFalse s

/-- Only a scalar may be returned. -/
def stepExit (s : SymState β η) : StateM γ β := do
  let noleak ← mkConst1 (s.regs.get Reg.r0.toFin).isScalar
  let s ← assert noleak s
  return s.assertions

def doCallCheck (_ : SymState β η) : BpfFunc → StateM γ β
  | .getPrandomU32 => mkTrue

/-- The result of a call is a fresh variable. -/
def stepCall (o : Oracle) (func : BpfFunc) (next : η) (s : SymState β η) : StateM γ β := do
  let check ← doCallCheck s func
  let s' ← assert check s
  let ret ← mkVar (o.rng s'.nextRng)
  let newregs := Reg.callerSaved.foldl (fun l r => l.set r.toFin .uninitialized) s'.regs
  let retregs := newregs.set Reg.r0.toFin (.scalar ret)
  k { s' with regs := retregs, current := next, nextRng := s.nextRng + 1 }

/-- One instruction; those that are not supported reject the path. -/
def stepSymeval [UnorderedMap η (Instr η) χ] [DecidableEq η] (cfg : CFG χ η) (o : Oracle)
    (s : SymState β η) : StateM γ β :=
  match lookup s.current cfg.code with
  | some (.alu64X op dst src next) => stepAlu64X k op dst src next s
  | some (.alu64K op dst imm next) => stepAlu64K k op dst imm next s
  | some (.alu32X _ _ _ _) => die
  | some (.alu32K _ _ _ _) => die
  | some (.jmp64X op r₁ r₂ ifTrue ifFalse) => stepJmp64X k op r₁ r₂ ifTrue ifFalse s
  | some (.jmp64K op r₁ imm ifTrue ifFalse) => stepJmp64K k op r₁ imm ifTrue ifFalse s
  | some .exit => stepExit s
  | some (.stx _ _ _ _ _) => die
  | some (.ldImm _ _ _) => die
  | some (.call func next) => stepCall k o func next s
  | none => die

end Steps

section Vcgen

variable [UnorderedMap η (Instr η) χ] [DecidableEq η]

/-- Walk the program for a number of steps. -/
def symeval (cfg : CFG χ η) (o : Oracle) : ℕ → SymState β η → StateM γ β
  | 0 => infeasible
  | n + 1 => stepSymeval (symeval cfg o n) cfg o

def initialSymstate (cfg : CFG χ η) : StateM γ (SymState β η) := do
  let truthy ← mkTrue
  return {
    assumptions := truthy
    assertions := truthy
    regs := List.Vector.replicate nregs .uninitialized
    current := cfg.entry
    nextRng := 0 }

/-- The condition under which the program is safe. -/
def vcgen (cfg : CFG χ η) (fuel : ℕ) (o : Oracle) : StateM γ β := do
  let init ← initialSymstate cfg
  symeval cfg o fuel init

end Vcgen

end Exoverifier.Bpf.Se

import Exoverifier.Bpf.Basic
import Exoverifier.Smt.Factory

/-! # Symbolic values

The register values of the symbolic evaluator of `bpf/se/symbolic_value.lean`.
Which kind of value a register holds is known, and the word in it is an
expression. Every operation builds the expression of the concrete one.
-/

namespace Exoverifier.Bpf.Se

open Library Smt

inductive SymValue (β : Type) where
  | pointer (m : MemRegion) (off : β)
  | scalar (val : β)
  | uninitialized
  deriving DecidableEq

namespace SymValue

variable {β γ : Type}

def isScalar : SymValue β → Bool
  | scalar _ => true
  | _ => false

section Base

variable [SmtBase β γ]

inductive Sat (g : γ) : SymValue β → Value → Prop where
  | pointer {m : MemRegion} {off : β} {v : BitVec 64} : sat g off v →
      Sat g (pointer m off) (.pointer m v)
  | scalar {val : β} {v : BitVec 64} : sat g val v → Sat g (scalar val) (.scalar v)
  | uninitialized : Sat g uninitialized .uninitialized

def mkScalar (imm : BitVec 64) : StateM γ (SymValue β) := scalar <$> mkConst imm

variable {g g' : γ} {x : SymValue β} {v : Value}

theorem Sat.mono (hle : g ≤ g') (h : Sat g x v) : Sat g' x v := by
  cases h with
  | pointer h => exact .pointer (SmtBase.sat_of_le hle h)
  | scalar h => exact .scalar (SmtBase.sat_of_le hle h)
  | uninitialized => exact .uninitialized

theorem isScalar_iff (h : Sat g x v) : x.isScalar = true ↔ v.IsScalar := by
  cases h with
  | pointer h => exact iff_of_false Bool.false_ne_true (fun ⟨_, h⟩ => nomatch h)
  | scalar h => exact iff_of_true rfl ⟨_, rfl⟩
  | uninitialized => exact iff_of_false Bool.false_ne_true (fun ⟨_, h⟩ => nomatch h)

theorem builds_mkScalar (g : γ) (imm : BitVec 64) :
    Builds (mkScalar imm) g fun g' (x : SymValue β) => Sat g' x (.scalar imm) :=
  (SmtBase.builds_mkConst g imm).map fun _ _ _ h => .scalar h

end Base

variable [SmtFactory β γ] {g : γ} {x y : SymValue β} {e₁ e₂ : β} {v w : Value}
variable {v₁ v₂ : BitVec 64}

/-! ## Arithmetic -/

def doALU64Scalar : ALU → β → β → StateM γ β
  | .add, a, b => mkAdd a b
  | .and, a, b => mkAnd a b
  | .arsh, a, b => mkAshr a b
  | .div, a, b => mkUdiv a b
  | .endian, a, _ => pure a
  | .lsh, a, b => mkShl a b
  | .mod, a, b => mkUrem a b
  | .mov, _, b => pure b
  | .mul, a, b => mkMul a b
  | .neg, a, _ => mkNeg a
  | .or, a, b => mkOr a b
  | .rsh, a, b => mkLshr a b
  | .sub, a, b => mkSub a b
  | .xor, a, b => mkXor a b

def doALUPointerScalar : ALU → MemRegion → β → β → StateM γ (SymValue β)
  | .add, m, off, val => pointer m <$> mkAdd off val
  | .sub, m, off, val => pointer m <$> mkSub off val
  | .mov, _, _, val => pure (scalar val)
  | _, m, off, _ => pure (pointer m off)

def doALU : ALU → SymValue β → SymValue β → StateM γ (SymValue β)
  | op, scalar a, scalar b => scalar <$> doALU64Scalar op a b
  | op, pointer m off, scalar val => doALUPointerScalar op m off val
  | .mov, _, b => pure b
  | _, a, _ => pure a

def doALU64ScalarCheck : ALU → β → β → StateM γ β
  | .div, _, b => mkRedor b
  | .mod, _, b => mkRedor b
  | .lsh, _, b => mkConst (64 : BitVec 64) >>= mkUlt b
  | .rsh, _, b => mkConst (64 : BitVec 64) >>= mkUlt b
  | .arsh, _, b => mkConst (64 : BitVec 64) >>= mkUlt b
  | .endian, _, _ => mkFalse
  | _, _, _ => mkTrue

def doALUPointerScalarCheck : ALU → StateM γ β
  | .add => mkTrue
  | .sub => mkTrue
  | .mov => mkTrue
  | _ => mkFalse

def doALUCheck : ALU → SymValue β → SymValue β → StateM γ β
  | op, scalar a, scalar b => doALU64ScalarCheck op a b
  | op, pointer _ _, scalar _ => doALUPointerScalarCheck op
  | op, _, scalar _ => if op = .mov then mkTrue else mkFalse
  | op, _, pointer _ _ => if op = .mov then mkTrue else mkFalse
  | _, _, _ => mkFalse

theorem builds_doALU64Scalar (op : ALU) (h₁ : sat g e₁ v₁) (h₂ : sat g e₂ v₂) :
    Builds (doALU64Scalar op e₁ e₂) g fun g' e => sat g' e (op.doALU64Scalar v₁ v₂) := by
  cases op with
  | add => exact SmtBase.builds_mkAdd h₁ h₂
  | and => exact SmtBase.builds_mkAnd h₁ h₂
  | arsh => exact builds_mkAshr h₁ h₂
  | div => exact SmtFactory.builds_mkUdiv h₁ h₂
  | endian => exact .pure h₁
  | lsh => exact SmtBase.builds_mkShl h₁ h₂
  | mod => exact SmtBase.builds_mkUrem h₁ h₂
  | mov => exact .pure h₂
  | mul => exact SmtBase.builds_mkMul h₁ h₂
  | neg => exact SmtFactory.builds_mkNeg h₁
  | or => exact SmtFactory.builds_mkOr h₁ h₂
  | rsh => exact SmtBase.builds_mkLshr h₁ h₂
  | sub => exact SmtBase.builds_mkSub h₁ h₂
  | xor => exact SmtBase.builds_mkXor h₁ h₂

theorem builds_doALUPointerScalar (op : ALU) (m : MemRegion) (h₁ : sat g e₁ v₁)
    (h₂ : sat g e₂ v₂) : Builds (doALUPointerScalar op m e₁ e₂) g fun g' z =>
      Sat g' z (op.doALUPointerScalar m v₁ v₂) := by
  cases op with
  | add => exact (SmtBase.builds_mkAdd h₁ h₂).map fun _ _ _ h => .pointer h
  | sub => exact (SmtBase.builds_mkSub h₁ h₂).map fun _ _ _ h => .pointer h
  | mov => exact .pure (.scalar h₂)
  | _ => exact .pure (.pointer h₁)

theorem builds_doALU (op : ALU) (hx : Sat g x v) (hy : Sat g y w) :
    Builds (doALU op x y) g fun g' z => Sat g' z (op.doALU64 v w) := by
  cases hx with
  | scalar h₁ =>
      cases hy with
      | scalar h₂ =>
          have hscalar : Builds (scalar <$> doALU64Scalar op _ _) g fun g' z =>
              Sat g' z (.scalar (op.doALU64Scalar _ _)) :=
            (builds_doALU64Scalar op h₁ h₂).map fun _ _ _ h => .scalar h
          cases op <;> exact hscalar
      | pointer h₂ => cases op <;> first | exact .pure (.pointer h₂) | exact .pure (.scalar h₁)
      | uninitialized => cases op <;> first | exact .pure .uninitialized | exact .pure (.scalar h₁)
  | pointer h₁ =>
      cases hy with
      | scalar h₂ => cases op <;> exact builds_doALUPointerScalar _ _ h₁ h₂
      | pointer h₂ => cases op <;> first | exact .pure (.pointer h₂) | exact .pure (.pointer h₁)
      | uninitialized => cases op <;> first | exact .pure .uninitialized | exact .pure (.pointer h₁)
  | uninitialized => cases op <;> first | exact .pure hy | exact .pure .uninitialized

theorem builds_doALU64ScalarCheck (op : ALU) (e₁ : β) (v₁ : BitVec 64) (h₂ : sat g e₂ v₂) :
    Builds (doALU64ScalarCheck op e₁ e₂) g fun g' e =>
      sat g' e (BitVec.ofBool (op.doALU64ScalarCheck v₁ v₂)) := by
  have hshift : Builds (mkConst (64 : BitVec 64) >>= mkUlt e₂) g fun g' e =>
      sat g' e (BitVec.ofBool (v₂ < 64)) :=
    (SmtBase.builds_mkConst g 64).bind fun _ _ hle h64 =>
      SmtBase.builds_mkUlt (SmtBase.sat_of_le hle h₂) h64
  cases op with
  | div => exact SmtBase.builds_mkRedor h₂
  | mod => exact SmtBase.builds_mkRedor h₂
  | lsh => exact hshift
  | rsh => exact hshift
  | arsh => exact hshift
  | _ => exact builds_mkConst1 g _

theorem builds_doALUCheck (op : ALU) (hx : Sat g x v) (hy : Sat g y w) :
    Builds (doALUCheck op x y) g fun g' e => sat g' e (BitVec.ofBool (op.doALU64Check v w)) := by
  cases hx with
  | @scalar e₁ v₁ h₁ =>
      cases hy with
      | scalar h₂ => cases op <;> exact builds_doALU64ScalarCheck _ e₁ v₁ h₂
      | pointer h₂ => cases op <;> exact builds_mkConst1 g _
      | uninitialized => exact builds_mkConst1 g _
  | pointer h₁ =>
      cases hy with
      | scalar h₂ => cases op <;> exact builds_mkConst1 g _
      | pointer h₂ => cases op <;> exact builds_mkConst1 g _
      | uninitialized => exact builds_mkConst1 g _
  | uninitialized =>
      cases hy with
      | scalar h₂ => cases op <;> exact builds_mkConst1 g _
      | pointer h₂ => cases op <;> exact builds_mkConst1 g _
      | uninitialized => exact builds_mkConst1 g _

/-! ## Jumps -/

def doJMP64Check (_ : JMP) : SymValue β → SymValue β → StateM γ β
  | scalar _, scalar _ => mkTrue
  | _, _ => mkFalse

def doJMP64Scalar : JMP → β → β → StateM γ β
  | .jeq, a, b => mkEq a b
  | .jne, a, b => mkEq a b >>= mkNot
  | .jset, a, b => mkAnd a b >>= mkRedor
  | .jlt, a, b => mkUlt a b
  | .jgt, a, b => mkUlt b a
  | .jle, a, b => mkUle a b
  | .jge, a, b => mkUle b a
  | .jslt, a, b => mkSlt a b
  | .jsgt, a, b => mkSlt b a
  | .jsle, a, b => mkSle a b
  | .jsge, a, b => mkSle b a

def doJMP64 : JMP → SymValue β → SymValue β → StateM γ β
  | op, scalar a, scalar b => doJMP64Scalar op a b
  | _, _, _ => mkFalse

theorem builds_doJMP64Check (op : JMP) (hx : Sat g x v) (hy : Sat g y w) :
    Builds (doJMP64Check op x y) g fun g' e =>
      sat g' e (BitVec.ofBool (op.doJMP64Check v w)) := by
  cases hx <;> cases hy <;> exact builds_mkConst1 g _

theorem builds_doJMP64Scalar (op : JMP) (h₁ : sat g e₁ v₁) (h₂ : sat g e₂ v₂) :
    Builds (doJMP64Scalar op e₁ e₂) g fun g' e =>
      sat g' e (BitVec.ofBool (op.doJMP64Scalar v₁ v₂)) := by
  cases op with
  | jeq => exact SmtBase.builds_mkEq h₁ h₂
  | jne =>
      refine (SmtBase.builds_mkEq h₁ h₂).bind fun _ _ _ heq => ?_
      refine (SmtBase.builds_mkNot heq).mono fun _ _ _ h => ?_
      rwa [BitVec.not_ofBool, ← decide_not] at h
  | jset => exact (SmtBase.builds_mkAnd h₁ h₂).bind fun _ _ _ h => SmtBase.builds_mkRedor h
  | jlt => exact SmtBase.builds_mkUlt h₁ h₂
  | jgt => exact SmtBase.builds_mkUlt h₂ h₁
  | jle => exact builds_mkUle h₁ h₂
  | jge => exact builds_mkUle h₂ h₁
  | jslt => exact builds_mkSlt h₁ h₂
  | jsgt => exact builds_mkSlt h₂ h₁
  | jsle => exact builds_mkSle h₁ h₂
  | jsge => exact builds_mkSle h₂ h₁

theorem builds_doJMP64 (op : JMP) (hx : Sat g x v) (hy : Sat g y w) :
    Builds (doJMP64 op x y) g fun g' e => sat g' e (BitVec.ofBool (op.doJMP64 v w)) := by
  cases hx with
  | scalar h₁ =>
      cases hy with
      | scalar h₂ => exact builds_doJMP64Scalar op h₁ h₂
      | pointer h₂ => exact builds_mkConst1 g _
      | uninitialized => exact builds_mkConst1 g _
  | pointer h₁ => cases hy <;> exact builds_mkConst1 g _
  | uninitialized => cases hy <;> exact builds_mkConst1 g _

end SymValue

end Exoverifier.Bpf.Se

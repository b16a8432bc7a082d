import Exoverifier.Se.Basic
import Exoverifier.Smt.Erasure

/-! # The condition does not depend on the oracle

The evaluator reads the oracle for the values of fresh variables only, and these are
erased. The conditions for two oracles are built by the same steps.
-/

namespace Exoverifier.Bpf.Se

open Cfg Library Smt UnorderedMap
open Smt.Erasure (Same SameExpr)

/-! ## Values -/

namespace SymValue

variable {β γ : Type} [SmtFactory β γ] [Smt.Erasure β γ]

/-- Values of one kind with the same expression. -/
inductive SameValue (γ : Type) [SmtFactory β γ] [Smt.Erasure β γ] :
    SymValue β → SymValue β → Prop where
  | pointer (m : MemRegion) {off off' : β} : SameExpr γ off off' →
      SameValue γ (.pointer m off) (.pointer m off')
  | scalar {val val' : β} : SameExpr γ val val' → SameValue γ (.scalar val) (.scalar val')
  | uninitialized : SameValue γ .uninitialized .uninitialized

abbrev AlikeValue (m m' : StateM γ (SymValue β)) : Prop := Lockstep Same (SameValue γ) m m'

variable {e₁ e₂ e₁' e₂' : β} {x y x' y' : SymValue β}

theorem SameValue.isScalar (h : SameValue γ x x') : x.isScalar = x'.isScalar := by
  cases h <;> rfl

theorem alike_mkScalar (imm : BitVec 64) :
    AlikeValue (mkScalar imm : StateM γ (SymValue β)) (mkScalar imm) :=
  (Smt.Erasure.mkConst imm).map fun _ _ h => .scalar h

section Binary

variable (h₁ : SameExpr γ e₁ e₁') (h₂ : SameExpr γ e₂ e₂')

include h₁ h₂

theorem alike_doALU64Scalar (op : ALU) :
    Alike (doALU64Scalar op e₁ e₂ : StateM γ β) (doALU64Scalar op e₁' e₂') := by
  cases op with
  | add => exact Smt.Erasure.mkAdd h₁ h₂
  | and => exact Smt.Erasure.mkAnd h₁ h₂
  | arsh => exact Smt.Erasure.mkAshr h₁ h₂
  | div => exact Smt.Erasure.mkUdiv h₁ h₂
  | endian => exact .pure h₁
  | lsh => exact Smt.Erasure.mkShl h₁ h₂
  | mod => exact Smt.Erasure.mkUrem h₁ h₂
  | mov => exact .pure h₂
  | mul => exact Smt.Erasure.mkMul h₁ h₂
  | neg => exact Smt.Erasure.mkNeg h₁
  | or => exact Smt.Erasure.mkOr h₁ h₂
  | rsh => exact Smt.Erasure.mkLshr h₁ h₂
  | sub => exact Smt.Erasure.mkSub h₁ h₂
  | xor => exact Smt.Erasure.mkXor h₁ h₂

theorem alike_doALUPointerScalar (op : ALU) (m : MemRegion) :
    AlikeValue (doALUPointerScalar op m e₁ e₂ : StateM γ (SymValue β))
      (doALUPointerScalar op m e₁' e₂') := by
  cases op with
  | add => exact (Smt.Erasure.mkAdd h₁ h₂).map fun _ _ h => .pointer m h
  | sub => exact (Smt.Erasure.mkSub h₁ h₂).map fun _ _ h => .pointer m h
  | mov => exact .pure (.scalar h₂)
  | _ => exact .pure (.pointer m h₁)

theorem alike_doJMP64Scalar (op : JMP) :
    Alike (doJMP64Scalar op e₁ e₂ : StateM γ β) (doJMP64Scalar op e₁' e₂') := by
  cases op with
  | jeq => exact Smt.Erasure.mkEq h₁ h₂
  | jne => exact (Smt.Erasure.mkEq h₁ h₂).bind fun _ _ h => Smt.Erasure.mkNot h
  | jset => exact (Smt.Erasure.mkAnd h₁ h₂).bind fun _ _ h => Smt.Erasure.mkRedor h
  | jlt => exact Smt.Erasure.mkUlt h₁ h₂
  | jgt => exact Smt.Erasure.mkUlt h₂ h₁
  | jle => exact Smt.Erasure.mkUle h₁ h₂
  | jge => exact Smt.Erasure.mkUle h₂ h₁
  | jslt => exact Smt.Erasure.mkSlt h₁ h₂
  | jsgt => exact Smt.Erasure.mkSlt h₂ h₁
  | jsle => exact Smt.Erasure.mkSle h₁ h₂
  | jsge => exact Smt.Erasure.mkSle h₂ h₁

omit h₁ in
theorem alike_doALU64ScalarCheck (op : ALU) (e₁ e₁' : β) :
    Alike (doALU64ScalarCheck op e₁ e₂ : StateM γ β) (doALU64ScalarCheck op e₁' e₂') := by
  have hshift : Alike (mkConst (64 : BitVec 64) >>= mkUlt e₂ : StateM γ β)
      (mkConst (64 : BitVec 64) >>= mkUlt e₂') :=
    (Smt.Erasure.mkConst 64).bind fun _ _ h => Smt.Erasure.mkUlt h₂ h
  cases op with
  | div => exact Smt.Erasure.mkRedor h₂
  | mod => exact Smt.Erasure.mkRedor h₂
  | lsh => exact hshift
  | rsh => exact hshift
  | arsh => exact hshift
  | _ => exact Smt.Erasure.mkConst1 _

end Binary

section Values

variable (hx : SameValue γ x x') (hy : SameValue γ y y')

include hx hy

theorem alike_doALU (op : ALU) :
    AlikeValue (doALU op x y : StateM γ (SymValue β)) (doALU op x' y') := by
  cases hx with
  | scalar h₁ =>
      cases hy with
      | scalar h₂ =>
          have hscalar := (alike_doALU64Scalar (γ := γ) h₁ h₂ op).map fun _ _ h =>
            SameValue.scalar h
          cases op <;> exact hscalar
      | pointer m h₂ =>
          cases op <;> first | exact .pure (.pointer m h₂) | exact .pure (.scalar h₁)
      | uninitialized =>
          cases op <;> first | exact .pure .uninitialized | exact .pure (.scalar h₁)
  | pointer m h₁ =>
      cases hy with
      | scalar h₂ => cases op <;> exact alike_doALUPointerScalar h₁ h₂ _ m
      | pointer m' h₂ =>
          cases op <;> first | exact .pure (.pointer m' h₂) | exact .pure (.pointer m h₁)
      | uninitialized =>
          cases op <;> first | exact .pure .uninitialized | exact .pure (.pointer m h₁)
  | uninitialized => cases op <;> first | exact .pure hy | exact .pure .uninitialized

theorem alike_doALUCheck (op : ALU) :
    Alike (doALUCheck op x y : StateM γ β) (doALUCheck op x' y') := by
  cases hx with
  | @scalar e₁ e₁' h₁ =>
      cases hy with
      | scalar h₂ => cases op <;> exact alike_doALU64ScalarCheck h₂ _ e₁ e₁'
      | pointer m h₂ => cases op <;> exact Smt.Erasure.mkConst1 _
      | uninitialized => exact Smt.Erasure.mkConst1 _
  | pointer m h₁ =>
      cases hy with
      | scalar h₂ => cases op <;> exact Smt.Erasure.mkConst1 _
      | pointer m h₂ => cases op <;> exact Smt.Erasure.mkConst1 _
      | uninitialized => exact Smt.Erasure.mkConst1 _
  | uninitialized =>
      cases hy with
      | scalar h₂ => cases op <;> exact Smt.Erasure.mkConst1 _
      | pointer m h₂ => cases op <;> exact Smt.Erasure.mkConst1 _
      | uninitialized => exact Smt.Erasure.mkConst1 _

theorem alike_doJMP64Check (op : JMP) :
    Alike (doJMP64Check op x y : StateM γ β) (doJMP64Check op x' y') := by
  cases hx <;> cases hy <;> exact Smt.Erasure.mkConst1 _

theorem alike_doJMP64 (op : JMP) :
    Alike (doJMP64 op x y : StateM γ β) (doJMP64 op x' y') := by
  cases hx with
  | scalar h₁ =>
      cases hy with
      | scalar h₂ => exact alike_doJMP64Scalar h₁ h₂ op
      | pointer m h₂ => exact Smt.Erasure.mkConst1 _
      | uninitialized => exact Smt.Erasure.mkConst1 _
  | pointer m h₁ => cases hy <;> exact Smt.Erasure.mkConst1 _
  | uninitialized => cases hy <;> exact Smt.Erasure.mkConst1 _

end Values

end SymValue

/-! ## States -/

variable {χ η β γ : Type} [SmtFactory β γ] [Smt.Erasure β γ]

structure SameState (γ : Type) [SmtFactory β γ] [Smt.Erasure β γ] (s s' : SymState β η) : Prop where
  assumptions : SameExpr γ s.assumptions s'.assumptions
  assertions : SameExpr γ s.assertions s'.assertions
  current : s.current = s'.current
  regs : ∀ r : Reg, SymValue.SameValue γ (s.regs.get r.toFin) (s'.regs.get r.toFin)
  nextRng : s.nextRng = s'.nextRng

abbrev AlikeState (m m' : StateM γ (SymState β η)) : Prop := Lockstep Same (SameState γ) m m'

variable {s s' : SymState β η} {c c' : β} {x x' src src' : SymValue β}

theorem SameState.jump (h : SameState γ s s') (pc : η) :
    SameState γ { s with current := pc } { s' with current := pc } where
  assumptions := h.assumptions
  assertions := h.assertions
  current := rfl
  regs := h.regs
  nextRng := h.nextRng

theorem sameValue_set {regs regs' : List.Vector (SymValue β) nregs}
    (h : ∀ r : Reg, SymValue.SameValue γ (regs.get r.toFin) (regs'.get r.toFin))
    (hx : SymValue.SameValue γ x x') (dst r : Reg) :
    SymValue.SameValue γ ((regs.set dst.toFin x).get r.toFin)
      ((regs'.set dst.toFin x').get r.toFin) := by
  rw [Reg.get_set, Reg.get_set]
  split
  · exact hx
  · exact h r

theorem alike_assert (h : SameState γ s s') (hc : SameExpr γ c c') :
    AlikeState (assert c s : StateM γ (SymState β η)) (assert c' s') := by
  refine (Smt.Erasure.mkImplies h.assumptions hc).bind fun d d' hd => ?_
  refine (Smt.Erasure.mkAnd h.assertions hd).bind fun a a' ha => ?_
  exact .pure ⟨h.assumptions, ha, h.current, h.regs, h.nextRng⟩

theorem alike_assume (h : SameState γ s s') (hc : SameExpr γ c c') :
    AlikeState (assume c s : StateM γ (SymState β η)) (assume c' s') := by
  refine (Smt.Erasure.mkAnd hc h.assumptions).bind fun d d' hd => ?_
  exact .pure ⟨hd, h.assertions, h.current, h.regs, h.nextRng⟩

/-! ## Steps -/

section Steps

variable {k k' : SymState β η → StateM γ β}
variable (hk : ∀ s s', SameState γ s s' → Alike (k s) (k' s'))

include hk

theorem alike_stepAlu64 (h : SameState γ s s') (op : ALU) (dst : Reg)
    (hsrc : SymValue.SameValue γ src src') (next : η) :
    Alike (stepAlu64 k op dst src next s) (stepAlu64 k' op dst src' next s') := by
  refine (SymValue.alike_doALUCheck (h.regs dst) hsrc op).bind fun check check' hcheck => ?_
  refine (alike_assert h hcheck).bind fun t t' ht => ?_
  refine (SymValue.alike_doALU (h.regs dst) hsrc op).bind fun val val' hval => hk _ _ ?_
  exact ⟨ht.assumptions, ht.assertions, rfl, sameValue_set h.regs hval dst, ht.nextRng⟩

theorem alike_stepJmp64 (h : SameState γ s s') (op : JMP) (dst : Reg)
    (hsrc : SymValue.SameValue γ src src') (ifTrue ifFalse : η) :
    Alike (stepJmp64 k op dst src ifTrue ifFalse s)
      (stepJmp64 k' op dst src' ifTrue ifFalse s') := by
  refine (SymValue.alike_doJMP64Check (h.regs dst) hsrc op).bind fun check check' hcheck => ?_
  refine (alike_assert h hcheck).bind fun t t' ht => ?_
  refine (SymValue.alike_doJMP64 (ht.regs dst) hsrc op).bind fun cond cond' hcond => ?_
  refine (Smt.Erasure.mkNot hcond).bind fun ncond ncond' hncond => ?_
  refine (alike_assume ht hcond).bind fun t₁ t₁' ht₁ => ?_
  refine (hk _ _ (ht₁.jump ifTrue)).bind fun e₁ e₁' he₁ => ?_
  refine (alike_assume ht hncond).bind fun t₂ t₂' ht₂ => ?_
  exact (hk _ _ (ht₂.jump ifFalse)).bind fun e₂ e₂' he₂ => Smt.Erasure.mkAnd he₁ he₂

/-- The values that the oracles give to the new variable may differ. -/
theorem alike_stepCall (h : SameState γ s s') (o o' : Oracle) (func : BpfFunc) (next : η) :
    Alike (stepCall k o func next s) (stepCall k' o' func next s') := by
  have hcheck : Alike (doCallCheck s func : StateM γ β) (doCallCheck s' func) := by
    cases func
    exact Smt.Erasure.mkConst1 true
  refine hcheck.bind fun check check' hcheck => ?_
  refine (alike_assert h hcheck).bind fun t t' ht => ?_
  refine (Smt.Erasure.mkVar _ _).bind fun ret ret' hret => hk _ _ ?_
  refine ⟨ht.assumptions, ht.assertions, rfl, ?_, congrArg (· + 1) h.nextRng⟩
  refine sameValue_set (fun r => ?_) (.scalar hret) .r0
  rw [Reg.get_foldl_set, Reg.get_foldl_set]
  split
  · exact .uninitialized
  · exact ht.regs r

end Steps

theorem alike_stepExit (h : SameState γ s s') :
    Alike (stepExit s : StateM γ β) (stepExit s') := by
  unfold stepExit
  rw [(h.regs .r0).isScalar]
  refine (Smt.Erasure.mkConst1 _).bind fun noleak noleak' hnoleak => ?_
  exact (alike_assert h hnoleak).bind fun t t' ht => .pure ht.assertions

/-! ## Conditions -/

variable [UnorderedMap η (Instr η) χ] [DecidableEq η]

theorem alike_stepSymeval {k k' : SymState β η → StateM γ β}
    (hk : ∀ s s', SameState γ s s' → Alike (k s) (k' s')) (cfg : CFG χ η) (o o' : Oracle)
    (h : SameState γ s s') : Alike (stepSymeval k cfg o s) (stepSymeval k' cfg o' s') := by
  have hdie : Alike (die : StateM γ β) die := Smt.Erasure.mkConst1 false
  unfold stepSymeval
  rw [h.current]
  split
  · exact alike_stepAlu64 hk h _ _ (h.regs _) _
  · exact (SymValue.alike_mkScalar _).bind fun _ _ hconst => alike_stepAlu64 hk h _ _ hconst _
  · exact hdie
  · exact hdie
  · exact alike_stepJmp64 hk h _ _ (h.regs _) _ _
  · exact (SymValue.alike_mkScalar _).bind fun _ _ hconst => alike_stepJmp64 hk h _ _ hconst _ _
  · exact alike_stepExit h
  · exact hdie
  · exact hdie
  · exact alike_stepCall hk h o o' _ _
  · exact hdie

theorem alike_symeval (cfg : CFG χ η) (o o' : Oracle) (n : ℕ) (h : SameState γ s s') :
    Alike (symeval cfg o n s : StateM γ β) (symeval cfg o' n s') := by
  induction n generalizing s s' with
  | zero => exact Smt.Erasure.mkNot h.assumptions
  | succ n ih => exact alike_stepSymeval (fun _ _ => ih) cfg o o' h

/-- Two oracles give conditions that differ in erased values only. -/
theorem alike_vcgen (cfg : CFG χ η) (fuel : ℕ) (o o' : Oracle) :
    Alike (vcgen cfg fuel o : StateM γ β) (vcgen cfg fuel o') := by
  have hinit : AlikeState (initialSymstate cfg : StateM γ (SymState β η))
      (initialSymstate cfg) := by
    refine (Smt.Erasure.mkConst1 true).bind fun truthy truthy' htruthy => .pure ?_
    refine ⟨htruthy, htruthy, rfl, fun r => ?_, rfl⟩
    rw [List.Vector.get_replicate]
    exact .uninitialized
  exact hinit.bind fun s s' h => alike_symeval cfg o o' fuel h

end Exoverifier.Bpf.Se

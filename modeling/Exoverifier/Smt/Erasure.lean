import Exoverifier.Library.Lockstep
import Exoverifier.Smt.Reduction

/-! # Erased values

A factory keeps the value of every variable, which the source erases: nothing that
is computed depends on it. Two factories are the same when they differ in these
values only, and every operator takes the same steps in both.
-/

namespace Exoverifier.Sat

open Library

/-- Which states and which expressions differ in erased values only. A new variable
may have any value. -/
class Erasure (β : outParam Type) (γ : Type) [SatVarFactory β γ] where
  Same : γ → γ → Prop
  SameExpr : β → β → Prop
  same_initF : Same SatFactory.initF SatFactory.initF
  sameExpr_mkConst : ∀ {g g' : γ} (b : Bool), Same g g' →
    SameExpr (SatFactory.mkConst g b) (SatFactory.mkConst g' b)
  mkNot : ∀ {e e' : β}, SameExpr e e' → Lockstep Same SameExpr (Sat.mkNot e) (Sat.mkNot e')
  mkAnd : ∀ {e₁ e₂ e₁' e₂' : β}, SameExpr e₁ e₁' → SameExpr e₂ e₂' →
    Lockstep Same SameExpr (Sat.mkAnd e₁ e₂) (Sat.mkAnd e₁' e₂')
  mkOr : ∀ {e₁ e₂ e₁' e₂' : β}, SameExpr e₁ e₁' → SameExpr e₂ e₂' →
    Lockstep Same SameExpr (Sat.mkOr e₁ e₂) (Sat.mkOr e₁' e₂')
  mkVar : ∀ b b' : Bool, Lockstep Same SameExpr (Sat.mkVar b) (Sat.mkVar b')

variable {β γ : Type} [SatVarFactory β γ] [Erasure β γ]

/-- Builders of booleans that take the same steps. -/
abbrev Alike (m m' : StateM γ β) : Prop := Lockstep Erasure.Same (Erasure.SameExpr γ) m m'

namespace Erasure

variable {e e₁ e₂ e₃ e' e₁' e₂' e₃' : β} {v v' : List β}

theorem mkAll (h : List.Forall₂ (SameExpr γ) v v') :
    Alike (Sat.mkAll v : StateM γ β) (Sat.mkAll v') := by
  induction h with
  | nil => exact .get fun _ _ hg => .pure (sameExpr_mkConst true hg)
  | cons hd _ ih => exact ih.bind fun _ _ htl => mkAnd hd htl

theorem mkAny (h : List.Forall₂ (SameExpr γ) v v') :
    Alike (Sat.mkAny v : StateM γ β) (Sat.mkAny v') := by
  induction h with
  | nil => exact .get fun _ _ hg => .pure (sameExpr_mkConst false hg)
  | cons hd _ ih => exact ih.bind fun _ _ htl => mkOr hd htl

section Operators

variable (h₁ : SameExpr γ e₁ e₁') (h₂ : SameExpr γ e₂ e₂') (h₃ : SameExpr γ e₃ e₃')

include h₁ h₂

theorem mkImplies : Alike (Sat.mkImplies e₁ e₂ : StateM γ β) (Sat.mkImplies e₁' e₂') :=
  (mkNot h₁).bind fun _ _ ht => mkOr ht h₂

theorem mkNimplies : Alike (Sat.mkNimplies e₁ e₂ : StateM γ β) (Sat.mkNimplies e₁' e₂') :=
  (mkNot h₂).bind fun _ _ ht => mkAnd h₁ ht

theorem mkIff : Alike (Sat.mkIff e₁ e₂ : StateM γ β) (Sat.mkIff e₁' e₂') :=
  (mkImplies h₁ h₂).bind fun _ _ ht₁ => (mkImplies h₂ h₁).bind fun _ _ ht₂ => mkAnd ht₁ ht₂

theorem mkXor : Alike (Sat.mkXor e₁ e₂ : StateM γ β) (Sat.mkXor e₁' e₂') :=
  (mkIff h₁ h₂).bind fun _ _ ht => mkNot ht

include h₃

theorem mkFullAdd : Lockstep Same (fun r r' => SameExpr γ r.1 r'.1 ∧ SameExpr γ r.2 r'.2)
    (Sat.mkFullAdd e₁ e₂ e₃ : StateM γ (β × β)) (Sat.mkFullAdd e₁' e₂' e₃') := by
  refine (mkXor h₁ h₂).bind fun xy xy' hxy => ?_
  refine (mkXor hxy h₃).bind fun sum sum' hsum => ?_
  refine (mkAnd h₁ h₂).bind fun both both' hboth => ?_
  refine (mkAnd h₃ hxy).bind fun either either' heither => ?_
  exact (mkOr hboth heither).bind fun cout cout' hcout => .pure ⟨hsum, hcout⟩

theorem mkUlt : Alike (Sat.mkUlt e₁ e₂ e₃ : StateM γ β) (Sat.mkUlt e₁' e₂' e₃') := by
  refine (mkImplies h₁ h₂).bind fun xy xy' hxy => ?_
  refine (mkAnd h₃ hxy).bind fun t t' ht => ?_
  exact (mkNimplies h₂ h₁).bind fun yx yx' hyx => mkOr ht hyx

theorem mkIte : Alike (Sat.mkIte e₁ e₂ e₃ : StateM γ β) (Sat.mkIte e₁' e₂' e₃') := by
  refine (mkAnd h₁ h₂).bind fun cx cx' hcx => ?_
  refine (mkNot h₁).bind fun nc nc' hnc => ?_
  exact (mkAnd hnc h₃).bind fun ncy ncy' hncy => mkOr hcx hncy

end Operators

end Erasure

end Exoverifier.Sat

/-! ## Circuits -/

namespace Exoverifier.Smt.Bitblast

open Library Exoverifier.Sat
open Erasure (Same SameExpr)

variable {β γ : Type} [SatVarFactory β γ] [Erasure β γ]

/-- Vectors that are equal in length and the same in every place. -/
abbrev SameVec (γ : Type) [SatVarFactory β γ] [Erasure β γ] : List β → List β → Prop :=
  List.Forall₂ (SameExpr γ)

abbrev AlikeVec (m m' : StateM γ (List β)) : Prop := Lockstep Same (SameVec γ) m m'

namespace Erasure

variable {e e' : β} {v v₁ v₂ v' v₁' v₂' : List β}

theorem mkUnaryBitwiseOp {f f' : β → StateM γ β}
    (hf : ∀ e e', SameExpr γ e e' → Alike (f e) (f' e')) (h : SameVec γ v v') :
    AlikeVec (mkUnaryBitwiseOp f v) (mkUnaryBitwiseOp f' v') := by
  induction h with
  | nil => exact .pure .nil
  | cons hb _ ih => exact (hf _ _ hb).bind fun _ _ ht => ih.bind fun _ _ hr => .pure (.cons ht hr)

theorem mkBinaryBitwiseOp {f f' : β → β → StateM γ β}
    (hf : ∀ e₁ e₁' e₂ e₂', SameExpr γ e₁ e₁' → SameExpr γ e₂ e₂' → Alike (f e₁ e₂) (f' e₁' e₂'))
    (h₁ : SameVec γ v₁ v₁') (h₂ : SameVec γ v₂ v₂') :
    AlikeVec (mkBinaryBitwiseOp f v₁ v₂) (mkBinaryBitwiseOp f' v₁' v₂') := by
  induction h₁ generalizing v₂ v₂' with
  | nil => exact .pure .nil
  | cons hb₁ _ ih =>
      cases h₂ with
      | nil => exact .pure .nil
      | cons hb₂ h₂ =>
          exact (hf _ _ _ _ hb₁ hb₂).bind fun _ _ ht => (ih h₂).bind fun _ _ hr =>
            .pure (.cons ht hr)

theorem mkConst (n c : ℕ) : AlikeVec (mkConst n c : StateM γ (List β)) (mkConst n c) := by
  refine .get fun g g' hg => .pure ?_
  unfold SameVec
  rw [List.forall₂_map_left_iff, List.forall₂_map_right_iff, List.forall₂_same]
  exact fun i _ => Sat.Erasure.sameExpr_mkConst _ hg

theorem mkVar (n c c' : ℕ) : AlikeVec (mkVar n c : StateM γ (List β)) (mkVar n c') := by
  induction n generalizing c c' with
  | zero => exact .pure .nil
  | succ n ih =>
      exact (Sat.Erasure.mkVar _ _).bind fun _ _ ht => (ih _ _).bind fun _ _ hr =>
        .pure (.cons ht hr)

theorem mkNot (h : SameVec γ v v') : AlikeVec (mkNot v : StateM γ (List β)) (mkNot v') :=
  mkUnaryBitwiseOp (fun _ _ => Sat.Erasure.mkNot) h

/-- A vector and a carry. -/
abbrev SameCarry (γ : Type) [SatVarFactory β γ] [Erasure β γ] (r r' : List β × β) : Prop :=
  SameVec γ r.1 r'.1 ∧ SameExpr γ r.2 r'.2

section Binary

variable (h₁ : SameVec γ v₁ v₁') (h₂ : SameVec γ v₂ v₂')

include h₁ h₂

theorem mkIte (h : SameExpr γ e e') :
    AlikeVec (mkIte e v₁ v₂ : StateM γ (List β)) (mkIte e' v₁' v₂') :=
  mkBinaryBitwiseOp (fun _ _ _ _ => Sat.Erasure.mkIte h) h₁ h₂

theorem mkAdc (h : SameExpr γ e e') :
    Lockstep Same (SameCarry γ) (mkAdc v₁ v₂ e : StateM γ (List β × β)) (mkAdc v₁' v₂' e') := by
  induction h₁ generalizing v₂ v₂' e e' with
  | nil => exact .pure ⟨.nil, h⟩
  | cons hb₁ _ ih =>
      cases h₂ with
      | nil => exact .pure ⟨.nil, h⟩
      | cons hb₂ h₂ =>
          exact (Sat.Erasure.mkFullAdd hb₁ hb₂ h).bind fun _ _ ht => (ih h₂ ht.2).bind
            fun _ _ hr => .pure ⟨.cons ht.1 hr.1, hr.2⟩

theorem mkAdd :
    Lockstep Same (SameCarry γ) (mkAdd v₁ v₂ : StateM γ (List β × β)) (mkAdd v₁' v₂') :=
  .get fun _ _ hg => mkAdc h₁ h₂ (Sat.Erasure.sameExpr_mkConst false hg)

theorem mkSub :
    Lockstep Same (SameCarry γ) (mkSub v₁ v₂ : StateM γ (List β × β)) (mkSub v₁' v₂') :=
  .get fun _ _ hg => (mkNot h₂).bind fun _ _ hn =>
    mkAdc h₁ hn (Sat.Erasure.sameExpr_mkConst true hg)

theorem mkMul : AlikeVec (mkMul v₁ v₂ : StateM γ (List β)) (mkMul v₁' v₂') := by
  induction h₂ generalizing v₁ v₁' with
  | nil =>
      unfold Bitblast.mkMul
      exact .pure .nil
  | cons hb _ ih =>
      have hp := mkUnaryBitwiseOp (fun _ _ => Sat.Erasure.mkAnd hb) h₁
      unfold Bitblast.mkMul
      refine hp.bind fun p p' hp => ?_
      refine (ih (forall₂_dropLast h₁)).bind fun r r' hr => ?_
      have htail : SameVec γ p.tail p'.tail := by
        rw [← List.drop_one, ← List.drop_one]
        exact List.forall₂_drop 1 hp
      refine (mkAdd htail hr).bind fun s s' hs => ?_
      exact .pure (List.rel_append (List.forall₂_take 1 hp) hs.1)

theorem mkUdivUrem :
    Lockstep Same (fun r r' => SameVec γ r.1 r'.1 ∧ SameVec γ r.2 r'.2)
      (mkUdivUrem v₁ v₂ : StateM γ (List β × List β)) (mkUdivUrem v₁' v₂') := by
  induction h₁ with
  | nil =>
      unfold Bitblast.mkUdivUrem
      rw [h₂.length_eq]
      exact (mkConst _ _).bind fun _ _ hr => .pure ⟨.nil, hr⟩
  | cons hb _ ih =>
      refine ih.bind fun qr qr' hqr => ?_
      have hr₁ := List.Forall₂.cons hb (forall₂_dropLast hqr.2)
      refine (mkSub hr₁ h₂).bind fun p p' hp => ?_
      exact (mkIte hp.1 hr₁ hp.2).bind fun r r' hr => .pure ⟨.cons hp.2 hqr.1, hr⟩

theorem mkShlRev : AlikeVec (mkShlRev v₁ v₂ : StateM γ (List β)) (mkShlRev v₁' v₂') := by
  induction h₂ generalizing v₁ v₁' with
  | nil =>
      unfold Bitblast.mkShlRev
      exact .pure h₁
  | cons hb h₂ ih =>
      unfold Bitblast.mkShlRev
      rw [h₁.length_eq, h₂.length_eq]
      refine (mkConst _ _).bind fun c c' hc => ?_
      exact (mkIte (List.rel_append hc (List.forall₂_take _ h₁)) h₁ hb).bind fun _ _ ht => ih ht

theorem mkLshrRev : AlikeVec (mkLshrRev v₁ v₂ : StateM γ (List β)) (mkLshrRev v₁' v₂') := by
  induction h₂ generalizing v₁ v₁' with
  | nil =>
      unfold Bitblast.mkLshrRev
      exact .pure h₁
  | cons hb h₂ ih =>
      unfold Bitblast.mkLshrRev
      rw [h₁.length_eq, h₂.length_eq]
      refine (mkConst _ _).bind fun c c' hc => ?_
      exact (mkIte (List.rel_append (List.forall₂_drop _ h₁) hc) h₁ hb).bind fun _ _ ht => ih ht

theorem mkEq : AlikeVec (mkEq v₁ v₂ : StateM γ (List β)) (mkEq v₁' v₂') := by
  have hr : AlikeVec (Bitblast.mkIff v₁ v₂ : StateM γ (List β)) (Bitblast.mkIff v₁' v₂') :=
    mkBinaryBitwiseOp (fun _ _ _ _ => Sat.Erasure.mkIff) h₁ h₂
  exact hr.bind fun _ _ hr => (Sat.Erasure.mkAll hr).bind fun _ _ hl => .pure (.cons hl .nil)

theorem mkUltAux (h : SameExpr γ e e') :
    Alike (mkUltAux v₁ v₂ e : StateM γ β) (mkUltAux v₁' v₂' e') := by
  induction h₁ generalizing v₂ v₂' e e' with
  | nil => exact .pure h
  | cons hb₁ _ ih =>
      cases h₂ with
      | nil => exact .pure h
      | cons hb₂ h₂ => exact (Sat.Erasure.mkUlt hb₁ hb₂ h).bind fun _ _ ht => ih h₂ ht

theorem mkUlt : AlikeVec (mkUlt v₁ v₂ : StateM γ (List β)) (mkUlt v₁' v₂') :=
  .get fun _ _ hg => (mkUltAux h₁ h₂ (Sat.Erasure.sameExpr_mkConst false hg)).bind
    fun _ _ hr => .pure (.cons hr .nil)

/-- Operands of one width on one side have one width on the other. -/
theorem demoteMkBinaryOp {f f' : List β → List β → StateM γ (List β)}
    (hf : ∀ v₁ v₁' v₂ v₂', SameVec γ v₁ v₁' → SameVec γ v₂ v₂' →
      AlikeVec (f v₁ v₂) (f' v₁' v₂')) :
    AlikeVec (demoteMkBinaryOp f v₁ v₂) (demoteMkBinaryOp f' v₁' v₂') := by
  unfold Bitblast.demoteMkBinaryOp
  rw [h₁.length_eq, h₂.length_eq]
  split
  · exact hf _ _ _ _ h₁ h₂
  · exact .pure .nil

theorem demoteMkIte (h : SameVec γ v v') :
    AlikeVec (demoteMkIte v v₁ v₂ : StateM γ (List β)) (demoteMkIte v' v₁' v₂') := by
  cases h with
  | nil => exact .pure .nil
  | cons hb h =>
      cases h with
      | nil => exact demoteMkBinaryOp h₁ h₂ fun _ _ _ _ h₁ h₂ => mkIte h₁ h₂ hb
      | cons _ _ => exact .pure .nil

end Binary

end Erasure

end Exoverifier.Smt.Bitblast

/-! ## Expressions -/

namespace Exoverifier.Smt

open Library

/-- The same for a factory of bit vectors. -/
class Erasure (β : outParam Type) (γ : Type) [SmtFactory β γ] where
  Same : γ → γ → Prop
  SameExpr : β → β → Prop
  same_initF : Same SmtBase.initF SmtBase.initF
  width : ∀ {g g' : γ} {e e' : β}, Same g g' → SameExpr e e' → Smt.width g e = Smt.width g' e'
  mkConst : ∀ {n : ℕ} (c : BitVec n), Lockstep Same SameExpr (Smt.mkConst c) (Smt.mkConst c)
  mkVar : ∀ {n : ℕ} (c c' : BitVec n), Lockstep Same SameExpr (Smt.mkVar c) (Smt.mkVar c')
  mkExtract : ∀ upper lower : ℕ, LockstepUnary Same SameExpr (Smt.mkExtract upper lower)
  mkNot : LockstepUnary Same SameExpr Smt.mkNot
  mkNeg : LockstepUnary Same SameExpr Smt.mkNeg
  mkRedor : LockstepUnary Same SameExpr Smt.mkRedor
  mkAnd : LockstepBinary Same SameExpr Smt.mkAnd
  mkOr : LockstepBinary Same SameExpr Smt.mkOr
  mkXor : LockstepBinary Same SameExpr Smt.mkXor
  mkImplies : LockstepBinary Same SameExpr Smt.mkImplies
  mkAdd : LockstepBinary Same SameExpr Smt.mkAdd
  mkSub : LockstepBinary Same SameExpr Smt.mkSub
  mkMul : LockstepBinary Same SameExpr Smt.mkMul
  mkUdiv : LockstepBinary Same SameExpr Smt.mkUdiv
  mkUrem : LockstepBinary Same SameExpr Smt.mkUrem
  mkShl : LockstepBinary Same SameExpr Smt.mkShl
  mkLshr : LockstepBinary Same SameExpr Smt.mkLshr
  mkEq : LockstepBinary Same SameExpr Smt.mkEq
  mkUlt : LockstepBinary Same SameExpr Smt.mkUlt
  mkIte : ∀ {c c' : β}, SameExpr c c' → ∀ {e₁ e₁' e₂ e₂' : β}, SameExpr e₁ e₁' →
    SameExpr e₂ e₂' → Lockstep Same SameExpr (Smt.mkIte c e₁ e₂) (Smt.mkIte c' e₁' e₂')

/-! ## Default operators -/

section Default

variable {β γ : Type} [SmtBase β γ] {R : γ → γ → Prop} {S : β → β → Prop}
variable (hnot : LockstepUnary R S (mkNot : β → StateM γ β))
variable (hwidth : ∀ {g g' : γ} {e e' : β}, R g g' → S e e' → width g e = width g' e')

include hnot in
theorem lockstep_mkOr (hand : LockstepBinary R S (mkAnd : β → β → StateM γ β)) :
    LockstepBinary R S (Default.mkOr : β → β → StateM γ β) := by
  intro e₁ e₁' e₂ e₂' h₁ h₂
  refine (hnot h₁).bind fun ne₁ ne₁' hne₁ => ?_
  refine (hnot h₂).bind fun ne₂ ne₂' hne₂ => ?_
  exact (hand hne₁ hne₂).bind fun t t' ht => hnot ht

include hnot in
theorem lockstep_mkImplies (hand : LockstepBinary R S (mkAnd : β → β → StateM γ β)) :
    LockstepBinary R S (Default.mkImplies : β → β → StateM γ β) := by
  intro e₁ e₁' e₂ e₂' h₁ h₂
  exact (hnot h₁).bind fun ne₁ ne₁' hne₁ => lockstep_mkOr hnot hand h₂ hne₁

include hnot hwidth in
theorem lockstep_mkNeg (hadd : LockstepBinary R S (mkAdd : β → β → StateM γ β))
    (hconst : ∀ {n : ℕ} (c : BitVec n), Lockstep R S (mkConst c : StateM γ β) (mkConst c)) :
    LockstepUnary R S (Default.mkNeg : β → StateM γ β) := by
  intro e e' h
  refine .get fun g g' hg => ?_
  rw [hwidth hg h]
  refine (hnot h).bind fun ne ne' hne => ?_
  exact (hconst _).bind fun one one' hone => hadd hne hone

include hwidth in
/-- The quotients may differ, as the widths are all that the steps depend on. -/
theorem lockstep_mkUdiv
    (hvar : ∀ {n : ℕ} (c c' : BitVec n), Lockstep R S (mkVar c : StateM γ β) (mkVar c')) :
    LockstepBinary R S (Default.mkUdiv : β → β → StateM γ β) := by
  intro e₁ e₁' e₂ e₂' h₁ _
  have hvar' : ∀ {n m : ℕ} (c : BitVec n) (c' : BitVec m), n = m →
      Lockstep R S (mkVar c : StateM γ β) (mkVar c') := by
    intro n m c c' hnm
    subst hnm
    exact hvar c c'
  exact .get fun g g' hg => hvar' _ _ (hwidth hg h₁)

end Default

section Bitblast

open Exoverifier.Sat (SatVarFactory)
open Bitblast Bitblast.Erasure

variable {β γ : Type} [SatVarFactory β γ] [Sat.Erasure β γ]

theorem vec_width {g g' : γ} {v v' : List β} (_ : Sat.Erasure.Same g g') (h : SameVec γ v v') :
    width g v = width g' v' :=
  h.length_eq

theorem vec_mkConst {n : ℕ} (c : BitVec n) : AlikeVec (mkConst c : StateM γ (List β)) (mkConst c) :=
  Bitblast.Erasure.mkConst n c.toNat

theorem vec_mkVar {n : ℕ} (c c' : BitVec n) : AlikeVec (mkVar c : StateM γ (List β)) (mkVar c') :=
  Bitblast.Erasure.mkVar n c.toNat c'.toNat

theorem vec_mkNot : LockstepUnary Sat.Erasure.Same (SameVec γ) (mkNot : List β → StateM γ (List β)) :=
  fun _ _ h => Bitblast.Erasure.mkNot h

theorem vec_mkAnd :
    LockstepBinary Sat.Erasure.Same (SameVec γ) (mkAnd : List β → List β → StateM γ (List β)) :=
  fun _ _ _ _ h₁ h₂ => demoteMkBinaryOp h₁ h₂ fun _ _ _ _ h₁ h₂ =>
    mkBinaryBitwiseOp (fun _ _ _ _ => Sat.Erasure.mkAnd) h₁ h₂

theorem vec_mkAdd :
    LockstepBinary Sat.Erasure.Same (SameVec γ) (mkAdd : List β → List β → StateM γ (List β)) :=
  fun _ _ _ _ h₁ h₂ => demoteMkBinaryOp h₁ h₂ fun _ _ _ _ h₁ h₂ =>
    (Bitblast.Erasure.mkAdd h₁ h₂).map fun _ _ h => h.1

instance : Erasure (List β) γ where
  Same := Sat.Erasure.Same
  SameExpr := SameVec γ
  same_initF := Sat.Erasure.same_initF
  width := vec_width
  mkConst := vec_mkConst
  mkVar := vec_mkVar
  mkExtract _ lower _ _ h := .pure (List.forall₂_take _ (List.forall₂_drop lower h))
  mkNot := vec_mkNot
  mkRedor _ _ h := (Sat.Erasure.mkAny h).bind fun _ _ hr => .pure (.cons hr .nil)
  mkAnd := vec_mkAnd
  mkAdd := vec_mkAdd
  mkXor _ _ _ _ h₁ h₂ := demoteMkBinaryOp h₁ h₂ fun _ _ _ _ h₁ h₂ =>
    mkBinaryBitwiseOp (fun _ _ _ _ => Sat.Erasure.mkXor) h₁ h₂
  mkSub _ _ _ _ h₁ h₂ := demoteMkBinaryOp h₁ h₂ fun _ _ _ _ h₁ h₂ =>
    (Bitblast.Erasure.mkSub h₁ h₂).map fun _ _ h => h.1
  mkMul _ _ _ _ h₁ h₂ := demoteMkBinaryOp h₁ h₂ fun _ _ _ _ => Bitblast.Erasure.mkMul
  mkUrem _ _ _ _ h₁ h₂ := demoteMkBinaryOp h₁ h₂ fun _ _ _ _ h₁ h₂ =>
    (mkUdivUrem h₁ h₂).map fun _ _ h => h.2
  mkEq _ _ _ _ h₁ h₂ := demoteMkBinaryOp h₁ h₂ fun _ _ _ _ => Bitblast.Erasure.mkEq
  mkUlt _ _ _ _ h₁ h₂ := demoteMkBinaryOp h₁ h₂ fun _ _ _ _ => Bitblast.Erasure.mkUlt
  mkIte hc _ _ _ _ h₁ h₂ := demoteMkIte h₁ h₂ hc
  mkShl _ _ _ _ h₁ h₂ := mkShlRev h₁ (List.rel_reverse h₂)
  mkLshr _ _ _ _ h₁ h₂ := mkLshrRev h₁ (List.rel_reverse h₂)
  mkOr := lockstep_mkOr vec_mkNot vec_mkAnd
  mkImplies := lockstep_mkImplies vec_mkNot vec_mkAnd
  mkNeg := lockstep_mkNeg vec_mkNot vec_width vec_mkAdd vec_mkConst
  mkUdiv := lockstep_mkUdiv vec_width vec_mkVar

end Bitblast

/-! ## Derived operators -/

section Factory

variable {β γ : Type} [SmtFactory β γ] [Erasure β γ]

/-- Builders of expressions that take the same steps. -/
abbrev Alike (m m' : StateM γ β) : Prop := Lockstep Erasure.Same (Erasure.SameExpr γ) m m'

namespace Erasure

variable {e₁ e₂ e₁' e₂' : β}

theorem mkConst1 (b : Bool) : Alike (Smt.mkConst1 b : StateM γ β) (Smt.mkConst1 b) :=
  mkConst _

theorem mkMsb (h : SameExpr γ e₁ e₁') : Alike (Smt.mkMsb e₁ : StateM γ β) (Smt.mkMsb e₁') := by
  refine .get fun g g' hg => ?_
  rw [width hg h]
  split
  · exact mkConst1 false
  · exact mkExtract _ _ h

section Binary

variable (h₁ : SameExpr γ e₁ e₁') (h₂ : SameExpr γ e₂ e₂')

include h₁ h₂

theorem mkUle : Alike (Smt.mkUle e₁ e₂ : StateM γ β) (Smt.mkUle e₁' e₂') :=
  (mkUlt h₂ h₁).bind fun _ _ ht => mkNot ht

theorem mkAshr : Alike (Smt.mkAshr e₁ e₂ : StateM γ β) (Smt.mkAshr e₁' e₂') := by
  refine (mkNot h₁).bind fun ne₁ ne₁' hne₁ => ?_
  refine (mkLshr hne₁ h₂).bind fun t t' ht => ?_
  refine (mkNot ht).bind fun r₁ r₁' hr₁ => ?_
  refine (mkLshr h₁ h₂).bind fun r₂ r₂' hr₂ => ?_
  exact (mkMsb h₁).bind fun msb msb' hmsb => mkIte hmsb hr₁ hr₂

theorem mkSlt : Alike (Smt.mkSlt e₁ e₂ : StateM γ β) (Smt.mkSlt e₁' e₂') := by
  refine (mkUlt h₁ h₂).bind fun ult ult' hult => ?_
  refine (mkMsb h₁).bind fun msb₁ msb₁' hmsb₁ => ?_
  refine (mkMsb h₂).bind fun msb₂ msb₂' hmsb₂ => ?_
  refine (mkEq hmsb₁ hmsb₂).bind fun same same' hsame => ?_
  refine (mkAnd hsame hult).bind fun sameUlt sameUlt' hsameUlt => ?_
  refine (mkNot hmsb₂).bind fun nmsb₂ nmsb₂' hnmsb₂ => ?_
  exact (mkAnd hmsb₁ hnmsb₂).bind fun msbLt msbLt' hmsbLt => mkOr hmsbLt hsameUlt

theorem mkSle : Alike (Smt.mkSle e₁ e₂ : StateM γ β) (Smt.mkSle e₁' e₂') :=
  (mkSlt h₂ h₁).bind fun _ _ ht => mkNot ht

end Binary

end Erasure

end Factory

end Exoverifier.Smt

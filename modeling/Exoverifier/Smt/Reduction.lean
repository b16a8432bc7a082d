import Exoverifier.Smt.Factory

/-! # Bit vectors over booleans

Any factory of booleans makes a factory of bit vectors: an expression is a list
of boolean expressions and every operator is its circuit. Operands of different
widths give a dummy expression.
-/

namespace Exoverifier.Smt

open Library
open Exoverifier.Sat (SatFactory SatVarFactory)

variable {β γ : Type}

namespace Bitblast

/-- The number of the values that the bits denote. -/
def denoteNat (γ : Type) [SatFactory β γ] : List β → ℕ
  | [] => 0
  | b :: v => 2 * denoteNat γ v + (SatFactory.denote γ b).toNat

theorem denoteNat_eq [SatFactory β γ] {g : γ} {v : List β} {x : ℕ}
    (h : Spells (SatFactory.sat g) v x) : denoteNat γ v = x := by
  induction v generalizing x with
  | nil => exact h.symm
  | cons b v ih =>
      rw [denoteNat, ih h.2, SatFactory.denote_sound h.1, testBit_zero_eq_toNat]
      exact Nat.div_add_mod x 2

/-- Operands of one width, or the dummy. -/
def demoteMkBinaryOp (f : List β → List β → StateM γ (List β)) (v₁ v₂ : List β) :
    StateM γ (List β) :=
  if v₁.length = v₂.length then f v₁ v₂ else return []

def demoteMkIte [SatFactory β γ] (c v₁ v₂ : List β) : StateM γ (List β) :=
  match c with
  | [b] => demoteMkBinaryOp (mkIte b) v₁ v₂
  | _ => return []

theorem builds_demoteMkBinaryOp [Preorder γ] {f : List β → List β → StateM γ (List β)} {g : γ}
    {v₁ v₂ : List β} {Q : γ → List β → Prop} (hlen : v₁.length = v₂.length)
    (h : Builds (f v₁ v₂) g Q) : Builds (demoteMkBinaryOp f v₁ v₂) g Q := by
  unfold demoteMkBinaryOp
  rwa [if_pos hlen]

/-- A single circuit is the vector of its bit. -/
theorem spells_ofBool [SatFactory β γ] {g : γ} {e : List β} {b : Bool} (hlen : e.length = 1)
    (h : Spells (SatFactory.sat g) e (BitVec.ofBool b).toNat) :
    ∃ c, e = [c] ∧ SatFactory.sat g c b := by
  obtain ⟨c, rfl⟩ := List.length_eq_one_iff.1 hlen
  refine ⟨c, rfl, ?_⟩
  have hc := h.1
  cases b <;> exact hc

section Base

variable [SatVarFactory β γ]

/-- The circuit of an operator of two operands is right when the number that it
spells is that of the result. -/
theorem sat_binary {f : List β → List β → StateM γ (List β)} {g : γ} {v₁ v₂ : List β} {m n : ℕ}
    {z : ℕ} {x : BitVec m} (h₁ : v₁.length = n) (h₂ : v₂.length = n) (hx : x.toNat = z)
    (h : Builds (f v₁ v₂) g fun g' e => e.length = m ∧ Spells (SatFactory.sat g') e z) :
    Builds (demoteMkBinaryOp f v₁ v₂) g fun g' e =>
      e.length = m ∧ Spells (SatFactory.sat g') e x.toNat := by
  rw [hx]
  exact builds_demoteMkBinaryOp (h₁.trans h₂.symm) h

instance : SmtBase (List β) γ where
  sat g e n x := e.length = n ∧ Spells (SatFactory.sat g) e x.toNat
  default := []
  initF := SatFactory.initF
  denote e := ⟨e.length, BitVec.ofNat e.length (denoteNat γ e)⟩
  denote_sound := by
    intro g e n x ⟨hlen, h⟩
    subst hlen
    rw [denoteNat_eq h, BitVec.ofNat_toNat, BitVec.setWidth_eq]
  sat_of_le hle h := ⟨h.1, spells_of_le hle h.2⟩
  width _ e := e.length
  width_sound h := h.1
  mkConst {n} c := mkConst n c.toNat
  builds_mkConst g _ c := builds_mkConst g c.isLt
  mkVar {n} c := mkVar n c.toNat
  builds_mkVar g _ c := builds_mkVar g c.isLt
  mkExtract := mkExtract
  builds_mkExtract := by
    intro g e n upper lower x ⟨hlen, h⟩ hupper hle
    refine .pure ⟨by simp; omega, ?_⟩
    rw [BitVec.extractLsb_toNat, Nat.shiftRight_eq_div_pow]
    exact (h.drop lower).take (upper - lower + 1)
  mkNot := mkNot
  builds_mkNot := by
    intro g e n x ⟨hlen, h⟩
    subst hlen
    rw [BitVec.toNat_not, Nat.sub_sub, Nat.add_comm 1]
    exact builds_mkNot h
  mkAnd := demoteMkBinaryOp mkAnd
  builds_mkAnd := by
    intro g e₁ e₂ n x₁ x₂ ⟨h₁, hs₁⟩ ⟨h₂, hs₂⟩
    subst h₁
    exact sat_binary rfl h₂ (BitVec.toNat_and _ _) (builds_mkAnd hs₁ hs₂ h₂.symm)
  mkXor := demoteMkBinaryOp mkXor
  builds_mkXor := by
    intro g e₁ e₂ n x₁ x₂ ⟨h₁, hs₁⟩ ⟨h₂, hs₂⟩
    subst h₁
    exact sat_binary rfl h₂ (BitVec.toNat_xor _ _) (builds_mkXor hs₁ hs₂ h₂.symm)
  mkAdd := demoteMkBinaryOp fun v₁ v₂ => Prod.fst <$> mkAdd v₁ v₂
  builds_mkAdd := by
    intro g e₁ e₂ n x₁ x₂ ⟨h₁, hs₁⟩ ⟨h₂, hs₂⟩
    subst h₁
    refine sat_binary rfl h₂ (BitVec.toNat_add _ _) ?_
    exact (builds_mkAdd hs₁ hs₂ h₂.symm).map fun _ _ _ h => h
  mkSub := demoteMkBinaryOp fun v₁ v₂ => Prod.fst <$> mkSub v₁ v₂
  builds_mkSub := by
    intro g e₁ e₂ n x₁ x₂ ⟨h₁, hs₁⟩ ⟨h₂, hs₂⟩
    subst h₁
    refine sat_binary rfl h₂ (BitVec.toNat_sub _ _) ?_
    exact (builds_mkSub hs₁ hs₂ h₂.symm).map fun _ _ _ h => ⟨h.1, h.2.1⟩
  mkMul := demoteMkBinaryOp mkMul
  builds_mkMul := by
    intro g e₁ e₂ n x₁ x₂ ⟨h₁, hs₁⟩ ⟨h₂, hs₂⟩
    subst h₁
    exact sat_binary rfl h₂ (BitVec.toNat_mul _ _) (builds_mkMul hs₁ hs₂ h₂.symm)
  mkUrem := demoteMkBinaryOp mkUrem
  builds_mkUrem := by
    intro g e₁ e₂ n x₁ x₂ ⟨h₁, hs₁⟩ ⟨h₂, hs₂⟩
    subst h₂
    refine sat_binary h₁ rfl BitVec.toNat_umod ?_
    exact (builds_mkUdivUrem hs₁ hs₂ h₁.le).map fun _ _ _ h => h.2
  mkEq := demoteMkBinaryOp mkEq
  builds_mkEq := by
    intro g e₁ e₂ n x₁ x₂ ⟨h₁, hs₁⟩ ⟨h₂, hs₂⟩
    refine sat_binary h₁ h₂ ?_ (builds_mkEq hs₁ hs₂ (h₁.trans h₂.symm))
    rw [BitVec.toNat_ofBool, decide_eq_decide.2 BitVec.toNat_inj.symm]
  mkUlt := demoteMkBinaryOp mkUlt
  builds_mkUlt h₁ h₂ := sat_binary h₁.1 h₂.1 (BitVec.toNat_ofBool _)
    (builds_mkUlt h₁.2 h₂.2 (h₁.1.trans h₂.1.symm))
  mkIte := demoteMkIte
  builds_mkIte := by
    intro g e₁ e₂ e₃ b n x₂ x₃ ⟨h₁, hs₁⟩ ⟨h₂, hs₂⟩ ⟨h₃, hs₃⟩
    obtain ⟨c, rfl, hc⟩ := spells_ofBool h₁ hs₁
    subst h₂
    refine sat_binary rfl h₃ ?_ (builds_mkIte hs₂ hs₃ h₃.symm hc)
    cases b <;> rfl
  mkShl := mkShl
  builds_mkShl := by
    intro g e₁ e₂ n m x₁ x₂ ⟨h₁, hs₁⟩ ⟨_, hs₂⟩
    subst h₁
    rw [BitVec.shiftLeft_eq', BitVec.toNat_shiftLeft, Nat.shiftLeft_eq]
    exact builds_mkShl hs₁ hs₂
  mkLshr := mkLshr
  builds_mkLshr := by
    intro g e₁ e₂ n m x₁ x₂ ⟨h₁, hs₁⟩ ⟨_, hs₂⟩
    subst h₁
    rw [BitVec.ushiftRight_eq', BitVec.toNat_ushiftRight, Nat.shiftRight_eq_div_pow]
    exact builds_mkLshr hs₁ hs₂
  mkRedor := mkRedor
  builds_mkRedor := by
    intro g e n x ⟨_, h⟩
    have hx : x ≠ 0 ↔ x.toNat ≠ 0 := by
      rw [ne_eq, ne_eq, ← BitVec.toNat_inj]
      rfl
    rw [BitVec.toNat_ofBool, decide_eq_decide.2 hx]
    exact builds_mkRedor h

/-- The defaults complete the factory; the division circuit is not used in it. -/
instance : SmtFactory (List β) γ where
  mkOr := Default.mkOr
  builds_mkOr := Default.builds_mkOr
  mkImplies := Default.mkImplies
  builds_mkImplies := Default.builds_mkImplies
  mkNeg := Default.mkNeg
  builds_mkNeg := Default.builds_mkNeg
  mkUdiv := Default.mkUdiv
  builds_mkUdiv := Default.builds_mkUdiv

end Base

end Bitblast

/-! ## Decision procedures -/

/-- A decider answers `true` only where the expression can have no other value. -/
def DecidesSat [SatFactory β γ] {ω : Type} (decider : γ → β → Bool → ω → Bool) : Prop :=
  ∀ g e x w, decider g e x w = true → ∀ y, SatFactory.sat g e y → x = y

def DecidesSmt [SmtBase β γ] {ω : Type} (decider : γ → β → {n : ℕ} → BitVec n → ω → Bool) : Prop :=
  ∀ g e {n : ℕ} (x : BitVec n) w, decider g e x w = true → ∀ y : BitVec n, sat g e y → x = y

/-- Only vectors of one bit are decided. -/
def decideViaReduceToSat {ω : Type} (decider : γ → β → Bool → ω → Bool) (g : γ) (e : List β)
    {n : ℕ} (x : BitVec n) (w : ω) : Bool :=
  match e with
  | [b] => decide (n = 1) && decider g b (x.getLsbD 0) w
  | _ => false

theorem decidesSmt_decideViaReduceToSat [SatVarFactory β γ] {ω : Type}
    {decider : γ → β → Bool → ω → Bool} (h : DecidesSat decider) :
    DecidesSmt (decideViaReduceToSat decider) := by
  intro g e n x w hdecide y ⟨hlen, hy⟩
  unfold decideViaReduceToSat at hdecide
  split at hdecide
  · rename_i b
    subst hlen
    rw [Bool.and_eq_true] at hdecide
    have hbit := h g b _ w hdecide.2 _ hy.1
    apply BitVec.eq_of_getLsbD_eq
    intro i hi
    obtain rfl : i = 0 := Nat.lt_one_iff.1 hi
    rw [hbit]
    rfl
  · exact absurd hdecide Bool.false_ne_true

end Exoverifier.Smt

import Exoverifier.Domain.Bv
import Exoverifier.Bpf.Basic

/-! # Abstract values of BPF registers

An abstraction of scalars, pointers and uninitialized values over any domain of
bit vectors, as in `bpf/absint/value.lean`, completed with a top element.
-/

namespace Exoverifier.Absint

open Bpf Domain

/-- Abstractions of the values of a register. -/
class ValueAbstr (α : Type) extends HasGamma Value α, HasDecidableGamma Value α, AbstrLe Value α,
    AbstrTop Value α, AbstrJoin Value α α where
  doALU64 (op : ALU) : AbstrBinaryTransfer op.doALU64 α α α
  doALU64Check (op : ALU) : AbstrBinaryTest (fun x y => op.doALU64Check x y = true) α α
  doJMP64Check (op : JMP) : AbstrBinaryTest (fun x y => op.doJMP64Check x y = true) α α
  doJMP64Tt (op : JMP) :
    AbstrBinaryInversion (fun x y => op.doJMP64 x y = true) α α (WithBot α) (WithBot α)
  isScalar : AbstrUnaryTest Value.IsScalar α
  const (v : Value) : AbstrNullaryRelation (· = v) α
  unknownScalar : AbstrNullaryRelation Value.IsScalar α

inductive AValue (β : Type) where
  | scalar (x : β)
  | pointer (m : MemRegion) (x : β)
  | uninitialized

namespace AValue

variable {β : ℕ → Type} [AbstrBv β]

/-- A pointer stands for the pointers into its own region. -/
def γ (a : AValue (β 64)) : Set Value :=
  {v | match a, v with
    | .scalar x, .scalar y => y ∈ HasGamma.γ x
    | .pointer m₁ x, .pointer m₂ y => m₁ = m₂ ∧ y ∈ HasGamma.γ x
    | .uninitialized, .uninitialized => True
    | _, _ => False}

instance : HasGamma Value (AValue (β 64)) := ⟨γ⟩

instance : HasDecidableGamma Value (AValue (β 64)) where
  decGamma
    | .scalar x, .scalar y => inferInstanceAs (Decidable (y ∈ HasGamma.γ x))
    | .pointer m₁ x, .pointer m₂ y => inferInstanceAs (Decidable (m₁ = m₂ ∧ y ∈ HasGamma.γ x))
    | .uninitialized, .uninitialized => isTrue trivial
    | .scalar _, .pointer _ _ => isFalse id
    | .scalar _, .uninitialized => isFalse id
    | .pointer _ _, .scalar _ => isFalse id
    | .pointer _ _, .uninitialized => isFalse id
    | .uninitialized, .scalar _ => isFalse id
    | .uninitialized, .pointer _ _ => isFalse id

def const (v : Value) : AbstrNullaryRelation (· = v) (AValue (β 64)) where
  op := match v with
    | .scalar x => .scalar (AbstrBv.const x).op
    | .pointer m x => .pointer m (AbstrBv.const x).op
    | .uninitialized => .uninitialized
  correct {w} h := by
    subst h
    cases w with
    | scalar x => exact (AbstrBv.const x).correct rfl
    | pointer m x => exact ⟨rfl, (AbstrBv.const x).correct rfl⟩
    | uninitialized => trivial

/-! ## Order and join -/

def le : AValue (β 64) → AValue (β 64) → Prop
  | .scalar x, .scalar y => AbstrLe.le x y
  | .pointer m₁ x, .pointer m₂ y => m₁ = m₂ ∧ AbstrLe.le x y
  | .uninitialized, .uninitialized => True
  | _, _ => False

instance : AbstrLe Value (AValue (β 64)) where
  le := le
  decLe
    | .scalar x, .scalar y => inferInstanceAs (Decidable (AbstrLe.le x y))
    | .pointer m₁ x, .pointer m₂ y => inferInstanceAs (Decidable (m₁ = m₂ ∧ AbstrLe.le x y))
    | .uninitialized, .uninitialized => isTrue trivial
    | .scalar _, .pointer _ _ => isFalse id
    | .scalar _, .uninitialized => isFalse id
    | .pointer _ _, .scalar _ => isFalse id
    | .pointer _ _, .uninitialized => isFalse id
    | .uninitialized, .scalar _ => isFalse id
    | .uninitialized, .pointer _ _ => isFalse id
  le_correct {a b} hle v hv := by
    cases a <;> cases b <;> try exact hle.elim
    case scalar.scalar x y =>
      cases v <;> try exact hv.elim
      exact AbstrLe.le_correct hle hv
    case pointer.pointer m₁ x m₂ y =>
      cases v <;> try exact hv.elim
      exact ⟨hle.1.symm.trans hv.1, AbstrLe.le_correct hle.2 hv.2⟩
    case uninitialized.uninitialized => exact hv

/-- Values of different kinds have no join below top. -/
instance : AbstrJoin Value (AValue (β 64)) (WithTop (AValue (β 64))) where
  join
    | .scalar x, .scalar y => WithTop.some (.scalar (AbstrJoin.join x y))
    | .pointer m₁ x, .pointer m₂ y =>
        if m₁ = m₂ then WithTop.some (.pointer m₁ (AbstrJoin.join x y)) else ⊤
    | .uninitialized, .uninitialized => WithTop.some .uninitialized
    | _, _ => ⊤
  join_correct {a b} v hv := by
    cases a <;> cases b <;> try exact AbstrTop.top_correct _
    case scalar.scalar x y =>
      cases v <;> try exact (hv.elim id id).elim
      exact AbstrJoin.join_correct hv
    case pointer.pointer m₁ x m₂ y =>
      cases v <;> try exact (hv.elim id id).elim
      exact ⟨rfl, AbstrJoin.join_correct (hv.imp And.right And.right)⟩
    case uninitialized.uninitialized => exact hv.elim id id

/-! ## Arithmetic -/

/-- A move between scalars is not among the listed operators and gives top. -/
def doALUScalar : (op : ALU) →
    AbstrBinaryTransfer op.doALU64Scalar (β 64) (β 64) (β 64)
  | .add => AbstrBv.add
  | .sub => AbstrBv.sub
  | .neg =>
      { op := fun x _ => AbstrBv.neg.op x
        correct := fun hx _ h => AbstrBv.neg.correct hx h }
  | .mul => AbstrBv.mul
  | .lsh => AbstrBv.shl
  | .xor => AbstrBv.xor
  | .and => AbstrBv.and
  | .or => AbstrBv.or
  | .div => AbstrBv.udiv
  | .mod => AbstrBv.urem
  | .rsh => AbstrBv.lshr
  | .arsh => AbstrBv.ashr
  | _ =>
      { op := fun _ _ => AbstrTop.top
        correct := fun _ _ _ => AbstrTop.top_correct _ }

def doALUScalarPointer (op : ALU) (m : MemRegion) :
    AbstrBinaryTransfer (op.doALUPointerScalar m) (β 64) (β 64) (AValue (β 64)) where
  op x y := match op with
    | .add => .pointer m (AbstrBv.add.op x y)
    | .sub => .pointer m (AbstrBv.sub.op x y)
    | .mov => .scalar y
    | _ => .pointer m x
  correct {x y z u v} hx hy h := by
    subst h
    cases op with
    | add => exact ⟨rfl, AbstrBv.add.correct hx hy rfl⟩
    | sub => exact ⟨rfl, AbstrBv.sub.correct hx hy rfl⟩
    | mov => exact hy
    | _ => exact ⟨rfl, hx⟩

/-- A move takes the source; without a precise case any other operator gives top. -/
theorem mem_mov_or_top (op : ALU) {x y : Value} {v : WithTop (AValue (β 64))}
    (hy : y ∈ HasGamma.γ v) : op.doALU64 x y ∈ HasGamma.γ (if op = .mov then v else ⊤) := by
  by_cases hop : op = .mov
  · rw [if_pos hop, hop, ALU.doALU64_mov]
    exact hy
  · rw [if_neg hop]
    trivial

def doALU64 (op : ALU) :
    AbstrBinaryTransfer op.doALU64 (AValue (β 64)) (AValue (β 64)) (WithTop (AValue (β 64))) where
  op
    | .scalar x, .scalar y => WithTop.some (.scalar ((doALUScalar op).op x y))
    | .pointer m x, .scalar y => WithTop.some ((doALUScalarPointer op m).op x y)
    | _, src => if op = .mov then WithTop.some src else ⊤
  correct {x y z u v} hx hy h := by
    subst h
    have hmov := mem_mov_or_top (x := x) (v := WithTop.some v) op hy
    cases v with
    | pointer m v => cases u <;> exact hmov
    | uninitialized => cases u <;> exact hmov
    | scalar v =>
        cases y <;> try exact hy.elim
        cases u with
        | uninitialized => exact hmov
        | scalar u =>
            cases x <;> try exact hx.elim
            exact (doALUScalar op).correct hx hy rfl
        | pointer m u =>
            cases x <;> try exact hx.elim
            obtain ⟨rfl, hx⟩ := hx
            exact (doALUScalarPointer op m).correct hx hy rfl

/-- A move is precise even when its destination is unknown. -/
def doALU64WithTop (op : ALU) : AbstrBinaryTransfer op.doALU64 (WithTop (AValue (β 64)))
    (WithTop (AValue (β 64))) (WithTop (AValue (β 64))) where
  op
    | (u : AValue (β 64)), (v : AValue (β 64)) => (doALU64 op).op u v
    | _, src => if op = .mov then src else ⊤
  correct {x y z u v} hx hy h := by
    subst h
    have hmov := mem_mov_or_top (x := x) op hy
    cases u with
    | top => exact hmov
    | coe u =>
        cases v with
        | top => exact hmov
        | coe v => exact (doALU64 op).correct hx hy rfl

/-! ## Checks -/

/-- A divisor must exclude zero. No shift amount is known to be small enough. -/
def doALU64ScalarCheck (op : ALU) :
    AbstrBinaryTest (fun x y => op.doALU64ScalarCheck x y = true) (β 64) (β 64) where
  test _ y := match op with
    | .div => 0#64 ∉ HasGamma.γ y
    | .mod => 0#64 ∉ HasGamma.γ y
    | .lsh => false
    | .rsh => false
    | .arsh => false
    | .endian => false
    | _ => true
  test_sound {x y u v} h _ hy := by
    have hne : 0#64 ∉ HasGamma.γ v → y ≠ 0#64 := fun hv he => hv (he ▸ hy)
    cases op with
    | div => exact decide_eq_true (hne (of_decide_eq_true h))
    | mod => exact decide_eq_true (hne (of_decide_eq_true h))
    | lsh => exact absurd h Bool.false_ne_true
    | rsh => exact absurd h Bool.false_ne_true
    | arsh => exact absurd h Bool.false_ne_true
    | endian => exact absurd h Bool.false_ne_true
    | _ => rfl

def doALU64CheckWithTop (op : ALU) : WithTop (AValue (β 64)) → WithTop (AValue (β 64)) → Bool
  | (.scalar x : AValue (β 64)), (.scalar y : AValue (β 64)) => (doALU64ScalarCheck op).test x y
  | (.pointer _ _ : AValue (β 64)), (.scalar _ : AValue (β 64)) => op.doALUPointerScalarCheck
  | _, (.pointer _ _ : AValue (β 64)) => if op = .mov then true else false
  | _, (.scalar _ : AValue (β 64)) => if op = .mov then true else false
  | _, _ => false

theorem doALU64CheckWithTop_top (op : ALU) (u : WithTop (AValue (β 64))) :
    doALU64CheckWithTop op u ⊤ = false := by
  cases u with
  | top => rfl
  | coe u => cases u <;> rfl

theorem doALU64CheckWithTop_uninitialized (op : ALU) (u : WithTop (AValue (β 64))) :
    doALU64CheckWithTop op u (WithTop.some .uninitialized) = false := by
  cases u with
  | top => rfl
  | coe u => cases u <;> rfl

theorem doALU64CheckWithTop_pointer (op : ALU) (u : WithTop (AValue (β 64))) (m : MemRegion)
    (y : β 64) : doALU64CheckWithTop op u (WithTop.some (.pointer m y)) =
      if op = .mov then true else false := by
  cases u with
  | top => rfl
  | coe u => cases u <;> rfl

def doALU64Check (op : ALU) : AbstrBinaryTest (fun x y => op.doALU64Check x y = true)
    (WithTop (AValue (β 64))) (WithTop (AValue (β 64))) where
  test := doALU64CheckWithTop op
  test_sound {x y u v} h hx hy := by
    have hmov : (if op = .mov then true else false) = true → y ≠ .uninitialized →
        op.doALU64Check x y = true := by
      intro hop hne
      have he : op = .mov := by simpa using hop
      rw [he, ALU.doALU64Check_mov x hne]
    cases v with
    | top => exact absurd ((doALU64CheckWithTop_top op u).symm.trans h) Bool.false_ne_true
    | coe v =>
        cases v with
        | uninitialized =>
            exact absurd ((doALU64CheckWithTop_uninitialized op u).symm.trans h)
              Bool.false_ne_true
        | pointer m v =>
            cases y <;> try exact hy.elim
            exact hmov ((doALU64CheckWithTop_pointer op u m v).symm.trans h) nofun
        | scalar v =>
            cases y <;> try exact hy.elim
            cases u with
            | top => exact hmov h nofun
            | coe u =>
                cases u with
                | uninitialized => exact hmov h nofun
                | scalar u =>
                    cases x <;> try exact hx.elim
                    exact (doALU64ScalarCheck op).test_sound h hx hy
                | pointer m u =>
                    cases x <;> try exact hx.elim
                    exact h

def doJMP64Check (op : JMP) : AbstrBinaryTest (fun x y => op.doJMP64Check x y = true)
    (WithTop (AValue (β 64))) (WithTop (AValue (β 64))) where
  test
    | (.scalar _ : AValue (β 64)), (.scalar _ : AValue (β 64)) => true
    | _, _ => false
  test_sound {x y u v} h hx hy := by
    cases u with
    | top => exact absurd h Bool.false_ne_true
    | coe u =>
        cases v with
        | top => cases u <;> exact absurd h Bool.false_ne_true
        | coe v =>
            cases u <;> cases v <;> try exact absurd h Bool.false_ne_true
            cases x <;> try exact hx.elim
            cases y <;> try exact hy.elim
            rfl

def isScalar : AbstrUnaryTest Value.IsScalar (WithTop (AValue (β 64))) where
  test
    | (.scalar _ : AValue (β 64)) => true
    | _ => false
  test_sound {x u} h hx := by
    cases u with
    | top => exact absurd h Bool.false_ne_true
    | coe u =>
        cases u <;> try exact absurd h Bool.false_ne_true
        cases x <;> try exact hx.elim
        exact ⟨_, rfl⟩

def unknownScalar : AbstrNullaryRelation Value.IsScalar (WithTop (AValue (β 64))) where
  op := WithTop.some (.scalar AbstrTop.top)
  correct h := by
    obtain ⟨x, rfl⟩ := h
    exact AbstrTop.top_correct x

/-- Nothing is learnt from a jump that is taken. -/
instance : ValueAbstr (WithTop (AValue (β 64))) where
  doALU64 := doALU64WithTop
  doALU64Check := doALU64Check
  doJMP64Check := doJMP64Check
  doJMP64Tt _ := AbstrBinaryInversion.trivial
  isScalar := isScalar
  const v := WithTop.liftNullaryRelation (const v)
  unknownScalar := unknownScalar

end AValue

end Exoverifier.Absint

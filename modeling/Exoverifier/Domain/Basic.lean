import Mathlib

/-! # Abstract domains

The interfaces of `data/domain/basic.lean`. An abstract value stands for a set of
concrete values; a test, a transfer function or an inversion carries the proof
that it is right for every concrete value its arguments stand for.
-/

namespace Exoverifier.Domain

class HasGamma (β : outParam Type) (α : Type) where
  γ : α → Set β

open HasGamma

class HasDecidableGamma (β : outParam Type) (α : Type) [HasGamma β α] where
  decGamma : ∀ (a : α) (b : β), Decidable (b ∈ γ a)

class AbstrLe (β : outParam Type) (α : Type) [HasGamma β α] where
  le : α → α → Prop
  decLe : DecidableRel le
  le_correct : ∀ {x y : α}, le x y → γ x ⊆ γ y

class AbstrTop (β : outParam Type) (α : Type) [HasGamma β α] where
  top : α
  top_correct : ∀ c : β, c ∈ γ top

class AbstrBot (β : outParam Type) (α : Type) [HasGamma β α] where
  bot : α
  bot_correct : ∀ c : β, c ∉ γ bot

class AbstrJoin (β : outParam Type) (α₁ α₂ : Type) [HasGamma β α₁] [HasGamma β α₂] where
  join : α₁ → α₁ → α₂
  join_correct : ∀ {x y : α₁}, γ x ∪ γ y ⊆ γ (join x y)

class AbstrMeet (β : outParam Type) (α₁ α₂ : Type) [HasGamma β α₁] [HasGamma β α₂] where
  meet : α₁ → α₁ → α₂
  meet_correct : ∀ {x y : α₁}, γ x ∩ γ y ⊆ γ (meet x y)

instance instDecidableGamma {β α : Type} [HasGamma β α] [HasDecidableGamma β α] (a : α) (b : β) :
    Decidable (b ∈ γ a) := HasDecidableGamma.decGamma a b

instance instDecidableLe {β α : Type} [HasGamma β α] [AbstrLe β α] :
    DecidableRel (AbstrLe.le (α := α)) := AbstrLe.decLe

/-- A test that holds of an abstract value holds of every concrete value it stands for. -/
structure AbstrUnaryTest {β : Type} (p : β → Prop) (α : Type) [HasGamma β α] where
  test : α → Bool
  test_sound : ∀ {x : β} {u : α}, test u = true → x ∈ γ u → p x

structure AbstrBinaryTest {β₁ β₂ : Type} (p : β₁ → β₂ → Prop) (α₁ α₂ : Type) [HasGamma β₁ α₁]
    [HasGamma β₂ α₂] where
  test : α₁ → α₂ → Bool
  test_sound : ∀ {x : β₁} {y : β₂} {u : α₁} {v : α₂}, test u v = true → x ∈ γ u → y ∈ γ v → p x y

structure AbstrNullaryRelation {β : Type} (R : β → Prop) (α : Type) [HasGamma β α] where
  op : α
  correct : ∀ {x : β}, R x → x ∈ γ op

structure AbstrUnaryRelation {β₁ β₂ : Type} (R : β₁ → β₂ → Prop) (α₁ α₂ : Type) [HasGamma β₁ α₁]
    [HasGamma β₂ α₂] where
  op : α₁ → α₂
  correct : ∀ {x : β₁} {y : β₂} {u : α₁}, x ∈ γ u → R x y → y ∈ γ (op u)

/-- A transfer function is a relation that holds of the results of a function. -/
abbrev AbstrUnaryTransfer {β₁ β₂ : Type} (f : β₁ → β₂) (α₁ α₂ : Type) [HasGamma β₁ α₁]
    [HasGamma β₂ α₂] : Type :=
  AbstrUnaryRelation (fun x y => y = f x) α₁ α₂

structure AbstrBinaryRelation {β₁ β₂ β₃ : Type} (R : β₁ → β₂ → β₃ → Prop) (α₁ α₂ α₃ : Type)
    [HasGamma β₁ α₁] [HasGamma β₂ α₂] [HasGamma β₃ α₃] where
  op : α₁ → α₂ → α₃
  correct : ∀ {x : β₁} {y : β₂} {z : β₃} {u : α₁} {v : α₂},
    x ∈ γ u → y ∈ γ v → R x y z → z ∈ γ (op u v)

abbrev AbstrBinaryTransfer {β₁ β₂ β₃ : Type} (f : β₁ → β₂ → β₃) (α₁ α₂ α₃ : Type)
    [HasGamma β₁ α₁] [HasGamma β₂ α₂] [HasGamma β₃ α₃] : Type :=
  AbstrBinaryRelation (fun x y z => z = f x y) α₁ α₂ α₃

/-- An inversion keeps the concrete values of which the condition holds. -/
structure AbstrUnaryInversion {β : Type} (p : β → Prop) (α₁ α₂ : Type) [HasGamma β α₁]
    [HasGamma β α₂] where
  inv : α₁ → α₂
  correct : ∀ {x : β} {u : α₁}, x ∈ γ u → p x → x ∈ γ (inv u)

structure AbstrBinaryInversion {β₁ β₂ : Type} (p : β₁ → β₂ → Prop) (α₁ α₂ α₁' α₂' : Type)
    [HasGamma β₁ α₁] [HasGamma β₁ α₁'] [HasGamma β₂ α₂] [HasGamma β₂ α₂'] where
  inv : α₁ → α₂ → α₁' × α₂'
  correct : ∀ {x : β₁} {y : β₂} {u : α₁} {v : α₂},
    x ∈ γ u → y ∈ γ v → p x y → x ∈ γ (inv u v).1 ∧ y ∈ γ (inv u v).2

variable {β₁ β₂ α₁ α₂ β α : Type}

/-! ## Lifting to bottom -/

namespace WithBot

def γ [HasGamma β α] : WithBot α → Set β
  | ⊥ => ∅
  | (u : α) => HasGamma.γ u

instance instHasGamma [HasGamma β α] : HasGamma β (WithBot α) := ⟨γ⟩

instance instDecidableGamma [HasGamma β α] [HasDecidableGamma β α] :
    HasDecidableGamma β (WithBot α) where
  decGamma
    | ⊥, _ => isFalse id
    | (u : α), b => inferInstanceAs (Decidable (b ∈ HasGamma.γ u))

instance instAbstrBot [HasGamma β α] : AbstrBot β (WithBot α) where
  bot := ⊥
  bot_correct _ h := h

instance instAbstrTop [HasGamma β α] [AbstrTop β α] : AbstrTop β (WithBot α) where
  top := WithBot.some AbstrTop.top
  top_correct := AbstrTop.top_correct (α := α)

def le [HasGamma β α] [AbstrLe β α] : WithBot α → WithBot α → Prop
  | (u : α), (v : α) => AbstrLe.le u v
  | ⊥, _ => True
  | (_ : α), ⊥ => False

instance instAbstrLe [HasGamma β α] [AbstrLe β α] : AbstrLe β (WithBot α) where
  le := le
  decLe
    | (u : α), (v : α) => inferInstanceAs (Decidable (AbstrLe.le u v))
    | ⊥, ⊥ => isTrue trivial
    | ⊥, (_ : α) => isTrue trivial
    | (_ : α), ⊥ => isFalse id
  le_correct {x y} h := by
    cases x with
    | bot => exact Set.empty_subset _
    | coe u =>
        cases y with
        | bot => exact h.elim
        | coe v => exact AbstrLe.le_correct (α := α) h

/-- The join of two values, when the join of the values below may be bottom. -/
instance joinArgs [HasGamma β α] [AbstrJoin β α (WithBot α)] :
    AbstrJoin β (WithBot α) (WithBot α) where
  join
    | (u : α), (v : α) => AbstrJoin.join u v
    | (u : α), ⊥ => u
    | ⊥, v => v
  join_correct {x y} c h := by
    cases x with
    | bot => exact h.resolve_left id
    | coe u =>
        cases y with
        | bot => exact h.resolve_right id
        | coe v => exact AbstrJoin.join_correct h

instance joinRes [HasGamma β α] [AbstrJoin β α α] : AbstrJoin β α (WithBot α) where
  join x y := WithBot.some (AbstrJoin.join x y)
  join_correct {x y} := @AbstrJoin.join_correct β α α _ _ _ x y

/-- A test of bottom is trivial: it stands for nothing. -/
def liftUnaryTest {p : β → Prop} [HasGamma β α] (g : AbstrUnaryTest p α) :
    AbstrUnaryTest p (WithBot α) where
  test
    | ⊥ => true
    | (u : α) => g.test u
  test_sound {x u} htest hx := by
    cases u with
    | bot => exact hx.elim
    | coe u => exact g.test_sound htest hx

def liftArgUnaryInversion {p : β → Prop} [HasGamma β α] (g : AbstrUnaryInversion p α (WithBot α)) :
    AbstrUnaryInversion p (WithBot α) (WithBot α) where
  inv
    | ⊥ => ⊥
    | (u : α) => g.inv u
  correct {x u} hx hp := by
    cases u with
    | bot => exact hx
    | coe u => exact g.correct hx hp

def liftUnaryRelation {R : β₁ → β₂ → Prop} [HasGamma β₁ α₁] [HasGamma β₂ α₂]
    (g : AbstrUnaryRelation R α₁ α₂) : AbstrUnaryRelation R (WithBot α₁) (WithBot α₂) where
  op
    | ⊥ => ⊥
    | (u : α₁) => WithBot.some (g.op u)
  correct {x y u} hx h := by
    cases u with
    | bot => exact hx.elim
    | coe u => exact g.correct hx h

def liftNullaryRelation {R : β → Prop} [HasGamma β α] (g : AbstrNullaryRelation R α) :
    AbstrNullaryRelation R (WithBot α) where
  op := WithBot.some g.op
  correct h := g.correct h

end WithBot

/-! ## Lifting to top -/

namespace WithTop

def γ [HasGamma β α] : WithTop α → Set β
  | ⊤ => Set.univ
  | (u : α) => HasGamma.γ u

instance instHasGamma [HasGamma β α] : HasGamma β (WithTop α) := ⟨γ⟩

instance instDecidableGamma [HasGamma β α] [HasDecidableGamma β α] :
    HasDecidableGamma β (WithTop α) where
  decGamma
    | ⊤, _ => isTrue trivial
    | (u : α), b => inferInstanceAs (Decidable (b ∈ HasGamma.γ u))

instance instAbstrTop [HasGamma β α] : AbstrTop β (WithTop α) where
  top := ⊤
  top_correct _ := trivial

def le [HasGamma β α] [AbstrLe β α] : WithTop α → WithTop α → Prop
  | (u : α), (v : α) => AbstrLe.le u v
  | _, ⊤ => True
  | ⊤, (_ : α) => False

instance instAbstrLe [HasGamma β α] [AbstrLe β α] : AbstrLe β (WithTop α) where
  le := le
  decLe
    | (u : α), (v : α) => inferInstanceAs (Decidable (AbstrLe.le u v))
    | ⊤, ⊤ => isTrue trivial
    | (_ : α), ⊤ => isTrue trivial
    | ⊤, (_ : α) => isFalse id
  le_correct {x y} h := by
    cases y with
    | top => exact fun _ _ => trivial
    | coe v =>
        cases x with
        | top => exact h.elim
        | coe u => exact AbstrLe.le_correct (α := α) h

instance joinArgs [HasGamma β α] [AbstrJoin β α (WithTop α)] :
    AbstrJoin β (WithTop α) (WithTop α) where
  join
    | (u : α), (v : α) => AbstrJoin.join u v
    | ⊤, _ => ⊤
    | (_ : α), ⊤ => ⊤
  join_correct {x y} c h := by
    cases x with
    | top => trivial
    | coe u =>
        cases y with
        | top => trivial
        | coe v => exact AbstrJoin.join_correct h

def liftNullaryRelation {R : β → Prop} [HasGamma β α] (g : AbstrNullaryRelation R α) :
    AbstrNullaryRelation R (WithTop α) where
  op := WithTop.some g.op
  correct h := g.correct h

end WithTop

/-! ## Trivial inversions -/

/-- An inversion that learns nothing. -/
def AbstrBinaryInversion.trivial {p : β₁ → β₂ → Prop} [HasGamma β₁ α₁] [HasGamma β₂ α₂] :
    AbstrBinaryInversion p α₁ α₂ (WithBot α₁) (WithBot α₂) where
  inv x y := (WithBot.some x, WithBot.some y)
  correct hx hy _ := ⟨hx, hy⟩

end Exoverifier.Domain

import Mathlib
import Exoverifier.Library.Builder

/-! # Factories of boolean expressions

The interface of `factory/interface.lean` at the booleans: a factory state that
only grows, expressions that keep their value while it does, and the operators
with their defaults of `sat/factory.lean`. Values that the source erases are
plain values here.
-/

namespace Exoverifier.Sat

open Library

class SatFactory (β : outParam Type) (γ : Type) extends Preorder γ where
  sat : γ → β → Bool → Prop
  default : β
  initF : γ
  denote : β → Bool
  denote_sound : ∀ {g : γ} {e : β} {x : Bool}, sat g e x → denote e = x
  sat_of_le : ∀ {g g' : γ} {e : β} {x : Bool}, g ≤ g' → sat g e x → sat g' e x
  mkConst : γ → Bool → β
  sat_mkConst : ∀ (g : γ) (b : Bool), sat g (mkConst g b) b
  mkNot : β → StateM γ β
  builds_mkNot : ∀ {g : γ} {e : β} {x : Bool}, sat g e x →
    Builds (mkNot e) g fun g' e' => sat g' e' (!x)
  mkAnd : β → β → StateM γ β
  builds_mkAnd : ∀ {g : γ} {e₁ e₂ : β} {x₁ x₂ : Bool}, sat g e₁ x₁ → sat g e₂ x₂ →
    Builds (mkAnd e₁ e₂) g fun g' e' => sat g' e' (x₁ && x₂)
  mkOr : β → β → StateM γ β
  builds_mkOr : ∀ {g : γ} {e₁ e₂ : β} {x₁ x₂ : Bool}, sat g e₁ x₁ → sat g e₂ x₂ →
    Builds (mkOr e₁ e₂) g fun g' e' => sat g' e' (x₁ || x₂)

class SatVarFactory (β : outParam Type) (γ : Type) extends SatFactory β γ where
  mkVar : Bool → StateM γ β
  builds_mkVar : ∀ (g : γ) (b : Bool), Builds (mkVar b) g fun g' e' => sat g' e' b

export SatFactory (sat_of_le sat_mkConst mkNot builds_mkNot mkAnd builds_mkAnd mkOr builds_mkOr)
export SatVarFactory (mkVar builds_mkVar)

section Operators

variable {β γ : Type} [SatFactory β γ]

def mkTrue (g : γ) : β := SatFactory.mkConst g true

def mkFalse (g : γ) : β := SatFactory.mkConst g false

def mkAll : List β → StateM γ β
  | [] => do return mkTrue (← get)
  | hd :: tl => do mkAnd hd (← mkAll tl)

def mkAny : List β → StateM γ β
  | [] => do return mkFalse (← get)
  | hd :: tl => do mkOr hd (← mkAny tl)

def mkImplies (b₁ b₂ : β) : StateM γ β := do
  let t ← mkNot b₁
  mkOr t b₂

def mkNimplies (b₁ b₂ : β) : StateM γ β := do
  let t ← mkNot b₂
  mkAnd b₁ t

def mkIff (b₁ b₂ : β) : StateM γ β := do
  let t₁ ← mkImplies b₁ b₂
  let t₂ ← mkImplies b₂ b₁
  mkAnd t₁ t₂

def mkXor (b₁ b₂ : β) : StateM γ β := do
  let t ← mkIff b₁ b₂
  mkNot t

/-- A full adder: the sum and the carry. -/
def mkFullAdd (x y c : β) : StateM γ (β × β) := do
  let xy ← mkXor x y
  let sum ← mkXor xy c
  let both ← mkAnd x y
  let either ← mkAnd c xy
  let cout ← mkOr both either
  return (sum, cout)

/-- One bit of a comparison; `c` compares the lower bits. -/
def mkUlt (x y c : β) : StateM γ β := do
  let xy ← mkImplies x y
  let t ← mkAnd c xy
  let yx ← mkNimplies y x
  mkOr t yx

def mkIte (c x y : β) : StateM γ β := do
  let cx ← mkAnd c x
  let nc ← mkNot c
  let ncy ← mkAnd nc y
  mkOr cx ncy

open SatFactory (sat)

variable {g : γ} {b b₁ b₂ b₃ : β} {r r₁ r₂ r₃ : Bool}

theorem builds_mkAll {bs : List β} {rs : List Bool} (h : List.Forall₂ (sat g) bs rs) :
    Builds (mkAll bs) g fun g' e => sat g' e (rs.all id) := by
  induction h with
  | nil => exact .get (.pure (sat_mkConst g true))
  | cons hd _ ih => exact ih.bind fun _ _ hle hx => builds_mkAnd (sat_of_le hle hd) hx

theorem builds_mkAny {bs : List β} {rs : List Bool} (h : List.Forall₂ (sat g) bs rs) :
    Builds (mkAny bs) g fun g' e => sat g' e (rs.any id) := by
  induction h with
  | nil => exact .get (.pure (sat_mkConst g false))
  | cons hd _ ih => exact ih.bind fun _ _ hle hx => builds_mkOr (sat_of_le hle hd) hx

theorem builds_mkImplies (h₁ : sat g b₁ r₁) (h₂ : sat g b₂ r₂) :
    Builds (mkImplies b₁ b₂) g fun g' e => sat g' e (!r₁ || r₂) :=
  (builds_mkNot h₁).bind fun _ _ hle ht => builds_mkOr ht (sat_of_le hle h₂)

theorem builds_mkNimplies (h₁ : sat g b₁ r₁) (h₂ : sat g b₂ r₂) :
    Builds (mkNimplies b₁ b₂) g fun g' e => sat g' e (r₁ && !r₂) :=
  (builds_mkNot h₂).bind fun _ _ hle ht => builds_mkAnd (sat_of_le hle h₁) ht

theorem builds_mkIff (h₁ : sat g b₁ r₁) (h₂ : sat g b₂ r₂) :
    Builds (mkIff b₁ b₂) g fun g' e => sat g' e (r₁ == r₂) := by
  refine (builds_mkImplies h₁ h₂).bind fun _ _ hle ht₁ => ?_
  refine (builds_mkImplies (sat_of_le hle h₂) (sat_of_le hle h₁)).bind fun _ _ hle' ht₂ => ?_
  refine (builds_mkAnd (sat_of_le hle' ht₁) ht₂).mono fun _ _ _ h => ?_
  cases r₁ <;> cases r₂ <;> exact h

theorem builds_mkXor (h₁ : sat g b₁ r₁) (h₂ : sat g b₂ r₂) :
    Builds (mkXor b₁ b₂) g fun g' e => sat g' e (r₁ ^^ r₂) := by
  refine (builds_mkIff h₁ h₂).bind fun _ _ _ ht => ?_
  refine (builds_mkNot ht).mono fun _ _ _ h => ?_
  cases r₁ <;> cases r₂ <;> exact h

theorem builds_mkFullAdd (h₁ : sat g b₁ r₁) (h₂ : sat g b₂ r₂) (h₃ : sat g b₃ r₃) :
    Builds (mkFullAdd b₁ b₂ b₃) g fun g' e =>
      sat g' e.1 (r₁ ^^ r₂ ^^ r₃) ∧ sat g' e.2 (Bool.atLeastTwo r₁ r₂ r₃) := by
  refine (builds_mkXor h₁ h₂).bind fun g₁ xy hle₁ hxy => ?_
  refine (builds_mkXor hxy (sat_of_le hle₁ h₃)).bind fun g₂ sum hle₂ hsum => ?_
  have hle := hle₁.trans hle₂
  refine (builds_mkAnd (sat_of_le hle h₁) (sat_of_le hle h₂)).bind fun g₃ both hle₃ hboth => ?_
  have hc := builds_mkAnd (sat_of_le (hle.trans hle₃) h₃) (sat_of_le (hle₂.trans hle₃) hxy)
  refine hc.bind fun g₄ either hle₄ heither => ?_
  refine (builds_mkOr (sat_of_le hle₄ hboth) heither).bind fun g₅ cout hle₅ hcout => ?_
  refine .pure ⟨?_, ?_⟩
  · exact sat_of_le (hle₃.trans (hle₄.trans hle₅)) hsum
  · cases r₁ <;> cases r₂ <;> cases r₃ <;> exact hcout

theorem builds_mkUlt (h₁ : sat g b₁ r₁) (h₂ : sat g b₂ r₂) (h₃ : sat g b₃ r₃) :
    Builds (mkUlt b₁ b₂ b₃) g fun g' e => sat g' e ((r₃ && (!r₁ || r₂)) || (r₂ && !r₁)) := by
  refine (builds_mkImplies h₁ h₂).bind fun g₁ xy hle₁ hxy => ?_
  refine (builds_mkAnd (sat_of_le hle₁ h₃) hxy).bind fun g₂ t hle₂ ht => ?_
  have hle := hle₁.trans hle₂
  refine (builds_mkNimplies (sat_of_le hle h₂) (sat_of_le hle h₁)).bind fun g₃ yx hle₃ hyx => ?_
  exact builds_mkOr (sat_of_le hle₃ ht) hyx

theorem builds_mkIte (h₁ : sat g b₁ r₁) (h₂ : sat g b₂ r₂) (h₃ : sat g b₃ r₃) :
    Builds (mkIte b₁ b₂ b₃) g fun g' e => sat g' e (bif r₁ then r₂ else r₃) := by
  refine (builds_mkAnd h₁ h₂).bind fun g₁ cx hle₁ hcx => ?_
  refine (builds_mkNot (sat_of_le hle₁ h₁)).bind fun g₂ nc hle₂ hnc => ?_
  refine (builds_mkAnd hnc (sat_of_le (hle₁.trans hle₂) h₃)).bind fun g₃ ncy hle₃ hncy => ?_
  refine (builds_mkOr (sat_of_le (hle₂.trans hle₃) hcx) hncy).mono fun _ _ _ h => ?_
  cases r₁ <;> cases r₂ <;> cases r₃ <;> exact h

end Operators

/-! ## Booleans as expressions -/

instance : SatFactory Bool Unit where
  sat _ e x := e = x
  default := false
  initF := ()
  denote e := e
  denote_sound h := h
  sat_of_le _ h := h
  mkConst _ b := b
  sat_mkConst _ _ := rfl
  mkNot e := pure (!e)
  builds_mkNot h := .pure (congrArg _ h)
  mkAnd e₁ e₂ := pure (e₁ && e₂)
  builds_mkAnd h₁ h₂ := .pure (congrArg₂ _ h₁ h₂)
  mkOr e₁ e₂ := pure (e₁ || e₂)
  builds_mkOr h₁ h₂ := .pure (congrArg₂ _ h₁ h₂)

end Exoverifier.Sat

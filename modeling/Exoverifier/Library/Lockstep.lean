import Mathlib.Data.List.Forall2

/-! # Runs in lockstep

Two computations that start in related states end in related states with related
results. Related states are those that an observer cannot tell apart, so what the
observer sees of a run is the same for both.
-/

namespace Exoverifier.Library

variable {γ δ δ' ε ε' : Type}

def Lockstep (R : γ → γ → Prop) (S : δ → δ' → Prop) (m : StateM γ δ) (m' : StateM γ δ') : Prop :=
  ∀ g g', R g g' → R (m.run g).2 (m'.run g').2 ∧ S (m.run g).1 (m'.run g').1

namespace Lockstep

variable {R : γ → γ → Prop} {S : δ → δ' → Prop} {T : ε → ε' → Prop}

theorem pure {x : δ} {x' : δ'} (h : S x x') :
    Lockstep R S (pure x : StateM γ δ) (pure x' : StateM γ δ') :=
  fun _ _ hg => ⟨hg, h⟩

theorem bind {m : StateM γ δ} {m' : StateM γ δ'} {f : δ → StateM γ ε} {f' : δ' → StateM γ ε'}
    (h : Lockstep R S m m') (hf : ∀ x x', S x x' → Lockstep R T (f x) (f' x')) :
    Lockstep R T (m >>= f) (m' >>= f') := by
  intro g g' hg
  obtain ⟨hstate, hresult⟩ := h g g' hg
  exact hf _ _ hresult _ _ hstate

theorem map {m : StateM γ δ} {m' : StateM γ δ'} {f : δ → ε} {f' : δ' → ε'}
    (h : Lockstep R S m m') (hf : ∀ x x', S x x' → T (f x) (f' x')) :
    Lockstep R T (f <$> m) (f' <$> m') := by
  intro g g' hg
  obtain ⟨hstate, hresult⟩ := h g g' hg
  exact ⟨hstate, hf _ _ hresult⟩

/-- Computations that read their states go on from what they read. -/
theorem get {f : γ → StateM γ ε} {f' : γ → StateM γ ε'}
    (h : ∀ g g', R g g' → Lockstep R T (f g) (f' g')) :
    Lockstep R T (MonadState.get >>= f) (MonadState.get >>= f') :=
  fun g g' hg => h g g' hg g g' hg

theorem run {m : StateM γ δ} {m' : StateM γ δ'} (h : Lockstep R S m m') {g g' : γ}
    (hg : R g g') : R (m.run g).2 (m'.run g').2 ∧ S (m.run g).1 (m'.run g').1 :=
  h g g' hg

end Lockstep

/-- An operator that takes related operands in lockstep. -/
def LockstepUnary (R : γ → γ → Prop) (S : δ → δ → Prop) (f : δ → StateM γ δ) : Prop :=
  ∀ ⦃x x' : δ⦄, S x x' → Lockstep R S (f x) (f x')

def LockstepBinary (R : γ → γ → Prop) (S : δ → δ → Prop) (f : δ → δ → StateM γ δ) : Prop :=
  ∀ ⦃x x' y y' : δ⦄, S x x' → S y y' → Lockstep R S (f x y) (f x' y')

/-- Related lists without their last elements. -/
theorem forall₂_dropLast {S : δ → δ' → Prop} {l : List δ} {l' : List δ'}
    (h : List.Forall₂ S l l') : List.Forall₂ S l.dropLast l'.dropLast := by
  rw [List.dropLast_eq_take, List.dropLast_eq_take, h.length_eq]
  exact List.forall₂_take _ h

end Exoverifier.Library

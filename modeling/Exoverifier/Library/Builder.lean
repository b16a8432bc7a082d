import Mathlib.Order.Basic

/-! # Builders

A builder is a computation over a preorder of states that only grows its state.
It is specified from the state it starts in, by a relation between the state it
ends in and its result. What is known of an earlier state is carried to a later
one by monotonicity.
-/

namespace Exoverifier.Library

variable {γ δ ε : Type} [Preorder γ]

/-- From `g` the builder grows the state and leaves a result that satisfies `Q`. -/
def Builds (m : StateM γ δ) (g : γ) (Q : γ → δ → Prop) : Prop :=
  g ≤ (m.run g).2 ∧ Q (m.run g).2 (m.run g).1

namespace Builds

variable {g : γ} {Q : γ → δ → Prop} {R : γ → ε → Prop}

theorem pure {x : δ} (h : Q g x) : Builds (pure x) g Q :=
  ⟨le_refl g, h⟩

theorem mono {m : StateM γ δ} {Q' : γ → δ → Prop} (h : Builds m g Q)
    (hQ : ∀ g' x, g ≤ g' → Q g' x → Q' g' x) : Builds m g Q' :=
  ⟨h.1, hQ _ _ h.1 h.2⟩

theorem bind {m : StateM γ δ} {f : δ → StateM γ ε} (h : Builds m g Q)
    (hf : ∀ g' x, g ≤ g' → Q g' x → Builds (f x) g' R) : Builds (m >>= f) g R := by
  have hrest := hf _ _ h.1 h.2
  exact ⟨h.1.trans hrest.1, hrest.2⟩

theorem map {m : StateM γ δ} {f : δ → ε} (h : Builds m g Q)
    (hf : ∀ g' x, g ≤ g' → Q g' x → R g' (f x)) : Builds (f <$> m) g R :=
  ⟨h.1, hf _ _ h.1 h.2⟩

/-- A builder that reads its state. -/
theorem get {f : γ → StateM γ ε} (h : Builds (f g) g R) : Builds (MonadState.get >>= f) g R :=
  h

theorem run {m : StateM γ δ} {g' : γ} {x : δ} (h : Builds m g Q) (hrun : m.run g = (x, g')) :
    g ≤ g' ∧ Q g' x := by
  unfold Builds at h
  rw [hrun] at h
  exact h

end Builds

end Exoverifier.Library

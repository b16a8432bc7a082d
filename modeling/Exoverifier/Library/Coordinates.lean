import Mathlib

/-! # Independent coordinates

A set of points of a product, known one coordinate at a time. `hull` records
the values each coordinate takes; the box over a family of coordinate sets is
`Set.univ.pi`. The two form a Galois connection, so the box over the hull is
the least box around a set: this is what "optimal" means for a domain that
tracks every coordinate on its own.
-/

namespace Exoverifier.Library

universe u v

variable {ι : Type u} {α : ι → Type v}

/-- The values each coordinate takes over a set of points. -/
def hull (S : Set (∀ i, α i)) : ∀ i, Set (α i) := fun i => Function.eval i '' S

theorem mem_hull {S : Set (∀ i, α i)} {i : ι} {b : α i} :
    b ∈ hull S i ↔ ∃ x ∈ S, x i = b := Iff.rfl

theorem hull_gc : GaloisConnection (@hull ι α) (fun c => Set.univ.pi c) := by
  intro S c
  constructor
  · intro h x hx i _
    exact h i ⟨x, hx, rfl⟩
  · rintro h i b ⟨x, hx, rfl⟩
    exact h hx i trivial

theorem subset_box_hull (S : Set (∀ i, α i)) : S ⊆ Set.univ.pi (hull S) :=
  hull_gc.le_u_l S

/-- The box over the hull is inside every box around the set. -/
theorem box_hull_subset {S : Set (∀ i, α i)} {c : ∀ i, Set (α i)}
    (h : S ⊆ Set.univ.pi c) : Set.univ.pi (hull S) ⊆ Set.univ.pi c :=
  hull_gc.monotone_u (hull_gc.l_le h)

theorem hull_union (S T : Set (∀ i, α i)) : hull (S ∪ T) = hull S ⊔ hull T :=
  hull_gc.l_sup

end Exoverifier.Library

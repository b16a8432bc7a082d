import Mathlib.Data.List.Sigma

/-! # Unordered maps

The interface through which clauses, formulas and deletion sets are used. Every
operation comes with the law that says which pairs its result holds.
-/

namespace Exoverifier

class UnorderedMap (α β : outParam Type) (σ : Type) where
  toList : σ → List (Σ _ : α, β)
  nodupKeys : ∀ m : σ, (toList m).NodupKeys
  elems : σ → List β
  mem_elems_iff : ∀ (m : σ) (b : β), b ∈ elems m ↔ ∃ a : α, ⟨a, b⟩ ∈ toList m
  empty : σ
  empty_eq : toList empty = []
  null : σ → Bool
  null_iff : ∀ m : σ, null m = true ↔ toList m = []
  unsingleton : σ → Option (Σ _ : α, β)
  unsingleton_iff : ∀ (m : σ) (s : Σ _ : α, β), unsingleton m = some s ↔ toList m = [s]
  card : σ → ℕ
  card_eq : ∀ m : σ, card m = (toList m).length
  lookup [DecidableEq α] : α → σ → Option β
  mem_lookup_iff [DecidableEq α] : ∀ (a : α) (b : β) (m : σ),
    lookup a m = some b ↔ ⟨a, b⟩ ∈ toList m
  kinsert [DecidableEq α] : α → β → σ → σ
  mem_kinsert_iff [DecidableEq α] : ∀ (a : α) (b : β) (m : σ) (s : Σ _ : α, β),
    s ∈ toList (kinsert a b m) ↔ s ∈ toList m ∨ a ∉ (toList m).keys ∧ s = ⟨a, b⟩
  insert₂ [DecidableEq α] [DecidableEq β] : α → β → σ → σ
  mem_insert₂_iff [DecidableEq α] [DecidableEq β] : ∀ (a : α) (b : β) (m : σ) (s : Σ _ : α, β),
    s ∈ toList (insert₂ a b m) ↔
      (s = ⟨a, b⟩ ∨ s ∈ toList m) ∧ (a ∈ (toList m).keys → ⟨a, b⟩ ∈ toList m)
  kerase [DecidableEq α] : σ → α → σ
  mem_kerase_iff [DecidableEq α] : ∀ (m : σ) (a : α) (s : Σ _ : α, β),
    s ∈ toList (kerase m a) ↔ s.1 ≠ a ∧ s ∈ toList m
  ksdiff [DecidableEq α] : σ → σ → σ
  mem_ksdiff_iff [DecidableEq α] : ∀ (m₁ m₂ : σ) (s : Σ _ : α, β),
    s ∈ toList (ksdiff m₁ m₂) ↔ s ∈ toList m₁ ∧ s.1 ∉ (toList m₂).keys
  sdiff₂ [DecidableEq α] [DecidableEq β] : σ → σ → σ
  mem_sdiff₂_iff [DecidableEq α] [DecidableEq β] : ∀ (m₁ m₂ : σ) (s : Σ _ : α, β),
    s ∈ toList (sdiff₂ m₁ m₂) ↔ s ∈ toList m₁ ∧ s ∉ toList m₂

namespace UnorderedMap

variable {α β σ : Type} [UnorderedMap α β σ] [DecidableEq α]

theorem lookup_eq_none_iff {a : α} {m : σ} : lookup a m = none ↔ a ∉ (toList m).keys := by
  rw [List.notMem_keys, Option.eq_none_iff_forall_ne_some]
  exact forall_congr' fun b => not_congr (mem_lookup_iff a b m)

theorem lookup_kinsert {a k : α} {b : β} {m : σ} :
    lookup k (kinsert a b m) = if k = a then some ((lookup k m).getD b) else lookup k m := by
  refine Option.ext fun b' => ?_
  rw [mem_lookup_iff, mem_kinsert_iff, ← mem_lookup_iff, ← lookup_eq_none_iff]
  by_cases hk : k = a
  · subst hk
    cases lookup k m <;> simp [eq_comm]
  · simp [hk]

/-- A fresh key adds one pair. -/
theorem card_kinsert {a : α} {b : β} {m : σ} (h : a ∉ (toList m).keys) :
    card (kinsert a b m) = card m + 1 := by
  have hperm : (toList (kinsert a b m)).Perm (⟨a, b⟩ :: toList m) := by
    refine (List.perm_ext_iff_of_nodup (nodupKeys _).nodup ?_).2 fun s => ?_
    · exact (List.nodupKeys_cons.2 ⟨h, nodupKeys m⟩).nodup
    · rw [mem_kinsert_iff, List.mem_cons, or_comm, and_iff_right h]
  rw [card_eq, card_eq, hperm.length_eq, List.length_cons]

end UnorderedMap

end Exoverifier

import Exoverifier.Domain.Basic

/-! # Domains of finite height

A domain in which every join either returns its old argument or climbs a bounded
rank. Nothing is assumed of the order beyond that a join with a smaller value is
the only one that does not climb; in particular transfer functions need not be
monotone for an iteration of joins to end.
-/

namespace Exoverifier.Domain

open HasGamma

class FiniteHeight (β : outParam Type) (α : Type) [HasGamma β α] [AbstrLe β α]
    [AbstrJoin β α α] where
  height : ℕ
  rank : α → ℕ
  rank_le : ∀ x, rank x ≤ height
  join_eq_or_rank_lt : ∀ a x : α, AbstrJoin.join a x = x ∨ rank x < rank (AbstrJoin.join a x : α)
  le_of_join_eq : ∀ {a x : α}, AbstrJoin.join a x = x → AbstrLe.le a x

variable {β α : Type} [HasGamma β α] [AbstrLe β α]

/-- Bottom lies below every other value. -/
instance WithBot.instFiniteHeight [AbstrJoin β α α] [FiniteHeight β α] :
    FiniteHeight β (WithBot α) where
  height := FiniteHeight.height α + 1
  rank
    | ⊥ => 0
    | (u : α) => FiniteHeight.rank u + 1
  rank_le x := by
    cases x with
    | bot => exact Nat.zero_le _
    | coe u => exact Nat.succ_le_succ (FiniteHeight.rank_le u)
  join_eq_or_rank_lt a x := by
    cases a with
    | bot => exact .inl rfl
    | coe u =>
        cases x with
        | bot => exact .inr (Nat.succ_pos _)
        | coe v =>
            cases FiniteHeight.join_eq_or_rank_lt u v with
            | inl h => exact .inl (congrArg WithBot.some h)
            | inr h => exact .inr (Nat.succ_lt_succ h)
  le_of_join_eq {a x} h := by
    cases a with
    | bot => trivial
    | coe u =>
        cases x with
        | bot => exact nomatch h
        | coe v => exact FiniteHeight.le_of_join_eq (α := α) (WithBot.coe_injective h)

end Exoverifier.Domain

import Exoverifier.Sat.Cnf

/-! # Clausal proofs

An action of a proof adds a clause, by unit propagation or by resolution on a
pivot, or deletes clauses. Actions are printed in the LRAT format, one a line.
-/

namespace Exoverifier.Sat

open UnorderedMap

inductive Action (α β κ γ : Type) where
  | rup (k : κ) (c : β) (hints : List κ)
  | rat (k : κ) (l : Literal α) (c : β) (ks : List κ) (hints : List (κ × List κ))
  | del (k : κ) (f : γ)
  deriving DecidableEq

/-- The actions over tries that the parser returns. -/
abbrev DefaultAction : Type := Action PosNum (Trie Bool) PosNum (Trie (Trie Bool))

namespace Action

variable {α β κ γ : Type}

section Printing

variable [DecidableEq α] [CoeHTCT α ℕ] [CoeHTCT κ ℕ] [Clause α β] [Formula κ β γ]

def reprId (k : κ) : String := Nat.repr (k : ℕ)

def lratAux : Action α β κ γ → List String
  | rup k c hints => [reprId k, Clause.dimacs c] ++ hints.map reprId
  | rat k l c ks hints =>
      [reprId k, l.dimacs, Clause.dimacs (kerase c l.1)] ++ ks.map reprId ++
        hints.flatMap fun (k, ks) => ("-" ++ reprId k) :: ks.map reprId
  | del k f => [reprId k, "d"] ++ (toList f).keys.map reprId

/-- Print an action in the LRAT format. -/
def lrat (a : Action α β κ γ) : String := " ".intercalate (lratAux a ++ ["0"])

end Printing

end Action

end Exoverifier.Sat

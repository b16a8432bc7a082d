import Exoverifier.Library.Parser
import Exoverifier.Sat.Proof

/-! # Parsers of formulas and proofs

DIMACS formulas and LRAT proofs, with positive numbers for variables and ids.
-/

namespace Exoverifier.Sat.Parser

open Library Library.Parser

def space : Parser Char := oneOf [' ', '\t', '\n', Char.ofNat 0x0b, Char.ofNat 0x0d]

def spaces : Parser Unit := many' space

def positive : Parser PosNum := decorateError "<positive>" do
  let c ← sat fun c => '1' ≤ c && c ≤ '9'
  let digits ← many digit
  return digits.foldl (fun sum digit => Nat.repeat PosNum.succ digit (sum * 10))
    (PosNum.ofNat (c.toNat - '0'.toNat))

def literal : Parser (Literal PosNum) :=
  (fun a => ⟨a, false⟩) <$> positive <|> (fun a => ⟨a, true⟩) <$> (ch '-' *> positive)

/-! ## Formulas -/

namespace Dimacs

def clause : Parser (Trie Bool) :=
  Clause.ofList <$> (spaces *> (many (literal <* spaces) <* ch '0'))

def comment : Parser Unit := do
  let _ ← sat fun c => c = 'c'
  many' (sat fun c => c ≠ '\n')

/-- A problem line, and the number of clauses in it. -/
def problem : Parser ℕ := do
  let _ ← sat fun c => c = 'p'
  spaces *> str "cnf" *> spaces *> nat *> spaces *> nat

end Dimacs

def dimacs : Parser (Trie (Trie Bool)) := do
  let n ← many (Dimacs.comment <* spaces) *> (Dimacs.problem <* spaces)
  let cs ← many (Dimacs.clause <* spaces)
  decorateError (n.repr ++ " clause" ++ (bif n = 1 then "" else "s") ++ ", found " ++
    cs.length.repr) (guard (cs.length = n))
  return Formula.ofList cs

/-! ## Proofs -/

namespace Lrat

/-- A negated id and the ids after it. -/
def dratHint : Parser (PosNum × List PosNum) := do
  let _ ← sat fun c => c = '-'
  Prod.mk <$> (positive <* spaces) <*> many (positive <* spaces)

def actionAdd (k : PosNum) : Parser DefaultAction := do
  let ls ← many (literal <* spaces) <* ch '0' <* spaces
  let ks ← many (positive <* spaces)
  (match ls with
    | [] => failure
    | hd :: tl => do
        let hints ← many1 dratHint <* ch '0'
        return .rat k hd (Clause.ofList (hd :: tl)) ks hints) <|> do
    let hints ← many (positive <* spaces) <* ch '0'
    return .rup k (Clause.ofList ls) (ks ++ hints)

def actionDel (k : PosNum) : Parser DefaultAction := do
  let _ ← sat fun c => c = 'd'
  let hints ← spaces *> (many (positive <* spaces) <* ch '0')
  return .del k (hints.foldl (fun f k => f.kinsert k .nil) .nil)

def action : Parser DefaultAction := do
  let k ← positive <* spaces
  actionAdd k <|> actionDel k

end Lrat

def lrat : Parser (List DefaultAction) := many (Lrat.action <* spaces)

end Exoverifier.Sat.Parser

import Mathlib

/-! # Ternary digits

The abstract domain of `trit.lean`: a known bit, or nothing known. A digit is
a Boolean with a top element, so the lifted operators send top to top.
-/

namespace Exoverifier.Domain

/-- A known Boolean, or the unknown digit `none`. -/
abbrev Trit := Option Bool

namespace Trit

/-- The Booleans a digit stands for. -/
def γ : Trit → Set Bool
  | some y => {b | y = b}
  | none => Set.univ

def and : Trit → Trit → Trit
  | some false, _ => some false
  | _, some false => some false
  | some true, some true => some true
  | _, _ => none

def or : Trit → Trit → Trit
  | some true, _ => some true
  | _, some true => some true
  | some false, some false => some false
  | _, _ => none

def xor : Trit → Trit → Trit
  | some x, some y => some (x ^^ y)
  | _, _ => none

def not : Trit → Trit
  | some x => some (!x)
  | none => none

def join : Trit → Trit → Trit
  | some x, some y => if x = y then some x else none
  | _, _ => none

/-- The meet of two different known digits is bottom, here the outer `none`. -/
def meet : Trit → Trit → Option Trit
  | some x, some y => if x = y then some (some x) else none
  | none, a => some a
  | a, none => some a

def le : Trit → Trit → Prop
  | some x, some y => x = y
  | _, none => True
  | none, some _ => False

instance : DecidableRel le
  | some x, some y => inferInstanceAs (Decidable (x = y))
  | some _, none => isTrue trivial
  | none, none => isTrue trivial
  | none, some _ => isFalse id

/-- The full adder on Booleans: sum and carry. -/
def boolFullAdd (a b cin : Bool) : Bool × Bool := ((a ^^ b) ^^ cin, a && b || cin && (a ^^ b))

/-- With one unknown input the carry is still known when the other two agree. -/
def fullAdd : Trit → Trit → Trit → Trit × Trit
  | some a, some b, some cin =>
      let r := boolFullAdd a b cin
      (some r.1, some r.2)
  | some a, some b, none => (none, if a == b then some a else none)
  | some a, none, some cin => (none, if a == cin then some a else none)
  | none, some b, some cin => (none, if b == cin then some b else none)
  | _, _, _ => (none, none)

end Trit

end Exoverifier.Domain

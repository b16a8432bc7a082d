import Exoverifier.Domain.Trit

/-! # Tristate numbers as vectors of digits

The abstract domain of `tnum.lean`, lowest digit first. Bitwise operators, join
and order work digit by digit; the meet is bottom as soon as one digit's is;
addition ripples a three-valued carry.
-/

namespace Exoverifier.Domain

/-- A vector of ternary digits. -/
abbrev Tnum (n : ℕ) := List.Vector Trit n

namespace Tnum

variable {n : ℕ}

/-- The bit vectors a tnum stands for. -/
def γ (t : Tnum n) : Set (Fin n → Bool) := {v | ∀ i, v i ∈ Trit.γ (t.get i)}

def join : Tnum n → Tnum n → Tnum n := List.Vector.map₂ Trit.join

/-- Collect a vector of optional digits; bottom when one is missing. -/
def sequence : {n : ℕ} → List.Vector (Option Trit) n → Option (Tnum n)
  | 0, _ => some List.Vector.nil
  | _ + 1, v => do
      let x ← v.head
      let xs ← sequence v.tail
      return x ::ᵥ xs

def meet (x y : Tnum n) : Option (Tnum n) := sequence (List.Vector.map₂ Trit.meet x y)

def le (a b : Tnum n) : Prop := ∀ i, Trit.le (a.get i) (b.get i)

def not : Tnum n → Tnum n := List.Vector.map Trit.not

def adc : {n : ℕ} → Tnum n → Tnum n → Trit → Tnum n
  | 0, _, _, _ => List.Vector.nil
  | _ + 1, a, b, carry =>
      let c := Trit.fullAdd a.head b.head carry
      let cs := adc a.tail b.tail c.2
      c.1 ::ᵥ cs

def add (a b : Tnum n) : Tnum n := adc a b (some false)

def sub (a b : Tnum n) : Tnum n := adc a (not b) (some true)

def and : Tnum n → Tnum n → Tnum n := List.Vector.map₂ Trit.and

def or : Tnum n → Tnum n → Tnum n := List.Vector.map₂ Trit.or

def xor : Tnum n → Tnum n → Tnum n := List.Vector.map₂ Trit.xor

/-! ## Digits of the results -/

theorem get_sequence : ∀ {n : ℕ} {v : List.Vector (Option Trit) n} {t : Tnum n},
    sequence v = some t → ∀ i, v.get i = some (t.get i)
  | 0, _, _, _, i => i.elim0
  | n + 1, v, t, h, i => by
      obtain ⟨x, hx, h⟩ := Option.bind_eq_some_iff.1 h
      obtain ⟨xs, hxs, h⟩ := Option.bind_eq_some_iff.1 h
      cases Option.some.inj h
      cases i using Fin.cases with
      | zero => rw [List.Vector.get_zero, List.Vector.get_cons_zero, hx]
      | succ i => rw [List.Vector.get_cons_succ, ← get_sequence hxs i, List.Vector.get_tail_succ]

theorem get_meet {a b t : Tnum n} (h : meet a b = some t) (i : Fin n) :
    Trit.meet (a.get i) (b.get i) = some (t.get i) := by
  rw [← get_sequence h i, List.Vector.get_map₂]

end Tnum

end Exoverifier.Domain

import Mathlib.Tactic.Ring
import Exoverifier.Library.Numeral
import Exoverifier.Sat.Factory

/-! # Circuits for bit vectors

The circuits of `smt/bitblast`. A vector of circuits is a list, lowest bit first,
and its length is the width; it spells the number that the vector has as its
value. Each circuit is specified by the number that its result spells.
-/

namespace Exoverifier.Smt.Bitblast

open Library Exoverifier.Sat
open SatFactory (sat)

variable {β γ : Type} [SatFactory β γ] {g : γ} {v v₁ v₂ : List β} {x x₁ x₂ : ℕ}

/-! ## Circuits -/

def mkUnaryBitwiseOp (f : β → StateM γ β) : List β → StateM γ (List β)
  | [] => return []
  | b :: v => do
      let t ← f b
      let r ← mkUnaryBitwiseOp f v
      return t :: r

def mkBinaryBitwiseOp (f : β → β → StateM γ β) : List β → List β → StateM γ (List β)
  | b₁ :: v₁, b₂ :: v₂ => do
      let t ← f b₁ b₂
      let r ← mkBinaryBitwiseOp f v₁ v₂
      return t :: r
  | _, _ => return []

def mkNot : List β → StateM γ (List β) := mkUnaryBitwiseOp Sat.mkNot

def mkAnd : List β → List β → StateM γ (List β) := mkBinaryBitwiseOp Sat.mkAnd

def mkXor : List β → List β → StateM γ (List β) := mkBinaryBitwiseOp Sat.mkXor

def mkIff : List β → List β → StateM γ (List β) := mkBinaryBitwiseOp Sat.mkIff

def mkIte (c : β) : List β → List β → StateM γ (List β) := mkBinaryBitwiseOp (Sat.mkIte c)

/-- A constant of the given width. -/
def mkConst (n c : ℕ) : StateM γ (List β) := do
  let g ← get
  return (List.range n).map fun i => SatFactory.mkConst g (c.testBit i)

def mkVar {β γ : Type} [SatVarFactory β γ] : ℕ → ℕ → StateM γ (List β)
  | 0, _ => return []
  | n + 1, c => do
      let t ← Sat.mkVar (c.testBit 0)
      let r ← mkVar n (c / 2)
      return t :: r

/-- An adder with carry. -/
def mkAdc : List β → List β → β → StateM γ (List β × β)
  | b₁ :: v₁, b₂ :: v₂, c => do
      let t ← mkFullAdd b₁ b₂ c
      let r ← mkAdc v₁ v₂ t.2
      return (t.1 :: r.1, r.2)
  | _, _, c => return ([], c)

def mkAdd (v₁ v₂ : List β) : StateM γ (List β × β) := do
  mkAdc v₁ v₂ (mkFalse (← get))

/-- A subtraction with carry. -/
def mkSbc (v₁ v₂ : List β) (c : β) : StateM γ (List β × β) := do
  let n₂ ← mkNot v₂
  mkAdc v₁ n₂ c

/-- The difference, and whether the first vector is at least the second. -/
def mkSub (v₁ v₂ : List β) : StateM γ (List β × β) := do
  mkSbc v₁ v₂ (mkTrue (← get))

def mkMul : List β → List β → StateM γ (List β)
  | v₁, b :: v₂ => do
      let p ← mkUnaryBitwiseOp (Sat.mkAnd b) v₁
      let r ← mkMul v₁.dropLast v₂
      let s ← mkAdd p.tail r
      return p.take 1 ++ s.1
  | _, [] => return []

/-- Long division from the highest bit of the dividend down. -/
def mkUdivUrem : List β → List β → StateM γ (List β × List β)
  | [], v₂ => do
      let r ← mkConst v₂.length 0
      return ([], r)
  | b :: v₁, v₂ => do
      let qr ← mkUdivUrem v₁ v₂
      let r₁ := b :: qr.2.dropLast
      let p ← mkSub r₁ v₂
      let r ← mkIte p.2 p.1 r₁
      return (p.2 :: qr.1, r)

def mkUdiv (v₁ v₂ : List β) : StateM γ (List β) := Prod.fst <$> mkUdivUrem v₁ v₂

def mkUrem (v₁ v₂ : List β) : StateM γ (List β) := Prod.snd <$> mkUdivUrem v₁ v₂

/-- A left shift whose amount is given highest bit first. -/
def mkShlRev : List β → List β → StateM γ (List β)
  | v₁, [] => return v₁
  | v₁, b :: v₂ => do
      let amount := 1 <<< v₂.length
      let c ← mkConst (min v₁.length amount) 0
      let t ← mkIte b (c ++ v₁.take (v₁.length - amount)) v₁
      mkShlRev t v₂

def mkShl (v₁ v₂ : List β) : StateM γ (List β) := mkShlRev v₁ v₂.reverse

/-- A logical right shift whose amount is given highest bit first. -/
def mkLshrRev : List β → List β → StateM γ (List β)
  | v₁, [] => return v₁
  | v₁, b :: v₂ => do
      let amount := 1 <<< v₂.length
      let c ← mkConst (min v₁.length amount) 0
      let t ← mkIte b (v₁.drop amount ++ c) v₁
      mkLshrRev t v₂

def mkLshr (v₁ v₂ : List β) : StateM γ (List β) := mkLshrRev v₁ v₂.reverse

def mkEq (v₁ v₂ : List β) : StateM γ (List β) := do
  let r ← mkIff v₁ v₂
  let l ← mkAll r
  return [l]

def mkUltAux : List β → List β → β → StateM γ β
  | b₁ :: v₁, b₂ :: v₂, c => do
      let t ← Sat.mkUlt b₁ b₂ c
      mkUltAux v₁ v₂ t
  | _, _, c => return c

def mkUlt (v₁ v₂ : List β) : StateM γ (List β) := do
  let r ← mkUltAux v₁ v₂ (mkFalse (← get))
  return [r]

def mkRedor (v : List β) : StateM γ (List β) := do
  let r ← mkAny v
  return [r]

def mkExtract (upper lower : ℕ) (v : List β) : StateM γ (List β) :=
  return (v.drop lower).take (upper - lower + 1)

/-! ## Specifications -/

theorem spells_of_le {g' : γ} (hle : g ≤ g') (h : Spells (sat g) v x) : Spells (sat g') v x :=
  h.mono fun _ _ => sat_of_le hle

theorem builds_mkUnaryBitwiseOp {f : β → StateM γ β} {φ : Bool → Bool}
    (hf : ∀ {g' : γ} {e : β} {r : Bool}, g ≤ g' → sat g' e r →
      Builds (f e) g' fun g' e => sat g' e (φ r))
    (hv : Spells (sat g) v x) {z : ℕ} (hz : z < 2 ^ v.length)
    (hbits : ∀ i < v.length, z.testBit i = φ (x.testBit i)) :
    Builds (mkUnaryBitwiseOp f v) g fun g' e => e.length = v.length ∧ Spells (sat g') e z := by
  induction v generalizing g x z with
  | nil => exact .pure ⟨rfl, Nat.lt_one_iff.1 hz⟩
  | cons b v ih =>
      refine (hf (le_refl g) hv.1).bind fun g₁ t hle ht => ?_
      have hhalf : z / 2 < 2 ^ v.length := by
        rw [Nat.div_lt_iff_lt_mul Nat.two_pos, ← Nat.pow_succ]
        exact hz
      have hrest := ih (fun hle' => hf (hle.trans hle')) (spells_of_le hle hv.2) hhalf fun i hi => by
        rw [Nat.testBit_div_two, Nat.testBit_div_two]
        exact hbits (i + 1) (Nat.succ_lt_succ hi)
      refine hrest.bind fun g₂ r hle' hr => .pure ⟨congrArg (· + 1) hr.1, ?_, hr.2⟩
      rw [hbits 0 (Nat.succ_pos _)]
      exact sat_of_le hle' ht

theorem builds_mkBinaryBitwiseOp {f : β → β → StateM γ β} {φ : Bool → Bool → Bool}
    (hf : ∀ {g' : γ} {e₁ e₂ : β} {r₁ r₂ : Bool}, g ≤ g' → sat g' e₁ r₁ → sat g' e₂ r₂ →
      Builds (f e₁ e₂) g' fun g' e => sat g' e (φ r₁ r₂))
    (h₁ : Spells (sat g) v₁ x₁) (h₂ : Spells (sat g) v₂ x₂) (hlen : v₁.length = v₂.length)
    {z : ℕ} (hz : z < 2 ^ v₁.length)
    (hbits : ∀ i < v₁.length, z.testBit i = φ (x₁.testBit i) (x₂.testBit i)) :
    Builds (mkBinaryBitwiseOp f v₁ v₂) g fun g' e =>
      e.length = v₁.length ∧ Spells (sat g') e z := by
  induction v₁ generalizing g v₂ x₁ x₂ z with
  | nil => exact .pure ⟨rfl, Nat.lt_one_iff.1 hz⟩
  | cons b₁ v₁ ih =>
      cases v₂ with
      | nil => exact absurd hlen (Nat.succ_ne_zero _)
      | cons b₂ v₂ =>
          refine (hf (le_refl g) h₁.1 h₂.1).bind fun g₁ t hle ht => ?_
          have hhalf : z / 2 < 2 ^ v₁.length := by
            rw [Nat.div_lt_iff_lt_mul Nat.two_pos, ← Nat.pow_succ]
            exact hz
          have hrest := ih (fun hle' => hf (hle.trans hle')) (spells_of_le hle h₁.2)
            (spells_of_le hle h₂.2) (Nat.succ.inj hlen) hhalf fun i hi => by
              rw [Nat.testBit_div_two, Nat.testBit_div_two, Nat.testBit_div_two]
              exact hbits (i + 1) (Nat.succ_lt_succ hi)
          refine hrest.bind fun g₂ r hle' hr => .pure ⟨congrArg (· + 1) hr.1, ?_, hr.2⟩
          rw [hbits 0 (Nat.succ_pos _)]
          exact sat_of_le hle' ht

theorem builds_mkNot (h : Spells (sat g) v x) :
    Builds (mkNot v) g fun g' e =>
      e.length = v.length ∧ Spells (sat g') e (2 ^ v.length - (x + 1)) :=
  builds_mkUnaryBitwiseOp (fun _ => Sat.builds_mkNot) h
    (Nat.sub_lt (Nat.two_pow_pos _) (Nat.succ_pos x)) fun i hi => by
      rw [Nat.testBit_two_pow_sub_succ h.lt, decide_eq_true hi, Bool.true_and]

section Binary

variable (h₁ : Spells (sat g) v₁ x₁) (h₂ : Spells (sat g) v₂ x₂) (hlen : v₁.length = v₂.length)

include h₁ h₂ hlen

theorem builds_mkAnd : Builds (mkAnd v₁ v₂) g fun g' e =>
    e.length = v₁.length ∧ Spells (sat g') e (x₁ &&& x₂) :=
  builds_mkBinaryBitwiseOp (fun _ => Sat.builds_mkAnd) h₁ h₂ hlen (Nat.and_lt_two_pow _ (hlen ▸ h₂.lt))
    fun _ _ => Nat.testBit_and _ _ _

theorem builds_mkXor : Builds (mkXor v₁ v₂) g fun g' e =>
    e.length = v₁.length ∧ Spells (sat g') e (x₁ ^^^ x₂) :=
  builds_mkBinaryBitwiseOp (fun _ => Sat.builds_mkXor) h₁ h₂ hlen
    (Nat.xor_lt_two_pow h₁.lt (hlen ▸ h₂.lt)) fun _ _ => Nat.testBit_xor _ _ _

theorem builds_mkIff : Builds (mkIff v₁ v₂) g fun g' e =>
    e.length = v₁.length ∧ Spells (sat g') e (2 ^ v₁.length - ((x₁ ^^^ x₂) + 1)) := by
  have hlt : x₁ ^^^ x₂ < 2 ^ v₁.length := Nat.xor_lt_two_pow h₁.lt (hlen ▸ h₂.lt)
  refine builds_mkBinaryBitwiseOp (fun _ => Sat.builds_mkIff) h₁ h₂ hlen
    (Nat.sub_lt (Nat.two_pow_pos _) (Nat.succ_pos _)) fun i hi => ?_
  rw [Nat.testBit_two_pow_sub_succ hlt, decide_eq_true hi, Nat.testBit_xor]
  cases x₁.testBit i <;> cases x₂.testBit i <;> rfl

theorem builds_mkIte {c : β} {r : Bool} (hc : sat g c r) :
    Builds (mkIte c v₁ v₂) g fun g' e =>
      e.length = v₁.length ∧ Spells (sat g') e (bif r then x₁ else x₂) := by
  have hz : (bif r then x₁ else x₂) < 2 ^ v₁.length := by
    cases r with
    | true => exact h₁.lt
    | false => exact hlen ▸ h₂.lt
  refine builds_mkBinaryBitwiseOp (fun hle => Sat.builds_mkIte (sat_of_le hle hc)) h₁ h₂ hlen hz
    fun i _ => ?_
  cases r <;> rfl

theorem builds_mkAdc {c : β} {r : Bool} (hc : sat g c r) :
    Builds (mkAdc v₁ v₂ c) g fun g' e => e.1.length = v₁.length ∧
      Spells (sat g') e.1 ((x₁ + x₂ + r.toNat) % 2 ^ v₁.length) ∧
      sat g' e.2 (decide (2 ^ v₁.length ≤ x₁ + x₂ + r.toNat)) := by
  induction v₁ generalizing g v₂ x₁ x₂ c r with
  | nil =>
      have hx₂ : x₂ = 0 := by
        rw [List.eq_nil_of_length_eq_zero hlen.symm] at h₂
        exact h₂
      refine .pure ⟨rfl, Nat.mod_one _, ?_⟩
      rw [show x₁ = 0 from h₁, hx₂]
      cases r <;> exact hc
  | cons b₁ v₁ ih =>
      cases v₂ with
      | nil => exact absurd hlen (Nat.succ_ne_zero _)
      | cons b₂ v₂ =>
          refine (builds_mkFullAdd h₁.1 h₂.1 hc).bind fun g₁ t hle ht => ?_
          have hrest := ih (spells_of_le hle h₁.2) (spells_of_le hle h₂.2) (Nat.succ.inj hlen) ht.2
          obtain ⟨hbit, hhalf⟩ := half_add_carry x₁ x₂ r
          rw [hhalf] at hrest
          refine hrest.bind fun g₂ s hle' hs => .pure ⟨congrArg (· + 1) hs.1, ⟨?_, ?_⟩, ?_⟩
          · rw [List.length_cons, testBit_zero_mod, hbit]
            exact sat_of_le hle' ht.1
          · rw [List.length_cons, mod_two_pow_succ_div]
            exact hs.2.1
          · have hcarry : 2 ^ v₁.length ≤ (x₁ + x₂ + r.toNat) / 2 ↔
                2 ^ (b₁ :: v₁).length ≤ x₁ + x₂ + r.toNat := by
              rw [Nat.le_div_iff_mul_le Nat.two_pos, List.length_cons, Nat.pow_succ]
            rw [← decide_eq_decide.2 hcarry]
            exact hs.2.2

theorem builds_mkAdd : Builds (mkAdd v₁ v₂) g fun g' e =>
    e.1.length = v₁.length ∧ Spells (sat g') e.1 ((x₁ + x₂) % 2 ^ v₁.length) :=
  .get ((builds_mkAdc h₁ h₂ hlen (sat_mkConst g false)).mono fun _ _ _ h => ⟨h.1, h.2.1⟩)

theorem builds_mkSub : Builds (mkSub v₁ v₂) g fun g' e =>
    e.1.length = v₁.length ∧ Spells (sat g') e.1 ((2 ^ v₁.length - x₂ + x₁) % 2 ^ v₁.length) ∧
      sat g' e.2 (decide (x₂ ≤ x₁)) := by
  have hlt : x₂ < 2 ^ v₁.length := hlen ▸ h₂.lt
  refine .get ((builds_mkNot h₂).bind fun g₁ n₂ hle hn => ?_)
  refine (builds_mkAdc (spells_of_le hle h₁) hn.2 (hlen.trans hn.1.symm)
    (sat_of_le hle (sat_mkConst g true))).mono fun g₂ e _ he => ?_
  rw [← hlen] at he
  have hsum : x₁ + (2 ^ v₁.length - (x₂ + 1)) + true.toNat = 2 ^ v₁.length - x₂ + x₁ := by
    rw [Bool.toNat_true]
    omega
  rw [hsum] at he
  refine ⟨he.1, he.2.1, ?_⟩
  have hcarry : 2 ^ v₁.length ≤ 2 ^ v₁.length - x₂ + x₁ ↔ x₂ ≤ x₁ := by omega
  rw [← decide_eq_decide.2 hcarry]
  exact he.2.2

theorem builds_mkEq : Builds (mkEq v₁ v₂) g fun g' e =>
    e.length = 1 ∧ Spells (sat g') e (decide (x₁ = x₂)).toNat := by
  refine (builds_mkIff h₁ h₂ hlen).bind fun g₁ r _ hr => ?_
  obtain ⟨rs, hrs, hall, _⟩ := hr.2.exists_bits
  refine (builds_mkAll hrs).bind fun g₂ l _ hl => .pure ⟨rfl, ?_⟩
  have hlt : x₁ ^^^ x₂ < 2 ^ v₁.length := Nat.xor_lt_two_pow h₁.lt (hlen ▸ h₂.lt)
  have hxor : x₁ ^^^ x₂ = 0 ↔ x₁ = x₂ := Nat.xor_eq_zero_iff
  have heq : 2 ^ v₁.length - ((x₁ ^^^ x₂) + 1) + 1 = 2 ^ r.length ↔ x₁ = x₂ := by
    rw [hr.1]
    omega
  rw [hall, decide_eq_decide.2 heq] at hl
  have h := spells_cons (v := []) (y := 0) hl rfl
  simpa using h

theorem builds_mkUltAux {c : β} {r : Bool} (hc : sat g c r) :
    Builds (mkUltAux v₁ v₂ c) g fun g' e => sat g' e (decide (x₁ < x₂ + r.toNat)) := by
  induction v₁ generalizing g v₂ x₁ x₂ c r with
  | nil =>
      have hx₂ : x₂ = 0 := by
        rw [List.eq_nil_of_length_eq_zero hlen.symm] at h₂
        exact h₂
      refine .pure ?_
      rw [show x₁ = 0 from h₁, hx₂]
      cases r <;> exact hc
  | cons b₁ v₁ ih =>
      cases v₂ with
      | nil => exact absurd hlen (Nat.succ_ne_zero _)
      | cons b₂ v₂ =>
          refine (Sat.builds_mkUlt h₁.1 h₂.1 hc).bind fun g₁ t hle ht => ?_
          have hrest := ih (spells_of_le hle h₁.2) (spells_of_le hle h₂.2) (Nat.succ.inj hlen) ht
          refine hrest.mono fun g₂ e _ he => ?_
          have hlt : x₁ / 2 < x₂ / 2 + ((r && (!x₁.testBit 0 || x₂.testBit 0)) ||
              (x₂.testBit 0 && !x₁.testBit 0)).toNat ↔ x₁ < x₂ + r.toNat := by
            rw [Nat.testBit_zero, Nat.testBit_zero]
            cases Nat.mod_two_eq_zero_or_one x₁ <;> cases Nat.mod_two_eq_zero_or_one x₂ <;>
              cases r <;> simp [*] <;> omega
          rw [← decide_eq_decide.2 hlt]
          exact he

theorem builds_mkUlt : Builds (mkUlt v₁ v₂) g fun g' e =>
    e.length = 1 ∧ Spells (sat g') e (decide (x₁ < x₂)).toNat := by
  have haux := builds_mkUltAux h₁ h₂ hlen (sat_mkConst g false)
  refine .get (haux.bind fun g₁ r _ hr => .pure ⟨rfl, ?_⟩)
  have h := spells_cons (v := []) (y := 0) hr rfl
  simpa using h

end Binary

theorem builds_mkConst (g : γ) {n c : ℕ} (h : c < 2 ^ n) :
    Builds (mkConst n c) g fun g' e => e.length = n ∧ Spells (sat g') e c := by
  refine .get (.pure ⟨by simp, spells_iff.2 ⟨by simpa using h, fun i hi => ?_⟩⟩)
  rw [List.getElem_map, List.getElem_range]
  exact sat_mkConst g _

theorem builds_mkVar {β γ : Type} [SatVarFactory β γ] (g : γ) {n c : ℕ} (h : c < 2 ^ n) :
    Builds (mkVar n c) g fun g' e => e.length = n ∧ Spells (sat g') e c := by
  induction n generalizing g c with
  | zero => exact .pure ⟨rfl, Nat.lt_one_iff.1 h⟩
  | succ n ih =>
      refine (Sat.builds_mkVar g (c.testBit 0)).bind fun g₁ t _ ht => ?_
      have hhalf : c / 2 < 2 ^ n := by
        rw [Nat.div_lt_iff_lt_mul Nat.two_pos, ← Nat.pow_succ]
        exact h
      refine (ih g₁ hhalf).bind fun g₂ r hle hr => .pure ⟨congrArg (· + 1) hr.1, ?_, hr.2⟩
      exact sat_of_le hle ht

theorem builds_mkRedor (h : Spells (sat g) v x) :
    Builds (mkRedor v) g fun g' e => e.length = 1 ∧ Spells (sat g') e (decide (x ≠ 0)).toNat := by
  obtain ⟨rs, hrs, _, hany⟩ := h.exists_bits
  refine (builds_mkAny hrs).bind fun g₁ r _ hr => .pure ⟨rfl, ?_⟩
  rw [hany] at hr
  have h := spells_cons (v := []) (y := 0) hr rfl
  simpa using h

/-- A product bit by bit: the lowest bit of the second factor selects the first
factor, the other bits shift the product with what is left of it. -/
theorem mul_mod_step (n x₁ x₂ : ℕ) :
    (bif x₂.testBit 0 then x₁ else 0) % 2 + 2 * (((bif x₂.testBit 0 then x₁ else 0) / 2 +
      x₁ % 2 ^ n * (x₂ / 2) % 2 ^ n) % 2 ^ n) = x₁ * x₂ % 2 ^ (n + 1) := by
  have hsplit : x₁ * x₂ = (bif x₂.testBit 0 then x₁ else 0) + 2 * (x₁ * (x₂ / 2)) := by
    have hx₂ := Nat.mod_add_div x₂ 2
    rw [Nat.testBit_zero]
    cases Nat.mod_two_eq_zero_or_one x₂ with
    | inl h =>
        rw [h] at hx₂
        simp only [h]
        calc x₁ * x₂ = x₁ * (0 + 2 * (x₂ / 2)) := by rw [hx₂]
          _ = 0 + 2 * (x₁ * (x₂ / 2)) := by ring
    | inr h =>
        rw [h] at hx₂
        simp only [h]
        calc x₁ * x₂ = x₁ * (1 + 2 * (x₂ / 2)) := by rw [hx₂]
          _ = x₁ + 2 * (x₁ * (x₂ / 2)) := by ring
  rw [hsplit, Nat.pow_succ', Nat.mod_mul, Nat.add_mul_mod_self_left,
    Nat.add_mul_div_left _ _ Nat.two_pos, Nat.mod_mul_mod, Nat.add_mod_mod]

theorem builds_mkMul (h₁ : Spells (sat g) v₁ x₁) (h₂ : Spells (sat g) v₂ x₂)
    (hlen : v₁.length = v₂.length) :
    Builds (mkMul v₁ v₂) g fun g' e =>
      e.length = v₁.length ∧ Spells (sat g') e (x₁ * x₂ % 2 ^ v₁.length) := by
  induction v₂ generalizing g v₁ x₁ x₂ with
  | nil =>
      refine .pure ⟨hlen.symm, ?_⟩
      rw [hlen]
      exact Nat.mod_one _
  | cons b v₂ ih =>
      have hp : Builds (mkUnaryBitwiseOp (Sat.mkAnd b) v₁) g fun g' e =>
          e.length = v₁.length ∧ Spells (sat g') e (bif x₂.testBit 0 then x₁ else 0) := by
        refine builds_mkUnaryBitwiseOp (fun hle hr => Sat.builds_mkAnd (sat_of_le hle h₂.1) hr)
          h₁ ?_ ?_
        · cases x₂.testBit 0 with
          | true => exact h₁.lt
          | false => exact Nat.two_pow_pos _
        · intro i _
          cases x₂.testBit 0 <;> simp
      refine hp.bind fun g₁ p hle₁ hp => ?_
      have hn : v₁.length = v₂.length + 1 := hlen
      have hr := ih (spells_of_le hle₁ h₁.dropLast) (spells_of_le hle₁ h₂.2) (by simp [hn])
      refine hr.bind fun g₂ r hle₂ hr => ?_
      have hptail : p.tail.length = v₂.length := by simp [hp.1, hn]
      have hrlen : r.length = v₂.length := by simp [hr.1, hn]
      have hs := builds_mkAdd (spells_of_le hle₂ (hp.2.drop 1)) hr.2 (by simp [hp.1, hrlen, hn])
      rw [List.drop_one, hptail, List.length_dropLast, hn, Nat.add_sub_cancel] at hs
      refine hs.bind fun g₃ s hle₃ hs => .pure ⟨?_, ?_⟩
      · simp [hs.1, hp.1, hn]
        omega
      · have hhead := spells_of_le (hle₂.trans hle₃) (hp.2.take 1)
        have happend := hhead.append hs.2
        rw [List.length_take, hp.1, hn, Nat.min_eq_left (Nat.succ_le_succ (Nat.zero_le _)),
          Nat.pow_one, mul_mod_step, ← hn] at happend
        exact happend

/-- One step of long division brings down a bit of the dividend. -/
theorem div_mod_step {x₁ x₂ : ℕ} (hx₂ : x₂ ≠ 0) :
    x₁ / x₂ = 2 * (x₁ / 2 / x₂) + (decide (x₂ ≤ 2 * (x₁ / 2 % x₂) + x₁ % 2)).toNat ∧
      x₁ % x₂ = if x₂ ≤ 2 * (x₁ / 2 % x₂) + x₁ % 2 then 2 * (x₁ / 2 % x₂) + x₁ % 2 - x₂
        else 2 * (x₁ / 2 % x₂) + x₁ % 2 := by
  have hpos : 0 < x₂ := Nat.pos_of_ne_zero hx₂
  have hrem : x₁ / 2 % x₂ < x₂ := Nat.mod_lt _ hpos
  have hhalf := Nat.mod_add_div (x₁ / 2) x₂
  have hdouble : x₂ * (2 * (x₁ / 2 / x₂)) = 2 * (x₂ * (x₁ / 2 / x₂)) := by ring
  by_cases h : x₂ ≤ 2 * (x₁ / 2 % x₂) + x₁ % 2
  · rw [if_pos h, decide_eq_true h, Bool.toNat_true]
    rw [Nat.div_mod_unique hpos, Nat.mul_add, hdouble]
    omega
  · rw [if_neg h, decide_eq_false h, Bool.toNat_false]
    rw [Nat.div_mod_unique hpos, Nat.add_zero, hdouble]
    omega

theorem builds_mkUdivUrem (h₁ : Spells (sat g) v₁ x₁) (h₂ : Spells (sat g) v₂ x₂)
    (hle : v₁.length ≤ v₂.length) :
    Builds (mkUdivUrem v₁ v₂) g fun g' e =>
      (e.1.length = v₁.length ∧
        Spells (sat g') e.1 (if x₂ = 0 then 2 ^ v₁.length - 1 else x₁ / x₂)) ∧
      (e.2.length = v₂.length ∧ Spells (sat g') e.2 (x₁ % x₂)) := by
  induction v₁ generalizing g x₁ with
  | nil =>
      have hx₁ : x₁ = 0 := h₁
      refine (builds_mkConst g (Nat.two_pow_pos v₂.length)).bind fun g₁ r _ hr =>
        .pure ⟨⟨rfl, ?_⟩, hr.1, ?_⟩
      · rw [hx₁]
        show (if x₂ = 0 then 0 else 0 / x₂) = 0
        split
        · rfl
        · exact Nat.zero_div _
      · rw [hx₁, Nat.zero_mod]
        exact hr.2
  | cons b v₁ ih =>
      refine (ih h₁.2 h₂ (Nat.le_of_succ_le hle)).bind fun g₁ qr hle₁ hqr => ?_
      have hrem : x₁ / 2 % x₂ < 2 ^ (v₂.length - 1) := by
        calc x₁ / 2 % x₂ ≤ x₁ / 2 := Nat.mod_le _ _
          _ < 2 ^ v₁.length := h₁.2.lt
          _ ≤ 2 ^ (v₂.length - 1) := Nat.pow_le_pow_right Nat.two_pos (Nat.le_sub_one_of_lt hle)
      have hr₁ : Spells (sat g₁) (b :: qr.2.dropLast) (2 * (x₁ / 2 % x₂) + x₁ % 2) := by
        have hinit := hqr.2.2.dropLast
        rw [hqr.2.1, Nat.mod_eq_of_lt hrem] at hinit
        have h := spells_cons (sat_of_le hle₁ h₁.1) hinit
        rwa [testBit_zero_eq_toNat] at h
      have hlen : (b :: qr.2.dropLast).length = v₂.length := by
        rw [List.length_cons, List.length_dropLast, hqr.2.1]
        exact Nat.sub_add_cancel (Nat.one_le_of_lt hle)
      refine (builds_mkSub hr₁ (spells_of_le hle₁ h₂) hlen).bind fun g₂ p hle₂ hp => ?_
      refine (builds_mkIte hp.2.1 (spells_of_le hle₂ hr₁) hp.1 hp.2.2).bind fun g₃ r hle₃ hr => ?_
      have hlt := hr₁.lt
      rw [hp.1, hlen] at hr
      rw [hlen] at hlt
      -- the difference is taken only where it does not wrap
      have hdiff : (bif decide (x₂ ≤ 2 * (x₁ / 2 % x₂) + x₁ % 2)
          then (2 ^ v₂.length - x₂ + (2 * (x₁ / 2 % x₂) + x₁ % 2)) % 2 ^ v₂.length
          else 2 * (x₁ / 2 % x₂) + x₁ % 2) =
          if x₂ ≤ 2 * (x₁ / 2 % x₂) + x₁ % 2 then 2 * (x₁ / 2 % x₂) + x₁ % 2 - x₂
          else 2 * (x₁ / 2 % x₂) + x₁ % 2 := by
        by_cases h : x₂ ≤ 2 * (x₁ / 2 % x₂) + x₁ % 2
        · have hsum : 2 ^ v₂.length - x₂ + (2 * (x₁ / 2 % x₂) + x₁ % 2) =
              2 * (x₁ / 2 % x₂) + x₁ % 2 - x₂ + 2 ^ v₂.length := by
            have := h₂.lt
            omega
          rw [if_pos h, decide_eq_true h, cond_true, hsum, Nat.add_mod_right]
          exact Nat.mod_eq_of_lt (Nat.lt_of_le_of_lt (Nat.sub_le _ _) hlt)
        · rw [if_neg h, decide_eq_false h, cond_false]
      rw [hdiff] at hr
      have hq := spells_cons (sat_of_le hle₃ hp.2.2) (spells_of_le (hle₂.trans hle₃) hqr.1.2)
      refine .pure ⟨⟨congrArg (· + 1) hqr.1.1, ?_⟩, hr.1, ?_⟩
      · by_cases hx₂ : x₂ = 0
        · have hpow := Nat.two_pow_pos v₁.length
          rw [if_pos hx₂, hx₂, decide_eq_true (Nat.zero_le _), Bool.toNat_true] at hq
          rw [if_pos hx₂, List.length_cons, Nat.pow_succ']
          have hones : 2 * 2 ^ v₁.length - 1 = 2 * (2 ^ v₁.length - 1) + 1 := by omega
          rwa [hones]
        · rw [if_neg hx₂] at hq ⊢
          rwa [(div_mod_step hx₂).1]
      · by_cases hx₂ : x₂ = 0
        · rw [hx₂, Nat.mod_zero]
          have hx₁ : 2 * (x₁ / 2 % x₂) + x₁ % 2 = x₁ := by
            rw [hx₂, Nat.mod_zero]
            exact Nat.div_add_mod x₁ 2
          rw [hx₁, if_pos (hx₂ ▸ Nat.zero_le _), hx₂, Nat.sub_zero] at hr
          exact hr.2
        · rw [(div_mod_step hx₂).2]
          exact hr.2

/-- Shifting by a power of two moves the low part of a number up. -/
theorem shl_pow (n m x : ℕ) : 2 ^ min n m * (x % 2 ^ (n - m)) = x * 2 ^ m % 2 ^ n := by
  cases Nat.le_total m n with
  | inl h =>
      have hpow : 2 ^ n = 2 ^ m * 2 ^ (n - m) := by rw [← Nat.pow_add, Nat.add_sub_cancel' h]
      rw [Nat.min_eq_right h, hpow, Nat.mul_comm x, Nat.mul_mod_mul_left]
  | inr h =>
      rw [Nat.sub_eq_zero_of_le h, Nat.pow_zero, Nat.mod_one, Nat.mul_zero]
      have hdvd : 2 ^ n ∣ x * 2 ^ m := Dvd.dvd.mul_left (Nat.pow_dvd_pow 2 h) x
      exact (Nat.mod_eq_zero_of_dvd hdvd).symm

/-- The highest bit of an amount decides whether to shift by its weight. -/
theorem amount_split {m x₂ : ℕ} (h : x₂ < 2 ^ (m + 1)) :
    x₂ = x₂ % 2 ^ m + if x₂.testBit m then 2 ^ m else 0 := by
  have hdiv : x₂ / 2 ^ m < 2 := by
    rwa [Nat.div_lt_iff_lt_mul (Nat.two_pow_pos m), ← Nat.pow_succ']
  have hsplit := Nat.mod_add_div x₂ (2 ^ m)
  rw [Nat.testBit_eq_decide_div_mod_eq, Nat.mod_eq_of_lt hdiv]
  by_cases h1 : x₂ / 2 ^ m = 1
  · rw [h1, Nat.mul_one] at hsplit
    simp [h1, hsplit]
  · have h0 : x₂ / 2 ^ m = 0 :=
      Nat.lt_one_iff.1 (Nat.lt_of_le_of_ne (Nat.le_of_lt_succ hdiv) h1)
    rw [h0, Nat.mul_zero] at hsplit
    simp [h0, hsplit]

theorem builds_mkShlRev (h₁ : Spells (sat g) v₁ x₁) (h₂ : Spells (sat g) v₂.reverse x₂) :
    Builds (mkShlRev v₁ v₂) g fun g' e =>
      e.length = v₁.length ∧ Spells (sat g') e (x₁ * 2 ^ x₂ % 2 ^ v₁.length) := by
  induction v₂ generalizing g v₁ x₁ x₂ with
  | nil =>
      refine .pure ⟨rfl, ?_⟩
      rw [show x₂ = 0 from h₂, Nat.pow_zero, Nat.mul_one, Nat.mod_eq_of_lt h₁.lt]
      exact h₁
  | cons b v₂ ih =>
      have hx₂ := h₂.lt
      rw [List.reverse_cons] at h₂
      obtain ⟨hlow, hb⟩ := h₂.of_snoc
      rw [List.length_reverse] at hlow hb hx₂
      refine (builds_mkConst g (Nat.two_pow_pos _)).bind fun g₁ c hle₁ hc => ?_
      have hshift := hc.2.append ((spells_of_le hle₁ h₁).take (v₁.length - 1 <<< v₂.length))
      rw [hc.1, Nat.zero_add] at hshift
      have hlen : (c ++ v₁.take (v₁.length - 1 <<< v₂.length)).length = v₁.length := by
        rw [List.length_append, List.length_take, hc.1]
        omega
      have ht := builds_mkIte hshift (spells_of_le hle₁ h₁) hlen (sat_of_le hle₁ hb)
      refine ht.bind fun g₂ t hle₂ ht => ?_
      have hrest := ih ht.2 (spells_of_le (hle₁.trans hle₂) hlow)
      rw [ht.1, hlen, Nat.one_shiftLeft, shl_pow] at hrest
      have hstep : (bif x₂.testBit v₂.length then x₁ * 2 ^ 2 ^ v₂.length % 2 ^ v₁.length else x₁) *
          2 ^ (x₂ % 2 ^ v₂.length) % 2 ^ v₁.length = x₁ * 2 ^ x₂ % 2 ^ v₁.length := by
        have hsplit := amount_split hx₂
        cases hbit : x₂.testBit v₂.length with
        | false =>
            rw [hbit, if_neg Bool.false_ne_true, Nat.add_zero] at hsplit
            rw [cond_false, ← hsplit]
        | true =>
            rw [hbit, if_pos rfl] at hsplit
            rw [cond_true, Nat.mod_mul_mod, Nat.mul_assoc, ← Nat.pow_add, Nat.add_comm, ← hsplit]
      rwa [hstep] at hrest

theorem builds_mkShl (h₁ : Spells (sat g) v₁ x₁) (h₂ : Spells (sat g) v₂ x₂) :
    Builds (mkShl v₁ v₂) g fun g' e =>
      e.length = v₁.length ∧ Spells (sat g') e (x₁ * 2 ^ x₂ % 2 ^ v₁.length) :=
  builds_mkShlRev h₁ (by rwa [List.reverse_reverse])

theorem builds_mkLshrRev (h₁ : Spells (sat g) v₁ x₁) (h₂ : Spells (sat g) v₂.reverse x₂) :
    Builds (mkLshrRev v₁ v₂) g fun g' e =>
      e.length = v₁.length ∧ Spells (sat g') e (x₁ / 2 ^ x₂) := by
  induction v₂ generalizing g v₁ x₁ x₂ with
  | nil =>
      refine .pure ⟨rfl, ?_⟩
      rw [show x₂ = 0 from h₂, Nat.pow_zero, Nat.div_one]
      exact h₁
  | cons b v₂ ih =>
      have hx₂ := h₂.lt
      rw [List.reverse_cons] at h₂
      obtain ⟨hlow, hb⟩ := h₂.of_snoc
      rw [List.length_reverse] at hlow hb hx₂
      refine (builds_mkConst g (Nat.two_pow_pos _)).bind fun g₁ c hle₁ hc => ?_
      have hshift := ((spells_of_le hle₁ h₁).drop (1 <<< v₂.length)).append hc.2
      rw [Nat.mul_zero, Nat.add_zero] at hshift
      have hlen : (v₁.drop (1 <<< v₂.length) ++ c).length = v₁.length := by
        rw [List.length_append, List.length_drop, hc.1]
        omega
      have ht := builds_mkIte hshift (spells_of_le hle₁ h₁) hlen (sat_of_le hle₁ hb)
      refine ht.bind fun g₂ t hle₂ ht => ?_
      have hrest := ih ht.2 (spells_of_le (hle₁.trans hle₂) hlow)
      rw [ht.1, hlen, Nat.one_shiftLeft] at hrest
      have hstep : (bif x₂.testBit v₂.length then x₁ / 2 ^ 2 ^ v₂.length else x₁) /
          2 ^ (x₂ % 2 ^ v₂.length) = x₁ / 2 ^ x₂ := by
        have hsplit := amount_split hx₂
        cases hbit : x₂.testBit v₂.length with
        | false =>
            rw [hbit, if_neg Bool.false_ne_true, Nat.add_zero] at hsplit
            rw [cond_false, ← hsplit]
        | true =>
            rw [hbit, if_pos rfl] at hsplit
            rw [cond_true, Nat.div_div_eq_div_mul, ← Nat.pow_add, Nat.add_comm, ← hsplit]
      rwa [hstep] at hrest

theorem builds_mkLshr (h₁ : Spells (sat g) v₁ x₁) (h₂ : Spells (sat g) v₂ x₂) :
    Builds (mkLshr v₁ v₂) g fun g' e =>
      e.length = v₁.length ∧ Spells (sat g') e (x₁ / 2 ^ x₂) :=
  builds_mkLshrRev h₁ (by rwa [List.reverse_reverse])

end Exoverifier.Smt.Bitblast

import Mathlib
import Exoverifier.Smt.Bitblast

/-! # Factories of bit-vector expressions

The interface of `smt/factory.lean` and its default operators, and the factory
that `smt/bitblast` makes of any factory of booleans. The operators that a
factory gets from the defaults come after the basic ones.
-/

namespace Exoverifier.Smt

open Library

/-- Expressions of bit vectors with the basic operators. -/
class SmtBase (β : outParam Type) (γ : Type) extends Preorder γ where
  sat : γ → β → {n : ℕ} → BitVec n → Prop
  default : β
  initF : γ
  denote : β → (n : ℕ) × BitVec n
  denote_sound : ∀ {g : γ} {e : β} {n : ℕ} {x : BitVec n}, sat g e x → denote e = ⟨n, x⟩
  sat_of_le : ∀ {g g' : γ} {e : β} {n : ℕ} {x : BitVec n}, g ≤ g' → sat g e x → sat g' e x
  width : γ → β → ℕ
  width_sound : ∀ {g : γ} {e : β} {n : ℕ} {x : BitVec n}, sat g e x → width g e = n
  mkConst {n : ℕ} : BitVec n → StateM γ β
  builds_mkConst : ∀ (g : γ) {n : ℕ} (c : BitVec n),
    Builds (mkConst c) g fun g' e => sat g' e c
  mkVar {n : ℕ} : BitVec n → StateM γ β
  builds_mkVar : ∀ (g : γ) {n : ℕ} (c : BitVec n), Builds (mkVar c) g fun g' e => sat g' e c
  mkExtract : ℕ → ℕ → β → StateM γ β
  builds_mkExtract : ∀ {g : γ} {e : β} {n upper lower : ℕ} {x : BitVec n}, sat g e x →
    upper < n → lower ≤ upper →
    Builds (mkExtract upper lower e) g fun g' e' => sat g' e' (x.extractLsb upper lower)
  mkNot : β → StateM γ β
  builds_mkNot : ∀ {g : γ} {e : β} {n : ℕ} {x : BitVec n}, sat g e x →
    Builds (mkNot e) g fun g' e' => sat g' e' (~~~x)
  mkAnd : β → β → StateM γ β
  builds_mkAnd : ∀ {g : γ} {e₁ e₂ : β} {n : ℕ} {x₁ x₂ : BitVec n}, sat g e₁ x₁ → sat g e₂ x₂ →
    Builds (mkAnd e₁ e₂) g fun g' e => sat g' e (x₁ &&& x₂)
  mkXor : β → β → StateM γ β
  builds_mkXor : ∀ {g : γ} {e₁ e₂ : β} {n : ℕ} {x₁ x₂ : BitVec n}, sat g e₁ x₁ → sat g e₂ x₂ →
    Builds (mkXor e₁ e₂) g fun g' e => sat g' e (x₁ ^^^ x₂)
  mkAdd : β → β → StateM γ β
  builds_mkAdd : ∀ {g : γ} {e₁ e₂ : β} {n : ℕ} {x₁ x₂ : BitVec n}, sat g e₁ x₁ → sat g e₂ x₂ →
    Builds (mkAdd e₁ e₂) g fun g' e => sat g' e (x₁ + x₂)
  mkSub : β → β → StateM γ β
  builds_mkSub : ∀ {g : γ} {e₁ e₂ : β} {n : ℕ} {x₁ x₂ : BitVec n}, sat g e₁ x₁ → sat g e₂ x₂ →
    Builds (mkSub e₁ e₂) g fun g' e => sat g' e (x₁ - x₂)
  mkMul : β → β → StateM γ β
  builds_mkMul : ∀ {g : γ} {e₁ e₂ : β} {n : ℕ} {x₁ x₂ : BitVec n}, sat g e₁ x₁ → sat g e₂ x₂ →
    Builds (mkMul e₁ e₂) g fun g' e => sat g' e (x₁ * x₂)
  mkUrem : β → β → StateM γ β
  builds_mkUrem : ∀ {g : γ} {e₁ e₂ : β} {n : ℕ} {x₁ x₂ : BitVec n}, sat g e₁ x₁ → sat g e₂ x₂ →
    Builds (mkUrem e₁ e₂) g fun g' e => sat g' e (x₁ % x₂)
  mkEq : β → β → StateM γ β
  builds_mkEq : ∀ {g : γ} {e₁ e₂ : β} {n : ℕ} {x₁ x₂ : BitVec n}, sat g e₁ x₁ → sat g e₂ x₂ →
    Builds (mkEq e₁ e₂) g fun g' e => sat g' e (BitVec.ofBool (x₁ = x₂))
  mkUlt : β → β → StateM γ β
  builds_mkUlt : ∀ {g : γ} {e₁ e₂ : β} {n : ℕ} {x₁ x₂ : BitVec n}, sat g e₁ x₁ → sat g e₂ x₂ →
    Builds (mkUlt e₁ e₂) g fun g' e => sat g' e (BitVec.ofBool (x₁ < x₂))
  mkIte : β → β → β → StateM γ β
  builds_mkIte : ∀ {g : γ} {e₁ e₂ e₃ : β} {b : Bool} {n : ℕ} {x₂ x₃ : BitVec n},
    sat g e₁ (BitVec.ofBool b) → sat g e₂ x₂ → sat g e₃ x₃ →
    Builds (mkIte e₁ e₂ e₃) g fun g' e => sat g' e (bif b then x₂ else x₃)
  mkShl : β → β → StateM γ β
  builds_mkShl : ∀ {g : γ} {e₁ e₂ : β} {n m : ℕ} {x₁ : BitVec n} {x₂ : BitVec m}, sat g e₁ x₁ →
    sat g e₂ x₂ → Builds (mkShl e₁ e₂) g fun g' e => sat g' e (x₁ <<< x₂)
  mkLshr : β → β → StateM γ β
  builds_mkLshr : ∀ {g : γ} {e₁ e₂ : β} {n m : ℕ} {x₁ : BitVec n} {x₂ : BitVec m}, sat g e₁ x₁ →
    sat g e₂ x₂ → Builds (mkLshr e₁ e₂) g fun g' e => sat g' e (x₁ >>> x₂)
  mkRedor : β → StateM γ β
  builds_mkRedor : ∀ {g : γ} {e : β} {n : ℕ} {x : BitVec n}, sat g e x →
    Builds (mkRedor e) g fun g' e' => sat g' e' (BitVec.ofBool (x ≠ 0))

/-- The operators that have a default and may be replaced. -/
class SmtFactory (β : outParam Type) (γ : Type) extends SmtBase β γ where
  mkOr : β → β → StateM γ β
  builds_mkOr : ∀ {g : γ} {e₁ e₂ : β} {n : ℕ} {x₁ x₂ : BitVec n}, sat g e₁ x₁ → sat g e₂ x₂ →
    Builds (mkOr e₁ e₂) g fun g' e => sat g' e (x₁ ||| x₂)
  mkImplies : β → β → StateM γ β
  builds_mkImplies : ∀ {g : γ} {e₁ e₂ : β} {b₁ b₂ : Bool}, sat g e₁ (BitVec.ofBool b₁) →
    sat g e₂ (BitVec.ofBool b₂) →
    Builds (mkImplies e₁ e₂) g fun g' e => sat g' e (BitVec.ofBool (!b₁ || b₂))
  mkNeg : β → StateM γ β
  builds_mkNeg : ∀ {g : γ} {e : β} {n : ℕ} {x : BitVec n}, sat g e x →
    Builds (mkNeg e) g fun g' e' => sat g' e' (-x)
  mkUdiv : β → β → StateM γ β
  builds_mkUdiv : ∀ {g : γ} {e₁ e₂ : β} {n : ℕ} {x₁ x₂ : BitVec n}, sat g e₁ x₁ → sat g e₂ x₂ →
    Builds (mkUdiv e₁ e₂) g fun g' e => sat g' e (x₁.smtUDiv x₂)

export SmtBase (sat width mkConst mkVar mkExtract mkNot mkAnd mkXor mkAdd mkSub mkMul mkUrem mkEq
  mkUlt mkIte mkShl mkLshr mkRedor)
export SmtFactory (mkOr mkImplies mkNeg mkUdiv)

/-! ## Default operators -/

section Base

variable {β γ : Type} [SmtBase β γ] {g : γ} {e e₁ e₂ : β} {n : ℕ} {x x₁ x₂ : BitVec n}

def mkConst1 (b : Bool) : StateM γ β := mkConst (BitVec.ofBool b)

def mkFalse : StateM γ β := mkConst1 false

def mkTrue : StateM γ β := mkConst1 true

def mkMsb (e : β) : StateM γ β := do
  let g ← get
  match width g e with
  | 0 => mkFalse
  | n + 1 => mkExtract n n e

def mkUle (e₁ e₂ : β) : StateM γ β := do
  let t ← mkUlt e₂ e₁
  mkNot t

def mkAshr (e₁ e₂ : β) : StateM γ β := do
  let ne₁ ← mkNot e₁
  let t ← mkLshr ne₁ e₂
  let r₁ ← mkNot t
  let r₂ ← mkLshr e₁ e₂
  let msb₁ ← mkMsb e₁
  mkIte msb₁ r₁ r₂

namespace Default

def mkOr (e₁ e₂ : β) : StateM γ β := do
  let ne₁ ← mkNot e₁
  let ne₂ ← mkNot e₂
  let t ← mkAnd ne₁ ne₂
  mkNot t

def mkImplies (e₁ e₂ : β) : StateM γ β := do
  let ne₁ ← mkNot e₁
  mkOr e₂ ne₁

def mkNeg (e : β) : StateM γ β := do
  let g ← get
  let ne ← mkNot e
  let one ← mkConst (BitVec.ofNat (width g e) 1)
  mkAdd ne one

/-- The quotient is a fresh variable: only its value, which the solver does not
see, is the quotient. -/
def mkUdiv (e₁ e₂ : β) : StateM γ β := do
  let g ← get
  let l := SmtBase.denote γ e₁
  let r := SmtBase.denote γ e₂
  mkVar (n := width g e₁) <|
    if l.1 = width g e₁ ∧ l.1 = r.1
    then (l.2.setWidth (width g e₁)).smtUDiv (r.2.setWidth (width g e₁)) else 0

end Default

open SmtBase (sat_of_le)

theorem sat_of_toNat_eq {m : ℕ} {y : BitVec m} (hn : n = m) (hxy : x.toNat = y.toNat)
    (h : sat g e x) : sat g e y := by
  subst hn
  rwa [BitVec.eq_of_toNat_eq hxy] at h

theorem builds_mkConst1 (g : γ) (b : Bool) :
    Builds (mkConst1 b) g fun g' e => sat g' e (BitVec.ofBool b) :=
  SmtBase.builds_mkConst g _

theorem builds_mkMsb (h : sat g e x) :
    Builds (mkMsb e) g fun g' e' => sat g' e' (BitVec.ofBool x.msb) := by
  refine .get ?_
  rw [SmtBase.width_sound h]
  cases n with
  | zero =>
      rw [BitVec.of_length_zero (x := x)]
      exact builds_mkConst1 g false
  | succ n =>
      refine (SmtBase.builds_mkExtract h (Nat.lt_succ_self n) (le_refl n)).mono fun g' e' _ he => ?_
      refine sat_of_toNat_eq (by simp) ?_ he
      have hlt : x.toNat / 2 ^ n < 2 := by
        rw [Nat.div_lt_iff_lt_mul (Nat.two_pow_pos n), ← Nat.pow_succ']
        exact x.isLt
      rw [BitVec.extractLsb_toNat, Nat.sub_self, Nat.shiftRight_eq_div_pow, Nat.zero_add,
        Nat.pow_one, Nat.mod_eq_of_lt hlt, BitVec.toNat_ofBool, BitVec.msb_eq_decide,
        Nat.add_sub_cancel]
      by_cases hmsb : 2 ^ n ≤ x.toNat
      · have hpos := Nat.div_pos hmsb (Nat.two_pow_pos n)
        rw [decide_eq_true hmsb, Bool.toNat_true]
        omega
      · rw [decide_eq_false hmsb, Bool.toNat_false]
        exact Nat.div_eq_of_lt (Nat.lt_of_not_le hmsb)

theorem builds_mkUle (h₁ : sat g e₁ x₁) (h₂ : sat g e₂ x₂) :
    Builds (mkUle e₁ e₂) g fun g' e => sat g' e (BitVec.ofBool (x₁ ≤ x₂)) := by
  refine (SmtBase.builds_mkUlt h₂ h₁).bind fun _ t _ ht => ?_
  refine (SmtBase.builds_mkNot ht).mono fun g' e _ he => ?_
  rwa [BitVec.not_ofBool, ← decide_not, decide_eq_decide.2 BitVec.not_lt] at he

theorem builds_mkAshr {m : ℕ} {y : BitVec m} (h₁ : sat g e₁ x) (h₂ : sat g e₂ y) :
    Builds (mkAshr e₁ e₂) g fun g' e => sat g' e (x.sshiftRight y.toNat) := by
  refine (SmtBase.builds_mkNot h₁).bind fun g₁ ne₁ hle₁ hne => ?_
  refine (SmtBase.builds_mkLshr hne (sat_of_le hle₁ h₂)).bind fun g₂ t hle₂ ht => ?_
  refine (SmtBase.builds_mkNot ht).bind fun g₃ r₁ hle₃ hr₁ => ?_
  have hle := hle₁.trans (hle₂.trans hle₃)
  refine (SmtBase.builds_mkLshr (sat_of_le hle h₁) (sat_of_le hle h₂)).bind
    fun g₄ r₂ hle₄ hr₂ => ?_
  refine (builds_mkMsb (sat_of_le (hle.trans hle₄) h₁)).bind fun g₅ msb₁ hle₅ hmsb => ?_
  refine (SmtBase.builds_mkIte hmsb (sat_of_le (hle₄.trans hle₅) hr₁)
    (sat_of_le hle₅ hr₂)).mono fun g₆ e _ he => ?_
  have hvalue : (bif x.msb then ~~~(~~~x >>> y) else x >>> y) = x.sshiftRight y.toNat := by
    cases hx : x.msb with
    | true =>
        rw [BitVec.sshiftRight_eq_of_msb_true hx]
        rfl
    | false =>
        rw [BitVec.sshiftRight_eq_of_msb_false hx]
        rfl
  rwa [hvalue] at he

namespace Default

theorem builds_mkOr (h₁ : sat g e₁ x₁) (h₂ : sat g e₂ x₂) :
    Builds (Default.mkOr e₁ e₂) g fun g' e => sat g' e (x₁ ||| x₂) := by
  refine (SmtBase.builds_mkNot h₁).bind fun g₁ ne₁ hle₁ hne₁ => ?_
  refine (SmtBase.builds_mkNot (sat_of_le hle₁ h₂)).bind fun g₂ ne₂ hle₂ hne₂ => ?_
  refine (SmtBase.builds_mkAnd (sat_of_le hle₂ hne₁) hne₂).bind fun g₃ t _ ht => ?_
  refine (SmtBase.builds_mkNot ht).mono fun g₄ e _ he => ?_
  rwa [BitVec.not_and, BitVec.not_not, BitVec.not_not] at he

theorem builds_mkImplies {b₁ b₂ : Bool} (h₁ : sat g e₁ (BitVec.ofBool b₁))
    (h₂ : sat g e₂ (BitVec.ofBool b₂)) :
    Builds (Default.mkImplies e₁ e₂) g fun g' e => sat g' e (BitVec.ofBool (!b₁ || b₂)) := by
  refine (SmtBase.builds_mkNot h₁).bind fun g₁ ne₁ hle₁ hne₁ => ?_
  refine (Default.builds_mkOr (sat_of_le hle₁ h₂) hne₁).mono fun g₂ e _ he => ?_
  rwa [BitVec.not_ofBool, BitVec.ofBool_or_ofBool, Bool.or_comm] at he

theorem builds_mkNeg (h : sat g e x) : Builds (Default.mkNeg e) g fun g' e' => sat g' e' (-x) := by
  refine .get ((SmtBase.builds_mkNot h).bind fun g₁ ne _ hne => ?_)
  rw [SmtBase.width_sound h]
  refine (SmtBase.builds_mkConst g₁ (BitVec.ofNat n 1)).bind fun g₂ one hle₂ hone => ?_
  refine (SmtBase.builds_mkAdd (sat_of_le hle₂ hne) hone).mono fun g₃ e' _ he' => ?_
  rwa [← BitVec.neg_eq_not_add] at he'

theorem builds_mkUdiv (h₁ : sat g e₁ x₁) (h₂ : sat g e₂ x₂) :
    Builds (Default.mkUdiv e₁ e₂) g fun g' e => sat g' e (x₁.smtUDiv x₂) := by
  refine .get ?_
  rw [SmtBase.width_sound h₁, SmtBase.denote_sound h₁, SmtBase.denote_sound h₂]
  dsimp only
  rw [if_pos ⟨rfl, rfl⟩, BitVec.setWidth_eq, BitVec.setWidth_eq]
  exact SmtBase.builds_mkVar g _

end Default

end Base

section Factory

open SmtBase (sat_of_le)

variable {β γ : Type} [SmtFactory β γ] {g : γ} {e₁ e₂ : β} {n : ℕ} {x₁ x₂ : BitVec n}

def mkSlt (e₁ e₂ : β) : StateM γ β := do
  let ult ← mkUlt e₁ e₂
  let msbV₁ ← mkMsb e₁
  let msbV₂ ← mkMsb e₂
  let msbMatch ← mkEq msbV₁ msbV₂
  let msbMatchUlt ← mkAnd msbMatch ult
  let nMsbV₂ ← mkNot msbV₂
  let msbLt ← mkAnd msbV₁ nMsbV₂
  mkOr msbLt msbMatchUlt

def mkSle (e₁ e₂ : β) : StateM γ β := do
  let t ← mkSlt e₂ e₁
  mkNot t

/-- Signed comparison by the signs, then by the unsigned values. -/
theorem slt_eq_msb (x y : BitVec n) : x.slt y = (x.msb && !y.msb ||
    (decide (BitVec.ofBool x.msb = BitVec.ofBool y.msb) && decide (x < y))) := by
  have hult : x.ult y = decide (x < y) := rfl
  have hx := x.msb_eq_decide
  have hy := y.msb_eq_decide
  rw [BitVec.slt_eq_ult, hult]
  -- where the signs differ the unsigned order is the other way around
  cases hsx : x.msb <;> cases hsy : y.msb <;> simp [BitVec.lt_def]
  · rw [hsx, eq_comm, decide_eq_false_iff_not] at hx
    rw [hsy, eq_comm, decide_eq_true_eq] at hy
    omega
  · rw [hsx, eq_comm, decide_eq_true_eq] at hx
    rw [hsy, eq_comm, decide_eq_false_iff_not] at hy
    omega

theorem builds_mkSlt (h₁ : sat g e₁ x₁) (h₂ : sat g e₂ x₂) :
    Builds (mkSlt e₁ e₂) g fun g' e => sat g' e (BitVec.ofBool (x₁.slt x₂)) := by
  refine (SmtBase.builds_mkUlt h₁ h₂).bind fun g₁ ult hle₁ hult => ?_
  refine (builds_mkMsb (sat_of_le hle₁ h₁)).bind fun g₂ msb₁ hle₂ hmsb₁ => ?_
  refine (builds_mkMsb (sat_of_le (hle₁.trans hle₂) h₂)).bind fun g₃ msb₂ hle₃ hmsb₂ => ?_
  have hmsb₁ := sat_of_le hle₃ hmsb₁
  refine (SmtBase.builds_mkEq hmsb₁ hmsb₂).bind fun g₄ same hle₄ hsame => ?_
  have hult := sat_of_le (hle₂.trans (hle₃.trans hle₄)) hult
  refine (SmtBase.builds_mkAnd hsame hult).bind fun g₅ sameUlt hle₅ hsameUlt => ?_
  refine (SmtBase.builds_mkNot (sat_of_le (hle₄.trans hle₅) hmsb₂)).bind
    fun g₆ nmsb₂ hle₆ hnmsb₂ => ?_
  have hmsb₁ := sat_of_le (hle₄.trans (hle₅.trans hle₆)) hmsb₁
  refine (SmtBase.builds_mkAnd hmsb₁ hnmsb₂).bind fun g₇ msbLt hle₇ hmsbLt => ?_
  refine (SmtFactory.builds_mkOr hmsbLt (sat_of_le (hle₆.trans hle₇) hsameUlt)).mono
    fun g₈ e _ he => ?_
  rw [BitVec.not_ofBool, BitVec.ofBool_and_ofBool, BitVec.ofBool_and_ofBool,
    BitVec.ofBool_or_ofBool] at he
  rwa [slt_eq_msb]

theorem builds_mkSle (h₁ : sat g e₁ x₁) (h₂ : sat g e₂ x₂) :
    Builds (mkSle e₁ e₂) g fun g' e => sat g' e (BitVec.ofBool (x₁.sle x₂)) := by
  refine (builds_mkSlt h₂ h₁).bind fun _ t _ ht => ?_
  refine (SmtBase.builds_mkNot ht).mono fun g' e _ he => ?_
  rwa [BitVec.not_ofBool, ← BitVec.sle_eq_not_slt] at he

end Factory

end Exoverifier.Smt

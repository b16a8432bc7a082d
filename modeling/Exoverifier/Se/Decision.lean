import Exoverifier.Aig.Erasure
import Exoverifier.Bpf.Decode
import Exoverifier.Se.Erasure
import Exoverifier.Se.Soundness

/-! # Deciding safety

The decision procedure of `bpf/decision.lean` with the specification of
`bpf/spec.lean`. The bits of a program are decoded, the condition of the symbolic
evaluator is turned into a formula, and a proof that refutes it is checked. Since
erased values have no say, one run of the procedure decides for every oracle.
-/

namespace Exoverifier.Bpf

open Cfg Library Se Smt UnorderedMap
open Flat (decode decodeFromFlat)

/-! ## Specification -/

def BinarySafeWithOracle (o : Oracle) (b : List Bool) : Prop :=
  ∃ p : TrieProgram, (decode b).map decodeFromFlat = some p ∧ Cfg.SafeWithOracle p o

/-- A program is safe when its bits decode to a graph that is safe under every oracle. -/
def BinarySafe (b : List Bool) : Prop := ∀ o, BinarySafeWithOracle o b

namespace Decision

/-! ## Procedures -/

section Decide

variable {χ η β γ ω : Type} [UnorderedMap η (Instr η) χ] [DecidableEq η] [SmtFactory β γ]
variable (decider : γ → β → {n : ℕ} → BitVec n → ω → Bool)

def decideSafeWithRegsViaReduceToSmt (fuel : ℕ) (p : CFG χ η) (o : Oracle) (w : ω) : Bool :=
  let r := (vcgen p fuel o : StateM γ β).run SmtBase.initF
  decider r.2 r.1 (BitVec.ofBool true) w

/-- Decide the safety of a binary program. -/
def decideBinarySafetyViaReduceToSmt (fuel : ℕ) (o : Oracle) (b : List Bool) (w : ω) : Bool :=
  match (decode b).map decodeFromFlat with
  | none => false
  | some p => decideSafeWithRegsViaReduceToSmt decider fuel p o w

/-- A decider that does not see erased values. -/
def Blind [Smt.Erasure β γ] : Prop :=
  ∀ {g g' : γ} {e e' : β}, Smt.Erasure.Same g g' → Smt.Erasure.SameExpr γ e e' →
    ∀ {n : ℕ} (x : BitVec n) (w : ω), decider g e x w = decider g' e' x w

variable {decider} {fuel : ℕ} {p : CFG χ η} {o : Oracle} {w : ω}

/-- What is accepted exits within the steps that the evaluator walked. -/
theorem exitsWithin_of_decide (hdecider : DecidesSmt decider)
    (h : decideSafeWithRegsViaReduceToSmt decider fuel p o w = true) :
    supported p fuel p.entry = true ∧ ExitsWithin p o fuel (initialState p) := by
  obtain ⟨v, hv, hiff⟩ := (builds_vcgen p fuel o (SmtBase.initF : γ)).2
  have hvalue := hdecider _ _ _ w h _ hv
  cases v with
  | true => exact hiff.1 rfl
  | false => exact absurd hvalue (by decide)

/-- Two oracles give the same verdict. -/
theorem decide_oracle [Smt.Erasure β γ] (hblind : Blind decider) (o' : Oracle) :
    decideSafeWithRegsViaReduceToSmt decider fuel p o w =
      decideSafeWithRegsViaReduceToSmt decider fuel p o' w := by
  have hrun := (alike_vcgen (γ := γ) p fuel o o').run Smt.Erasure.same_initF
  exact hblind hrun.1 hrun.2 _ w

end Decide

/-! ## The default procedure -/

namespace Default

/-- Bit vectors over graphs, with checked proofs. -/
def decideSmt : Aig.Factory.TrieFactory → List (Aig.BRef PosNum) → {n : ℕ} → BitVec n →
    List Sat.DefaultAction → Bool :=
  decideViaReduceToSat Aig.decideViaToCnf

def decideBinarySafetyViaReduceToSmt (fuel : ℕ) (o : Oracle) (b : List Bool)
    (w : List Sat.DefaultAction) : Bool :=
  Decision.decideBinarySafetyViaReduceToSmt decideSmt fuel o b w

end Default

theorem decidesSmt_decideSmt : DecidesSmt Default.decideSmt :=
  decidesSmt_decideViaReduceToSat Aig.decidesSat_decideViaToCnf

theorem blind_decideSmt : Blind Default.decideSmt := by
  intro g g' e e' hg he n x w
  cases he with
  | nil => rfl
  | cons hb he =>
      cases he with
      | nil =>
          unfold Default.decideSmt decideViaReduceToSat
          dsimp only
          rw [Aig.decideViaToCnf_same hg hb]
      | cons _ _ => rfl

variable {fuel : ℕ} {o : Oracle} {b : List Bool} {w : List Sat.DefaultAction}

/-- One accepted run decides for every oracle: the program exits within the given
number of steps. -/
theorem exitsWithin_of_decideBinarySafety
    (h : Default.decideBinarySafetyViaReduceToSmt fuel o b w = true) :
    ∃ l, decode b = some l ∧ ∀ o', ExitsWithin (decodeFromFlat l) o' fuel
      (initialState (decodeFromFlat l)) := by
  unfold Default.decideBinarySafetyViaReduceToSmt decideBinarySafetyViaReduceToSmt at h
  split at h
  · cases h
  · rename_i p hp
    obtain ⟨l, hl, rfl⟩ := Option.map_eq_some_iff.1 hp
    refine ⟨l, hl, fun o' => ?_⟩
    rw [decide_oracle blind_decideSmt o'] at h
    exact (exitsWithin_of_decide decidesSmt_decideSmt h).2

/-- No oracle changes the verdict on a program. -/
theorem decideBinarySafety_oracle (fuel : ℕ) (o o' : Oracle) (b : List Bool)
    (w : List Sat.DefaultAction) : Default.decideBinarySafetyViaReduceToSmt fuel o b w =
      Default.decideBinarySafetyViaReduceToSmt fuel o' b w := by
  unfold Default.decideBinarySafetyViaReduceToSmt decideBinarySafetyViaReduceToSmt
  split
  · rfl
  · exact decide_oracle blind_decideSmt o'

/-- An accepted program is safe under every oracle, in the graph and, when only its
last instruction may be a wide load, by slots as well. -/
theorem binarySafe_of_decideBinarySafety
    (h : Default.decideBinarySafetyViaReduceToSmt fuel o b w = true) :
    BinarySafe b ∧
      ∀ l, decode b = some l → Flat.Narrow l → ∀ o', Flat.SafeWithOracle l o' := by
  obtain ⟨l, hl, hexits⟩ := exitsWithin_of_decideBinarySafety h
  have hsafe : ∀ o', Cfg.SafeWithOracle (decodeFromFlat l) o' := fun o' => (hexits o').safe
  constructor
  · intro o'
    refine ⟨decodeFromFlat l, ?_, hsafe o'⟩
    rw [hl]
    rfl
  · intro l' hl' hnarrow o'
    rw [hl, Option.some_inj] at hl'
    subst hl'
    exact Flat.safeWithOracle_of_graph hnarrow (hsafe o')

/-- A random number and two branches on its bits. The first one decides the second,
so the register that is not initialized is never read. -/
def branchOnBits : List Flat.Instr :=
  [.call .getPrandomU32,
    .jmp64K .jset .r0 ⟨List.replicate 30 false ++ [true, false], rfl⟩ Flat.overOne, .exit,
    .jmp64K .jset .r0 ⟨List.replicate 29 false ++ [true, true, true], rfl⟩ Flat.overOne,
    .alu64K .add .r1 (Flat.zeros 32), .exit]

theorem binarySafe_branchOnBits : BinarySafe (branchOnBits.flatMap Flat.encode) ∧
    ∀ l, decode (branchOnBits.flatMap Flat.encode) = some l → Flat.Narrow l →
      ∀ o', Flat.SafeWithOracle l o' := by
  have h : Default.decideBinarySafetyViaReduceToSmt 6 ⟨fun _ => 0⟩
      (branchOnBits.flatMap Flat.encode) [.rup 14 .nil [13, 12, 9, 5, 11]] = true := by
    decide +kernel
  exact binarySafe_of_decideBinarySafety h

/-- The bound on wide loads is needed: the graph of the detour is safe and accepted. -/
theorem accepted_detour (o : Oracle) : Default.decideBinarySafetyViaReduceToSmt 3 ⟨fun _ => 0⟩
    (Flat.detour.flatMap Flat.encode) [] = true ∧ ¬ Flat.SafeWithOracle Flat.detour o :=
  ⟨by decide +kernel, (Flat.safe_decodeFromFlat_detour o).2⟩

end Decision

end Exoverifier.Bpf

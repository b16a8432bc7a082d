import Exoverifier.Bpf.Basic
import Exoverifier.Data.Trie

/-! # Control-flow graphs of BPF programs

The representation of programs in `bpf/cfg.lean`: a map from labels to
instructions that name the labels of their successors, with a step relation over
register states. A program is safe when no run under any oracle gets stuck.
-/

namespace Exoverifier.Bpf.Cfg

open UnorderedMap

/-! ## Programs -/

inductive Instr (α : Type) where
  | alu64X (op : ALU) (dst src : Reg) (next : α)
  | alu64K (op : ALU) (dst : Reg) (imm : BitVec 64) (next : α)
  | alu32X (op : ALU) (dst src : Reg) (next : α)
  | alu32K (op : ALU) (dst : Reg) (imm : BitVec 32) (next : α)
  | jmp64X (op : JMP) (r₁ r₂ : Reg) (ifTrue ifFalse : α)
  | jmp64K (op : JMP) (r₁ : Reg) (imm : BitVec 64) (ifTrue ifFalse : α)
  | stx (size : Size) (dst src : Reg) (off : BitVec 64) (next : α)
  | ldImm (dst : Reg) (imm : BitVec 64) (next : α)
  | call (func : BpfFunc) (next : α)
  | exit
  deriving DecidableEq

structure CFG (χ α : Type) where
  entry : α
  code : χ

abbrev TrieProgram : Type := CFG (Trie (Instr PosNum)) PosNum

/-! ## Steps -/

structure RunState (α : Type) where
  pc : α
  regs : Reg → Value
  nextRng : ℕ

inductive State (α : Type) where
  | running (s : RunState α)
  | exited (ret : BitVec 64)

section Semantics

variable {α χ : Type} [UnorderedMap α (Instr α) χ] [DecidableEq α]

/-- 32-bit arithmetic, stores and wide immediates have no rule: they get stuck. -/
inductive Step (cfg : CFG χ α) (o : Oracle) : State α → State α → Prop where
  | alu64X (s : RunState α) {op : ALU} {dst src : Reg} {next : α}
      (fetch : lookup s.pc cfg.code = some (.alu64X op dst src next))
      (check : op.doALU64Check (s.regs dst) (s.regs src) = true) :
      Step cfg o (.running s) (.running { s with
        pc := next
        regs := Function.update s.regs dst (op.doALU64 (s.regs dst) (s.regs src)) })
  | alu64K (s : RunState α) {op : ALU} {dst : Reg} {imm : BitVec 64} {next : α}
      (fetch : lookup s.pc cfg.code = some (.alu64K op dst imm next))
      (check : op.doALU64Check (s.regs dst) (.scalar imm) = true) :
      Step cfg o (.running s) (.running { s with
        pc := next
        regs := Function.update s.regs dst (op.doALU64 (s.regs dst) (.scalar imm)) })
  | jmp64X (s : RunState α) {op : JMP} {r₁ r₂ : Reg} {ifTrue ifFalse : α}
      (fetch : lookup s.pc cfg.code = some (.jmp64X op r₁ r₂ ifTrue ifFalse))
      (check : op.doJMP64Check (s.regs r₁) (s.regs r₂) = true) :
      Step cfg o (.running s) (.running { s with
        pc := if op.doJMP64 (s.regs r₁) (s.regs r₂) then ifTrue else ifFalse })
  | jmp64K (s : RunState α) {op : JMP} {r₁ : Reg} {imm : BitVec 64} {ifTrue ifFalse : α}
      (fetch : lookup s.pc cfg.code = some (.jmp64K op r₁ imm ifTrue ifFalse))
      (check : op.doJMP64Check (s.regs r₁) (.scalar imm) = true) :
      Step cfg o (.running s) (.running { s with
        pc := if op.doJMP64 (s.regs r₁) (.scalar imm) then ifTrue else ifFalse })
  | call (s : RunState α) {func : BpfFunc} {next : α}
      (fetch : lookup s.pc cfg.code = some (.call func next))
      (check : func.doCallCheck s.regs = true) :
      Step cfg o (.running s) (.running {
        pc := next
        regs := func.doCall o s.nextRng s.regs
        nextRng := s.nextRng + 1 })
  | exit (s : RunState α) {ret : BitVec 64}
      (fetch : lookup s.pc cfg.code = some .exit)
      (result : s.regs .r0 = .scalar ret) :
      Step cfg o (.running s) (.exited ret)

/-- The program is a function of the oracle. -/
theorem Step.deterministic {cfg : CFG χ α} {o : Oracle} {s s₁ s₂ : State α}
    (h₁ : Step cfg o s s₁) (h₂ : Step cfg o s s₂) : s₁ = s₂ := by
  cases h₁ <;> cases h₂ <;> simp_all

def initialState (cfg : CFG χ α) : State α :=
  .running { pc := cfg.entry, regs := fun _ => .uninitialized, nextRng := 0 }

def Star (cfg : CFG χ α) (o : Oracle) : State α → State α → Prop :=
  Relation.ReflTransGen (Step cfg o)

/-- A state is safe when it can take a step or has exited. -/
def SafeState (cfg : CFG χ α) (o : Oracle) (s : State α) : Prop :=
  (∃ s', Step cfg o s s') ∨ ∃ r, s = .exited r

def SafeFromState (cfg : CFG χ α) (o : Oracle) (s : State α) : Prop :=
  ∀ s', Star cfg o s s' → SafeState cfg o s'

def SafeWithOracle (cfg : CFG χ α) (o : Oracle) : Prop :=
  SafeFromState cfg o (initialState cfg)

def Safe (cfg : CFG χ α) : Prop := ∀ o, SafeWithOracle cfg o

/-! ## Safety of runs -/

theorem safeFromState_exited {cfg : CFG χ α} {o : Oracle} {r : BitVec 64} :
    SafeFromState cfg o (.exited r) := by
  intro s' hstar
  cases hstar.cases_head with
  | inl h => exact .inr ⟨r, h.symm⟩
  | inr h =>
      obtain ⟨t, hstep, -⟩ := h
      cases hstep

/-- A state is safe from the state that follows it. -/
theorem safeFromState_of_step {cfg : CFG χ α} {o : Oracle} {s t : State α}
    (hstep : Step cfg o s t) (h : SafeFromState cfg o t) : SafeFromState cfg o s := by
  intro s' hstar
  cases hstar.cases_head with
  | inl he => exact .inl ⟨t, he ▸ hstep⟩
  | inr hhead =>
      obtain ⟨t', hstep', hstar'⟩ := hhead
      exact h s' (hstep.deterministic hstep' ▸ hstar')

/-- Safety by an invariant: it holds at the start, every step keeps it, and it
makes a state safe. -/
theorem safeFromState_of_invariant {cfg : CFG χ α} {o : Oracle} {s : State α}
    (I : State α → Prop) (hinit : I s) (hstep : ∀ t t', I t → Step cfg o t t' → I t')
    (hsafe : ∀ t, I t → SafeState cfg o t) : SafeFromState cfg o s := by
  intro s' hstar
  refine hsafe s' ?_
  induction hstar with
  | refl => exact hinit
  | tail _ h ih => exact hstep _ _ ih h

end Semantics

end Exoverifier.Bpf.Cfg

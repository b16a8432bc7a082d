import Exoverifier.Absint.Regs
import Exoverifier.Bpf.Cfg

/-! # Abstract interpretation of BPF programs

The constraints and safety predicates of `bpf/absint/basic.lean`. A map from
labels to abstract register files that satisfies the constraints covers every
reachable state, so a program whose safety predicates hold there is safe.
-/

namespace Exoverifier

open UnorderedMap

/-- Maps that work for every type of values. -/
class GenericMap (α : outParam Type) (map : Type → Type) where
  toMap : ∀ {β : Type}, UnorderedMap α β (map β)
  insertWith [DecidableEq α] : ∀ {β : Type}, (β → β → β) → α → β → map β → map β

/-- What inserting with a combining function does to lookups. -/
class LawfulGenericMap (α : outParam Type) (map : Type → Type) [GenericMap α map] : Prop where
  lookup_empty [DecidableEq α] : ∀ {β : Type} (k : α),
    GenericMap.toMap.lookup k (GenericMap.toMap.empty : map β) = none
  lookup_insertWith [DecidableEq α] : ∀ {β : Type} (f : β → β → β) (k k' : α) (b : β) (m : map β),
    GenericMap.toMap.lookup k' (GenericMap.insertWith f k b m) =
      if k' = k then some ((GenericMap.toMap.lookup k m).elim b (f b))
      else GenericMap.toMap.lookup k' m

instance : GenericMap PosNum Trie where
  toMap := inferInstance
  insertWith := Trie.insertWith

instance : LawfulGenericMap PosNum Trie where
  lookup_empty := Trie.lookup_nil
  lookup_insertWith f k k' b m := (Trie.lookup_insertWith f k k' b m).trans (by congr)

namespace Absint

open Bpf Bpf.Cfg Domain

attribute [reducible] GenericMap.toMap
attribute [local instance] GenericMap.toMap

variable {CTRL REGS : Type} [RegsAbstr REGS] [DecidableEq CTRL] {map : Type → Type}
  [GenericMap CTRL map]

abbrev Pgrm (CTRL : Type) (map : Type → Type) [GenericMap CTRL map] : Type :=
  CFG (map (Instr CTRL)) CTRL

/-- The abstract state at a label that the map leaves out is bottom. -/
def interpret (s : map (WithBot REGS)) (i : CTRL) : WithBot REGS := (lookup i s).getD ⊥

/-- A constraint computes a state for its target from the state of its source. -/
structure Constraint (CTRL REGS : Type) where
  target : CTRL
  source : CTRL
  compute : WithBot REGS → WithBot REGS

/-! ## Constraints -/

def genOneConstraint (current : CTRL) : Instr CTRL → List (Constraint CTRL REGS)
  | .alu64X op dst src next =>
      [{ target := next
         source := current
         compute := (WithBot.liftUnaryRelation (RegsAbstr.doAlu64 op dst src)).op }]
  | .alu64K op dst imm next =>
      [{ target := next
         source := current
         compute := (WithBot.liftUnaryRelation (RegsAbstr.doAlu64Imm op dst imm)).op }]
  | .jmp64X op dst src ifTrue ifFalse =>
      [{ target := ifTrue
         source := current
         compute := (WithBot.liftArgUnaryInversion (RegsAbstr.invertJmp64Tt op dst src)).inv },
       { target := ifFalse
         source := current
         compute := id }]
  | .jmp64K _ _ _ ifTrue ifFalse =>
      [{ target := ifTrue
         source := current
         compute := id },
       { target := ifFalse
         source := current
         compute := id }]
  | .call func next =>
      [{ target := next
         source := current
         compute := (WithBot.liftUnaryRelation (RegsAbstr.doCall func)).op }]
  | _ => []

/-- The constraint of the entry says that all registers start uninitialized. -/
def genConstraints (p : Pgrm CTRL map) : List (Constraint CTRL REGS) :=
  { target := p.entry
    source := p.entry
    compute := fun _ => (WithBot.liftNullaryRelation
      (RegsAbstr.const fun _ : Reg => Value.uninitialized)).op } ::
  (toList p.code).flatMap fun i => genOneConstraint i.1 i.2

def ConstraintHolds (l : Constraint CTRL REGS) (s : map (WithBot REGS)) : Prop :=
  AbstrLe.le (l.compute (interpret s l.source)) (interpret s l.target)

instance (l : Constraint CTRL REGS) (s : map (WithBot REGS)) : Decidable (ConstraintHolds l s) :=
  inferInstanceAs (Decidable (AbstrLe.le _ _))

def Approximates (p : Pgrm CTRL map) (s : map (WithBot REGS)) : Prop :=
  ∀ c ∈ (genConstraints p : List (Constraint CTRL REGS)), ConstraintHolds c s

instance (p : Pgrm CTRL map) (s : map (WithBot REGS)) : Decidable (Approximates p s) :=
  inferInstanceAs (Decidable (∀ c ∈ genConstraints p, ConstraintHolds c s))

/-! ## Safety predicates -/

/-- The successors exist and the operands are allowed. Instructions without a
rule are never safe. -/
def genOneSafety (p : Pgrm CTRL map) : Instr CTRL → WithBot REGS → Bool
  | .alu64X op dst src next, mem =>
      (lookup next p.code).isSome &&
        (WithBot.liftUnaryTest (RegsAbstr.doAlu64Check op dst src)).test mem
  | .alu64K op dst imm next, mem =>
      (lookup next p.code).isSome &&
        (WithBot.liftUnaryTest (RegsAbstr.doAlu64ImmCheck op dst imm)).test mem
  | .alu32X _ _ _ next, _ => (lookup next p.code).isSome && false
  | .alu32K _ _ _ next, _ => (lookup next p.code).isSome && false
  | .jmp64X op dst src ifTrue ifFalse, mem =>
      (lookup ifTrue p.code).isSome && ((lookup ifFalse p.code).isSome &&
        (WithBot.liftUnaryTest (RegsAbstr.doJmp64Check op dst src)).test mem)
  | .jmp64K op dst imm ifTrue ifFalse, mem =>
      (lookup ifTrue p.code).isSome && ((lookup ifFalse p.code).isSome &&
        (WithBot.liftUnaryTest (RegsAbstr.doJmp64ImmCheck op dst imm)).test mem)
  | .ldImm _ _ next, _ => (lookup next p.code).isSome && false
  | .stx _ _ _ _ next, _ => (lookup next p.code).isSome && false
  | .call func next, mem =>
      (lookup next p.code).isSome &&
        (WithBot.liftUnaryTest (RegsAbstr.doCallCheck func)).test mem
  | .exit, mem => (WithBot.liftUnaryTest (RegsAbstr.isScalar Reg.r0)).test mem

def genSafety (p : Pgrm CTRL map) : List (CTRL × (WithBot REGS → Bool)) :=
  (p.entry, fun _ => (lookup p.entry p.code).isSome) ::
    (toList p.code).map fun i => (i.1, genOneSafety p i.2)

def Secure (p : Pgrm CTRL map) (s : map (WithBot REGS)) : Prop :=
  ∀ x ∈ (genSafety p : List (CTRL × (WithBot REGS → Bool))), x.2 (interpret s x.1) = true

instance (p : Pgrm CTRL map) (s : map (WithBot REGS)) : Decidable (Secure p s) :=
  inferInstanceAs (Decidable (∀ x ∈ genSafety p, x.2 (interpret s x.1) = true))

/-! ## The constraints cover every run -/

section Soundness

variable {p : Pgrm CTRL map} {s : map (WithBot REGS)}

theorem mem_genConstraints {pc : CTRL} {i : Instr CTRL} {c : Constraint CTRL REGS}
    (fetch : lookup pc p.code = some i) (hc : c ∈ genOneConstraint pc i) :
    c ∈ genConstraints p :=
  List.mem_cons_of_mem _ (List.mem_flatMap.2 ⟨⟨pc, i⟩, (mem_lookup_iff pc i p.code).1 fetch, hc⟩)

theorem mem_genSafety {pc : CTRL} {i : Instr CTRL} (fetch : lookup pc p.code = some i) :
    (pc, genOneSafety p i) ∈ (genSafety p : List (CTRL × (WithBot REGS → Bool))) :=
  List.mem_cons_of_mem _ (List.mem_map.2 ⟨⟨pc, i⟩, (mem_lookup_iff pc i p.code).1 fetch, rfl⟩)

/-- A constraint that holds covers what it computes from a covered state. -/
theorem Approximates.covers (h : Approximates p s) {pc : CTRL} {i : Instr CTRL}
    (fetch : lookup pc p.code = some i) {c : Constraint CTRL REGS}
    (hc : c ∈ genOneConstraint pc i) {regs : Reg → Value}
    (hregs : regs ∈ HasGamma.γ (c.compute (interpret s c.source))) :
    regs ∈ HasGamma.γ (interpret s c.target) :=
  AbstrLe.le_correct (h c (mem_genConstraints fetch hc)) hregs

theorem Approximates.init (h : Approximates p s) :
    (fun _ => Value.uninitialized : Reg → Value) ∈ HasGamma.γ (interpret s p.entry) :=
  AbstrLe.le_correct (h _ List.mem_cons_self)
    ((WithBot.liftNullaryRelation (RegsAbstr.const _)).correct rfl)

theorem Approximates.step (h : Approximates p s) {o : Oracle} {c c' : RunState CTRL}
    (hc : c.regs ∈ HasGamma.γ (interpret s c.pc))
    (hstep : Step p o (.running c) (.running c')) :
    c'.regs ∈ HasGamma.γ (interpret s c'.pc) := by
  cases hstep with
  | @alu64X _ op dst src next fetch check =>
      exact h.covers fetch List.mem_cons_self
        ((WithBot.liftUnaryRelation (RegsAbstr.doAlu64 op dst src)).correct hc rfl)
  | @alu64K _ op dst imm next fetch check =>
      exact h.covers fetch List.mem_cons_self
        ((WithBot.liftUnaryRelation (RegsAbstr.doAlu64Imm op dst imm)).correct hc rfl)
  | @jmp64X _ op r₁ r₂ ifTrue ifFalse fetch check =>
      by_cases hcond : op.doJMP64 (c.regs r₁) (c.regs r₂) = true
      · simp only [hcond]
        exact h.covers fetch List.mem_cons_self
          ((WithBot.liftArgUnaryInversion (RegsAbstr.invertJmp64Tt op r₁ r₂)).correct hc hcond)
      · simp only [hcond]
        exact h.covers fetch (List.mem_cons_of_mem _ List.mem_cons_self) hc
  | @jmp64K _ op r₁ imm ifTrue ifFalse fetch check =>
      by_cases hcond : op.doJMP64 (c.regs r₁) (.scalar imm) = true
      · simp only [hcond]
        exact h.covers fetch List.mem_cons_self hc
      · simp only [hcond]
        exact h.covers fetch (List.mem_cons_of_mem _ List.mem_cons_self) hc
  | @call _ func next fetch check =>
      exact h.covers fetch List.mem_cons_self
        ((WithBot.liftUnaryRelation (RegsAbstr.doCall func)).correct hc ⟨o, c.nextRng, rfl⟩)

/-- Every reachable register file belongs to the abstract state at its label. -/
theorem Approximates.reachable (h : Approximates p s) {o : Oracle} {c : RunState CTRL}
    (hstar : Star p o (initialState p) (.running c)) :
    c.regs ∈ HasGamma.γ (interpret s c.pc) := by
  generalize ht : State.running c = t at hstar
  induction hstar generalizing c with
  | refl =>
      cases ht
      exact h.init
  | @tail u t hstar hstep ih =>
      subst ht
      cases u with
      | exited r => cases hstep
      | running c₀ => exact h.step (ih rfl) hstep

/-! ## Secure programs are safe -/

/-- A secure program never leaves its code. -/
theorem Secure.step (h : Secure p s) {o : Oracle} {c c' : RunState CTRL}
    (hstep : Step p o (.running c) (.running c')) : (lookup c'.pc p.code).isSome = true := by
  cases hstep with
  | alu64X _ fetch check => exact (Bool.and_eq_true_iff.1 (h _ (mem_genSafety fetch))).1
  | alu64K _ fetch check => exact (Bool.and_eq_true_iff.1 (h _ (mem_genSafety fetch))).1
  | jmp64X _ fetch check =>
      have hsafe := Bool.and_eq_true_iff.1 (h _ (mem_genSafety fetch))
      dsimp only
      split
      · exact hsafe.1
      · exact (Bool.and_eq_true_iff.1 hsafe.2).1
  | jmp64K _ fetch check =>
      have hsafe := Bool.and_eq_true_iff.1 (h _ (mem_genSafety fetch))
      dsimp only
      split
      · exact hsafe.1
      · exact (Bool.and_eq_true_iff.1 hsafe.2).1
  | call _ fetch check => exact (Bool.and_eq_true_iff.1 (h _ (mem_genSafety fetch))).1

/-- A covered state at an instruction whose predicate holds can take a step. -/
theorem exists_step_of_safety {o : Oracle} {c : RunState CTRL} {i : Instr CTRL}
    (hsafe : genOneSafety p i (interpret s c.pc) = true) (fetch : lookup c.pc p.code = some i)
    (hc : c.regs ∈ HasGamma.γ (interpret s c.pc)) : ∃ t, Step p o (.running c) t := by
  cases i with
  | alu64X op dst src next =>
      have hcheck := (Bool.and_eq_true_iff.1 hsafe).2
      have htest := (WithBot.liftUnaryTest (RegsAbstr.doAlu64Check op dst src)).test_sound hcheck hc
      exact ⟨_, .alu64X c fetch htest⟩
  | alu64K op dst imm next =>
      have hcheck := (Bool.and_eq_true_iff.1 hsafe).2
      have htest := (WithBot.liftUnaryTest (RegsAbstr.doAlu64ImmCheck op dst imm)).test_sound hcheck hc
      exact ⟨_, .alu64K c fetch htest⟩
  | jmp64X op r₁ r₂ ifTrue ifFalse =>
      have hcheck := (Bool.and_eq_true_iff.1 (Bool.and_eq_true_iff.1 hsafe).2).2
      have htest := (WithBot.liftUnaryTest (RegsAbstr.doJmp64Check op r₁ r₂)).test_sound hcheck hc
      exact ⟨_, .jmp64X c fetch htest⟩
  | jmp64K op r₁ imm ifTrue ifFalse =>
      have hcheck := (Bool.and_eq_true_iff.1 (Bool.and_eq_true_iff.1 hsafe).2).2
      have htest := (WithBot.liftUnaryTest (RegsAbstr.doJmp64ImmCheck op r₁ imm)).test_sound hcheck hc
      exact ⟨_, .jmp64K c fetch htest⟩
  | call func next =>
      have hcheck := (Bool.and_eq_true_iff.1 hsafe).2
      have htest := (WithBot.liftUnaryTest (RegsAbstr.doCallCheck func)).test_sound hcheck hc
      exact ⟨_, .call c fetch htest⟩
  | exit =>
      obtain ⟨ret, hret⟩ := (WithBot.liftUnaryTest (RegsAbstr.isScalar Reg.r0)).test_sound hsafe hc
      exact ⟨_, .exit c fetch hret⟩
  | alu32X op dst src next => simp [genOneSafety] at hsafe
  | alu32K op dst imm next => simp [genOneSafety] at hsafe
  | stx size dst src off next => simp [genOneSafety] at hsafe
  | ldImm dst imm next => simp [genOneSafety] at hsafe

/-- The invariant of a run: the state is covered and lies at an instruction. -/
def Covered (p : Pgrm CTRL map) (s : map (WithBot REGS)) : State CTRL → Prop
  | .running c => c.regs ∈ HasGamma.γ (interpret s c.pc) ∧ (lookup c.pc p.code).isSome = true
  | .exited _ => True

theorem covered_init (ha : Approximates p s) (hs : Secure p s) : Covered p s (initialState p) :=
  ⟨ha.init, hs _ List.mem_cons_self⟩

theorem Covered.step (ha : Approximates p s) (hs : Secure p s) {o : Oracle} {t t' : State CTRL}
    (h : Covered p s t) (hstep : Step p o t t') : Covered p s t' := by
  cases t' with
  | exited r => trivial
  | running c' =>
      cases t with
      | exited r => cases hstep
      | running c => exact ⟨ha.step h.1 hstep, hs.step hstep⟩

theorem Covered.safeState (hs : Secure p s) {o : Oracle} {t : State CTRL} (h : Covered p s t) :
    SafeState p o t := by
  cases t with
  | exited r => exact .inr ⟨r, rfl⟩
  | running c =>
      obtain ⟨i, fetch⟩ := Option.isSome_iff_exists.1 h.2
      exact .inl (exists_step_of_safety (hs _ (mem_genSafety fetch)) fetch h.1)

/-- A solution of the constraints under which the safety predicates hold shows
that the program is safe, whatever the oracle. -/
theorem safe_of_approximates_secure (ha : Approximates p s) (hs : Secure p s) : Safe p :=
  fun _ => safeFromState_of_invariant (Covered p s) (covered_init ha hs)
    (fun _ _ h hstep => h.step ha hs hstep) fun _ h => h.safeState hs

end Soundness

end Absint

end Exoverifier

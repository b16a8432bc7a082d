import Exoverifier.Se.Basic

/-! # The verification condition

The condition that the symbolic evaluator builds is true exactly when the run of
the program exits within the number of steps and no path up to there has an
instruction that is not supported. Each step is proved for any correct evaluator
of the steps after it.
-/

namespace Exoverifier.Bpf.Se

open Cfg Library Smt UnorderedMap

/-! ## Symbolic states -/

section States

variable {η β γ : Type} [SmtFactory β γ]

/-- A symbolic state stands for a concrete state and gives its assertions and
assumptions their values. -/
structure Concretizes (g : γ) (abs : SymState β η) (asserts assumes : Bool) (s : RunState η) :
    Prop where
  asserts_ok : sat g abs.assertions (BitVec.ofBool asserts)
  assumes_ok : sat g abs.assumptions (BitVec.ofBool assumes)
  regs_ok : ∀ r : Reg, SymValue.Sat g (abs.regs.get r.toFin) (s.regs r)
  pc_ok : abs.current = s.pc
  nextRng_ok : abs.nextRng = s.nextRng

namespace Concretizes

variable {g g' : γ} {abs : SymState β η} {asserts assumes a : Bool} {s : RunState η}

theorem mono (hle : g ≤ g') (h : Concretizes g abs asserts assumes s) :
    Concretizes g' abs asserts assumes s where
  asserts_ok := SmtBase.sat_of_le hle h.asserts_ok
  assumes_ok := SmtBase.sat_of_le hle h.assumes_ok
  regs_ok r := (h.regs_ok r).mono hle
  pc_ok := h.pc_ok
  nextRng_ok := h.nextRng_ok

theorem jump (h : Concretizes g abs asserts assumes s) (pc : η) :
    Concretizes g { abs with current := pc } asserts assumes { s with pc := pc } where
  asserts_ok := h.asserts_ok
  assumes_ok := h.assumes_ok
  regs_ok := h.regs_ok
  pc_ok := rfl
  nextRng_ok := h.nextRng_ok

/-- A register file that stands for the registers after one was written. -/
theorem sat_set {regs : List.Vector (SymValue β) nregs} {vals : Reg → Value} {x : SymValue β}
    {v : Value} (h : ∀ r : Reg, SymValue.Sat g (regs.get r.toFin) (vals r))
    (hx : SymValue.Sat g x v) (dst r : Reg) :
    SymValue.Sat g ((regs.set dst.toFin x).get r.toFin) (Function.update vals dst v r) := by
  rw [Reg.get_set, Function.update_apply]
  split
  · exact hx
  · exact h r

theorem builds_assert {c : β} (h : Concretizes g abs asserts assumes s)
    (hc : sat g c (BitVec.ofBool a)) : Builds (assert c abs) g fun g' abs' =>
      Concretizes g' abs' (asserts && (!assumes || a)) assumes s ∧ abs'.regs = abs.regs := by
  refine (SmtFactory.builds_mkImplies h.assumes_ok hc).bind fun g₁ c' hle₁ hc' => ?_
  have h₁ := h.mono hle₁
  refine (SmtBase.builds_mkAnd h₁.asserts_ok hc').bind fun g₂ asserts' hle₂ hasserts' => ?_
  have h₂ := h₁.mono hle₂
  rw [BitVec.ofBool_and_ofBool] at hasserts'
  exact .pure ⟨⟨hasserts', h₂.assumes_ok, h₂.regs_ok, h₂.pc_ok, h₂.nextRng_ok⟩, rfl⟩

theorem builds_assume {c : β} (h : Concretizes g abs asserts assumes s)
    (hc : sat g c (BitVec.ofBool a)) : Builds (assume c abs) g fun g' abs' =>
      Concretizes g' abs' asserts (a && assumes) s := by
  refine (SmtBase.builds_mkAnd hc h.assumes_ok).bind fun g₁ c' hle₁ hc' => ?_
  have h₁ := h.mono hle₁
  rw [BitVec.ofBool_and_ofBool] at hc'
  exact .pure ⟨h₁.asserts_ok, hc', h₁.regs_ok, h₁.pc_ok, h₁.nextRng_ok⟩

end Concretizes

end States

variable {χ η β γ : Type} [UnorderedMap η (Instr η) χ] [DecidableEq η]
variable {cfg : CFG χ η} {o : Oracle} {n : ℕ}

/-! ## Runs that exit -/

/-- The run from a state exits within a number of steps. -/
inductive ExitsWithin (cfg : CFG χ η) (o : Oracle) : ℕ → State η → Prop where
  | exited (n : ℕ) (r : BitVec 64) : ExitsWithin cfg o n (.exited r)
  | step {n : ℕ} {s t : State η} : Step cfg o s t → ExitsWithin cfg o n t →
      ExitsWithin cfg o (n + 1) s

theorem ExitsWithin.safe {s : State η} (h : ExitsWithin cfg o n s) : SafeFromState cfg o s := by
  induction h with
  | exited n r => exact safeFromState_exited
  | step hstep _ ih => exact safeFromState_of_step hstep ih

theorem not_exitsWithin_zero (s : RunState η) : ¬ ExitsWithin cfg o 0 (.running s) := nofun

/-- A step that a check guards. -/
theorem exitsWithin_succ_iff {s : RunState η} {t : State η} {p : Prop}
    (hstep : p → Step cfg o (.running s) t) (hcheck : ∀ t', Step cfg o (.running s) t' → p) :
    ExitsWithin cfg o (n + 1) (.running s) ↔ p ∧ ExitsWithin cfg o n t := by
  constructor
  · intro h
    cases h with
    | step h hrest =>
        have hp := hcheck _ h
        exact ⟨hp, h.deterministic (hstep hp) ▸ hrest⟩
  · intro ⟨hp, hrest⟩
    exact .step (hstep hp) hrest

/-- No path up to a number of steps has an instruction that is not supported. -/
def supported (cfg : CFG χ η) : ℕ → η → Bool
  | 0, _ => true
  | n + 1, pc =>
      match lookup pc cfg.code with
      | some (.alu64X _ _ _ next) => supported cfg n next
      | some (.alu64K _ _ _ next) => supported cfg n next
      | some (.jmp64X _ _ _ ifTrue ifFalse) => supported cfg n ifTrue && supported cfg n ifFalse
      | some (.jmp64K _ _ _ ifTrue ifFalse) => supported cfg n ifTrue && supported cfg n ifFalse
      | some (.call _ next) => supported cfg n next
      | some .exit => true
      | _ => false

/-! ## Verdicts -/

/-- The value of the condition for a state with given values of its assertions and
assumptions. On the path that is taken it says whether the run exits; elsewhere it
says only whether the path is supported. -/
structure Verdict (cfg : CFG χ η) (o : Oracle) (n : ℕ) (asserts assumes : Bool) (s : RunState η)
    (v : Bool) : Prop where
  taken : assumes = true → (v = true ↔
    asserts = true ∧ supported cfg n s.pc = true ∧ ExitsWithin cfg o n (.running s))
  untaken : assumes = false → asserts = true → (v = true ↔ supported cfg n s.pc = true)

namespace Verdict

variable {asserts assumes check cond v v₁ v₂ : Bool} {s s' : RunState η}

theorem next (hsup : supported cfg (n + 1) s.pc = supported cfg n s'.pc)
    (hstep : ExitsWithin cfg o (n + 1) (.running s) ↔
      check = true ∧ ExitsWithin cfg o n (.running s'))
    (h : Verdict cfg o n (asserts && (!assumes || check)) assumes s' v) :
    Verdict cfg o (n + 1) asserts assumes s v where
  taken hassumes := by
    subst hassumes
    rw [h.taken rfl, hsup, hstep, Bool.not_true, Bool.false_or, Bool.and_eq_true]
    tauto
  untaken hassumes hasserts := by
    subst hassumes hasserts
    rw [h.untaken rfl rfl, hsup]

/-- The side that is not taken has no say when the assertions hold. -/
theorem branch {ifTrue ifFalse : η}
    (hsup : supported cfg (n + 1) s.pc = (supported cfg n ifTrue && supported cfg n ifFalse))
    (hstep : ExitsWithin cfg o (n + 1) (.running s) ↔ check = true ∧
      ExitsWithin cfg o n (.running { s with pc := if cond then ifTrue else ifFalse }))
    (h₁ : Verdict cfg o n (asserts && (!assumes || check)) (cond && assumes)
      { s with pc := ifTrue } v₁)
    (h₂ : Verdict cfg o n (asserts && (!assumes || check)) (!cond && assumes)
      { s with pc := ifFalse } v₂) :
    Verdict cfg o (n + 1) asserts assumes s (v₁ && v₂) where
  taken hassumes := by
    subst hassumes
    rw [hsup, hstep, Bool.and_eq_true, Bool.and_eq_true]
    cases hchecked : asserts && check with
    | false =>
        rw [Bool.not_true, Bool.false_or, hchecked] at h₁ h₂
        rw [Bool.and_eq_false_iff] at hchecked
        cases cond with
        | true =>
            have hv := h₁.taken rfl
            grind
        | false =>
            have hv := h₂.taken rfl
            grind
    | true =>
        rw [Bool.not_true, Bool.false_or, hchecked] at h₁ h₂
        rw [Bool.and_eq_true] at hchecked
        cases cond with
        | true =>
            rw [h₁.taken rfl, h₂.untaken rfl rfl, if_pos rfl]
            tauto
        | false =>
            rw [h₁.untaken rfl rfl, h₂.taken rfl, if_neg Bool.false_ne_true]
            tauto
  untaken hassumes hasserts := by
    subst hassumes hasserts
    rw [Bool.and_false] at h₁ h₂
    rw [hsup, Bool.and_eq_true, Bool.and_eq_true, h₁.untaken rfl rfl, h₂.untaken rfl rfl]

theorem exit (hsup : supported cfg n s.pc = true)
    (hstep : ExitsWithin cfg o n (.running s) ↔ check = true) :
    Verdict cfg o n asserts assumes s (asserts && (!assumes || check)) where
  taken hassumes := by
    subst hassumes
    rw [hsup, hstep, Bool.not_true, Bool.false_or, Bool.and_eq_true]
    tauto
  untaken hassumes hasserts := by
    subst hassumes hasserts
    rw [hsup]
    rfl

theorem die (hsup : supported cfg n s.pc = false) : Verdict cfg o n asserts assumes s false where
  taken _ := by
    rw [hsup]
    tauto
  untaken _ _ := by rw [hsup]

theorem infeasible : Verdict cfg o 0 asserts assumes s !assumes where
  taken hassumes := by
    subst hassumes
    exact iff_of_false Bool.false_ne_true fun h => not_exitsWithin_zero s h.2.2
  untaken hassumes _ := by
    subst hassumes
    exact iff_of_true rfl rfl

end Verdict

/-! ## Steps -/

variable [SmtFactory β γ]

/-- An evaluator that gives each state the condition of a number of steps. -/
def Correct (cfg : CFG χ η) (o : Oracle) (n : ℕ) (k : SymState β η → StateM γ β) : Prop :=
  ∀ (g : γ) (abs : SymState β η) (asserts assumes : Bool) (s : RunState η),
    Concretizes g abs asserts assumes s → Builds (k abs) g fun g' e =>
      ∃ v, sat g' e (BitVec.ofBool v) ∧ Verdict cfg o n asserts assumes s v

section Correct

variable {k : SymState β η → StateM γ β} {g : γ} {abs : SymState β η} {asserts assumes : Bool}
variable {s : RunState η} {src : SymValue β} {w : Value} {dst : Reg} {next ifTrue ifFalse : η}

theorem builds_stepAlu64 (hk : Correct cfg o n k) (h : Concretizes g abs asserts assumes s)
    (op : ALU) (hsrc : SymValue.Sat g src w)
    (hsup : supported cfg (n + 1) s.pc = supported cfg n next)
    (hstep : ExitsWithin cfg o (n + 1) (.running s) ↔ op.doALU64Check (s.regs dst) w = true ∧
      ExitsWithin cfg o n (.running { s with
        pc := next, regs := Function.update s.regs dst (op.doALU64 (s.regs dst) w) })) :
    Builds (stepAlu64 k op dst src next abs) g fun g' e =>
      ∃ v, sat g' e (BitVec.ofBool v) ∧ Verdict cfg o (n + 1) asserts assumes s v := by
  refine (SymValue.builds_doALUCheck op (h.regs_ok dst) hsrc).bind fun g₁ check hle₁ hcheck => ?_
  refine ((h.mono hle₁).builds_assert hcheck).bind fun g₂ abs' hle₂ ⟨h', _⟩ => ?_
  have hle := hle₁.trans hle₂
  refine (SymValue.builds_doALU op ((h.regs_ok dst).mono hle) (hsrc.mono hle)).bind
    fun g₃ val hle₃ hval => ?_
  have h₃ := h'.mono hle₃
  have hregs := Concretizes.sat_set (h.mono (hle.trans hle₃)).regs_ok hval dst
  refine (hk g₃ { abs' with regs := abs.regs.set dst.toFin val, current := next } _ assumes
    { s with pc := next, regs := _ } ⟨h₃.asserts_ok, h₃.assumes_ok, hregs, rfl,
      h₃.nextRng_ok⟩).mono fun g₄ e _ he => ?_
  obtain ⟨v, hv, hverdict⟩ := he
  exact ⟨v, hv, hverdict.next hsup hstep⟩

theorem builds_stepJmp64 (hk : Correct cfg o n k) (h : Concretizes g abs asserts assumes s)
    (op : JMP) (hsrc : SymValue.Sat g src w)
    (hsup : supported cfg (n + 1) s.pc = (supported cfg n ifTrue && supported cfg n ifFalse))
    (hstep : ExitsWithin cfg o (n + 1) (.running s) ↔ op.doJMP64Check (s.regs dst) w = true ∧
      ExitsWithin cfg o n (.running { s with
        pc := if op.doJMP64 (s.regs dst) w then ifTrue else ifFalse })) :
    Builds (stepJmp64 k op dst src ifTrue ifFalse abs) g fun g' e =>
      ∃ v, sat g' e (BitVec.ofBool v) ∧ Verdict cfg o (n + 1) asserts assumes s v := by
  refine (SymValue.builds_doJMP64Check op (h.regs_ok dst) hsrc).bind
    fun g₁ check hle₁ hcheck => ?_
  refine ((h.mono hle₁).builds_assert hcheck).bind fun g₂ abs' hle₂ ⟨h', _⟩ => ?_
  refine (SymValue.builds_doJMP64 op (h'.regs_ok dst) (hsrc.mono (hle₁.trans hle₂))).bind
    fun g₃ cond hle₃ hcond => ?_
  refine (SmtBase.builds_mkNot hcond).bind fun g₄ ncond hle₄ hncond => ?_
  rw [BitVec.not_ofBool] at hncond
  have h₄ := h'.mono (hle₃.trans hle₄)
  refine (h₄.builds_assume (SmtBase.sat_of_le hle₄ hcond)).bind
    fun g₅ truestate hle₅ htrue => ?_
  refine (hk g₅ _ _ _ _ (htrue.jump ifTrue)).bind fun g₆ e₁ hle₆ ⟨v₁, hv₁, hverdict₁⟩ => ?_
  have hle := hle₅.trans hle₆
  refine ((h₄.mono hle).builds_assume (SmtBase.sat_of_le hle hncond)).bind
    fun g₇ falsestate hle₇ hfalse => ?_
  refine (hk g₇ _ _ _ _ (hfalse.jump ifFalse)).bind fun g₈ e₂ hle₈ ⟨v₂, hv₂, hverdict₂⟩ => ?_
  refine (SmtBase.builds_mkAnd (SmtBase.sat_of_le (hle₇.trans hle₈) hv₁) hv₂).mono
    fun g₉ e _ he => ?_
  rw [BitVec.ofBool_and_ofBool] at he
  exact ⟨_, he, .branch hsup hstep hverdict₁ hverdict₂⟩

theorem builds_stepExit (h : Concretizes g abs asserts assumes s)
    (hsup : supported cfg n s.pc = true)
    (hstep : ExitsWithin cfg o n (.running s) ↔ (s.regs .r0).IsScalar) :
    Builds (stepExit abs) g fun g' e =>
      ∃ v, sat g' e (BitVec.ofBool v) ∧ Verdict cfg o n asserts assumes s v := by
  refine (builds_mkConst1 g _).bind fun g₁ noleak hle₁ hnoleak => ?_
  refine ((h.mono hle₁).builds_assert hnoleak).bind fun g₂ abs' _ ⟨h', _⟩ => ?_
  refine .pure ⟨_, h'.asserts_ok, .exit hsup ?_⟩
  rw [hstep, SymValue.isScalar_iff (h.regs_ok .r0)]

theorem builds_stepCall (hk : Correct cfg o n k) (h : Concretizes g abs asserts assumes s)
    (func : BpfFunc) (hsup : supported cfg (n + 1) s.pc = supported cfg n next)
    (hstep : ExitsWithin cfg o (n + 1) (.running s) ↔ func.doCallCheck s.regs = true ∧
      ExitsWithin cfg o n (.running {
        pc := next, regs := func.doCall o s.nextRng s.regs, nextRng := s.nextRng + 1 })) :
    Builds (stepCall k o func next abs) g fun g' e =>
      ∃ v, sat g' e (BitVec.ofBool v) ∧ Verdict cfg o (n + 1) asserts assumes s v := by
  have hcheck : Builds (doCallCheck abs func) g fun g' e =>
      sat g' e (BitVec.ofBool (func.doCallCheck s.regs)) := by
    cases func
    exact builds_mkConst1 g true
  refine hcheck.bind fun g₁ check hle₁ hcheck => ?_
  refine ((h.mono hle₁).builds_assert hcheck).bind fun g₂ abs' hle₂ ⟨h', _⟩ => ?_
  refine (SmtBase.builds_mkVar g₂ (o.rng abs'.nextRng)).bind fun g₃ ret hle₃ hret => ?_
  have h₃ := h'.mono hle₃
  rw [h₃.nextRng_ok] at hret
  have hcall : ∀ r : Reg, SymValue.Sat g₃
      (((Reg.callerSaved.foldl (fun l r => l.set r.toFin .uninitialized) abs'.regs).set
        Reg.r0.toFin (.scalar ret)).get r.toFin) (func.doCall o s.nextRng s.regs r) := by
    cases func
    refine Concretizes.sat_set (fun r => ?_) (.scalar hret) .r0
    rw [Reg.get_foldl_set]
    split
    · exact .uninitialized
    · exact h₃.regs_ok r
  refine (hk g₃ { abs' with regs := _, current := next, nextRng := abs.nextRng + 1 } _ assumes
    { pc := next, regs := _, nextRng := s.nextRng + 1 } ⟨h₃.asserts_ok, h₃.assumes_ok, hcall, rfl,
      congrArg (· + 1) h.nextRng_ok⟩).mono fun g₄ e _ ⟨v, hv, hverdict⟩ => ?_
  exact ⟨v, hv, hverdict.next hsup hstep⟩

theorem builds_stepSymeval (hk : Correct cfg o n k) :
    Correct cfg o (n + 1) (stepSymeval k cfg o) := by
  intro g abs asserts assumes s h
  have hdie : supported cfg (n + 1) s.pc = false → Builds (die : StateM γ β) g fun g' e =>
      ∃ v, sat g' e (BitVec.ofBool v) ∧ Verdict cfg o (n + 1) asserts assumes s v :=
    fun hsup => (builds_mkConst1 g false).mono fun _ _ _ he => ⟨false, he, .die hsup⟩
  unfold stepSymeval
  rw [h.pc_ok]
  cases hfetch : lookup s.pc cfg.code with
  | none => exact hdie (by rw [supported, hfetch])
  | some i =>
      cases i with
      | alu64X op dst src next =>
          refine builds_stepAlu64 hk h op (h.regs_ok src) (by rw [supported, hfetch]) ?_
          exact exitsWithin_succ_iff (.alu64X s hfetch) fun t ht => by cases ht <;> simp_all
      | alu64K op dst imm next =>
          refine (SymValue.builds_mkScalar g imm).bind fun g₁ const hle₁ hconst => ?_
          refine builds_stepAlu64 hk (h.mono hle₁) op hconst (by rw [supported, hfetch]) ?_
          exact exitsWithin_succ_iff (.alu64K s hfetch) fun t ht => by cases ht <;> simp_all
      | jmp64X op r₁ r₂ ifTrue ifFalse =>
          refine builds_stepJmp64 hk h op (h.regs_ok r₂) (by rw [supported, hfetch]) ?_
          exact exitsWithin_succ_iff (.jmp64X s hfetch) fun t ht => by cases ht <;> simp_all
      | jmp64K op r₁ imm ifTrue ifFalse =>
          refine (SymValue.builds_mkScalar g imm).bind fun g₁ const hle₁ hconst => ?_
          refine builds_stepJmp64 hk (h.mono hle₁) op hconst (by rw [supported, hfetch]) ?_
          exact exitsWithin_succ_iff (.jmp64K s hfetch) fun t ht => by cases ht <;> simp_all
      | call func next =>
          refine builds_stepCall hk h func (by rw [supported, hfetch]) ?_
          exact exitsWithin_succ_iff (.call s hfetch) fun t ht => by cases ht <;> simp_all
      | exit =>
          refine builds_stepExit h (by rw [supported, hfetch]) ?_
          constructor
          · intro hexits
            cases hexits with
            | step ht _ => cases ht <;> simp_all [Value.IsScalar]
          · intro ⟨ret, hret⟩
            exact .step (.exit s hfetch hret) (.exited _ _)
      | _ => exact hdie (by rw [supported, hfetch])

end Correct

theorem correct_symeval (cfg : CFG χ η) (o : Oracle) (n : ℕ) :
    Correct cfg o n (symeval cfg o n : SymState β η → StateM γ β) := by
  induction n with
  | zero =>
      intro g abs asserts assumes s h
      refine (SmtBase.builds_mkNot h.assumes_ok).mono fun _ _ _ he => ?_
      rw [BitVec.not_ofBool] at he
      exact ⟨_, he, .infeasible⟩
  | succ n ih => exact builds_stepSymeval ih

theorem builds_vcgen (cfg : CFG χ η) (fuel : ℕ) (o : Oracle) (g : γ) :
    Builds (vcgen cfg fuel o : StateM γ β) g fun g' e => ∃ v, sat g' e (BitVec.ofBool v) ∧
      (v = true ↔ supported cfg fuel cfg.entry = true ∧
        ExitsWithin cfg o fuel (initialState cfg)) := by
  have hinit : Builds (initialSymstate cfg : StateM γ (SymState β η)) g fun g' abs =>
      Concretizes g' abs true true
        { pc := cfg.entry, regs := fun _ => .uninitialized, nextRng := 0 } := by
    refine (builds_mkConst1 g true).bind fun g₁ truthy _ htruthy => ?_
    refine .pure ⟨htruthy, htruthy, fun r => ?_, rfl, rfl⟩
    rw [List.Vector.get_replicate]
    exact .uninitialized
  refine hinit.bind fun g₁ abs _ habs => ?_
  refine (correct_symeval cfg o fuel g₁ abs true true _ habs).mono fun g₂ e _ ⟨v, hv, hverdict⟩ => ?_
  refine ⟨v, hv, (hverdict.taken rfl).trans ?_⟩
  exact and_iff_right rfl

/-- The condition is true exactly when the program exits within the steps and has no
path to an instruction that is not supported. -/
theorem denote_vcgen_iff (cfg : CFG χ η) (fuel : ℕ) (o : Oracle) (g : γ) :
    SmtBase.denote γ ((vcgen cfg fuel o : StateM γ β).run g).1 = ⟨1, BitVec.ofBool true⟩ ↔
      supported cfg fuel cfg.entry = true ∧ ExitsWithin cfg o fuel (initialState cfg) := by
  obtain ⟨v, hv, hiff⟩ := (builds_vcgen cfg fuel o g).2
  rw [SmtBase.denote_sound hv, ← hiff]
  cases v <;> decide

end Exoverifier.Bpf.Se

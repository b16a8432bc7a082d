import Exoverifier.Verifier.Adjust

/-! # Soundness of the transfer function

The concrete interpreter is a parameter, of which only the documented meaning of
the arithmetic instructions is used. For every opcode the case analysis leaves a
destination that nearly contains a word whose low half, or whole, is the
concrete result; zero extension and synchronisation then finish all opcodes
alike.
-/

namespace Exoverifier

open Library

/-! ## Concrete arithmetic -/

/-- The results of the handled opcodes, with shift amounts modulo the width. -/
def aluOp {w : ℕ} (op : BpfOp) (x y : BitVec w) : Option (BitVec w) :=
  match op with
  | .mov => some y
  | .add => some (x + y)
  | .sub => some (x - y)
  | .and => some (x &&& y)
  | .or => some (x ||| y)
  | .xor => some (x ^^^ y)
  | .lsh => some (x <<< (y.toNat % w))
  | .rsh => some (x >>> (y.toNat % w))
  | .arsh => some (x.sshiftRight (y.toNat % w))
  | _ => none

def BpfOp.Handled (op : BpfOp) : Prop :=
  op ∈ [BpfOp.mov, .add, .sub, .and, .or, .xor, .lsh, .rsh, .arsh]

instance (op : BpfOp) : Decidable op.Handled := inferInstanceAs (Decidable (op ∈ _))

/-- The 32-bit class works on low halves and zero-extends its result. -/
def aluResult (insn : Insn) (x y : BitVec 64) : Option (BitVec 64) :=
  match insn.cls with
  | .alu64 => aluOp insn.op x y
  | .alu => (aluOp insn.op (x.setWidth 32) (y.setWidth 32)).map fun z => z.setWidth 64

/-- The documented meaning of the arithmetic instructions: the result goes to
the destination, and no other register changes. -/
def AluSemantics (interpretInsn : Insn → (Reg → BitVec 64) → Reg → BitVec 64) : Prop :=
  ∀ insn cpu z, aluResult insn (cpu insn.dst) (cpu insn.src) = some z →
    interpretInsn insn cpu = Function.update cpu insn.dst z

/-- The interpreter of these instructions that leaves all others alone. -/
def interpretAlu (insn : Insn) (cpu : Reg → BitVec 64) : Reg → BitVec 64 :=
  match aluResult insn (cpu insn.dst) (cpu insn.src) with
  | some z => Function.update cpu insn.dst z
  | none => cpu

theorem aluSemantics_interpretAlu : AluSemantics interpretAlu := by
  intro insn cpu z hz
  rw [interpretAlu, hz]

/-- The word a destination holds once the class has zero-extended it or not. -/
def Insn.widen (insn : Insn) (u : BitVec 64) : BitVec 64 :=
  if insn.cls = .alu64 then u else (u.setWidth 32).setWidth 64

theorem aluResult_of_low {insn : Insn} {x y u : BitVec 64} (h : aluOp insn.op x y = some u)
    (hlow : aluOp insn.op (x.setWidth 32) (y.setWidth 32) = some (u.setWidth 32)) :
    aluResult insn x y = some (insn.widen u) := by
  cases hcls : insn.cls with
  | alu64 => simp only [aluResult, Insn.widen, hcls, h, if_true]
  | alu => simp only [aluResult, Insn.widen, hcls, hlow, Option.map_some, reduceCtorEq, if_false]

namespace VerifierEnv

variable {env : VerifierEnv} {insn : Insn} {d s : Reg} {x y : BitVec 64}

/-! ## Writes to a register that may also be the source -/

theorem update_proj {α : Type} (f : RegState → α) {r : RegState} (h : f r = f (env d)) (s : Reg) :
    f (Function.update env d r s) = f (env s) := by
  by_cases hs : s = d
  · rw [hs, Function.update_self, h]
  · rw [Function.update_of_ne hs]

theorem update_write (f : RegState → RegState → RegState) (r : RegState) :
    VerifierEnv.write f d s (Function.update env d r) =
      Function.update env d (f r (Function.update env d r s)) := by
  rw [write, Function.update_idem, Function.update_self]

theorem write_eq (env : VerifierEnv) (f : RegState → RegState → RegState) (d s : Reg) :
    env.write f d s = Function.update env d (f (env d) (env s)) := rfl

/-- Three writes that read what no earlier one of them wrote. -/
theorem write_arith (f : Tnum 64 → Tnum 64 → Tnum 64) (g : Bounds 64 → Bounds 64 → Bounds 64)
    (g32 : Bounds 32 → Bounds 32 → Bounds 32) :
    ((env.write (fun dst src => { dst with bounds32 := g32 dst.bounds32 src.bounds32 }) d s).write
        (fun dst src => { dst with bounds := g dst.bounds src.bounds }) d s).write
        (setVarOff f) d s =
      Function.update env d ⟨f (env d).varOff (env s).varOff, g (env d).bounds (env s).bounds,
        g32 (env d).bounds32 (env s).bounds32⟩ := by
  rw [write_eq env, update_write, update_write, update_proj RegState.bounds (by rfl), setVarOff,
    update_proj RegState.varOff (by rfl)]

/-! ## The case analysis -/

/-- The case analysis overwrites the destination, and the new state nearly
contains a word that is the concrete result once it is widened. -/
def Transfers (env : VerifierEnv) (insn : Insn) (x y : BitVec 64) : Prop :=
  ∃ r u, env.adjustOp insn insn.dst insn.src = some (Function.update env insn.dst r) ∧ r.Near u ∧
    aluResult insn x y = some (insn.widen u)

/-- What the transfer function is given about the two operands. -/
structure Operands (env : VerifierEnv) (insn : Insn) (x y : BitVec 64) : Prop where
  dst : (env insn.dst).Contains x
  src : (env insn.src).Contains y
  validDst : TnumValid (env insn.dst).varOff
  validSrc : TnumValid (env insn.src).varOff
  invDst : (env insn.dst).Invariants
  invSrc : (env insn.src).Invariants

theorem transfers_add (h : env.Operands insn x y) (hop : insn.op = .add) :
    env.Transfers insn x y := by
  have hlow : (x + y).setWidth 32 = x.setWidth 32 + y.setWidth 32 :=
    BitVec.setWidth_add x y (by omega)
  let r : RegState := ⟨tnumAdd (env insn.dst).varOff (env insn.src).varOff,
    (env insn.dst).bounds.add (env insn.src).bounds,
    (env insn.dst).bounds32.add (env insn.src).bounds32⟩
  have hr : r.Contains (x + y) := by
    refine ⟨tnumAdd_contains h.validDst h.validSrc h.dst.1 h.src.1, h.dst.2.1.add h.src.2.1, ?_⟩
    rw [hlow]
    exact h.dst.2.2.add h.src.2.2
  refine ⟨r, x + y, ?_, hr.near (tnumAdd_valid _ _), aluResult_of_low ?_ ?_⟩
  · rw [adjustOp, hop]
    exact congrArg some (write_arith tnumAdd Bounds.add Bounds.add)
  · rw [hop, aluOp]
  · rw [hop, aluOp, hlow]

theorem transfers_sub (h : env.Operands insn x y) (hop : insn.op = .sub) :
    env.Transfers insn x y := by
  have hlow : (x - y).setWidth 32 = x.setWidth 32 - y.setWidth 32 := by
    rw [BitVec.sub_eq_add_neg, BitVec.sub_eq_add_neg, BitVec.setWidth_add _ _ (by omega),
      BitVec.setWidth_neg_of_le (by omega)]
  let r : RegState := ⟨tnumSub (env insn.dst).varOff (env insn.src).varOff,
    (env insn.dst).bounds.sub (env insn.src).bounds,
    (env insn.dst).bounds32.sub (env insn.src).bounds32⟩
  have hr : r.Contains (x - y) := by
    refine ⟨tnumSub_contains h.validDst h.validSrc h.dst.1 h.src.1, h.dst.2.1.sub h.src.2.1, ?_⟩
    rw [hlow]
    exact h.dst.2.2.sub h.src.2.2
  refine ⟨r, x - y, ?_, hr.near (tnumSub_valid _ _), aluResult_of_low ?_ ?_⟩
  · rw [adjustOp, hop]
    exact congrArg some (write_arith tnumSub Bounds.sub Bounds.sub)
  · rw [hop, aluOp]
  · rw [hop, aluOp, hlow]

/-! ## Bitwise opcodes -/

/-- What soundness needs of a bitwise tnum operator. -/
structure BitwiseTnum (f : Tnum 64 → Tnum 64 → Tnum 64) (op : BitVec 64 → BitVec 64 → BitVec 64) :
    Prop where
  valid : ∀ a b, TnumValid (f a b)
  contains : ∀ {a b x y}, TnumValid a → TnumValid b → TnumContains a x → TnumContains b y →
    TnumContains (f a b) (op x y)
  top : ∀ {a b : Tnum 64} {i : ℕ}, a.top.getLsbD i = false → b.top.getLsbD i = false →
    (f a b).top.getLsbD i = false

theorem bitwiseTnum_and : BitwiseTnum tnumAnd (fun x y => x &&& y) where
  valid := tnumAnd_valid
  contains ha hb hx hy := tnumAnd_contains ha hb hx hy
  top {a b i} ha hb := by
    rw [getLsbD_top, Bool.or_eq_false_iff] at ha hb
    simp only [getLsbD_top, tnumAnd, BitVec.getLsbD_and, BitVec.getLsbD_or, ha.1, ha.2, hb.1, hb.2]
    rfl

theorem bitwiseTnum_or : BitwiseTnum tnumOr (fun x y => x ||| y) where
  valid := tnumOr_valid
  contains ha hb hx hy := tnumOr_contains ha hb hx hy
  top {a b i} ha hb := by
    rw [getLsbD_top, Bool.or_eq_false_iff] at ha hb
    simp only [getLsbD_top, tnumOr, BitVec.getLsbD_and, BitVec.getLsbD_or, ha.1, ha.2, hb.1, hb.2]
    rfl

theorem bitwiseTnum_xor : BitwiseTnum tnumXor (fun x y => x ^^^ y) where
  valid := tnumXor_valid
  contains _ _ hx hy := tnumXor_contains hx hy
  top {a b i} ha hb := by
    rw [getLsbD_top, Bool.or_eq_false_iff] at ha hb
    simp only [getLsbD_top, tnumXor, BitVec.getLsbD_and, BitVec.getLsbD_or, BitVec.getLsbD_xor,
      ha.1, ha.2, hb.1, hb.2]
    rfl

theorem top_nonneg_iff (t : Tnum 64) : 0 ≤ t.top.toInt ↔ t.top.getLsbD 63 = false := by
  rw [toInt_nonneg_iff, BitVec.msb_eq_getLsbD_last]

theorem lowTnum_top_nonneg_iff (t : Tnum 64) :
    0 ≤ (lowTnum t).top.toInt ↔ t.top.getLsbD 31 = false := by
  rw [toInt_nonneg_iff, BitVec.msb_eq_getLsbD_last, getLsbD_top, getLsbD_top,
    (low_bits t (by omega)).1, (low_bits t (by omega)).2]

/-- The three bitwise opcodes write the tnum of the result first, and then refine
the 32-bit and the 64-bit bounds. The sign conditions come from the invariants
of both operands. -/
theorem transfers_bitwise {f : Tnum 64 → Tnum 64 → Tnum 64}
    {op : BitVec 64 → BitVec 64 → BitVec 64} {f32 f64 : RegState → RegState → RegState}
    (hf : BitwiseTnum f op) (h : env.Operands insn x y)
    (hadjust : env.adjustOp insn insn.dst insn.src =
      some (((env.write (setVarOff f) insn.dst insn.src).write f32 insn.dst insn.src).write f64
        insn.dst insn.src))
    (h32 : ∀ {dst src : RegState}, TnumValid dst.varOff → TnumContains dst.varOff (op x y) →
      RegState.BitwiseArgs dst.bounds32 src.bounds32 (lowTnum dst.varOff) (x.setWidth 32)
        (y.setWidth 32) ((op x y).setWidth 32) →
      ∃ b, f32 dst src = { dst with bounds32 := b } ∧
        b.Near (lowTnum dst.varOff).top ((op x y).setWidth 32))
    (h64 : ∀ {dst src : RegState},
      RegState.BitwiseArgs dst.bounds src.bounds dst.varOff x y (op x y) →
      dst.bounds32.Near (lowTnum dst.varOff).top ((op x y).setWidth 32) →
      (f64 dst src).Near (op x y))
    (hresult : aluResult insn x y = some (insn.widen (op x y))) : env.Transfers insn x y := by
  let r := setVarOff f (env insn.dst) (env insn.src)
  have hv : TnumValid r.varOff := hf.valid _ _
  have hz : TnumContains r.varOff (op x y) := hf.contains h.validDst h.validSrc h.dst.1 h.src.1
  have hsigns := RegState.invariants_iff.1 h.invDst
  have hsigns' := RegState.invariants_iff.1 h.invSrc
  simp only [top_nonneg_iff, lowTnum_top_nonneg_iff] at hsigns hsigns'
  have hargs32 : RegState.BitwiseArgs r.bounds32 (Function.update env insn.dst r insn.src).bounds32
      (lowTnum r.varOff) (x.setWidth 32) (y.setWidth 32) ((op x y).setWidth 32) := by
    rw [update_proj RegState.bounds32 (by rfl)]
    exact ⟨h.dst.2.2, h.src.2.2, lowTnum_valid hv, lowTnum_contains hz, fun hdst hsrc =>
      (lowTnum_top_nonneg_iff _).2 (hf.top (hsigns.2 hdst) (hsigns'.2 hsrc))⟩
  obtain ⟨b, hr, hb⟩ := h32 hv hz hargs32
  let r32 : RegState := { r with bounds32 := b }
  have hargs : RegState.BitwiseArgs r32.bounds (Function.update env insn.dst r32 insn.src).bounds
      r32.varOff x y (op x y) := by
    rw [update_proj RegState.bounds (by rfl)]
    exact ⟨h.dst.2.1, h.src.2.1, hv, hz, fun hdst hsrc =>
      (top_nonneg_iff _).2 (hf.top (hsigns.1 hdst) (hsigns'.1 hsrc))⟩
  refine ⟨_, op x y, ?_, h64 hargs hb, hresult⟩
  rw [hadjust, write_eq env, update_write, hr, update_write]

theorem transfers_and (h : env.Operands insn x y) (hop : insn.op = .and) :
    env.Transfers insn x y := by
  refine transfers_bitwise bitwiseTnum_and h (by rw [adjustOp, hop])
    RegState.scalar32MinMaxAnd_near RegState.scalarMinMaxAnd_near (aluResult_of_low ?_ ?_)
  · rw [hop, aluOp]
  · rw [hop, aluOp, BitVec.setWidth_and]

theorem transfers_or (h : env.Operands insn x y) (hop : insn.op = .or) :
    env.Transfers insn x y := by
  refine transfers_bitwise bitwiseTnum_or h (by rw [adjustOp, hop])
    RegState.scalar32MinMaxOr_near RegState.scalarMinMaxOr_near (aluResult_of_low ?_ ?_)
  · rw [hop, aluOp]
  · rw [hop, aluOp, BitVec.setWidth_or]

theorem transfers_xor (h : env.Operands insn x y) (hop : insn.op = .xor) :
    env.Transfers insn x y := by
  refine transfers_bitwise bitwiseTnum_xor h (by rw [adjustOp, hop])
    RegState.scalar32MinMaxXor_near RegState.scalarMinMaxXor_near (aluResult_of_low ?_ ?_)
  · rw [hop, aluOp]
  · rw [hop, aluOp, BitVec.setWidth_xor]

/-! ## Shifts -/

/-- The assumption of the source: an arithmetic shift that is not marked unknown
has a constant amount. -/
def ShiftAssumption (env : VerifierEnv) (insn : Insn) : Prop :=
  insn.op = .arsh →
    match insn.cls with
    | .alu64 => (env insn.src).bounds.umax < 64#64 →
        (env insn.src).bounds.umin = (env insn.src).bounds.umax
    | .alu => (env insn.src).bounds.umax < 32#64 →
        (env insn.src).bounds32.umin = (env insn.src).bounds32.umax

/-- An amount out of range makes the destination unknown; for any other amount
the reduction modulo the width does nothing. -/
theorem transfers_shift {shift32 shift64 : RegState → RegState → Option RegState}
    {f : ∀ w, BitVec w → ℕ → BitVec w} (h : env.Operands insn x y)
    (hadjust : env.adjustOp insn insn.dst insn.src =
      adjustShift shift32 shift64 env insn insn.dst insn.src)
    (hop : ∀ (w : ℕ) (x y : BitVec w), aluOp insn.op x y = some (f w x (y.toNat % w)))
    (h64 : insn.cls = .alu64 → (env insn.src).bounds.umax < 64#64 →
      ∃ r, shift64 (env insn.dst) (env insn.src) = some r ∧ r.Near (f 64 x y.toNat))
    (h32 : insn.cls = .alu → (env insn.src).bounds.umax < 32#64 → (y.setWidth 32).toNat < 32 →
      ∃ r, shift32 (env insn.dst) (env insn.src) = some r ∧
        r.Near ((f 32 (x.setWidth 32) (y.setWidth 32).toNat).setWidth 64)) :
    env.Transfers insn x y := by
  have hunknown : ∀ u, (env insn.dst).markRegUnknown.Near u := fun u =>
    RegState.Contains.near ⟨tnumContains_unknown u, Bounds.unbounded_contains u,
      Bounds.unbounded_contains _⟩ BitVec.zero_and
  have hy : y.toNat ≤ (env insn.src).bounds.umax.toNat := h.src.2.1.2.1
  cases hcls : insn.cls with
  | alu64 =>
      have hresult : aluResult insn x y = some (insn.widen (f 64 x (y.toNat % 64))) := by
        simp only [aluResult, Insn.widen, hcls, if_true]
        exact hop 64 x y
      by_cases hge : 64#64 ≤ (env insn.src).bounds.umax
      · refine ⟨_, _, ?_, hunknown _, hresult⟩
        simp only [hadjust, adjustShift, hcls, if_true, hge, markRegUnknown]
      · have hlt : (env insn.src).bounds.umax.toNat < 64 := BitVec.not_le.1 hge
        obtain ⟨r, hr, hnear⟩ := h64 hcls hlt
        rw [Nat.mod_eq_of_lt (by omega)] at hresult
        refine ⟨r, _, ?_, hnear, hresult⟩
        simp only [hadjust, adjustShift, hcls, if_true, hge, if_false, hr, Option.map_some]
  | alu =>
      have hresult : aluResult insn x y = some (insn.widen
          ((f 32 (x.setWidth 32) ((y.setWidth 32).toNat % 32)).setWidth 64)) := by
        simp only [aluResult, Insn.widen, hcls, hop, Option.map_some, reduceCtorEq, if_false,
          low_zext]
      by_cases hge : 32#64 ≤ (env insn.src).bounds.umax
      · refine ⟨_, _, ?_, hunknown _, hresult⟩
        simp only [hadjust, adjustShift, hcls, reduceCtorEq, if_false, hge, if_true,
          markRegUnknown]
      · have hlt : (env insn.src).bounds.umax.toNat < 32 := BitVec.not_le.1 hge
        have hs : (y.setWidth 32).toNat < 32 := by
          rw [BitVec.toNat_setWidth, Nat.mod_eq_of_lt (by omega)]
          omega
        obtain ⟨r, hr, hnear⟩ := h32 hcls hlt hs
        rw [Nat.mod_eq_of_lt hs] at hresult
        refine ⟨r, _, ?_, hnear, hresult⟩
        simp only [hadjust, adjustShift, hcls, reduceCtorEq, if_false, hge, hr, Option.map_some]

theorem transfers_lsh (h : env.Operands insn x y) (hop : insn.op = .lsh) :
    env.Transfers insn x y := by
  refine transfers_shift (f := fun _ x s => x <<< s) h (by rw [adjustOp, hop])
    (fun w x y => by rw [hop, aluOp]) (fun _ hmax => ?_) (fun _ _ hs => ?_)
  · exact RegState.scalarMinMaxLsh_near h.validDst h.dst h.validSrc h.src hmax
  · exact RegState.scalar32MinMaxLsh_near h.validDst h.dst h.validSrc h.src hs

theorem transfers_rsh (h : env.Operands insn x y) (hop : insn.op = .rsh) :
    env.Transfers insn x y := by
  have hy : y.toNat ≤ (env insn.src).bounds.umax.toNat := h.src.2.1.2.1
  refine transfers_shift (f := fun _ x s => x >>> s) h (by rw [adjustOp, hop])
    (fun w x y => by rw [hop, aluOp]) (fun _ hmax => ?_) (fun _ _ hs => ?_)
  · exact RegState.scalarMinMaxRsh_near h.validDst h.dst h.validSrc h.src (Nat.lt_of_le_of_lt hy hmax)
  · exact RegState.scalar32MinMaxRsh_near h.validDst h.dst h.validSrc h.src hs

theorem transfers_arsh (h : env.Operands insn x y) (hassume : env.ShiftAssumption insn)
    (hop : insn.op = .arsh) : env.Transfers insn x y := by
  have hconst := hassume hop
  refine transfers_shift (f := fun _ x s => x.sshiftRight s) h (by rw [adjustOp, hop])
    (fun w x y => by rw [hop, aluOp]) (fun hcls hmax => ?_) (fun hcls hmax _ => ?_)
  · rw [hcls] at hconst
    exact RegState.scalarMinMaxArsh_near h.validDst h.dst h.src (hconst hmax)
  · rw [hcls] at hconst
    exact RegState.scalar32MinMaxArsh_near h.validDst h.dst h.src (hconst hmax)

/-! ## Whole instructions -/

theorem transfers (h : env.Operands insn x y) (hassume : env.ShiftAssumption insn)
    (hop : insn.op.Handled) (hmov : insn.op ≠ .mov) : env.Transfers insn x y := by
  have hcases : insn.op = .mov ∨ insn.op = .add ∨ insn.op = .sub ∨ insn.op = .and ∨
      insn.op = .or ∨ insn.op = .xor ∨ insn.op = .lsh ∨ insn.op = .rsh ∨ insn.op = .arsh := by
    simpa [BpfOp.Handled] using hop
  rcases hcases with hop | hop | hop | hop | hop | hop | hop | hop | hop
  · exact absurd hop hmov
  · exact transfers_add h hop
  · exact transfers_sub h hop
  · exact transfers_and h hop
  · exact transfers_or h hop
  · exact transfers_xor h hop
  · exact transfers_lsh h hop
  · exact transfers_rsh h hop
  · exact transfers_arsh h hassume hop

/-- Every handled instruction overwrites the destination by a state that
contains the concrete result and satisfies the invariants. -/
def Produces (env : VerifierEnv) (insn : Insn) (x y : BitVec 64) : Prop :=
  ∃ r z, env.adjustRegMinMaxVals insn = some (Function.update env insn.dst r) ∧
    aluResult insn x y = some z ∧ r.Contains z ∧ r.Invariants ∧ TnumValid r.varOff

/-- Copies are not synchronised: they keep the invariants of the source. -/
theorem produces_mov (h : env.Operands insn x y) (hop : insn.op = .mov) :
    env.Produces insn x y := by
  have hadjust : env.adjustOp insn insn.dst insn.src =
      some (Function.update env insn.dst (env insn.src)) := by
    rw [adjustOp, hop]
    rfl
  cases hcls : insn.cls with
  | alu64 =>
      refine ⟨env insn.src, y, ?_, ?_, h.src, h.invSrc, h.validSrc⟩
      · simp only [adjustRegMinMaxVals, adjustScalarMinMaxVals, hadjust, hcls, hop, if_true,
          Option.bind_eq_bind, Option.bind_some, Option.pure_def]
      · simp only [aluResult, hcls, hop, aluOp]
  | alu =>
      refine ⟨(env insn.src).zext32To64, (y.setWidth 32).setWidth 64, ?_, ?_, h.src.zext,
        h.invSrc.zext, tnumSubreg_valid h.validSrc⟩
      · simp only [adjustRegMinMaxVals, adjustScalarMinMaxVals, hadjust, hcls, hop, if_true,
          reduceCtorEq, if_false, Option.bind_eq_bind, Option.bind_some, Option.pure_def,
          Function.update_self, Function.update_idem]
      · simp only [aluResult, hcls, hop, aluOp, Option.map_some]

/-- All other opcodes are widened and synchronised. -/
theorem Transfers.produces (h : env.Transfers insn x y) (hmov : insn.op ≠ .mov) :
    env.Produces insn x y := by
  obtain ⟨r, u, hadjust, hnear, hresult⟩ := h
  cases hcls : insn.cls with
  | alu64 =>
      obtain ⟨r', hsync, hcontains, hv, hinv⟩ := hnear.sync
      refine ⟨r', u, ?_, ?_, hcontains, hinv, hv⟩
      · simp only [adjustRegMinMaxVals, adjustScalarMinMaxVals, hadjust, hcls, hmov, if_true,
          if_false, Option.bind_eq_bind, Option.bind_some, Option.pure_def, Function.update_self,
          Function.update_idem, hsync]
      · rw [hresult, Insn.widen, if_pos hcls]
  | alu =>
      obtain ⟨r', hsync, hcontains, hv, hinv⟩ := hnear.zext.sync
      refine ⟨r', (u.setWidth 32).setWidth 64, ?_, ?_, hcontains, hinv, hv⟩
      · simp only [adjustRegMinMaxVals, adjustScalarMinMaxVals, hadjust, hcls, hmov, reduceCtorEq,
          if_false, Option.bind_eq_bind, Option.bind_some, Option.pure_def, Function.update_self,
          Function.update_idem, hsync]
      · rw [hresult, Insn.widen, if_neg (by rw [hcls]; decide)]

/-- Soundness of one instruction: the transfer function succeeds, its result
contains the concrete register file, and the environment keeps its invariants. -/
theorem adjustRegMinMaxVals_sound {interpretInsn : Insn → (Reg → BitVec 64) → Reg → BitVec 64}
    (hsem : AluSemantics interpretInsn) {env : VerifierEnv} {cpu : Reg → BitVec 64} {insn : Insn}
    (hop : insn.op.Handled) (hvalid : env.Valid) (hinv : env.Invariants) (hcpu : env.Contains cpu)
    (hassume : env.ShiftAssumption insn) :
    ∃ env', env.adjustRegMinMaxVals insn = some env' ∧ env'.Contains (interpretInsn insn cpu) ∧
      env'.Invariants ∧ env'.Valid := by
  have hargs : env.Operands insn (cpu insn.dst) (cpu insn.src) :=
    ⟨hcpu _, hcpu _, hvalid _, hvalid _, hinv _, hinv _⟩
  have hproduces : env.Produces insn (cpu insn.dst) (cpu insn.src) := by
    by_cases hmov : insn.op = .mov
    · exact produces_mov hargs hmov
    · exact (transfers hargs hassume hop hmov).produces hmov
  obtain ⟨r, z, hadjust, hresult, hcontains, hrinv, hrvalid⟩ := hproduces
  refine ⟨_, hadjust, fun k => ?_, fun k => ?_, fun k => ?_⟩
  · rw [hsem insn cpu z hresult]
    by_cases hk : k = insn.dst
    · rw [hk, Function.update_self, Function.update_self]
      exact hcontains
    · rw [Function.update_of_ne hk, Function.update_of_ne hk]
      exact hcpu k
  · by_cases hk : k = insn.dst
    · rwa [hk, Function.update_self]
    · rw [Function.update_of_ne hk]
      exact hinv k
  · by_cases hk : k = insn.dst
    · rwa [hk, Function.update_self]
    · rw [Function.update_of_ne hk]
      exact hvalid k

/-- The destination is any word, the amount is known. -/
theorem adjustRegMinMaxVals_sound_arsh :
    ∃ env', VerifierEnv.adjustRegMinMaxVals
        (fun r => if r = .r1 then RegState.unknown.markRegKnown 3#64 else .unknown)
        ⟨.alu, .arsh, .r0, .r1⟩ = some env' ∧
      env'.Contains (interpretAlu ⟨.alu, .arsh, .r0, .r1⟩
        (fun r => if r = .r1 then 3#64 else 0x80000010#64)) ∧
      env'.Invariants ∧ env'.Valid :=
  adjustRegMinMaxVals_sound aluSemantics_interpretAlu (by decide) (by decide) (by decide)
    (by decide) (fun _ _ => rfl)

end VerifierEnv

end Exoverifier

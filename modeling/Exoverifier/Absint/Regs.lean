import Exoverifier.Absint.Value

/-! # Abstract register files

One abstract value for each register, as in `bpf/absint/regs.lean`.
-/

namespace Exoverifier.Absint

open Bpf Domain

/-- Abstractions of a register file. -/
class RegsAbstr (α : Type) extends HasGamma (Reg → Value) α, AbstrTop (Reg → Value) α,
    AbstrLe (Reg → Value) α, AbstrJoin (Reg → Value) α α where
  doAlu64 (op : ALU) (dst src : Reg) : AbstrUnaryTransfer
    (fun cregs : Reg → Value => Function.update cregs dst (op.doALU64 (cregs dst) (cregs src))) α α
  doAlu64Check (op : ALU) (dst src : Reg) :
    AbstrUnaryTest (fun cregs : Reg → Value => op.doALU64Check (cregs dst) (cregs src) = true) α
  doAlu64Imm (op : ALU) (dst : Reg) (imm : BitVec 64) : AbstrUnaryTransfer
    (fun cregs : Reg → Value => Function.update cregs dst (op.doALU64 (cregs dst) (.scalar imm)))
    α α
  doAlu64ImmCheck (op : ALU) (dst : Reg) (imm : BitVec 64) :
    AbstrUnaryTest (fun cregs : Reg → Value => op.doALU64Check (cregs dst) (.scalar imm) = true) α
  doJmp64Check (op : JMP) (dst src : Reg) :
    AbstrUnaryTest (fun cregs : Reg → Value => op.doJMP64Check (cregs dst) (cregs src) = true) α
  doJmp64ImmCheck (op : JMP) (dst : Reg) (imm : BitVec 64) :
    AbstrUnaryTest (fun cregs : Reg → Value => op.doJMP64Check (cregs dst) (.scalar imm) = true) α
  invertJmp64Tt (op : JMP) (dst src : Reg) : AbstrUnaryInversion
    (fun cregs : Reg → Value => op.doJMP64 (cregs dst) (cregs src) = true) α (WithBot α)
  isScalar (r : Reg) : AbstrUnaryTest (fun cregs : Reg → Value => (cregs r).IsScalar) α
  doCallCheck (func : BpfFunc) :
    AbstrUnaryTest (fun cregs : Reg → Value => func.doCallCheck cregs = true) α
  doCall (func : BpfFunc) : AbstrUnaryRelation
    (fun pre post : Reg → Value => ∃ (o : Oracle) (nextRng : ℕ), post = func.doCall o nextRng pre)
    α α
  const (rs : Reg → Value) : AbstrNullaryRelation (· = rs) α

namespace Nonrelational

variable {β : Type}

abbrev ARegs (β : Type) : Type := List.Vector β nregs

def interpret (abs : ARegs β) (k : Reg) : β := abs.get k.toFin

theorem interpret_set (abs : ARegs β) (r s : Reg) (b : β) :
    interpret (abs.set r.toFin b) s = if s = r then b else interpret abs s :=
  Reg.get_set abs r s b

variable [ValueAbstr β]

instance : HasGamma (Reg → Value) (ARegs β) where
  γ l := {f | ∀ k, f k ∈ HasGamma.γ (interpret l k)}

/-- Writing a register on both sides. -/
theorem mem_set {l : ARegs β} {f : Reg → Value} {r : Reg} {b : β} {v : Value}
    (hf : f ∈ HasGamma.γ l) (hv : v ∈ HasGamma.γ b) :
    Function.update f r v ∈ HasGamma.γ (l.set r.toFin b) := by
  intro k
  rw [interpret_set]
  by_cases hk : k = r
  · rw [if_pos hk, hk, Function.update_self]
    exact hv
  · rw [if_neg hk, Function.update_of_ne hk]
    exact hf k

def const (rs : Reg → Value) : AbstrNullaryRelation (· = rs) (ARegs β) where
  op := Reg.enum.map fun r => (ValueAbstr.const (rs r)).op
  correct {f} h k := by
    subst h
    show f k ∈ HasGamma.γ ((Reg.enum.map _).get k.toFin)
    rw [List.Vector.get_map, Reg.get_enum]
    exact (ValueAbstr.const (f k)).correct rfl

instance : AbstrLe (Reg → Value) (ARegs β) where
  le a b := ∀ k, AbstrLe.le (interpret a k) (interpret b k)
  decLe a b := decidable_of_iff (∀ r ∈ Reg.enum.toList,
      AbstrLe.le (interpret a r) (interpret b r))
    ⟨fun h r => h r (by cases r <;> decide), fun h r _ => h r⟩
  le_correct h f hf r := AbstrLe.le_correct (h r) (hf r)

instance : AbstrTop (Reg → Value) (ARegs β) where
  top := List.Vector.replicate _ AbstrTop.top
  top_correct f k := by
    show f k ∈ HasGamma.γ ((List.Vector.replicate _ _).get k.toFin)
    rw [List.Vector.get_replicate]
    exact AbstrTop.top_correct (f k)

instance : AbstrJoin (Reg → Value) (ARegs β) (ARegs β) where
  join x y := List.Vector.map₂ AbstrJoin.join x y
  join_correct {x y} f h r := by
    show f r ∈ HasGamma.γ ((List.Vector.map₂ _ x y).get r.toFin)
    rw [List.Vector.get_map₂]
    exact AbstrJoin.join_correct (h.imp (fun h => h r) fun h => h r)

/-! ## Operations -/

def doAlu64Check (op : ALU) (dst src : Reg) : AbstrUnaryTest
    (fun cregs : Reg → Value => op.doALU64Check (cregs dst) (cregs src) = true) (ARegs β) where
  test l := (ValueAbstr.doALU64Check op).test (interpret l dst) (interpret l src)
  test_sound h hf := (ValueAbstr.doALU64Check op).test_sound h (hf dst) (hf src)

def doAlu64ImmCheck (op : ALU) (dst : Reg) (imm : BitVec 64) : AbstrUnaryTest
    (fun cregs : Reg → Value => op.doALU64Check (cregs dst) (.scalar imm) = true) (ARegs β) where
  test l := (ValueAbstr.doALU64Check op).test (interpret l dst)
    (ValueAbstr.const (.scalar imm)).op
  test_sound h hf := (ValueAbstr.doALU64Check op).test_sound h (hf dst)
    ((ValueAbstr.const (.scalar imm)).correct rfl)

def doAlu64 (op : ALU) (dst src : Reg) : AbstrUnaryTransfer
    (fun cregs : Reg → Value => Function.update cregs dst (op.doALU64 (cregs dst) (cregs src)))
    (ARegs β) (ARegs β) where
  op l := l.set dst.toFin ((ValueAbstr.doALU64 op).op (interpret l dst) (interpret l src))
  correct {f g l} hf h := by
    subst h
    exact mem_set hf ((ValueAbstr.doALU64 op).correct (hf dst) (hf src) rfl)

def doAlu64Imm (op : ALU) (dst : Reg) (imm : BitVec 64) : AbstrUnaryTransfer
    (fun cregs : Reg → Value => Function.update cregs dst (op.doALU64 (cregs dst) (.scalar imm)))
    (ARegs β) (ARegs β) where
  op l := l.set dst.toFin ((ValueAbstr.doALU64 op).op (interpret l dst)
    (ValueAbstr.const (.scalar imm)).op)
  correct {f g l} hf h := by
    subst h
    have himm := (ValueAbstr.const (α := β) (.scalar imm)).correct rfl
    exact mem_set hf ((ValueAbstr.doALU64 op).correct (hf dst) himm rfl)

def doJmp64Check (op : JMP) (dst src : Reg) : AbstrUnaryTest
    (fun cregs : Reg → Value => op.doJMP64Check (cregs dst) (cregs src) = true) (ARegs β) where
  test l := (ValueAbstr.doJMP64Check op).test (interpret l dst) (interpret l src)
  test_sound h hf := (ValueAbstr.doJMP64Check op).test_sound h (hf dst) (hf src)

def doJmp64ImmCheck (op : JMP) (dst : Reg) (imm : BitVec 64) : AbstrUnaryTest
    (fun cregs : Reg → Value => op.doJMP64Check (cregs dst) (.scalar imm) = true) (ARegs β) where
  test l := (ValueAbstr.doJMP64Check op).test (interpret l dst)
    (ValueAbstr.const (.scalar imm)).op
  test_sound h hf := (ValueAbstr.doJMP64Check op).test_sound h (hf dst)
    ((ValueAbstr.const (.scalar imm)).correct rfl)

/-- With equal registers the refined source is the one that stays. -/
def invertJmp64Tt (op : JMP) (dst src : Reg) : AbstrUnaryInversion
    (fun cregs : Reg → Value => op.doJMP64 (cregs dst) (cregs src) = true)
    (ARegs β) (WithBot (ARegs β)) where
  inv l :=
    match (ValueAbstr.doJMP64Tt op).inv (interpret l dst) (interpret l src) with
    | ((dst' : β), (src' : β)) => WithBot.some ((l.set dst.toFin dst').set src.toFin src')
    | _ => ⊥
  correct {f l} hf h := by
    have hinv := (ValueAbstr.doJMP64Tt op).correct (hf dst) (hf src) h
    revert hinv
    rcases (ValueAbstr.doJMP64Tt op).inv (interpret l dst) (interpret l src) with
      ⟨dst' | dst', src' | src'⟩
    · exact fun hinv => hinv.1
    · exact fun hinv => hinv.1
    · exact fun hinv => hinv.2
    · intro hinv
      have hset := mem_set (r := src) (mem_set (r := dst) hf hinv.1) hinv.2
      rwa [Function.update_eq_self, Function.update_eq_self] at hset

def isScalar (r : Reg) :
    AbstrUnaryTest (fun cregs : Reg → Value => (cregs r).IsScalar) (ARegs β) where
  test l := ValueAbstr.isScalar.test (interpret l r)
  test_sound h hf := ValueAbstr.isScalar.test_sound h (hf r)

theorem mem_foldl_set {l : ARegs β} {f : Reg → Value} {v : Value} {b : β}
    (hv : v ∈ HasGamma.γ b) (hf : f ∈ HasGamma.γ l) (rs : List Reg) :
    (fun r => if r ∈ rs then v else f r) ∈
      HasGamma.γ (rs.foldl (fun l' r => l'.set r.toFin b) l) := by
  induction rs generalizing f l with
  | nil => simpa using hf
  | cons s rs ih =>
      have hset := ih (mem_set (r := s) hf hv)
      have hfun : (fun r => if r ∈ rs then v else Function.update f s v r) =
          fun r => if r ∈ s :: rs then v else f r := by
        funext r
        by_cases hr : r = s
        · subst hr
          simp
        · simp [hr]
      rwa [hfun] at hset

def doCall (func : BpfFunc) : AbstrUnaryRelation
    (fun pre post : Reg → Value => ∃ (o : Oracle) (nextRng : ℕ), post = func.doCall o nextRng pre)
    (ARegs β) (ARegs β) where
  op l :=
    let l₁ := Reg.callerSaved.foldl
      (fun l' r => l'.set r.toFin (ValueAbstr.const .uninitialized).op) l
    l₁.set Reg.r0.toFin ValueAbstr.unknownScalar.op
  correct {f g l} hf h := by
    obtain ⟨o, nextRng, rfl⟩ := h
    cases func with
    | getPrandomU32 =>
        have hlost := (ValueAbstr.const (α := β) .uninitialized).correct rfl
        exact mem_set (mem_foldl_set hlost hf _) (ValueAbstr.unknownScalar.correct ⟨_, rfl⟩)

def doCallCheck (func : BpfFunc) :
    AbstrUnaryTest (fun cregs : Reg → Value => func.doCallCheck cregs = true) (ARegs β) where
  test _ := true
  test_sound _ _ := by
    cases func
    rfl

instance : RegsAbstr (ARegs β) where
  doAlu64 := doAlu64
  doAlu64Check := doAlu64Check
  doAlu64Imm := doAlu64Imm
  doAlu64ImmCheck := doAlu64ImmCheck
  doJmp64Check := doJmp64Check
  doJmp64ImmCheck := doJmp64ImmCheck
  invertJmp64Tt := invertJmp64Tt
  isScalar := isScalar
  doCallCheck := doCallCheck
  doCall := doCall
  const := const

end Nonrelational

end Exoverifier.Absint

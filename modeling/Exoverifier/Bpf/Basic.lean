import Mathlib

/-! # BPF values and operations

The registers, values and operators of `bpf/basic.lean`. A value is a scalar, a
pointer into an opaque memory region, or uninitialized; every operator comes with
a check that says on which operands it is allowed.
-/

namespace Exoverifier.Bpf

/-- An oracle makes the nondeterministic choices during the run of a program. -/
structure Oracle where
  rng : ℕ → BitVec 64

/-! ## Registers -/

abbrev nregs : ℕ := 12

inductive Reg where
  | r0 | r1 | r2 | r3 | r4 | r5 | r6 | r7 | r8 | r9 | fp | ax
  deriving DecidableEq

namespace Reg

def callerSaved : List Reg := [r0, r1, r2, r3, r4, r5]

def toFin : Reg → Fin nregs
  | r0 => 0 | r1 => 1 | r2 => 2 | r3 => 3 | r4 => 4 | r5 => 5
  | r6 => 6 | r7 => 7 | r8 => 8 | r9 => 9 | fp => 10 | ax => 11

/-- All registers, each at its own index. -/
def enum : List.Vector Reg nregs := ⟨[r0, r1, r2, r3, r4, r5, r6, r7, r8, r9, fp, ax], rfl⟩

theorem get_enum (r : Reg) : enum.get r.toFin = r := by
  cases r <;> rfl

theorem toFin_injective : Function.Injective toFin := fun r s h => by
  rw [← get_enum r, ← get_enum s, h]

/-- Reading a register file after one register was written. -/
theorem get_set {α : Type} (v : List.Vector α nregs) (r s : Reg) (a : α) :
    (v.set r.toFin a).get s.toFin = if s = r then a else v.get s.toFin := by
  by_cases h : s = r
  · rw [if_pos h, h, List.Vector.get_set_same]
  · rw [if_neg h, List.Vector.get_set_of_ne fun e => h (toFin_injective e).symm]

theorem get_foldl_set {α : Type} (l : List Reg) (v : List.Vector α nregs) (s : Reg) (a : α) :
    (l.foldl (fun v r => v.set r.toFin a) v).get s.toFin = if s ∈ l then a else v.get s.toFin := by
  induction l generalizing v with
  | nil => rw [List.foldl_nil, if_neg List.not_mem_nil]
  | cons r l ih =>
      rw [List.foldl_cons, ih, get_set]
      by_cases hs : s ∈ l
      · rw [if_pos hs, if_pos (List.mem_cons_of_mem r hs)]
      · rw [if_neg hs]
        exact if_congr ⟨fun h => h ▸ List.mem_cons_self, fun h =>
          (List.mem_cons.1 h).resolve_right hs⟩ rfl rfl

end Reg

/-! ## Values -/

structure MemRegion where
  deriving DecidableEq

inductive Value where
  | scalar (x : BitVec 64)
  | pointer (m : MemRegion) (off : BitVec 64)
  | uninitialized
  deriving DecidableEq

def Value.IsScalar (v : Value) : Prop := ∃ x, v = .scalar x

/-! ## Arithmetic -/

inductive ALU where
  | add | sub | mul | div | or | and | lsh | rsh | neg | mod | xor | mov | arsh | endian
  deriving DecidableEq

namespace ALU

/-- Division by zero, oversized shifts and byte swaps are not allowed. -/
def doALU64ScalarCheck : ALU → BitVec 64 → BitVec 64 → Bool
  | div, _, y => y ≠ 0
  | mod, _, y => y ≠ 0
  | lsh, _, y => y < 64
  | rsh, _, y => y < 64
  | arsh, _, y => y < 64
  | endian, _, _ => false
  | _, _, _ => true

def doALUPointerScalarCheck : ALU → Bool
  | add => true
  | sub => true
  | mov => true
  | _ => false

def doALU64Check : ALU → Value → Value → Bool
  | op, .scalar x, .scalar y => op.doALU64ScalarCheck x y
  | op, .pointer _ _, .scalar _ => op.doALUPointerScalarCheck
  | op, _, .scalar _ => if op = mov then true else false
  | op, _, .pointer _ _ => if op = mov then true else false
  | _, _, _ => false

/-- The quotient by zero is all ones and the remainder by zero the dividend; an
oversized shift moves every bit out. -/
def doALUScalar {n : ℕ} : ALU → BitVec n → BitVec n → BitVec n
  | add, x, y => x + y
  | sub, x, y => x - y
  | mul, x, y => x * y
  | div, x, y => x.smtUDiv y
  | or, x, y => x ||| y
  | and, x, y => x &&& y
  | lsh, x, y => x <<< y
  | rsh, x, y => x >>> y
  | neg, x, _ => -x
  | mod, x, y => x % y
  | xor, x, y => x ^^^ y
  | mov, _, y => y
  | arsh, x, y => x.sshiftRight y.toNat
  | endian, x, _ => x

def doALU64Scalar : ALU → BitVec 64 → BitVec 64 → BitVec 64 := doALUScalar

def doALUPointerScalar : ALU → MemRegion → BitVec 64 → BitVec 64 → Value
  | add, m, off, val => .pointer m (off + val)
  | sub, m, off, val => .pointer m (off - val)
  | mov, _, _, val => .scalar val
  | _, m, off, _ => .pointer m off

/-- An operation that the check refuses leaves its destination alone. -/
def doALU64 : ALU → Value → Value → Value
  | op, .scalar x, .scalar y => .scalar (op.doALU64Scalar x y)
  | op, .pointer m off, .scalar val => op.doALUPointerScalar m off val
  | mov, _, src => src
  | _, dst, _ => dst

theorem doALU64_mov (x y : Value) : mov.doALU64 x y = y := by
  cases x <;> cases y <;> rfl

theorem doALU64Check_mov (x : Value) {y : Value} (h : y ≠ .uninitialized) :
    mov.doALU64Check x y = true := by
  cases x <;> cases y <;> first | rfl | exact absurd rfl h

end ALU

/-! ## Jumps -/

inductive JMP where
  | jeq | jne | jle | jlt | jge | jgt | jsle | jslt | jsge | jsgt | jset
  deriving DecidableEq

namespace JMP

def doJMP64Check : JMP → Value → Value → Bool
  | _, .scalar _, .scalar _ => true
  | _, _, _ => false

def doJMPScalar {n : ℕ} : JMP → BitVec n → BitVec n → Bool
  | jeq, x, y => x = y
  | jne, x, y => x ≠ y
  | jle, x, y => x ≤ y
  | jlt, x, y => x < y
  | jge, x, y => x ≥ y
  | jgt, x, y => x > y
  | jsle, x, y => x.sle y
  | jslt, x, y => x.slt y
  | jsge, x, y => y.sle x
  | jsgt, x, y => y.slt x
  | jset, x, y => x &&& y ≠ 0

def doJMP64Scalar : JMP → BitVec 64 → BitVec 64 → Bool := doJMPScalar

def doJMP64 : JMP → Value → Value → Bool
  | op, .scalar x, .scalar y => op.doJMP64Scalar x y
  | _, _, _ => false

end JMP

/-! ## Calls -/

inductive BpfFunc where
  | getPrandomU32
  deriving DecidableEq

namespace BpfFunc

def doCallCheck : BpfFunc → (Reg → Value) → Bool
  | getPrandomU32, _ => true

def doCall : BpfFunc → Oracle → ℕ → (Reg → Value) → Reg → Value
  | getPrandomU32, o, nextRng, regs =>
      let regs' : Reg → Value := fun r =>
        if r ∈ Reg.callerSaved then .uninitialized else regs r
      Function.update regs' Reg.r0 (.scalar (o.rng nextRng))

end BpfFunc

/-- Operand sizes of memory instructions. -/
inductive Size where
  | b | h | w | dw
  deriving DecidableEq

end Exoverifier.Bpf

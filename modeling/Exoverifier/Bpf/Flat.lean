import Exoverifier.Bpf.Cfg

/-! # Flat programs

The instructions of `bpf/basic.lean` as they stand in a program, and how
`bpf/cfg.lean` links them into a control-flow graph. Vectors of bits have the
most significant bit first here. Over it stands a semantics of flat programs that
counts instructions in slots of eight bytes, as jump offsets do.
-/

namespace Exoverifier.Bpf.Flat

open Cfg UnorderedMap

/-- A vector of bits with the most significant one first. -/
abbrev MsbVector (n : ℕ) : Type := List.Vector Bool n

inductive Instr where
  | alu64X (op : ALU) (dst src : Reg)
  | alu64K (op : ALU) (dst : Reg) (imm : MsbVector 32)
  | alu32X (op : ALU) (dst src : Reg)
  | alu32K (op : ALU) (dst : Reg) (imm : MsbVector 32)
  | jmp64X (op : JMP) (dst src : Reg) (off : MsbVector 16)
  | jmp64K (op : JMP) (dst : Reg) (imm : MsbVector 32) (off : MsbVector 16)
  | stx (size : Size) (dst src : Reg) (off : MsbVector 16)
  | ldImm (dst : Reg) (imm : MsbVector 64)
  | call (func : BpfFunc)
  | exit
  deriving DecidableEq

/-! ## Linking -/

/-- The word of a vector with the least significant bit first. -/
def ofLsb {n : ℕ} (v : List.Vector Bool n) : BitVec n :=
  (BitVec.ofBoolListLE v.toList).cast v.toList_length

def vectorToNum {n : ℕ} (v : List.Vector Bool n) : Num :=
  v.toList.foldl (fun acc x => if x then acc.bit1 else acc.bit0) 0

def vectorToZNum {n : ℕ} (v : List.Vector Bool (n + 1)) : ZNum :=
  let x : ZNum := (vectorToNum v.tail).toZNum
  if v.head then x - 2 ^ n else x

/-- The slot that a jump at a slot goes to, in 32-bit arithmetic. -/
def jumpOffToJumpTarget (cur : Num) (off : MsbVector 16) : Num :=
  ((vectorToZNum off + 1 + cur.toZNum) % 2 ^ 32).abs

def msbImm32SextToLsbImm64 (v : MsbVector 32) : BitVec 64 :=
  ofLsb (v.reverse ++ List.Vector.replicate 32 v.head)

def msbImm16SextToLsbImm64 (v : MsbVector 16) : BitVec 64 :=
  ofLsb (v.reverse ++ List.Vector.replicate 48 v.head)

/-- The instruction that is inserted for the one at an index. -/
def link (cur : Num) : Instr → Cfg.Instr PosNum
  | .alu64X op dst src => .alu64X op dst src (cur + 1).succ'
  | .alu64K op dst imm => .alu64K op dst (msbImm32SextToLsbImm64 imm) (cur + 1).succ'
  | .alu32X op dst src => .alu32X op dst src (cur + 1).succ'
  -- the immediate is not reversed here, unlike all others
  | .alu32K op dst imm => .alu32K op dst (ofLsb imm) (cur + 1).succ'
  | .stx size dst src off => .stx size dst src (msbImm16SextToLsbImm64 off) (cur + 1).succ'
  -- a wide load takes two slots
  | .ldImm dst imm => .ldImm dst (ofLsb imm.reverse) (cur + 2).succ'
  | .call func => .call func (cur + 1).succ'
  | .jmp64X op dst src off =>
      .jmp64X op dst src (jumpOffToJumpTarget cur off).succ' (cur + 1).succ'
  | .jmp64K op dst imm off =>
      .jmp64K op dst (msbImm32SextToLsbImm64 imm) (jumpOffToJumpTarget cur off).succ'
        (cur + 1).succ'
  | .exit => .exit

def decodeFlatInstr (cur : Num) (pr : Trie (Cfg.Instr PosNum)) (i : Instr) :
    Trie (Cfg.Instr PosNum) :=
  kinsert cur.succ' (link cur i) pr

/-- Every instruction takes one index, a wide load too. -/
def decodeFromFlatAux : List Instr → Num → Trie (Cfg.Instr PosNum) → Trie (Cfg.Instr PosNum)
  | [], _, pr => pr
  | hd :: tl, cur, pr => decodeFromFlatAux tl cur.succ (decodeFlatInstr cur pr hd)

def decodeFromFlat (l : List Instr) : TrieProgram where
  entry := 1
  code := decodeFromFlatAux l 0 .nil

/-! ## Numbers -/

/-- The word of a vector with the most significant bit first. -/
def ofMsb {n : ℕ} (v : MsbVector n) : BitVec n :=
  (BitVec.ofBoolListBE v.toList).cast v.toList_length

/-- The label of an index. -/
def label (n : ℕ) : PosNum := (n : Num).succ'

theorem toNat_label (n : ℕ) : (label n : ℕ) = n + 1 := by
  rw [label, Num.succ'_to_nat, Num.to_of_nat]

theorem label_injective : Function.Injective label := by
  intro m n h
  have hnat : (label m : ℕ) = label n := congrArg _ h
  rw [toNat_label, toNat_label] at hnat
  omega

theorem succ'_eq_label (k : Num) : k.succ' = label k := by
  rw [label, Num.of_to_nat]

theorem getLsbD_ofLsb {n : ℕ} (v : List.Vector Bool n) (i : ℕ) :
    (ofLsb v).getLsbD i = v.toList.getD i false := by
  rw [ofLsb, BitVec.getLsbD_cast, BitVec.getLsbD_ofBoolListLE]

theorem getLsbD_ofMsb {n : ℕ} (v : MsbVector n) {i : ℕ} (hi : i < n) :
    (ofMsb v).getLsbD i = v.toList.reverse.getD i false := by
  have hlen := v.toList_length
  rw [ofMsb, BitVec.getLsbD_cast, BitVec.getLsbD_ofBoolListBE, hlen, decide_eq_true hi,
    Bool.true_and, List.getD_eq_getElem?_getD, List.getD_eq_getElem?_getD,
    List.getElem?_reverse (by omega), hlen]

theorem ofMsb_cons {n : ℕ} (b : Bool) (v : MsbVector n) :
    ofMsb (b ::ᵥ v) = BitVec.cons b (ofMsb v) := by
  apply BitVec.eq_of_toNat_eq
  rw [ofMsb, ofMsb, BitVec.toNat_cast, BitVec.toNat_cons', BitVec.toNat_cast,
    List.Vector.toList_cons, BitVec.ofBoolListBE, BitVec.toNat_cons']
  exact congrArg (b.toNat <<< · + _) v.toList_length

theorem msb_ofMsb {n : ℕ} (v : MsbVector (n + 1)) : (ofMsb v).msb = v.head := by
  obtain ⟨b, w, rfl⟩ := v.exists_eq_cons
  rw [ofMsb_cons, BitVec.msb_cons, List.Vector.head_cons]

/-- Appending the sign extends a word. -/
theorem ofLsb_sext {n m : ℕ} (v : MsbVector (n + 1)) :
    ofLsb (v.reverse ++ List.Vector.replicate m v.head) = (ofMsb v).signExtend (n + 1 + m) := by
  apply BitVec.eq_of_getLsbD_eq
  intro i hi
  have hlen : v.toList.reverse.length = n + 1 := by rw [List.length_reverse, v.toList_length]
  rw [getLsbD_ofLsb, BitVec.getLsbD_signExtend, decide_eq_true hi, Bool.true_and,
    List.Vector.toList_append, List.Vector.toList_reverse, List.getD_eq_getElem?_getD]
  split
  · rename_i hlt
    rw [List.getElem?_append_left (by omega), getLsbD_ofMsb v hlt, List.getD_eq_getElem?_getD]
  · rename_i hge
    have hrep : (List.Vector.replicate m v.head).toList = List.replicate m v.head := rfl
    rw [List.getElem?_append_right (by omega), hlen, hrep, List.getElem?_replicate,
      if_pos (by omega), Option.getD_some, msb_ofMsb]

theorem msbImm32SextToLsbImm64_eq (v : MsbVector 32) :
    msbImm32SextToLsbImm64 v = (ofMsb v).signExtend 64 :=
  ofLsb_sext v

theorem foldl_bit_toNat (l : List Bool) (acc : Num) :
    ((l.foldl (fun acc x => if x then acc.bit1 else acc.bit0) acc : Num) : ℕ) =
      acc * 2 ^ l.length + (BitVec.ofBoolListBE l).toNat := by
  induction l generalizing acc with
  | nil => simp [BitVec.ofBoolListBE]
  | cons b l ih =>
      rw [List.foldl_cons, ih, BitVec.ofBoolListBE, BitVec.toNat_cons', List.length_cons, pow_succ]
      cases b with
      | false =>
          simp only [Bool.false_eq_true, if_false, Num.cast_bit0, Bool.toNat_false, Nat.zero_shiftLeft]
          ring
      | true =>
          simp only [if_true, Num.cast_bit1, Bool.toNat_true, Nat.one_shiftLeft]
          ring

theorem vectorToNum_toNat {n : ℕ} (v : MsbVector n) : (vectorToNum v : ℕ) = (ofMsb v).toNat := by
  rw [vectorToNum, foldl_bit_toNat, ofMsb, BitVec.toNat_cast]
  simp

/-- The signed number of a vector is the one of its word. -/
theorem vectorToZNum_toInt {n : ℕ} (v : MsbVector (n + 1)) :
    (vectorToZNum v : ℤ) = (ofMsb v).toInt := by
  obtain ⟨b, w, rfl⟩ := v.exists_eq_cons
  have hnum : (((vectorToNum w).toZNum : ZNum) : ℤ) = ((ofMsb w).toNat : ℤ) := by
    rw [Num.cast_toZNum, ← vectorToNum_toNat, Num.cast_to_nat]
  rw [BitVec.toInt_eq_msb_cond, ofMsb_cons, BitVec.msb_cons, BitVec.toNat_cons', vectorToZNum,
    List.Vector.head_cons, List.Vector.tail_cons]
  cases b with
  | false => simp [hnum]
  | true =>
      have hpow : (((2 : ZNum) ^ n : ZNum) : ℤ) = 2 ^ n := by norm_cast
      simp only [if_true, ZNum.cast_sub, hnum, hpow, Bool.toNat_true, Nat.one_shiftLeft]
      push_cast
      ring

/-- A jump goes to the slot after it and then by the signed offset, modulo 2^32. -/
theorem jumpOffToJumpTarget_toNat (cur : Num) (off : MsbVector 16) :
    (jumpOffToJumpTarget cur off : ℕ) =
      (((cur : ℕ) + 1 + (ofMsb off).toInt) % 2 ^ 32).toNat := by
  have hcur : ((cur.toZNum : ZNum) : ℤ) = ((cur : ℕ) : ℤ) := by
    rw [Num.cast_toZNum, ← Num.cast_to_nat]
  have hpow : (((2 : ZNum) ^ 32 : ZNum) : ℤ) = 2 ^ 32 := by norm_cast
  rw [jumpOffToJumpTarget, ZNum.abs_to_nat, ZNum.mod_to_int, hpow, ZNum.cast_add, ZNum.cast_add,
    vectorToZNum_toInt, hcur, ZNum.cast_one]
  have hcomm : (ofMsb off).toInt + 1 + ((cur : ℕ) : ℤ) = (cur : ℕ) + 1 + (ofMsb off).toInt := by ring
  rw [hcomm]
  omega

/-! ## Labels -/

/-- A wide load takes two slots. -/
def Instr.width : Instr → ℕ
  | .ldImm _ _ => 2
  | _ => 1

def slots (l : List Instr) : ℕ := (l.map Instr.width).sum

/-- The slot of the instruction at an index. -/
def slot (l : List Instr) (i : ℕ) : ℕ := slots (l.take i)

/-- Only the last instruction may be a wide load. -/
def Narrow (l : List Instr) : Prop := ∀ i ∈ l.dropLast, i.width = 1

theorem Instr.one_le_width (i : Instr) : 1 ≤ i.width := by
  unfold Instr.width
  split <;> omega

theorem length_le_slots (l : List Instr) : l.length ≤ slots l := by
  induction l with
  | nil => exact le_refl 0
  | cons i l ih =>
      have hwidth := i.one_le_width
      unfold slots at *
      rw [List.length_cons, List.map_cons, List.sum_cons]
      omega

theorem slots_eq_length_iff (l : List Instr) :
    slots l = l.length ↔ ∀ i ∈ l, i.width = 1 := by
  induction l with
  | nil => exact iff_of_true rfl (List.forall_mem_nil _)
  | cons i l ih =>
      have hwidth := i.one_le_width
      have hle := length_le_slots l
      rw [List.forall_mem_cons, ← ih]
      unfold slots at *
      rw [List.length_cons, List.map_cons, List.sum_cons]
      omega

theorem lookup_decodeFromFlatAux (l : List Instr) (cur : ℕ) (pr : Trie (Cfg.Instr PosNum))
    (n : ℕ) : lookup (label n) (decodeFromFlatAux l cur pr) =
      (lookup (label n) pr).or (if cur ≤ n then (l[n - cur]?).map (link n) else none) := by
  induction l generalizing cur pr with
  | nil => simp [decodeFromFlatAux]
  | cons i l ih =>
      have hsucc : (cur : Num).succ = ((cur + 1 : ℕ) : Num) := by
        rw [Nat.cast_succ, Num.add_one]
      rw [decodeFromFlatAux, hsucc, ih, decodeFlatInstr, lookup_kinsert]
      by_cases hn : n = cur
      · subst hn
        have hkey : label n = (n : Num).succ' := rfl
        rw [if_pos hkey, if_neg (by omega), if_pos (le_refl n), Nat.sub_self]
        cases lookup (label n) pr <;> rfl
      · have hkey : label n ≠ (cur : Num).succ' := fun h => hn (label_injective h)
        rw [if_neg hkey]
        by_cases hle : cur ≤ n
        · have hidx : n - cur = n - (cur + 1) + 1 := by omega
          rw [if_pos hle, if_pos (by omega), hidx, List.getElem?_cons_succ]
        · rw [if_neg hle, if_neg (by omega)]

/-- The instruction at an index is at the label of the index. -/
theorem lookup_decodeFromFlat (l : List Instr) (n : ℕ) :
    lookup (label n) (decodeFromFlat l).code = (l[n]?).map (link n) := by
  have h := lookup_decodeFromFlatAux l 0 .nil n
  have hnil : lookup (label n) (Trie.nil : Trie (Cfg.Instr PosNum)) = none := Trie.lookup_nil _
  rwa [if_pos (Nat.zero_le n), Nat.sub_zero, hnil, Option.none_or, Nat.cast_zero] at h

theorem slot_of_narrow {l : List Instr} (h : Narrow l) {i : ℕ} (hi : i < l.length) :
    slot l i = i := by
  have htake : l.take i = l.dropLast.take i := by
    rw [List.dropLast_eq_take, List.take_take, Nat.min_eq_left (by omega)]
  have hwidth : ∀ j ∈ l.take i, j.width = 1 := by
    intro j hj
    rw [htake] at hj
    exact h j (List.mem_of_mem_take hj)
  rw [slot, (slots_eq_length_iff _).2 hwidth, List.length_take, Nat.min_eq_left hi.le]

/-- Every instruction is at the label of its slot exactly when no wide load comes
before another instruction. -/
theorem lookup_slot_iff (l : List Instr) :
    (∀ i (h : i < l.length), lookup (label (slot l i)) (decodeFromFlat l).code =
      some (link (slot l i) l[i])) ↔ Narrow l := by
  constructor
  · intro h
    cases hl : l with
    | nil => exact List.forall_mem_nil _
    | cons i tl =>
        -- a wide load would move the slot of the last instruction behind all labels
        have hlast : l.length - 1 < l.length := by
          rw [hl, List.length_cons]
          omega
        have hfound := h _ hlast
        rw [lookup_decodeFromFlat] at hfound
        obtain ⟨j, hj, -⟩ := Option.map_eq_some_iff.1 hfound
        obtain ⟨hbound, -⟩ := List.getElem?_eq_some_iff.1 hj
        have hslots : slots l.dropLast = l.dropLast.length := by
          have hle := length_le_slots l.dropLast
          have hslot : slot l (l.length - 1) = slots l.dropLast := by
            rw [slot, List.dropLast_eq_take]
          rw [List.length_dropLast] at *
          omega
        rw [← hl]
        exact (slots_eq_length_iff _).1 hslots
  · intro h i hi
    rw [slot_of_narrow h hi, lookup_decodeFromFlat, List.getElem?_eq_getElem hi]
    rfl

/-! ## Semantics -/

/-- The instruction at a slot. -/
def fetch : List Instr → ℕ → Option Instr
  | [], _ => none
  | i :: _, 0 => some i
  | i :: tl, pc + 1 => if i.width ≤ pc + 1 then fetch tl (pc + 1 - i.width) else none

def target (pc : ℕ) (off : MsbVector 16) : ℕ := ((pc + 1 + (ofMsb off).toInt) % 2 ^ 32).toNat

/-- Steps over slots. As in the graph, 32-bit operations, stores and wide loads have
no rule, so a run that reaches one of them is stuck. -/
inductive Step (l : List Instr) (o : Oracle) : State ℕ → State ℕ → Prop where
  | alu64X (s : RunState ℕ) {op : ALU} {dst src : Reg}
      (hfetch : fetch l s.pc = some (.alu64X op dst src))
      (check : op.doALU64Check (s.regs dst) (s.regs src) = true) :
      Step l o (.running s) (.running { s with
        pc := s.pc + 1
        regs := Function.update s.regs dst (op.doALU64 (s.regs dst) (s.regs src)) })
  | alu64K (s : RunState ℕ) {op : ALU} {dst : Reg} {imm : MsbVector 32}
      (hfetch : fetch l s.pc = some (.alu64K op dst imm))
      (check : op.doALU64Check (s.regs dst) (.scalar ((ofMsb imm).signExtend 64)) = true) :
      Step l o (.running s) (.running { s with
        pc := s.pc + 1
        regs := Function.update s.regs dst
          (op.doALU64 (s.regs dst) (.scalar ((ofMsb imm).signExtend 64))) })
  | jmp64X (s : RunState ℕ) {op : JMP} {dst src : Reg} {off : MsbVector 16}
      (hfetch : fetch l s.pc = some (.jmp64X op dst src off))
      (check : op.doJMP64Check (s.regs dst) (s.regs src) = true) :
      Step l o (.running s) (.running { s with
        pc := if op.doJMP64 (s.regs dst) (s.regs src) then target s.pc off else s.pc + 1 })
  | jmp64K (s : RunState ℕ) {op : JMP} {dst : Reg} {imm : MsbVector 32} {off : MsbVector 16}
      (hfetch : fetch l s.pc = some (.jmp64K op dst imm off))
      (check : op.doJMP64Check (s.regs dst) (.scalar ((ofMsb imm).signExtend 64)) = true) :
      Step l o (.running s) (.running { s with
        pc := if op.doJMP64 (s.regs dst) (.scalar ((ofMsb imm).signExtend 64))
          then target s.pc off else s.pc + 1 })
  | call (s : RunState ℕ) {func : BpfFunc}
      (hfetch : fetch l s.pc = some (.call func))
      (check : func.doCallCheck s.regs = true) :
      Step l o (.running s) (.running {
        pc := s.pc + 1
        regs := func.doCall o s.nextRng s.regs
        nextRng := s.nextRng + 1 })
  | exit (s : RunState ℕ) {ret : BitVec 64}
      (hfetch : fetch l s.pc = some .exit)
      (result : s.regs .r0 = .scalar ret) :
      Step l o (.running s) (.exited ret)

def initialState : State ℕ :=
  .running { pc := 0, regs := fun _ => .uninitialized, nextRng := 0 }

/-- No run from the first slot gets stuck, whether for a failed check, for a slot
without an instruction or for an instruction without a rule. -/
def SafeWithOracle (l : List Instr) (o : Oracle) : Prop :=
  ∀ s, Relation.ReflTransGen (Step l o) initialState s →
    (∃ s', Step l o s s') ∨ ∃ r, s = .exited r

theorem fetch_of_narrow {l : List Instr} (h : Narrow l) (pc : ℕ) : fetch l pc = l[pc]? := by
  induction l generalizing pc with
  | nil => rfl
  | cons i l ih =>
      cases pc with
      | zero => rfl
      | succ pc =>
          cases l with
          | nil =>
              unfold fetch
              split <;> rfl
          | cons j l =>
              have hi : i.width = 1 := h i List.mem_cons_self
              have htail : Narrow (j :: l) := fun k hk => h k (List.mem_cons_of_mem i hk)
              rw [fetch, hi, if_pos (by omega), Nat.add_sub_cancel, ih htail]
              rfl

/-! ## The graph and the slots -/

/-- A state with the labels of its slots. -/
def relabel : State ℕ → State PosNum
  | .running s => .running { pc := label s.pc, regs := s.regs, nextRng := s.nextRng }
  | .exited ret => .exited ret

section Refinement

variable {l : List Instr} {o : Oracle}

theorem jump_eq_label (n : ℕ) (off : MsbVector 16) :
    (jumpOffToJumpTarget n off).succ' = label (target n off) := by
  rw [succ'_eq_label, jumpOffToJumpTarget_toNat, Num.to_of_nat]
  rfl

/-- The instruction of a slot with the labels of the slots it leads to. -/
def linked (pc : ℕ) : Instr → Cfg.Instr PosNum
  | .alu64X op dst src => .alu64X op dst src (label (pc + 1))
  | .alu64K op dst imm => .alu64K op dst ((ofMsb imm).signExtend 64) (label (pc + 1))
  | .jmp64X op dst src off => .jmp64X op dst src (label (target pc off)) (label (pc + 1))
  | .jmp64K op dst imm off =>
      .jmp64K op dst ((ofMsb imm).signExtend 64) (label (target pc off)) (label (pc + 1))
  | .call func => .call func (label (pc + 1))
  | i => link pc i

theorem link_eq_linked (pc : ℕ) (i : Instr) : link pc i = linked pc i := by
  have hnext : ((pc : Num) + 1).succ' = label (pc + 1) := by rw [label, Nat.cast_succ]
  cases i with
  | alu64X op dst src => rw [link, linked, hnext]
  | alu64K op dst imm => rw [link, linked, hnext, msbImm32SextToLsbImm64_eq]
  | jmp64X op dst src off => rw [link, linked, hnext, jump_eq_label]
  | jmp64K op dst imm off => rw [link, linked, hnext, jump_eq_label, msbImm32SextToLsbImm64_eq]
  | call func => rw [link, linked, hnext]
  | _ => rfl

theorem lookup_of_fetch (h : Narrow l) (pc : ℕ) :
    lookup (label pc) (decodeFromFlat l).code = (fetch l pc).map (linked pc) := by
  rw [fetch_of_narrow h, lookup_decodeFromFlat]
  exact Option.map_congr fun i _ => link_eq_linked pc i

theorem Step.graph (h : Narrow l) {s s' : State ℕ} (hstep : Step l o s s') :
    Cfg.Step (decodeFromFlat l) o (relabel s) (relabel s') := by
  have hlookup : ∀ {pc i}, fetch l pc = some i →
      lookup (label pc) (decodeFromFlat l).code = some (linked pc i) := by
    intro pc i hfetch
    rw [lookup_of_fetch h, hfetch]
    rfl
  cases hstep with
  | alu64X s hfetch check => exact .alu64X _ (hlookup hfetch) check
  | alu64K s hfetch check => exact .alu64K _ (hlookup hfetch) check
  | jmp64X s hfetch check =>
      unfold relabel
      dsimp only
      rw [apply_ite label]
      exact .jmp64X { pc := label s.pc, regs := s.regs, nextRng := s.nextRng } (hlookup hfetch) check
  | jmp64K s hfetch check =>
      unfold relabel
      dsimp only
      rw [apply_ite label]
      exact .jmp64K { pc := label s.pc, regs := s.regs, nextRng := s.nextRng } (hlookup hfetch) check
  | call s hfetch check => exact .call _ (hlookup hfetch) check
  | exit s hfetch result => exact .exit _ (hlookup hfetch) result

/-- The graph takes the steps of the flat program and no others. -/
theorem step_decodeFromFlat_iff (h : Narrow l) {s : State ℕ} {t : State PosNum} :
    Cfg.Step (decodeFromFlat l) o (relabel s) t ↔ ∃ s', Step l o s s' ∧ t = relabel s' := by
  constructor
  · intro hstep
    have hexists : ∃ s', Step l o s s' := by
      cases s with
      | exited ret => cases hstep
      | running s =>
          have hfetch : ∀ {i}, lookup (label s.pc) (decodeFromFlat l).code = some i →
              ∃ j, fetch l s.pc = some j ∧ linked s.pc j = i := by
            intro i hi
            rw [lookup_of_fetch h] at hi
            exact Option.map_eq_some_iff.1 hi
          cases hstep with
          | alu64X _ fetch check =>
              obtain ⟨j, hj, hlink⟩ := hfetch fetch
              cases j <;> cases hlink
              exact ⟨_, .alu64X s hj check⟩
          | alu64K _ fetch check =>
              obtain ⟨j, hj, hlink⟩ := hfetch fetch
              cases j <;> cases hlink
              exact ⟨_, .alu64K s hj check⟩
          | jmp64X _ fetch check =>
              obtain ⟨j, hj, hlink⟩ := hfetch fetch
              cases j <;> cases hlink
              exact ⟨_, .jmp64X s hj check⟩
          | jmp64K _ fetch check =>
              obtain ⟨j, hj, hlink⟩ := hfetch fetch
              cases j <;> cases hlink
              exact ⟨_, .jmp64K s hj check⟩
          | call _ fetch check =>
              obtain ⟨j, hj, hlink⟩ := hfetch fetch
              cases j <;> cases hlink
              exact ⟨_, .call s hj check⟩
          | exit _ fetch result =>
              obtain ⟨j, hj, hlink⟩ := hfetch fetch
              cases j <;> cases hlink
              exact ⟨_, .exit s hj result⟩
    obtain ⟨s', hs'⟩ := hexists
    exact ⟨s', hs', hstep.deterministic (hs'.graph h)⟩
  · intro ⟨s', hs', ht⟩
    exact ht ▸ hs'.graph h

theorem star_decodeFromFlat_iff (h : Narrow l) {s : State ℕ} {t : State PosNum} :
    Cfg.Star (decodeFromFlat l) o (relabel s) t ↔
      ∃ s', Relation.ReflTransGen (Step l o) s s' ∧ t = relabel s' := by
  constructor
  · intro hstar
    induction hstar with
    | refl => exact ⟨s, .refl, rfl⟩
    | tail _ hstep ih =>
        obtain ⟨u, hu, rfl⟩ := ih
        obtain ⟨s', hs', rfl⟩ := (step_decodeFromFlat_iff h).1 hstep
        exact ⟨s', hu.tail hs', rfl⟩
  · rintro ⟨s', hs', rfl⟩
    exact hs'.lift relabel fun _ _ hstep => hstep.graph h

theorem safeState_relabel_iff (h : Narrow l) (s : State ℕ) :
    Cfg.SafeState (decodeFromFlat l) o (relabel s) ↔
      (∃ s', Step l o s s') ∨ ∃ r, s = .exited r := by
  refine or_congr ?_ ?_
  · constructor
    · intro ⟨t, ht⟩
      obtain ⟨s', hs', -⟩ := (step_decodeFromFlat_iff h).1 ht
      exact ⟨s', hs'⟩
    · intro ⟨s', hs'⟩
      exact ⟨_, hs'.graph h⟩
  · cases s with
    | running s => exact iff_of_false nofun nofun
    | exited r => exact iff_of_true ⟨r, rfl⟩ ⟨r, rfl⟩

theorem safeWithOracle_of_graph (h : Narrow l)
    (hgraph : Cfg.SafeWithOracle (decodeFromFlat l) o) : SafeWithOracle l o := by
  intro s hs
  exact (safeState_relabel_iff h s).1 (hgraph _ ((star_decodeFromFlat_iff h).2 ⟨s, hs, rfl⟩))

/-- A flat program without wide loads before its end is safe exactly when its graph is. -/
theorem safeWithOracle_decodeFromFlat_iff (h : Narrow l) :
    Cfg.SafeWithOracle (decodeFromFlat l) o ↔ SafeWithOracle l o := by
  have hinit : Cfg.initialState (decodeFromFlat l) = relabel initialState := rfl
  constructor
  · exact safeWithOracle_of_graph h
  · intro hflat t ht
    rw [hinit] at ht
    obtain ⟨s, hs, rfl⟩ := (star_decodeFromFlat_iff h).1 ht
    exact (safeState_relabel_iff h s).2 (hflat s hs)

end Refinement

/-- The offset of a jump over one slot. -/
def overOne : MsbVector 16 := ⟨List.replicate 15 false ++ [true], rfl⟩

/-- A jump on a random number, by a comparison with the immediate -1, to a wide load. -/
def wideEnd : List Instr :=
  [.call .getPrandomU32,
    .jmp64K .jeq .r0 (List.Vector.replicate 32 true) overOne, .exit,
    .ldImm .r0 (List.Vector.replicate 64 true)]

theorem safeWithOracle_decodeFromFlat_iff_wideEnd :
    Cfg.SafeWithOracle (decodeFromFlat wideEnd) ⟨fun _ => 0⟩ ↔
      SafeWithOracle wideEnd ⟨fun _ => 0⟩ := by
  have h : Narrow wideEnd := by
    unfold Narrow
    decide
  exact safeWithOracle_decodeFromFlat_iff h

/-- A jump over a wide load to an addition of an uninitialized register. -/
def detour : List Instr :=
  [.alu64K .mov .r0 (List.Vector.replicate 32 false),
    .jmp64K .jeq .r0 (List.Vector.replicate 32 false)
      ⟨List.replicate 14 false ++ [true, true], rfl⟩,
    .exit, .ldImm .r1 (List.Vector.replicate 64 false), .alu64X .add .r0 .r1, .exit]

/-- The registers after the first instruction. -/
def detourRegs : Reg → Value :=
  Function.update (fun _ => .uninitialized) .r0 (ALU.mov.doALU64 .uninitialized (.scalar 0))

/-- In the graph the jump lands behind the addition. -/
theorem safe_decodeFromFlat_detour (o : Oracle) :
    Cfg.SafeWithOracle (decodeFromFlat detour) o ∧ ¬ SafeWithOracle detour o := by
  constructor
  · have hmov : lookup 1 (decodeFromFlat detour).code = some (.alu64K .mov .r0 0 2) := by
      decide +kernel
    have hjmp : lookup 2 (decodeFromFlat detour).code = some (.jmp64K .jeq .r0 0 6 3) := by
      decide +kernel
    have hexit : lookup 6 (decodeFromFlat detour).code = some .exit := by decide +kernel
    refine safeFromState_of_step (.alu64K ⟨1, _, 0⟩ hmov rfl) ?_
    refine safeFromState_of_step (.jmp64K ⟨2, detourRegs, 0⟩ hjmp rfl) ?_
    exact safeFromState_of_step (.exit ⟨6, detourRegs, 0⟩ hexit rfl) safeFromState_exited
  · intro hsafe
    have hzero : (ofMsb (List.Vector.replicate 32 false)).signExtend 64 = 0 := by decide +kernel
    have hmov : Step detour o initialState (.running ⟨1, detourRegs, 0⟩) := by
      have h := Step.alu64K (l := detour) (o := o) ⟨0, fun _ => .uninitialized, 0⟩ rfl rfl
      rwa [hzero] at h
    have hjmp : Step detour o (.running ⟨1, detourRegs, 0⟩) (.running ⟨5, detourRegs, 0⟩) := by
      have h := Step.jmp64K (l := detour) (o := o) ⟨1, detourRegs, 0⟩ rfl rfl
      rwa [hzero] at h
    cases hsafe _ (.tail (.single hmov) hjmp) with
    | inl h =>
        obtain ⟨s', hs'⟩ := h
        cases hs' with
        | alu64X _ hfetch check =>
            cases hfetch
            cases check
        | alu64K _ hfetch _ => cases hfetch
        | jmp64X _ hfetch _ => cases hfetch
        | jmp64K _ hfetch _ => cases hfetch
        | call _ hfetch _ => cases hfetch
        | exit _ hfetch _ => cases hfetch
    | inr h =>
        obtain ⟨r, hr⟩ := h
        cases hr

end Exoverifier.Bpf.Flat

import Exoverifier.Bpf.Flat

/-! # Decoding programs

The decoder of `bpf/decode.lean`. A program is a list of bits, eight bytes for an
instruction with the most significant bit first, and a wide load takes eight more
bytes. The decoder checks the opcode and both register fields and ignores the
other fields that an instruction does not use.
-/

namespace Exoverifier.Bpf.Flat

/-! ## Fields -/

def decodeReg : List Bool → Option Reg
  | [false, false, false, false] => some .r0
  | [false, false, false, true] => some .r1
  | [false, false, true, false] => some .r2
  | [false, false, true, true] => some .r3
  | [false, true, false, false] => some .r4
  | [false, true, false, true] => some .r5
  | [false, true, true, false] => some .r6
  | [false, true, true, true] => some .r7
  | [true, false, false, false] => some .r8
  | [true, false, false, true] => some .r9
  | [true, false, true, false] => some .fp
  | [true, false, true, true] => some .ax
  | _ => none

def decodeAluOp : List Bool → Option ALU
  | [false, false, false, false] => some .add
  | [false, false, false, true] => some .sub
  | [false, false, true, false] => some .mul
  | [false, false, true, true] => some .div
  | [false, true, false, false] => some .or
  | [false, true, false, true] => some .and
  | [false, true, true, false] => some .lsh
  | [false, true, true, true] => some .rsh
  | [true, false, false, false] => some .neg
  | [true, false, false, true] => some .mod
  | [true, false, true, false] => some .xor
  | [true, false, true, true] => some .mov
  | [true, true, false, false] => some .arsh
  | [true, true, false, true] => some .endian
  | _ => none

/-- The operations 0x8 and 0x9 are calls and exits. -/
def decodeJmpOp : List Bool → Option JMP
  | [false, false, false, true] => some .jeq
  | [false, false, true, false] => some .jgt
  | [false, false, true, true] => some .jge
  | [false, true, false, false] => some .jset
  | [false, true, false, true] => some .jne
  | [false, true, true, false] => some .jsgt
  | [false, true, true, true] => some .jsge
  | [true, false, true, false] => some .jlt
  | [true, false, true, true] => some .jle
  | [true, true, false, false] => some .jslt
  | [true, true, false, true] => some .jsle
  | _ => none

def decodeJmp64X (dst src : Reg) (off : MsbVector 16) (op : List Bool) : Option Instr := do
  let op' ← decodeJmpOp op
  return .jmp64X op' dst src off

/-- The only function is number seven. -/
def decodeCall (imm : List Bool) : Option Instr :=
  if imm = List.replicate 29 false ++ List.replicate 3 true then some (.call .getPrandomU32)
  else none

def decodeJmp64K (dst : Reg) (imm : MsbVector 32) (off : MsbVector 16) :
    List Bool → Option Instr
  | [true, false, false, false] => decodeCall imm.toList
  | [true, false, false, true] => some .exit
  | op => do
      let op' ← decodeJmpOp op
      return .jmp64K op' dst imm off

def decodeMemSize : List Bool → Option Size
  | [false, false] => some .w
  | [false, true] => some .h
  | [true, false] => some .b
  | [true, true] => some .dw
  | _ => none

/-- The low four bits of an opcode are the class of the instruction. -/
def decodeOp (imm : MsbVector 32) (off : MsbVector 16) (dst src : Reg) :
    List Bool → Option Instr
  | [op₁, op₂, op₃, op₄, true, true, true, true] => do
      let op ← decodeAluOp [op₁, op₂, op₃, op₄]
      return .alu64X op dst src
  | [op₁, op₂, op₃, op₄, false, true, true, true] => do
      let op ← decodeAluOp [op₁, op₂, op₃, op₄]
      return .alu64K op dst imm
  | [op₁, op₂, op₃, op₄, true, true, false, false] => do
      let op ← decodeAluOp [op₁, op₂, op₃, op₄]
      return .alu32X op dst src
  | [op₁, op₂, op₃, op₄, false, true, false, false] => do
      let op ← decodeAluOp [op₁, op₂, op₃, op₄]
      return .alu32K op dst imm
  | [false, true, true, size₁, size₂, false, true, true] => do
      let size ← decodeMemSize [size₁, size₂]
      return .stx size dst src off
  | [op₁, op₂, op₃, op₄, true, true, false, true] => decodeJmp64X dst src off [op₁, op₂, op₃, op₄]
  | [op₁, op₂, op₃, op₄, false, true, false, true] =>
      decodeJmp64K dst imm off [op₁, op₂, op₃, op₄]
  | _ => none

/-! ## Instructions -/

/-- The first bits of a list and the rest of it. -/
def takeBits : (n : ℕ) → List Bool → Option (List.Vector Bool n × List Bool)
  | 0, l => some (.nil, l)
  | _ + 1, [] => none
  | n + 1, b :: l => do
      let (v, rest) ← takeBits n l
      return (b ::ᵥ v, rest)

/-- The upper half of a wide immediate, in a word that is zero otherwise. -/
def decodeLdImmSecondInstr (l : List Bool) : Option (MsbVector 32) := do
  let (imm32, l) ← takeBits 32 l
  let (zeros, _) ← takeBits 32 l
  if zeros = List.Vector.replicate 32 false then some imm32 else none

def isLdImm (op : List Bool) : Bool :=
  op = [false, false, false, true, true, false, false, false]

/-- Drop a number of bits, then decode. The bits of a decoded instruction are
dropped one by one too. -/
def decodeCore : ℕ → List Bool → List Instr → Option (List Instr)
  | n + 1, _ :: tl, is => decodeCore n tl is
  | 0, b :: tl, is => do
      let (imm32, l) ← takeBits 32 (b :: tl)
      let (off16, l) ← takeBits 16 l
      let (src, l) ← takeBits 4 l
      let (dst, l) ← takeBits 4 l
      let (op, rest) ← takeBits 8 l
      let dst ← decodeReg dst.toList
      let src ← decodeReg src.toList
      if isLdImm op.toList then
        let immHigh ← decodeLdImmSecondInstr rest
        decodeCore (63 + 64) tl (.ldImm dst (immHigh ++ imm32) :: is)
      else
        let i ← decodeOp imm32 off16 dst src op.toList
        decodeCore 63 tl (i :: is)
  | 0, [], is => some is
  | _ + 1, [], _ => none

/-- Decode a list of bits as a list of instructions. -/
def decode (l : List Bool) : Option (List Instr) := (decodeCore 0 l []).map List.reverse

theorem takeBits_append {n : ℕ} (v : List.Vector Bool n) (l : List Bool) :
    takeBits n (v.toList ++ l) = some (v, l) := by
  induction n with
  | zero =>
      rw [v.eq_nil]
      rfl
  | succ n ih =>
      obtain ⟨b, w, rfl⟩ := v.exists_eq_cons
      rw [List.Vector.toList_cons, List.cons_append, takeBits, ih w]
      rfl

/-- Dropping passes over a list of the length that is dropped. -/
theorem decodeCore_drop (l₁ l₂ : List Bool) (n : ℕ) (is : List Instr) :
    decodeCore (l₁.length + n) (l₁ ++ l₂) is = decodeCore n l₂ is := by
  induction l₁ with
  | nil => rw [List.length_nil, Nat.zero_add, List.nil_append]
  | cons b l₁ ih =>
      rw [List.length_cons, List.cons_append, Nat.add_right_comm, decodeCore]
      exact ih

/-- The bits of an instruction by their fields. -/
def word (imm : MsbVector 32) (off : MsbVector 16) (src dst : MsbVector 4) (op : MsbVector 8) :
    List Bool :=
  imm.toList ++ (off.toList ++ (src.toList ++ (dst.toList ++ op.toList)))

theorem length_word (imm : MsbVector 32) (off : MsbVector 16) (src dst : MsbVector 4)
    (op : MsbVector 8) : (word imm off src dst op).length = 64 := by
  simp [word]

/-- Decoding a list that starts with the fields of an instruction. -/
theorem decodeCore_word (imm : MsbVector 32) (off : MsbVector 16) (src dst : MsbVector 4)
    (op : MsbVector 8) (rest : List Bool) (is : List Instr) :
    decodeCore 0 (word imm off src dst op ++ rest) is = (do
      let dst ← decodeReg dst.toList
      let src ← decodeReg src.toList
      if isLdImm op.toList then
        let immHigh ← decodeLdImmSecondInstr rest
        decodeCore 64 rest (.ldImm dst (immHigh ++ imm) :: is)
      else
        let i ← decodeOp imm off dst src op.toList
        decodeCore 0 rest (i :: is)) := by
  have hlen := length_word imm off src dst op
  cases hword : word imm off src dst op with
  | nil =>
      rw [hword] at hlen
      cases hlen
  | cons b tl =>
      rw [hword, List.length_cons] at hlen
      have htl : tl.length = 63 := by omega
      have hdrop : ∀ n js, decodeCore (63 + n) (tl ++ rest) js = decodeCore n rest js := by
        intro n js
        rw [← htl, decodeCore_drop]
      have hbits : b :: (tl ++ rest) = imm.toList ++ (off.toList ++ (src.toList ++
          (dst.toList ++ (op.toList ++ rest)))) := by
        rw [← List.cons_append, ← hword, word]
        simp only [List.append_assoc]
      rw [List.cons_append, decodeCore, hbits]
      simp only [takeBits_append, Option.bind_eq_bind, Option.bind_some, hdrop 64]
      have hdrop0 := hdrop 0
      rw [Nat.add_zero] at hdrop0
      simp only [hdrop0]

/-! ## Encoding -/

/-- The four bits of a number. -/
def nibble (n : ℕ) : MsbVector 4 :=
  ⟨[n.testBit 3, n.testBit 2, n.testBit 1, n.testBit 0], rfl⟩

def encodeReg (r : Reg) : MsbVector 4 := nibble r.toFin

def encodeAluOp : ALU → MsbVector 4
  | .add => nibble 0
  | .sub => nibble 1
  | .mul => nibble 2
  | .div => nibble 3
  | .or => nibble 4
  | .and => nibble 5
  | .lsh => nibble 6
  | .rsh => nibble 7
  | .neg => nibble 8
  | .mod => nibble 9
  | .xor => nibble 10
  | .mov => nibble 11
  | .arsh => nibble 12
  | .endian => nibble 13

def encodeJmpOp : JMP → MsbVector 4
  | .jeq => nibble 1
  | .jgt => nibble 2
  | .jge => nibble 3
  | .jset => nibble 4
  | .jne => nibble 5
  | .jsgt => nibble 6
  | .jsge => nibble 7
  | .jlt => nibble 10
  | .jle => nibble 11
  | .jslt => nibble 12
  | .jsle => nibble 13

/-- The opcode of a store. -/
def encodeStx : Size → MsbVector 8
  | .w => nibble 6 ++ nibble 3
  | .h => nibble 6 ++ nibble 11
  | .b => nibble 7 ++ nibble 3
  | .dw => nibble 7 ++ nibble 11

def high (imm : MsbVector 64) : MsbVector 32 := ⟨imm.toList.take 32, by simp⟩

def low (imm : MsbVector 64) : MsbVector 32 := ⟨imm.toList.drop 32, by simp⟩

def zeros (n : ℕ) : MsbVector n := List.Vector.replicate n false

/-- The bits of an instruction, with zeros in the fields that it does not use. -/
def encode : Instr → List Bool
  | .alu64X op dst src =>
      word (zeros 32) (zeros 16) (encodeReg src) (encodeReg dst) (encodeAluOp op ++ nibble 15)
  | .alu64K op dst imm =>
      word imm (zeros 16) (zeros 4) (encodeReg dst) (encodeAluOp op ++ nibble 7)
  | .alu32X op dst src =>
      word (zeros 32) (zeros 16) (encodeReg src) (encodeReg dst) (encodeAluOp op ++ nibble 12)
  | .alu32K op dst imm =>
      word imm (zeros 16) (zeros 4) (encodeReg dst) (encodeAluOp op ++ nibble 4)
  | .jmp64X op dst src off =>
      word (zeros 32) off (encodeReg src) (encodeReg dst) (encodeJmpOp op ++ nibble 13)
  | .jmp64K op dst imm off =>
      word imm off (zeros 4) (encodeReg dst) (encodeJmpOp op ++ nibble 5)
  | .stx size dst src off =>
      word (zeros 32) off (encodeReg src) (encodeReg dst) (encodeStx size)
  | .ldImm dst imm =>
      word (low imm) (zeros 16) (zeros 4) (encodeReg dst) (nibble 1 ++ nibble 8) ++
        word (high imm) (zeros 16) (zeros 4) (zeros 4) (zeros 8)
  | .call .getPrandomU32 =>
      word (zeros 29 ++ List.Vector.replicate 3 true) (zeros 16) (zeros 4) (zeros 4)
        (nibble 8 ++ nibble 5)
  | .exit => word (zeros 32) (zeros 16) (zeros 4) (zeros 4) (nibble 9 ++ nibble 5)

theorem decodeReg_encodeReg (r : Reg) : decodeReg (encodeReg r).toList = some r := by
  cases r <;> rfl

theorem decodeReg_zeros : decodeReg (zeros 4).toList = some .r0 := rfl

/-- The opcode of an instruction other than a wide load. -/
theorem decodeCore_encode (i : Instr) (rest : List Bool) (is : List Instr) :
    decodeCore 0 (encode i ++ rest) is = decodeCore 0 rest (i :: is) := by
  cases i with
  | alu64X op dst src =>
      rw [encode, decodeCore_word, decodeReg_encodeReg, decodeReg_encodeReg]
      cases op <;> rfl
  | alu64K op dst imm =>
      rw [encode, decodeCore_word, decodeReg_encodeReg, decodeReg_zeros]
      cases op <;> rfl
  | alu32X op dst src =>
      rw [encode, decodeCore_word, decodeReg_encodeReg, decodeReg_encodeReg]
      cases op <;> rfl
  | alu32K op dst imm =>
      rw [encode, decodeCore_word, decodeReg_encodeReg, decodeReg_zeros]
      cases op <;> rfl
  | jmp64X op dst src off =>
      rw [encode, decodeCore_word, decodeReg_encodeReg, decodeReg_encodeReg]
      cases op <;> rfl
  | jmp64K op dst imm off =>
      rw [encode, decodeCore_word, decodeReg_encodeReg, decodeReg_zeros]
      cases op <;> rfl
  | stx size dst src off =>
      rw [encode, decodeCore_word, decodeReg_encodeReg, decodeReg_encodeReg]
      cases size <;> rfl
  | call func =>
      cases func
      rw [encode, decodeCore_word, decodeReg_zeros]
      rfl
  | exit =>
      rw [encode, decodeCore_word, decodeReg_zeros]
      rfl
  | ldImm dst imm =>
      have hsecond : decodeLdImmSecondInstr
          (word (high imm) (zeros 16) (zeros 4) (zeros 4) (zeros 8) ++ rest) = some (high imm) := by
        have hzeros : (zeros 16).toList ++ ((zeros 4).toList ++ ((zeros 4).toList ++
            ((zeros 8).toList ++ rest))) = (zeros 32).toList ++ rest := rfl
        rw [decodeLdImmSecondInstr, word]
        simp only [List.append_assoc, takeBits_append, Option.bind_eq_bind, Option.bind_some]
        rw [hzeros]
        simp only [takeBits_append, Option.bind_some, zeros, if_true]
      have himm : high imm ++ low imm = imm := Subtype.ext (List.take_append_drop 32 imm.toList)
      have hop : isLdImm (nibble 1 ++ nibble 8).toList = true := rfl
      have hdrop := decodeCore_drop (word (high imm) (zeros 16) (zeros 4) (zeros 4) (zeros 8)) rest
        0 (.ldImm dst imm :: is)
      rw [length_word, Nat.add_zero] at hdrop
      rw [encode, List.append_assoc, decodeCore_word, decodeReg_encodeReg, decodeReg_zeros]
      simp only [Option.bind_eq_bind, Option.bind_some, hop, if_true, hsecond, himm]
      exact hdrop

theorem decodeCore_flatMap_encode (l is : List Instr) :
    decodeCore 0 (l.flatMap encode) is = some (l.reverse ++ is) := by
  induction l generalizing is with
  | nil => rfl
  | cons i l ih =>
      rw [List.flatMap_cons, decodeCore_encode, ih, List.reverse_cons, List.append_assoc]
      rfl

theorem width_of_decodeJmp64K {dst : Reg} {imm : MsbVector 32} {off : MsbVector 16}
    {op : List Bool} {i : Instr} (h : decodeJmp64K dst imm off op = some i) : i.width = 1 := by
  unfold decodeJmp64K at h
  split at h
  · rw [decodeCall] at h
    split at h <;> cases h
    rfl
  · cases h
    rfl
  · obtain ⟨op', -, h⟩ := Option.bind_eq_some_iff.1 h
    cases h
    rfl

/-- No opcode that reaches the table of classes is a wide load. -/
theorem width_of_decodeOp {imm : MsbVector 32} {off : MsbVector 16} {dst src : Reg}
    {op : List Bool} {i : Instr} (h : decodeOp imm off dst src op = some i) : i.width = 1 := by
  unfold decodeOp at h
  split at h
  case h_7 => exact width_of_decodeJmp64K h
  case h_8 => cases h
  all_goals
    obtain ⟨op', -, h⟩ := Option.bind_eq_some_iff.1 h
    cases h
    rfl

/-- What is accepted fills whole slots. -/
theorem length_of_decodeCore {n : ℕ} {l : List Bool} {is out : List Instr}
    (h : decodeCore n l is = some out) :
    ∃ js, out = js.reverse ++ is ∧ l.length = n + 64 * slots js := by
  induction l generalizing n is with
  | nil =>
      cases n with
      | zero =>
          cases h
          exact ⟨[], rfl, rfl⟩
      | succ n => cases h
  | cons b tl ih =>
      cases n with
      | succ n =>
          obtain ⟨js, hout, hlen⟩ := ih h
          exact ⟨js, hout, by rw [List.length_cons, hlen]; omega⟩
      | zero =>
          rw [decodeCore] at h
          simp only [Option.bind_eq_bind, Option.bind_eq_some_iff] at h
          obtain ⟨⟨imm32, l₁⟩, -, ⟨off16, l₂⟩, -, ⟨src, l₃⟩, -, ⟨dst, l₄⟩, -, ⟨op, rest⟩, -, h⟩ := h
          obtain ⟨dst, -, src, -, h⟩ := h
          split at h
          · obtain ⟨immHigh, -, h⟩ := Option.bind_eq_some_iff.1 h
            obtain ⟨js, hout, hlen⟩ := ih h
            refine ⟨.ldImm dst (immHigh ++ imm32) :: js, ?_, ?_⟩
            · rw [hout, List.reverse_cons, List.append_assoc]
              rfl
            · have hslots : slots (.ldImm dst (immHigh ++ imm32) :: js) = 2 + slots js := rfl
              rw [List.length_cons, hlen, hslots]
              omega
          · obtain ⟨i, hop, h⟩ := Option.bind_eq_some_iff.1 h
            obtain ⟨js, hout, hlen⟩ := ih h
            refine ⟨i :: js, ?_, ?_⟩
            · rw [hout, List.reverse_cons, List.append_assoc]
              rfl
            · have hslots : slots (i :: js) = i.width + slots js := rfl
              rw [List.length_cons, hlen, hslots, width_of_decodeOp hop]
              omega

theorem decode_flatMap_encode (l : List Instr) : decode (l.flatMap encode) = some l := by
  rw [decode, decodeCore_flatMap_encode, List.append_nil, Option.map_some, List.reverse_reverse]

theorem length_of_decode {b : List Bool} {l : List Instr} (h : decode b = some l) :
    b.length = 64 * slots l := by
  rw [decode, Option.map_eq_some_iff] at h
  obtain ⟨out, hout, rfl⟩ := h
  obtain ⟨js, rfl, hlen⟩ := length_of_decodeCore hout
  rw [hlen, List.append_nil, List.reverse_reverse, Nat.zero_add]

/-- Every program is read back from its bits, and what is decoded fills eight bytes
for every slot of the program. -/
theorem decode_round_trip : (∀ l : List Instr, decode (l.flatMap encode) = some l) ∧
    ∀ (b : List Bool) (l : List Instr), decode b = some l → b.length = 64 * slots l :=
  ⟨decode_flatMap_encode, fun _ _ => length_of_decode⟩

end Exoverifier.Bpf.Flat

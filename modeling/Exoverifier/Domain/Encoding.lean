import Exoverifier.Domain.Tnum
import Exoverifier.Tnum.Arith
import Exoverifier.Tnum.Cbmc

/-! # The two representations of a tnum

A vector of ternary digits is stored as a value/mask pair: an unknown digit has
its mask bit set and its value bit clear. The encoding is a bijection onto the
valid pairs under which the operators of the two domains are the same. For the
adders, the rippled carry digit is the join of the carries of the two extreme
sums the word formulas compare.
-/

namespace Exoverifier.Domain

open Library

variable {n N : ℕ}

namespace Trit

def valueBit (t : Trit) : Bool := t == some true

def maskBit (t : Trit) : Bool := t == none

def ofBits (value mask : Bool) : Trit := if mask then none else some value

end Trit

/-! ## The encoding -/

/-- The pair that stores a vector of digits. -/
def encodePair (t : Tnum n) : Exoverifier.Tnum n :=
  ⟨BitVec.ofFnLE fun i => (t.get i).valueBit, BitVec.ofFnLE fun i => (t.get i).maskBit⟩

theorem encodePair_value (t : Tnum n) {i : ℕ} (hi : i < n) :
    (encodePair t).value.getLsbD i = (t.get ⟨i, hi⟩).valueBit := by
  rw [encodePair, BitVec.getLsbD_ofFnLE, dif_pos hi]

theorem encodePair_mask (t : Tnum n) {i : ℕ} (hi : i < n) :
    (encodePair t).mask.getLsbD i = (t.get ⟨i, hi⟩).maskBit := by
  rw [encodePair, BitVec.getLsbD_ofFnLE, dif_pos hi]

theorem encodePair_valid (t : Tnum n) : TnumValid (encodePair t) := by
  have hdigit : ∀ d : Trit, d.maskBit = true → d.valueBit = false := by decide
  refine tnumValid_iff.2 fun i hi => ?_
  rw [encodePair_value t hi, encodePair_mask t hi]
  exact hdigit _

def encode (t : Tnum n) : ValidTnum n := ⟨encodePair t, encodePair_valid t⟩

/-- The digit a pair stores at a position. -/
def digit (A : Exoverifier.Tnum n) (i : ℕ) : Trit :=
  Trit.ofBits (A.value.getLsbD i) (A.mask.getLsbD i)

def decode (A : Exoverifier.Tnum n) : Tnum n := List.Vector.ofFn fun i => digit A i

theorem get_decode (A : Exoverifier.Tnum n) (i : Fin n) : (decode A).get i = digit A i :=
  List.Vector.get_ofFn _ i

theorem digit_encode (t : Tnum n) {i : ℕ} (hi : i < n) :
    digit (encode t).1 i = t.get ⟨i, hi⟩ := by
  have hdigit : ∀ d : Trit, Trit.ofBits d.valueBit d.maskBit = d := by decide
  rw [digit, encode, encodePair_value t hi, encodePair_mask t hi]
  exact hdigit _

theorem decode_encode (t : Tnum n) : decode (encode t).1 = t := by
  refine List.Vector.ext fun i => ?_
  rw [get_decode, digit_encode t i.isLt]

/-- A vector is stored as the pair whose bits its digits give. -/
theorem encode_eq {t : Tnum n} {A : Exoverifier.Tnum n}
    (hvalue : ∀ i (hi : i < n), (t.get ⟨i, hi⟩).valueBit = A.value.getLsbD i)
    (hmask : ∀ i (hi : i < n), (t.get ⟨i, hi⟩).maskBit = A.mask.getLsbD i) :
    (encode t).1 = A := by
  have h1 : (encodePair t).value = A.value :=
    BitVec.eq_of_getLsbD_eq fun i hi => (encodePair_value t hi).trans (hvalue i hi)
  have h2 : (encodePair t).mask = A.mask :=
    BitVec.eq_of_getLsbD_eq fun i hi => (encodePair_mask t hi).trans (hmask i hi)
  cases A
  exact congrArg₂ Exoverifier.Tnum.mk h1 h2

theorem encode_decode {A : Exoverifier.Tnum n} (hA : TnumValid A) : (encode (decode A)).1 = A := by
  have hdigit : ∀ v m : Bool, (m = true → v = false) →
      (Trit.ofBits v m).valueBit = v ∧ (Trit.ofBits v m).maskBit = m := by decide
  have hbits := fun i (hi : i < n) => hdigit _ _ (tnumValid_iff.1 hA i hi)
  refine encode_eq (fun i hi => ?_) (fun i hi => ?_)
  · rw [get_decode]
    exact (hbits i hi).1
  · rw [get_decode]
    exact (hbits i hi).2

theorem encode_bijective : Function.Bijective (@encode n) := by
  constructor
  · intro s t h
    rw [← decode_encode s, ← decode_encode t, h]
  · intro A
    exact ⟨decode A.1, Subtype.ext (encode_decode A.2)⟩

theorem mem_γ_iff (t : Tnum n) (x : BitVec n) : bits x ∈ t.γ ↔ TnumContains (encode t).1 x := by
  have hdigit : ∀ (d : Trit) (b : Bool), b ∈ d.γ ↔ d.maskBit = true ∨ d.valueBit = b := by
    intro d b
    match d with
    | none => simp [Trit.γ, Trit.maskBit]
    | some y => cases y <;> cases b <;> simp [Trit.γ, Trit.maskBit, Trit.valueBit]
  rw [tnumContains_iff]
  have hbit : ∀ i (hi : i < n), bits x ⟨i, hi⟩ ∈ (t.get ⟨i, hi⟩).γ ↔
      ((encode t).1.mask.getLsbD i = true ∨ (encode t).1.value.getLsbD i = x.getLsbD i) := by
    intro i hi
    rw [encode, encodePair_value t hi, encodePair_mask t hi]
    exact hdigit _ _
  exact ⟨fun h i hi => (hbit i hi).1 (h ⟨i, hi⟩), fun h i => (hbit i i.isLt).2 (h i i.isLt)⟩

/-! ## Operators that work digit by digit -/

/-- A digitwise operator is stored as the pair operator whose bits are the bits
of its digit results. -/
theorem encode_map₂ (valueOp maskOp : Bool → Bool → Bool → Bool → Bool) {op : Trit → Trit → Trit}
    {wordOp : Exoverifier.Tnum n → Exoverifier.Tnum n → Exoverifier.Tnum n}
    (hvalue : ∀ A B i, i < n → (wordOp A B).value.getLsbD i = valueOp (A.value.getLsbD i)
      (A.mask.getLsbD i) (B.value.getLsbD i) (B.mask.getLsbD i))
    (hmask : ∀ A B i, i < n → (wordOp A B).mask.getLsbD i = maskOp (A.value.getLsbD i)
      (A.mask.getLsbD i) (B.value.getLsbD i) (B.mask.getLsbD i))
    (hop : ∀ p q, (op p q).valueBit = valueOp p.valueBit p.maskBit q.valueBit q.maskBit ∧
      (op p q).maskBit = maskOp p.valueBit p.maskBit q.valueBit q.maskBit) (a b : Tnum n) :
    (encode (List.Vector.map₂ op a b)).1 = wordOp (encode a).1 (encode b).1 := by
  refine encode_eq (fun i hi => ?_) (fun i hi => ?_)
  · rw [List.Vector.get_map₂, hvalue _ _ i hi, encode, encode, encodePair_value a hi,
      encodePair_mask a hi, encodePair_value b hi, encodePair_mask b hi]
    exact (hop _ _).1
  · rw [List.Vector.get_map₂, hmask _ _ i hi, encode, encode, encodePair_value a hi,
      encodePair_mask a hi, encodePair_value b hi, encodePair_mask b hi]
    exact (hop _ _).2

theorem encode_and (a b : Tnum n) : (encode (a.and b)).1 = tnumAnd (encode a).1 (encode b).1 := by
  refine encode_map₂ (fun av _ bv _ => av && bv)
    (fun av am bv bm => (av || am) && (bv || bm) && !(av && bv)) ?_ ?_ (by decide) a b
  · intro A B i _
    simp only [tnumAnd, BitVec.getLsbD_and]
  · intro A B i hi
    simp only [tnumAnd, BitVec.getLsbD_and, BitVec.getLsbD_or, BitVec.getLsbD_not,
      decide_eq_true hi, Bool.true_and]

theorem encode_or (a b : Tnum n) : (encode (a.or b)).1 = tnumOr (encode a).1 (encode b).1 := by
  refine encode_map₂ (fun av _ bv _ => av || bv)
    (fun av am bv bm => (am || bm) && !(av || bv)) ?_ ?_ (by decide) a b
  · intro A B i _
    simp only [tnumOr, BitVec.getLsbD_or]
  · intro A B i hi
    simp only [tnumOr, BitVec.getLsbD_and, BitVec.getLsbD_or, BitVec.getLsbD_not,
      decide_eq_true hi, Bool.true_and]

theorem encode_xor (a b : Tnum n) : (encode (a.xor b)).1 = tnumXor (encode a).1 (encode b).1 := by
  refine encode_map₂ (fun av am bv bm => (av ^^ bv) && !(am || bm))
    (fun _ am _ bm => am || bm) ?_ ?_ (by decide) a b
  · intro A B i hi
    simp only [tnumXor, BitVec.getLsbD_and, BitVec.getLsbD_or, BitVec.getLsbD_xor,
      BitVec.getLsbD_not, decide_eq_true hi, Bool.true_and]
  · intro A B i _
    simp only [tnumXor, BitVec.getLsbD_or]

theorem encode_join (a b : Tnum n) :
    (encode (a.join b)).1 = tnumUnion (encode a).1 (encode b).1 := by
  refine encode_map₂ (fun av am bv bm => av && !(am || bm || (av ^^ bv)))
    (fun av am bv bm => am || bm || (av ^^ bv)) ?_ ?_ (by decide) a b
  · intro A B i hi
    simp only [tnumUnion, BitVec.getLsbD_and, BitVec.getLsbD_or, BitVec.getLsbD_xor,
      BitVec.getLsbD_not, decide_eq_true hi, Bool.true_and]
  · intro A B i _
    simp only [tnumUnion, BitVec.getLsbD_or, BitVec.getLsbD_xor]

theorem encode_not (b : Tnum n) : (encode b.not).1 = complement (encode b).1 := by
  have hvalue : ∀ d : Trit, d.not.valueBit = !(d.valueBit || d.maskBit) := by decide
  have hmask : ∀ d : Trit, d.not.maskBit = d.maskBit := by decide
  refine encode_eq (fun i hi => ?_) (fun i hi => ?_)
  · rw [Tnum.not, List.Vector.get_map, hvalue, complement, BitVec.getLsbD_not, getLsbD_top,
      decide_eq_true hi, Bool.true_and, encode, encodePair_value b hi, encodePair_mask b hi]
  · rw [Tnum.not, List.Vector.get_map, hmask, complement, encode, encodePair_mask b hi]

/-- Away from bottom the meet is the intersection. -/
theorem encode_meet {a b t : Tnum n} (h : a.meet b = some t) :
    (encode t).1 = tnumIntersect (encode a).1 (encode b).1 := by
  have hop : ∀ p q d : Trit, Trit.meet p q = some d →
      d.valueBit = ((p.valueBit || q.valueBit) && !(p.maskBit && q.maskBit)) ∧
        d.maskBit = (p.maskBit && q.maskBit) := by decide
  have hdigits := fun i (hi : i < n) => hop _ _ _ (Tnum.get_meet h ⟨i, hi⟩)
  refine encode_eq (fun i hi => ?_) (fun i hi => ?_)
  · simp only [tnumIntersect, BitVec.getLsbD_and, BitVec.getLsbD_or, BitVec.getLsbD_not,
      decide_eq_true hi, Bool.true_and, encode, encodePair_value a hi, encodePair_value b hi,
      encodePair_mask a hi, encodePair_mask b hi]
    exact (hdigits i hi).1
  · simp only [tnumIntersect, BitVec.getLsbD_and, encode, encodePair_mask a hi,
      encodePair_mask b hi]
    exact (hdigits i hi).2

theorem le_iff_tnumIn (a b : Tnum n) :
    a.le b ↔ tnumIn (encode b).1 (encode a).1 = true := by
  have hdigit : ∀ p q : Trit, Trit.le p q ↔ (p.maskBit && !q.maskBit) = false ∧
      q.valueBit = (p.valueBit && !q.maskBit) := by decide
  have hin : ∀ A B : Exoverifier.Tnum n, tnumIn A B = true ↔
      B.mask &&& ~~~A.mask = 0#n ∧ A.value = B.value &&& ~~~A.mask := by
    intro A B
    rw [tnumIn]
    split <;> simp_all
  have hbits : ∀ i (hi : i < n), Trit.le (a.get ⟨i, hi⟩) (b.get ⟨i, hi⟩) ↔
      ((encode a).1.mask &&& ~~~(encode b).1.mask).getLsbD i = (0#n).getLsbD i ∧
        (encode b).1.value.getLsbD i =
          ((encode a).1.value &&& ~~~(encode b).1.mask).getLsbD i := by
    intro i hi
    simp only [BitVec.getLsbD_and, BitVec.getLsbD_not, BitVec.getLsbD_zero, decide_eq_true hi,
      Bool.true_and, encode, encodePair_value a hi, encodePair_value b hi,
      encodePair_mask a hi, encodePair_mask b hi]
    exact hdigit _ _
  rw [hin]
  constructor
  · intro h
    have h' := fun i (hi : i < n) => (hbits i hi).1 (h ⟨i, hi⟩)
    exact ⟨BitVec.eq_of_getLsbD_eq fun i hi => (h' i hi).1,
      BitVec.eq_of_getLsbD_eq fun i hi => (h' i hi).2⟩
  · rintro ⟨hmask, hvalue⟩ i
    refine (hbits i i.isLt).2 ⟨?_, ?_⟩
    · rw [hmask]
    · rw [← hvalue]

/-! ## The ripple adder -/

/-- One full adder over digits, when the carry digit joins the carries of the
two extreme sums: the sum digit is known if both summand digits are and the
extreme sums agree, and the next carry digit again joins the extreme carries. -/
theorem fullAdd_extremes : ∀ va ma vb mb clo chi : Bool, (ma = true → va = false) →
    (mb = true → vb = false) → (clo = true → chi = true) →
    Trit.fullAdd (Trit.ofBits va ma) (Trit.ofBits vb mb) (Trit.join (some clo) (some chi)) =
      (Trit.ofBits
          ((va ^^ (vb ^^ clo)) && !((((va || ma) ^^ ((vb || mb) ^^ chi)) ^^
            (va ^^ (vb ^^ clo))) || ma || mb))
          ((((va || ma) ^^ ((vb || mb) ^^ chi)) ^^ (va ^^ (vb ^^ clo))) || ma || mb),
        Trit.join (some (va.atLeastTwo vb clo))
          (some ((va || ma).atLeastTwo (vb || mb) chi))) := by
  decide

/-- The carry digit into bit `i`: the join of the carries of the two extreme sums. -/
def carryDigit (c : Bool) (A B : Exoverifier.Tnum N) (i : ℕ) : Trit :=
  Trit.join (some (BitVec.carry i A.value B.value c)) (some (BitVec.carry i A.top B.top c))

theorem fullAdd_digit (c : Bool) {A B : Exoverifier.Tnum N} (hA : TnumValid A) (hB : TnumValid B)
    {i : ℕ} (hi : i < N) :
    Trit.fullAdd (digit A i) (digit B i) (carryDigit c A B i) =
      (digit (addCarryTnum c A B) i, carryDigit c A B (i + 1)) := by
  have hmono : BitVec.carry i A.value B.value c = true → BitVec.carry i A.top B.top c = true := by
    refine carry_mono c (fun j _ hv => ?_) (fun j _ hv => ?_)
    · rw [getLsbD_top, hv, Bool.true_or]
    · rw [getLsbD_top, hv, Bool.true_or]
  have hvalue : (addCarryTnum c A B).value =
    addCarry c A.value B.value &&& ~~~(addCarryTnum c A B).mask := rfl
  have hstep := fullAdd_extremes _ _ _ _ _ _ (tnumValid_iff.1 hA i hi) (tnumValid_iff.1 hB i hi)
    hmono
  rw [digit, digit, carryDigit, hstep, carryDigit, BitVec.carry_succ, BitVec.carry_succ, digit,
    hvalue, BitVec.getLsbD_and, BitVec.getLsbD_not, decide_eq_true hi, Bool.true_and,
    getLsbD_addCarryTnum_mask, getLsbD_addCarry c _ _ hi, getLsbD_addCarry c _ _ hi,
    getLsbD_top, getLsbD_top]

/-- The ripple adder over the digits from position `s` on computes the digits of
the word adder. -/
theorem get_adc (c : Bool) {A B : Exoverifier.Tnum N} (hA : TnumValid A) (hB : TnumValid B) :
    ∀ {n : ℕ} (a b : Tnum n) (s : ℕ), s + n ≤ N →
      (∀ i : Fin n, a.get i = digit A (s + i)) → (∀ i : Fin n, b.get i = digit B (s + i)) →
      ∀ i : Fin n, (Tnum.adc a b (carryDigit c A B s)).get i = digit (addCarryTnum c A B) (s + i)
  | 0, _, _, _, _, _, _, i => i.elim0
  | n + 1, a, b, s, hs, ha, hb, i => by
      have ha0 : a.head = digit A s := by rw [← List.Vector.get_zero, ha 0, Fin.val_zero, Nat.add_zero]
      have hb0 : b.head = digit B s := by rw [← List.Vector.get_zero, hb 0, Fin.val_zero, Nat.add_zero]
      have hstep := fullAdd_digit c hA hB (by omega : s < N)
      simp only [Tnum.adc, ha0, hb0, hstep]
      cases i using Fin.cases with
      | zero => rw [List.Vector.get_cons_zero, Fin.val_zero, Nat.add_zero]
      | succ i =>
          rw [List.Vector.get_cons_succ, Fin.val_succ, show s + (↑i + 1) = s + 1 + ↑i by omega]
          refine get_adc c hA hB a.tail b.tail (s + 1) (by omega) (fun j => ?_) (fun j => ?_) i
          · rw [List.Vector.get_tail_succ, ha, Fin.val_succ]
            congr 1
            omega
          · rw [List.Vector.get_tail_succ, hb, Fin.val_succ]
            congr 1
            omega

theorem encode_adc (c : Bool) (a b : Tnum n) :
    (encode (Tnum.adc a b (some c))).1 = addCarryTnum c (encode a).1 (encode b).1 := by
  have hvalid : TnumValid (addCarryTnum c (encode a).1 (encode b).1) := valid_of_masked _ _
  have hcarry : carryDigit c (encode a).1 (encode b).1 0 = some c := by
    rw [carryDigit, BitVec.carry_zero, BitVec.carry_zero, Trit.join, if_pos rfl]
  have hdecode : Tnum.adc a b (some c) = decode (addCarryTnum c (encode a).1 (encode b).1) := by
    refine List.Vector.ext fun i => ?_
    rw [get_decode, ← hcarry]
    have hget := get_adc c (encode a).2 (encode b).2 a b 0 (by omega)
      (fun j => by rw [Nat.zero_add, digit_encode a j.isLt])
      (fun j => by rw [Nat.zero_add, digit_encode b j.isLt]) i
    rwa [Nat.zero_add] at hget
  rw [hdecode, encode_decode hvalid]

theorem encode_add (a b : Tnum n) : (encode (a.add b)).1 = tnumAdd (encode a).1 (encode b).1 := by
  rw [Tnum.add, encode_adc, tnumAdd_eq (encode a).2 (encode b).2]

theorem encode_sub (a b : Tnum n) : (encode (a.sub b)).1 = tnumSub (encode a).1 (encode b).1 := by
  rw [Tnum.sub, encode_adc, encode_not, tnumSub_eq (encode a).2 (encode b).2]

/-! ## Agreement of the two domains -/

/-- The encoding is a bijection onto the valid pairs that preserves membership,
and under it the operators of the two domains are the same; the union of the C
file, whose text differs, is the same as well. -/
theorem domains_agree (n : ℕ) :
    Function.Bijective (@encode n) ∧ Function.Bijective (@bits n) ∧
      (∀ (t : Tnum n) (x : BitVec n), bits x ∈ t.γ ↔ TnumContains (encode t).1 x) ∧
      (∀ a b : Tnum n,
        (encode (a.add b)).1 = tnumAdd (encode a).1 (encode b).1 ∧
        (encode (a.sub b)).1 = tnumSub (encode a).1 (encode b).1 ∧
        (encode (a.and b)).1 = tnumAnd (encode a).1 (encode b).1 ∧
        (encode (a.or b)).1 = tnumOr (encode a).1 (encode b).1 ∧
        (encode (a.xor b)).1 = tnumXor (encode a).1 (encode b).1 ∧
        (encode (a.join b)).1 = tnumUnion (encode a).1 (encode b).1 ∧
        (a.le b ↔ tnumIn (encode b).1 (encode a).1 = true) ∧
        ∀ t, a.meet b = some t → (encode t).1 = tnumIntersect (encode a).1 (encode b).1) ∧
      ∀ a b : Tnum 64, (encode (a.join b)).1 = Cbmc.tnumUnion (encode a).1 (encode b).1 :=
  ⟨encode_bijective, bits_bijective, mem_γ_iff,
    fun a b => ⟨encode_add a b, encode_sub a b, encode_and a b, encode_or a b, encode_xor a b,
      encode_join a b, le_iff_tnumIn a b, fun _ h => encode_meet h⟩,
    fun a b => (encode_join a b).trans (Cbmc.tnumUnion_eq _ _).symm⟩

/-- Two digits that meet away from bottom: a known one against an unknown one. -/
theorem domains_agree_meet : ∃ t, Tnum.meet (some true ::ᵥ none ::ᵥ List.Vector.nil)
      (none ::ᵥ none ::ᵥ List.Vector.nil) = some t ∧
    (encode t).1 = tnumIntersect (encode (some true ::ᵥ none ::ᵥ List.Vector.nil)).1
      (encode (none ::ᵥ none ::ᵥ List.Vector.nil)).1 :=
  ⟨some true ::ᵥ none ::ᵥ List.Vector.nil, rfl,
    ((domains_agree 2).2.2.2.1 _ _).2.2.2.2.2.2.2 _ rfl⟩

end Exoverifier.Domain

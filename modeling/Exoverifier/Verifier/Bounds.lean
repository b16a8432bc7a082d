import Exoverifier.Library.WordOrder
import Exoverifier.Tnum.Arith

/-! # Unsigned and signed bounds of one width

The verifier keeps four bounds for the 64-bit value of a register and four for
its low 32 bits, and updates both groups by the same text. Here that text is
written once, over any width. Soundness is stated against a weaker relation
than containment: after a bitwise AND the signed maximum may be a copy of an
unsigned one with its top bit set, which the next synchronisation repairs.
-/

namespace Exoverifier

open Library

variable {w : ℕ}

def sMin (w : ℕ) : BitVec w := 1#w <<< (w - 1)

def sMax (w : ℕ) : BitVec w := ~~~sMin w

def uMax (w : ℕ) : BitVec w := -1#w

/-- Bounds on a word, each an extreme value of one of the two orders. -/
structure Bounds (w : ℕ) where
  umin : BitVec w
  umax : BitVec w
  smin : BitVec w
  smax : BitVec w
  deriving DecidableEq, Repr

namespace Bounds

def Contains (b : Bounds w) (x : BitVec w) : Prop :=
  b.umin ≤ x ∧ x ≤ b.umax ∧ b.smin.sle x = true ∧ x.sle b.smax = true

instance (b : Bounds w) (x : BitVec w) : Decidable (b.Contains x) :=
  inferInstanceAs (Decidable (_ ∧ _ ∧ _ ∧ _))

/-- No bound of `b'` is looser than the one of `b`. -/
def Tighter (b' b : Bounds w) : Prop :=
  b.umin ≤ b'.umin ∧ b'.umax ≤ b.umax ∧ b.smin.sle b'.smin = true ∧ b'.smax.sle b.smax = true

def unbounded (w : ℕ) : Bounds w := ⟨0#w, uMax w, sMin w, sMax w⟩

def known (imm : BitVec w) : Bounds w := ⟨imm, imm, imm, imm⟩

/-- Refine the bounds by the least and greatest words of a tnum. -/
def update (b : Bounds w) (t : Tnum w) : Bounds w where
  smin := bvsmax b.smin (t.value ||| (t.mask &&& sMin w))
  smax := bvsmin b.smax (t.value ||| (t.mask &&& sMax w))
  umin := bvumax b.umin t.value
  umax := bvumin b.umax (t.value ||| t.mask)

/-- Refine signed and unsigned bounds by each other where the sign is known. -/
def deduce (b : Bounds w) : Bounds w :=
  if (0#w).sle b.smin || b.smax.slt 0#w then
    let newmin := bvumax b.smin b.umin
    let newmax := bvumin b.smax b.umax
    ⟨newmin, newmax, newmin, newmax⟩
  else if (0#w).sle b.umax then
    let newmax := bvumin b.smax b.umax
    ⟨b.umin, newmax, b.umin, newmax⟩
  else if b.umin.slt 0#w then
    let newmin := bvumax b.smin b.umin
    ⟨newmin, b.umax, newmin, b.umax⟩
  else b

/-! ## Bounds of sums and differences -/

def add (dst src : Bounds w) : Bounds w :=
  let signed :=
    if signedAddOverflows dst.smin src.smin || signedAddOverflows dst.smax src.smax then
      (sMin w, sMax w)
    else (dst.smin + src.smin, dst.smax + src.smax)
  let unsigned :=
    if dst.umin + src.umin < src.umin ∨ dst.umax + src.umax < src.umax then (0#w, uMax w)
    else (dst.umin + src.umin, dst.umax + src.umax)
  ⟨unsigned.1, unsigned.2, signed.1, signed.2⟩

def sub (dst src : Bounds w) : Bounds w :=
  let signed :=
    if signedSubOverflows dst.smin src.smax || signedSubOverflows dst.smax src.smin then
      (sMin w, sMax w)
    else (dst.smin - src.smax, dst.smax - src.smin)
  let unsigned :=
    if dst.umin < src.umax then (0#w, uMax w)
    else (dst.umin - src.umax, dst.umax - src.umin)
  ⟨unsigned.1, unsigned.2, signed.1, signed.2⟩

/-! ## Bounds of bitwise results

The word arguments are the least and greatest words of the tnum of the result. -/

def and (least : BitVec w) (dst src : Bounds w) : Bounds w :=
  let umin := least
  let umax := bvumin dst.umax src.umax
  if dst.smin.slt 0#w || src.smin.slt 0#w then ⟨umin, umax, sMin w, sMax w⟩
  else ⟨umin, umax, umin, umax⟩

def or (greatest : BitVec w) (dst src : Bounds w) : Bounds w :=
  let umin := bvumax dst.umin src.umin
  let umax := greatest
  if dst.smin.slt 0#w || src.smin.slt 0#w then ⟨umin, umax, sMin w, sMax w⟩
  else ⟨umin, umax, umin, umax⟩

def xor (least greatest : BitVec w) (dst src : Bounds w) : Bounds w :=
  let umin := least
  let umax := greatest
  if (0#w).sle dst.smin && (0#w).sle src.smin then ⟨umin, umax, umin, umax⟩
  else ⟨umin, umax, sMin w, sMax w⟩

/-! ## Membership as arithmetic -/

theorem contains_iff {b : Bounds w} {x : BitVec w} :
    b.Contains x ↔ (b.umin.toNat ≤ x.toNat ∧ x.toNat ≤ b.umax.toNat) ∧
      b.smin.toInt ≤ x.toInt ∧ x.toInt ≤ b.smax.toInt := by
  rw [Contains, BitVec.sle_iff_toInt_le, BitVec.sle_iff_toInt_le, and_assoc]
  rfl

theorem tighter_iff {b' b : Bounds w} :
    b'.Tighter b ↔ b.umin.toNat ≤ b'.umin.toNat ∧ b'.umax.toNat ≤ b.umax.toNat ∧
      b.smin.toInt ≤ b'.smin.toInt ∧ b'.smax.toInt ≤ b.smax.toInt := by
  rw [Tighter, BitVec.sle_iff_toInt_le, BitVec.sle_iff_toInt_le]
  rfl

theorem Tighter.trans {a b c : Bounds w} (h : a.Tighter b) (h' : b.Tighter c) : a.Tighter c := by
  rw [tighter_iff] at *
  omega

theorem Tighter.contains {b' b : Bounds w} (h : b'.Tighter b) {x : BitVec w}
    (hx : b'.Contains x) : b.Contains x := by
  rw [tighter_iff] at h
  rw [contains_iff] at *
  omega

/-- Containment except that the signed maximum may have wrapped: the word is
known not to be negative, by the signed minimum and by the greatest word `top`
of its tnum, while the maximum is negative. -/
structure Near (b : Bounds w) (top x : BitVec w) : Prop where
  umin : b.umin.toNat ≤ x.toNat
  umax : x.toNat ≤ b.umax.toNat
  smin : b.smin.toInt ≤ x.toInt
  smax : x.toInt ≤ b.smax.toInt ∨
    (0 ≤ b.smin.toInt ∧ 0 ≤ top.toInt ∧ b.smax.toInt < 0)

theorem Contains.near {b : Bounds w} {x : BitVec w} (h : b.Contains x) (top : BitVec w) :
    b.Near top x := by
  obtain ⟨⟨humin, humax⟩, hsmin, hsmax⟩ := contains_iff.1 h
  exact ⟨humin, humax, hsmin, Or.inl hsmax⟩

/-! ## Extreme words -/

theorem getLsbD_sMin {i : ℕ} (hi : i < w) : (sMin w).getLsbD i = decide (i = w - 1) := by
  rw [sMin, ← BitVec.twoPow_eq, BitVec.getLsbD_twoPow, decide_eq_true (by omega : w - 1 < w),
    Bool.true_and]
  exact decide_eq_decide.2 eq_comm

theorem getLsbD_sMax {i : ℕ} (hi : i < w) : (sMax w).getLsbD i = !decide (i = w - 1) := by
  rw [sMax, BitVec.getLsbD_not, decide_eq_true hi, Bool.true_and, getLsbD_sMin hi]

/-- The least word of a tnum in the signed order has its unknown bits clear,
except an unknown sign bit. -/
theorem signed_least {t : Tnum w} (ht : TnumValid t) {x : BitVec w} (hx : TnumContains t x) :
    (t.value ||| (t.mask &&& sMin w)).toInt ≤ x.toInt := by
  refine toInt_le_of_bits (fun hmsb => ?_) (fun i hi h => ?_)
  · rw [BitVec.msb_eq_getLsbD_last] at hmsb ⊢
    have hw := BitVec.lt_of_getLsbD hmsb
    rw [BitVec.getLsbD_or, BitVec.getLsbD_and, getLsbD_sMin hw, decide_eq_true rfl, Bool.and_true,
      ← getLsbD_top]
    exact le_top_of_contains hx hw hmsb
  · rw [BitVec.getLsbD_or, BitVec.getLsbD_and, getLsbD_sMin (by omega),
      decide_eq_false (by omega), Bool.and_false, Bool.or_false] at h
    exact value_le_of_contains ht hx (by omega) h

/-- The greatest word in the signed order has its unknown bits set, except an
unknown sign bit. -/
theorem signed_greatest {t : Tnum w} (ht : TnumValid t) {x : BitVec w} (hx : TnumContains t x) :
    x.toInt ≤ (t.value ||| (t.mask &&& sMax w)).toInt := by
  refine toInt_le_of_bits (fun hmsb => ?_) (fun i hi h => ?_)
  · rw [BitVec.msb_eq_getLsbD_last] at hmsb ⊢
    have hw := BitVec.lt_of_getLsbD hmsb
    rw [BitVec.getLsbD_or, BitVec.getLsbD_and, getLsbD_sMax hw, decide_eq_true rfl, Bool.not_true,
      Bool.and_false, Bool.or_false] at hmsb
    exact value_le_of_contains ht hx hw hmsb
  · have htop := le_top_of_contains hx (by omega : i < w) h
    rw [BitVec.getLsbD_or, BitVec.getLsbD_and, getLsbD_sMax (by omega),
      decide_eq_false (by omega), Bool.not_false, Bool.and_true, ← getLsbD_top]
    exact htop

theorem unsigned_least {t : Tnum w} (ht : TnumValid t) {x : BitVec w} (hx : TnumContains t x) :
    t.value.toNat ≤ x.toNat :=
  toNat_le_of_bits fun _ hi => value_le_of_contains ht hx hi

theorem unsigned_greatest {t : Tnum w} {x : BitVec w} (hx : TnumContains t x) :
    x.toNat ≤ t.top.toNat :=
  toNat_le_of_bits fun _ hi => le_top_of_contains hx hi

theorem sMin_le (x : BitVec w) : (sMin w).toInt ≤ x.toInt := by
  have h := signed_least (t := tnumUnknown w) BitVec.zero_and (tnumContains_unknown x)
  simpa [tnumUnknown] using h

theorem le_sMax (x : BitVec w) : x.toInt ≤ (sMax w).toInt := by
  have h := signed_greatest (t := tnumUnknown w) BitVec.zero_and (tnumContains_unknown x)
  simpa [tnumUnknown] using h

theorem le_uMax (x : BitVec w) : x.toNat ≤ (uMax w).toNat := by
  rw [uMax, BitVec.neg_one_eq_allOnes, BitVec.toNat_allOnes]
  have := x.isLt
  omega

theorem unbounded_contains (x : BitVec w) : (unbounded w).Contains x :=
  contains_iff.2 ⟨⟨by simp [unbounded], le_uMax x⟩, sMin_le x, le_sMax x⟩

theorem known_contains (x : BitVec w) : (known x).Contains x :=
  contains_iff.2 ⟨⟨Nat.le_refl _, Nat.le_refl _⟩, Int.le_refl _, Int.le_refl _⟩

/-! ## Synchronisation -/

theorem update_tighter (b : Bounds w) (t : Tnum w) : (b.update t).Tighter b := by
  rw [tighter_iff]
  simp only [update, toNat_bvumax, toNat_bvumin, toInt_bvsmax, toInt_bvsmin]
  omega

theorem update_umax_le (b : Bounds w) (t : Tnum w) : (b.update t).umax.toNat ≤ t.top.toNat := by
  have htop : t.value ||| t.mask = t.top := rfl
  simp only [update, htop, toNat_bvumin]
  omega

theorem Near.update {b : Bounds w} {t : Tnum w} (ht : TnumValid t) {x : BitVec w}
    (hx : TnumContains t x) (h : b.Near t.top x) : (b.update t).Near t.top x := by
  obtain ⟨humin, humax, hsmin, hsmax⟩ := h
  have htop : t.value ||| t.mask = t.top := rfl
  have hleast := unsigned_least ht hx
  have hgreatest := unsigned_greatest hx
  have hsleast := signed_least ht hx
  have hsgreatest := signed_greatest ht hx
  constructor <;>
    simp only [Bounds.update, htop, toNat_bvumax, toNat_bvumin, toInt_bvsmax, toInt_bvsmin]
  · omega
  · omega
  · omega
  · omega

theorem Contains.update {b : Bounds w} {t : Tnum w} (ht : TnumValid t) {x : BitVec w}
    (hx : TnumContains t x) (h : b.Contains x) : (b.update t).Contains x := by
  rw [contains_iff] at *
  have htop : t.value ||| t.mask = t.top := rfl
  have hleast := unsigned_least ht hx
  have hgreatest := unsigned_greatest hx
  have hsleast := signed_least ht hx
  have hsgreatest := signed_greatest ht hx
  simp only [Bounds.update, htop, toNat_bvumax, toNat_bvumin, toInt_bvsmax, toInt_bvsmin]
  omega

/-- What the deduction leaves when a word is nearly contained and the unsigned
maximum is no greater than `top`: the word is contained, and a signed minimum
that is not negative makes the unsigned maximum not negative either. -/
theorem Near.deduce {b : Bounds w} {top x : BitVec w} (h : b.Near top x)
    (htop : b.umax.toNat ≤ top.toNat) :
    b.deduce.Contains x ∧ (0 ≤ b.deduce.smin.toInt → 0 ≤ b.deduce.umax.toInt) := by
  obtain ⟨humin, humax, hsmin, hsmax⟩ := h
  have hx := toInt_cases x
  have hbumin := toInt_cases b.umin
  have hbumax := toInt_cases b.umax
  have hbsmin := toInt_cases b.smin
  have hbsmax := toInt_cases b.smax
  have htop' := toInt_cases top
  have hmax := bvumax_cases b.smin b.umin
  have hmin := bvumin_cases b.smax b.umax
  rw [contains_iff, Bounds.deduce]
  simp only [Bool.or_eq_true, BitVec.sle_iff_toInt_le, BitVec.slt_iff_toInt_lt, BitVec.toInt_zero]
  split
  · rcases hmax with ⟨heq, _⟩ | ⟨heq, _⟩ <;> rcases hmin with ⟨heq', _⟩ | ⟨heq', _⟩ <;>
      simp only [heq, heq'] <;> omega
  · split
    · rcases hmin with ⟨heq', _⟩ | ⟨heq', _⟩ <;> simp only [heq'] <;> omega
    · split
      · rcases hmax with ⟨heq, _⟩ | ⟨heq, _⟩ <;> simp only [heq] <;> omega
      · omega

/-- The deduction loosens no bound of bounds that some word satisfies. -/
theorem deduce_tighter {b : Bounds w} {x : BitVec w} (h : b.Contains x) : b.deduce.Tighter b := by
  have hx := toInt_cases x
  have hbumin := toInt_cases b.umin
  have hbumax := toInt_cases b.umax
  have hbsmin := toInt_cases b.smin
  have hbsmax := toInt_cases b.smax
  have hmax := bvumax_cases b.smin b.umin
  have hmin := bvumin_cases b.smax b.umax
  rw [contains_iff] at h
  rw [tighter_iff, Bounds.deduce]
  simp only [Bool.or_eq_true, BitVec.sle_iff_toInt_le, BitVec.slt_iff_toInt_lt, BitVec.toInt_zero]
  split
  · rcases hmax with ⟨heq, _⟩ | ⟨heq, _⟩ <;> rcases hmin with ⟨heq', _⟩ | ⟨heq', _⟩ <;>
      simp only [heq, heq'] <;> omega
  · split
    · rcases hmin with ⟨heq', _⟩ | ⟨heq', _⟩ <;> simp only [heq'] <;> omega
    · split
      · rcases hmax with ⟨heq, _⟩ | ⟨heq, _⟩ <;> simp only [heq] <;> omega
      · omega

/-! ## Operators -/

theorem Contains.add {dst src : Bounds w} {x y : BitVec w} (hx : dst.Contains x)
    (hy : src.Contains y) : (dst.add src).Contains (x + y) := by
  have hfull := contains_iff.1 (unbounded_contains (x + y))
  rw [contains_iff] at *
  simp only [Bounds.add, Bool.or_eq_true, BitVec.lt_def]
  constructor
  · have hadd := toNat_add_cases x y
    have hmin := toNat_add_cases dst.umin src.umin
    have hmax := toNat_add_cases dst.umax src.umax
    split
    · exact hfull.1
    · simp only
      omega
  · have hxi := toInt_cases x
    have hyi := toInt_cases y
    have hsum := toInt_cases (x + y)
    have hadd := toNat_add_cases x y
    have hmin := toInt_cases (dst.smin + src.smin)
    have hmax := toInt_cases (dst.smax + src.smax)
    split
    · exact hfull.2
    · rename_i hno
      rw [not_or, Bool.not_eq_true, Bool.not_eq_true] at hno
      rw [toInt_add_of_not_overflows hno.1] at hmin ⊢
      rw [toInt_add_of_not_overflows hno.2] at hmax ⊢
      omega

theorem Contains.sub {dst src : Bounds w} {x y : BitVec w} (hx : dst.Contains x)
    (hy : src.Contains y) : (dst.sub src).Contains (x - y) := by
  have hfull := contains_iff.1 (unbounded_contains (x - y))
  rw [contains_iff] at *
  simp only [Bounds.sub, Bool.or_eq_true, BitVec.lt_def]
  constructor
  · have hsub := toNat_sub_cases x y
    have hmin := toNat_sub_cases dst.umin src.umax
    have hmax := toNat_sub_cases dst.umax src.umin
    have hlt := (x - y).isLt
    have hminlt := (dst.umin - src.umax).isLt
    have hmaxlt := (dst.umax - src.umin).isLt
    split
    · exact hfull.1
    · simp only
      omega
  · have hxi := toInt_cases x
    have hyi := toInt_cases y
    have hdiff := toInt_cases (x - y)
    have hsub := toNat_sub_cases x y
    have hmin := toInt_cases (dst.smin - src.smax)
    have hmax := toInt_cases (dst.smax - src.smin)
    split
    · exact hfull.2
    · rename_i hno
      rw [not_or, Bool.not_eq_true, Bool.not_eq_true] at hno
      rw [toInt_sub_of_not_overflows hno.1] at hmin ⊢
      rw [toInt_sub_of_not_overflows hno.2] at hmax ⊢
      omega

/-- A word of a tnum whose greatest word is not negative is not negative. -/
theorem toInt_nonneg_of_top {t : Tnum w} {z : BitVec w} (hz : TnumContains t z)
    (htop : 0 ≤ t.top.toInt) : z.toInt = z.toNat ∧ t.value.toInt = t.value.toNat := by
  have hzi := toInt_cases z
  have hti := toInt_cases t.top
  have hvi := toInt_cases t.value
  have hle := unsigned_greatest hz
  have hvle := unsigned_greatest (tnumContains_value t)
  omega

/-- The signed maximum of a bitwise AND is a copy of the unsigned one, which is
right only when its top bit is clear. -/
theorem Contains.and {dst src : Bounds w} {t : Tnum w} {x y : BitVec w} (hx : dst.Contains x)
    (hy : src.Contains y) (ht : TnumValid t) (hz : TnumContains t (x &&& y))
    (hneg : 0 ≤ dst.smin.toInt → 0 ≤ src.smin.toInt → 0 ≤ t.top.toInt) :
    (Bounds.and t.value dst src).Near t.top (x &&& y) := by
  have hleft : (x &&& y).toNat ≤ x.toNat := by
    rw [BitVec.toNat_and]
    exact Nat.and_le_left
  have hright : (x &&& y).toNat ≤ y.toNat := by
    rw [BitVec.toNat_and]
    exact Nat.and_le_right
  have hleast := unsigned_least ht hz
  have hfull := contains_iff.1 (unbounded_contains (x &&& y))
  rw [contains_iff] at hx hy
  simp only [Bounds.and, Bool.or_eq_true, BitVec.slt_iff_toInt_lt, BitVec.toInt_zero]
  split
  · exact ⟨hleast, by simp only [toNat_bvumin]; omega, hfull.2.1, Or.inl hfull.2.2⟩
  · have htop := hneg (by omega) (by omega)
    have hnonneg := toInt_nonneg_of_top hz htop
    have hmax := toInt_cases (bvumin dst.umax src.umax)
    have hmaxNat := toNat_bvumin dst.umax src.umax
    refine ⟨hleast, ?_, ?_, ?_⟩ <;> simp only
    · omega
    · omega
    · omega

theorem Contains.or {dst src : Bounds w} {t : Tnum w} {x y : BitVec w} (hx : dst.Contains x)
    (hy : src.Contains y) (hz : TnumContains t (x ||| y))
    (hneg : 0 ≤ dst.smin.toInt → 0 ≤ src.smin.toInt → 0 ≤ t.top.toInt) :
    (Bounds.or t.top dst src).Contains (x ||| y) := by
  have hleft : x.toNat ≤ (x ||| y).toNat := by
    rw [BitVec.toNat_or]
    exact Nat.left_le_or
  have hright : y.toNat ≤ (x ||| y).toNat := by
    rw [BitVec.toNat_or]
    exact Nat.right_le_or
  have hgreatest := unsigned_greatest hz
  have hfull := contains_iff.1 (unbounded_contains (x ||| y))
  rw [contains_iff] at *
  simp only [Bounds.or, Bool.or_eq_true, BitVec.slt_iff_toInt_lt, BitVec.toInt_zero]
  split
  · exact ⟨⟨by simp only [toNat_bvumax]; omega, hgreatest⟩, hfull.2⟩
  · have htop := hneg (by omega) (by omega)
    have hnonneg := toInt_nonneg_of_top hz htop
    have hmin := toInt_cases (bvumax dst.umin src.umin)
    have hminNat := toNat_bvumax dst.umin src.umin
    have hti := toInt_cases t.top
    simp only
    omega

/-- The bounds of an exclusive or come from the tnum of the result alone. -/
theorem xor_contains (dst src : Bounds w) {t : Tnum w} {z : BitVec w} (ht : TnumValid t)
    (hz : TnumContains t z)
    (hneg : 0 ≤ dst.smin.toInt → 0 ≤ src.smin.toInt → 0 ≤ t.top.toInt) :
    (Bounds.xor t.value t.top dst src).Contains z := by
  have hleast := unsigned_least ht hz
  have hgreatest := unsigned_greatest hz
  have hfull := contains_iff.1 (unbounded_contains z)
  rw [contains_iff]
  simp only [Bounds.xor, Bool.and_eq_true, BitVec.sle_iff_toInt_le, BitVec.toInt_zero]
  split
  · have htop := hneg (by omega) (by omega)
    have hnonneg := toInt_nonneg_of_top hz htop
    have hti := toInt_cases t.top
    simp only
    omega
  · exact ⟨⟨hleast, hgreatest⟩, hfull.2⟩

end Bounds

end Exoverifier

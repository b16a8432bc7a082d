import Mathlib.Data.Nat.Log
import Exoverifier.Library.Loop
import Exoverifier.Library.Prefix
import Exoverifier.Tnum.Wiring

/-! # Shifts by an unknown amount

The loop consumes the amount from its lowest bit on and shifts by doubling
steps, joining shifted and unshifted tnums where the amount bit is unknown. The
invariant is exactness: after `j` iterations the running tnum takes, bit by bit,
exactly the values of all shifts by the low `j` bits of an amount.
-/

namespace Exoverifier

open Library

variable {N : ℕ}

/-- log2 that is exact when `N` is a power of two. -/
def log2 (N : ℕ) : ℕ := Nat.log 2 N

def isPow2 (N : ℕ) : Bool := 2 ^ log2 N == N

/-- The variables the loops of the three shifts assign. -/
structure ShiftState (N : ℕ) where
  a : Tnum N
  b : Tnum N
  amt : BitVec N

def shiftGuard (s : ShiftState N) : Bool := s.b.value ||| s.b.mask != 0#N

def shiftStep (shift : Tnum N → BitVec N → Tnum N) (s : ShiftState N) : ShiftState N :=
  let a := if s.b.mask &&& 1#N ≠ 0#N then tnumUnion s.a (shift s.a s.amt) else s.a
  let a := if s.b.value &&& 1#N ≠ 0#N then shift a s.amt else a
  ⟨a, tnumRshift s.b 1#N, s.amt <<< 1#N⟩

/-- Only the low bits of the amount are used. -/
def lowAmount (b : Tnum N) (bitness : ℕ) : Tnum N :=
  tnumAnd b (tnumConst (BitVec.ofNat N bitness - 1#N))

/-- The common text of the three shifts, over the shift by a constant. `none`
stands for a failed assertion: a bitness that is no power of two, or a loop out
of fuel. -/
def tnumShiftBy (shift : Tnum N → BitVec N → Tnum N) (a b : Tnum N) (bitness : ℕ) :
    Option (Tnum N) := do
  guard (isPow2 bitness)
  let s ← whileFuel shiftGuard (shiftStep shift) (log2 N + 1) ⟨a, lowAmount b bitness, 1#N⟩
  return s.a

def tnumShl (a b : Tnum N) (bitness : ℕ) : Option (Tnum N) := tnumShiftBy tnumLshift a b bitness

def tnumLshr (a b : Tnum N) (bitness : ℕ) : Option (Tnum N) := tnumShiftBy tnumRshift a b bitness

def tnumAshr (a b : Tnum N) (bitness : ℕ) : Option (Tnum N) :=
  tnumShiftBy (fun a amt => tnumArshift a amt bitness) a b bitness

/-! ## Amounts and their bits -/

theorem log2_two_pow (k : ℕ) : log2 (2 ^ k) = k := Nat.log_pow (by omega) k

theorem isPow2_iff {N : ℕ} : isPow2 N = true ↔ ∃ k, N = 2 ^ k := by
  constructor
  · intro h
    exact ⟨log2 N, (beq_iff_eq.1 h).symm⟩
  · rintro ⟨k, rfl⟩
    rw [isPow2, log2_two_pow, beq_self_eq_true]

theorem getLsbD_lowAmount_value (b : Tnum N) (m : ℕ) {i : ℕ} (hi : i < N) :
    (lowAmount b (2 ^ m)).value.getLsbD i = (decide (i < m) && b.value.getLsbD i) := by
  simp only [lowAmount, tnumAnd, tnumConst, BitVec.getLsbD_and, getLsbD_two_pow_sub_one m hi]
  exact Bool.and_comm _ _

theorem getLsbD_lowAmount_mask (b : Tnum N) (m : ℕ) {i : ℕ} (hi : i < N) :
    (lowAmount b (2 ^ m)).mask.getLsbD i =
      (decide (i < m) && (b.mask.getLsbD i && !b.value.getLsbD i)) := by
  simp only [lowAmount, tnumAnd, tnumConst, BitVec.xor_self, BitVec.or_zero, BitVec.getLsbD_and,
    BitVec.getLsbD_or, BitVec.getLsbD_not, getLsbD_two_pow_sub_one m hi, decide_eq_true hi]
  generalize b.mask.getLsbD i = bm, b.value.getLsbD i = bv, decide (i < m) = d
  revert bm bv d
  decide

/-- Past its low bits the amount is a known zero. -/
theorem lowAmount_shifted_out (b : Tnum N) (m : ℕ) :
    (lowAmount b (2 ^ m)).map (fun x => x >>> m) = ⟨0#N, 0#N⟩ := by
  have hzero : ∀ x : BitVec N, (∀ i < N, m ≤ i → x.getLsbD i = false) → x >>> m = 0#N := by
    intro x hx
    refine BitVec.eq_of_getLsbD_eq fun i _ => ?_
    rw [BitVec.getLsbD_ushiftRight, BitVec.getLsbD_zero]
    by_cases hi : m + i < N
    · exact hx _ hi (by omega)
    · exact BitVec.getLsbD_of_ge x _ (by omega)
  have hvalue := hzero (lowAmount b (2 ^ m)).value fun i hi hm => by
    rw [getLsbD_lowAmount_value b m hi, decide_eq_false (by omega), Bool.false_and]
  have hmask := hzero (lowAmount b (2 ^ m)).mask fun i hi hm => by
    rw [getLsbD_lowAmount_mask b m hi, decide_eq_false (by omega), Bool.false_and]
  rw [Tnum.map, hvalue, hmask]

/-! ## What does not depend on the kind of shift -/

variable {shift : Tnum N → BitVec N → Tnum N}

theorem shiftStep_iterate_b (s : ShiftState N) (j : ℕ) :
    ((shiftStep shift)^[j] s).b = s.b.map (fun x => x >>> j) := by
  induction j with
  | zero => simp [Tnum.map]
  | succ j ih =>
      rw [Function.iterate_succ_apply']
      simp only [shiftStep, tnumRshift, ih, Tnum.map, shiftRight_one, BitVec.shiftRight_add]

theorem shiftStep_iterate_amt (s : ShiftState N) (j : ℕ) :
    ((shiftStep shift)^[j] s).amt = s.amt <<< j := by
  induction j with
  | zero => simp
  | succ j ih =>
      rw [Function.iterate_succ_apply']
      simp only [shiftStep, ih, shiftLeft_one, BitVec.shiftLeft_add]

theorem toNat_one_shiftLeft {j : ℕ} (hj : j < N) : (1#N <<< j).toNat = 2 ^ j := by
  rw [← BitVec.twoPow_eq, BitVec.toNat_twoPow_of_lt hj]

/-- Once the guard fails, further iterations change neither operand. -/
theorem shiftStep_idle (s : ShiftState N) (h : shiftGuard s = false) :
    shiftGuard (shiftStep shift s) = false ∧ (shiftStep shift s).a = s.a := by
  have hor : s.b.value ||| s.b.mask = 0#N := by simpa [shiftGuard] using h
  obtain ⟨hvalue, hmask⟩ := BitVec.or_eq_zero_iff.1 hor
  refine ⟨?_, ?_⟩
  · simp [shiftGuard, shiftStep, tnumRshift, hvalue, hmask]
  · simp [shiftStep, hvalue, hmask]

/-- The loop returns, well within its fuel, what any `n ≥ m` iterations give. -/
theorem tnumShiftBy_eq_iterate (a b : Tnum N) {m n : ℕ} (hm : m ≤ log2 N) (hn : m ≤ n) :
    tnumShiftBy shift a b (2 ^ m) =
      some ((shiftStep shift)^[n] ⟨a, lowAmount b (2 ^ m), 1#N⟩).a := by
  have hstop : shiftGuard ((shiftStep shift)^[m] ⟨a, lowAmount b (2 ^ m), 1#N⟩) = false := by
    rw [shiftGuard, shiftStep_iterate_b, lowAmount_shifted_out]
    simp
  obtain ⟨k, hkm, hk⟩ := exists_exitsAfter hstop
  have hpow : isPow2 (2 ^ m) = true := isPow2_iff.2 ⟨m, rfl⟩
  rw [hk.observe_iterate (fun t ht => shiftStep_idle t ht) (hkm.trans hn)]
  simp only [tnumShiftBy, hpow, whileFuel_eq hk (by omega : k < log2 N + 1)]
  rfl

/-! ## Exactness of one iteration -/

/-- The words a tnum operator shifts by, as a family indexed by the amount: each
member rewires bits, and amounts add up. -/
structure ShiftFamily (shift : Tnum N → BitVec N → Tnum N) (f : BitVec N → ℕ → BitVec N) :
    Prop where
  wiring : ∀ s, Wiring (fun x => f x s)
  zero : ∀ x, f x 0 = x
  add : ∀ x s t, f (f x s) t = f x (s + t)
  eq_map : ∀ a s, shift a s = a.map (fun x => f x s.toNat)

/-- All shifts of a word of `a` by the low `j` bits of a word of `b`. -/
def shiftedBy (f : BitVec N → ℕ → BitVec N) (a b : Tnum N) (j : ℕ) : Set (BitVec N) :=
  Set.image2 (fun x y => f x (y.toNat % 2 ^ j)) a.points b.points

theorem shiftedBy_nonempty (f : BitVec N → ℕ → BitVec N) (a b : Tnum N) (j : ℕ) :
    (shiftedBy f a b j).Nonempty :=
  (points_nonempty a).image2 (points_nonempty b)

/-- A bit of a represented word may be replaced by any value it can take. -/
theorem exists_setBit {b : Tnum N} {y : BitVec N} (hy : TnumContains b y) {j : ℕ} (hj : j < N)
    {v : Bool} (hv : b.mask.getLsbD j = true ∨ b.value.getLsbD j = v) :
    ∃ y', TnumContains b y' ∧ y'.getLsbD j = v ∧ ∀ i < j, y'.getLsbD i = y.getLsbD i := by
  by_cases heq : y.getLsbD j = v
  · exact ⟨y, hy, heq, fun _ _ => rfl⟩
  have hflip : ∀ i < N, (y ^^^ BitVec.twoPow N j).getLsbD i = (y.getLsbD i ^^ decide (j = i)) := by
    intro i hi
    rw [BitVec.getLsbD_xor, BitVec.getLsbD_twoPow, decide_eq_true hj, Bool.true_and]
  refine ⟨y ^^^ BitVec.twoPow N j, ?_, ?_, ?_⟩
  · rw [tnumContains_iff] at hy ⊢
    intro i hi
    rw [hflip i hi]
    by_cases hji : j = i
    · subst hji
      have hyj := hy j hj
      refine Or.inl ?_
      rcases hv with hm | hv
      · exact hm
      · exact hyj.resolve_right fun h => heq (h.symm.trans hv)
    · rw [decide_eq_false hji, Bool.xor_false]
      exact hy i hi
  · rw [hflip j hj, decide_eq_true rfl, Bool.xor_true]
    exact (Bool.eq_not_of_ne (Ne.symm heq)).symm
  · intro i hi
    rw [hflip i (by omega), decide_eq_false (by omega), Bool.xor_false]

theorem mod_two_pow_congr {x y : BitVec N} {j : ℕ}
    (h : ∀ i < j, x.getLsbD i = y.getLsbD i) : x.toNat % 2 ^ j = y.toNat % 2 ^ j := by
  refine Nat.eq_of_testBit_eq fun i => ?_
  rw [Nat.testBit_mod_two_pow, Nat.testBit_mod_two_pow]
  by_cases hi : i < j
  · rw [show x.toNat.testBit i = y.toNat.testBit i from h i hi]
  · rw [decide_eq_false hi, Bool.false_and, Bool.false_and]

/-- One more amount bit: for each value the bit can take, the shifts so far,
shifted by that bit's weight. -/
theorem shiftedBy_succ {f : BitVec N → ℕ → BitVec N} (hf : ShiftFamily shift f) (a b : Tnum N)
    {j : ℕ} (hj : j < N) :
    shiftedBy f a b (j + 1) =
      {z | ∃ v, (b.mask.getLsbD j = true ∨ b.value.getLsbD j = v) ∧
        ∃ u ∈ shiftedBy f a b j, f u (2 ^ j * v.toNat) = z} := by
  have hsplit : ∀ x (y : BitVec N), f x (y.toNat % 2 ^ (j + 1)) =
      f (f x (y.toNat % 2 ^ j)) (2 ^ j * (y.getLsbD j).toNat) := by
    intro x y
    rw [hf.add, BitVec.getLsbD, mod_two_pow_succ_eq]
  ext z
  constructor
  · rintro ⟨x, hx, y, hy, rfl⟩
    exact ⟨y.getLsbD j, tnumContains_iff.1 hy j hj, _, ⟨x, hx, y, hy, rfl⟩, (hsplit x y).symm⟩
  · rintro ⟨v, hv, _, ⟨x, hx, y, hy, rfl⟩, rfl⟩
    obtain ⟨y', hy', hbit, hlow⟩ := exists_setBit hy hj hv
    refine ⟨x, hx, y', hy', ?_⟩
    simp only [hsplit, hbit, mod_two_pow_congr hlow]

theorem exact_shiftStep {f : BitVec N → ℕ → BitVec N} (hf : ShiftFamily shift f) {a b : Tnum N}
    {j : ℕ} (hj : j < N) {s : ShiftState N} (hb : TnumValid b)
    (hs : Exact s.a (shiftedBy f a b j))
    (hmask : s.b.mask.getLsbD 0 = b.mask.getLsbD j)
    (hvalue : s.b.value.getLsbD 0 = b.value.getLsbD j) (hamt : s.amt.toNat = 2 ^ j) :
    Exact (shiftStep shift s).a (shiftedBy f a b (j + 1)) := by
  have hshifted : Exact (shift s.a s.amt) ((fun u => f u (2 ^ j)) '' shiftedBy f a b j) := by
    rw [hf.eq_map, hamt]
    exact hs.map (hf.wiring _) (shiftedBy_nonempty f a b j)
  have hvalid := tnumValid_iff.1 hb j hj
  rw [shiftedBy_succ hf a b hj]
  simp only [shiftStep, and_one_ne_zero_iff, hmask, hvalue]
  cases hm : b.mask.getLsbD j with
  | true =>
      simp only [hvalid hm, if_true, Bool.false_eq_true, if_false]
      convert hs.union hshifted using 1
      ext z
      simp [hf.zero, Bool.exists_bool]
  | false =>
      cases hv : b.value.getLsbD j with
      | true =>
          simp only [if_true, Bool.false_eq_true, if_false]
          convert hshifted using 1
          ext z
          simp
      | false =>
          simp only [Bool.false_eq_true, if_false]
          convert hs using 1
          ext z
          simp [hf.zero]

/-! ## Whole runs -/

theorem exact_shiftStep_iterate {f : BitVec N → ℕ → BitVec N} (hf : ShiftFamily shift f)
    {a b : Tnum N} (ha : TnumValid a) (hb : TnumValid b) {m : ℕ} (hm : m ≤ N) :
    ∀ j ≤ m, Exact ((shiftStep shift)^[j] ⟨a, lowAmount b (2 ^ m), 1#N⟩).a (shiftedBy f a b j) := by
  intro j
  induction j with
  | zero =>
      intro _
      have hnone : shiftedBy f a b 0 = a.points := by
        simp only [shiftedBy, pow_zero, Nat.mod_one, hf.zero]
        exact Set.image2_left (points_nonempty b)
      rw [hnone]
      exact exact_points ha
  | succ j ih =>
      intro hj
      have hjN : j < N := by omega
      have hvalid := tnumValid_iff.1 hb j hjN
      rw [Function.iterate_succ_apply']
      refine exact_shiftStep hf hjN hb (ih (by omega)) ?_ ?_ ?_
      · rw [shiftStep_iterate_b, Tnum.map, BitVec.getLsbD_ushiftRight, Nat.add_zero,
          getLsbD_lowAmount_mask b m hjN, decide_eq_true (by omega)]
        revert hvalid
        generalize b.mask.getLsbD j = bm, b.value.getLsbD j = bv
        revert bm bv
        decide
      · rw [shiftStep_iterate_b, Tnum.map, BitVec.getLsbD_ushiftRight, Nat.add_zero,
          getLsbD_lowAmount_value b m hjN, decide_eq_true (by omega), Bool.true_and]
      · rw [shiftStep_iterate_amt, toNat_one_shiftLeft hjN]

theorem valid_shiftStep_iterate {f : BitVec N → ℕ → BitVec N} (hf : ShiftFamily shift f)
    {s : ShiftState N} (hs : TnumValid s.a) (j : ℕ) : TnumValid ((shiftStep shift)^[j] s).a := by
  have hshift : ∀ (t : Tnum N) c, TnumValid t → TnumValid (shift t c) := by
    intro t c ht
    rw [hf.eq_map]
    exact (hf.wiring _).valid ht
  induction j with
  | zero => exact hs
  | succ j ih =>
      rw [Function.iterate_succ_apply']
      simp only [shiftStep]
      split <;> split
      · exact hshift _ _ (tnumUnion_valid _ _)
      · exact hshift _ _ ih
      · exact tnumUnion_valid _ _
      · exact ih

/-- The loop ends within its fuel with a valid tnum that is exact for the shifts
by the amounts modulo the bitness. -/
theorem tnumShiftBy_exact {f : BitVec N → ℕ → BitVec N} (hf : ShiftFamily shift f)
    {a b : Tnum N} (ha : TnumValid a) (hb : TnumValid b) {m : ℕ} (hm : m ≤ log2 N) :
    ∃ t, tnumShiftBy shift a b (2 ^ m) = some t ∧ TnumValid t ∧
      Exact t (Set.image2 (fun x y => f x (y.toNat % 2 ^ m)) a.points b.points) := by
  have hmN : m ≤ N := hm.trans (Nat.log_le_self 2 N)
  exact ⟨_, tnumShiftBy_eq_iterate a b hm (Nat.le_refl m), valid_shiftStep_iterate hf ha m,
    exact_shiftStep_iterate hf ha hb hmN m (Nat.le_refl m)⟩

theorem shiftFamily_shl : @ShiftFamily N tnumLshift (fun x s => x <<< s) where
  wiring := wiring_shiftLeft
  zero := BitVec.shiftLeft_zero
  add x s t := (BitVec.shiftLeft_add x s t).symm
  eq_map := tnumLshift_eq_map

theorem shiftFamily_lshr : @ShiftFamily N tnumRshift (fun x s => x >>> s) where
  wiring := wiring_ushiftRight
  zero := BitVec.ushiftRight_zero
  add x s t := (BitVec.shiftRight_add x s t).symm
  eq_map := tnumRshift_eq_map

theorem shiftFamily_ashr :
    @ShiftFamily N (fun a amt => tnumArshift a amt N) BitVec.sshiftRight where
  wiring := wiring_sshiftRight
  zero _ := BitVec.sshiftRight_zero
  add _ _ _ := BitVec.sshiftRight_add.symm
  eq_map := tnumArshift_eq_map

end Exoverifier

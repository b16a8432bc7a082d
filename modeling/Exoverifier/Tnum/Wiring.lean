import Exoverifier.Tnum.Basic

/-! # Maps that rewire bits

A shift by a constant sends every bit of its result to one bit of its argument,
or to zero. Such a map acts on the value and the mask alike, keeps validity, and
is exact; so is the union, on any two tnums. These are the two operators the
loops over an unknown shift amount are made of.
-/

namespace Exoverifier

open Library

variable {N : ℕ}

/-- Every bit of `f x` is a fixed bit of `x`, or zero. -/
def Wiring (f : BitVec N → BitVec N) : Prop :=
  ∀ i < N, (∃ j < N, ∀ x, (f x).getLsbD i = x.getLsbD j) ∨ ∀ x, (f x).getLsbD i = false

/-- Apply a map of words to the value and to the mask. -/
def Tnum.map (f : BitVec N → BitVec N) (t : Tnum N) : Tnum N := ⟨f t.value, f t.mask⟩

theorem Wiring.valid {f : BitVec N → BitVec N} (hf : Wiring f) {t : Tnum N} (ht : TnumValid t) :
    TnumValid (t.map f) := by
  refine tnumValid_iff.2 fun i hi hm => ?_
  rcases hf i hi with ⟨j, hj, hbit⟩ | hzero
  · exact (hbit t.value).trans (tnumValid_iff.1 ht j hj ((hbit t.mask).symm.trans hm))
  · exact hzero t.value

theorem Exact.map {f : BitVec N → BitVec N} (hf : Wiring f) {t : Tnum N} {S : Set (BitVec N)}
    (h : Exact t S) (hS : S.Nonempty) : Exact (t.map f) (f '' S) := by
  rw [exact_iff] at h ⊢
  intro i hi b
  simp only [Set.exists_mem_image, Tnum.map]
  rcases hf i hi with ⟨j, hj, hbit⟩ | hzero
  · simp only [hbit]
    exact h j hj b
  · obtain ⟨x, hx⟩ := hS
    simp only [hzero]
    exact ⟨fun hb => ⟨x, hx, hb.resolve_left (by decide)⟩, fun ⟨_, _, hb⟩ => Or.inr hb⟩

theorem Wiring.contains {f : BitVec N → BitVec N} (hf : Wiring f) {t : Tnum N} (ht : TnumValid t)
    {x : BitVec N} (hx : TnumContains t x) : TnumContains (t.map f) (f x) :=
  ((exact_points ht).map hf (points_nonempty t)).contains ⟨x, hx, rfl⟩

/-! ## Shifts by a constant -/

theorem wiring_shiftLeft (s : ℕ) : Wiring (fun x : BitVec N => x <<< s) := by
  intro i hi
  by_cases h : i < s
  · exact Or.inr fun x => by simp [h]
  · exact Or.inl ⟨i - s, by omega, fun x => by
      rw [BitVec.getLsbD_shiftLeft, decide_eq_true hi, decide_eq_false h]; rfl⟩

theorem wiring_ushiftRight (s : ℕ) : Wiring (fun x : BitVec N => x >>> s) := by
  intro i hi
  by_cases h : s + i < N
  · exact Or.inl ⟨s + i, h, fun x => BitVec.getLsbD_ushiftRight x s i⟩
  · exact Or.inr fun x => by
      rw [BitVec.getLsbD_ushiftRight, BitVec.getLsbD_of_ge x (s + i) (by omega)]

theorem wiring_sshiftRight (s : ℕ) : Wiring (fun x : BitVec N => x.sshiftRight s) := by
  intro i hi
  refine Or.inl ⟨if s + i < N then s + i else N - 1, by split <;> omega, fun x => ?_⟩
  rw [BitVec.getLsbD_sshiftRight, decide_eq_false (by omega : ¬ N ≤ i), BitVec.msb_eq_getLsbD_last]
  split <;> rfl

theorem and_one_ne_zero_iff (x : BitVec N) : x &&& 1#N ≠ 0#N ↔ x.getLsbD 0 = true := by
  rw [BitVec.and_one_eq_setWidth_ofBool_getLsbD]
  cases N with
  | zero => simp [BitVec.of_length_zero]
  | succ n => cases x.getLsbD 0 <;> simp

theorem shiftRight_one (x : BitVec N) : x >>> 1#N = x >>> 1 := by
  cases N with
  | zero => exact Subsingleton.elim _ _
  | succ n => simp

theorem shiftLeft_one (x : BitVec N) : x <<< 1#N = x <<< 1 := by
  cases N with
  | zero => exact Subsingleton.elim _ _
  | succ n => simp

theorem twoPow_eq_ofNat (n : ℕ) : BitVec.twoPow N n = BitVec.ofNat N (2 ^ n) := by
  refine BitVec.eq_of_toNat_eq ?_
  rw [BitVec.toNat_twoPow, BitVec.toNat_ofNat]

theorem getLsbD_two_pow_sub_one (m : ℕ) {i : ℕ} (hi : i < N) :
    (BitVec.ofNat N (2 ^ m) - 1#N).getLsbD i = decide (i < m) := by
  have hsub : BitVec.ofNat N (2 ^ m) - 1#N = BitVec.ofNat N (2 ^ m - 1) := by
    rw [eq_comm, BitVec.eq_sub_iff_add_eq, ← BitVec.ofNat_add, Nat.sub_add_cancel Nat.one_le_two_pow]
  rw [hsub, BitVec.getLsbD_ofNat, decide_eq_true hi, Nat.testBit_two_pow_sub_one, Bool.true_and]

theorem tnumLshift_eq_map (a : Tnum N) (s : BitVec N) :
    tnumLshift a s = a.map (fun x => x <<< s.toNat) := rfl

theorem tnumRshift_eq_map (a : Tnum N) (s : BitVec N) :
    tnumRshift a s = a.map (fun x => x >>> s.toNat) := rfl

/-- At full bitness the arithmetic shift neither truncates nor extends. -/
theorem tnumArshift_eq_map (a : Tnum N) (s : BitVec N) :
    tnumArshift a s N = a.map (fun x => x.sshiftRight s.toNat) := by
  simp only [tnumArshift, Tnum.map, BitVec.setWidth_eq, BitVec.sshiftRight_eq']

theorem tnumLshift_contains {a : Tnum N} (ha : TnumValid a) (s : BitVec N) {x : BitVec N}
    (hx : TnumContains a x) : TnumContains (tnumLshift a s) (x <<< s) :=
  (wiring_shiftLeft s.toNat).contains ha hx

theorem tnumRshift_contains {a : Tnum N} (ha : TnumValid a) (s : BitVec N) {x : BitVec N}
    (hx : TnumContains a x) : TnumContains (tnumRshift a s) (x >>> s) :=
  (wiring_ushiftRight s.toNat).contains ha hx

theorem tnumLshift_valid {a : Tnum N} (ha : TnumValid a) (s : BitVec N) :
    TnumValid (tnumLshift a s) :=
  (wiring_shiftLeft s.toNat).valid ha

theorem tnumRshift_valid {a : Tnum N} (ha : TnumValid a) (s : BitVec N) :
    TnumValid (tnumRshift a s) :=
  (wiring_ushiftRight s.toNat).valid ha

/-! ## Union -/

theorem tnumUnion_coord (a b : Tnum N) : (tnumUnion a b).coord = a.coord ⊔ b.coord := by
  funext i
  ext v
  have hi : (i : ℕ) < N := i.isLt
  simp only [Tnum.coord, tnumUnion, Pi.sup_apply, Set.sup_eq_union, Set.mem_union,
    Set.mem_ofPred_eq, BitVec.getLsbD_or, BitVec.getLsbD_xor, BitVec.getLsbD_and,
    BitVec.getLsbD_not, decide_eq_true hi]
  generalize a.mask.getLsbD i = am, b.mask.getLsbD i = bm, a.value.getLsbD i = av,
    b.value.getLsbD i = bv
  revert am bm av bv v
  decide

theorem Exact.union {a b : Tnum N} {S T : Set (BitVec N)} (ha : Exact a S) (hb : Exact b T) :
    Exact (tnumUnion a b) (S ∪ T) := by
  rw [Exact, tnumUnion_coord, Set.image_union, hull_union, show a.coord = _ from ha,
    show b.coord = _ from hb]

theorem tnumUnion_valid (a b : Tnum N) : TnumValid (tnumUnion a b) := valid_of_masked _ _

end Exoverifier

import Exoverifier.Library.Carry
import Exoverifier.Tnum.Basic

/-! # Addition and subtraction

The carry-free formulas compare two carry chains, the one with every unknown
bit clear and the one with every unknown bit set. Both operators are read as
one adder with a carry-in, whose result is exact bit by bit.
-/

namespace Exoverifier

open Library

variable {N : ℕ}

def tnumAdd (a b : Tnum N) : Tnum N :=
  let sm := a.mask + b.mask
  let sv := a.value + b.value
  let sigma := sm + sv
  let chi := sigma ^^^ sv
  let mu := chi ||| a.mask ||| b.mask
  ⟨sv &&& ~~~mu, mu⟩

def tnumSub (a b : Tnum N) : Tnum N :=
  let dv := a.value - b.value
  let alpha := dv + a.mask
  let beta := dv - b.mask
  let chi := alpha ^^^ beta
  let mu := chi ||| a.mask ||| b.mask
  ⟨dv &&& ~~~mu, mu⟩

/-! ## Representatives of a tnum -/

/-- The representative with every unknown bit set. -/
def Tnum.top (a : Tnum N) : BitVec N := a.value ||| a.mask

theorem getLsbD_top (a : Tnum N) (i : ℕ) :
    a.top.getLsbD i = (a.value.getLsbD i || a.mask.getLsbD i) := by
  rw [Tnum.top, BitVec.getLsbD_or]

theorem tnumContains_top (a : Tnum N) : TnumContains a a.top := by
  refine tnumContains_iff.2 fun i _ => ?_
  rw [getLsbD_top]
  cases a.mask.getLsbD i <;> simp

theorem top_eq_add {a : Tnum N} (ha : TnumValid a) : a.top = a.value + a.mask :=
  (BitVec.add_eq_or_of_and_eq_zero _ _ ha).symm

theorem value_le_of_contains {a : Tnum N} (ha : TnumValid a) {x : BitVec N}
    (hx : TnumContains a x) {i : ℕ} (hi : i < N) :
    a.value.getLsbD i = true → x.getLsbD i = true := by
  intro hv
  rcases tnumContains_iff.1 hx i hi with hm | he
  · rw [tnumValid_iff.1 ha i hi hm] at hv
    exact absurd hv (by decide)
  · rw [← he, hv]

theorem le_top_of_contains {a : Tnum N} {x : BitVec N} (hx : TnumContains a x) {i : ℕ}
    (hi : i < N) : x.getLsbD i = true → a.top.getLsbD i = true := by
  intro h
  rw [getLsbD_top]
  rcases tnumContains_iff.1 hx i hi with hm | he
  · simp only [hm, Bool.or_true]
  · simp only [he, h, Bool.true_or]

/-- Two representatives that differ in an unknown bit and agree below it. -/
theorem exists_flip {a : Tnum N} (ha : TnumValid a) {i : ℕ} (hi : i < N)
    (hm : a.mask.getLsbD i = true) :
    ∃ x, TnumContains a x ∧ (∀ j < i, a.value.getLsbD j = x.getLsbD j) ∧
      a.value.getLsbD i ≠ x.getLsbD i := by
  refine ⟨a.value ||| (BitVec.twoPow N i &&& a.mask), tnumContains_raise ha _, ?_, ?_⟩
  · intro j hj
    rw [BitVec.getLsbD_or, BitVec.getLsbD_and, BitVec.getLsbD_twoPow,
      decide_eq_false (by omega : ¬ i = j)]
    simp only [Bool.and_false, Bool.false_and, Bool.or_false]
  · rw [BitVec.getLsbD_or, BitVec.getLsbD_and, BitVec.getLsbD_twoPow,
      tnumValid_iff.1 ha i hi hm, hm]
    simp [hi]

/-! ## The adder -/

/-- The tnum of `x + y + c`: known bits are those where both summand bits are
known and the two extreme sums agree. -/
def addCarryTnum (c : Bool) (a b : Tnum N) : Tnum N :=
  let lo := addCarry c a.value b.value
  let mu := (addCarry c a.top b.top ^^^ lo) ||| a.mask ||| b.mask
  ⟨lo &&& ~~~mu, mu⟩

theorem getLsbD_addCarryTnum_mask (c : Bool) (a b : Tnum N) (i : ℕ) :
    (addCarryTnum c a b).mask.getLsbD i =
      (((addCarry c a.top b.top).getLsbD i ^^ (addCarry c a.value b.value).getLsbD i) ||
        a.mask.getLsbD i || b.mask.getLsbD i) := by
  simp only [addCarryTnum, BitVec.getLsbD_or, BitVec.getLsbD_xor]

private theorem eq_of_xor_eq_false : ∀ p q : Bool, (p ^^ q) = false → p = q := by
  decide

private theorem eq_of_ne_of_ne : ∀ p q v : Bool, p ≠ q → p ≠ v → q = v := by
  decide

/-- A known bit of the adder's result is the same over all summands. -/
theorem addCarry_known {c : Bool} {a b : Tnum N} (ha : TnumValid a) (hb : TnumValid b)
    {i : ℕ} (hi : i < N) (hmu : (addCarryTnum c a b).mask.getLsbD i = false)
    {x y : BitVec N} (hx : TnumContains a x) (hy : TnumContains b y) :
    (addCarry c x y).getLsbD i = (addCarry c a.value b.value).getLsbD i := by
  rw [getLsbD_addCarryTnum_mask, Bool.or_eq_false_iff, Bool.or_eq_false_iff] at hmu
  obtain ⟨⟨hchi, hma⟩, hmb⟩ := hmu
  have hxi : x.getLsbD i = a.value.getLsbD i := by
    rcases tnumContains_iff.1 hx i hi with h | h
    · rw [hma] at h
      exact absurd h (by decide)
    · exact h.symm
  have hyi : y.getLsbD i = b.value.getLsbD i := by
    rcases tnumContains_iff.1 hy i hi with h | h
    · rw [hmb] at h
      exact absurd h (by decide)
    · exact h.symm
  refine getLsbD_addCarry_of_between c hi
    (fun j hj => value_le_of_contains ha hx (by omega))
    (fun j hj => value_le_of_contains hb hy (by omega))
    (fun j hj => le_top_of_contains hx (by omega))
    (fun j hj => le_top_of_contains hy (by omega)) hxi hyi ?_ ?_ ?_
  · rw [getLsbD_top, hma, Bool.or_false]
  · rw [getLsbD_top, hmb, Bool.or_false]
  · exact eq_of_xor_eq_false _ _ hchi

/-- An unknown bit of the adder's result really varies. -/
theorem addCarry_unknown {c : Bool} {a b : Tnum N} (ha : TnumValid a) (hb : TnumValid b)
    {i : ℕ} (hi : i < N) (hmu : (addCarryTnum c a b).mask.getLsbD i = true) :
    ∃ x y, TnumContains a x ∧ TnumContains b y ∧
      (addCarry c a.value b.value).getLsbD i ≠ (addCarry c x y).getLsbD i := by
  rw [getLsbD_addCarryTnum_mask, Bool.or_eq_true, Bool.or_eq_true] at hmu
  rcases hmu with (hchi | hma) | hmb
  · refine ⟨a.top, b.top, tnumContains_top a, tnumContains_top b, ?_⟩
    intro heq
    rw [heq, Bool.xor_self] at hchi
    exact absurd hchi (by decide)
  · obtain ⟨x, hx, hlow, hne⟩ := exists_flip ha hi hma
    exact ⟨x, b.value, hx, tnumContains_value b, getLsbD_addCarry_ne c hi hlow hne⟩
  · obtain ⟨y, hy, hlow, hne⟩ := exists_flip hb hi hmb
    refine ⟨a.value, y, tnumContains_value a, hy, ?_⟩
    rw [addCarry_comm c a.value, addCarry_comm c a.value]
    exact getLsbD_addCarry_ne c hi hlow hne

/-- The adder is exact on every bit. -/
theorem addCarryTnum_exact (c : Bool) {a b : Tnum N} (ha : TnumValid a) (hb : TnumValid b) :
    Exact (addCarryTnum c a b) (Set.image2 (addCarry c) a.points b.points) := by
  have hlo : addCarry c a.value b.value ∈ Set.image2 (addCarry c) a.points b.points :=
    ⟨_, tnumContains_value a, _, tnumContains_value b, rfl⟩
  rw [exact_iff]
  intro i hi v
  cases hmu : (addCarryTnum c a b).mask.getLsbD i with
  | true =>
      refine ⟨fun _ => ?_, fun _ => Or.inl rfl⟩
      obtain ⟨x, y, hx, hy, hne⟩ := addCarry_unknown ha hb hi hmu
      by_cases hv : (addCarry c a.value b.value).getLsbD i = v
      · exact ⟨_, hlo, hv⟩
      · exact ⟨_, ⟨x, hx, y, hy, rfl⟩, eq_of_ne_of_ne _ _ _ hne hv⟩
  | false =>
      have hvalue : (addCarryTnum c a b).value.getLsbD i =
          (addCarry c a.value b.value).getLsbD i := by
        have hmask : (addCarryTnum c a b).value = addCarry c a.value b.value &&&
          ~~~(addCarryTnum c a b).mask := rfl
        rw [hmask, BitVec.getLsbD_and, BitVec.getLsbD_not, hmu, decide_eq_true hi]
        simp only [Bool.not_false, Bool.and_true]
      rw [hvalue]
      constructor
      · rintro (h | h)
        · exact absurd h (by decide)
        · exact ⟨_, hlo, h⟩
      · rintro ⟨_, ⟨x, hx, y, hy, rfl⟩, rfl⟩
        exact Or.inr (addCarry_known ha hb hi hmu hx hy).symm

/-! ## Addition -/

theorem tnumAdd_eq {a b : Tnum N} (ha : TnumValid a) (hb : TnumValid b) :
    tnumAdd a b = addCarryTnum false a b := by
  have hsigma : a.mask + b.mask + (a.value + b.value) = a.top + b.top := by
    rw [top_eq_add ha, top_eq_add hb]
    ac_rfl
  simp only [tnumAdd, addCarryTnum, addCarry_false, hsigma]

theorem tnumAdd_valid (a b : Tnum N) : TnumValid (tnumAdd a b) := valid_of_masked _ _

theorem tnumAdd_exact {a b : Tnum N} (ha : TnumValid a) (hb : TnumValid b) :
    Exact (tnumAdd a b) (Set.image2 (· + ·) a.points b.points) := by
  have h := addCarryTnum_exact false ha hb
  rw [← tnumAdd_eq ha hb] at h
  simpa only [Set.image2, addCarry_false] using h

theorem tnumAdd_contains {a b : Tnum N} (ha : TnumValid a) (hb : TnumValid b) {x y : BitVec N}
    (hx : TnumContains a x) (hy : TnumContains b y) : TnumContains (tnumAdd a b) (x + y) :=
  (tnumAdd_exact ha hb).contains ⟨x, hx, y, hy, rfl⟩

/-! ## Subtraction -/

/-- The complement of a tnum: known bits are flipped. -/
def complement (b : Tnum N) : Tnum N := ⟨~~~b.top, b.mask⟩

theorem complement_valid (b : Tnum N) : TnumValid (complement b) := by
  refine tnumValid_iff.2 fun i _ hm => ?_
  have hm' : b.mask.getLsbD i = true := hm
  simp only [complement, BitVec.getLsbD_not, getLsbD_top, hm', Bool.or_true, Bool.not_true,
    Bool.and_false]

theorem complement_points {b : Tnum N} (hb : TnumValid b) :
    (complement b).points = (fun y => ~~~y) '' b.points := by
  have hflip : ∀ y, TnumContains (complement b) (~~~y) ↔ TnumContains b y := by
    intro y
    rw [tnumContains_iff, tnumContains_iff]
    refine forall₂_congr fun i hi => ?_
    have hv := tnumValid_iff.1 hb i hi
    simp only [complement, BitVec.getLsbD_not, getLsbD_top, decide_eq_true hi, Bool.true_and]
    revert hv
    generalize b.mask.getLsbD i = m, b.value.getLsbD i = v, y.getLsbD i = u
    revert m v u
    decide
  ext x
  constructor
  · intro hx
    exact ⟨~~~x, (hflip _).1 (by rwa [BitVec.not_not]), BitVec.not_not⟩
  · rintro ⟨y, hy, rfl⟩
    exact (hflip y).2 hy

theorem complement_top {b : Tnum N} (hb : TnumValid b) : (complement b).top = ~~~b.value := by
  refine BitVec.eq_of_getLsbD_eq fun i hi => ?_
  have hv := tnumValid_iff.1 hb i hi
  have hmask : (complement b).mask.getLsbD i = b.mask.getLsbD i := rfl
  have hvalue : (complement b).value.getLsbD i = !(b.value.getLsbD i || b.mask.getLsbD i) := by
    simp only [complement, BitVec.getLsbD_not, getLsbD_top, decide_eq_true hi, Bool.true_and]
  rw [getLsbD_top, hmask, hvalue, BitVec.getLsbD_not, decide_eq_true hi]
  revert hv
  generalize b.mask.getLsbD i = m, b.value.getLsbD i = v
  revert m v
  decide

/-- The subtraction formula is the adder on the complement with a carry-in: its
`alpha` is the greatest difference and its `beta` the least. -/
theorem tnumSub_mask {a b : Tnum N} (ha : TnumValid a) (hb : TnumValid b) :
    (tnumSub a b).mask = (addCarryTnum true a (complement b)).mask := by
  have halpha : a.value - b.value + a.mask = addCarry true a.top (complement b).top := by
    rw [complement_top hb, addCarry_true_not, top_eq_add ha, BitVec.sub_eq_add_neg,
      BitVec.sub_eq_add_neg]
    ac_rfl
  have hbeta : a.value - b.value - b.mask =
      addCarry true a.value (complement b).value := by
    have hvalue : (complement b).value = ~~~b.top := rfl
    rw [hvalue, addCarry_true_not, top_eq_add hb, sub_sub]
  simp only [tnumSub, addCarryTnum, halpha, hbeta]
  rfl

theorem tnumSub_eq {a b : Tnum N} (ha : TnumValid a) (hb : TnumValid b) :
    tnumSub a b = addCarryTnum true a (complement b) := by
  have hmask := tnumSub_mask ha hb
  have hvalue : (tnumSub a b).value = (addCarryTnum true a (complement b)).value := by
    have hleft : (tnumSub a b).value = (a.value - b.value) &&& ~~~(tnumSub a b).mask := rfl
    have hright : (addCarryTnum true a (complement b)).value =
      addCarry true a.value (complement b).value &&&
        ~~~(addCarryTnum true a (complement b)).mask := rfl
    rw [hleft, hright, hmask]
    refine BitVec.eq_of_getLsbD_eq fun i hi => ?_
    rw [BitVec.getLsbD_and, BitVec.getLsbD_and, BitVec.getLsbD_not]
    cases hmu : (addCarryTnum true a (complement b)).mask.getLsbD i with
    | true => simp only [Bool.not_true, Bool.and_false]
    | false =>
        have hknown : (a.value - b.value).getLsbD i =
            (addCarry true a.value (complement b).value).getLsbD i := by
          rw [← addCarry_true_not]
          refine addCarry_known ha (complement_valid b) hi hmu (tnumContains_value a) ?_
          rw [← complement_top hb]
          exact tnumContains_top _
        rw [hknown]
  cases h : tnumSub a b
  cases h' : addCarryTnum true a (complement b)
  simp_all only

theorem tnumSub_valid (a b : Tnum N) : TnumValid (tnumSub a b) := valid_of_masked _ _

theorem tnumSub_exact {a b : Tnum N} (ha : TnumValid a) (hb : TnumValid b) :
    Exact (tnumSub a b) (Set.image2 (· - ·) a.points b.points) := by
  have hset : Set.image2 (addCarry true) a.points (complement b).points =
      Set.image2 (· - ·) a.points b.points := by
    rw [complement_points hb, Set.image2_image_right]
    simp only [addCarry_true_not]
  rw [tnumSub_eq ha hb, ← hset]
  exact addCarryTnum_exact true ha (complement_valid b)

theorem tnumSub_contains {a b : Tnum N} (ha : TnumValid a) (hb : TnumValid b) {x y : BitVec N}
    (hx : TnumContains a x) (hy : TnumContains b y) : TnumContains (tnumSub a b) (x - y) :=
  (tnumSub_exact ha hb).contains ⟨x, hx, y, hy, rfl⟩

/-- Addition and subtraction give the best tnum of all sums and of all differences. -/
theorem tnumAdd_tnumSub_best {a b : Tnum N} (ha : TnumValid a) (hb : TnumValid b) :
    BestTnum (tnumAdd a b) (Set.image2 (· + ·) a.points b.points) ∧
      BestTnum (tnumSub a b) (Set.image2 (· - ·) a.points b.points) :=
  ⟨(tnumAdd_exact ha hb).best (tnumAdd_valid a b), (tnumSub_exact ha hb).best (tnumSub_valid a b)⟩

/-- An odd number below four, and four with an unknown lowest bit. -/
theorem tnumAdd_tnumSub_best_four :
    BestTnum (tnumAdd ⟨1#4, 2#4⟩ ⟨4#4, 1#4⟩)
        (Set.image2 (· + ·) (Tnum.points ⟨1#4, 2#4⟩) (Tnum.points ⟨4#4, 1#4⟩)) ∧
      BestTnum (tnumSub ⟨1#4, 2#4⟩ ⟨4#4, 1#4⟩)
        (Set.image2 (· - ·) (Tnum.points ⟨1#4, 2#4⟩) (Tnum.points ⟨4#4, 1#4⟩)) :=
  tnumAdd_tnumSub_best (by decide) (by decide)

end Exoverifier

import Mathlib.Data.BitVec
import Exoverifier.Library.Coordinates

/-! # Value/mask tristate numbers

The representation of `tnum.rkt` and `tnum.c`: a set bit of `mask` is unknown,
any other bit is the bit of `value`. The second half reads a tnum as a family
of coordinate sets, one for each bit, so that optimality of an operator becomes
a statement about single bits.
-/

namespace Exoverifier

open Library

/-- A tristate number of width `N`. -/
structure Tnum (N : ℕ) where
  value : BitVec N
  mask : BitVec N
  deriving DecidableEq, Repr

variable {N : ℕ}

/-- No bit is set in both the value and the mask. -/
def TnumValid (t : Tnum N) : Prop := t.value &&& t.mask = 0#N

instance (t : Tnum N) : Decidable (TnumValid t) := inferInstanceAs (Decidable (_ = _))

/-- Whether the constant `c` is represented by `t`. -/
def TnumContains (t : Tnum N) (c : BitVec N) : Prop :=
  let ok := t.mask ||| ~~~(t.value ^^^ c)
  ~~~ok = 0#N

instance (t : Tnum N) (c : BitVec N) : Decidable (TnumContains t c) :=
  inferInstanceAs (Decidable (_ = _))

/-- A value/mask pair together with its validity. -/
abbrev ValidTnum (N : ℕ) := { t : Tnum N // TnumValid t }

def tnumUnknown (N : ℕ) : Tnum N := ⟨0#N, ~~~0#N⟩

def tnumConst (c : BitVec N) : Tnum N := ⟨c, c ^^^ c⟩

def tnumIsConst (a : Tnum N) : Bool := a.mask == 0#N

/-! ## Shifts by a constant -/

def tnumLshift (a : Tnum N) (shift : BitVec N) : Tnum N := ⟨a.value <<< shift, a.mask <<< shift⟩

def tnumRshift (a : Tnum N) (shift : BitVec N) : Tnum N := ⟨a.value >>> shift, a.mask >>> shift⟩

/-- The arithmetic shift works on the low `bitness` bits and zero-extends back. -/
def tnumArshift (a : Tnum N) (shift : BitVec N) (bitness : ℕ) : Tnum N :=
  let lomask := a.mask.setWidth bitness
  let lovalue := a.value.setWidth bitness
  let loshift := shift.setWidth bitness
  ⟨(lovalue.sshiftRight' loshift).setWidth N, (lomask.sshiftRight' loshift).setWidth N⟩

/-! ## Set and bitwise operators -/

/-- On disagreement the value bit of the intersection is set. -/
def tnumIntersect (a b : Tnum N) : Tnum N :=
  let v := a.value ||| b.value
  let mu := a.mask &&& b.mask
  ⟨v &&& ~~~mu, mu⟩

def tnumUnion (a b : Tnum N) : Tnum N :=
  let mu := a.mask ||| b.mask ||| (a.value ^^^ b.value)
  ⟨a.value &&& ~~~mu, mu⟩

def tnumAnd (a b : Tnum N) : Tnum N :=
  let alpha := a.value ||| a.mask
  let beta := b.value ||| b.mask
  let v := a.value &&& b.value
  ⟨v, alpha &&& beta &&& ~~~v⟩

def tnumOr (a b : Tnum N) : Tnum N :=
  let v := a.value ||| b.value
  let mu := a.mask ||| b.mask
  ⟨v, mu &&& ~~~v⟩

def tnumXor (a b : Tnum N) : Tnum N :=
  let v := a.value ^^^ b.value
  let mu := a.mask ||| b.mask
  ⟨v &&& ~~~mu, mu⟩

/-- Whether `b` is a subset of `a`. -/
def tnumIn (a b : Tnum N) : Bool :=
  if b.mask &&& ~~~a.mask ≠ 0#N then false
  else a.value == (b.value &&& ~~~a.mask)

/-! ## The coordinate view -/

/-- The bits of a word as a point of the Boolean cube. -/
def bits (x : BitVec N) : Fin N → Bool := fun i => x.getLsbD i

theorem bits_injective : Function.Injective (@bits N) := by
  intro x y h
  exact BitVec.eq_of_getLsbD_eq fun i hi => congrFun h ⟨i, hi⟩

theorem bits_bijective : Function.Bijective (@bits N) := by
  refine ⟨bits_injective, fun v => ⟨BitVec.ofFnLE v, ?_⟩⟩
  funext i
  rw [bits, BitVec.getLsbD_ofFnLE, dif_pos i.isLt]

/-- The values bit `i` may take. -/
def Tnum.coord (t : Tnum N) (i : Fin N) : Set Bool :=
  {b | t.mask.getLsbD i = true ∨ t.value.getLsbD i = b}

/-- The words a tnum represents. -/
def Tnum.points (t : Tnum N) : Set (BitVec N) := {c | TnumContains t c}

theorem tnumContains_iff {t : Tnum N} {c : BitVec N} :
    TnumContains t c ↔
      ∀ i < N, t.mask.getLsbD i = true ∨ t.value.getLsbD i = c.getLsbD i := by
  have hbit : ∀ i < N, ((~~~(t.mask ||| ~~~(t.value ^^^ c))).getLsbD i = (0#N).getLsbD i ↔
      (t.mask.getLsbD i = true ∨ t.value.getLsbD i = c.getLsbD i)) := by
    intro i hi
    simp only [BitVec.getLsbD_not, BitVec.getLsbD_or, BitVec.getLsbD_xor, BitVec.getLsbD_zero, hi]
    cases t.mask.getLsbD i <;> cases t.value.getLsbD i <;> cases c.getLsbD i <;> decide
  constructor
  · intro h i hi
    exact (hbit i hi).1 (congrArg (fun x => x.getLsbD i) h)
  · intro h
    exact BitVec.eq_of_getLsbD_eq fun i hi => (hbit i hi).2 (h i hi)

theorem tnumValid_iff {t : Tnum N} :
    TnumValid t ↔ ∀ i < N, t.mask.getLsbD i = true → t.value.getLsbD i = false := by
  have hbit : ∀ i, ((t.value &&& t.mask).getLsbD i = (0#N).getLsbD i ↔
      (t.mask.getLsbD i = true → t.value.getLsbD i = false)) := by
    intro i
    simp only [BitVec.getLsbD_and, BitVec.getLsbD_zero]
    cases t.mask.getLsbD i <;> cases t.value.getLsbD i <;> decide
  constructor
  · intro h i _
    exact (hbit i).1 (congrArg (fun x => x.getLsbD i) h)
  · intro h
    exact BitVec.eq_of_getLsbD_eq fun i hi => (hbit i).2 (h i hi)

theorem mem_points_iff {t : Tnum N} {c : BitVec N} :
    c ∈ t.points ↔ bits c ∈ Set.univ.pi t.coord := by
  rw [Set.mem_univ_pi]
  exact tnumContains_iff.trans ⟨fun h i => h i i.isLt, fun h i hi => h ⟨i, hi⟩⟩

/-- The value is a representative of a tnum, and so is the value with any set
of unknown bits raised. -/
theorem tnumContains_raise {t : Tnum N} (ht : TnumValid t) (u : BitVec N) :
    TnumContains t (t.value ||| (u &&& t.mask)) := by
  rw [tnumContains_iff]
  intro i hi
  have := tnumValid_iff.1 ht i hi
  simp only [BitVec.getLsbD_or, BitVec.getLsbD_and]
  cases hm : t.mask.getLsbD i <;> simp_all

theorem tnumContains_value (t : Tnum N) : TnumContains t t.value :=
  tnumContains_iff.2 fun _ _ => Or.inr rfl

theorem tnumContains_unknown (c : BitVec N) : TnumContains (tnumUnknown N) c :=
  tnumContains_iff.2 fun i hi => Or.inl (by simp [tnumUnknown, hi])

theorem points_nonempty (t : Tnum N) : t.points.Nonempty := ⟨t.value, tnumContains_value t⟩

/-- Valid tnums with the same coordinates are the same pair. -/
theorem eq_of_coord_eq {s t : Tnum N} (hs : TnumValid s) (ht : TnumValid t)
    (h : s.coord = t.coord) : s = t := by
  have hbit : ∀ i < N, s.mask.getLsbD i = t.mask.getLsbD i ∧
      s.value.getLsbD i = t.value.getLsbD i := by
    intro i hi
    have hsv := tnumValid_iff.1 hs i hi
    have htv := tnumValid_iff.1 ht i hi
    have hc := congrFun h ⟨i, hi⟩
    have htrue : (true ∈ s.coord ⟨i, hi⟩) = (true ∈ t.coord ⟨i, hi⟩) := by rw [hc]
    have hfalse : (false ∈ s.coord ⟨i, hi⟩) = (false ∈ t.coord ⟨i, hi⟩) := by rw [hc]
    simp only [Tnum.coord, Set.mem_ofPred_eq, eq_iff_iff] at htrue hfalse
    revert hsv htv htrue hfalse
    generalize s.mask.getLsbD i = sm, t.mask.getLsbD i = tm, s.value.getLsbD i = sv,
      t.value.getLsbD i = tv
    revert sm tm sv tv
    decide
  have hmask : s.mask = t.mask := BitVec.eq_of_getLsbD_eq fun i hi => (hbit i hi).1
  have hvalue : s.value = t.value := BitVec.eq_of_getLsbD_eq fun i hi => (hbit i hi).2
  cases s; cases t; simp_all

/-- The mask of a `⟨v & ~mu, mu⟩` pair never meets its value. -/
theorem valid_of_masked (v mu : BitVec N) : TnumValid ⟨v &&& ~~~mu, mu⟩ := by
  refine tnumValid_iff.2 fun i _ hm => ?_
  simp only [BitVec.getLsbD_and, BitVec.getLsbD_not] at hm ⊢
  simp only [hm, Bool.not_true, Bool.and_false]

/-! ## Best tnums of a set of words -/

/-- `t` is the best tnum of `S`: valid, an abstraction of `S`, and included in
every valid tnum that also abstracts `S`. -/
structure BestTnum (t : Tnum N) (S : Set (BitVec N)) : Prop where
  valid : TnumValid t
  contains : ∀ x ∈ S, TnumContains t x
  least : ∀ d : Tnum N, TnumValid d → (∀ x ∈ S, TnumContains d x) →
    ∀ z, TnumContains t z → TnumContains d z

/-- Every bit of `t` takes exactly the values that bit takes over `S`. -/
def Exact (t : Tnum N) (S : Set (BitVec N)) : Prop := t.coord = hull (bits '' S)

theorem exact_iff {t : Tnum N} {S : Set (BitVec N)} :
    Exact t S ↔ ∀ i < N, ∀ b, (t.mask.getLsbD i = true ∨ t.value.getLsbD i = b) ↔
      ∃ x ∈ S, x.getLsbD i = b := by
  have hmem : ∀ i : Fin N, ∀ b, b ∈ hull (bits '' S) i ↔ ∃ x ∈ S, x.getLsbD i = b := by
    intro i b
    rw [mem_hull, Set.exists_mem_image]
    rfl
  constructor
  · intro h i hi b
    have : b ∈ t.coord ⟨i, hi⟩ ↔ b ∈ hull (bits '' S) ⟨i, hi⟩ := by rw [h]
    exact this.trans (hmem ⟨i, hi⟩ b)
  · intro h
    funext i
    ext b
    exact (h i i.isLt b).trans (hmem i b).symm

theorem Exact.contains {t : Tnum N} {S : Set (BitVec N)} (h : Exact t S) {x : BitVec N}
    (hx : x ∈ S) : TnumContains t x := by
  refine mem_points_iff.2 ?_
  rw [show t.coord = hull (bits '' S) from h]
  exact subset_box_hull _ ⟨x, hx, rfl⟩

theorem Exact.least {t : Tnum N} {S : Set (BitVec N)} (h : Exact t S) {d : Tnum N}
    (hd : ∀ x ∈ S, TnumContains d x) {z : BitVec N} (hz : TnumContains t z) :
    TnumContains d z := by
  have hbox : bits '' S ⊆ Set.univ.pi d.coord := by
    rintro _ ⟨x, hx, rfl⟩
    exact mem_points_iff.1 (hd x hx)
  refine mem_points_iff.2 (box_hull_subset hbox ?_)
  rw [← show t.coord = hull (bits '' S) from h]
  exact mem_points_iff.1 hz

theorem Exact.best {t : Tnum N} {S : Set (BitVec N)} (h : Exact t S) (ht : TnumValid t) :
    BestTnum t S :=
  ⟨ht, fun _ hx => h.contains hx, fun _ _ hd _ hz => h.least hd hz⟩

/-- Two valid tnums that are exact for one set are the same pair. -/
theorem Exact.unique {s t : Tnum N} {S : Set (BitVec N)} (hs : Exact s S) (ht : Exact t S)
    (vs : TnumValid s) (vt : TnumValid t) : s = t :=
  eq_of_coord_eq vs vt (hs.trans ht.symm)

/-- A valid tnum is exact for the words it represents. -/
theorem exact_points {t : Tnum N} (ht : TnumValid t) : Exact t t.points := by
  rw [exact_iff]
  intro i hi b
  constructor
  · rintro (hm | hv)
    · refine ⟨t.value ||| (BitVec.fill N b &&& t.mask), tnumContains_raise ht _, ?_⟩
      rw [BitVec.getLsbD_or, BitVec.getLsbD_and, tnumValid_iff.1 ht i hi hm, hm]
      simp [hi]
    · exact ⟨t.value, tnumContains_value t, hv⟩
  · rintro ⟨x, hx, rfl⟩
    exact tnumContains_iff.1 hx i hi

end Exoverifier

import Exoverifier.Verifier.RegState

/-! # Synchronising the views of a register

Running the three refinements in their fixed order loses no value: it repairs a
nearly contained value, and on a state that contains a value it only tightens.
The final tnum is inside the tnums of the two unsigned ranges, from which the
invariants of a register state follow.
-/

namespace Exoverifier

open Library

namespace RegState

/-- The refinements in the order the verifier runs them. -/
def sync (reg : RegState) : Option RegState := reg.updateRegBounds.regDeduceBounds.regBoundOffset

/-- The weaker containment of `Bounds.Near`, for both widths. -/
structure Near (r : RegState) (x : BitVec 64) : Prop where
  valid : TnumValid r.varOff
  contains : TnumContains r.varOff x
  bounds : r.bounds.Near r.varOff.top x
  bounds32 : r.bounds32.Near (lowTnum r.varOff).top (x.setWidth 32)

theorem Contains.near {r : RegState} {x : BitVec 64} (h : r.Contains x)
    (hv : TnumValid r.varOff) : r.Near x :=
  ⟨hv, h.1, h.2.1.near _, h.2.2.near _⟩

/-- The invariants say that a signed minimum which is not negative makes the
greatest word of the tnum not negative. -/
theorem invariants_iff {r : RegState} :
    r.Invariants ↔ (0 ≤ r.bounds.smin.toInt → 0 ≤ r.varOff.top.toInt) ∧
      (0 ≤ r.bounds32.smin.toInt → 0 ≤ (lowTnum r.varOff).top.toInt) := by
  have hlt : ∀ x : BitVec 64, x < sMin 64 ↔ 0 ≤ x.toInt := by
    intro x
    have hx := toInt_cases x
    have hmin : (sMin 64).toNat = 2 ^ 63 := by decide
    rw [BitVec.lt_def, hmin]
    omega
  have hlt32 : ∀ x : BitVec 32, x < sMin 32 ↔ 0 ≤ x.toInt := by
    intro x
    have hx := toInt_cases x
    have hmin : (sMin 32).toNat = 2 ^ 31 := by decide
    rw [BitVec.lt_def, hmin]
    omega
  have htop : r.varOff.mask ||| r.varOff.value = r.varOff.top := BitVec.or_comm _ _
  have hlow : r.varOff.top.setWidth 32 = (lowTnum r.varOff).top := BitVec.setWidth_or
  rw [Invariants, htop, hlow, hlt, hlt32, BitVec.sle_iff_toInt_le, BitVec.sle_iff_toInt_le,
    BitVec.toInt_zero, BitVec.toInt_zero]

/-! ## One refinement after the other -/

theorem updateRegBounds_eq (r : RegState) :
    r.updateRegBounds = ⟨r.varOff, r.bounds.update r.varOff, r.bounds32.update (lowTnum r.varOff)⟩ := by
  rw [updateRegBounds, updateReg32Bounds_eq]
  rfl

theorem Near.updateRegBounds {r : RegState} {x : BitVec 64} (h : r.Near x) :
    r.updateRegBounds.Near x := by
  rw [updateRegBounds_eq]
  exact ⟨h.valid, h.contains, h.bounds.update h.valid h.contains,
    h.bounds32.update (lowTnum_valid h.valid) (lowTnum_contains h.contains)⟩

/-- A signed minimum that is not negative makes the unsigned maximum not negative. -/
def SignsAgree (r : RegState) : Prop :=
  (0 ≤ r.bounds.smin.toInt → 0 ≤ r.bounds.umax.toInt) ∧
    (0 ≤ r.bounds32.smin.toInt → 0 ≤ r.bounds32.umax.toInt)

theorem Near.regDeduceBounds {r : RegState} {x : BitVec 64} (h : r.Near x) :
    r.updateRegBounds.regDeduceBounds.Contains x ∧
      r.updateRegBounds.regDeduceBounds.SignsAgree := by
  have hnear := h.updateRegBounds
  rw [updateRegBounds_eq] at hnear ⊢
  obtain ⟨hcontains, hsign⟩ := hnear.bounds.deduce (Bounds.update_umax_le r.bounds r.varOff)
  obtain ⟨hcontains32, hsign32⟩ :=
    hnear.bounds32.deduce (Bounds.update_umax_le r.bounds32 (lowTnum r.varOff))
  exact ⟨⟨h.contains, hcontains, hcontains32⟩, hsign, hsign32⟩

/-! ## The refined tnum -/

/-- Bits above every word of a range are known zeros of its tnum. -/
theorem range_bit_false {w : ℕ} {t : Tnum w} {min max : BitVec w}
    (ht : Exact t {v | min ≤ v ∧ v ≤ max}) {i : ℕ} (hi : i < w) (hmax : max.toNat < 2 ^ i)
    {q : Bool} (hq : t.mask.getLsbD i = true ∨ t.value.getLsbD i = q) : q = false := by
  obtain ⟨v, ⟨-, hv⟩, rfl⟩ := (exact_iff.1 ht i hi q).1 hq
  exact Nat.testBit_lt_two_pow (Nat.lt_of_le_of_lt hv hmax)

/-- The tnum `__reg_bound_offset` assembles from the two ranges. -/
def offsetTnum (varOff range64 range32 : Tnum 64) : Tnum 64 :=
  tnumOr (tnumClearSubreg (tnumIntersect varOff range64))
    (tnumIntersect (tnumSubreg varOff) range32)

/-- With a word common to all three tnums, the assembled tnum takes its upper
half from the 64-bit range and its lower half from the 32-bit one. -/
theorem offsetTnum_contains_iff {v t64 t32 : Tnum 64} (hv : TnumValid v) (hv64 : TnumValid t64)
    (hv32 : TnumValid t32) {x : BitVec 64} (hx : TnumContains v x) (hx64 : TnumContains t64 x)
    (hx32 : TnumContains t32 ((x.setWidth 32).setWidth 64)) {y : BitVec 64} :
    TnumContains (offsetTnum v t64 t32) y ↔
      (∀ i < 64, 32 ≤ i → (v.mask.getLsbD i = true ∨ v.value.getLsbD i = y.getLsbD i) ∧
        (t64.mask.getLsbD i = true ∨ t64.value.getLsbD i = y.getLsbD i)) ∧
      TnumContains (lowTnum v) (y.setWidth 32) ∧
        TnumContains t32 ((y.setWidth 32).setWidth 64) := by
  have hupper := fun {i} (hi : i < 64) q => tnumIntersect_bit_iff hv hv64 hx hx64 hi q
  have hlower := fun {y} => tnumIntersect_contains_iff (tnumSubreg_valid hv) hv32
    (tnumSubreg_contains_iff.2 (lowTnum_contains hx)) hx32 (y := y)
  have hhigh : HighZero (tnumIntersect (tnumSubreg v) t32) :=
    (tnumSubreg_highZero v).of_subset fun y hy => (hlower.1 hy).1
  rw [offsetTnum, splice_contains_iff (tnumIntersect_valid _ _) (tnumIntersect_valid _ _) hhigh,
    ← hhigh.contains_iff, hlower, tnumSubreg_contains_iff]
  exact and_congr_left' ⟨fun h i hi hge => (hupper hi _).1 (h i hi hge),
    fun h i hi hge => (hupper hi _).2 (h i hi hge)⟩

theorem toNat_zext (x : BitVec 32) : (x.setWidth 64).toNat = x.toNat := by
  have hx := x.isLt
  rw [BitVec.toNat_setWidth, Nat.mod_eq_of_lt (by omega)]

/-- The low half of a contained value lies in the zero-extended 32-bit range. -/
theorem Contains.zext_between {r : RegState} {y : BitVec 64} (hy : r.Contains y) :
    r.bounds32.umin.setWidth 64 ≤ (y.setWidth 32).setWidth 64 ∧
      (y.setWidth 32).setWidth 64 ≤ r.bounds32.umax.setWidth 64 := by
  rw [BitVec.le_def, BitVec.le_def, toNat_zext, toNat_zext, toNat_zext]
  exact ⟨hy.2.2.1, hy.2.2.2.1⟩

/-- On a state that contains a value the last refinement succeeds; it changes
only the tnum, keeps every contained value, adds no word, and bounds the tnum
by the unsigned maxima. -/
theorem regBoundOffset_spec {r : RegState} (hv : TnumValid r.varOff) {x : BitVec 64}
    (hx : r.Contains x) :
    ∃ t, r.regBoundOffset = some { r with varOff := t } ∧ TnumValid t ∧
      (∀ y, TnumContains t y → TnumContains r.varOff y) ∧
      (∀ y, r.Contains y → TnumContains t y) ∧
      (0 ≤ r.bounds.umax.toInt → 0 ≤ t.top.toInt) ∧
      (0 ≤ r.bounds32.umax.toInt → 0 ≤ (lowTnum t).top.toInt) := by
  obtain ⟨t64, ht64, hv64, hex64⟩ := tnumRange_spec r.bounds.umin r.bounds.umax
  obtain ⟨t32, ht32, hv32, hex32⟩ :=
    tnumRange_spec (r.bounds32.umin.setWidth 64) (r.bounds32.umax.setWidth 64)
  replace hex64 := hex64 (BitVec.le_trans hx.2.1.1 hx.2.1.2.1)
  replace hex32 := hex32 (BitVec.le_trans hx.zext_between.1 hx.zext_between.2)
  have hin64 : ∀ y, r.Contains y → TnumContains t64 y := fun y hy =>
    hex64.contains ⟨hy.2.1.1, hy.2.1.2.1⟩
  have hin32 : ∀ y, r.Contains y → TnumContains t32 ((y.setWidth 32).setWidth 64) := fun y hy =>
    hex32.contains hy.zext_between
  have hmem := fun {y} =>
    offsetTnum_contains_iff hv hv64 hv32 hx.1 (hin64 x hx) (hin32 x hx) (y := y)
  have htop := hmem.1 (tnumContains_top (offsetTnum r.varOff t64 t32))
  refine ⟨offsetTnum r.varOff t64 t32, ?_, tnumOr_valid _ _, ?_, ?_, ?_, ?_⟩
  · simp only [regBoundOffset, ht64, ht32, Option.bind_eq_bind, Option.bind_some]
    rfl
  · intro y hy
    obtain ⟨hhi, hlo, -⟩ := hmem.1 hy
    refine tnumContains_iff.2 fun i hi => ?_
    by_cases hlow : i < 32
    · have hbit := tnumContains_iff.1 hlo i hlow
      rwa [(low_bits _ hlow).1, (low_bits _ hlow).2, getLsbD_low y hlow] at hbit
    · exact (hhi i hi (by omega)).1
  · intro y hy
    exact hmem.2 ⟨fun i hi _ => ⟨tnumContains_iff.1 hy.1 i hi,
      tnumContains_iff.1 (hin64 y hy) i hi⟩, lowTnum_contains hy.1, hin32 y hy⟩
  · intro hmax
    have hlt : r.bounds.umax.toNat < 2 ^ 63 := by
      have := toInt_cases r.bounds.umax
      omega
    rw [toInt_nonneg_iff, BitVec.msb_eq_getLsbD_last]
    exact range_bit_false hex64 (by omega) hlt (htop.1 63 (by omega) (by omega)).2
  · intro hmax
    have hlt : (r.bounds32.umax.setWidth 64).toNat < 2 ^ 31 := by
      have := toInt_cases r.bounds32.umax
      rw [toNat_zext]
      omega
    have hbit := tnumContains_iff.1 htop.2.2 31 (by omega)
    rw [getLsbD_zext _ (by omega), decide_eq_true (by omega), Bool.true_and] at hbit
    have hlow : (offsetTnum r.varOff t64 t32).top.setWidth 32 =
        (lowTnum (offsetTnum r.varOff t64 t32)).top := BitVec.setWidth_or
    rw [toInt_nonneg_iff, BitVec.msb_eq_getLsbD_last, ← hlow]
    exact range_bit_false hex32 (by omega) hlt hbit

/-! ## The whole synchronisation -/

/-- A nearly contained value is contained afterwards, and the invariants hold. -/
theorem Near.sync {r : RegState} {x : BitVec 64} (h : r.Near x) :
    ∃ r', r.sync = some r' ∧ r'.Contains x ∧ TnumValid r'.varOff ∧ r'.Invariants := by
  obtain ⟨hcontains, hsigns⟩ := h.regDeduceBounds
  have hv : TnumValid r.updateRegBounds.regDeduceBounds.varOff := h.valid
  obtain ⟨t, ht, htv, -, hkeep, htop, htop32⟩ := regBoundOffset_spec hv hcontains
  refine ⟨_, ht, ⟨hkeep x hcontains, hcontains.2⟩, htv, invariants_iff.2 ⟨?_, ?_⟩⟩
  · exact fun hmin => htop (hsigns.1 hmin)
  · exact fun hmin => htop32 (hsigns.2 hmin)

/-- Synchronisation loosens nothing on a state that contains a value. -/
theorem sync_tighter {r r' : RegState} (hv : TnumValid r.varOff) {x : BitVec 64}
    (hx : r.Contains x) (h : r.sync = some r') :
    r'.bounds.Tighter r.bounds ∧ r'.bounds32.Tighter r.bounds32 ∧
      ∀ y, TnumContains r'.varOff y → TnumContains r.varOff y := by
  have hcontains := ((hx.near hv).regDeduceBounds).1
  have hv' : TnumValid r.updateRegBounds.regDeduceBounds.varOff := hv
  obtain ⟨t, ht, -, hsub, -⟩ := regBoundOffset_spec hv' hcontains
  cases Option.some.inj (ht.symm.trans h)
  have hupdate := (hx.2.1.update hv hx.1)
  have hupdate32 := (hx.2.2.update (lowTnum_valid hv) (lowTnum_contains hx.1))
  rw [updateRegBounds_eq]
  exact ⟨(Bounds.deduce_tighter hupdate).trans (Bounds.update_tighter _ _),
    (Bounds.deduce_tighter hupdate32).trans (Bounds.update_tighter _ _), hsub⟩

/-- Synchronisation is exact on every state with a valid tnum that contains
some value: it keeps the set of contained values, loosens no view, keeps the
tnum valid and establishes the invariants. -/
theorem sync_exact {r : RegState} (hv : TnumValid r.varOff) (hne : ∃ x, r.Contains x) :
    ∃ r', r.sync = some r' ∧ (∀ y, r'.Contains y ↔ r.Contains y) ∧
      (r'.bounds.Tighter r.bounds ∧ r'.bounds32.Tighter r.bounds32 ∧
        ∀ y, TnumContains r'.varOff y → TnumContains r.varOff y) ∧
      TnumValid r'.varOff ∧ r'.Invariants := by
  obtain ⟨x, hx⟩ := hne
  obtain ⟨r', hr', -, hv', hinv⟩ := (hx.near hv).sync
  have htight := sync_tighter hv hx hr'
  refine ⟨r', hr', fun y => ⟨fun hy => ?_, fun hy => ?_⟩, htight, hv', hinv⟩
  · exact ⟨htight.2.2 y hy.1, htight.1.contains hy.2.1, htight.2.1.contains hy.2.2⟩
  · obtain ⟨r'', hr'', hcontains, -⟩ := (hy.near hv).sync
    cases Option.some.inj (hr'.symm.trans hr'')
    exact hcontains

/-- A state that knows only the bits of the values from 4 to 7. -/
def lowBits : RegState := { unknown with varOff := ⟨4#64, 3#64⟩ }

example : lowBits.sync.map (fun r => (r.bounds.umin, r.bounds.umax)) = some (4#64, 7#64) := by
  decide

theorem sync_exact_lowBits :
    ∃ r', lowBits.sync = some r' ∧ (∀ y, r'.Contains y ↔ lowBits.Contains y) ∧
      (r'.bounds.Tighter lowBits.bounds ∧ r'.bounds32.Tighter lowBits.bounds32 ∧
        ∀ y, TnumContains r'.varOff y → TnumContains lowBits.varOff y) ∧
      TnumValid r'.varOff ∧ r'.Invariants :=
  sync_exact (by decide) ⟨4#64, by decide⟩

end RegState

end Exoverifier

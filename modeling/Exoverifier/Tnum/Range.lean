import Exoverifier.Library.Prefix
import Exoverifier.Tnum.Wiring

/-! # The tnum of an interval

`fls` finds the highest bit in which the two ends of an interval differ. Bits
above it are common to the interval and the bits up to it are unknown, which
is exact because each of them takes both values inside the interval.
-/

namespace Exoverifier

open Library

variable {N : ℕ}

/-- The downward search of `fls`; `none` stands for its failure branch. -/
def flsLoop (val : BitVec N) : ℕ → Option (BitVec N)
  | 0 => none
  | n + 1 => if val.getLsbD n then some (BitVec.ofNat N (n + 1)) else flsLoop val n

/-- The one-based position of the last set bit, zero when there is none. -/
def fls (val : BitVec N) : Option (BitVec N) := if val = 0#N then some 0#N else flsLoop val N

def tnumRange (min max : BitVec N) : Option (Tnum N) := do
  let chi := min ^^^ max
  let bits ← fls chi
  if BitVec.ofNat N (N - 1) < bits then
    return tnumUnknown N
  else
    let delta := (1#N <<< bits) - 1#N
    return ⟨min &&& ~~~delta, delta⟩

/-! ## The search -/

/-- `n` bits of `val` are below and at its last set bit. -/
structure LastBit (val : BitVec N) (n : ℕ) : Prop where
  le : n ≤ N
  above : ∀ i, n ≤ i → val.getLsbD i = false
  at_last : ∀ k, n = k + 1 → val.getLsbD k = true

theorem flsLoop_spec {val : BitVec N} (h : val ≠ 0#N) {n : ℕ} (hn : n ≤ N)
    (habove : ∀ i, n ≤ i → val.getLsbD i = false) :
    ∃ k, flsLoop val n = some (BitVec.ofNat N k) ∧ LastBit val k := by
  induction n with
  | zero =>
      refine absurd (BitVec.eq_of_getLsbD_eq fun i _ => ?_) h
      rw [habove i (by omega), BitVec.getLsbD_zero]
  | succ n ih =>
      cases hbit : val.getLsbD n with
      | true =>
          refine ⟨n + 1, by rw [flsLoop, hbit, if_pos rfl], hn, habove, ?_⟩
          intro k hk
          rw [← Nat.succ.inj hk, hbit]
      | false =>
          have habove' : ∀ i, n ≤ i → val.getLsbD i = false := by
            intro i hi
            rcases Nat.eq_or_lt_of_le hi with rfl | hlt
            · exact hbit
            · exact habove i hlt
          obtain ⟨k, hk, hlast⟩ := ih (by omega) habove'
          refine ⟨k, ?_, hlast⟩
          rw [flsLoop, hbit, if_neg (by decide), hk]

/-- The search never reaches its failure branch. -/
theorem fls_spec (val : BitVec N) : ∃ n, fls val = some (BitVec.ofNat N n) ∧ LastBit val n := by
  by_cases h : val = 0#N
  · refine ⟨0, by rw [fls, if_pos h], by omega, ?_, fun k hk => absurd hk (by omega)⟩
    intro i _
    rw [h, BitVec.getLsbD_zero]
  · obtain ⟨k, hk, hlast⟩ := flsLoop_spec h (Nat.le_refl N) fun i hi =>
      BitVec.getLsbD_of_ge val i hi
    exact ⟨k, by rw [fls, if_neg h, hk], hlast⟩

/-! ## The result bit by bit -/

theorem full_width_iff {n : ℕ} (hn : n ≤ N) :
    BitVec.ofNat N (N - 1) < BitVec.ofNat N n ↔ 0 < N ∧ n = N := by
  have hN : N < 2 ^ N := Nat.lt_two_pow_self
  rw [BitVec.lt_def, BitVec.toNat_ofNat, BitVec.toNat_ofNat, Nat.mod_eq_of_lt (by omega),
    Nat.mod_eq_of_lt (by omega)]
  omega

/-- The low `n` bits of the interval's tnum are unknown, the others are those of
its lower end. -/
theorem tnumRange_bits (min max : BitVec N) :
    ∃ n t, LastBit (min ^^^ max) n ∧ fls (min ^^^ max) = some (BitVec.ofNat N n) ∧
      tnumRange min max = some t ∧
      ∀ i < N, t.mask.getLsbD i = decide (i < n) ∧
        t.value.getLsbD i = (min.getLsbD i && !decide (i < n)) := by
  obtain ⟨n, hfls, hlast⟩ := fls_spec (min ^^^ max)
  by_cases hfull : 0 < N ∧ n = N
  · refine ⟨n, tnumUnknown N, hlast, hfls, ?_, ?_⟩
    · have hwide := (full_width_iff hlast.le).2 hfull
      simp only [tnumRange, hfls, Option.bind_eq_bind, Option.bind_some, hwide, if_true]
      rfl
    · intro i hi
      simp [tnumUnknown, hi, hfull.2]
  · have hdelta : (1#N <<< BitVec.ofNat N n) - 1#N = BitVec.ofNat N (2 ^ n) - 1#N := by
      have hpow : 1#N <<< BitVec.ofNat N n = BitVec.ofNat N (2 ^ n) := by
        rw [BitVec.shiftLeft_eq', BitVec.toNat_ofNat, Nat.mod_eq_of_lt, ← BitVec.twoPow_eq,
          twoPow_eq_ofNat]
        exact Nat.lt_of_le_of_lt hlast.le Nat.lt_two_pow_self
      rw [hpow]
    refine ⟨n, ⟨min &&& ~~~(BitVec.ofNat N (2 ^ n) - 1#N), BitVec.ofNat N (2 ^ n) - 1#N⟩, hlast,
      hfls, ?_, ?_⟩
    · simp only [tnumRange, hfls, Option.bind_eq_bind, Option.bind_some,
        full_width_iff hlast.le, hfull, if_false, hdelta]
      rfl
    · intro i hi
      simp only [BitVec.getLsbD_and, BitVec.getLsbD_not, getLsbD_two_pow_sub_one n hi,
        decide_eq_true hi, Bool.true_and, and_self]

/-! ## Exactness -/

theorem testBit_toNat (x : BitVec N) (i : ℕ) : x.toNat.testBit i = x.getLsbD i := rfl

theorem common_of_lastBit {min max : BitVec N} {n : ℕ} (h : LastBit (min ^^^ max) n) :
    min.toNat / 2 ^ n = max.toNat / 2 ^ n := by
  refine div_two_pow_congr fun i hi => ?_
  have hxor := h.above i hi
  rw [BitVec.getLsbD_xor] at hxor
  rw [testBit_toNat, testBit_toNat]
  revert hxor
  generalize min.getLsbD i = p, max.getLsbD i = q
  revert p q
  decide

/-- In the last differing bit the lower end of an interval has a zero. -/
theorem lastBit_ends {min max : BitVec N} (hle : min ≤ max) {n : ℕ}
    (h : LastBit (min ^^^ max) (n + 1)) :
    min.toNat.testBit n = false ∧ max.toNat.testBit n = true := by
  have hxor := h.at_last n rfl
  rw [BitVec.getLsbD_xor] at hxor
  have hne : min.toNat.testBit n ≠ max.toNat.testBit n := by
    intro heq
    rw [testBit_toNat, testBit_toNat] at heq
    rw [heq, Bool.xor_self] at hxor
    exact absurd hxor (by decide)
  have hdiv := common_of_lastBit h
  have hmin := Nat.div_add_mod min.toNat (2 ^ (n + 1))
  have hmax := Nat.div_add_mod max.toNat (2 ^ (n + 1))
  have hlow : max.toNat % 2 ^ n < 2 ^ n := Nat.mod_lt _ (Nat.two_pow_pos n)
  rw [mod_two_pow_succ_eq, hdiv] at hmin
  rw [mod_two_pow_succ_eq] at hmax
  have hle' : min.toNat ≤ max.toNat := hle
  cases hp : min.toNat.testBit n <;> cases hq : max.toNat.testBit n
  · exact absurd (hp.trans hq.symm) hne
  · exact ⟨rfl, rfl⟩
  · simp only [hp, hq, Bool.toNat_true, Bool.toNat_false] at hmin hmax
    omega
  · exact absurd (hp.trans hq.symm) hne

theorem tnumRange_exact {min max : BitVec N} (hle : min ≤ max) {n : ℕ} {t : Tnum N}
    (hlast : LastBit (min ^^^ max) n)
    (hbits : ∀ i < N, t.mask.getLsbD i = decide (i < n) ∧
      t.value.getLsbD i = (min.getLsbD i && !decide (i < n))) :
    Exact t {v | min ≤ v ∧ v ≤ max} := by
  have hcommon := common_of_lastBit hlast
  rw [exact_iff]
  intro i hi b
  rw [(hbits i hi).1, (hbits i hi).2]
  by_cases hin : i < n
  · refine ⟨fun _ => ?_, fun _ => Or.inl (decide_eq_true hin)⟩
    obtain ⟨k, rfl⟩ := Nat.exists_eq_add_of_lt hin
    obtain ⟨hmin, hmax⟩ := lastBit_ends hle hlast
    obtain ⟨v, hv, hv', hbit⟩ :=
      exists_between_testBit hcommon hmin hmax (by omega : i ≤ i + k) b
    have hvN : v < 2 ^ N := Nat.lt_of_le_of_lt hv' max.isLt
    have hval : (BitVec.ofNat N v).toNat = v := by
      rw [BitVec.toNat_ofNat, Nat.mod_eq_of_lt hvN]
    refine ⟨BitVec.ofNat N v, ⟨?_, ?_⟩, ?_⟩
    · rw [BitVec.le_def, hval]
      exact hv
    · rw [BitVec.le_def, hval]
      exact hv'
    · rw [← testBit_toNat, hval, hbit]
  · rw [decide_eq_false hin, Bool.not_false, Bool.and_true]
    constructor
    · rintro (h | h)
      · exact absurd h (by decide)
      · exact ⟨min, ⟨BitVec.le_refl min, hle⟩, h⟩
    · rintro ⟨v, ⟨hmin, hmax⟩, rfl⟩
      exact Or.inr (testBit_of_between hcommon hmin hmax (by omega)).symm

theorem valid_of_range_bits {min : BitVec N} {n : ℕ} {t : Tnum N}
    (hbits : ∀ i < N, t.mask.getLsbD i = decide (i < n) ∧
      t.value.getLsbD i = (min.getLsbD i && !decide (i < n))) : TnumValid t := by
  refine tnumValid_iff.2 fun i hi hm => ?_
  rw [(hbits i hi).1] at hm
  rw [(hbits i hi).2, hm, Bool.not_true, Bool.and_false]

/-- What callers need: a valid tnum that contains the interval. -/
theorem tnumRange_spec (min max : BitVec N) :
    ∃ t, tnumRange min max = some t ∧ TnumValid t ∧
      (min ≤ max → Exact t {v | min ≤ v ∧ v ≤ max}) := by
  obtain ⟨n, t, hlast, -, ht, hbits⟩ := tnumRange_bits min max
  exact ⟨t, ht, valid_of_range_bits hbits, fun hle => tnumRange_exact hle hlast hbits⟩

theorem full_width_iff_msb {min max : BitVec N} {n : ℕ} (h : LastBit (min ^^^ max) n) :
    0 < N ∧ n = N ↔ min.msb ≠ max.msb := by
  have hmsb : min.msb ≠ max.msb ↔ (min ^^^ max).getLsbD (N - 1) = true := by
    rw [BitVec.msb_eq_getLsbD_last, BitVec.msb_eq_getLsbD_last, BitVec.getLsbD_xor]
    exact Bool.xor_iff_ne.symm
  rw [hmsb]
  constructor
  · rintro ⟨hN, rfl⟩
    exact h.at_last (n - 1) (by omega)
  · intro hbit
    have hN : N - 1 < N := BitVec.lt_of_getLsbD hbit
    refine ⟨by omega, ?_⟩
    by_contra hne
    have := h.le
    rw [h.above (N - 1) (by omega)] at hbit
    exact absurd hbit (by decide)

/-- The tnum of an interval is the best one; its search succeeds, and the
special case is taken exactly when the top bits of the ends differ. -/
theorem tnumRange_best {min max : BitVec N} (hle : min ≤ max) :
    ∃ bits t, fls (min ^^^ max) = some bits ∧
      (BitVec.ofNat N (N - 1) < bits ↔ min.msb ≠ max.msb) ∧
      tnumRange min max = some t ∧ BestTnum t {v | min ≤ v ∧ v ≤ max} := by
  obtain ⟨n, t, hlast, hfls, ht, hbits⟩ := tnumRange_bits min max
  refine ⟨BitVec.ofNat N n, t, hfls, ?_, ht, ?_⟩
  · exact (full_width_iff hlast.le).trans (full_width_iff_msb hlast)
  · exact (tnumRange_exact hle hlast hbits).best (valid_of_range_bits hbits)

theorem tnumRange_best_five_six :
    ∃ bits t, fls (5#4 ^^^ 6#4) = some bits ∧
      (BitVec.ofNat 4 (4 - 1) < bits ↔ (5#4).msb ≠ (6#4).msb) ∧
      tnumRange 5#4 6#4 = some t ∧ BestTnum t {v | 5#4 ≤ v ∧ v ≤ 6#4} :=
  tnumRange_best (by decide)

end Exoverifier

import Exoverifier.Domain.Encoding
import Exoverifier.Tnum.Shift
import Exoverifier.Smt.Bitblast

/-! # Further operators on tristate numbers

Negation, multiplication, division and the left shift by an unknown amount of
`tnum.lean`. A tnum spells the numbers it stands for, digit by digit, so that the
sums and products follow the circuits for them. The left shift is exact: it takes,
bit by bit, precisely the values of the shifted words.
-/

namespace Exoverifier.Domain

open Library

namespace Trit

def IsConst (x : Trit) : Prop := x.isSome = true

instance (x : Trit) : Decidable (IsConst x) := inferInstanceAs (Decidable (_ = true))

def toConst (x : Trit) : Bool := x.getD false

instance : (x : Trit) → (b : Bool) → Decidable (b ∈ x.γ)
  | some y, b => inferInstanceAs (Decidable (y = b))
  | none, _ => isTrue trivial

end Trit

namespace Tnum

variable {n m : ℕ}

/-- All digits but the highest. -/
def init (a : Tnum (n + 1)) : Tnum n := ⟨a.toList.dropLast, by simp⟩

def const (v : Fin n → Bool) : Tnum n := List.Vector.ofFn fun i => some (v i)

def IsConst (x : Tnum n) : Prop := ∀ i : Fin n, Trit.IsConst (x.get i)

instance (x : Tnum n) : Decidable (IsConst x) := inferInstanceAs (Decidable (∀ _ : Fin n, _))

def toConst (x : Tnum n) : List Bool := x.toList.map Trit.toConst

def top : Tnum n := List.Vector.replicate n none

def neg (a : Tnum n) : Tnum n := add (not a) (const (bits 1#n))

/-- The lowest digit of the second factor selects the first; the other digits
multiply what stays of it after a shift. -/
def mul : {n : ℕ} → Tnum n → Tnum n → Tnum n
  | 0, _, _ => List.Vector.nil
  | n + 1, a, b =>
      let p := and a (List.Vector.replicate (n + 1) b.head)
      let r := mul (init a) b.tail
      let s := add p.tail r
      p.head ::ᵥ s

/-- The known digits of a list of the given width. -/
def ofBools (n : ℕ) (v : List Bool) : Tnum n := const fun i => v.getD i false

/-- Division runs the circuit when both arguments are constant. -/
def udiv (a b : Tnum n) : Tnum n :=
  if IsConst a ∧ IsConst b then ofBools n ((Smt.Bitblast.mkUdiv a.toConst b.toConst).run ()).1
  else top

def urem (a b : Tnum n) : Tnum n :=
  if IsConst a ∧ IsConst b then ofBools n ((Smt.Bitblast.mkUrem a.toConst b.toConst).run ()).1
  else top

/-- Shift left by a constant. -/
def shiftl (a : Tnum n) (amt : ℕ) : Tnum n :=
  ⟨List.replicate (min n amt) (some false) ++ a.toList.take (n - amt), by simp; omega⟩

def shlAux (amt : ℕ) (a : Tnum n) : {m : ℕ} → Tnum m → Tnum n
  | 0, _ => a
  | _ + 1, b =>
      let a' := match b.head with
        | some false => a
        | some true => shiftl a amt
        | none => join a (shiftl a amt)
      shlAux (amt <<< 1) a' b.tail

def shl (a : Tnum n) (b : Tnum m) : Tnum n := shlAux 1 a b

def lshr (_ : Tnum n) (_ : Tnum m) : Tnum n := top

def ashr (_ : Tnum n) (_ : Tnum m) : Tnum n := top

/-! ## The numbers a tnum spells -/

/-- The digit may be the bit. -/
def Digit (d : Trit) (b : Bool) : Prop := b ∈ d.γ

instance (d : Trit) (b : Bool) : Decidable (Digit d b) := inferInstanceAs (Decidable (b ∈ d.γ))

theorem spells_iff_get {t : Tnum n} {x : ℕ} :
    Spells Digit t.toList x ↔ x < 2 ^ n ∧ ∀ i : Fin n, Digit (t.get i) (x.testBit i) := by
  have hlen : t.toList.length = n := t.toList_length
  constructor
  · intro h
    refine ⟨hlen ▸ h.lt, fun i => ?_⟩
    rw [List.Vector.get_eq_get_toList]
    exact (spells_iff.1 h).2 i (by rw [hlen]; exact i.isLt)
  · intro h
    refine spells_iff.2 ⟨by rw [hlen]; exact h.1, fun i hi => ?_⟩
    have hdigit := h.2 ⟨i, hlen ▸ hi⟩
    rwa [List.Vector.get_eq_get_toList] at hdigit

theorem bits_mem_iff_spells (t : Tnum n) (x : BitVec n) :
    bits x ∈ t.γ ↔ Spells Digit t.toList x.toNat := by
  rw [spells_iff_get]
  exact ⟨fun h => ⟨x.isLt, h⟩, fun h => h.2⟩

theorem mem_top (x : BitVec n) : bits x ∈ (top : Tnum n).γ := by
  intro i
  rw [top, List.Vector.get_replicate]
  trivial

theorem mem_const (x : BitVec n) : bits x ∈ (const (bits x)).γ := by
  intro i
  rw [const, List.Vector.get_ofFn]
  exact rfl

theorem spells_cons_iff {a : Tnum (n + 1)} {x : ℕ} : Spells Digit a.toList x ↔
    Digit a.head (x.testBit 0) ∧ Spells Digit a.tail.toList (x / 2) := by
  rw [← List.Vector.cons_head_tail a, List.Vector.toList_cons, List.Vector.head_cons,
    List.Vector.tail_cons]
  exact Iff.rfl

/-! ## Sums -/

theorem digit_fullAdd : ∀ (a b c : Trit) (x y z : Bool), Digit a x → Digit b y → Digit c z →
    Digit (Trit.fullAdd a b c).1 (x ^^ y ^^ z) ∧
      Digit (Trit.fullAdd a b c).2 (Bool.atLeastTwo x y z) := by
  decide

theorem spells_adc : ∀ {n : ℕ} {a b : Tnum n} {c : Trit} {x y : ℕ} {z : Bool},
    Spells Digit a.toList x → Spells Digit b.toList y → Digit c z →
      Spells Digit (adc a b c).toList ((x + y + z.toNat) % 2 ^ n)
  | 0, _, _, _, _, _, _, _, _, _ => Nat.mod_one _
  | n + 1, a, b, c, x, y, z, hx, hy, hz => by
      rw [spells_cons_iff] at hx hy
      obtain ⟨hsum, hcarry⟩ := digit_fullAdd _ _ _ _ _ _ hx.1 hy.1 hz
      obtain ⟨hbit, hhalf⟩ := half_add_carry x y z
      have hrest := spells_adc hx.2 hy.2 hcarry
      rw [hhalf, ← mod_two_pow_succ_div] at hrest
      rw [adc, List.Vector.toList_cons]
      refine ⟨?_, hrest⟩
      rw [testBit_zero_mod, hbit]
      exact hsum

theorem spells_add {a b : Tnum n} {x y : ℕ} (hx : Spells Digit a.toList x)
    (hy : Spells Digit b.toList y) : Spells Digit (add a b).toList ((x + y) % 2 ^ n) :=
  spells_adc (z := false) hx hy rfl

/-! ## Products -/

theorem digit_and : ∀ (a b : Trit) (x y : Bool), Digit a x → Digit b y →
    Digit (Trit.and a b) (x && y) := by
  decide

theorem spells_and_replicate {a : Tnum n} {d : Trit} {x : ℕ} {y : Bool}
    (hx : Spells Digit a.toList x) (hy : Digit d y) :
    Spells Digit (and a (List.Vector.replicate n d)).toList (bif y then x else 0) := by
  rw [spells_iff_get] at hx ⊢
  constructor
  · cases y with
    | true => exact hx.1
    | false => exact Nat.two_pow_pos n
  · intro i
    have hbit : (bif y then x else 0).testBit i = (x.testBit i && y) := by
      cases y <;> simp
    rw [and, List.Vector.get_map₂, List.Vector.get_replicate, hbit]
    exact digit_and _ _ _ _ (hx.2 i) hy

theorem spells_init {a : Tnum (n + 1)} {x : ℕ} (h : Spells Digit a.toList x) :
    Spells Digit (init a).toList (x % 2 ^ n) := by
  have hlast := h.dropLast
  rwa [a.toList_length, Nat.add_sub_cancel] at hlast

theorem spells_mul : ∀ {n : ℕ} {a b : Tnum n} {x y : ℕ}, Spells Digit a.toList x →
    Spells Digit b.toList y → Spells Digit (mul a b).toList (x * y % 2 ^ n)
  | 0, _, _, _, _, _, _ => Nat.mod_one _
  | n + 1, a, b, x, y, hx, hy => by
      rw [spells_cons_iff (a := b)] at hy
      have hp := spells_cons_iff.1 (spells_and_replicate hx hy.1)
      have hr := spells_mul (spells_init hx) hy.2
      have hs := spells_cons hp.1 (spells_add hp.2 hr)
      rw [mul, List.Vector.toList_cons, ← Smt.Bitblast.mul_mod_step,
        Nat.add_comm (_ % 2), ← testBit_zero_eq_toNat]
      exact hs

theorem mem_mul {a b : Tnum n} {x y : BitVec n} (hx : bits x ∈ a.γ) (hy : bits y ∈ b.γ) :
    bits (x * y) ∈ (mul a b).γ := by
  rw [bits_mem_iff_spells] at hx hy ⊢
  rw [BitVec.toNat_mul]
  exact spells_mul hx hy

theorem mem_add {a b : Tnum n} {x y : BitVec n} (hx : bits x ∈ a.γ) (hy : bits y ∈ b.γ) :
    bits (x + y) ∈ (add a b).γ := by
  rw [bits_mem_iff_spells] at hx hy ⊢
  rw [BitVec.toNat_add]
  exact spells_add hx hy

theorem mem_not {a : Tnum n} {x : BitVec n} (hx : bits x ∈ a.γ) : bits (~~~x) ∈ (not a).γ := by
  have hdigit : ∀ (d : Trit) (b : Bool), Digit d b → Digit d.not !b := by decide
  intro i
  have hbit : bits (~~~x) i = !bits x i := by
    unfold bits
    rw [BitVec.getLsbD_not, decide_eq_true i.isLt, Bool.true_and]
  rw [not, List.Vector.get_map, hbit]
  exact hdigit _ _ (hx i)

theorem mem_neg {a : Tnum n} {x : BitVec n} (hx : bits x ∈ a.γ) : bits (-x) ∈ (neg a).γ := by
  rw [BitVec.neg_eq_not_add]
  exact mem_add (mem_not hx) (mem_const 1#n)

/-! ## Quotients -/

/-- The digits of a constant are the bits of its one number. -/
theorem spells_toConst {a : Tnum n} {x : ℕ} (ha : IsConst a) (hx : Spells Digit a.toList x) :
    Spells Eq a.toConst x := by
  have hdigit : ∀ (d : Trit) (b : Bool), Trit.IsConst d → Digit d b → d.toConst = b := by decide
  have hlen : a.toConst.length = n := by rw [toConst, List.length_map, a.toList_length]
  rw [spells_iff_get] at hx
  refine spells_iff.2 ⟨by rw [hlen]; exact hx.1, fun i hi => ?_⟩
  have hget := hdigit _ _ (ha ⟨i, hlen ▸ hi⟩) (hx.2 ⟨i, hlen ▸ hi⟩)
  rw [List.Vector.get_eq_get_toList] at hget
  simpa [toConst] using hget

theorem spells_ofBools {v : List Bool} {x : ℕ} (hlen : v.length = n) (h : Spells Eq v x) :
    Spells Digit (ofBools n v).toList x := by
  subst hlen
  rw [spells_iff_get]
  refine ⟨h.lt, fun i => ?_⟩
  have hbit := (spells_iff.1 h).2 i i.isLt
  rw [ofBools, const, List.Vector.get_ofFn, List.getD_eq_getElem _ _ i.isLt]
  exact hbit

theorem length_toConst (a : Tnum n) : a.toConst.length = n := by
  rw [toConst, List.length_map, a.toList_length]

theorem toNat_smtUDiv (x y : BitVec n) :
    (x.smtUDiv y).toNat = if y.toNat = 0 then 2 ^ n - 1 else x.toNat / y.toNat := by
  rw [BitVec.smtUDiv_eq]
  by_cases h : y = 0#n
  · rw [if_pos h, h, if_pos (BitVec.toNat_zero), BitVec.toNat_allOnes]
  · have hne : y.toNat ≠ 0 := fun he => h (BitVec.eq_of_toNat_eq (by simpa using he))
    rw [if_neg h, if_neg hne, BitVec.toNat_udiv]

/-- The circuit divides the numbers of two constants. -/
theorem mkUdivUrem_toConst {a b : Tnum n} {x y : BitVec n} (ha : IsConst a) (hb : IsConst b)
    (hx : bits x ∈ a.γ) (hy : bits y ∈ b.γ) :
    bits (x.smtUDiv y) ∈ (ofBools n ((Smt.Bitblast.mkUdiv a.toConst b.toConst).run ()).1).γ ∧
      bits (x % y) ∈ (ofBools n ((Smt.Bitblast.mkUrem a.toConst b.toConst).run ()).1).γ := by
  rw [bits_mem_iff_spells] at hx hy
  have hlen : a.toConst.length ≤ b.toConst.length := by
    rw [length_toConst, length_toConst]
  have hbuild := Smt.Bitblast.builds_mkUdivUrem (g := ()) (spells_toConst ha hx)
    (spells_toConst hb hy) hlen
  obtain ⟨hq, hr⟩ := hbuild.2
  rw [length_toConst] at hq hr
  constructor
  · rw [bits_mem_iff_spells, toNat_smtUDiv]
    exact spells_ofBools hq.1 hq.2
  · rw [bits_mem_iff_spells, BitVec.toNat_umod]
    exact spells_ofBools hr.1 hr.2

theorem mem_udiv {a b : Tnum n} {x y : BitVec n} (hx : bits x ∈ a.γ) (hy : bits y ∈ b.γ) :
    bits (x.smtUDiv y) ∈ (udiv a b).γ := by
  unfold udiv
  split
  · rename_i h
    exact (mkUdivUrem_toConst h.1 h.2 hx hy).1
  · exact mem_top _

theorem mem_urem {a b : Tnum n} {x y : BitVec n} (hx : bits x ∈ a.γ) (hy : bits y ∈ b.γ) :
    bits (x % y) ∈ (urem a b).γ := by
  unfold urem
  split
  · rename_i h
    exact (mkUdivUrem_toConst h.1 h.2 hx hy).2
  · exact mem_top _

/-! ## Left shifts -/

theorem get_shiftl (a : Tnum n) (amt : ℕ) {i : ℕ} (hi : i < n) :
    (shiftl a amt).get ⟨i, hi⟩ = if i < amt then some false else a.get ⟨i - amt, by omega⟩ := by
  have hlist : (shiftl a amt).toList =
    List.replicate (min n amt) (some false) ++ a.toList.take (n - amt) := rfl
  rw [List.Vector.get_eq_get_toList, List.Vector.get_eq_get_toList]
  simp only [hlist, List.get_eq_getElem, List.getElem_append, Fin.val_cast, List.length_replicate,
    List.getElem_replicate, List.getElem_take]
  by_cases h : i < amt
  · rw [if_pos h, dif_pos (by omega)]
  · simp only [if_neg h, dif_neg h, Nat.min_eq_right (by omega : amt ≤ n)]

theorem encode_shiftl (a : Tnum n) (amt : ℕ) :
    (encode (shiftl a amt)).1 = (encode a).1.map fun x => x <<< amt := by
  have hshift : ∀ (x : BitVec n) (i : ℕ), i < n →
      (x <<< amt).getLsbD i = if i < amt then false else x.getLsbD (i - amt) := by
    intro x i hi
    rw [BitVec.getLsbD_shiftLeft, decide_eq_true hi, Bool.true_and]
    by_cases h : i < amt
    · rw [if_pos h, decide_eq_true h, Bool.not_true, Bool.false_and]
    · rw [if_neg h, decide_eq_false h, Bool.not_false, Bool.true_and]
  refine encode_eq (fun i hi => ?_) (fun i hi => ?_)
  · rw [get_shiftl a amt hi, Exoverifier.Tnum.map, hshift _ i hi]
    split
    · rfl
    · exact (encodePair_value a _).symm
  · rw [get_shiftl a amt hi, Exoverifier.Tnum.map, hshift _ i hi]
    split
    · rfl
    · exact (encodePair_mask a _).symm

/-- The words of a set, shifted by multiples of the weight of an amount. -/
def shiftsBy (S : Set (BitVec n)) (amt : ℕ) (b : Tnum m) : Set (BitVec n) :=
  {z | ∃ x ∈ S, ∃ y, Spells Digit b.toList y ∧ x <<< (y * amt) = z}

/-- One digit of the amount shifts by its weight, by nothing, or by either. -/
theorem exact_shift_digit {a : Tnum n} {S : Set (BitVec n)} (ha : Exact (encode a).1 S)
    (hS : S.Nonempty) (amt : ℕ) (d : Trit) :
    Exact (encode (match d with
      | some false => a
      | some true => shiftl a amt
      | none => join a (shiftl a amt))).1
      {z | ∃ x ∈ S, ∃ v, Digit d v ∧ x <<< (v.toNat * amt) = z} := by
  have hshifted : Exact (encode (shiftl a amt)).1 ((fun x : BitVec n => x <<< amt) '' S) := by
    rw [encode_shiftl]
    exact ha.map (wiring_shiftLeft amt) hS
  match d with
  | some false =>
      convert ha using 1
      ext z
      simp [Digit, Trit.γ]
  | some true =>
      convert hshifted using 1
      ext z
      simp [Digit, Trit.γ]
  | none =>
      rw [encode_join]
      convert ha.union hshifted using 1
      ext z
      simp [Digit, Trit.γ, Bool.exists_bool, exists_or, and_or_left]

theorem shiftsBy_cons (S : Set (BitVec n)) (amt : ℕ) (b : Tnum (m + 1)) :
    shiftsBy {z | ∃ x ∈ S, ∃ v, Digit b.head v ∧ x <<< (v.toNat * amt) = z} (amt <<< 1) b.tail =
      shiftsBy S amt b := by
  have hamount : ∀ (v : Bool) (y : ℕ), v.toNat * amt + y * amt <<< 1 = (2 * y + v.toNat) * amt := by
    intro v y
    rw [Nat.shiftLeft_eq]
    ring
  ext z
  constructor
  · rintro ⟨_, ⟨x, hx, v, hv, rfl⟩, y, hy, rfl⟩
    refine ⟨x, hx, 2 * y + v.toNat, ?_, ?_⟩
    · rw [← List.Vector.cons_head_tail b, List.Vector.toList_cons]
      exact spells_cons hv hy
    · rw [← BitVec.shiftLeft_add, hamount]
  · rintro ⟨x, hx, y, hy, rfl⟩
    rw [spells_cons_iff] at hy
    refine ⟨_, ⟨x, hx, y.testBit 0, hy.1, rfl⟩, y / 2, hy.2, ?_⟩
    rw [← BitVec.shiftLeft_add, hamount, testBit_zero_eq_toNat, Nat.div_add_mod]

/-- The invariant of the loop over the amount: it consumes the lowest digit and
doubles the weight of the others. -/
theorem exact_shlAux {S : Set (BitVec n)} (amt : ℕ) {a : Tnum n} (ha : Exact (encode a).1 S)
    (hS : S.Nonempty) : ∀ {m : ℕ} (b : Tnum m),
      Exact (encode (shlAux amt a b)).1 (shiftsBy S amt b)
  | 0, b => by
      have hnone : shiftsBy S amt b = S := by
        ext z
        rw [List.Vector.eq_nil b]
        simp [shiftsBy, Spells]
      rw [hnone]
      exact ha
  | m + 1, b => by
      have hstep := exact_shift_digit ha hS amt b.head
      obtain ⟨v, hv⟩ : ∃ v, Digit b.head v := by
        generalize b.head = d
        revert d
        decide
      obtain ⟨x, hx⟩ := hS
      rw [← shiftsBy_cons]
      exact exact_shlAux (amt <<< 1) hstep ⟨_, x, hx, v, hv, rfl⟩ b.tail

/-- The left shift is exact for the words of one tnum shifted by those of another. -/
theorem exact_shl (a : Tnum n) (b : Tnum m) : Exact (encode (shl a b)).1
    {z | ∃ (x : BitVec n) (y : BitVec m), bits x ∈ a.γ ∧ bits y ∈ b.γ ∧ x <<< y = z} := by
  have hset : shiftsBy (encode a).1.points 1 b =
      {z | ∃ (x : BitVec n) (y : BitVec m), bits x ∈ a.γ ∧ bits y ∈ b.γ ∧ x <<< y = z} := by
    ext z
    constructor
    · rintro ⟨x, hx, y, hy, rfl⟩
      have hlt : y < 2 ^ m := (spells_iff_get.1 hy).1
      have hnat : (BitVec.ofNat m y).toNat = y := by
        rw [BitVec.toNat_ofNat, Nat.mod_eq_of_lt hlt]
      refine ⟨x, BitVec.ofNat m y, (mem_γ_iff a x).2 hx, ?_, ?_⟩
      · rw [bits_mem_iff_spells, hnat]
        exact hy
      · rw [Nat.mul_one, BitVec.shiftLeft_eq', hnat]
    · rintro ⟨x, y, hx, hy, rfl⟩
      refine ⟨x, (mem_γ_iff a x).1 hx, y.toNat, (bits_mem_iff_spells b y).1 hy, ?_⟩
      rw [Nat.mul_one, BitVec.shiftLeft_eq']
  rw [← hset]
  exact exact_shlAux 1 (exact_points (encode a).2) (points_nonempty (encode a).1) b

theorem mem_shl {a : Tnum n} {b : Tnum m} {x : BitVec n} {y : BitVec m} (hx : bits x ∈ a.γ)
    (hy : bits y ∈ b.γ) : bits (x <<< y) ∈ (shl a b).γ :=
  (mem_γ_iff _ _).2 ((exact_shl a b).contains ⟨x, y, hx, hy, rfl⟩)

/-! ## Optimality -/

section Optimality

variable (f : Tnum n → Tnum m → Tnum n) (g : BitVec n → BitVec m → BitVec n)

def Correct : Prop :=
  ∀ x y u v, bits x ∈ γ u → bits y ∈ γ v → bits (g x y) ∈ γ (f u v)

/-- An optimal operator is below every other correct operator on all arguments. -/
def Optimal : Prop :=
  ∀ f' : Tnum n → Tnum m → Tnum n, Correct f' g → ∀ u v, γ (f u v) ⊆ γ (f' u v)

/-- Optimality without a quantifier over operators. -/
def RosetteFormulation : Prop :=
  ∀ (a : Tnum n) (b : Tnum m) (d : Tnum n) (z : BitVec n), bits z ∈ γ (f a b) → bits z ∉ γ d →
    ∃ x y, bits x ∈ γ a ∧ bits y ∈ γ b ∧ bits (g x y) ∉ γ d

/-- Correct, and optimal in both formulations. -/
def Best : Prop := Correct f g ∧ Optimal f g ∧ RosetteFormulation f g

variable {f g}

theorem rosetteFormulation_iff : RosetteFormulation f g ↔ Optimal f g := by
  constructor
  · intro h f' hf' u v z hz
    obtain ⟨z, rfl⟩ := bits_bijective.2 z
    by_contra hout
    obtain ⟨x, y, hx, hy, hxy⟩ := h u v (f' u v) z hz hout
    exact hxy (hf' x y u v hx hy)
  · intro h a b d z hz hout
    by_contra hnone
    push Not at hnone
    -- the operator that is `d` at the two arguments and knows nothing elsewhere
    have hcorrect : Correct (fun u v => if u = a ∧ v = b then d else top) g := by
      intro x y u v hx hy
      dsimp only
      split
      · rename_i he
        rw [he.1] at hx
        rw [he.2] at hy
        exact hnone x y hx hy
      · exact mem_top _
    have hd := h _ hcorrect a b hz
    rw [if_pos ⟨rfl, rfl⟩] at hd
    exact hout hd

/-- An exact operator is correct and optimal. -/
theorem correct_optimal_of_exact (h : ∀ a b, Exact (encode (f a b)).1
    {z | ∃ x y, bits x ∈ γ a ∧ bits y ∈ γ b ∧ g x y = z}) :
    Correct f g ∧ Optimal f g := by
  constructor
  · intro x y u v hx hy
    exact (mem_γ_iff _ _).2 ((h u v).contains ⟨x, y, hx, hy, rfl⟩)
  · intro f' hf' u v z hz
    obtain ⟨z, rfl⟩ := bits_bijective.2 z
    rw [mem_γ_iff] at hz ⊢
    refine (h u v).least ?_ hz
    rintro _ ⟨x, y, hx, hy, rfl⟩
    exact (mem_γ_iff _ _).1 (hf' x y u v hx hy)

theorem exact_γ {t : Tnum n} {S : Set (BitVec n)} (h : ∀ z, bits z ∈ γ t ↔ z ∈ S) :
    Exact (encode t).1 S := by
  have hset : S = (encode t).1.points := by
    ext z
    rw [← h z]
    exact mem_γ_iff t z
  rw [hset]
  exact exact_points (encode t).2

/-- A digitwise operator is exact when it is exact on single digits. -/
theorem exact_map₂ {op : Trit → Trit → Trit} {φ : Bool → Bool → Bool}
    {g : BitVec n → BitVec n → BitVec n}
    (hop : ∀ p q v, Digit (op p q) v ↔ ∃ x y, Digit p x ∧ Digit q y ∧ φ x y = v)
    (hg : ∀ x y i, bits (g x y) i = φ (bits x i) (bits y i)) (a b : Tnum n) :
    Exact (encode (List.Vector.map₂ op a b)).1
      {z | ∃ x y : BitVec n, bits x ∈ γ a ∧ bits y ∈ γ b ∧ g x y = z} := by
  refine exact_γ fun z => ?_
  have hdigit : ∀ i, bits z i ∈ Trit.γ ((List.Vector.map₂ op a b).get i) ↔
      ∃ x y, Digit (a.get i) x ∧ Digit (b.get i) y ∧ φ x y = bits z i := by
    intro i
    rw [List.Vector.get_map₂]
    exact hop _ _ _
  constructor
  · intro hz
    choose x y hx hy hxy using fun i => (hdigit i).1 (hz i)
    obtain ⟨x, rfl⟩ := bits_bijective.2 x
    obtain ⟨y, rfl⟩ := bits_bijective.2 y
    refine ⟨x, y, hx, hy, bits_injective ?_⟩
    funext i
    rw [hg]
    exact hxy i
  · rintro ⟨x, y, hx, hy, rfl⟩ i
    exact (hdigit i).2 ⟨bits x i, bits y i, hx i, hy i, (hg x y i).symm⟩

theorem exact_and (a b : Tnum n) : Exact (encode (and a b)).1
    {z | ∃ x y : BitVec n, bits x ∈ γ a ∧ bits y ∈ γ b ∧ x &&& y = z} :=
  exact_map₂ (by decide) (fun _ _ _ => BitVec.getLsbD_and) a b

theorem exact_or (a b : Tnum n) : Exact (encode (or a b)).1
    {z | ∃ x y : BitVec n, bits x ∈ γ a ∧ bits y ∈ γ b ∧ x ||| y = z} :=
  exact_map₂ (by decide) (fun _ _ _ => BitVec.getLsbD_or) a b

theorem exact_xor (a b : Tnum n) : Exact (encode (xor a b)).1
    {z | ∃ x y : BitVec n, bits x ∈ γ a ∧ bits y ∈ γ b ∧ x ^^^ y = z} :=
  exact_map₂ (by decide) (fun _ _ _ => BitVec.getLsbD_xor) a b

/-- The words that an operator gives on two tnums, as an image of their pairs. -/
theorem image2_points {g : BitVec n → BitVec n → BitVec n} (a b : Tnum n) :
    Set.image2 g (encode a).1.points (encode b).1.points =
      {z | ∃ x y : BitVec n, bits x ∈ γ a ∧ bits y ∈ γ b ∧ g x y = z} := by
  ext z
  simp only [mem_γ_iff]
  constructor
  · rintro ⟨x, hx, y, hy, hz⟩
    exact ⟨x, y, hx, hy, hz⟩
  · rintro ⟨x, y, hx, hy, hz⟩
    exact ⟨x, hx, y, hy, hz⟩

theorem exact_add (a b : Tnum n) : Exact (encode (add a b)).1
    {z | ∃ x y : BitVec n, bits x ∈ γ a ∧ bits y ∈ γ b ∧ x + y = z} := by
  rw [encode_add, ← image2_points]
  exact tnumAdd_exact (encode a).2 (encode b).2

theorem exact_sub (a b : Tnum n) : Exact (encode (sub a b)).1
    {z | ∃ x y : BitVec n, bits x ∈ γ a ∧ bits y ∈ γ b ∧ x - y = z} := by
  rw [encode_sub, ← image2_points]
  exact tnumSub_exact (encode a).2 (encode b).2

theorem best_of_exact
    (h : ∀ a b, Exact (encode (f a b)).1
      {z | ∃ x y, bits x ∈ γ a ∧ bits y ∈ γ b ∧ g x y = z}) : Best f g := by
  have hoptimal := correct_optimal_of_exact h
  exact ⟨hoptimal.1, hoptimal.2, rosetteFormulation_iff.2 hoptimal.2⟩

/-- Which operators of the domain are the best ones. The amount of a shift has any width. -/
theorem operators_optimal (n : ℕ) :
    Best (n := n) add (· + ·) ∧ Best (n := n) sub (· - ·) ∧ Best (n := n) and (· &&& ·) ∧
      Best (n := n) or (· ||| ·) ∧ Best (n := n) xor (· ^^^ ·) ∧
      ∀ m, Best (n := n) (m := m) shl (· <<< ·) :=
  ⟨best_of_exact exact_add, best_of_exact exact_sub, best_of_exact exact_and,
    best_of_exact exact_or, best_of_exact exact_xor, fun _ => best_of_exact exact_shl⟩

end Optimality

end Tnum

end Exoverifier.Domain

import Exoverifier.Domain.Bv
import Exoverifier.Domain.Rank
import Exoverifier.Domain.TnumOps

/-! # Tristate numbers as an abstract domain

The instance of `tnum.lean` for the interface of bit-vector domains, at every
width, and its height: a join that changes a tnum forgets a digit.
-/

namespace Exoverifier.Domain

open HasGamma

/-- An unknown digit has rank one. -/
def Trit.rank (d : Trit) : ℕ := if d = none then 1 else 0

namespace Tnum

variable {n m : ℕ}

instance : HasGamma (BitVec n) (Tnum n) where
  γ t := {x | bits x ∈ γ t}

instance : HasDecidableGamma (BitVec n) (Tnum n) where
  decGamma t x := inferInstanceAs (Decidable (∀ i, bits x i ∈ Trit.γ (t.get i)))

instance : AbstrLe (BitVec n) (Tnum n) where
  le := le
  decLe a b := inferInstanceAs (Decidable (∀ i, Trit.le (a.get i) (b.get i)))
  le_correct {a b} h x hx i := by
    have hdigit : ∀ (d e : Trit) (v : Bool), Trit.le d e → v ∈ d.γ → v ∈ e.γ := by decide
    exact hdigit _ _ _ (h i) (hx i)

instance : AbstrTop (BitVec n) (Tnum n) where
  top := top
  top_correct := mem_top

instance : AbstrJoin (BitVec n) (Tnum n) (Tnum n) where
  join := join
  join_correct {a b} x h i := by
    have hdigit : ∀ (d e : Trit) (v : Bool), v ∈ d.γ ∨ v ∈ e.γ → v ∈ (Trit.join d e).γ := by
      decide
    rw [join, List.Vector.get_map₂]
    exact hdigit _ _ _ (h.imp (fun h => h i) fun h => h i)

/-- A digit that both arguments allow keeps the meet away from bottom. -/
theorem exists_sequence : ∀ {n : ℕ} {v : List.Vector (Option Trit) n},
    (∀ i, ∃ d, v.get i = some d) → ∃ t, sequence v = some t
  | 0, _, _ => ⟨List.Vector.nil, rfl⟩
  | n + 1, v, h => by
      obtain ⟨d, hd⟩ := h 0
      rw [List.Vector.get_zero] at hd
      obtain ⟨t, ht⟩ := exists_sequence fun i : Fin n => by
        rw [List.Vector.get_tail_succ]
        exact h i.succ
      exact ⟨d ::ᵥ t, by rw [sequence, hd, ht]; rfl⟩

theorem mem_meet {a b : Tnum n} {x : BitVec n} (ha : bits x ∈ γ a) (hb : bits x ∈ γ b) :
    ∃ t, meet a b = some t ∧ bits x ∈ γ t := by
  have hdigit : ∀ (d e : Trit) (v : Bool), v ∈ d.γ → v ∈ e.γ →
      ∃ f, Trit.meet d e = some f ∧ v ∈ f.γ := by
    decide
  obtain ⟨t, ht⟩ : ∃ t, meet a b = some t := by
    refine exists_sequence fun i => ?_
    obtain ⟨f, hf, -⟩ := hdigit _ _ _ (ha i) (hb i)
    exact ⟨f, by rw [List.Vector.get_map₂, hf]⟩
  refine ⟨t, ht, fun i => ?_⟩
  obtain ⟨f, hf, hx⟩ := hdigit _ _ _ (ha i) (hb i)
  rw [get_meet ht i] at hf
  cases hf
  exact hx

instance : AbstrMeet (BitVec n) (Tnum n) (WithBot (Tnum n)) where
  meet a b := (meet a b).elim ⊥ WithBot.some
  meet_correct {a b} x h := by
    obtain ⟨t, ht, hx⟩ := mem_meet h.1 h.2
    rw [ht]
    exact hx

instance : AbstrBv Tnum where
  const c := ⟨const (bits c), by rintro x rfl; exact mem_const x⟩
  not := ⟨not, by rintro x _ a hx rfl; exact mem_not hx⟩
  neg := ⟨neg, by rintro x _ a hx rfl; exact mem_neg hx⟩
  add := ⟨add, by rintro x y _ a b hx hy rfl; exact mem_add hx hy⟩
  sub := ⟨sub, by
    rintro x y _ a b hx hy rfl
    exact (correct_optimal_of_exact exact_sub).1 x y a b hx hy⟩
  and := ⟨and, by
    rintro x y _ a b hx hy rfl
    exact (correct_optimal_of_exact exact_and).1 x y a b hx hy⟩
  or := ⟨or, by
    rintro x y _ a b hx hy rfl
    exact (correct_optimal_of_exact exact_or).1 x y a b hx hy⟩
  xor := ⟨xor, by
    rintro x y _ a b hx hy rfl
    exact (correct_optimal_of_exact exact_xor).1 x y a b hx hy⟩
  mul := ⟨mul, by rintro x y _ a b hx hy rfl; exact mem_mul hx hy⟩
  udiv := ⟨udiv, by rintro x y _ a b hx hy rfl; exact mem_udiv hx hy⟩
  urem := ⟨urem, by rintro x y _ a b hx hy rfl; exact mem_urem hx hy⟩
  shl := ⟨shl, by rintro x y _ a b hx hy rfl; exact mem_shl hx hy⟩
  lshr := ⟨lshr, by rintro x y _ a b hx hy rfl; exact mem_top _⟩
  ashr := ⟨ashr, by rintro x y _ a b hx hy rfl; exact mem_top _⟩

/-! ## The height -/

theorem get_join (a b : Tnum n) (i : Fin n) :
    (join a b).get i = Trit.join (a.get i) (b.get i) :=
  List.Vector.get_map₂ _ _ _ _

/-- The number of unknown digits. -/
def rank (t : Tnum n) : ℕ := ∑ i, Trit.rank (t.get i)

instance : FiniteHeight (BitVec n) (Tnum n) where
  height := n
  rank := rank
  rank_le t := by
    have hdigit : ∀ d, Trit.rank d ≤ 1 := by decide
    calc rank t ≤ ∑ _i : Fin n, 1 := Finset.sum_le_sum fun i _ => hdigit (t.get i)
      _ = n := by simp
  join_eq_or_rank_lt a x := by
    have hdigit : ∀ d e, Trit.rank e ≤ Trit.rank (Trit.join d e) ∧
        (Trit.join d e ≠ e → Trit.rank e < Trit.rank (Trit.join d e)) := by
      decide
    show join a x = x ∨ rank x < rank (join a x)
    by_cases h : ∀ i, Trit.join (a.get i) (x.get i) = x.get i
    · left
      apply List.Vector.ext
      intro i
      rw [get_join, h i]
    · right
      unfold rank
      simp only [get_join]
      push Not at h
      obtain ⟨j, hj⟩ := h
      exact Finset.sum_lt_sum (fun i _ => (hdigit _ _).1) ⟨j, Finset.mem_univ j, (hdigit _ _).2 hj⟩
  le_of_join_eq {a x} h i := by
    have hdigit : ∀ d e, Trit.join d e = e → Trit.le d e := by decide
    apply hdigit
    rw [← get_join]
    exact congrArg (fun t : Tnum n => t.get i) h

end Tnum

end Exoverifier.Domain

import Mathlib.Data.Nat.Find
import Mathlib.Logic.Function.Iterate

/-! # Guarded loops with fuel

A loop that stops as soon as its guard fails and reports failure when it runs
out of fuel first. Its result is an iterate of the body; invariants of the body
under the guard hold of that iterate; and a body that no longer moves what is
observed once the guard has failed may be run any larger number of times.
-/

namespace Exoverifier.Library

universe u v

variable {σ : Type u} {τ : Type v} {guard : σ → Bool} {step : σ → σ}

/-- Run `step` while `guard` holds; `none` when the fuel ends first. -/
def whileFuel (guard : σ → Bool) (step : σ → σ) : ℕ → σ → Option σ
  | 0, _ => none
  | fuel + 1, s => if guard s then whileFuel guard step fuel (step s) else some s

/-- The loop leaves after exactly `k` iterations. -/
structure ExitsAfter (guard : σ → Bool) (step : σ → σ) (s : σ) (k : ℕ) : Prop where
  runs : ∀ j < k, guard (step^[j] s) = true
  stops : guard (step^[k] s) = false

theorem ExitsAfter.tail {s : σ} {k : ℕ} (h : ExitsAfter guard step s (k + 1)) :
    ExitsAfter guard step (step s) k :=
  ⟨fun j hj => h.runs (j + 1) (by omega), h.stops⟩

/-- More fuel than iterations gives the iterate at the exit. -/
theorem whileFuel_eq {s : σ} {k fuel : ℕ} (h : ExitsAfter guard step s k) (hk : k < fuel) :
    whileFuel guard step fuel s = some (step^[k] s) := by
  induction fuel generalizing s k with
  | zero => omega
  | succ fuel ih =>
      cases k with
      | zero =>
          have hstop : guard s = false := h.stops
          simp only [whileFuel, hstop]
          rfl
      | succ k =>
          have hrun : guard s = true := h.runs 0 (by omega)
          simp only [whileFuel, hrun, if_true]
          rw [ih h.tail (by omega), Function.iterate_succ_apply]

/-- A guard that fails after `n` iterations first fails after at most `n`. -/
theorem exists_exitsAfter {s : σ} {n : ℕ} (h : guard (step^[n] s) = false) :
    ∃ k ≤ n, ExitsAfter guard step s k := by
  have hex : ∃ k, guard (step^[k] s) = false := ⟨n, h⟩
  refine ⟨Nat.find hex, Nat.find_min' hex h, ?_, Nat.find_spec hex⟩
  intro j hj
  exact eq_true_of_ne_false (Nat.find_min hex hj)

/-- What the body preserves under the guard holds of every iterate up to the
exit. The invariant may mention the number of iterations made. -/
theorem ExitsAfter.invariant {s : σ} {k : ℕ} (h : ExitsAfter guard step s k)
    {P : ℕ → σ → Prop} (hinit : P 0 s)
    (hstep : ∀ j < k, ∀ t, guard t = true → P j t → P (j + 1) (step t)) :
    P k (step^[k] s) := by
  have hrun : ∀ j ≤ k, P j (step^[j] s) := by
    intro j
    induction j with
    | zero => exact fun _ => hinit
    | succ j ih =>
        intro hj
        rw [Function.iterate_succ_apply']
        exact hstep j (by omega) _ (h.runs j (by omega)) (ih (by omega))
  exact hrun k (Nat.le_refl k)

/-- Iterations made after the guard has failed leave the observation alone. -/
theorem ExitsAfter.observe_iterate {s : σ} {k n : ℕ} (h : ExitsAfter guard step s k)
    {obs : σ → τ} (hidle : ∀ t, guard t = false → guard (step t) = false ∧ obs (step t) = obs t)
    (hn : k ≤ n) : obs (step^[n] s) = obs (step^[k] s) := by
  have hrest : ∀ m, guard (step^[m] (step^[k] s)) = false ∧
      obs (step^[m] (step^[k] s)) = obs (step^[k] s) := by
    intro m
    induction m with
    | zero => exact ⟨h.stops, rfl⟩
    | succ m ih =>
        obtain ⟨hg, ho⟩ := hidle _ ih.1
        rw [Function.iterate_succ_apply']
        exact ⟨hg, ho.trans ih.2⟩
  obtain ⟨m, rfl⟩ := Nat.exists_eq_add_of_le hn
  rw [Nat.add_comm k m, Function.iterate_add_apply]
  exact (hrest m).2

/-! ## Loops that keep their last state -/

/-- Run `step` until `P` holds, at most `fuel` times. -/
def iterateUntil (P : σ → Prop) [DecidablePred P] (step : σ → σ) : ℕ → σ → σ
  | 0, s => s
  | fuel + 1, s => if P s then s else iterateUntil P step fuel (step s)

/-- A bounded rank that grows with every iteration bounds their number. -/
theorem iterateUntil_spec {P : σ → Prop} [DecidablePred P] {rank : σ → ℕ} {bound : ℕ}
    (hbound : ∀ t, rank t ≤ bound) (hgrow : ∀ t, ¬ P t → rank t < rank (step t)) {fuel : ℕ}
    {s : σ} (hfuel : bound ≤ rank s + fuel) : P (iterateUntil P step fuel s) := by
  induction fuel generalizing s with
  | zero =>
      by_contra hs
      have hs' : ¬ P s := hs
      have hlt := hgrow s hs'
      have hle := hbound (step s)
      omega
  | succ fuel ih =>
      rw [iterateUntil]
      by_cases hs : P s
      · rwa [if_pos hs]
      · rw [if_neg hs]
        have hlt := hgrow s hs
        exact ih (by omega)

/-- Once the loop has stopped, more fuel changes nothing. -/
theorem iterateUntil_of_le {P : σ → Prop} [DecidablePred P] {fuel fuel' : ℕ} {s : σ}
    (h : P (iterateUntil P step fuel s)) (hle : fuel ≤ fuel') :
    iterateUntil P step fuel' s = iterateUntil P step fuel s := by
  induction fuel generalizing s fuel' with
  | zero =>
      have hs : P s := h
      cases fuel' with
      | zero => rfl
      | succ fuel' => rw [iterateUntil, iterateUntil, if_pos hs]
  | succ fuel ih =>
      obtain ⟨n, rfl⟩ := Nat.exists_eq_add_of_le' hle
      rw [iterateUntil] at h
      rw [show n + (fuel + 1) = n + fuel + 1 by omega, iterateUntil, iterateUntil]
      by_cases hs : P s
      · rw [if_pos hs, if_pos hs]
      · rw [if_neg hs] at h
        rw [if_neg hs, if_neg hs]
        exact ih h (by omega)

end Exoverifier.Library

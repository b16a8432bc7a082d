import Exoverifier.Absint.Basic
import Exoverifier.Domain.TnumBv
import Exoverifier.Library.Loop

/-! # The constraint solver

The solver of `bpf/absint/basic.lean` joins the result of every constraint into
its target, again and again while a constraint fails and the fuel lasts. Over a
domain of finite height a fuel that depends only on the number of targets is
enough, although the transfer functions are not monotone.
-/

namespace Exoverifier.Absint

open UnorderedMap Bpf Bpf.Cfg Domain Library

/-! ## The height of register files -/

namespace AValue

variable {β : ℕ → Type} [AbstrBv β] [FiniteHeight (BitVec 64) (β 64)]

def rank : AValue (β 64) → ℕ
  | .scalar x => FiniteHeight.rank x
  | .pointer _ x => FiniteHeight.rank x
  | .uninitialized => 0

theorem rank_le (a : AValue (β 64)) : rank a ≤ FiniteHeight.height (β 64) := by
  cases a with
  | scalar x => exact FiniteHeight.rank_le x
  | pointer m x => exact FiniteHeight.rank_le x
  | uninitialized => exact Nat.zero_le _

/-- Values of different kinds join to top, which lies above all others. -/
instance : FiniteHeight Value (WithTop (AValue (β 64))) where
  height := FiniteHeight.height (β 64) + 1
  rank
    | ⊤ => FiniteHeight.height (β 64) + 1
    | (a : AValue (β 64)) => rank a
  rank_le u := by
    cases u with
    | top => exact Nat.le_refl _
    | coe a => exact Nat.le_succ_of_le (rank_le a)
  join_eq_or_rank_lt u v := by
    cases v with
    | top => cases u <;> exact .inl rfl
    | coe b =>
        have htop : rank b < FiniteHeight.height (β 64) + 1 := Nat.lt_succ_of_le (rank_le b)
        cases u with
        | top => exact .inr htop
        | coe a =>
            cases a <;> cases b <;> try exact .inr htop
            case scalar.scalar x y =>
              cases FiniteHeight.join_eq_or_rank_lt x y with
              | inl h => exact .inl (congrArg (fun z => WithTop.some (AValue.scalar z)) h)
              | inr h => exact .inr h
            case pointer.pointer m₁ x m₂ y =>
              cases FiniteHeight.join_eq_or_rank_lt x y with
              | inl h => exact .inl (congrArg (fun z => WithTop.some (AValue.pointer m₁ z)) h)
              | inr h => exact .inr h
            case uninitialized.uninitialized => exact .inl rfl
  le_of_join_eq {u v} h := by
    cases v with
    | top => cases u <;> trivial
    | coe b =>
        cases u with
        | top => exact nomatch h
        | coe a =>
            cases a <;> cases b <;> try exact absurd h WithTop.top_ne_coe
            case scalar.scalar x y =>
              exact FiniteHeight.le_of_join_eq (α := β 64)
                (AValue.scalar.inj (WithTop.coe_injective h))
            case pointer.pointer m₁ x m₂ y =>
              exact ⟨rfl, FiniteHeight.le_of_join_eq (α := β 64)
                (AValue.pointer.inj (WithTop.coe_injective h)).2⟩
            case uninitialized.uninitialized => trivial

end AValue

namespace Nonrelational

variable {β : Type} [ValueAbstr β]

theorem get_join (x y : ARegs β) (i : Fin nregs) :
    (AbstrJoin.join x y : ARegs β).get i = AbstrJoin.join (x.get i) (y.get i) :=
  List.Vector.get_map₂ _ _ _ _

variable [FiniteHeight Value β]

instance : FiniteHeight (Reg → Value) (ARegs β) where
  height := nregs * FiniteHeight.height β
  rank l := ∑ i, FiniteHeight.rank (l.get i)
  rank_le l := by
    calc ∑ i, FiniteHeight.rank (l.get i)
        ≤ ∑ _i : Fin nregs, FiniteHeight.height β :=
          Finset.sum_le_sum fun i _ => FiniteHeight.rank_le (l.get i)
      _ = nregs * FiniteHeight.height β := by simp
  join_eq_or_rank_lt x y := by
    by_cases h : ∀ i, (AbstrJoin.join (x.get i) (y.get i) : β) = y.get i
    · left
      apply List.Vector.ext
      intro i
      rw [get_join, h i]
    · right
      simp only [get_join]
      push Not at h
      obtain ⟨j, hj⟩ := h
      have hle : ∀ i ∈ Finset.univ, FiniteHeight.rank (y.get i) ≤
          FiniteHeight.rank (AbstrJoin.join (x.get i) (y.get i) : β) := by
        intro i _
        cases FiniteHeight.join_eq_or_rank_lt (x.get i) (y.get i) with
        | inl h => rw [h]
        | inr h => exact h.le
      exact Finset.sum_lt_sum hle ⟨j, Finset.mem_univ j,
        (FiniteHeight.join_eq_or_rank_lt (x.get j) (y.get j)).resolve_left hj⟩
  le_of_join_eq {x y} h r := by
    apply FiniteHeight.le_of_join_eq
    rw [interpret, interpret, ← get_join, h]

end Nonrelational

/-! ## The solver -/

attribute [local instance] GenericMap.toMap

variable {CTRL REGS : Type} [RegsAbstr REGS] [DecidableEq CTRL] {map : Type → Type}
  [GenericMap CTRL map]

namespace Solver

/-- Every label starts at bottom. -/
def initialState : map (WithBot REGS) := empty

def refine (s : map (WithBot REGS)) (c : Constraint CTRL REGS) : map (WithBot REGS) :=
  GenericMap.insertWith AbstrJoin.join c.target (c.compute (interpret s c.source)) s

def refineAll : map (WithBot REGS) → List (Constraint CTRL REGS) → map (WithBot REGS)
  | s, [] => s
  | s, c :: cs => refineAll (refine s c) cs

def iterate (l : List (Constraint CTRL REGS)) : map (WithBot REGS) → ℕ → map (WithBot REGS)
  | s, 0 => s
  | s, n + 1 => if ∀ c ∈ l, ConstraintHolds c s then s else iterate l (refineAll s l) n

def solve (l : List (Constraint CTRL REGS)) (fuel : ℕ) : map (WithBot REGS) :=
  iterate l initialState fuel

theorem iterate_eq (l : List (Constraint CTRL REGS)) (s : map (WithBot REGS)) (fuel : ℕ) :
    iterate l s fuel =
      iterateUntil (fun s => ∀ c ∈ l, ConstraintHolds c s) (fun s => refineAll s l) fuel s := by
  induction fuel generalizing s with
  | zero => rfl
  | succ fuel ih => rw [iterate, iterateUntil, ih]

/-! ## Termination -/

theorem constraintHolds_congr {c : Constraint CTRL REGS} {s t : map (WithBot REGS)}
    (h : ∀ k, interpret s k = interpret t k) : ConstraintHolds c s ↔ ConstraintHolds c t := by
  unfold ConstraintHolds
  rw [h, h]

theorem interpret_refine [LawfulGenericMap CTRL map] (s : map (WithBot REGS)) (c : Constraint CTRL REGS) (k : CTRL) :
    interpret (refine s c) k = if k = c.target
      then AbstrJoin.join (c.compute (interpret s c.source)) (interpret s c.target)
      else interpret s k := by
  rw [interpret, refine, LawfulGenericMap.lookup_insertWith]
  generalize c.compute (interpret s c.source) = a
  by_cases hk : k = c.target
  · rw [if_pos hk, if_pos hk, interpret]
    cases lookup c.target s with
    | none => cases a <;> rfl
    | some u => rfl
  · rw [if_neg hk, if_neg hk, interpret]

variable [FiniteHeight (Reg → Value) REGS]

/-- The rank of a map: the ranks of the states at the targets. -/
def mapRank (T : Finset CTRL) (s : map (WithBot REGS)) : ℕ :=
  ∑ k ∈ T, FiniteHeight.rank (interpret s k)

theorem mapRank_le (T : Finset CTRL) (s : map (WithBot REGS)) :
    mapRank T s ≤ T.card * FiniteHeight.height (WithBot REGS) := by
  unfold mapRank
  have h := Finset.sum_le_card_nsmul T (fun k => FiniteHeight.rank (interpret s k))
    (FiniteHeight.height (WithBot REGS)) fun k _ => FiniteHeight.rank_le _
  simpa using h

variable [LawfulGenericMap CTRL map]

/-- A refinement changes nothing, and then its constraint holds, or it climbs. -/
theorem refine_climbs {T : Finset CTRL} {c : Constraint CTRL REGS} (hc : c.target ∈ T)
    (s : map (WithBot REGS)) :
    ((∀ k, interpret (refine s c) k = interpret s k) ∧ ConstraintHolds c s) ∨
      mapRank T s < mapRank T (refine s c) := by
  have hrefine := interpret_refine s c
  cases FiniteHeight.join_eq_or_rank_lt (c.compute (interpret s c.source))
    (interpret s c.target) with
  | inl h =>
      refine .inl ⟨fun k => ?_, FiniteHeight.le_of_join_eq h⟩
      rw [hrefine k]
      by_cases hk : k = c.target
      · rw [if_pos hk, h, hk]
      · rw [if_neg hk]
  | inr h =>
      right
      have hle : ∀ k ∈ T, FiniteHeight.rank (interpret s k) ≤
          FiniteHeight.rank (interpret (refine s c) k) := by
        intro k _
        rw [hrefine k]
        by_cases hk : k = c.target
        · rw [if_pos hk, hk]
          exact h.le
        · rw [if_neg hk]
      have hlt : FiniteHeight.rank (interpret s c.target) <
          FiniteHeight.rank (interpret (refine s c) c.target) := by
        rw [hrefine, if_pos rfl]
        exact h
      exact Finset.sum_lt_sum hle ⟨c.target, hc, hlt⟩

theorem refineAll_climbs {T : Finset CTRL} {l : List (Constraint CTRL REGS)}
    (hl : ∀ c ∈ l, c.target ∈ T) (s : map (WithBot REGS)) :
    ((∀ k, interpret (refineAll s l) k = interpret s k) ∧ ∀ c ∈ l, ConstraintHolds c s) ∨
      mapRank T s < mapRank T (refineAll s l) := by
  induction l generalizing s with
  | nil => exact .inl ⟨fun _ => rfl, nofun⟩
  | cons c cs ih =>
      have hrest := ih (fun c' hc' => hl c' (List.mem_cons_of_mem _ hc')) (refine s c)
      rw [refineAll]
      cases refine_climbs (hl c List.mem_cons_self) s with
      | inl hstay =>
          have hrank : mapRank T (refine s c) = mapRank T s := by
            unfold mapRank
            exact Finset.sum_congr rfl fun k _ => by rw [hstay.1 k]
          cases hrest with
          | inl h =>
              refine .inl ⟨fun k => (h.1 k).trans (hstay.1 k), fun c' hc' => ?_⟩
              cases List.mem_cons.1 hc' with
              | inl he => exact he ▸ hstay.2
              | inr hc' => exact (constraintHolds_congr hstay.1).1 (h.2 c' hc')
          | inr h => exact .inr (hrank ▸ h)
      | inr hlt =>
          right
          cases hrest with
          | inl h =>
              have hrank : mapRank T (refineAll (refine s c) cs) = mapRank T (refine s c) := by
                unfold mapRank
                exact Finset.sum_congr rfl fun k _ => by rw [h.1 k]
              exact hrank ▸ hlt
          | inr h => exact hlt.trans h

/-- The fuel that is always enough: the height of the domain for each target. -/
def enoughFuel (l : List (Constraint CTRL REGS)) : ℕ :=
  (l.map Constraint.target).toFinset.card * FiniteHeight.height (WithBot REGS)

theorem solve_holds {l : List (Constraint CTRL REGS)} {fuel : ℕ} (h : enoughFuel l ≤ fuel) :
    ∀ c ∈ l, ConstraintHolds c (solve l fuel : map (WithBot REGS)) := by
  have htarget : ∀ c ∈ l, c.target ∈ (l.map Constraint.target).toFinset := by
    intro c hc
    exact List.mem_toFinset.2 (List.mem_map.2 ⟨c, hc, rfl⟩)
  have hgrow : ∀ s : map (WithBot REGS), ¬ (∀ c ∈ l, ConstraintHolds c s) →
      mapRank (l.map Constraint.target).toFinset s <
        mapRank (l.map Constraint.target).toFinset (refineAll s l) := by
    intro s hs
    exact (refineAll_climbs htarget s).resolve_left fun hstay => hs hstay.2
  rw [solve, iterate_eq]
  exact iterateUntil_spec (mapRank_le _) hgrow (Nat.le_add_left_of_le h)

/-- The solver with enough fuel covers every reachable state, decides safety
soundly, and gives the same solution with any larger fuel. -/
theorem solve_sound {p : Pgrm CTRL map} {fuel : ℕ}
    (h : enoughFuel (genConstraints p : List (Constraint CTRL REGS)) ≤ fuel) :
    (∀ (o : Oracle) (c : RunState CTRL), Star p o (Cfg.initialState p) (.running c) →
      c.regs ∈ HasGamma.γ
        (interpret (solve (genConstraints p) fuel : map (WithBot REGS)) c.pc)) ∧
      (∀ fuel' ≥ fuel, (solve (genConstraints p) fuel' : map (WithBot REGS)) =
        solve (genConstraints p) fuel) ∧
      (Secure p (solve (genConstraints p) fuel : map (WithBot REGS)) → Safe p) := by
  have hsolve : Approximates p (solve (genConstraints p) fuel : map (WithBot REGS)) :=
    solve_holds h
  refine ⟨fun o c hc => hsolve.reachable hc, fun fuel' hfuel' => ?_,
    safe_of_approximates_secure hsolve⟩
  unfold Approximates at hsolve
  rw [solve, iterate_eq] at hsolve
  rw [solve, solve, iterate_eq, iterate_eq]
  exact iterateUntil_of_le hsolve hfuel'

/-- Draw random numbers until one is a multiple of eight, and return it masked. -/
def maskLoop : TrieProgram where
  entry := 1
  code :=
    Trie.kinsert 1 (.call .getPrandomU32 2) <|
    Trie.kinsert 2 (.alu64K .and .r0 7 3) <|
    Trie.kinsert 3 (.jmp64K .jne .r0 0 1 4) <|
    Trie.kinsert 4 .exit .nil

/-- The solver shows a program with a loop safe over tristate numbers. -/
theorem solve_sound_maskLoop : Safe maskLoop := by
  have h := @solve_sound PosNum (Nonrelational.ARegs (WithTop (AValue (Domain.Tnum 64)))) _ _
    Trie _ _ _ maskLoop _ (Nat.le_refl _)
  exact h.2.2 (by decide +kernel)

end Solver

end Exoverifier.Absint

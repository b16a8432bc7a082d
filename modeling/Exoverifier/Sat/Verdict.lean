import Exoverifier.Sat.Checker

/-! # Verdicts of proof checking

A refutation without support for resolution accepts the actions of a proof up to the
first that fails. Each result has one meaning, over the formula that the accepted
actions lead to, and a refutation has the result exactly when the meaning holds.
-/

namespace Exoverifier.Sat

open UnorderedMap

variable {α β κ γ : Type} [Clause α β] [Formula κ β γ] [DecidableEq α] [DecidableEq κ]

/-! ## Runs -/

/-- All actions are accepted and lead from one formula to another. -/
inductive Runs (del : γ → γ → γ) : γ → List (Action α β κ γ) → γ → Prop where
  | nil {f : γ} : Runs del f [] f
  | rup {f g : γ} {k : κ} {c : β} {hints : List κ} {as : List (Action α β κ γ)}
      (hrup : RupVerdict f hints c .ok) (has : Runs del (kinsert k c f) as g) :
      Runs del f (.rup k c hints :: as) g
  | del {f g : γ} {k : κ} {hints : γ} {as : List (Action α β κ γ)}
      (has : Runs del (del f hints) as g) : Runs del f (.del k hints :: as) g

theorem Runs.trans {del : γ → γ → γ} {f g h : γ} {as as' : List (Action α β κ γ)}
    (hfg : Runs del f as g) (hgh : Runs del g as' h) : Runs del f (as ++ as') h := by
  induction hfg with
  | nil => exact hgh
  | rup hrup _ ih => exact .rup hrup (ih hgh)
  | del _ ih => exact .del (ih hgh)

/-- The formula has an empty clause, or the last action adds one. -/
def Refuted (as : List (Action α β κ γ)) (f : γ) : Prop :=
  (∃ c ∈ elems f, toList c = []) ∨
    ∃ k c hints, as.getLast? = some (.rup k c hints) ∧ toList c = []

/-- What a refutation finds. An error is about the formula that the actions before
the one it stops at lead to. -/
def Verdict (del : γ → γ → γ) (f : γ) (as : List (Action α β κ γ)) : Result κ → Prop
  | .ok => ∃ g, Runs del f as g ∧ Refuted as g
  | .outOfProof => ∃ g, Runs del f as g ∧ ¬ Refuted as g
  | .noRatSupport => ∃ before k l c ks hints after g,
      as = before ++ .rat k l c ks hints :: after ∧ Runs del f before g
  | .missingPivot => False
  | r => ∃ before k c hints after g,
      as = before ++ .rup k c hints :: after ∧ Runs del f before g ∧ RupVerdict g hints c r

section Steps

variable {del : γ → γ → γ} {f g : γ} {as : List (Action α β κ γ)}

theorem refute_rup_cons {k : κ} {c : β} {hints : List κ} (h : rup f hints c = .ok)
    (hrest : as ≠ []) :
    refute rup (fun _ _ _ _ _ => .noRatSupport) del f (.rup k c hints :: as) =
      refute rup (fun _ _ _ _ _ => .noRatSupport) del (kinsert k c f) as := by
  rw [refute]
  simp only [h, if_true]
  rw [if_neg]
  simp [hrest]

/-- Accepted actions are passed when others follow. -/
theorem refute_append_of_runs (h : Runs del f as g) {after : List (Action α β κ γ)}
    (hafter : after ≠ []) :
    refute rup (fun _ _ _ _ _ => .noRatSupport) del f (as ++ after) =
      refute rup (fun _ _ _ _ _ => .noRatSupport) del g after := by
  induction h with
  | nil => rfl
  | rup hrup _ ih =>
      rw [List.cons_append, refute_rup_cons (rup_eq_iff.2 hrup)
        (List.append_ne_nil_of_right_ne_nil _ hafter), ih]
  | del _ ih => rw [List.cons_append, refute, ih]

section Refuted

omit [DecidableEq α] [DecidableEq κ]

theorem refuted_nil : Refuted ([] : List (Action α β κ γ)) g ↔ (elems g).any null = true := by
  rw [Refuted, List.any_eq_true]
  simp only [null_iff, List.getLast?_nil, reduceCtorEq, false_and, exists_false, or_false]

theorem refuted_rup {k : κ} {c : β} {hints : List κ} :
    Refuted [(.rup k c hints : Action α β κ γ)] g ↔
      null c = true ∨ (elems g).any null = true := by
  rw [Refuted, List.any_eq_true, or_comm]
  simp only [null_iff, List.getLast?_singleton, Option.some.injEq, Action.rup.injEq]
  constructor
  · rintro (⟨k', c', hints', ⟨rfl, rfl, rfl⟩, hc⟩ | hg)
    · exact Or.inl hc
    · exact Or.inr hg
  · rintro (hc | hg)
    · exact Or.inl ⟨k, c, hints, ⟨rfl, rfl, rfl⟩, hc⟩
    · exact Or.inr hg

theorem refuted_cons {a : Action α β κ γ} (has : as ≠ []) :
    Refuted (a :: as) g ↔ Refuted as g := by
  obtain ⟨a', as, rfl⟩ := List.exists_cons_of_ne_nil has
  rw [Refuted, Refuted, List.getLast?_cons_cons]

theorem refuted_del {k : κ} {hints : γ} : Refuted (.del k hints :: as) g ↔ Refuted as g := by
  by_cases has : as = []
  · subst has
    rw [refuted_nil, Refuted, List.any_eq_true]
    simp only [null_iff, List.getLast?_singleton, Option.some.injEq, reduceCtorEq, false_and,
      exists_false, or_false]
  · exact refuted_cons has

end Refuted

open Classical in
/-- When all actions are accepted, an empty clause decides. -/
theorem refute_of_runs (h : Runs del f as g) :
    refute rup (fun _ _ _ _ _ => .noRatSupport) del f as =
      if Refuted as g then .ok else .outOfProof := by
  induction h with
  | nil => simp only [refute, refuted_nil]
  | @rup f g k c hints as hrup has ih =>
      by_cases hlast : as = []
      · subst hlast
        cases has
        by_cases hc : null c = true
        · simp only [refute, rup_eq_iff.2 hrup, refuted_rup, hc, List.isEmpty_nil, Bool.and_self,
            true_or, if_true]
        · simp only [refute, rup_eq_iff.2 hrup, refuted_rup, hc, List.isEmpty_nil, Bool.and_false,
            Bool.false_eq_true, false_or, if_true, if_false]
      · rw [refute_rup_cons (rup_eq_iff.2 hrup) hlast, ih]
        simp only [refuted_cons hlast]
  | del _ ih =>
      rw [refute, ih]
      simp only [refuted_del]

/-- An action that is not accepted. -/
def Rejects (f : γ) : Action α β κ γ → Prop
  | .rup _ c hints => rup f hints c ≠ .ok
  | .rat _ _ _ _ _ => True
  | .del _ _ => False

/-- Actions are accepted up to the end or to one that is not. -/
theorem exists_runs_rejects (del : γ → γ → γ) (f : γ) (as : List (Action α β κ γ)) :
    ∃ before after g, as = before ++ after ∧ Runs del f before g ∧
      ∀ a ∈ after.head?, Rejects g a := by
  induction as generalizing f with
  | nil => exact ⟨[], [], f, rfl, .nil, by simp⟩
  | cons a as ih =>
      cases a with
      | rup k c hints =>
          by_cases hr : rup f hints c = .ok
          · obtain ⟨before, after, g, rfl, hbefore, hafter⟩ := ih (kinsert k c f)
            exact ⟨.rup k c hints :: before, after, g, rfl, .rup (rup_eq_iff.1 hr) hbefore, hafter⟩
          · exact ⟨[], _, f, rfl, .nil, by simpa [Rejects] using hr⟩
      | rat k l c ks hints => exact ⟨[], _, f, rfl, .nil, by simp [Rejects]⟩
      | del k hints =>
          obtain ⟨before, after, g, rfl, hbefore, hafter⟩ := ih (del f hints)
          exact ⟨.del k hints :: before, after, g, rfl, .del hbefore, hafter⟩

theorem refute_of_rejects {k : κ} {c : β} {hints : List κ} {r : Result κ} (h : Runs del f as g)
    (hr : rup g hints c = r) (hstop : r ≠ .ok) (after : List (Action α β κ γ)) :
    refute rup (fun _ _ _ _ _ => .noRatSupport) del f (as ++ .rup k c hints :: after) = r := by
  rw [refute_append_of_runs h (List.cons_ne_nil _ _), refute]
  simp only [hr, if_neg hstop]

theorem verdict_of_rup {k : κ} {c : β} {hints : List κ} (h : Runs del f as g)
    (hstop : rup g hints c ≠ .ok) (after : List (Action α β κ γ)) :
    Verdict del f (as ++ .rup k c hints :: after) (rup g hints c) := by
  have hverdict := rupVerdict_rup g hints c
  cases hr : rup g hints c with
  | ok => exact absurd hr hstop
  | outOfHints => exact ⟨as, k, c, hints, after, g, rfl, h, hr ▸ hverdict⟩
  | missingClause k' => exact ⟨as, k, c, hints, after, g, rfl, h, hr ▸ hverdict⟩
  | noUnitClause k' => exact ⟨as, k, c, hints, after, g, rfl, h, hr ▸ hverdict⟩
  | outOfProof => exact (hr ▸ hverdict : RupVerdict g hints c .outOfProof).elim
  | noRatSupport => exact (hr ▸ hverdict : RupVerdict g hints c .noRatSupport).elim
  | missingPivot => exact (hr ▸ hverdict : RupVerdict g hints c .missingPivot).elim

theorem verdict_refute (del : γ → γ → γ) (f : γ) (as : List (Action α β κ γ)) :
    Verdict del f as (refute rup (fun _ _ _ _ _ => .noRatSupport) del f as) := by
  obtain ⟨before, after, g, rfl, hbefore, hafter⟩ := exists_runs_rejects del f as
  cases after with
  | nil =>
      rw [List.append_nil, refute_of_runs hbefore]
      split
      · next hrefuted => exact ⟨g, hbefore, hrefuted⟩
      · next hrefuted => exact ⟨g, hbefore, hrefuted⟩
  | cons a after =>
      have hstop := hafter a rfl
      cases a with
      | rup k c hints =>
          rw [refute_of_rejects hbefore rfl hstop]
          exact verdict_of_rup hbefore hstop after
      | rat k l c ks hints =>
          rw [refute_append_of_runs hbefore (List.cons_ne_nil _ _), refute]
          exact ⟨before, k, l, c, ks, hints, after, g, rfl, hbefore⟩
      | del k hints => exact hstop.elim

theorem Verdict.refute_eq {r : Result κ} (h : Verdict del f as r) :
    refute rup (fun _ _ _ _ _ => .noRatSupport) del f as = r := by
  cases r with
  | ok =>
      obtain ⟨g, has, hrefuted⟩ := h
      rw [refute_of_runs has, if_pos hrefuted]
  | outOfProof =>
      obtain ⟨g, has, hrefuted⟩ := h
      rw [refute_of_runs has, if_neg hrefuted]
  | noRatSupport =>
      obtain ⟨before, k, l, c, ks, hints, after, g, rfl, hbefore⟩ := h
      rw [refute_append_of_runs hbefore (List.cons_ne_nil _ _), refute]
      rfl
  | missingPivot => exact h.elim
  | outOfHints =>
      obtain ⟨before, k, c, hints, after, g, rfl, hbefore, hstop⟩ := h
      exact refute_of_rejects hbefore hstop.rup_eq (by simp) after
  | missingClause k' =>
      obtain ⟨before, k, c, hints, after, g, rfl, hbefore, hstop⟩ := h
      exact refute_of_rejects hbefore hstop.rup_eq (by simp) after
  | noUnitClause k' =>
      obtain ⟨before, k, c, hints, after, g, rfl, hbefore, hstop⟩ := h
      exact refute_of_rejects hbefore hstop.rup_eq (by simp) after

/-- Without support for resolution, a refutation has a result exactly when it finds
what the result says. -/
theorem refute_eq_iff {r : Result κ} :
    refute rup (fun _ _ _ _ _ => .noRatSupport) del f as = r ↔ Verdict del f as r := by
  constructor
  · rintro rfl
    exact verdict_refute del f as
  · exact Verdict.refute_eq

end Steps

/-- The second hint of the addition names the clause that the first action deletes. -/
example : drupCheck (ofLists [[⟨1, false⟩], [⟨1, true⟩]] : Trie (Trie Bool))
    ([.del 3 (kinsert 1 .nil .nil), .rup 4 .nil [2, 1]] : List DefaultAction) =
      .missingClause 1 := by decide

end Exoverifier.Sat
